import KeyLedger.Candidate.Wire
import KeyLedger.Patch.Wire
import KeyLedger.Proofs.Json.Codecs
import KeyLedger.Report

/-!
# What is exchanged is read back

Candidates come from extractors, patches go to and fro between tools, and reports are kept in files.
All of them are read back from their own texts as they were, in whatever layout they are written.

Fields that hold nothing are left out, and a field that is left out is read as holding nothing. This
has to hold of each of these fields: one whose fallback were not what it is left out for would lose
its value now and then.

## Main definitions

* `Patch.Writable`, `Tally.Writable` — offsets and counts of 64 bits, details that can be read

## Main results

* `Candidate.reads`, `Patch.Writable.reads`, `Report.Writable.reads` — one value
* `exchange_round_trip` — whole texts
-/

namespace KeyLedger

open Json (Arranges)

/-! ### Members that may be left out -/

namespace Json

theorem lookup_memberIf (k : String) (v : Option Json) (j : String) :
    (memberIf k v).lookup j = if j = k then v else none := by
  cases v with
  | none => simp [memberIf]
  | some v =>
    by_cases h : j = k
    · simp [memberIf, h]
    · have hbeq : (j == k) = false := by simpa using h
      simp [memberIf, List.lookup_cons, hbeq, h]

theorem forall_mem_memberIf {k : String} {v : Option Json} {P : String × Json → Prop} :
    (∀ m ∈ memberIf k v, P m) ↔ ∀ w, v = some w → P (k, w) := by
  cases v <;> simp [memberIf]

theorem keys_memberIf_sublist (k : String) (v : Option Json) :
    ((memberIf k v).map Prod.fst).Sublist [k] := by
  cases v <;> simp [memberIf]

end Json

theorem unlessEmpty_eq_some_iff {α : Type} {l : List α} {v w : Json} :
    unlessEmpty l v = some w ↔ l ≠ [] ∧ v = w := by
  cases l <;> simp [unlessEmpty]

theorem unlessEmpty_eq_none_iff {α : Type} {l : List α} {v : Json} :
    unlessEmpty l v = none ↔ l = [] := by
  cases l <;> simp [unlessEmpty]

theorem Dict.toList_eq_nil_iff {α : Type} {d : Dict α} : d.toList = [] ↔ d = ∅ :=
  ⟨fun h => Dict.eq_of_toList h, fun h => h ▸ rfl⟩

theorem Json.memberIf_unlessEmpty {α : Type} (k : String) (l : List α) (v : Json) :
    memberIf k (unlessEmpty l v) = if l.isEmpty then [] else [(k, v)] := by
  rw [unlessEmpty]
  split <;> rfl

variable {f : Json → Json} {n : Nat}

/-! ### Candidates -/

theorem NodeKind.lookup_names (k : NodeKind) : NodeKind.names.lookup k.name = some k := by
  cases k <;> decide

theorem InlineTag.lookup_names (t : InlineTag) : InlineTag.names.lookup t.name = some t := by
  cases t <;> decide

theorem SourceRange.within_toJson (r : SourceRange) : r.toJson.Within (n + 1) := by
  refine .obj (by simp) ?_
  simp only [List.forall_mem_cons, List.not_mem_nil, false_implies, implies_true, and_true]
  exact ⟨Json.within_str _ _, Json.within_offset _ _, Json.within_offset _ _⟩

theorem SourceRange.reads (hf : Arranges f) (r : SourceRange) :
    SourceRange.reader.Reads f r.toJson r := by
  refine Reader.reads_record hf (by simp) fun fs h => ?_
  have hfile := h.required "file" (by simp) rfl (Reader.reads_string hf r.file)
  have hstart := h.required "start" (by simp) rfl (Reader.reads_uint64 hf r.start)
  have hstop := h.required "end" (by simp) rfl (Reader.reads_uint64 hf r.stop)
  rw [hfile, hstart, hstop]
  rfl

namespace Candidate

/-- The members of a candidate. -/
def members (c : Candidate) : List (String × Json) :=
  [("id", .str c.id), ("namespace", .str c.ns), ("kind", .str c.kind.name)]
    ++ Json.memberIf "tag" (c.tag.map .str)
    ++ Json.memberIf "attr" (c.attr.map .str)
    ++ [("text", .str c.text)]
    ++ Json.memberIf "inlineTags"
        (unlessEmpty c.inlineTags (.strings (c.inlineTags.map InlineTag.name)))
    ++ Json.memberIf "hints"
        (unlessEmpty c.hints.toList (.obj (c.hints.toList.map fun m => (m.1, .str m.2))))
    ++ [("loc", c.loc.toJson), ("framework", .str c.framework)]

theorem toJson_eq (c : Candidate) : c.toJson = .obj c.members := rfl

theorem keys_members_nodup (c : Candidate) : (c.members.map Prod.fst).Nodup := by
  have hsublist : (c.members.map Prod.fst).Sublist (["id", "namespace", "kind"] ++ ["tag"] ++
      ["attr"] ++ ["text"] ++ ["inlineTags"] ++ ["hints"] ++ ["loc", "framework"]) := by
    simp only [members, List.map_append]
    repeat' apply List.Sublist.append
    all_goals first | exact List.Sublist.refl _ | exact Json.keys_memberIf_sublist _ _
  exact hsublist.nodup (by decide)

theorem within_toJson (c : Candidate) : c.toJson.Within (n + 2) := by
  refine .obj c.keys_members_nodup ?_
  simp only [List.forall_mem_append, List.forall_mem_cons, Json.forall_mem_memberIf,
    List.not_mem_nil, false_implies, implies_true, and_true, Json.within_str, true_and,
    Option.map_eq_some_iff, unlessEmpty_eq_some_iff]
  refine ⟨⟨⟨⟨?_, ?_⟩, ?_⟩, ?_⟩, c.loc.within_toJson⟩
  · rintro _ ⟨s, -, rfl⟩
    exact Json.within_str _ s
  · rintro _ ⟨s, -, rfl⟩
    exact Json.within_str _ s
  · rintro _ ⟨-, rfl⟩
    exact Json.within_strings n _
  · rintro _ ⟨-, rfl⟩
    exact .dict fun m _ => Json.within_str n m.2

/-- What stands under the name of each field. -/
theorem lookup_members (c : Candidate) :
    c.members.lookup "id" = some (.str c.id) ∧
    c.members.lookup "namespace" = some (.str c.ns) ∧
    c.members.lookup "kind" = some (.str c.kind.name) ∧
    c.members.lookup "tag" = c.tag.map .str ∧
    c.members.lookup "attr" = c.attr.map .str ∧
    c.members.lookup "text" = some (.str c.text) ∧
    c.members.lookup "inlineTags" =
      unlessEmpty c.inlineTags (.strings (c.inlineTags.map InlineTag.name)) ∧
    c.members.lookup "hints" =
      unlessEmpty c.hints.toList (.obj (c.hints.toList.map fun m => (m.1, .str m.2))) ∧
    c.members.lookup "loc" = some c.loc.toJson ∧
    c.members.lookup "framework" = some (.str c.framework) := by
  simp [members, List.lookup_append, Json.lookup_memberIf, List.lookup_cons]

/-- **A candidate is read back.** -/
theorem reads (hf : Arranges f) (c : Candidate) : Candidate.reader.Reads f c.toJson c := by
  obtain ⟨hid, hns, hkind, htag, hattr, htext, htags, hhints, hloc, hframework⟩ := c.lookup_members
  refine Reader.reads_record hf c.keys_members_nodup fun fs h => ?_
  have hid := h.withDefault_of_written "id" (by simp) hid (Reader.reads_string hf c.id) ""
  have hns := h.required "namespace" (by simp) hns (Reader.reads_string hf c.ns)
  have hkind := h.required "kind" (by simp) hkind (Reader.reads_oneOf hf c.kind.lookup_names)
  have htag := h.optional hf "tag" (by simp) htag
  have hattr := h.optional hf "attr" (by simp) hattr
  have htext := h.required "text" (by simp) htext (Reader.reads_string hf c.text)
  have htags : fs.withDefault "inlineTags" [] (.list (.oneOf InlineTag.names)) =
      some c.inlineTags := by
    refine h.withDefault "inlineTags" (by simp) htags unlessEmpty_eq_none_iff.mp fun v hv => ?_
    obtain ⟨-, rfl⟩ := unlessEmpty_eq_some_iff.mp hv
    rw [Json.strings, List.map_map]
    exact Reader.reads_list hf fun t _ => Reader.reads_oneOf hf t.lookup_names
  have hhints : fs.withDefault "hints" ∅ (.dict .string) = some c.hints := by
    refine h.withDefault "hints" (by simp) hhints
      (fun hnone => Dict.toList_eq_nil_iff.mp (unlessEmpty_eq_none_iff.mp hnone)) fun v hv => ?_
    obtain ⟨-, rfl⟩ := unlessEmpty_eq_some_iff.mp hv
    exact Reader.reads_dict hf fun m _ => Reader.reads_string hf m.2
  have hloc := h.required "loc" (by simp) hloc (SourceRange.reads hf c.loc)
  have hframework := h.required "framework" (by simp) hframework
    (Reader.reads_string hf c.framework)
  rw [hid, hns, hkind, htag, hattr, htext, htags, hhints, hloc, hframework]
  rfl

end Candidate

/-! ### Patches -/

theorem Import.within_toJson (i : Import) : i.toJson.Within (n + 1) := by
  refine .obj (by simp) ?_
  simp only [List.forall_mem_cons, List.not_mem_nil, false_implies, implies_true, and_true]
  exact ⟨Json.within_str _ _, Json.within_str _ _⟩

theorem Import.reads (hf : Arranges f) (i : Import) : Import.reader.Reads f i.toJson i := by
  refine Reader.reads_record hf (by simp) fun fs h => ?_
  have hsource := h.required "from" (by simp) rfl (Reader.reads_string hf i.source)
  have hcode := h.required "code" (by simp) rfl (Reader.reads_string hf i.code)
  rw [hsource, hcode]
  rfl

theorem Edit.within_toJson (e : Edit) : e.toJson.Within (n + 1) := by
  refine .obj (by simp) ?_
  simp only [List.forall_mem_cons, List.not_mem_nil, false_implies, implies_true, and_true]
  exact ⟨Json.within_nat _ _, Json.within_nat _ _, Json.within_str _ _⟩

theorem Edit.reads (hf : Arranges f) {e : Edit} (hstart : e.start < UInt64.size)
    (hstop : e.stop < UInt64.size) : Edit.reader.Reads f e.toJson e := by
  refine Reader.reads_record hf (by simp) fun fs h => ?_
  have hstart := h.required "start" (by simp) rfl (Reader.reads_nat hf hstart)
  have hstop := h.required "end" (by simp) rfl (Reader.reads_nat hf hstop)
  have htext := h.required "replacement" (by simp) rfl (Reader.reads_string hf e.replacement)
  rw [hstart, hstop, htext]
  rfl

namespace Patch

/-- A patch whose offsets have 64 bits, and whose details are an object in key order, with numbers
that are denoted by their own spellings, that nests no deeper than a reader of patches allows. -/
structure Writable (p : Patch) : Prop where
  /-- The offsets of the edits. -/
  offsets : ∀ e ∈ p.edits, e.start < UInt64.size ∧ e.stop < UInt64.size
  /-- The order and the numbers of the details. -/
  canonical : (Json.ofDict p.details).Canonical Number.Steady
  /-- The depth of the details, which stand in a patch in a list. -/
  shallow : (Json.ofDict p.details).depth + 2 ≤ Doc.maxDepth

/-- The members of a patch. -/
def members (p : Patch) : List (String × Json) :=
  [("file", .str p.file), ("edits", .arr (p.edits.map Edit.toJson))]
    ++ Json.memberIf "imports" (unlessEmpty p.imports (.arr (p.imports.map Import.toJson)))
    ++ Json.memberIf "meta" (unlessEmpty p.details.toList (.ofDict p.details))

variable {p : Patch}

theorem toJson_eq (p : Patch) : p.toJson = .obj p.members := by
  rw [toJson, members, Json.memberIf_unlessEmpty, Json.memberIf_unlessEmpty, Dict.isEmpty]

theorem keys_members_nodup (p : Patch) : (p.members.map Prod.fst).Nodup := by
  have hsublist : (p.members.map Prod.fst).Sublist
      (["file", "edits"] ++ ["imports"] ++ ["meta"]) := by
    simp only [members, List.map_append]
    repeat' apply List.Sublist.append
    all_goals first | exact List.Sublist.refl _ | exact Json.keys_memberIf_sublist _ _
  exact hsublist.nodup (by decide)

/-- What stands under the name of each field. -/
theorem lookup_members (p : Patch) :
    p.members.lookup "file" = some (.str p.file) ∧
    p.members.lookup "edits" = some (.arr (p.edits.map Edit.toJson)) ∧
    p.members.lookup "imports" =
      unlessEmpty p.imports (.arr (p.imports.map Import.toJson)) ∧
    p.members.lookup "meta" = unlessEmpty p.details.toList (.ofDict p.details) := by
  simp [members, List.lookup_append, Json.lookup_memberIf, List.lookup_cons]

theorem Writable.within_toJson (hp : p.Writable) : p.toJson.Within (Doc.maxDepth - 1) := by
  rw [toJson_eq]
  refine Json.Within.obj (n := Doc.maxDepth - 2) p.keys_members_nodup ?_
  simp only [members, List.forall_mem_append, List.forall_mem_cons, Json.forall_mem_memberIf,
    List.not_mem_nil, false_implies, implies_true, and_true, Json.within_str, true_and,
    unlessEmpty_eq_some_iff]
  refine ⟨⟨.arr (n := Doc.maxDepth - 3) fun v hv => ?_, ?_⟩, ?_⟩
  · obtain ⟨e, -, rfl⟩ := List.mem_map.mp hv
    exact e.within_toJson
  · rintro _ ⟨-, rfl⟩
    refine .arr (n := Doc.maxDepth - 3) fun v hv => ?_
    obtain ⟨i, -, rfl⟩ := List.mem_map.mp hv
    exact i.within_toJson
  · rintro _ ⟨-, rfl⟩
    exact ⟨hp.canonical.steady, Nat.le_sub_of_add_le hp.shallow⟩

/-- **A patch is read back.** -/
theorem Writable.reads (hp : p.Writable) (hf : Arranges f) : Patch.reader.Reads f p.toJson p := by
  obtain ⟨hfile, hedits, himports, hdetails⟩ := p.lookup_members
  rw [toJson_eq]
  refine Reader.reads_record hf p.keys_members_nodup fun fs h => ?_
  have hfile := h.required "file" (by simp) hfile (Reader.reads_string hf p.file)
  have hedits : fs.withDefault "edits" [] (.list Edit.reader) = some p.edits := by
    refine h.withDefault_of_written "edits" (by simp) hedits
      (Reader.reads_list hf fun e he => ?_) []
    exact Edit.reads hf (hp.offsets e he).1 (hp.offsets e he).2
  have himports : fs.withDefault "imports" [] Import.listReader = some p.imports := by
    refine h.withDefault "imports" (by simp) himports unlessEmpty_eq_none_iff.mp fun v hv => ?_
    obtain ⟨-, rfl⟩ := unlessEmpty_eq_some_iff.mp hv
    exact Reader.reads_list hf fun i _ => i.reads hf
  have hdetails : fs.withDefault "meta" ∅ (.dict .value) = some p.details := by
    refine h.withDefault "meta" (by simp) hdetails
      (fun hnone => Dict.toList_eq_nil_iff.mp (unlessEmpty_eq_none_iff.mp hnone)) fun v hv => ?_
    obtain ⟨-, rfl⟩ := unlessEmpty_eq_some_iff.mp hv
    have hvalues : ∀ m ∈ p.details.toList, Reader.value.Reads f (id m.2) m.2 := by
      cases hp.canonical with
      | obj _ values_canonical => exact fun m hm => Reader.reads_value hf (values_canonical m hm)
    have hdict := Reader.reads_dict hf hvalues
    rwa [show (fun m : String × Json => (m.1, id m.2)) = id from rfl, List.map_id] at hdict
  rw [hfile, hedits, himports, hdetails]
  rfl

end Patch

/-! ### Reports -/

namespace Tally

/-- Counts of 64 bits. -/
structure Writable (t : Tally) : Prop where
  /-- New entries. -/
  created : t.created < UInt64.size
  /-- Changed entries. -/
  updated : t.updated < UInt64.size
  /-- Entries that are gone. -/
  orphaned : t.orphaned < UInt64.size
  /-- New or changed entries without a key. -/
  skipped : t.skipped < UInt64.size

theorem within_toJson (t : Tally) : t.toJson.Within (n + 1) := by
  refine .obj (by simp) ?_
  simp only [List.forall_mem_cons, List.not_mem_nil, false_implies, implies_true, and_true]
  exact ⟨Json.within_nat _ _, Json.within_nat _ _, Json.within_nat _ _, Json.within_nat _ _⟩

theorem Writable.reads {t : Tally} (ht : t.Writable) (hf : Arranges f) :
    Tally.reader.Reads f t.toJson t := by
  refine Reader.reads_record hf (by simp) fun fs h => ?_
  have hcreated := h.required "created" (by simp) rfl (Reader.reads_nat hf ht.created)
  have hupdated := h.required "updated" (by simp) rfl (Reader.reads_nat hf ht.updated)
  have horphaned := h.required "orphaned" (by simp) rfl (Reader.reads_nat hf ht.orphaned)
  have hskipped := h.required "skipped" (by simp) rfl (Reader.reads_nat hf ht.skipped)
  rw [hcreated, hupdated, horphaned, hskipped]
  rfl

end Tally

namespace Report

variable {r : Report}

/-- A report with counts of 64 bits. -/
structure Writable (r : Report) : Prop where
  /-- The counts in total. -/
  summary : r.summary.Writable
  /-- The counts of each namespace. -/
  byNamespace : ∀ m ∈ r.byNamespace.toList, m.2.Writable

theorem within_toJson (r : Report) : r.toJson.Within (n + 3) := by
  refine .obj (by simp) ?_
  simp only [List.forall_mem_cons, List.not_mem_nil, false_implies, implies_true, and_true]
  exact ⟨r.summary.within_toJson, .dict fun m _ => m.2.within_toJson, Json.within_strings _ _⟩

/-- **A report is read back.** -/
theorem Writable.reads (hr : r.Writable) (hf : Arranges f) : Report.reader.Reads f r.toJson r := by
  refine Reader.reads_record hf (by simp) fun fs h => ?_
  have hsummary := h.required "summary" (by simp) rfl (hr.summary.reads hf)
  have hnamespaces := h.required "byNamespace" (by simp) rfl
    (Reader.reads_dict hf fun m hm => (hr.byNamespace m hm).reads hf)
  have hnotes := h.withDefault_of_written "notes" (by simp) rfl
    (Reader.reads_list hf fun s _ => Reader.reads_string hf s) []
  rw [hsummary, hnamespaces, hnotes]
  rfl

end Report

/-! ### Whole texts -/

/-- The member of an object under a name. -/
def Json.member? (name : String) : Json → Option Json
  | .obj ms => ms.lookup name
  | _ => none

/-- **What is exchanged is read back from its own texts**: every list of candidates, every list of
patches and every report, on one line, on several lines and in persisted form. The offsets and
counts have to have 64 bits, and the details of a patch to be an object in key order whose numbers
are denoted by their own spellings, as integers of 64 bits are, and that a reader can follow. Fields
are left out just where they hold nothing. -/
theorem exchange_round_trip :
    (∀ cs : List Candidate, ∀ text ∈ (Json.arr (cs.map Candidate.toJson)).texts,
      Candidate.listReader.run? text = some cs) ∧
    (∀ ps : List Patch, (∀ p ∈ ps, p.Writable) →
      ∀ text ∈ (Json.arr (ps.map Patch.toJson)).texts, Patch.listReader.run? text = some ps) ∧
    (∀ r : Report, r.Writable → ∀ text ∈ r.toJson.texts, Report.reader.run? text = some r) ∧
    (∀ c : Candidate, (c.toJson.member? "tag" = none ↔ c.tag = none) ∧
      (c.toJson.member? "attr" = none ↔ c.attr = none) ∧
      (c.toJson.member? "inlineTags" = none ↔ c.inlineTags = []) ∧
      (c.toJson.member? "hints" = none ↔ c.hints = ∅)) ∧
    ∀ p : Patch, (p.toJson.member? "imports" = none ↔ p.imports = []) ∧
      (p.toJson.member? "meta" = none ↔ p.details = ∅) := by
  refine ⟨fun cs => ?_, fun ps hps => ?_, fun r hr => ?_, fun c => ?_, fun p => ?_⟩
  · refine Reader.run?_of_reads (.arr (n := Doc.maxDepth - 1) fun v hv => ?_) fun f hf =>
      Reader.reads_list hf fun c _ => c.reads hf
    obtain ⟨c, -, rfl⟩ := List.mem_map.mp hv
    exact c.within_toJson
  · refine Reader.run?_of_reads (.arr (n := Doc.maxDepth - 1) fun v hv => ?_) fun f hf =>
      Reader.reads_list hf fun p hp => (hps p hp).reads hf
    obtain ⟨p, hp, rfl⟩ := List.mem_map.mp hv
    exact (hps p hp).within_toJson
  · exact Reader.run?_of_reads r.within_toJson fun f hf => hr.reads hf
  · obtain ⟨-, -, -, htag, hattr, -, htags, hhints, -, -⟩ := c.lookup_members
    simp only [c.toJson_eq, Json.member?, htag, hattr, htags, hhints, Option.map_eq_none_iff,
      unlessEmpty_eq_none_iff, Dict.toList_eq_nil_iff, and_self]
  · obtain ⟨-, -, himports, hdetails⟩ := p.lookup_members
    simp only [p.toJson_eq, Json.member?, himports, hdetails, unlessEmpty_eq_none_iff,
      Dict.toList_eq_nil_iff, and_self]

/-- A patch with the largest offset, without imports and with nested details, and a report. -/
theorem exchange_of_largest_offset :
    let seven : Json := .num (.int (-7) (by decide))
    let p : Patch := ⟨"a.tsx", [⟨0, 18446744073709551615, "\"\n"⟩], [],
      ⟨[("m", .obj [("n", seven)])], by decide⟩⟩
    let r : Report := ⟨⟨3, 0, 0, 1⟩, ⟨[("home", ⟨3, 0, 0, 1⟩)], by decide⟩, ["first run"]⟩
    p.Writable ∧ Patch.listReader.run? (Json.arr [p.toJson]).compact = some [p] ∧
      p.toJson.member? "imports" = none ∧
      r.Writable ∧ Report.reader.run? r.toJson.sortedText = some r := by
  intro seven p r
  have hseven : seven.Canonical Number.Steady := .num (Token.number?_text _)
  have hp : p.Writable :=
    ⟨by decide, (hseven.singleton "n").singleton "m", by decide⟩
  have hr : r.Writable := by
    refine ⟨⟨by decide, by decide, by decide, by decide⟩, fun m hm => ?_⟩
    rw [List.mem_singleton.mp hm]
    exact ⟨by decide, by decide, by decide, by decide⟩
  obtain ⟨-, hpatches, hreports, -, homitted⟩ := exchange_round_trip
  have hps : ∀ q ∈ [p], q.Writable := fun q hq => List.mem_singleton.mp hq ▸ hp
  exact ⟨hp, hpatches [p] hps _ List.mem_cons_self, (homitted p).1.mpr rfl, hr,
    hreports r hr _ (by simp [Json.texts])⟩

end KeyLedger
