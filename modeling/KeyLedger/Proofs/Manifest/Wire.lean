import KeyLedger.Manifest.Wire
import KeyLedger.Proofs.Json.Codecs

/-!
# A stored manifest is read back

The persisted form of a manifest is the canonical text of a regular value, so it parses, and its
entries are read one by one. All fields of an entry come back as they were, except that the time at
which it was last seen is whatever its text stands for; if the text of one of them stands for no
time, then the whole file counts as no manifest.

## Main definitions

* `Entry.restamped?` — an entry with the time that the text of its time stands for

## Main results

* `Entry.reader_arranged` — one entry
* `Manifest.ofText?_stableText` — a manifest
-/

namespace KeyLedger

open Json (Regular)

/-! ### The written form is regular -/

theorem Fingerprint.regular_toJson (f : Fingerprint) : f.toJson.Regular := by
  refine .obj (by simp) fun m hm => ?_
  rw [List.mem_singleton.mp hm]
  exact .str _

/-- The members of an entry. -/
def Entry.members (e : Entry) : List (String × Json) :=
  [("file", .str e.file), ("namespace", .str e.ns), ("key", .optional e.key)]
    ++ Json.memberIf "tag" (e.tag.map .str)
    ++ [("status", .str e.status.name), ("contentHash", .str e.contentHash),
        ("fingerprint", e.fingerprint.toJson), ("start", .offset e.start),
        ("end", .offset e.stop), ("lastSeen", .str e.lastSeen.text)]
    ++ Json.memberIf "lastCommit" (e.lastCommit.map .str)

theorem Entry.toJson_eq (e : Entry) : e.toJson = .obj e.members := rfl

theorem Entry.keys_members_nodup (e : Entry) : (e.members.map Prod.fst).Nodup := by
  unfold members
  cases e.tag <;> cases e.lastCommit <;> simp [Json.memberIf]

theorem Entry.regular_toJson (e : Entry) : e.toJson.Regular := by
  refine .obj e.keys_members_nodup fun m hm => ?_
  have hall : ∀ m ∈ e.members, m.2.Regular := by
    unfold members
    cases e.tag <;> cases e.lastCommit <;>
      simp [Json.memberIf, Json.regular_optional, Json.regular_offset, Fingerprint.regular_toJson,
        Regular.str]
  exact hall m hm

theorem Manifest.keys_toJson_nodup (m : Manifest) :
    (([("version", .nat m.version.toNat), ("entries", .arr (m.entries.map Entry.toJson))] :
      List (String × Json)).map Prod.fst).Nodup := by
  simp

theorem Manifest.regular_toJson (m : Manifest) : m.toJson.Regular := by
  refine .obj m.keys_toJson_nodup fun p hp => ?_
  rcases List.mem_cons.mp hp with rfl | hp
  · exact Json.regular_nat _
  · rw [List.mem_singleton.mp hp]
    refine .arr fun v hv => ?_
    obtain ⟨e, -, rfl⟩ := List.mem_map.mp hv
    exact e.regular_toJson

theorem Entry.depth_toJson (e : Entry) : e.toJson.depth ≤ 2 := by
  rw [toJson_eq, members]
  cases e.tag <;> cases e.lastCommit <;> cases e.key <;>
    simp [Json.memberIf, Json.depth, Json.depthMembers, Json.optional, Fingerprint.toJson,
      Json.offset]

theorem Manifest.depth_toJson (m : Manifest) : m.toJson.depth ≤ Doc.maxDepth := by
  have hitems : Json.depthItems (m.entries.map Entry.toJson) ≤ 2 := by
    refine Json.depthItems_le_iff.mpr fun v hv => ?_
    obtain ⟨e, -, rfl⟩ := List.mem_map.mp hv
    exact e.depth_toJson
  have hdepth : m.toJson.depth = Json.depthItems (m.entries.map Entry.toJson) + 2 := by
    simp [toJson, Json.depth, Json.depthMembers, Json.nat]
  rw [hdepth, Doc.maxDepth]
  omega

/-! ### Entries -/

/-- An entry with the time that the text of its time stands for. -/
def Entry.restamped? (e : Entry) : Option Entry :=
  (Instant.parse? e.lastSeen.text).map fun t => { e with lastSeen := t }

theorem Fingerprint.reads {f : Json → Json} (hf : Json.Arranges f) (p : Fingerprint) :
    Fingerprint.reader.Reads f p.toJson p := by
  refine Reader.reads_record hf (by simp) fun fs h => ?_
  rw [h.required "descriptor" (by simp) rfl (Reader.reads_string hf p.descriptor)]
  rfl

theorem Status.lookup_names (s : Status) : Status.names.lookup s.name = some s := by
  cases s <;> decide

/-- What stands under the name of each field. -/
theorem Entry.lookup_members (e : Entry) :
    e.members.lookup "file" = some (.str e.file) ∧
    e.members.lookup "namespace" = some (.str e.ns) ∧
    e.members.lookup "key" = some (.optional e.key) ∧
    e.members.lookup "tag" = e.tag.map .str ∧
    e.members.lookup "status" = some (.str e.status.name) ∧
    e.members.lookup "contentHash" = some (.str e.contentHash) ∧
    e.members.lookup "fingerprint" = some e.fingerprint.toJson ∧
    e.members.lookup "start" = some (.offset e.start) ∧
    e.members.lookup "end" = some (.offset e.stop) ∧
    e.members.lookup "lastSeen" = some (.str e.lastSeen.text) ∧
    e.members.lookup "lastCommit" = e.lastCommit.map .str := by
  unfold members
  cases e.tag <;> cases e.lastCommit <;>
    exact ⟨rfl, rfl, rfl, rfl, rfl, rfl, rfl, rfl, rfl, rfl, rfl⟩

/-- **An entry is read back with all its fields**, and with the time that its text stands for. -/
theorem Entry.reader_arranged {f : Json → Json} (hf : Json.Arranges f) (e : Entry) {budget : Nat}
    (hbudget : 2 ≤ budget) : Entry.reader budget (Doc.ofJson (f e.toJson)) = e.restamped? := by
  obtain ⟨hfile, hns, hkey, htag, hstatus, hhash, hprint, hstart, hstop, hseen, hcommit⟩ :=
    e.lookup_members
  rw [Entry.toJson_eq, Entry.reader]
  obtain ⟨fs, hrecord, h⟩ := Reader.record_arranged hf _ _ e.keys_members_nodup
    (Nat.le_trans e.depth_toJson hbudget)
  rw [hrecord]
  have hfile := h.required "file" (by simp) hfile (Reader.reads_string hf e.file)
  have hns := h.required "namespace" (by simp) hns (Reader.reads_string hf e.ns)
  have hkey := h.optional_of_written hf "key" (by simp) hkey
  have htag := h.optional hf "tag" (by simp) htag
  have hstatus := h.required "status" (by simp) hstatus
    (Reader.reads_oneOf hf e.status.lookup_names)
  have hhash := h.required "contentHash" (by simp) hhash (Reader.reads_string hf e.contentHash)
  have hprint := h.required "fingerprint" (by simp) hprint (e.fingerprint.reads hf)
  have hstart := h.required "start" (by simp) hstart (Reader.reads_uint64 hf e.start)
  have hstop := h.required "end" (by simp) hstop (Reader.reads_uint64 hf e.stop)
  have hseen : fs.required "lastSeen" Instant.reader = Instant.parse? e.lastSeen.text := by
    rw [h.required_eq "lastSeen" (by simp) hseen, hf.str, Instant.reader, Reader.refine,
      Doc.ofJson, Reader.string, Option.bind_eq_bind, Option.bind_some]
  have hcommit := h.optional hf "lastCommit" (by simp) hcommit
  rw [Entry.restamped?]
  generalize Instant.parse? e.lastSeen.text = seen at hseen ⊢
  rw [hfile, hns, hkey, htag, hstatus, hhash, hprint, hstart, hstop, hseen, hcommit]
  cases seen <;> rfl

/-! ### Manifests -/

/-- **The persisted form of a manifest is read as the manifest with its entries in order**, each
with the time that its text stands for, or as none if one of these texts stands for no time. -/
theorem Manifest.ofText?_stableText (m : Manifest) :
    ofText? m.stableText =
      (m.sorted.entries.mapM Entry.restamped?).map fun es => ⟨m.version, es⟩ := by
  have hparse := Json.parse?_sortedText m.sorted.regular_toJson.steady m.sorted.depth_toJson
  have hkeys := m.sorted.keys_toJson_nodup
  rw [Manifest.toJson, Json.sortKeys] at hparse
  generalize hmembers : Json.sortMembers (Json.sortKeysMembers [("version",
    Json.nat m.sorted.version.toNat), ("entries", .arr (m.sorted.entries.map Entry.toJson))]) =
    members at hparse
  have hentries : members.lookup "entries" =
      some (.arr (Json.sortKeysItems (m.sorted.entries.map Entry.toJson))) := by
    rw [← hmembers, Json.lookup_sortKeys hkeys]
    rfl
  have hversion : members.lookup "version" = some (.num (.ofNat m.version.toNat)) := by
    rw [← hmembers, Json.lookup_sortKeys hkeys]
    rfl
  have hlist : Entry.listReader Doc.maxDepth (Doc.ofJson (.arr (Json.sortKeysItems
      (m.sorted.entries.map Entry.toJson)))) = m.sorted.entries.mapM Entry.restamped? := by
    have hread : ∀ e : Entry, Entry.reader 126 (Doc.ofJson e.toJson.sortKeys) = e.restamped? :=
      fun e => e.reader_arranged Json.arranges_sortKeys (by decide)
    rw [← funext hread]
    exact Reader.list_arranged Json.arranges_sortKeys Entry.reader Entry.toJson m.sorted.entries 126
  have hbelow : (Number.ofNat m.version.toNat).below? UInt32.size = some m.version.toNat :=
    Number.below?_ofNat m.version.toNat_lt (by decide)
  rw [ofText?, stableText, Manifest.toJson, hparse]
  simp only [Option.bind_eq_bind, Option.bind_some, hentries, hversion, hlist, hbelow,
    Option.getD_some, UInt32.ofNat_toNat]
  cases m.sorted.entries.mapM Entry.restamped? <;> rfl

end KeyLedger
