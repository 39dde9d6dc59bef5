import KeyLedger.Proofs.Patch.Overlaps
import KeyLedger.Proofs.Text.Bytes

/-!
# Exact splices

Edits are applied to a text one by one, and each of them changes the text while the offsets of all
the others count the bytes of the text as it was. This goes well because the last edit is applied
first. Whatever has been applied starts after the end of the edit whose turn it is, and so the text
still begins as it did, up to that end (`Applicable.exists_spliceAll`). In particular the range of
the edit falls on characters of the text that is there by then.

What comes out is compared with `stitched`, which takes nothing apart twice: it goes through the
edits from the first to the last and copies bytes of the old text.

## Main definitions

* `Edit.Fits` — the range of an edit falls on characters of a text
* `stitched` — the bytes between edits and the replacements, in turn
* `Applicable` — edits that fit a text and lie apart

## Main results

* `Applicable.exists_spliceAll` — a text keeps its beginning, and the rest is stitched together
* `Applicable.fits_spliceAll` — every edit fits the text that is there when it is applied
* `splices_are_exact` — what applying patches makes of a file whose edits fit and lie apart
-/

namespace KeyLedger

open Text (byteLength isBoundary takeBytes dropBytes)

/-! ### One edit -/

/-- The range of an edit lies in a text, and both of its ends are offsets of characters, or of the
end of the text. -/
structure Edit.Fits (e : Edit) (text : String) : Prop where
  /-- The range does not end before it starts. -/
  forward : e.start ≤ e.stop
  /-- The range ends in the text. -/
  within : e.stop ≤ text.utf8ByteSize
  /-- A character starts where the range does. -/
  start : (⟨e.start⟩ : String.Pos.Raw).IsValid text
  /-- A character starts where the range ends. -/
  stop : (⟨e.stop⟩ : String.Pos.Raw).IsValid text

theorem Edit.fits_iff {e : Edit} {text : String} :
    e.Fits text ↔ e.start ≤ e.stop ∧ fits text.toList e = true := by
  rw [fits, Text.byteLength_toList, Bool.and_eq_true, Bool.and_eq_true, decide_eq_true_eq,
    Text.isBoundary_iff_isValid, Text.isBoundary_iff_isValid]
  exact ⟨fun h => ⟨h.forward, ⟨h.within, h.start⟩, h.stop⟩,
    fun h => ⟨h.1, h.2.1.1, h.2.1.2, h.2.2⟩⟩

section Cut

variable {e : Edit} {as bs before old after : List Char}

/-- The text after an offset, cut at the ends of an edit. -/
theorem exists_cut (hforward : e.start ≤ e.stop) (hfits : fits (as ++ bs) e = true)
    (hle : byteLength as ≤ e.start) :
    ∃ mid old rest, bs = mid ++ old ++ rest ∧ byteLength (as ++ mid) = e.start ∧
      byteLength (as ++ mid ++ old) = e.stop := by
  rw [fits, Bool.and_eq_true, Bool.and_eq_true] at hfits
  obtain ⟨⟨-, hstart⟩, hstop⟩ := hfits
  obtain ⟨mid, tail, rfl, hmid⟩ := Text.exists_split hstart hle
  rw [← Text.byteLength_append] at hmid
  rw [← List.append_assoc] at hstop
  obtain ⟨old, rest, rfl, hold⟩ := Text.exists_split hstop (hmid ▸ hforward)
  rw [← Text.byteLength_append] at hold
  exact ⟨mid, old, rest, (List.append_assoc _ _ _).symm, hmid, hold⟩

theorem fits_append (hstart : byteLength before = e.start)
    (hstop : byteLength (before ++ old) = e.stop) : fits (before ++ old ++ after) e = true := by
  have hle : e.stop ≤ byteLength (before ++ old ++ after) := by
    rw [Text.byteLength_append, hstop]
    exact Nat.le_add_right _ _
  have hfirst : isBoundary e.start (before ++ old ++ after) = true :=
    Text.isBoundary_iff.mpr ⟨before, old ++ after, List.append_assoc _ _ _, hstart⟩
  have hlast : isBoundary e.stop (before ++ old ++ after) = true :=
    Text.isBoundary_iff.mpr ⟨before ++ old, after, rfl, hstop⟩
  rw [fits, decide_eq_true hle, hfirst, hlast]
  rfl

theorem splice_append (hstart : byteLength before = e.start)
    (hstop : byteLength (before ++ old) = e.stop) :
    splice (before ++ old ++ after) e = before ++ e.replacement.toList ++ after := by
  have htake : takeBytes e.start (before ++ old ++ after) = before := by
    rw [← hstart, List.append_assoc, Text.takeBytes_append]
  have hdrop : dropBytes e.stop (before ++ old ++ after) = after := by
    rw [← hstop, Text.dropBytes_append]
  rw [splice, htake, hdrop]

end Cut

/-! ### All edits -/

/-- The bytes from an offset up to the first edit, its replacement, the bytes from its end up to the
next edit, and so on to the end. -/
def stitched (bytes : ByteArray) : Nat → List Edit → ByteArray
  | offset, [] => bytes.extract offset bytes.size
  | offset, e :: rest =>
    bytes.extract offset e.start ++ e.replacement.toByteArray ++ stitched bytes e.stop rest

/-- Edits that fit a text, each of which ends before the next one starts. -/
structure Applicable (content : List Char) (l : List Edit) : Prop where
  /-- No edit ends before it starts. -/
  forward : ∀ e ∈ l, e.start ≤ e.stop
  /-- Every edit falls on characters of the text. -/
  fits : ∀ e ∈ l, fits content e = true
  /-- Something lies between any two edits. -/
  separated : l.Pairwise fun a b => a.stop < b.start

namespace Applicable

variable {content as bs : List Char} {e : Edit} {l k : List Edit}

theorem of_append (h : Applicable content (k ++ l)) : Applicable content l where
  forward e he := h.forward e (List.mem_append_right k he)
  fits e he := h.fits e (List.mem_append_right k he)
  separated := (List.pairwise_append.mp h.separated).2.1

theorem of_cons (h : Applicable content (e :: l)) : Applicable content l := h.of_append (k := [e])

/-- The text is cut at the ends of the first edit, and all other edits start after the cut. -/
theorem exists_cut_cons (h : Applicable (as ++ bs) (e :: l)) (hle : byteLength as ≤ e.start) :
    ∃ mid old after, bs = mid ++ old ++ after ∧ byteLength (as ++ mid) = e.start ∧
      byteLength (as ++ mid ++ old) = e.stop ∧
      ∀ b ∈ l, byteLength (as ++ mid ++ old) ≤ b.start := by
  obtain ⟨mid, old, after, rfl, hstart, hstop⟩ := exists_cut (h.forward e List.mem_cons_self)
    (h.fits e List.mem_cons_self) hle
  refine ⟨mid, old, after, rfl, hstart, hstop, fun b hb => ?_⟩
  rw [hstop]
  exact Nat.le_of_lt ((List.pairwise_cons.mp h.separated).1 b hb)

/-- **A text keeps its beginning, and the rest is stitched together.** Nothing before the first edit
is touched, whatever the edits insert. -/
theorem exists_spliceAll (h : Applicable (as ++ bs) l) (hle : ∀ e ∈ l, byteLength as ≤ e.start) :
    ∃ rest, spliceAll (as ++ bs) l = as ++ rest ∧
      rest.utf8Encode = stitched (as ++ bs).utf8Encode (byteLength as) l := by
  -- the edits after the first one keep the text up to its end, so that the induction is on texts
  -- with a longer beginning
  induction l generalizing as bs with
  | nil =>
    refine ⟨bs, rfl, ?_⟩
    rw [stitched, Text.size_utf8Encode, Text.byteLength_append]
    simpa using (Text.extract_utf8Encode as bs []).symm
  | cons e l ih =>
    obtain ⟨mid, old, after, rfl, hstart, hstop, hlater⟩ :=
      h.exists_cut_cons (hle e List.mem_cons_self)
    have hassoc : as ++ (mid ++ old ++ after) = as ++ mid ++ old ++ after := by
      simp only [List.append_assoc]
    obtain ⟨rest, hrest, hbytes⟩ := ih (hassoc ▸ h.of_cons) hlater
    refine ⟨mid ++ e.replacement.toList ++ rest, ?_, ?_⟩
    · calc spliceAll (as ++ (mid ++ old ++ after)) (e :: l)
        _ = splice (spliceAll (as ++ mid ++ old ++ after) l) e := by rw [hassoc]; rfl
        _ = splice (as ++ mid ++ old ++ rest) e := by rw [hrest]
        _ = as ++ mid ++ e.replacement.toList ++ rest := splice_append hstart hstop
        _ = as ++ (mid ++ e.replacement.toList ++ rest) := by simp only [List.append_assoc]
    · have hmid : (as ++ (mid ++ old ++ after)).utf8Encode.extract (byteLength as) e.start =
          mid.utf8Encode := by
        rw [← hstart, Text.byteLength_append, List.append_assoc mid]
        exact Text.extract_utf8Encode as mid (old ++ after)
      rw [stitched, hmid, List.utf8Encode_append, List.utf8Encode_append,
        String.utf8Encode_toList, hbytes, hstop, hassoc]

/-- The bytes of a text to which all edits have been applied. -/
theorem toByteArray_spliceAll {text : String} (h : Applicable text.toList l) :
    (String.ofList (spliceAll text.toList l)).toByteArray = stitched text.toByteArray 0 l := by
  obtain ⟨rest, hrest, hbytes⟩ := (show Applicable ([] ++ text.toList) l from h).exists_spliceAll
    fun _ _ => Nat.zero_le _
  simp only [List.nil_append] at hrest hbytes
  rw [String.toByteArray_ofList, hrest, hbytes, String.utf8Encode_toList, Text.byteLength_nil]

/-- **Every edit fits the text that is there when it is applied.** -/
theorem fits_spliceAll (h : Applicable content (k ++ e :: l)) :
    KeyLedger.fits (spliceAll content l) e = true := by
  have hcons : Applicable ([] ++ content) (e :: l) := h.of_append
  obtain ⟨mid, old, after, rfl, hstart, hstop, hlater⟩ := hcons.exists_cut_cons (Nat.zero_le _)
  have hlast : Applicable (mid ++ old ++ after) l := hcons.of_cons
  obtain ⟨rest, hrest, -⟩ := hlast.exists_spliceAll hlater
  rw [hrest]
  exact fits_append hstart hstop

end Applicable

/-! ### The edits of a file -/

/-- Edits that fit a text and do not meet can be applied to it, whatever their order. -/
theorem applicable_sortEdits {l : List Edit} {text : String}
    (happart : l.Pairwise fun a b => ¬ a.Meets b) (hfits : ∀ e ∈ l, e.Fits text) :
    Applicable text.toList (sortEdits l) := by
  have hperm := sortEdits_perm l
  have horder := inOrder_sortEdits fun e he => (hfits e he).forward
  have hsorted : (sortEdits l).Pairwise fun a b => ¬ a.Meets b :=
    hperm.symm.pairwise happart fun {a b} hab hba => hab hba.symm
  refine ⟨horder.forward, fun e he => ?_, ?_⟩
  · exact (Edit.fits_iff.mp (hfits e (hperm.mem_iff.mp he))).2
  · refine (horder.ascending.and hsorted).imp_of_mem ?_
    rintro a b - hb ⟨hle, hapart⟩
    have hforward := horder.forward b hb
    by_contra hmeets
    exact hapart ⟨by omega, by omega⟩

namespace FilePatches

variable {g : FilePatches}

/-- Nothing keeps edits that can be applied from being applied. -/
theorem resolve_of_applicable {text : String}
    (h : Applicable text.toList (sortEdits g.edits)) :
    g.resolve (.ok text) = .ok
      ⟨g.file, text, String.ofList (spliceAll text.toList (sortEdits g.edits)), false,
        mergeImports g.imports⟩ := by
  have horder : InOrder (sortEdits g.edits) := ⟨sortEdits_ascending g.edits, h.forward⟩
  have hranges : overlaps (sortEdits g.edits) = [] := by
    refine horder.overlaps_eq_nil_iff.mpr (h.separated.imp ?_)
    rintro a b hlt ⟨-, hmeets⟩
    omega
  have hfit : (sortEdits g.edits).find? (fun e => !fits text.toList e) = none := by
    refine List.find?_eq_none.mpr fun e he => ?_
    simp [h.fits e he]
  simp [resolve, hranges, hfit]

/-- A change that can be made is reported, unless it is to be written and cannot be. -/
theorem Applied.ok_or_unwritten {options : ApplyOptions} {d d' : Disk}
    {o : Except Conflict FileChange} {change : FileChange} (h : g.Applied options d o d')
    (hdecided : g.resolve (currentText (m := DiskM) options g.file d).1 = .ok change) :
    (∃ c, o = .ok c ∧ c.old = change.old ∧ c.new = change.new) ∨
      (options.write = true ∧ change.new ≠ change.old ∧
        ∃ e, (writeAtomic (m := DiskM) (options.root.join g.file) change.new).run d =
            (.error e, d') ∧
          o = .error ⟨g.file, [], some ("Failed to write file: " ++ e.message)⟩) := by
  cases h with
  | conflict decided => cases hdecided.symm.trans decided
  | kept decided =>
    cases hdecided.symm.trans decided
    exact .inl ⟨_, rfl, rfl, rfl⟩
  | written decided =>
    cases hdecided.symm.trans decided
    exact .inl ⟨_, rfl, rfl, rfl⟩
  | failed decided write differs run =>
    cases hdecided.symm.trans decided
    exact .inr ⟨write, differs, _, run, rfl⟩

end FilePatches

/-- **Splices are exact.** Let no edit end before it starts, and let a file that is named hold, when
its turn comes, a text that its edits fit and in which no two of them meet. Then applying patches
succeeds, and the new text of the file is the old one with the replacements stitched in, in the
order of starts. It is reported, without a conflict, unless it was to be written and could not be.
Every edit fits the text that is there when it is applied. -/
theorem splices_are_exact {ps : List Patch}
    (hforward : ∀ p ∈ ps, ∀ e ∈ p.edits, e.start ≤ e.stop) (options : ApplyOptions) (d : Disk)
    {file text : String} (hfile : file ∈ ps.map Patch.file)
    (htext : textAt options ps d file = .ok text)
    (hfits : ∀ e ∈ editsOf ps file, e.Fits text)
    (happart : (editsOf ps file).Pairwise fun a b => ¬ a.Meets b) :
    ∃ r d', (apply (m := DiskM) ps options).run d = (.ok r, d') ∧
      (∃ new : String,
        new.toByteArray = stitched text.toByteArray 0 (sortEdits (editsOf ps file)) ∧
        ((∃ c, r.Reports file (.ok c) ∧ c.old = text ∧ c.new = new) ∨
          (options.write = true ∧ new ≠ text ∧
            ∃ e d₁, (writeAtomic (m := DiskM) (options.root.join file) new).run
                (diskAt options ps d file) = (.error e, d₁) ∧
              r.Reports file
                (.error ⟨file, [], some ("Failed to write file: " ++ e.message)⟩)))) ∧
      ∀ before e after, sortEdits (editsOf ps file) = before ++ e :: after →
        e.Fits (String.ofList (spliceAll text.toList after)) := by
  have happlicable := applicable_sortEdits happart hfits
  obtain ⟨r, d', hrun, -, hreports⟩ := exists_reports hforward options d
  refine ⟨r, d', hrun, ?_, fun before e after hsplit => ?_⟩
  · obtain ⟨g, hg, rfl⟩ := FilePatches.exists_of_named hfile
    obtain ⟨o, d₁, happlied, hreport⟩ := hreports g hg
    rw [← FilePatches.edits_eq_editsOf hg] at happlicable ⊢
    have hdecided := FilePatches.resolve_of_applicable happlicable
    rw [← htext] at hdecided
    refine ⟨_, happlicable.toByteArray_spliceAll, ?_⟩
    rcases happlied.ok_or_unwritten hdecided with ⟨c, rfl, hold, hnew⟩ | ⟨hwrite, hne, e, hrun, rfl⟩
    · exact .inl ⟨c, hreport, hold, hnew⟩
    · exact .inr ⟨hwrite, hne, e, d₁, hrun, hreport⟩
  · rw [hsplit] at happlicable
    rw [Edit.fits_iff, String.toList_ofList]
    exact ⟨happlicable.forward e (by simp), happlicable.fits_spliceAll⟩

/-- Two patches, the later edit first, on a text with characters of one, two and three bytes. -/
theorem splices_between_wide_characters :
    let ps : List Patch := [⟨"x", [⟨6, 7, "xyz"⟩], [], ∅⟩, ⟨"x", [⟨1, 3, "e"⟩], [], ∅⟩]
    let options : ApplyOptions := ⟨false, some (.ofList [("x", "aé–b")]), ⟨"."⟩⟩
    (∀ p ∈ ps, ∀ e ∈ p.edits, e.start ≤ e.stop) ∧ (∀ e ∈ editsOf ps "x", e.Fits "aé–b") ∧
      ((editsOf ps "x").Pairwise fun a b => ¬ a.Meets b) ∧
      ∀ d : Disk, ∃ r d', (apply (m := DiskM) ps options).run d = (.ok r, d') ∧
        ∃ c, r.Reports "x" (.ok c) ∧ c.old = "aé–b" ∧ c.new = "ae–xyz" := by
  intro ps options
  have hforward : ∀ p ∈ ps, ∀ e ∈ p.edits, e.start ≤ e.stop := by decide
  have hfits : ∀ e ∈ editsOf ps "x", e.Fits "aé–b" := by
    simp only [Edit.fits_iff]
    decide +kernel
  have happart : (editsOf ps "x").Pairwise fun a b => ¬ a.Meets b := by decide
  have hsorted : sortEdits (editsOf ps "x") = [⟨1, 3, "e"⟩, ⟨6, 7, "xyz"⟩] := by
    simp [ps, sortEdits, editsOf, List.mergeSort, List.MergeSort.Internal.splitInTwo]
  refine ⟨hforward, hfits, happart, fun d => ?_⟩
  obtain ⟨r, d', hrun, ⟨new, hnew, hreported⟩, -⟩ :=
    splices_are_exact hforward options d (by decide) rfl hfits happart
  obtain ⟨c, hreport, hold, rfl⟩ := hreported.resolve_right fun h => by cases h.1
  refine ⟨r, d', hrun, c, hreport, hold, String.toByteArray_inj.mp ?_⟩
  rw [hnew, hsorted]
  decide +kernel

end KeyLedger
