import KeyLedger.Proofs.Files.Listing
import KeyLedger.Proofs.Patch.Outcomes

/-!
# Writing changes what is reported

Patches are applied to one file after the other, and each of them may come to nothing at several
points: its edits compete, it cannot be read, an edit does not fit, or it cannot be written. In all
these cases the file is left as it was, and whatever was written before, or is written later, is
not touched. What is on the disk in the end is what the result says.

## A full disk

A file is written to its sibling first. If the disk is full before the sibling is finished, then the
part that fits remains, and nobody removes it; a sibling that cannot be moved into place is removed.
The words of the conflict tell the two apart, so that the result says which siblings remain.

## The argument

The outcomes of a stretch of files *account for* the difference between the disk before and after if
every place that differs is explained: a file that was reported as written is there, or there was
the sibling of a file that was to be written and it is gone, or a sibling is there that was not
finished. One file does so because an atomic write can do no more
(`FilePatches.Applied.accounted`). Two stretches do so together if the places of their files are
apart (`Accounted.append`): a later write then cannot undo an earlier one.

## Main definitions

* `Separate` — files that do not get in each other's way
* `Conflict.OutOfRoom` — there was no room for the sibling of a file
* `Explained`, `Accounted` — outcomes account for the difference between two disks
* `ApplyResult.Explains`, `ApplyResult.Accounts` — the same of a result, with what follows for the
  files that are named

## Main results

* `Disk.AtomicWrite.isFile_of_message` — what the words of a failed write tell
* `Accounted.append`, `accounted_mapM` — one stretch after the other, and all files
* `writes_are_reported` — applying patches changes what it reports
-/

namespace KeyLedger

/-! ### Files that are apart -/

/-- Files below a directory do not get in each other's way: no two lead to one place, and none leads
to the sibling of another. -/
structure Separate (d : Disk) (root : Path) (names : List String) : Prop where
  /-- No two lead to one place. -/
  places : ∀ f ∈ names, ∀ g ∈ names, f ≠ g →
    ∀ q ∈ d.place? (root.join f), q ∉ d.place? (root.join g)
  /-- None leads to the sibling of another. -/
  siblings : ∀ f ∈ names, ∀ g ∈ names, f ≠ g →
    ∀ q ∈ d.place? (temporary (root.join f)), q ∉ d.place? (root.join g)

section Separate

variable {d d' : Disk} {root : Path} {names : List String}

theorem Separate.of_sameDirs (h : Separate d root names) (hsame : d.SameDirs d') :
    Separate d' root names := by
  refine ⟨fun f hf g hg hne => ?_, fun f hf g hg hne => ?_⟩
  · rw [hsame.place?, hsame.place?]
    exact h.places f hf g hg hne
  · rw [hsame.place?, hsame.place?]
    exact h.siblings f hf g hg hne

theorem Separate.subset (h : Separate d root names) {fewer : List String} (hsub : fewer ⊆ names) :
    Separate d root fewer :=
  ⟨fun f hf g hg => h.places f (hsub hf) g (hsub hg),
    fun f hf g hg => h.siblings f (hsub hf) g (hsub hg)⟩

end Separate

/-! ### What is reported of a write -/

/-- The new text of a file was written, or could not be. -/
def Attempted : Except Conflict FileChange → Prop
  | .ok change => change.wrote = true
  | .error conflict =>
    ∃ e : Failure, conflict.error = some ("Failed to write file: " ++ e.message)

/-- The disk was full before the sibling of a file was finished, and the conflict says so. -/
def Conflict.OutOfRoom (root : Path) (c : Conflict) : Prop :=
  c.error = some ("Failed to write file: " ++
    (Failure.io [.write (temporary (root.join c.file))] .noSpace).message)

/-- Texts that differ at some place differ whatever follows. -/
theorem append_ne_append {a b : String} {i : Nat} (ha : i < a.toList.length)
    (hb : i < b.toList.length) (hne : a.toList[i]? ≠ b.toList[i]?) (x y : String) :
    a ++ x ≠ b ++ y := by
  intro h
  have hat := congrArg (fun s : String => s.toList[i]?) h
  simp only [String.toList_append, List.getElem?_append_left ha,
    List.getElem?_append_left hb] at hat
  exact hne hat

/-- A file that could not be moved is not reported as one that could not be written. -/
theorem Activity.message_move_append_ne (p t : Path) (x y : String) :
    (moveIntoPlace p).message ++ x ≠ (write t).message ++ y := by
  have hmove : (moveIntoPlace p).message = "Failed to move " ++ p.text ++ " into place" := rfl
  have hwrite : (write t).message = "Failed to write " ++ t.text := rfl
  simp only [hmove, hwrite, String.append_assoc]
  exact append_ne_append (i := 10) (by decide) (by decide) (by decide) _ _

theorem Failure.message_io (a : Activity) (c : IoError) :
    (Failure.io [a] c).message = a.message ++ (": " ++ c.message) := by
  rw [← String.append_assoc]
  rfl

/-- **What the words of a failed write tell.** If they say that there was no room, then the sibling
was begun and not finished. -/
theorem Disk.AtomicWrite.isFile_of_message {p : Path} {text : String} {d d' : Disk} {e : Failure}
    (h : AtomicWrite p text d (.error e) d')
    (hmessage : e.message = (Failure.io [.write (temporary p)] .noSpace).message) :
    ∀ q ∈ d.place? (temporary p), d'.IsFile q := by
  rw [Failure.message_io] at hmessage
  cases h with
  | refused reason =>
    rw [Failure.message_io, String.append_right_inj, String.append_right_inj] at hmessage
    exact absurd hmessage reason
  | @broken q n sibling notDir =>
    intro x hx
    obtain ⟨_, hx⟩ := place?_eq_some_iff.mp hx
    cases sibling.symm.trans hx
    exact ⟨_, _, node?_fill_self notDir _⟩
  | abandoned =>
    rw [Failure.message_io] at hmessage
    exact absurd hmessage (Activity.message_move_append_ne p _ _ _)

/-- A file that is not to be written is not reported as one for which there was no room. -/
theorem FilePatches.not_outOfRoom_of_resolve {g : FilePatches} {current : Except IoError String}
    {c : Conflict} (h : g.resolve current = .error c) (root : Path) : ¬ c.OutOfRoom root := by
  rw [Conflict.OutOfRoom]
  by_cases hranges : (overlaps (sortEdits g.edits)).isEmpty
  · cases current with
    | error e =>
      simp only [resolve, hranges, not_true_eq_false, if_false, Except.error.injEq] at h
      rw [← h, Option.some_inj]
      exact append_ne_append (i := 10) (by decide) (by decide) (by decide) _ _
    | ok old =>
      cases hfit : (sortEdits g.edits).find? fun e => !fits old.toList e with
      | none => simp [resolve, hranges, hfit] at h
      | some e =>
        simp only [resolve, hranges, hfit, not_true_eq_false, if_false, Except.error.injEq,
          misfit] at h
        rw [← h, Option.some_inj]
        simp only [String.append_assoc]
        exact append_ne_append (i := 0) (by decide) (by decide) (by decide) _ _
  · simp only [resolve, hranges, Bool.false_eq_true, not_false_eq_true, if_true,
      Except.error.injEq] at h
    simp [← h]

/-! ### Accounting for a difference -/

/-- How the outcomes of files explain that a place differs between two disks. -/
inductive Explained (root : Path) (os : List (Except Conflict FileChange)) (d d' : Disk)
    (q : Place) : Prop
  /-- It is the place of a file that is reported as written. -/
  | written {c : FileChange} (mem : .ok c ∈ os) (wrote : c.wrote = true)
      (place : q ∈ d.place? (root.join c.file))
  /-- It is the place of a sibling, and the file that was there is gone. -/
  | lost {o : Except Conflict FileChange} (mem : o ∈ os) (attempted : Attempted o)
      (place : q ∈ d.place? (temporary (root.join (outcomeFile o)))) (was : d.IsFile q)
      (gone : d'.node? q = none)
  /-- It is the place of a sibling that was begun and not finished. -/
  | unfinished {c : Conflict} (mem : .error c ∈ os) (room : c.OutOfRoom root)
      (place : q ∈ d.place? (temporary (root.join c.file))) (remains : d'.IsFile q)

/-- Outcomes account for the difference between two disks. -/
structure Accounted (root : Path) (os : List (Except Conflict FileChange)) (d d' : Disk) :
    Prop where
  /-- The directories are the same. -/
  sameDirs : d.SameDirs d'
  /-- A file is reported as written if it has a new text. -/
  changed : ∀ c, .ok c ∈ os → (c.wrote = true ↔ c.new ≠ c.old)
  /-- A file that is reported as written holds its new text. -/
  written : ∀ c, .ok c ∈ os → c.wrote = true →
    ∃ q modified, d.locate (root.join c.file) = .ok ⟨q, false⟩ ∧
      d'.node? q = some (.file (.text c.new) modified)
  /-- A place that differs is that of a file, or of a sibling. -/
  elsewhere : ∀ q, d'.node? q = d.node? q ∨ Explained root os d d' q
  /-- A sibling that was not finished is there, if no other file has its sibling in that place. -/
  remains : ∀ c, .error c ∈ os → c.OutOfRoom root →
    ∀ q ∈ d.place? (temporary (root.join c.file)),
      (∀ o ∈ os, outcomeFile o ≠ c.file →
        q ∉ d.place? (temporary (root.join (outcomeFile o)))) → d'.IsFile q

section Accounted

variable {root : Path} {os os₁ os₂ : List (Except Conflict FileChange)} {d d₁ d₂ : Disk}

/-- A place that differs is that of a file, or of a sibling. -/
theorem Explained.exists_place {q : Place} (h : Explained root os d d₁ q) :
    ∃ o ∈ os, q ∈ d.place? (root.join (outcomeFile o)) ∨
      q ∈ d.place? (temporary (root.join (outcomeFile o))) := by
  cases h with
  | written mem _ place => exact ⟨_, mem, .inl place⟩
  | lost mem _ place => exact ⟨_, mem, .inr place⟩
  | unfinished mem _ place => exact ⟨_, mem, .inr place⟩

/-- A disk that is left alone. -/
theorem Accounted.refl (h : ∀ c, .ok c ∈ os → c.wrote = false ∧ c.new = c.old)
    (hroom : ∀ c, .error c ∈ os → ¬ c.OutOfRoom root) : Accounted root os d d where
  sameDirs := .refl d
  changed c hc := by simp [h c hc]
  written c hc hwrote := by simp [h c hc] at hwrote
  elsewhere _ := .inl rfl
  remains c hc hout := absurd hout (hroom c hc)

/-- What a stretch of files has done is explained by what it and another one have done, if the other
one leaves the place alone. -/
theorem Explained.append_right {q : Place} (h : Explained root os₁ d d₁ q)
    (hq : d₂.node? q = d₁.node? q) : Explained root (os₁ ++ os₂) d d₂ q := by
  cases h with
  | written mem wrote place => exact .written (List.mem_append_left _ mem) wrote place
  | lost mem attempted place was gone =>
    exact .lost (List.mem_append_left _ mem) attempted place was (hq.trans gone)
  | unfinished mem room place remains =>
    refine .unfinished (List.mem_append_left _ mem) room place ?_
    obtain ⟨contents, modified, hfile⟩ := remains
    exact ⟨contents, modified, hq.trans hfile⟩

/-- **One stretch after the other.** -/
theorem Accounted.append (h₁ : Accounted root os₁ d d₁) (h₂ : Accounted root os₂ d₁ d₂)
    (hfiles : ∀ o₁ ∈ os₁, ∀ o₂ ∈ os₂, outcomeFile o₁ ≠ outcomeFile o₂)
    (hseparate : Separate d root ((os₁ ++ os₂).map outcomeFile)) :
    Accounted root (os₁ ++ os₂) d d₂ := by
  have hsame := h₁.sameDirs
  have hmem₁ : ∀ {o}, o ∈ os₁ → outcomeFile o ∈ (os₁ ++ os₂).map outcomeFile := fun ho =>
    List.mem_map_of_mem (List.mem_append_left _ ho)
  have hmem₂ : ∀ {o}, o ∈ os₂ → outcomeFile o ∈ (os₁ ++ os₂).map outcomeFile := fun ho =>
    List.mem_map_of_mem (List.mem_append_right _ ho)
  -- what is at the place of an earlier file is not touched later
  have hkept : ∀ o₁ ∈ os₁, ∀ q ∈ d.place? (root.join (outcomeFile o₁)),
      d₂.node? q = d₁.node? q := by
    intro o₁ ho₁ q hq
    refine (h₂.elsewhere q).resolve_right fun hexplained => ?_
    obtain ⟨o₂, ho₂, hplace⟩ := hexplained.exists_place
    rw [hsame.place?, hsame.place?] at hplace
    have hne := hfiles o₁ ho₁ o₂ ho₂
    rcases hplace with hplace | hplace
    · exact hseparate.places _ (hmem₁ ho₁) _ (hmem₂ ho₂) hne q hq hplace
    · exact hseparate.siblings _ (hmem₂ ho₂) _ (hmem₁ ho₁) hne.symm q hplace hq
  refine ⟨hsame.trans h₂.sameDirs, fun c hc => ?_, fun c hc hwrote => ?_, fun q => ?_,
    fun c hc hroom q hq halone => ?_⟩
  · exact (List.mem_append.mp hc).elim (h₁.changed c) (h₂.changed c)
  · rcases List.mem_append.mp hc with hc | hc
    · obtain ⟨q, modified, hp, hnode⟩ := h₁.written c hc hwrote
      refine ⟨q, modified, hp, ?_⟩
      rw [hkept _ hc q (Disk.place?_eq_some_iff.mpr ⟨_, hp⟩), hnode]
    · obtain ⟨q, modified, hp, hnode⟩ := h₂.written c hc hwrote
      exact ⟨q, modified, hsame.locate_eq_ok_iff.mp hp, hnode⟩
  · rcases h₂.elsewhere q with hq₂ | hexplained
    · exact (h₁.elsewhere q).imp hq₂.trans fun h => h.append_right hq₂
    · cases hexplained with
      | written mem wrote place =>
        rw [hsame.place?] at place
        exact .inr (.written (List.mem_append_right _ mem) wrote place)
      | unfinished mem room place remains =>
        rw [hsame.place?] at place
        exact .inr (.unfinished (List.mem_append_right _ mem) room place remains)
      | lost mem attempted place was gone =>
        rw [hsame.place?] at place
        -- a file that is gone was there before, or it was a sibling that was not finished
        cases hnode : d.node? q with
        | none => exact .inl gone
        | some n =>
          cases n with
          | dir => exact absurd ((hsame.dirs q).mpr hnode) was.ne_dir
          | file contents modified =>
            exact .inr (.lost (List.mem_append_right _ mem) attempted place ⟨_, _, hnode⟩ gone)
  · rcases List.mem_append.mp hc with hc | hc
    · have hfile := h₁.remains c hc hroom q hq fun o ho => halone o (List.mem_append_left _ ho)
      have hq₂ : d₂.node? q = d₁.node? q := by
        refine (h₂.elsewhere q).resolve_right fun hexplained => ?_
        obtain ⟨o, ho, hplace⟩ := hexplained.exists_place
        rw [hsame.place?, hsame.place?] at hplace
        have hne : c.file ≠ outcomeFile o := hfiles _ hc o ho
        rcases hplace with hplace | hplace
        · exact hseparate.siblings _ (hmem₁ hc) _ (hmem₂ ho) hne q hq hplace
        · exact halone o (List.mem_append_right _ ho) hne.symm hplace
      obtain ⟨contents, modified, hnode⟩ := hfile
      exact ⟨contents, modified, hq₂.trans hnode⟩
    · refine h₂.remains c hc hroom q (by rwa [hsame.place?]) fun o ho hne => ?_
      rw [hsame.place?]
      exact halone o (List.mem_append_right _ ho) hne

end Accounted

/-! ### One file -/

/-- The decision leaves it open whether the file is written. -/
theorem FilePatches.wrote_of_resolve {g : FilePatches} {current : Except IoError String}
    {change : FileChange} (h : g.resolve current = .ok change) : change.wrote = false := by
  by_cases hranges : (overlaps (sortEdits g.edits)).isEmpty
  · cases current with
    | error e => simp [resolve, hranges] at h
    | ok old =>
      cases hfit : (sortEdits g.edits).find? fun e => !fits old.toList e with
      | some e => simp [resolve, hranges, hfit] at h
      | none =>
        simp only [resolve, hranges, hfit, not_true_eq_false, if_false, Except.ok.injEq] at h
        rw [← h]
  · simp [resolve, hranges] at h

/-- **One file accounts for what it does.** -/
theorem FilePatches.Applied.accounted {options : ApplyOptions} {g : FilePatches} {d d' : Disk}
    {o : Except Conflict FileChange} (h : g.Applied options d o d')
    (hwrite : options.write = true) :
    Accounted options.root [o] d d' := by
  have hfile := h.outcomeFile
  cases h with
  | @conflict c decided =>
    refine .refl (by simp) fun c' hc' => ?_
    cases List.mem_singleton.mp hc'
    exact not_outOfRoom_of_resolve decided options.root
  | kept decided idle =>
    refine .refl (fun c hc => ?_) (by simp)
    cases List.mem_singleton.mp hc
    exact ⟨wrote_of_resolve decided, idle.resolve_left (by simp [hwrite])⟩
  | @written change d' _ _ differs run =>
    have hatomic := Disk.atomicWrite (options.root.join g.file) change.new d
    rw [run, ← hfile] at hatomic
    refine ⟨hatomic.sameDirs, fun c hc => ?_, fun c hc _ => ?_, fun q => ?_, by simp⟩
    · cases List.mem_singleton.mp hc
      exact iff_of_true rfl differs
    · cases List.mem_singleton.mp hc
      cases hatomic with
      | moved _ _ target _ _ written => exact ⟨_, _, target, written⟩
    · refine (hatomic.node? q).imp_right fun hq => ?_
      rcases hq with ⟨-, hplace⟩ | ⟨hplace, ⟨hwas, hgone⟩ | ⟨hfails, -⟩⟩
      · exact .written (List.mem_singleton_self _) rfl hplace
      · exact .lost (List.mem_singleton_self _) rfl hplace hwas hgone
      · cases hfails
  | @failed change d' e _ _ _ run =>
    have hatomic := Disk.atomicWrite (options.root.join g.file) change.new d
    rw [run] at hatomic
    refine ⟨hatomic.sameDirs, by simp, by simp, fun q => ?_, fun c hc hroom q hq _ => ?_⟩
    · refine (hatomic.node? q).imp_right fun hq => ?_
      rcases hq with ⟨hok, -⟩ | ⟨hplace, ⟨hwas, hgone⟩ | ⟨hfails, hremains⟩⟩
      · cases hok
      · exact .lost (List.mem_singleton_self _) ⟨e, rfl⟩ hplace hwas hgone
      · cases hfails
        exact .unfinished (List.mem_singleton_self _) rfl hplace hremains
    · cases List.mem_singleton.mp hc
      refine hatomic.isFile_of_message ?_ q hq
      exact (String.append_right_inj _).mp (Option.some.inj hroom)

/-! ### All files -/

/-- **All files account for what they do.** -/
theorem accounted_mapM {options : ApplyOptions} {gs : List FilePatches} {d d' : Disk}
    {os : List (Except Conflict FileChange)} (hwrite : options.write = true)
    (hseparate : Separate d options.root (gs.map FilePatches.file))
    (hnodup : (gs.map FilePatches.file).Nodup)
    (hrun : gs.mapM (applyFile (m := DiskM) options) d = (os, d')) :
    os.map outcomeFile = gs.map FilePatches.file ∧ Accounted options.root os d d' := by
  induction gs generalizing d os with
  | nil =>
    cases hrun
    exact ⟨rfl, .refl (fun _ hc => absurd hc List.not_mem_nil) fun _ hc =>
      absurd hc List.not_mem_nil⟩
  | cons g gs ih =>
    obtain ⟨hg, hnodup⟩ := List.nodup_cons.mp hnodup
    rw [DiskM.mapM_cons_run] at hrun
    have happlied := FilePatches.applied_applyFile options g d
    rcases hfirst : applyFile (m := DiskM) options g d with ⟨o, d₁⟩
    rw [hfirst] at hrun happlied
    rcases hrest : gs.mapM (applyFile (m := DiskM) options) d₁ with ⟨os₁, d₂⟩
    rw [hrest] at hrun
    cases hrun
    have hone := happlied.accounted hwrite
    have hlater := hseparate.subset (List.subset_cons_self _ _)
    obtain ⟨hfiles, hall⟩ := ih (hlater.of_sameDirs hone.sameDirs) hnodup hrest
    have hnames : (o :: os₁).map outcomeFile = (g :: gs).map FilePatches.file := by
      rw [List.map_cons, List.map_cons, happlied.outcomeFile, hfiles]
    refine ⟨hnames, hone.append hall (fun o₁ ho₁ o₂ ho₂ heq => ?_) (hnames ▸ hseparate)⟩
    cases List.mem_singleton.mp ho₁
    rw [happlied.outcomeFile] at heq
    exact hg (heq ▸ hfiles ▸ List.mem_map_of_mem ho₂)

/-! ### The result -/

namespace ApplyResult

variable {os : List (Except Conflict FileChange)}

/-- A file is reported as written. -/
def Wrote (r : ApplyResult) (file : String) : Prop :=
  ∃ c ∈ r.files, c.file = file ∧ c.wrote = true

/-- A file is reported as one that could not be written. -/
def Unwritten (r : ApplyResult) (file : String) : Prop :=
  ∃ c ∈ r.conflicts, c.file = file ∧
    ∃ e : Failure, c.error = some ("Failed to write file: " ++ e.message)

/-- A file is reported as one for which there was no room. -/
def OutOfRoom (r : ApplyResult) (root : Path) (file : String) : Prop :=
  ∃ c ∈ r.conflicts, c.file = file ∧ c.OutOfRoom root

/-- How a result explains that a place differs between two disks, for files below a directory. -/
inductive Explains (r : ApplyResult) (root : Path) (names : List String) (d d' : Disk)
    (q : Place) : Prop
  /-- It is the place of a file that is reported as written. -/
  | written {f : String} (named : f ∈ names) (wrote : r.Wrote f)
      (place : q ∈ d.place? (root.join f))
  /-- It is the place of a sibling of a file that was to be written, and the file that was there is
  gone. -/
  | lost {f : String} (named : f ∈ names) (attempted : r.Wrote f ∨ r.Unwritten f)
      (place : q ∈ d.place? (temporary (root.join f))) (was : d.IsFile q)
      (gone : d'.node? q = none)
  /-- It is the place of a sibling that was begun and not finished. -/
  | unfinished {f : String} (named : f ∈ names) (room : r.OutOfRoom root f)
      (place : q ∈ d.place? (temporary (root.join f))) (remains : d'.IsFile q)

/-- A result accounts for the difference between two disks, for files below a directory. -/
structure Accounts (r : ApplyResult) (root : Path) (names : List String) (d d' : Disk) : Prop where
  /-- Every file has one outcome, and the outcomes are in order. -/
  covers : r.Covers names
  /-- All paths lead to the same places. -/
  places : ∀ p, d'.place? p = d.place? p
  /-- A file is reported as written if it has a new text. -/
  changed : ∀ c ∈ r.files, (c.wrote = true ↔ c.new ≠ c.old)
  /-- A file that is reported as written holds its new text. -/
  written : ∀ c ∈ r.files, c.wrote = true → d'.readText (root.join c.file) = .ok c.new
  /-- Every other file is as it was. -/
  kept : ∀ f ∈ names, ¬ r.Wrote f → ∀ q ∈ d.place? (root.join f), d'.node? q = d.node? q
  /-- Whatever else differs was a sibling of a file that was to be written, and is gone, or is one
  that was not finished. -/
  elsewhere : ∀ q, d'.node? q ≠ d.node? q → r.Explains root names d d' q
  /-- There is a new sibling in the end if and only if there was no room to finish it. -/
  remains_iff : ∀ f ∈ names, ∀ q ∈ d.place? (temporary (root.join f)), d.node? q = none →
    (∀ g ∈ names, g ≠ f → q ∉ d.place? (temporary (root.join g))) →
      (d'.node? q ≠ none ↔ r.OutOfRoom root f)

theorem wrote_or_unwritten_of_attempted {o : Except Conflict FileChange} (ho : o ∈ os)
    (h : Attempted o) :
    (ofOutcomes os).Wrote (outcomeFile o) ∨ (ofOutcomes os).Unwritten (outcomeFile o) := by
  cases o with
  | ok change => exact .inl ⟨change, mem_files_ofOutcomes.mpr ho, rfl, h⟩
  | error conflict => exact .inr ⟨conflict, mem_conflicts_ofOutcomes.mpr ho, rfl, h⟩

end ApplyResult

/-- What outcomes explain, their result explains. -/
theorem Explained.explains {root : Path} {os : List (Except Conflict FileChange)} {d d' : Disk}
    {q : Place} (h : Explained root os d d' q) :
    (ApplyResult.ofOutcomes os).Explains root (os.map outcomeFile) d d' q := by
  cases h with
  | @written c mem wrote place =>
    have hmem := ApplyResult.mem_files_ofOutcomes.mpr mem
    exact .written (List.mem_map_of_mem mem) ⟨c, hmem, rfl, wrote⟩ place
  | lost mem attempted place was gone =>
    exact .lost (List.mem_map_of_mem mem)
      (ApplyResult.wrote_or_unwritten_of_attempted mem attempted) place was gone
  | @unfinished c mem room place remains =>
    have hmem := ApplyResult.mem_conflicts_ofOutcomes.mpr mem
    exact .unfinished (List.mem_map_of_mem mem) ⟨c, hmem, rfl, room⟩ place remains

/-- A file does not stand in the place of a sibling, its own or that of another one. -/
theorem Separate.ne_sibling {d : Disk} {root : Path} {names : List String} {f g : String}
    (h : Separate d root names) (hf : f ∈ names) (hg : g ∈ names) {q : Place}
    (hdir : d.node? q ≠ some .dir) (hsibling : q ∈ d.place? (temporary (root.join f))) :
    q ∉ d.place? (root.join g) := by
  by_cases hne : f = g
  · subst hne
    intro hplace
    obtain ⟨_, target⟩ := Disk.place?_eq_some_iff.mp hplace
    obtain ⟨_, sibling⟩ := Disk.place?_eq_some_iff.mp hsibling
    exact absurd rfl (Disk.sibling_ne target sibling hdir)
  · exact h.siblings f hf g hg hne q hsibling

/-- Outcomes that account for a difference make a result that does. -/
theorem Accounted.accounts {root : Path} {os : List (Except Conflict FileChange)} {d d' : Disk}
    (h : Accounted root os d d') (hseparate : Separate d root (os.map outcomeFile)) :
    (ApplyResult.ofOutcomes os).Accounts root (os.map outcomeFile) d d' := by
  have hnotDir : ∀ {q}, d'.IsFile q → d.node? q ≠ some .dir := fun hfile hdir =>
    hfile.ne_dir ((h.sameDirs.dirs _).mpr hdir)
  refine ⟨ApplyResult.covers_ofOutcomes os, h.sameDirs.place?,
    fun c hc => h.changed c (ApplyResult.mem_files_ofOutcomes.mp hc), fun c hc hwrote => ?_,
    fun f hf hkept q hq => ?_, fun q hq => ((h.elsewhere q).resolve_left hq).explains,
    fun f hf q hq hnone halone => ?_⟩
  · obtain ⟨q, modified, hp, hnode⟩ := h.written c (ApplyResult.mem_files_ofOutcomes.mp hc) hwrote
    have hp' := h.sameDirs.locate_eq_ok_iff.mpr hp
    simp [Disk.readText, hp', hnode, bind, Except.bind]
  · refine (h.elsewhere q).resolve_right fun hexplained => ?_
    cases hexplained with
    | @written c mem wrote place =>
      have hne : c.file ≠ f := by
        rintro rfl
        exact hkept ⟨c, ApplyResult.mem_files_ofOutcomes.mpr mem, rfl, wrote⟩
      exact hseparate.places _ (List.mem_map_of_mem mem) f hf hne q place hq
    | lost mem _ place was =>
      exact hseparate.ne_sibling (List.mem_map_of_mem mem) hf was.ne_dir place hq
    | unfinished mem _ place remains =>
      exact hseparate.ne_sibling (List.mem_map_of_mem mem) hf (hnotDir remains) place hq
  · constructor
    · intro hsome
      have hdiffers : d'.node? q ≠ d.node? q := by rwa [hnone]
      cases ((h.elsewhere q).resolve_left hdiffers).explains with
      | written named _ place =>
        exact absurd place (hseparate.ne_sibling hf named (by simp [hnone]) hq)
      | lost _ _ _ was => exact absurd hnone was.ne_none
      | @unfinished g named room place =>
        obtain rfl : g = f := Decidable.byContradiction fun hne => halone g named hne place
        exact room
    · rintro ⟨c, hc, rfl, hroom⟩
      refine (h.remains c (ApplyResult.mem_conflicts_ofOutcomes.mp hc) hroom q hq ?_).ne_none
      exact fun o ho => halone _ (List.mem_map_of_mem ho)

/-- **Writing changes what is reported**, unless the disk is full. An edit that ends before it
starts is reported and nothing changes. Otherwise the result accounts for all that changes on the
disk; and a sibling that is there in the end and was not there before is one for which there was no
room, which the result says. The sibling of a file stands beside it, but that of a directory that is
not called by its name stands within it. -/
theorem writes_are_reported (d : Disk) (ps : List Patch) (options : ApplyOptions)
    (hwrite : options.write = true)
    (hseparate : Separate d options.root (ps.map Patch.file)) :
    ((∃ p ∈ ps, ∃ e ∈ p.edits, e.stop < e.start) →
      ∃ p ∈ ps, ∃ e ∈ p.edits, e.stop < e.start ∧
        (apply (m := DiskM) ps options).run d =
          (.error (.invalidEditRange p.file e.start e.stop), d)) ∧
    ((∀ p ∈ ps, ∀ e ∈ p.edits, e.start ≤ e.stop) →
      ∃ r d', (apply (m := DiskM) ps options).run d = (.ok r, d') ∧
        r.Accounts options.root (distinct (ps.map Patch.file)) d d') ∧
    (∀ p, ∀ q ∈ d.place? p, d.node? q ≠ some .dir →
      ∃ here last, q = here ++ [last] ∧
        d.place? (temporary p) = some (here ++ [last ++ ".voko-tmp"])) ∧
    ∀ p, ∀ q ∈ d.place? p, d.node? q = some .dir → p.fileName? = none →
      d.place? (temporary p) = some (q ++ [".voko-tmp"]) := by
  refine ⟨?_, fun hforward => ?_, fun p q hq hdir => ?_, fun p q hq hdir hname => ?_⟩
  · rintro ⟨p, hp, e, he, hback⟩
    cases hfound : backwardEdit? (FilePatches.group ps) with
    | none => exact absurd hback (Nat.not_lt.mpr (backwardEdit?_eq_none_iff.mp hfound p hp e he))
    | some found =>
      obtain ⟨file, e'⟩ := found
      obtain ⟨p', hp', rfl, he', hback'⟩ := exists_of_backwardEdit?_eq_some hfound
      exact ⟨p', hp', e', he', hback', apply_run_of_backward hfound d⟩
  · have hrun := apply_run (backwardEdit?_eq_none_iff.mpr hforward) options d
    rcases hall : (FilePatches.group ps).mapM (applyFile (m := DiskM) options) d with ⟨os, d'⟩
    rw [hall] at hrun
    have hnames := FilePatches.map_file_group ps
    have hsub : distinct (ps.map Patch.file) ⊆ ps.map Patch.file := fun _ => mem_distinct.mp
    have hseparate' := hseparate.subset hsub
    obtain ⟨hfiles, haccounted⟩ := accounted_mapM hwrite (hnames ▸ hseparate')
      (hnames ▸ nodup_distinct _) hall
    rw [hnames] at hfiles
    exact ⟨_, d', hrun, hfiles ▸ haccounted.accounts (hfiles ▸ hseparate')⟩
  · obtain ⟨directory, hp⟩ := Disk.place?_eq_some_iff.mp hq
    obtain ⟨here, last, hlast, hsibling⟩ := Disk.locate_temporary hp hdir
    exact ⟨here, last, hlast, Disk.place?_eq_some_iff.mpr ⟨_, hsibling⟩⟩
  · have htemporary : temporary p = p.join ".voko-tmp" := by
      simp [temporary, Path.withFileName, hname]
    rw [htemporary]
    exact Disk.place?_eq_some_iff.mpr ⟨_, Disk.locate_join hq hdir (by decide)⟩

/-- A file that is written over a sibling, one that is not there, and one for which there is no room
after that. -/
theorem writes_are_reported_of_three :
    let d : Disk :=
      ⟨[], [(["a"], .file (.text "x") 0), (["a.voko-tmp"], .file (.text "y") 0)], 1, [], some 3⟩
    let ps : List Patch := [⟨"a", [⟨0, 1, "z"⟩], [], ∅⟩, ⟨"b", [.insert 0 "z"], [], ∅⟩,
      ⟨"c", [.insert 0 "uvw"], [], ∅⟩]
    let options : ApplyOptions := ⟨true, some (.ofList [("c", "")]), ⟨""⟩⟩
    Separate d options.root (ps.map Patch.file) ∧
      ∃ r d', (apply (m := DiskM) ps options).run d = (.ok r, d') ∧
        r.Accounts options.root ["a", "b", "c"] d d' ∧ r.OutOfRoom options.root "c" ∧
        d'.node? ["c.voko-tmp"] ≠ none := by
  intro d ps options
  have hseparate : Separate d options.root (ps.map Patch.file) :=
    ⟨by decide +kernel, by decide +kernel⟩
  obtain ⟨-, haccounts, -⟩ := writes_are_reported d ps options rfl hseparate
  obtain ⟨r, d', hrun, haccounts⟩ := haccounts (by decide)
  let gone : Conflict :=
    ⟨"b", [], some "Failed to read file: No such file or directory (os error 2)"⟩
  let full : Conflict := ⟨"c", [], some ("Failed to write file: " ++
    (Failure.io [.write (temporary (options.root.join "c"))] .noSpace).message)⟩
  have hresult : ((apply (m := DiskM) ps options).run d).1 =
      .ok ⟨[⟨"a", "x", "z", true, []⟩], [gone, full]⟩ := by
    decide +kernel
  have hroom : r.OutOfRoom options.root "c" := by
    rw [hrun] at hresult
    cases hresult
    exact ⟨full, List.mem_cons_of_mem _ List.mem_cons_self, rfl, rfl⟩
  refine ⟨hseparate, r, d', hrun, haccounts, hroom, ?_⟩
  refine (haccounts.remains_iff "c" (by decide) ["c.voko-tmp"] ?_ ?_ ?_).mpr hroom
  all_goals decide +kernel

/-- **A sibling may be left behind**, if the disk is full before it is finished; and **what is lost
may be no sibling**, if a directory is to be written that is not called by its name. -/
theorem half_written_sibling_remains :
    (let d : Disk := ⟨[], [(["a"], .file (.text "x") 0)], 1, [], some 2⟩
      let ps : List Patch := [⟨"a", [.insert 1 "yz"], [], ∅⟩]
      let options : ApplyOptions := ⟨true, none, ⟨"."⟩⟩
      Separate d options.root (ps.map Patch.file) ∧
        ∃ r d', (apply (m := DiskM) ps options).run d = (.ok r, d') ∧
          d.node? ["a.voko-tmp"] = none ∧
          d'.node? ["a.voko-tmp"] = some (.file (.text "x") 1)) ∧
    (let d : Disk := ⟨["w"], [(["w", ".voko-tmp"], .file (.text "mine") 0)], 1, [], none⟩
      let ps : List Patch := [⟨".", [.insert 0 "z"], [], ∅⟩]
      let options : ApplyOptions := ⟨true, some (.ofList [(".", "abc")]), ⟨"."⟩⟩
      Separate d options.root (ps.map Patch.file) ∧
        ∃ r d', (apply (m := DiskM) ps options).run d = (.ok r, d') ∧
          d.place? (options.root.join ".") = some ["w"] ∧
          d.node? ["w", ".voko-tmp"] = some (.file (.text "mine") 0) ∧
          d'.node? ["w", ".voko-tmp"] = none) := by
  refine ⟨?_, ?_⟩
  · intro d ps options
    exact ⟨⟨by decide +kernel, by decide +kernel⟩, _, _, rfl, by decide +kernel, by decide +kernel⟩
  · intro d ps options
    exact ⟨⟨by decide +kernel, by decide +kernel⟩, _, _, rfl, by decide +kernel, by decide +kernel,
      by decide +kernel⟩

end KeyLedger
