import KeyLedger.Proofs.Files.Sibling
import KeyLedger.Proofs.Files.Write

/-!
# What an atomic write can do

An atomic write puts its text into the sibling of a file and then moves the sibling into place. It
can fail before the sibling is opened, and then nothing has happened; or the sibling cannot be
moved, and then it is removed again, with what was there before. But if the disk is full before the
sibling is finished, nobody removes what is there of it. Nothing else changes, and no directory
comes or goes, so that all paths lead where they led.

## Main definitions

* `Disk.SameDirs` — two disks with the same directories
* `Disk.place?` — the place that a path leads to, if it leads anywhere
* `Disk.IsFile` — there is a file at a place
* `Disk.AtomicWrite` — what an atomic write can do

## Main results

* `Disk.SameDirs.place?` — paths lead to the same places
* `Disk.AtomicWrite.node?` — what an atomic write leaves alone
* `Disk.atomicWrite` — what an atomic write does
-/

namespace KeyLedger

namespace Disk

variable {d d' d₁ d₂ : Disk} {p : Path} {q r : Place}

/-! ### The same directories -/

/-- Two disks have the same working directory and the same directories. -/
structure SameDirs (d d' : Disk) : Prop where
  /-- The working directory is the same. -/
  home : d'.home = d.home
  /-- The directories are the same. -/
  dirs : ∀ q, d'.node? q = some .dir ↔ d.node? q = some .dir

theorem SameDirs.refl (d : Disk) : SameDirs d d := ⟨rfl, fun _ => Iff.rfl⟩

theorem SameDirs.symm (h : SameDirs d d') : SameDirs d' d := ⟨h.home.symm, fun q => (h.dirs q).symm⟩

theorem SameDirs.trans (h : SameDirs d d₁) (h' : SameDirs d₁ d₂) : SameDirs d d₂ :=
  ⟨h'.home.trans h.home, fun q => (h'.dirs q).trans (h.dirs q)⟩

theorem SameDirs.retains (h : SameDirs d d') : Retains d d' := ⟨h.home, fun q => (h.dirs q).mpr⟩

/-- Only places change that were no directories and do not become any. -/
theorem SameDirs.of_forall (home : d'.home = d.home) (h : ∀ q, d'.node? q = d.node? q ∨
    d.node? q ≠ some .dir ∧ d'.node? q ≠ some .dir) : SameDirs d d' := by
  refine ⟨home, fun q => ?_⟩
  rcases h q with h | ⟨h, h'⟩
  · rw [h]
  · exact iff_of_false h' h

theorem SameDirs.locate_eq_ok_iff (h : SameDirs d d') {t : Target} :
    d'.locate p = .ok t ↔ d.locate p = .ok t :=
  ⟨h.symm.retains.locate, h.retains.locate⟩

/-- The place that a path leads to, if it leads anywhere. -/
def place? (d : Disk) (p : Path) : Option Place :=
  match d.locate p with
  | .ok target => some target.place
  | .error _ => none

theorem place?_eq_some_iff :
    d.place? p = some q ↔ ∃ directory, d.locate p = .ok ⟨q, directory⟩ := by
  rw [place?]
  cases d.locate p with
  | error e => simp
  | ok t =>
    obtain ⟨place, directory⟩ := t
    simp

/-- Paths lead to the same places. -/
theorem SameDirs.place? (h : SameDirs d d') (p : Path) : d'.place? p = d.place? p := by
  refine Option.ext fun q => ?_
  simp only [place?_eq_some_iff, h.locate_eq_ok_iff]

/-- There is a file at a place. -/
def IsFile (d : Disk) (q : Place) : Prop :=
  ∃ contents modified, d.node? q = some (.file contents modified)

theorem IsFile.ne_none (h : d.IsFile q) : d.node? q ≠ none := by
  obtain ⟨contents, modified, hq⟩ := h
  simp [hq]

theorem IsFile.ne_dir (h : d.IsFile q) : d.node? q ≠ some .dir := by
  obtain ⟨contents, modified, hq⟩ := h
  simp [hq]

/-! ### Single steps -/

theorem node?_erase_self (h : d.node? q ≠ some .dir) : (d.erase q).node? q = none := by
  have hhome : (d.erase q).home = d.home := rfl
  rw [node?, hhome, isPrefixOf_home_of_ne_dir h, lookup_erase_self]
  rfl

theorem node?_erase_of_ne (hqr : r ≠ q) : (d.erase q).node? r = d.node? r := by
  have hhome : (d.erase q).home = d.home := rfl
  rw [node?, node?, hhome, lookup_erase_of_ne hqr]

/-- What a move that succeeds has checked and done. -/
theorem rename_eq_ok {old new : Path} {contents : Contents} {modified : Int} {directory : Bool}
    (hold : d.locate old = .ok ⟨q, directory⟩) (hfile : d.node? q = some (.file contents modified))
    (h : d.rename old new = .ok d') :
    ∃ r, d.locate new = .ok ⟨r, false⟩ ∧ d.node? r ≠ some .dir ∧ d'.home = d.home ∧
      ∀ x, d'.node? x = ((d.erase q).put r (.file contents modified)).node? x := by
  simp only [rename, hold, bind, Except.bind] at h
  cases hnew : d.locate new with
  | error e => simp [hnew] at h
  | ok t =>
    obtain ⟨r, directory'⟩ := t
    simp only [hnew, hfile] at h
    split at h
    · cases h
    · split at h
      · cases h
      · next hflag =>
        split at h
        · cases h
        · next hdir =>
          obtain rfl : directory' = false := by simpa using hflag
          refine ⟨r, rfl, hdir, ?_⟩
          cases h
          split <;> exact ⟨rfl, fun _ => rfl⟩

theorem removeFile_eq_ok {contents : Contents} {modified : Int}
    (hp : d.locate p = .ok ⟨q, false⟩) (hfile : d.node? q = some (.file contents modified)) :
    d.removeFile p = .ok (d.erase q) := by
  simp [removeFile, hp, hfile, bind, Except.bind]

/-! ### The whole write -/

/-- What an atomic write can do. -/
inductive AtomicWrite (p : Path) (text : String) (d : Disk) : Except Failure Unit → Disk → Prop
  /-- The sibling cannot be opened. -/
  | refused {cause : IoError} (reason : cause.message ≠ IoError.noSpace.message) :
      AtomicWrite p text d (.error (.io [.write (temporary p)] cause)) d
  /-- The disk is full before the sibling is finished, and a part of the text stays in it. -/
  | broken {q : Place} {n : Nat}
      (sibling : d.locate (temporary p) = .ok ⟨q, false⟩) (notDir : d.node? q ≠ some .dir)
      (short : d.cutoff? q (.text text) = some n) :
      AtomicWrite p text d (.error (.io [.write (temporary p)] .noSpace))
        (d.fill q ((Contents.text text).take n))
  /-- The sibling cannot be moved into place and is removed. -/
  | abandoned {cause : IoError} {q : Place} {d' : Disk}
      (sibling : d.locate (temporary p) = .ok ⟨q, false⟩) (notDir : d.node? q ≠ some .dir)
      (home : d'.home = d.home) (gone : d'.node? q = none)
      (elsewhere : ∀ x, x ≠ q → d'.node? x = d.node? x) :
      AtomicWrite p text d (.error (.io [.moveIntoPlace p] cause)) d'
  /-- The sibling is moved into place. -/
  | moved {q r : Place} {d' : Disk} {modified : Int}
      (sibling : d.locate (temporary p) = .ok ⟨q, false⟩) (notDir : d.node? q ≠ some .dir)
      (target : d.locate p = .ok ⟨r, false⟩) (notDir' : d.node? r ≠ some .dir)
      (home : d'.home = d.home) (written : d'.node? r = some (.file (.text text) modified))
      (gone : d'.node? q = none) (elsewhere : ∀ x, x ≠ q → x ≠ r → d'.node? x = d.node? x) :
      AtomicWrite p text d (.ok ()) d'

section AtomicWrite

/-- Filling a place that is no directory adds none and removes none. -/
theorem sameDirs_fill (notDir : d.node? q ≠ some .dir) (contents : Contents) :
    SameDirs d (d.fill q contents) := by
  refine .of_forall rfl fun x => ?_
  by_cases hx : x = q
  · subst hx
    exact .inr ⟨notDir, by simp [node?_fill_self notDir]⟩
  · exact .inl (node?_fill_of_ne hx contents)

variable {text : String} {outcome : Except Failure Unit}

/-- No directory comes or goes. -/
theorem AtomicWrite.sameDirs (h : AtomicWrite p text d outcome d') : SameDirs d d' := by
  cases h with
  | refused => exact .refl d
  | broken _ notDir => exact sameDirs_fill notDir _
  | @abandoned _ q _ _ notDir home gone elsewhere =>
    refine .of_forall home fun x => ?_
    by_cases hx : x = q
    · exact .inr (hx ▸ ⟨notDir, by simp [gone]⟩)
    · exact .inl (elsewhere x hx)
  | @moved q r _ _ _ notDir _ notDir' home written gone elsewhere =>
    refine .of_forall home fun x => ?_
    by_cases hq : x = q
    · exact .inr (hq ▸ ⟨notDir, by simp [gone]⟩)
    · by_cases hr : x = r
      · exact .inr (hr ▸ ⟨notDir', by simp [written]⟩)
      · exact .inl (elsewhere x hq hr)

/-- A place that holds nothing in the end, and was no directory, is as it was or has lost a file. -/
theorem node?_eq_or_lost (notDir : d.node? q ≠ some .dir) (gone : d'.node? q = none) :
    d'.node? q = d.node? q ∨ d.IsFile q ∧ d'.node? q = none := by
  cases hnode : d.node? q with
  | none => exact .inl gone
  | some n =>
    cases n with
    | dir => exact absurd hnode notDir
    | file contents modified => exact .inr ⟨⟨_, _, hnode⟩, gone⟩

/-- A place that differs is the one that is written, or that of the sibling: it has lost a file, or
has one that is not finished. -/
theorem AtomicWrite.node? (h : AtomicWrite p text d outcome d') (x : Place) :
    d'.node? x = d.node? x ∨ (outcome = .ok () ∧ x ∈ d.place? p) ∨
      x ∈ d.place? (temporary p) ∧
        (d.IsFile x ∧ d'.node? x = none ∨
          outcome = .error (.io [.write (temporary p)] .noSpace) ∧ d'.IsFile x) := by
  cases h with
  | refused => exact .inl rfl
  | @broken q n sibling notDir =>
    by_cases hx : x = q
    · subst hx
      exact .inr (.inr ⟨place?_eq_some_iff.mpr ⟨_, sibling⟩,
        .inr ⟨rfl, _, _, node?_fill_self notDir _⟩⟩)
    · exact .inl (node?_fill_of_ne hx _)
  | @abandoned _ q _ sibling notDir _ gone elsewhere =>
    by_cases hx : x = q
    · subst hx
      exact (node?_eq_or_lost notDir gone).imp_right fun hlost =>
        .inr ⟨place?_eq_some_iff.mpr ⟨_, sibling⟩, .inl hlost⟩
    · exact .inl (elsewhere x hx)
  | @moved q r _ _ sibling notDir target _ _ _ gone elsewhere =>
    by_cases hq : x = q
    · subst hq
      exact (node?_eq_or_lost notDir gone).imp_right fun hlost =>
        .inr ⟨place?_eq_some_iff.mpr ⟨_, sibling⟩, .inl hlost⟩
    · by_cases hr : x = r
      · exact .inr (.inl ⟨rfl, hr ▸ place?_eq_some_iff.mpr ⟨_, target⟩⟩)
      · exact .inl (elsewhere x hq hr)

end AtomicWrite

/-- The sibling of a path stands somewhere else. -/
theorem sibling_ne {directory directory' : Bool} (target : d.locate p = .ok ⟨r, directory⟩)
    (sibling : d.locate (temporary p) = .ok ⟨q, directory'⟩) (notDir : d.node? q ≠ some .dir) :
    q ≠ r := by
  rintro rfl
  obtain ⟨here, last, hq, hsibling⟩ := locate_temporary target notDir
  rw [sibling] at hsibling
  cases hsibling
  simp at hq

/-- **What an atomic write does.** -/
theorem atomicWrite (p : Path) (text : String) (d : Disk) :
    AtomicWrite p text d ((writeAtomic (m := DiskM) p text).run d).1
      ((writeAtomic (m := DiskM) p text).run d).2 := by
  have hfails : ∀ {e : IoError} {d₁ : Disk},
      d.writeFile (temporary p) (.text text) = (d₁, .error e) →
      (writeAtomic (m := DiskM) p text).run d = (.error (.io [.write (temporary p)] e), d₁) :=
    fun hwrite => DiskM.run_bind_of_error _
      (DiskM.run_attempt_of_error (DiskM.writeText_eq_iff.mpr hwrite))
  rcases d.writeFile_cases (temporary p) (.text text) with
    ⟨e, reason, hwrite⟩ | ⟨q, sibling, notDir, ⟨-, hwrite⟩ | ⟨n, short, hwrite⟩⟩
  · rw [hfails hwrite]
    exact .refused reason
  · have hattempt : (attempt (.write (temporary p)) (writeText (temporary p) text) :
        ExceptT Failure DiskM Unit).run d = (.ok (), d.fill q (.text text)) :=
      DiskM.attempt_eq_ok_iff.mpr (DiskM.writeText_eq_iff.mpr hwrite)
    rw [writeAtomic, DiskM.run_bind_of_ok _ hattempt, DiskM.run_liftM_bind]
    have hsame := sameDirs_fill notDir (.text text)
    have hself := node?_fill_self notDir (.text text)
    have hother : ∀ x, x ≠ q → (d.fill q (.text text)).node? x = d.node? x :=
      fun x hx => node?_fill_of_ne hx _
    generalize d.fill q (.text text) = d₁ at hsame hself hother
    have hsibling := hsame.locate_eq_ok_iff.mpr sibling
    have hgone : (d₁.erase q).node? q = none := node?_erase_self (by simp [hself])
    cases hrename : d₁.rename (temporary p) p with
    | error e =>
      have hmove : (MonadFiles.rename (temporary p) p : DiskM (Except IoError Unit)) d₁ =
          (.error e, d₁) := DiskM.tryModify_of_error hrename
      have hremove : (MonadFiles.removeFile (temporary p) : DiskM (Except IoError Unit)) d₁ =
          (.ok (), d₁.erase q) := DiskM.tryModify_of_ok (removeFile_eq_ok hsibling hself)
      simp only [hmove]
      rw [DiskM.run_liftM_bind, hremove]
      refine .abandoned sibling notDir hsame.home hgone fun x hx => ?_
      exact (node?_erase_of_ne hx).trans (hother x hx)
    | ok d₂ =>
      have hmove : (MonadFiles.rename (temporary p) p : DiskM (Except IoError Unit)) d₁ =
          (.ok (), d₂) := DiskM.tryModify_of_ok hrename
      simp only [hmove]
      change AtomicWrite p text d (.ok ()) d₂
      obtain ⟨r, htarget, hnotDir, hhome, hnode⟩ := rename_eq_ok hsibling hself hrename
      have target := hsame.locate_eq_ok_iff.mp htarget
      have hne := sibling_ne target sibling notDir
      have written : d₂.node? r = some (.file (.text text) d.clock) := by
        have haway : r.isPrefixOf d₁.home = false := isPrefixOf_home_of_ne_dir hnotDir
        rw [hnode]
        exact @node?_put_self (d₁.erase q) r haway _
      have gone : d₂.node? q = none := by rw [hnode, node?_put_of_ne hne, hgone]
      exact .moved sibling notDir target (mt (hsame.dirs r).mpr hnotDir) (hhome.trans hsame.home)
        written gone fun x hq hr => by
          rw [hnode, node?_put_of_ne hr, node?_erase_of_ne hq, hother x hq]
  · rw [hfails hwrite]
    exact .broken sibling notDir short

end Disk

end KeyLedger
