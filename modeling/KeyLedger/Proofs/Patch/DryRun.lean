import KeyLedger.Proofs.Patch.Turns
import KeyLedger.Proofs.Patch.Writing

/-!
# A dry run foretells a run that writes

A run that writes reads its later files from a disk that its earlier ones have changed already. If
the files are apart this makes no difference to what is decided: whatever an earlier file has done,
it was done at its own place or at that of its sibling, and neither of them is the place of a later
file. So a dry run foretells every decision, and the only surprise is a file that cannot be written
to the disk that its turn finds.

## The way to a file

There is one thing that does change. A file that cannot be reached is reported with the reason, and
the reason depends on what stands at the place where its way ends: nothing, or a file. An earlier
file may be put there, if its text was supplied and not read, and so may its sibling be lost there.
The file can still not be reached, since no directory comes or goes, but for another reason.

## Main definitions

* `IoError.EndsWay` — why a file cannot be reached
* `Altered` — only the places of some files and of their siblings differ
* `Thwarted` — the way to a file ends at the place of another one
* `Foretold` — what a dry run says of a file, and what happens when its turn comes
* `ApplyResult.Foretells` — the same of whole results

## Main results

* `Altered.readText` — what reading a file gives on an altered disk
* `foretold_turn` — every file does what the dry run says when its turn comes
* `dry_run_foretells` — a dry run foretells a run that writes
-/

namespace KeyLedger

/-! ### Where a way ends -/

/-- Why a way ends: there is nothing, or no directory. -/
def IoError.EndsWay (e : IoError) : Prop := e = .notFound ∨ e = .notDirectory

namespace Disk

variable {d d' : Disk}

theorem SameDirs.stop? (h : SameDirs d d') (here : Place) (ss : List String) :
    d'.stop? here ss = d.stop? here ss := by
  induction ss generalizing here with
  | nil => rfl
  | cons s ss ih =>
    rw [Disk.stop?, Disk.stop?]
    cases hs : d.enter here s with
    | ok next =>
      rw [h.retains.enter hs]
      exact ih next
    | error e =>
      cases hs' : d'.enter here s with
      | ok next =>
        rw [h.symm.retains.enter hs'] at hs
        cases hs
      | error e' => rfl

/-- Ways end where they ended, as long as no directory comes or goes. -/
theorem SameDirs.obstacle? (h : SameDirs d d') (p : Path) : d'.obstacle? p = d.obstacle? p := by
  rw [Disk.obstacle?, Disk.obstacle?, h.retains.origin, h.stop?]

/-- A path that leads somewhere is read as before, if what is there is as before. -/
theorem SameDirs.readText_of_locate (h : SameDirs d d') {p : Path} {t : Target}
    (hp : d.locate p = .ok t) (hnode : d'.node? t.place = d.node? t.place) :
    d'.readText p = d.readText p := by
  rw [Disk.readText, Disk.readText, hp, h.locate_eq_ok_iff.mpr hp]
  simp only [bind, Except.bind, hnode]

end Disk

/-! ### A disk that earlier files have changed -/

/-- Only the places of some files below a directory, and of their siblings, differ. -/
structure Altered (root : Path) (names : List String) (d d' : Disk) : Prop where
  /-- The directories are the same. -/
  sameDirs : d.SameDirs d'
  /-- A place that differs is that of a file, or of its sibling. -/
  elsewhere : ∀ q, d'.node? q = d.node? q ∨ ∃ f ∈ names,
    q ∈ d.place? (root.join f) ∨ q ∈ d.place? (temporary (root.join f))

/-- The way to a file ends at the place of another one, or at that of its sibling. -/
def Thwarted (d : Disk) (root : Path) (names : List String) (file : String) : Prop :=
  ∃ q, d.obstacle? (root.join file) = some q ∧ ∃ f ∈ names,
    f ≠ file ∧ (q ∈ d.place? (root.join f) ∨ q ∈ d.place? (temporary (root.join f)))

section Altered

variable {root : Path} {names : List String} {file : String} {d d₁ d₂ : Disk}

theorem Altered.refl (root : Path) (names : List String) (d : Disk) : Altered root names d d :=
  ⟨.refl d, fun _ => .inl rfl⟩

/-- What one more of the files does. -/
theorem Altered.step {o : Except Conflict FileChange} (h : Altered root names d d₁)
    (ho : Accounted root [o] d₁ d₂) (hfile : outcomeFile o ∈ names) : Altered root names d d₂ := by
  refine ⟨h.sameDirs.trans ho.sameDirs, fun q => ?_⟩
  rcases ho.elsewhere q with hq | hexplained
  · rw [hq]
    exact h.elsewhere q
  · obtain ⟨o', ho', hplace⟩ := hexplained.exists_place
    obtain rfl := List.mem_singleton.mp ho'
    rw [h.sameDirs.place?, h.sameDirs.place?] at hplace
    exact .inr ⟨_, hfile, hplace⟩

/-- What some of the files do, one after the other. -/
theorem Altered.mapM (options : ApplyOptions) {gs : List FilePatches}
    (h : Altered options.root names d d₁) (hwrite : options.write = true)
    (hgs : gs.map FilePatches.file ⊆ names) :
    Altered options.root names d (gs.mapM (applyFile (m := DiskM) options) d₁).2 := by
  induction gs generalizing d₁ with
  | nil => exact h
  | cons g gs ih =>
    obtain ⟨hg, hgs⟩ := List.cons_subset.mp hgs
    have happlied := FilePatches.applied_applyFile options g d₁
    rw [DiskM.mapM_cons_run]
    exact ih (h.step (happlied.accounted hwrite) (happlied.outcomeFile ▸ hg)) hgs

/-- **Reading a file that is apart from those that differ** gives what it gave, or the file can be
reached neither before nor after, because its way ends at the place of another one. -/
theorem Altered.readText (h : Altered root names d d₁)
    (hseparate : Separate d root (file :: names)) (hfile : file ∉ names) :
    d₁.readText (root.join file) = d.readText (root.join file) ∨
      Thwarted d root names file ∧ ∃ e e', e.EndsWay ∧ e'.EndsWay ∧
        d.readText (root.join file) = .error e ∧ d₁.readText (root.join file) = .error e' := by
  have hne : ∀ f ∈ names, f ≠ file := by
    rintro f hf rfl
    exact hfile hf
  cases hp : d.locate (root.join file) with
  | ok t =>
    refine .inl (h.sameDirs.readText_of_locate hp ?_)
    have hplace : t.place ∈ d.place? (root.join file) :=
      Disk.place?_eq_some_iff.mpr ⟨t.directory, hp⟩
    refine (h.elsewhere t.place).resolve_right ?_
    rintro ⟨f, hf, hother | hother⟩
    · exact hseparate.places file List.mem_cons_self f (List.mem_cons_of_mem _ hf)
        (hne f hf).symm _ hplace hother
    · exact hseparate.siblings f (List.mem_cons_of_mem _ hf) file List.mem_cons_self
        (hne f hf) _ hother hplace
  | error e =>
    have hread : d.readText (root.join file) = .error e := by simp [Disk.readText, hp, bind,
      Except.bind]
    cases hp₁ : d₁.locate (root.join file) with
    | ok t =>
      rw [h.sameDirs.locate_eq_ok_iff.mp hp₁] at hp
      cases hp
    | error e₁ =>
      have hread₁ : d₁.readText (root.join file) = .error e₁ := by simp [Disk.readText, hp₁, bind,
        Except.bind]
      rw [hread, hread₁]
      by_cases htext : (root.join file).text = ""
      · rw [Disk.locate, if_pos htext] at hp hp₁
        cases hp
        cases hp₁
        exact .inl rfl
      · obtain ⟨q, hq, he⟩ := (Disk.locate_eq_error hp).resolve_left htext
        obtain ⟨q₁, hq₁, he₁⟩ := (Disk.locate_eq_error hp₁).resolve_left htext
        rw [h.sameDirs.obstacle?, hq] at hq₁
        cases hq₁
        rcases h.elsewhere q with hnode | ⟨f, hf, hplace⟩
        · left
          rw [he, he₁, Disk.hindrance, Disk.hindrance, hnode]
        · exact .inr ⟨⟨q, hq, f, hf, hne f hf, hplace⟩, e, e₁, he ▸ d.hindrance_cases q,
            he₁ ▸ d₁.hindrance_cases q, rfl, rfl⟩

end Altered

/-! ### One file -/

/-- The conflict of a file that cannot be read. -/
def unreadable (file : String) (e : IoError) : Conflict :=
  ⟨file, [], some ("Failed to read file: " ++ e.message)⟩

/-- What a dry run says of a file, and what happens when its turn comes. -/
inductive Foretold (root : Path) (thwarted : String → Prop) (turn : String → Disk) :
    Except Conflict FileChange → Except Conflict FileChange → Prop
  /-- A conflict. -/
  | conflict (c : Conflict) : Foretold root thwarted turn (.error c) (.error c)
  /-- A file that cannot be reached, perhaps for another reason. -/
  | thwarted {file : String} {e e' : IoError} (why : thwarted file) (foretold : e.EndsWay)
      (found : e'.EndsWay) :
      Foretold root thwarted turn (.error (unreadable file e)) (.error (unreadable file e'))
  /-- A change, which is written if it is one. -/
  | change (c : FileChange) {wrote : Bool} (written : wrote = true ↔ c.new ≠ c.old) :
      Foretold root thwarted turn (.ok c) (.ok { c with wrote })
  /-- A change that could not be written to the disk of the turn. -/
  | failed {c : FileChange} {e : Failure} {d' : Disk} (differs : c.new ≠ c.old)
      (run : (writeAtomic (m := DiskM) (root.join c.file) c.new).run (turn c.file) =
        (.error e, d')) :
      Foretold root thwarted turn (.ok c)
        (.error ⟨c.file, [], some ("Failed to write file: " ++ e.message)⟩)

namespace FilePatches

variable {g : FilePatches}

/-- Without a text the decision is a conflict, whatever the reason. -/
theorem resolve_error (g : FilePatches) :
    (∃ c, ∀ e, g.resolve (.error e) = .error c) ∨
      ∀ e, g.resolve (.error e) = .error (unreadable g.file e) := by
  by_cases hranges : (overlaps (sortEdits g.edits)).isEmpty
  · exact .inr fun e => by simp [resolve, hranges, unreadable]
  · exact .inl ⟨⟨g.file, overlaps (sortEdits g.edits), none⟩, fun e => by simp [resolve, hranges]⟩

/-- A text that was supplied is taken, and any other is read. -/
theorem currentText_eq (write : Bool) (contents : Option (Dict String)) (root : Path)
    (file : String) (d : Disk) :
    (currentText (m := DiskM) ⟨write, contents, root⟩ file d).1 =
      match contents >>= fun c => c.find? file with
      | some text => .ok text
      | none => d.readText (root.join file) := by
  rw [currentText]
  cases contents >>= fun c => c.find? file <;> rfl

/-- **One file does what the dry run says**, on a disk that other files have altered. -/
theorem foretold_applyFile {contents : Option (Dict String)} {root : Path} {names : List String}
    {d d₂ : Disk} {turn : String → Disk} {o : Except Conflict FileChange}
    (haltered : Altered root names d (turn g.file))
    (hseparate : Separate d root (g.file :: names)) (hfile : g.file ∉ names)
    (happlied : g.Applied ⟨true, contents, root⟩ (turn g.file) o d₂) :
    Foretold root (Thwarted d root names) turn
      (g.resolve (currentText (m := DiskM) ⟨false, contents, root⟩ g.file d).1) o := by
  have hcurrent := haltered.readText hseparate hfile
  -- both runs decide on the same text, or have none
  have hdecided : ∀ r,
      g.resolve (currentText (m := DiskM) ⟨true, contents, root⟩ g.file (turn g.file)).1 = r →
      g.resolve (currentText (m := DiskM) ⟨false, contents, root⟩ g.file d).1 = r ∨
        Thwarted d root names g.file ∧ ∃ e e', e.EndsWay ∧ e'.EndsWay ∧
          r = .error (unreadable g.file e') ∧
          g.resolve (currentText (m := DiskM) ⟨false, contents, root⟩ g.file d).1 =
            .error (unreadable g.file e) := by
    rintro r rfl
    rw [currentText_eq, currentText_eq]
    cases contents >>= fun c => c.find? g.file with
    | some text => exact .inl rfl
    | none =>
      rcases hcurrent with hsame | ⟨hthwarted, e, e', hends, hends', he, he'⟩
      · exact .inl (congrArg g.resolve hsame.symm)
      · simp only [he, he']
        rcases g.resolve_error with ⟨c, hc⟩ | hc
        · exact .inl (by rw [hc, hc])
        · exact .inr ⟨hthwarted, e, e', hends, hends', hc e', hc e⟩
  cases happlied with
  | @conflict c decided =>
    rcases hdecided _ decided with hsame | ⟨hthwarted, e, e', hends, hends', he', he⟩
    · rw [hsame]
      exact .conflict c
    · rw [he, he']
      exact .thwarted hthwarted hends hends'
  | @kept change decided idle =>
    rcases hdecided _ decided with hsame | ⟨-, _, _, -, -, he', -⟩
    · have hnew : change.new = change.old := idle.resolve_left (by simp)
      rw [hsame]
      exact .change change (by simp [wrote_of_resolve decided, hnew])
    · cases he'
  | @written change _ decided _ differs _ =>
    rcases hdecided _ decided with hsame | ⟨-, _, _, -, -, he', -⟩
    · rw [hsame]
      exact .change change (by simp [differs])
    · cases he'
  | @failed change _ e decided _ differs run =>
    rcases hdecided _ decided with hsame | ⟨-, _, _, -, -, he', -⟩
    · have hname : change.file = g.file := by
        have hout := g.outcomeFile_resolve
          (currentText (m := DiskM) ⟨false, contents, root⟩ g.file d).1
        rwa [hsame] at hout
      rw [← hname] at run
      rw [hsame, ← hname]
      exact .failed differs run
    · cases he'

end FilePatches

/-! ### All files -/

theorem Thwarted.mono {d : Disk} {root : Path} {names more : List String} {file : String}
    (h : Thwarted d root names file) (hsub : names ⊆ more) : Thwarted d root more file := by
  obtain ⟨q, hq, f, hf, hcause⟩ := h
  exact ⟨q, hq, f, hsub hf, hcause⟩

theorem Foretold.mono {root : Path} {thwarted thwarted' : String → Prop} {turn : String → Disk}
    {o o' : Except Conflict FileChange} (h : Foretold root thwarted turn o o')
    (himp : ∀ file, thwarted file → thwarted' file) : Foretold root thwarted' turn o o' := by
  cases h with
  | conflict c => exact .conflict c
  | thwarted why foretold found => exact .thwarted (himp _ why) foretold found
  | change c written => exact .change c written
  | failed differs run => exact .failed differs run

/-- **Every file does what the dry run says** when its turn comes. -/
theorem foretold_turn {contents : Option (Dict String)} {root : Path} {ps : List Patch} {d : Disk}
    (hseparate : Separate d root (ps.map Patch.file)) {g : FilePatches}
    (hg : g ∈ FilePatches.group ps) :
    Foretold root (Thwarted d root (ps.map Patch.file)) (diskAt ⟨true, contents, root⟩ ps d)
      (g.resolve (currentText (m := DiskM) ⟨false, contents, root⟩ g.file d).1)
      (applyFile (m := DiskM) ⟨true, contents, root⟩ g
        (diskAt ⟨true, contents, root⟩ ps d g.file)).1 := by
  let before := (FilePatches.group ps).takeWhile fun h => h.file ≠ g.file
  have hnamed : ∀ h ∈ FilePatches.group ps, h.file ∈ ps.map Patch.file := fun h hh =>
    (FilePatches.mem_group_iff.mp hh).1
  have hbefore : before.map FilePatches.file ⊆ ps.map Patch.file := by
    intro file hfile
    obtain ⟨h, hh, rfl⟩ := List.mem_map.mp hfile
    exact hnamed h ((List.takeWhile_sublist _).subset hh)
  have hnew : g.file ∉ before.map FilePatches.file := by
    intro hfile
    obtain ⟨h, hh, heq⟩ := List.mem_map.mp hfile
    have hne := List.mem_takeWhile_imp (p := fun h : FilePatches => decide (h.file ≠ g.file)) hh
    exact of_decide_eq_true hne heq
  have haltered : Altered root (before.map FilePatches.file) d
      (diskAt ⟨true, contents, root⟩ ps d g.file) :=
    (Altered.refl root _ d).mapM ⟨true, contents, root⟩ rfl (List.Subset.refl _)
  have happart := hseparate.subset (List.cons_subset.mpr ⟨hnamed g hg, hbefore⟩)
  have hforetold := FilePatches.foretold_applyFile haltered happart hnew
    (FilePatches.applied_applyFile ⟨true, contents, root⟩ g _)
  exact hforetold.mono fun file h => h.mono hbefore

/-! ### The result -/

/-- Lists that agree element by element. -/
theorem exists_mem_of_forall₂ {α β : Type} {R : α → β → Prop} {l : List α} {k : List β}
    (h : List.Forall₂ R l k) {a : α} (ha : a ∈ l) : ∃ b ∈ k, R a b := by
  induction h with
  | nil => cases ha
  | @cons x y xs ys hxy _ ih =>
    rcases List.mem_cons.mp ha with rfl | ha
    · exact ⟨y, List.mem_cons_self, hxy⟩
    · obtain ⟨b, hb, hR⟩ := ih ha
      exact ⟨b, List.mem_cons_of_mem _ hb, hR⟩

namespace ApplyResult

/-- A result of a dry run foretells the result of a run that writes. -/
structure Foretells (r r' : ApplyResult) (root : Path) (thwarted : String → Prop)
    (turn : String → Disk) : Prop where
  /-- A file that the patches were applied to was foretold with its texts and its imports. -/
  files : ∀ c' ∈ r'.files, ∃ c ∈ r.files,
    c'.file = c.file ∧ c'.old = c.old ∧ c'.new = c.new ∧ c'.imports = c.imports
  /-- A conflict that was foretold occurs, with the same ranges, and with the same error unless the
  file cannot be reached. -/
  conflicts : ∀ k ∈ r.conflicts, ∃ k' ∈ r'.conflicts,
    k'.file = k.file ∧ k'.ranges = k.ranges ∧
      (k'.error = k.error ∨
        thwarted k.file ∧ ∃ e e', e.EndsWay ∧ e'.EndsWay ∧
          k = unreadable k.file e ∧ k' = unreadable k.file e')
  /-- Any other conflict is that of a file which was foretold to change, and could not be written
  to the disk of its turn. -/
  others : ∀ k' ∈ r'.conflicts, (∃ k ∈ r.conflicts, k.file = k'.file) ∨
    ∃ c ∈ r.files, c.file = k'.file ∧ c.new ≠ c.old ∧ ∃ (e : Failure) (d' : Disk),
      (writeAtomic (m := DiskM) (root.join c.file) c.new).run (turn c.file) = (.error e, d') ∧
        k' = ⟨c.file, [], some ("Failed to write file: " ++ e.message)⟩

/-- Outcomes that were foretold make a result that was. -/
theorem foretells_ofOutcomes {root : Path} {thwarted : String → Prop} {turn : String → Disk}
    {os os' : List (Except Conflict FileChange)}
    (h : List.Forall₂ (Foretold root thwarted turn) os os') :
    (ofOutcomes os).Foretells (ofOutcomes os') root thwarted turn := by
  have hback : List.Forall₂ (flip (Foretold root thwarted turn)) os' os := List.Forall₂.flip h
  refine ⟨fun c' hc' => ?_, fun k hk => ?_, fun k' hk' => ?_⟩
  · obtain ⟨o, ho, hforetold⟩ := exists_mem_of_forall₂ hback (mem_files_ofOutcomes.mp hc')
    cases hforetold with
    | change c => exact ⟨c, mem_files_ofOutcomes.mpr ho, rfl, rfl, rfl, rfl⟩
  · obtain ⟨o', ho', hforetold⟩ := exists_mem_of_forall₂ h (mem_conflicts_ofOutcomes.mp hk)
    cases hforetold with
    | conflict => exact ⟨k, mem_conflicts_ofOutcomes.mpr ho', rfl, rfl, .inl rfl⟩
    | @thwarted _ e e' why foretold found =>
      exact ⟨_, mem_conflicts_ofOutcomes.mpr ho', rfl, rfl,
        .inr ⟨why, e, e', foretold, found, rfl, rfl⟩⟩
  · obtain ⟨o, ho, hforetold⟩ := exists_mem_of_forall₂ hback (mem_conflicts_ofOutcomes.mp hk')
    cases hforetold with
    | conflict => exact .inl ⟨k', mem_conflicts_ofOutcomes.mpr ho, rfl⟩
    | thwarted => exact .inl ⟨_, mem_conflicts_ofOutcomes.mpr ho, rfl⟩
    | @failed c e d' differs run =>
      exact .inr ⟨c, mem_files_ofOutcomes.mpr ho, rfl, differs, e, d', run, rfl⟩

end ApplyResult

/-- **A dry run foretells a run that writes.** Both fail for the same edit, or both succeed, and
then what the one says is what the other does, but for files that cannot be written and for the
reason why a file cannot be reached whose way ends at another one. The dry run leaves the disk
alone. -/
theorem dry_run_foretells (d : Disk) (ps : List Patch) (contents : Option (Dict String))
    (root : Path) (hseparate : Separate d root (ps.map Patch.file)) :
    (∃ file start stop,
      (apply (m := DiskM) ps ⟨false, contents, root⟩).run d =
        (.error (.invalidEditRange file start stop), d) ∧
      (apply (m := DiskM) ps ⟨true, contents, root⟩).run d =
        (.error (.invalidEditRange file start stop), d)) ∨
    ∃ r r' d', (apply (m := DiskM) ps ⟨false, contents, root⟩).run d = (.ok r, d) ∧
      (apply (m := DiskM) ps ⟨true, contents, root⟩).run d = (.ok r', d') ∧
      r.Foretells r' root (Thwarted d root (ps.map Patch.file))
        (diskAt ⟨true, contents, root⟩ ps d) := by
  cases hback : backwardEdit? (FilePatches.group ps) with
  | some found =>
    obtain ⟨file, e⟩ := found
    exact .inl ⟨file, e.start, e.stop, apply_run_of_backward hback d,
      apply_run_of_backward hback d⟩
  | none =>
    right
    have hdry := @apply_run_of_not_write ps ⟨false, contents, root⟩ rfl hback d
    have hwrite := apply_run hback ⟨true, contents, root⟩ d
    refine ⟨_, _, _, hdry, hwrite, ApplyResult.foretells_ofOutcomes ?_⟩
    rw [mapM_group_eq, List.forall₂_map_left_iff, List.forall₂_map_right_iff, List.forall₂_same]
    exact fun g hg => foretold_turn hseparate hg

/-- A file that is written, and one that cannot be because a directory stands in its place. -/
theorem dry_run_foretells_failure :
    let d : Disk := ⟨[], [(["a"], .file (.text "x") 0), (["b"], .dir)], 1, [], none⟩
    let ps : List Patch := [⟨"a", [⟨0, 1, "z"⟩], [], ∅⟩, ⟨"b", [.insert 0 "z"], [], ∅⟩]
    let contents : Option (Dict String) := some (.ofList [("b", "y")])
    Separate d ⟨"."⟩ (ps.map Patch.file) ∧
      ∃ r r' d', (apply (m := DiskM) ps ⟨false, contents, ⟨"."⟩⟩).run d = (.ok r, d) ∧
        (apply (m := DiskM) ps ⟨true, contents, ⟨"."⟩⟩).run d = (.ok r', d') ∧
        r.Foretells r' ⟨"."⟩ (Thwarted d ⟨"."⟩ ["a", "b"])
          (diskAt ⟨true, contents, ⟨"."⟩⟩ ps d) := by
  intro d ps contents
  have hseparate : Separate d ⟨"."⟩ (ps.map Patch.file) := ⟨by decide +kernel, by decide +kernel⟩
  have hsucceeds : ((apply (m := DiskM) ps ⟨false, contents, ⟨"."⟩⟩).run d).1.toBool = true := by
    decide +kernel
  refine ⟨hseparate, (dry_run_foretells d ps contents ⟨"."⟩ hseparate).resolve_left ?_⟩
  rintro ⟨file, start, stop, hfails, -⟩
  rw [hfails] at hsucceeds
  cases hsucceeds

/-- A file is put where the way to another one ends, and the reason why that one cannot be read is
another than foretold. -/
theorem obstacle_changes_reason :
    let d : Disk := .blank [] 0
    let ps : List Patch := [⟨"x", [⟨0, 1, "z"⟩], [], ∅⟩, ⟨"x/y", [⟨0, 1, "z"⟩], [], ∅⟩]
    let contents : Option (Dict String) := some (.ofList [("x", "a")])
    Separate d ⟨"."⟩ (ps.map Patch.file) ∧
      ∃ r r' d', (apply (m := DiskM) ps ⟨false, contents, ⟨"."⟩⟩).run d = (.ok r, d) ∧
        (apply (m := DiskM) ps ⟨true, contents, ⟨"."⟩⟩).run d = (.ok r', d') ∧
        ∃ k ∈ r.conflicts, ¬ ∃ k' ∈ r'.conflicts,
          k'.file = k.file ∧ k'.ranges = k.ranges ∧ k'.error = k.error := by
  intro d ps contents
  let r : ApplyResult := ⟨[⟨"x", "a", "z", false, []⟩], [unreadable "x/y" .notFound]⟩
  let r' : ApplyResult := ⟨[⟨"x", "a", "z", true, []⟩], [unreadable "x/y" .notDirectory]⟩
  let d' : Disk := ⟨[], [(["x"], .file (.text "z") 0)], 0, [["x"], ["x.voko-tmp"]], none⟩
  have hseparate : Separate d ⟨"."⟩ (ps.map Patch.file) := ⟨by decide +kernel, by decide +kernel⟩
  have hdry : (apply (m := DiskM) ps ⟨false, contents, ⟨"."⟩⟩).run d = (.ok r, d) :=
    Prod.ext (by decide +kernel) (by decide +kernel)
  have hwrite : (apply (m := DiskM) ps ⟨true, contents, ⟨"."⟩⟩).run d = (.ok r', d') :=
    Prod.ext (by decide +kernel) (by decide +kernel)
  exact ⟨hseparate, r, r', d', hdry, hwrite, unreadable "x/y" .notFound, by decide, by decide⟩

end KeyLedger
