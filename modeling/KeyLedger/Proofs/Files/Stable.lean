import KeyLedger.Proofs.Files.Atomic

/-!
# What a stable write can do

A stable write that succeeds changes one file, or none: the file that its path leads to in the end.
All it does besides is to make directories where nothing was, so that the paths that led somewhere
still lead there, and every other file keeps its bytes and its time. Whether it has written is told
by its result, and it has written if and only if the file did not hold the text.

## Main definitions

* `Disk.file?` — the file at a place
* `Disk.fileAt?` — the file that a path leads to
* `Disk.StableWrite` — what a stable write can do

## Main results

* `Disk.readText_eq_ok_iff` — which texts can be read
* `Disk.stableWrite` — what a stable write does
* `Disk.writeStable_of_readText` — a text that is there is not written again
-/

namespace KeyLedger

namespace Disk

variable {d d' d₁ : Disk} {p : Path} {q : Place}

/-! ### Files -/

/-- The contents of the file at a place, and when it was last written; nothing if there is no
file. -/
def file? (d : Disk) (q : Place) : Option (Contents × Int) :=
  match d.node? q with
  | some (.file contents modified) => some (contents, modified)
  | _ => none

theorem file?_eq_some_iff {contents : Contents} {modified : Int} :
    d.file? q = some (contents, modified) ↔ d.node? q = some (.file contents modified) := by
  rw [file?]
  cases d.node? q with
  | none => simp
  | some n => cases n <;> simp

theorem file?_eq_of_node? (h : d'.node? q = d.node? q) : d'.file? q = d.file? q := by
  rw [file?, file?, h]

/-- The file that a path leads to. -/
def fileAt? (d : Disk) (p : Path) : Option (Contents × Int) :=
  (d.place? p).bind d.file?

theorem Retains.place? (h : Retains d d') (hp : d.place? p = some q) : d'.place? p = some q := by
  obtain ⟨directory, hlocate⟩ := place?_eq_some_iff.mp hp
  exact place?_eq_some_iff.mpr ⟨directory, h.locate hlocate⟩

/-- A text is read from a file that holds it. -/
theorem readText_eq_ok_iff {text : String} : d.readText p = .ok text ↔
    ∃ q modified, d.locate p = .ok ⟨q, false⟩ ∧ d.file? q = some (.text text, modified) := by
  simp only [readText, file?_eq_some_iff]
  cases hp : d.locate p with
  | error e => simp [bind, Except.bind]
  | ok t =>
    obtain ⟨q, directory⟩ := t
    simp only [bind, Except.bind, Except.ok.injEq, Target.mk.injEq]
    cases hnode : d.node? q with
    | none => simp [hnode]
    | some n =>
      cases n with
      | dir => simp [hnode]
      | file contents modified => cases directory <;> cases contents <;> simp [hnode]

/-! ### Making directories -/

/-- Directories are made where nothing was, so no file comes or goes. -/
theorem file?_put_dir (hq : d.node? q = none) (x : Place) :
    (d.put q .dir).file? x = d.file? x := by
  by_cases hx : x = q
  · subst hx
    rw [file?, file?, node?_put_dir, hq]
  · exact file?_eq_of_node? (node?_put_of_ne hx _)

theorem file?_createFrom (made : Bool) (here : Place) (ss : List String) (d : Disk) (x : Place) :
    (d.createFrom made here ss).1.file? x = d.file? x := by
  induction ss generalizing d made here with
  | nil => rfl
  | cons s ss ih =>
    rw [createFrom]
    by_cases hidle : s = "" ∨ s = "."
    · rw [if_pos hidle]
      exact ih made here d
    · rw [if_neg hidle]
      by_cases hdots : s = ".."
      · rw [if_pos hdots]
        exact ih made here.dropLast d
      · rw [if_neg hdots]
        cases hnode : d.node? (here ++ [s]) with
        | none => exact (ih true (here ++ [s]) _).trans (file?_put_dir hnode x)
        | some n =>
          cases n with
          | dir => exact ih made (here ++ [s]) d
          | file contents modified => rfl

theorem file?_makeParent (p : Path) (d : Disk) (x : Place) :
    (d.makeParent p).1.file? x = d.file? x := by
  rcases makeParent_cases p with hall | ⟨parent, hall⟩
  · rw [hall]
  · rw [hall]
    exact file?_createFrom false _ _ d x

/-! ### The whole write -/

/-- What a stable write of a text can do; `q` is the place that its path leads to in the end. -/
structure StableWrite (p : Path) (text : String) (d : Disk) (wrote : Bool) (d' : Disk)
    (q : Place) : Prop where
  /-- Paths lead where they led. -/
  retains : Retains d d'
  /-- The path leads to a file. -/
  target : d'.locate p = .ok ⟨q, false⟩
  /-- The file holds the text. -/
  holds : ∃ modified, d'.file? q = some (.text text, modified)
  /-- No other file changes. -/
  elsewhere : ∀ x, x ≠ q → d'.file? x = d.file? x
  /-- A file that is left alone keeps its time. -/
  kept : wrote = false → d'.file? q = d.file? q
  /-- A file that is written did not hold the text. -/
  replaced : wrote = true → ∀ modified, d.file? q ≠ some (.text text, modified)

/-- A file that can be replaced does not hold the text. -/
theorem file?_ne_of_replaceable {text : String} (hp : d.locate p = .ok ⟨q, false⟩)
    (h : Replaceable text (d.readText p)) (modified : Int) :
    d.file? q ≠ some (.text text, modified) := by
  intro hfile
  rw [readText_eq_ok_iff.mpr ⟨q, modified, hp, hfile⟩] at h
  cases h with
  | other differs => exact differs rfl

/-- **What a stable write does.** -/
theorem stableWrite {text : String} {wrote : Bool}
    (h : (writeStable (m := DiskM) p text).run d = (.ok wrote, d')) :
    ∃ q, StableWrite p text d wrote d' q := by
  obtain ⟨d₁, hmake, hcases⟩ := writeStable_eq_ok_iff.mp h
  have hretains : Retains d d₁ := (makeParent_eq_ok hmake).1
  have hfile : ∀ x, d₁.file? x = d.file? x := by
    intro x
    have hparent := file?_makeParent p d x
    rwa [hmake] at hparent
  rcases hcases with ⟨hread, rfl, rfl⟩ | ⟨hreplace, rfl, hwrite⟩
  · obtain ⟨q, modified, hp, hholds⟩ := readText_eq_ok_iff.mp hread
    exact ⟨q, hretains, hp, ⟨modified, hholds⟩, fun x _ => hfile x, fun _ => hfile q, by simp⟩
  · obtain ⟨q, hp, notDir, rfl⟩ := write_eq_ok hwrite
    have hsame := sameDirs_fill notDir (.text text)
    refine ⟨q, hretains.trans hsame.retains, hsame.locate_eq_ok_iff.mpr hp,
      ⟨_, file?_eq_some_iff.mpr (node?_fill_self notDir _)⟩, fun x hx => ?_, by simp,
      fun _ modified => ?_⟩
    · exact (file?_eq_of_node? (node?_fill_of_ne hx _)).trans (hfile x)
    · rw [← hfile]
      exact file?_ne_of_replaceable hp hreplace modified

theorem StableWrite.place? {text : String} {wrote : Bool} (h : StableWrite p text d wrote d' q) :
    d'.place? p = some q :=
  place?_eq_some_iff.mpr ⟨false, h.target⟩

/-- The text is read afterwards. -/
theorem StableWrite.readText {text : String} {wrote : Bool} (h : StableWrite p text d wrote d' q) :
    d'.readText p = .ok text := by
  obtain ⟨modified, hholds⟩ := h.holds
  exact readText_eq_ok_iff.mpr ⟨q, modified, h.target, hholds⟩

/-! ### A text that is there -/

/-- Directories that one can walk through need not be made. -/
theorem createFrom_of_enterAll {made : Bool} {here there : Place} {ss : List String}
    (h : (ss.filter (· ≠ "")).foldlM d.enter here = .ok there) :
    d.createFrom made here ss = (d, .ok ()) := by
  induction ss generalizing here with
  | nil => rfl
  | cons s ss ih =>
    rw [createFrom]
    by_cases hempty : s = ""
    · rw [if_pos (.inl hempty)]
      exact ih (by simpa [hempty] using h)
    · rw [List.filter_cons_of_pos (by simpa using hempty), List.foldlM_cons, enter] at h
      by_cases hdot : s = "."
      · rw [if_pos (.inr hdot)]
        rw [if_pos hdot] at h
        exact ih h
      · rw [if_neg (not_or.mpr ⟨hempty, hdot⟩)]
        rw [if_neg hdot] at h
        by_cases hdots : s = ".."
        · rw [if_pos hdots] at h ⊢
          exact ih h
        · rw [if_neg hdots] at h ⊢
          cases hnode : d.node? (here ++ [s]) with
          | none => rw [hnode] at h; cases h
          | some n =>
            cases n with
            | file contents modified => rw [hnode] at h; cases h
            | dir =>
              rw [hnode] at h
              exact ih h

/-- The directory of a file that is there need not be made. -/
theorem makeParent_of_file {directory : Bool} (hp : d.locate p = .ok ⟨q, directory⟩)
    (hq : d.node? q ≠ some .dir) : d.makeParent p = (d, .ok ()) := by
  obtain ⟨here, last, -, hlast, hdot, -, hfold⟩ := locate_eq_ok_of_not_dir hp hq
  obtain ⟨parent, dirs, rest, hparent, hnames, hsegments⟩ :=
    Path.exists_segments_parent hlast hdot
  by_cases htext : parent.text ≠ ""
  · obtain ⟨habsolute, hdirs⟩ := hsegments htext
    have horigin : d.origin parent = d.origin p := by rw [origin, origin, habsolute]
    simp only [makeParent, hparent, if_pos htext, createDirs]
    rw [hnames, List.filter_append, List.foldlM_append, ← hdirs, ← horigin] at hfold
    cases hwalk : (parent.segments.filter (· ≠ "")).foldlM d.enter (d.origin parent) with
    | error e => rw [hwalk] at hfold; cases hfold
    | ok there => exact createFrom_of_enterAll hwalk
  · simp only [makeParent, hparent, if_neg htext]

/-- **A stable write of a text that is there does nothing at all.** -/
theorem writeStable_of_readText {text : String} (h : d.readText p = .ok text) :
    (writeStable (m := DiskM) p text).run d = (.ok false, d) := by
  obtain ⟨q, modified, hp, hfile⟩ := readText_eq_ok_iff.mp h
  have hnode : d.node? q ≠ some .dir := by
    rw [file?_eq_some_iff.mp hfile]
    exact fun hdir => nomatch hdir
  exact writeStable_eq_ok_iff.mpr ⟨d, makeParent_of_file hp hnode, .inl ⟨h, rfl, rfl⟩⟩

end Disk

end KeyLedger
