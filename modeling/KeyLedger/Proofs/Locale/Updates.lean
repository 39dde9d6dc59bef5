import KeyLedger.Locale.Merge
import KeyLedger.Proofs.Files.Stable
import KeyLedger.Proofs.Locale.Nested
import Mathlib.Data.List.Count
import Mathlib.Logic.Function.Iterate

/-!
# Walks over locale files

A merge visits one locale file after the other: it reads a file, changes its data and stores the
data again. One visit is a stable write, so that it changes no file but its own, and that one only
if its text changes. A whole walk therefore does to a file what the visits of that file do, one
after the other, provided that no other visit leads to the same place.

A visit may come several times in a walk, since nothing keeps a list of locales from naming one
twice.

## Main definitions

* `Disk.localeData` — the data of a locale file
* `Disk.Stores` — a file holds the persisted form of data
* `Disk.Settled` — a file that a change leaves as it is
* `Walk` — what a walk over locale files can do

## Main results

* `stableWrite_of_updateLocale` — what one visit does
* `Walk.of_mapM` — a computation that visits files walks over them
* `Walk.readText` — the text of a file after a walk
* `Walk.exists_last_visit` — the text of a file that is visited
* `Walk.untouched_iff` — when a walk leaves a file alone
-/

namespace KeyLedger

namespace Disk

variable {d d' d₁ : Disk} {p : Path} {q : Place} {text : String}

/-- The data of a locale file, as it is read from a disk. -/
def localeData (d : Disk) (p : Path) : LocaleData :=
  match d.readText p with
  | .ok text => .ofText text
  | .error _ => ∅

theorem localeData_of_readText (h : d.readText p = .ok text) :
    d.localeData p = .ofText text := by
  rw [localeData, h]

theorem canonical_localeData (d : Disk) (p : Path) :
    (Json.ofDict (d.localeData p)).Canonical fun _ => True := by
  rw [localeData]
  cases d.readText p with
  | ok text => exact LocaleData.canonical_ofText text
  | error e => exact Json.canonical_obj_nil

/-- A file holds the persisted form of data that has the keys of its objects in ascending order, and
so no key twice. -/
def Stores (d : Disk) (p : Path) (data : LocaleData) : Prop :=
  d.readText p = .ok data.text ∧ (Json.ofDict data).Canonical fun _ => True

/-- A file that holds a text which a change of its data leaves as it is. -/
def Settled (d : Disk) (p : Path) (f : LocaleData → LocaleData) : Prop :=
  ∃ text, d.readText p = .ok text ∧ (f (.ofText text)).text = text

/-- What can be read through a path depends on the file that it leads to. -/
theorem Retains.readText_eq_ok_iff (h : Retains d d₁) (hfile : d₁.fileAt? p = d.fileAt? p) :
    d₁.readText p = .ok text ↔ d.readText p = .ok text := by
  simp only [Disk.readText_eq_ok_iff]
  constructor
  · rintro ⟨q, modified, hp, hq⟩
    have hold : d.fileAt? p = some (.text text, modified) := by
      rw [← hfile, fileAt?, place?_eq_some_iff.mpr ⟨_, hp⟩]
      exact hq
    obtain ⟨r, hr, hholds⟩ := Option.bind_eq_some_iff.mp hold
    obtain ⟨directory, hlocate⟩ := place?_eq_some_iff.mp hr
    cases hp.symm.trans (h.locate hlocate)
    exact ⟨q, modified, hlocate, hholds⟩
  · rintro ⟨q, modified, hp, hq⟩
    have hplace : d.place? p = some q := place?_eq_some_iff.mpr ⟨_, hp⟩
    refine ⟨q, modified, h.locate hp, ?_⟩
    rw [fileAt?, fileAt?, h.place? hplace, hplace] at hfile
    exact hfile.trans hq

theorem Retains.settled_iff (h : Retains d d₁) (hfile : d₁.fileAt? p = d.fileAt? p)
    {f : LocaleData → LocaleData} : d₁.Settled p f ↔ d.Settled p f := by
  simp only [Settled, h.readText_eq_ok_iff hfile]

/-- A path does not lead to a file that was there before and could not be reached. -/
def Reaches (d d' : Disk) (p : Path) : Prop :=
  d.fileAt? p = (d'.place? p).bind d.file?

theorem Reaches.of_place? (h : Retains d d') (hp : d.place? p = some q) : Reaches d d' p := by
  rw [Reaches, fileAt?, hp, h.place? hp]

/-- A change elsewhere. -/
theorem Reaches.of_elsewhere (h : Reaches d d' p) (hd : Retains d d₁) (hd₁ : Retains d₁ d')
    (helse : ∀ x, d'.place? p = some x → d₁.file? x = d.file? x) :
    Reaches d₁ d' p ∧ d₁.fileAt? p = d.fileAt? p := by
  have hbind : (d'.place? p).bind d₁.file? = (d'.place? p).bind d.file? :=
    Option.bind_congr fun x hx => helse x hx
  have hreach : Reaches d₁ d' p := by
    cases hp : d₁.place? p with
    | some q => exact .of_place? hd₁ hp
    | none =>
      have hnone : d.place? p = none := by
        cases hq : d.place? p with
        | none => rfl
        | some q => cases hp.symm.trans (hd.place? hq)
      rw [Reaches, hbind, ← h, fileAt?, fileAt?, hp, hnone]
      rfl
  exact ⟨hreach, hreach.trans (hbind.trans h.symm)⟩

/-- A stable write through a path that leads elsewhere. -/
theorem StableWrite.of_apart {p' : Path} {wrote : Bool} (h : StableWrite p' text d wrote d₁ q)
    (hd₁ : Retains d₁ d') (hne : d'.place? p' ≠ d'.place? p) (hreach : Reaches d d' p) :
    Reaches d₁ d' p ∧ d₁.fileAt? p = d.fileAt? p := by
  have hplace : d'.place? p' = some q := hd₁.place? h.place?
  refine hreach.of_elsewhere h.retains hd₁ fun x hx => h.elsewhere x ?_
  rintro rfl
  exact hne (hplace.trans hx.symm)

end Disk

/-! ### One visit -/

section Visit

variable {d d' : Disk} {p : Path} {f : LocaleData → LocaleData} {touched : List Path}

theorem run_readLocale (p : Path) (d : Disk) :
    (readLocale p : DiskM LocaleData) d = (d.localeData p, d) := by
  change (match d.readText p with
    | .ok text => pure (.ofText text)
    | .error _ => pure ∅ : DiskM LocaleData) d = _
  rw [Disk.localeData]
  cases d.readText p <;> rfl

/-- What a visit does. -/
theorem stableWrite_of_updateLocale
    (h : (updateLocale (m := DiskM) p f).run d = (.ok touched, d')) :
    ∃ wrote q, d.StableWrite p (f (d.localeData p)).text wrote d' q ∧
      touched = if wrote then [p] else [] := by
  rw [updateLocale, DiskM.run_liftM_bind, run_readLocale] at h
  obtain ⟨wrote, d₁, hwrite, hpure⟩ := DiskM.bind_eq_ok_iff.mp h
  obtain ⟨q, hstable⟩ := Disk.stableWrite hwrite
  cases hpure
  exact ⟨wrote, q, hstable, rfl⟩

/-- **A visit leaves a file alone if its change does.** -/
theorem not_wrote_iff {wrote : Bool} {q : Place} {d₁ : Disk}
    (h : d.StableWrite p (f (d.localeData p)).text wrote d₁ q) (hd₁ : d₁.Retains d')
    (hreach : d.Reaches d' p) :
    (wrote = false ↔ d.Settled p f) ∧ (wrote = false → d₁.fileAt? p = d.fileAt? p) := by
  have hkept : wrote = false → d₁.fileAt? p = d.fileAt? p := by
    intro hwrote
    rw [hreach, hd₁.place? h.place?, Disk.fileAt?, h.place?]
    exact h.kept hwrote
  refine ⟨⟨fun hwrote => ?_, ?_⟩, hkept⟩
  · have hread := (h.retains.readText_eq_ok_iff (hkept hwrote)).mp h.readText
    refine ⟨_, hread, ?_⟩
    rw [← Disk.localeData_of_readText hread]
  · rintro ⟨text, hread, hfix⟩
    obtain ⟨q', modified, hlocate, hholds⟩ := Disk.readText_eq_ok_iff.mp hread
    cases h.target.symm.trans (h.retains.locate hlocate)
    rw [Disk.localeData_of_readText hread, hfix] at h
    exact eq_false_of_ne_true fun hwrote => h.replaced hwrote modified hholds

end Visit

/-! ### Walks -/

section Walk

variable {ω : Type} {file : ω → Path} {change : ω → LocaleData → LocaleData}

/-- What a walk over locale files does: `file` says where the file of a visit is, and `change` what
becomes of its data. -/
inductive Walk (file : ω → Path) (change : ω → LocaleData → LocaleData) :
    List ω → Disk → List Path → Disk → Prop
  /-- There is nothing to visit. -/
  | nil (d : Disk) : Walk file change [] d [] d
  /-- One visit and then the others. -/
  | cons {w : ω} {ws : List ω} {d d₁ d' : Disk} {wrote : Bool} {q : Place} {rest : List Path}
      (visit : d.StableWrite (file w) (change w (d.localeData (file w))).text wrote d₁ q)
      (others : Walk file change ws d₁ rest d') :
      Walk file change (w :: ws) d ((if wrote then [file w] else []) ++ rest) d'

namespace Walk

variable {ws ws' : List ω} {d d' d₁ : Disk} {touched touched' : List Path}

theorem append (h : Walk file change ws d touched d₁) (h' : Walk file change ws' d₁ touched' d') :
    Walk file change (ws ++ ws') d (touched ++ touched') d' := by
  induction h with
  | nil => exact h'
  | cons visit _ ih =>
    rw [List.append_assoc]
    exact .cons visit (ih h')

theorem of_updateLocale {w : ω}
    (h : (updateLocale (m := DiskM) (file w) (change w)).run d = (.ok touched, d')) :
    Walk file change [w] d touched d' := by
  obtain ⟨wrote, q, hstable, rfl⟩ := stableWrite_of_updateLocale h
  rw [← List.append_nil (if wrote then [file w] else [])]
  exact .cons hstable (.nil d')

/-- A computation that walks over some files for each item of a list walks over all of them. -/
theorem of_mapM {α : Type} {g : α → ExceptT Failure DiskM (List Path)} {visits : α → List ω}
    {l : List α} (hg : ∀ a ∈ l, ∀ {d touched d'}, (g a).run d = (.ok touched, d') →
      Walk file change (visits a) d touched d') {lists : List (List Path)}
    (h : (l.mapM g).run d = (.ok lists, d')) :
    Walk file change (l.flatMap visits) d lists.flatten d' := by
  induction l generalizing d lists with
  | nil =>
    cases h
    exact .nil _
  | cons a l ih =>
    rw [List.mapM_cons] at h
    obtain ⟨touched, d₁, ha, hrest⟩ := DiskM.bind_eq_ok_iff.mp h
    obtain ⟨others, d₂, hl, hpure⟩ := DiskM.bind_eq_ok_iff.mp hrest
    cases hpure
    rw [List.flatMap_cons, List.flatten_cons]
    exact (hg a List.mem_cons_self ha).append
      (ih (fun b hb => hg b (List.mem_cons_of_mem _ hb)) hl)

theorem retains (h : Walk file change ws d touched d') : d.Retains d' := by
  induction h with
  | nil => exact .refl _
  | cons visit _ ih => exact visit.retains.trans ih

variable {w₀ : ω}

/-- No other visit of a walk leads to the place of a given one. -/
def Apart (file : ω → Path) (ws : List ω) (d' : Disk) (w₀ : ω) : Prop :=
  ∀ w ∈ ws, w ≠ w₀ → d'.place? (file w) ≠ d'.place? (file w₀)

/-- **The text of a file after a walk**: every visit of the file has changed it once. -/
theorem readText [BEq ω] [LawfulBEq ω] (h : Walk file change ws d touched d')
    (hapart : Apart file ws d' w₀) {text : String} (hread : d.readText (file w₀) = .ok text) :
    d'.readText (file w₀) =
      .ok ((fun text => (change w₀ (.ofText text)).text)^[ws.count w₀] text) := by
  induction h generalizing text with
  | nil => exact hread
  | @cons w ws d d₁ d' wrote q rest visit others ih =>
    have hapart' : Apart file ws d' w₀ := fun w hw => hapart w (List.mem_cons_of_mem _ hw)
    by_cases hw : w = w₀
    · subst hw
      have hnext := visit.readText
      rw [Disk.localeData_of_readText hread] at hnext
      rw [List.count_cons_self, Function.iterate_succ_apply]
      exact ih hapart' hnext
    · rw [List.count_cons_of_ne (by simpa using hw)]
      obtain ⟨q₀, -, hlocate, -⟩ := Disk.readText_eq_ok_iff.mp hread
      have hreach : d.Reaches d' (file w₀) := .of_place? (visit.retains.trans others.retains)
        (Disk.place?_eq_some_iff.mpr ⟨false, hlocate⟩)
      have hsame := (visit.of_apart others.retains (hapart w List.mem_cons_self hw) hreach).2
      exact ih hapart' ((visit.retains.readText_eq_ok_iff hsame).mpr hread)

/-- **The text of a file that is visited**: it is what the last visit has made of the data. -/
theorem exists_last_visit (h : Walk file change ws d touched d') (hapart : Apart file ws d' w₀)
    (hw₀ : w₀ ∈ ws) : ∃ before after touched₁ d₁, ws = before ++ w₀ :: after ∧
      Walk file change before d touched₁ d₁ ∧ d₁.Retains d' ∧
      d'.readText (file w₀) = .ok (change w₀ (d₁.localeData (file w₀))).text := by
  classical
  induction h with
  | nil => cases hw₀
  | @cons w ws d d₁ d' wrote q rest visit others ih =>
    have hapart' : Apart file ws d' w₀ := fun w hw => hapart w (List.mem_cons_of_mem _ hw)
    by_cases hlater : w₀ ∈ ws
    · obtain ⟨before, after, touched₁, d₂, rfl, hwalk, hretains, hread⟩ := ih hapart' hlater
      exact ⟨w :: before, after, _, d₂, rfl, .cons visit hwalk, hretains, hread⟩
    · obtain rfl : w₀ = w := (List.mem_cons.mp hw₀).resolve_right hlater
      have hread := others.readText hapart' visit.readText
      rw [List.count_eq_zero_of_not_mem hlater] at hread
      exact ⟨[], ws, [], d, rfl, .nil d, visit.retains.trans others.retains, hread⟩

/-- **When a walk leaves a file alone**: if its change leaves the text of the file as it is, or if
it does not come to the file at all. -/
theorem untouched_iff (h : Walk file change ws d touched d') (hapart : Apart file ws d' w₀)
    (hreach : d.Reaches d' (file w₀)) :
    (d'.fileAt? (file w₀) = d.fileAt? (file w₀) ∧ file w₀ ∉ touched) ↔
      (w₀ ∈ ws → d.Settled (file w₀) (change w₀)) := by
  induction h with
  | nil => simp
  | @cons w ws d d₁ d' wrote q rest visit others ih =>
    have hrest := ih fun w hw => hapart w (List.mem_cons_of_mem _ hw)
    by_cases hw : w = w₀
    · subst hw
      obtain ⟨hwrote, hkept⟩ := not_wrote_iff visit others.retains hreach
      cases wrote with
      | true =>
        have hunsettled : ¬ d.Settled (file w) (change w) := mt hwrote.mpr (by decide)
        simp [hunsettled]
      | false =>
        have hsettled := (visit.retains.settled_iff (hkept rfl)).mpr (hwrote.mp rfl)
        have hleft := (hrest (.of_place? others.retains visit.place?)).mpr fun _ => hsettled
        rw [hkept rfl] at hleft
        exact iff_of_true hleft fun _ => hwrote.mp rfl
    · have hne : d'.place? (file w) ≠ d'.place? (file w₀) := hapart w List.mem_cons_self hw
      obtain ⟨hreach', hsame⟩ := visit.of_apart others.retains hne hreach
      have hfile : file w₀ ≠ file w := fun heq => hne (by rw [heq])
      have htouched : file w₀ ∉ (if wrote then [file w] else []) := by
        cases wrote <;> simp [hfile]
      have hother : w₀ ∈ w :: ws ↔ w₀ ∈ ws := by simp [Ne.symm hw]
      rw [List.mem_append, not_or, hother, ← hsame, ← visit.retains.settled_iff hsame,
        ← hrest hreach']
      simp [htouched]

end Walk

end Walk

end KeyLedger
