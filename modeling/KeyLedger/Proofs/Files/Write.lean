import KeyLedger.Files.Write
import KeyLedger.Proofs.Files.Disk

/-!
# What a successful write leaves

A computation on a disk that may fail succeeds if and only if each of its parts does, one after the
other. For a stable write this says which of its three ways it has taken: the file held the text
already and was left alone, or there was no text, or another one, and the file was written. Either
way the file holds the text afterwards, and a later stable write of a text that is no longer
succeeds too.

## Main definitions

* `Replaceable` — what a stable write replaces
* `replaceText` — a stable write without its preparations

## Main results

* `DiskM.bind_eq_ok_iff`, `DiskM.attempt_eq_ok_iff`, `DiskM.during_eq_ok_iff` — the parts of a
  computation that succeeds
* `writeStable_eq_ok_iff` — what a stable write does
* `readText_of_writeStable` — a stable write leaves its text
* `exists_writeStable_again` — a second stable write does something if and only if the text is
  another
-/

namespace KeyLedger

/-! ### Computations with a state that may fail -/

section Stateful

variable {σ ε α β : Type}

/-- The rest of a computation runs if its first part succeeds. -/
theorem run_bind_eq (x : ExceptT ε (StateM σ) α) (f : α → ExceptT ε (StateM σ) β) (s : σ) :
    (x >>= f).run s = match x.run s with
      | (.ok a, s₁) => (f a).run s₁
      | (.error e, s₁) => (.error e, s₁) := by
  change ExceptT.bindCont f (x.run s).1 (x.run s).2 = _
  rcases x.run s with ⟨_ | _, s₁⟩ <;> rfl

/-- An operation that fails is reported with what was going on. -/
theorem run_attempt_eq (a : Activity) (x : StateM σ (Except IoError α)) (s : σ) :
    (attempt a x).run s = match x s with
      | (.ok v, s₁) => (.ok v, s₁)
      | (.error e, s₁) => (.error (.io [a] e), s₁) := by
  simp only [attempt, ExceptT.run_mk, bind, StateT.bind]
  rcases x s with ⟨_ | _, s₁⟩ <;> rfl

end Stateful

/-! ### Computations that succeed -/

namespace DiskM

variable {α β : Type} {d d' : Disk}

theorem run_bind_of_ok {ε : Type} {x : ExceptT ε DiskM α} (f : α → ExceptT ε DiskM β) {a : α}
    (h : x.run d = (.ok a, d')) : (x >>= f).run d = (f a).run d' := by
  rw [run_bind_eq, h]

theorem run_bind_of_error {ε : Type} {x : ExceptT ε DiskM α} (f : α → ExceptT ε DiskM β) {e : ε}
    (h : x.run d = (.error e, d')) : (x >>= f).run d = (.error e, d') := by
  rw [run_bind_eq, h]

theorem bind_eq_ok_iff {ε : Type} {x : ExceptT ε DiskM α} {f : α → ExceptT ε DiskM β} {b : β} :
    (x >>= f).run d = (.ok b, d') ↔
      ∃ a d₁, x.run d = (.ok a, d₁) ∧ (f a).run d₁ = (.ok b, d') := by
  constructor
  · intro h
    rcases hx : x.run d with ⟨r, d₁⟩
    cases r with
    | ok a => exact ⟨a, d₁, rfl, run_bind_of_ok f hx ▸ h⟩
    | error e =>
      rw [run_bind_of_error f hx] at h
      cases h
  · rintro ⟨a, d₁, hx, hf⟩
    rw [run_bind_of_ok f hx, hf]

/-- A part that cannot fail runs first. -/
theorem run_liftM_bind {ε : Type} (x : DiskM α) (f : α → ExceptT ε DiskM β) (d : Disk) :
    (liftM x >>= f : ExceptT ε DiskM β).run d = (f (x d).1).run (x d).2 := rfl

theorem attempt_eq_ok_iff {a : Activity} {x : DiskM (Except IoError α)} {v : α} :
    (attempt a x).run d = (.ok v, d') ↔ x d = (.ok v, d') := by
  rw [run_attempt_eq]
  rcases x d with ⟨r, d₁⟩
  cases r with
  | ok w => exact ⟨fun h => by cases h; rfl, fun h => by cases h; rfl⟩
  | error e => exact ⟨fun h => (nomatch h), fun h => (nomatch h)⟩

theorem run_attempt_of_error {a : Activity} {x : DiskM (Except IoError α)} {e : IoError}
    (h : x d = (.error e, d')) : (attempt a x).run d = (.error (.io [a] e), d') := by
  rw [run_attempt_eq, h]

theorem during_eq_ok_iff {a : Activity} {x : ExceptT Failure DiskM α} {v : α} :
    (during a x).run d = (.ok v, d') ↔ x.run d = (.ok v, d') := by
  rcases hx : x.run d with ⟨r, d₁⟩
  simp only [during, ExceptT.run_mk, bind, StateT.bind, hx]
  cases r with
  | ok v => exact Iff.rfl
  | error e =>
    refine ⟨fun h => ?_, fun h => (nomatch h)⟩
    cases e <;> cases h

theorem tryModify_of_ok {f : Disk → Except IoError Disk} (h : f d = .ok d') :
    tryModify f d = (.ok (), d') := by
  rw [tryModify, h]

theorem tryModify_of_error {f : Disk → Except IoError Disk} {e : IoError} (h : f d = .error e) :
    tryModify f d = (.error e, d) := by
  rw [tryModify, h]

theorem writeText_eq_iff {p : Path} {s : String} {r : Except IoError Unit} :
    (writeText p s : DiskM (Except IoError Unit)) d = (r, d') ↔
      d.writeFile p (.text s) = (d', r) := by
  change ((d.writeFile p (.text s)).2, (d.writeFile p (.text s)).1) = _ ↔ _
  rcases d.writeFile p (.text s) with ⟨d₁, r₁⟩
  exact ⟨fun h => by cases h; rfl, fun h => by cases h; rfl⟩

theorem writeText_eq_ok_iff {p : Path} {s : String} :
    (writeText p s : DiskM (Except IoError Unit)) d = (.ok (), d') ↔
      d.write p (.text s) = .ok d' := by
  rw [writeText_eq_iff, Disk.write_eq_ok_iff]

theorem createDirs_eq_ok_iff {p : Path} {u : Unit} :
    (createDirs p : DiskM (Except IoError Unit)) d = (.ok u, d') ↔
      d.createDirs p = (d', .ok ()) := by
  rcases hd : d.createDirs p with ⟨d₁, r⟩
  have hrun : (createDirs p : DiskM (Except IoError Unit)) d = (r, d₁) := by
    change ((d.createDirs p).2, (d.createDirs p).1) = _
    rw [hd]
  rw [hrun]
  exact ⟨fun h => by cases h; rfl, fun h => by cases h; rfl⟩

end DiskM

/-! ### Stable writes -/

/-- What a stable write of a text replaces. -/
inductive Replaceable (text : String) : Except IoError String → Prop
  /-- The file holds another text. -/
  | other {old : String} (differs : old ≠ text) : Replaceable text (.ok old)
  /-- There is no file. -/
  | missing : Replaceable text (.error .notFound)
  /-- The file holds no text. -/
  | binary : Replaceable text (.error .notText)

/-- The last part of a stable write. -/
def overwrite (p : Path) (text : String) : ExceptT Failure DiskM Bool := do
  attempt (.write p) (writeText p text)
  return true

/-- A stable write once the directory is there and the file was read. -/
def replaceText (p : Path) (text : String) : Except IoError String → ExceptT Failure DiskM Bool
  | .ok old => if old = text then return false else overwrite p text
  | .error .notFound | .error .notText => overwrite p text
  | .error e => throw (.io [.read p] e)

section WriteStable

variable {p : Path} {text : String} {d d' : Disk} {wrote : Bool}

theorem overwrite_eq_ok_iff : (overwrite p text).run d = (.ok wrote, d') ↔
    wrote = true ∧ d.write p (.text text) = .ok d' := by
  refine DiskM.bind_eq_ok_iff.trans ?_
  constructor
  · rintro ⟨_, d₁, hwrite, hpure⟩
    cases hpure
    exact ⟨rfl, DiskM.writeText_eq_ok_iff.mp (DiskM.attempt_eq_ok_iff.mp hwrite)⟩
  · rintro ⟨rfl, hwrite⟩
    exact ⟨(), d', DiskM.attempt_eq_ok_iff.mpr (DiskM.writeText_eq_ok_iff.mpr hwrite), rfl⟩

theorem replaceText_of_replaceable {r : Except IoError String} (h : Replaceable text r) :
    replaceText p text r = overwrite p text := by
  cases h with
  | other differs => simp only [replaceText, if_neg differs]
  | missing => rfl
  | binary => rfl

theorem replaceText_eq_ok_iff {r : Except IoError String} :
    (replaceText p text r).run d = (.ok wrote, d') ↔
      r = .ok text ∧ wrote = false ∧ d' = d ∨
        Replaceable text r ∧ wrote = true ∧ d.write p (.text text) = .ok d' := by
  by_cases hr : Replaceable text r
  · have hne : r ≠ .ok text := by
      rintro rfl
      cases hr with
      | other differs => exact differs rfl
    simp only [replaceText_of_replaceable hr, overwrite_eq_ok_iff, hr, hne, false_and, true_and,
      false_or]
  · simp only [hr, false_and, or_false]
    cases r with
    | ok old =>
      obtain rfl : old = text := Decidable.byContradiction fun differs => hr (.other differs)
      simp only [replaceText, if_true, true_and]
      exact ⟨fun h => by cases h; exact ⟨rfl, rfl⟩, fun ⟨hwrote, hd⟩ => by rw [hwrote, hd]; rfl⟩
    | error e =>
      refine iff_of_false (fun h => ?_) (by simp)
      cases e with
      | notFound => exact hr .missing
      | notText => exact hr .binary
      | alreadyExists => cases h
      | notDirectory => cases h
      | isDirectory => cases h
      | busy => cases h
      | noSpace => cases h
      | other message => cases h

/-- **What a stable write does**: it makes the directory, and then it leaves a file alone that holds
the text, or writes a file that can be replaced. -/
theorem writeStable_eq_ok_iff : (writeStable (m := DiskM) p text).run d = (.ok wrote, d') ↔
    ∃ d₁, d.makeParent p = (d₁, .ok ()) ∧
      (d₁.readText p = .ok text ∧ wrote = false ∧ d' = d₁ ∨
        Replaceable text (d₁.readText p) ∧ wrote = true ∧ d₁.write p (.text text) = .ok d') := by
  simp only [← replaceText_eq_ok_iff]
  unfold writeStable
  extract_lets last store
  have hstore : ∀ d, (store ()).run d = (replaceText p text (d.readText p)).run d := by
    intro d
    change (match d.readText p with
      | .ok old => if old = text then pure false else last ()
      | .error .notFound | .error .notText => last ()
      | .error e => throw (.io [.read p] e) : ExceptT Failure DiskM Bool).run d = _
    cases d.readText p with
    | ok old => rfl
    | error e => cases e <;> rfl
  simp only [← hstore]
  cases hp : p.parent? with
  | none => simp [Disk.makeParent, hp]
  | some parent =>
    by_cases hne : parent.text ≠ ""
    · simp only [Disk.makeParent, hp, if_pos hne]
      refine DiskM.bind_eq_ok_iff.trans ?_
      simp only [DiskM.attempt_eq_ok_iff, DiskM.createDirs_eq_ok_iff]
      refine ⟨fun h => ?_, fun h => ⟨(), h⟩⟩
      obtain ⟨_, h⟩ := h
      exact h
    · simp [Disk.makeParent, hp, if_neg hne]

/-- **A stable write that succeeds leaves its text.** -/
theorem readText_of_writeStable (h : (writeStable (m := DiskM) p text).run d = (.ok wrote, d')) :
    d'.readText p = .ok text := by
  obtain ⟨d₁, -, ⟨hr, -, rfl⟩ | ⟨-, -, hwrite⟩⟩ := writeStable_eq_ok_iff.mp h
  · exact hr
  · exact Disk.readText_of_write hwrite

/-- **A second stable write** of a text that is no longer succeeds, and does something if and only
if the text is another. -/
theorem exists_writeStable_again
    (h : (writeStable (m := DiskM) p text).run d = (.ok wrote, d')) {next : String}
    (hle : next.utf8ByteSize ≤ text.utf8ByteSize) :
    ∃ d₂, (writeStable (m := DiskM) p next).run d' = (.ok (decide (text ≠ next)), d₂) ∧
      (text = next → d₂ = d') := by
  have hread := readText_of_writeStable h
  have hparent : d'.makeParent p = (d', .ok ()) := by
    obtain ⟨d₁, hmake, hcases⟩ := writeStable_eq_ok_iff.mp h
    refine (Disk.makeParent_eq_ok hmake).2 d' ?_
    rcases hcases with ⟨-, -, rfl⟩ | ⟨-, -, hwrite⟩
    · exact .refl d'
    · exact Disk.retains_write hwrite
  by_cases hnext : text = next
  · subst hnext
    exact ⟨d', writeStable_eq_ok_iff.mpr ⟨d', hparent, .inl ⟨hread, by simp, rfl⟩⟩, fun _ => rfl⟩
  · rw [← Contents.length_bytes_text] at hle
    obtain ⟨d₂, hwrite⟩ := Disk.exists_write_of_readText hread hle
    refine ⟨d₂, writeStable_eq_ok_iff.mpr ⟨d', hparent, .inr ⟨?_, by simp [hnext], hwrite⟩⟩,
      fun h => absurd h hnext⟩
    rw [hread]
    exact .other hnext

end WriteStable

end KeyLedger
