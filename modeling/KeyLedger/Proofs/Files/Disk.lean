import KeyLedger.Files.Disk

/-!
# Reading what was written

A file that was written through a path is found through the same path, with the text that was
written. The point is that writing leads nowhere else: it puts a file where there was no directory,
so the directories on the way are still there.

A write may find that there is no room for all of the text. Then it fails, but the file is there,
with a part of the text. But there is always room for as many bytes as a file has.

## Main definitions

* `Disk.Retains` — a disk that has all directories of another
* `Disk.obstacle?` — the place at which the way of a path ends for want of a directory

## Main results

* `Disk.Retains.locate` — paths lead to the same place
* `Disk.locate_eq_error` — why a path leads nowhere
* `Disk.writeFile_cases` — what writing a file does
* `Disk.readText_of_write` — a file is read as it was written
* `Disk.exists_write_of_readText` — a file that can be read can be written
-/

namespace KeyLedger

theorem Contents.length_bytes_text (s : String) :
    (Contents.text s).bytes.length = s.utf8ByteSize := by
  rw [bytes, Array.length_toList]
  exact s.size_toByteArray

namespace Disk

variable {d d' : Disk}

theorem lookup_erase_self (d : Disk) (q : Place) : (d.erase q).nodes.lookup q = none := by
  rw [List.lookup_eq_none_iff]
  intro n hn
  have hne : n.1 ≠ q := by simpa using (List.mem_filter.mp hn).2
  simpa using hne.symm

theorem lookup_erase_of_ne {p q : Place} (hpq : q ≠ p) (d : Disk) :
    (d.erase p).nodes.lookup q = d.nodes.lookup q := by
  rw [erase]
  induction d.nodes with
  | nil => rfl
  | cons n nodes ih =>
    by_cases hn : n.1 = p
    · have hq : (q == n.1) = false := by simpa [hn] using hpq
      rw [List.filter_cons, if_neg (by simpa using hn), List.lookup_cons, hq]
      exact ih
    · rw [List.filter_cons, if_pos (by simpa using hn), List.lookup_cons, List.lookup_cons]
      cases q == n.1
      · exact ih
      · rfl

theorem node?_put_self {q : Place} (hq : q.isPrefixOf d.home = false) (n : Node) :
    (d.put q n).node? q = some n := by
  have hnodes : (d.put q n).nodes.lookup q = some n := by
    rw [put, List.lookup_append, lookup_erase_self]
    simp
  have hhome : (d.put q n).home = d.home := rfl
  rw [node?, hhome, hq, hnodes]
  rfl

theorem node?_put_dir {q : Place} : (d.put q .dir).node? q = some .dir := by
  cases hq : q.isPrefixOf d.home with
  | false => exact node?_put_self hq .dir
  | true => rw [node?, if_pos (by exact hq)]

theorem node?_put_of_ne {p q : Place} (hpq : q ≠ p) (n : Node) :
    (d.put p n).node? q = d.node? q := by
  have hnodes : (d.put p n).nodes.lookup q = d.nodes.lookup q := by
    have hsingle : [(p, n)].lookup q = none := by simpa using hpq
    rw [put, List.lookup_append, lookup_erase_of_ne hpq, hsingle, Option.or_none]
  have hhome : (d.put p n).home = d.home := rfl
  rw [node?, node?, hnodes, hhome]

theorem isPrefixOf_home_of_ne_dir {q : Place} (h : d.node? q ≠ some .dir) :
    q.isPrefixOf d.home = false := by
  cases hq : q.isPrefixOf d.home with
  | false => rfl
  | true => exact absurd (by rw [node?, if_pos hq]) h

/-! ### Paths -/

/-- A disk has the working directory and all directories of another. -/
structure Retains (d d' : Disk) : Prop where
  /-- The working directory is the same. -/
  home : d'.home = d.home
  /-- The directories are still there. -/
  dirs : ∀ q, d.node? q = some .dir → d'.node? q = some .dir

theorem Retains.refl (d : Disk) : Retains d d := ⟨rfl, fun _ h => h⟩

theorem Retains.trans {a b c : Disk} (h : Retains a b) (h' : Retains b c) : Retains a c :=
  ⟨h'.home.trans h.home, fun q hq => h'.dirs q (h.dirs q hq)⟩

theorem Retains.origin (h : Retains d d') (p : Path) : d'.origin p = d.origin p := by
  rw [Disk.origin, Disk.origin, h.home]

theorem Retains.enter (h : Retains d d') {here there : Place} {s : String}
    (henter : d.enter here s = .ok there) : d'.enter here s = .ok there := by
  rw [Disk.enter] at henter ⊢
  by_cases hdot : s = "."
  · rwa [if_pos hdot] at henter ⊢
  · rw [if_neg hdot] at henter ⊢
    by_cases hdots : s = ".."
    · rwa [if_pos hdots] at henter ⊢
    · rw [if_neg hdots] at henter ⊢
      cases hnode : d.node? (here ++ [s]) with
      | none => simp [hnode] at henter
      | some n =>
        cases n with
        | file contents modified => simp [hnode] at henter
        | dir =>
          rw [hnode] at henter
          rw [h.dirs _ hnode]
          exact henter

theorem Retains.enterAll (h : Retains d d') {here there : Place} {ss : List String}
    (hall : ss.foldlM d.enter here = .ok there) : ss.foldlM d'.enter here = .ok there := by
  induction ss generalizing here with
  | nil => exact hall
  | cons s ss ih =>
    rw [List.foldlM_cons] at hall ⊢
    cases hs : d.enter here s with
    | error e => rw [hs] at hall; cases hall
    | ok next =>
      rw [hs] at hall
      rw [h.enter hs]
      exact ih hall

/-- A path leads to the same place as before. -/
theorem Retains.locate (h : Retains d d') {p : Path} {t : Target} (hp : d.locate p = .ok t) :
    d'.locate p = .ok t := by
  rw [Disk.locate] at hp ⊢
  rw [h.origin]
  by_cases htext : p.text = ""
  · rw [if_pos htext] at hp
    cases hp
  · rw [if_neg htext] at hp ⊢
    cases hlast : (p.segments.filter (· ≠ "")).getLast? with
    | none => rwa [hlast] at hp
    | some last =>
      rw [hlast] at hp
      have hretains : ∀ (ss : List String) (f : Place → Target),
          (do return f (← ss.foldlM d.enter (d.origin p)) : Except IoError Target) = .ok t →
          (do return f (← ss.foldlM d'.enter (d.origin p)) : Except IoError Target) = .ok t := by
        intro ss f hf
        cases hss : ss.foldlM d.enter (d.origin p) with
        | error e => rw [hss] at hf; cases hf
        | ok there =>
          rw [hss] at hf
          rw [h.enterAll hss]
          exact hf
      by_cases hdots : last = "." ∨ last = ".."
      · simp only [if_pos hdots] at hp ⊢
        exact hretains _ _ hp
      · simp only [if_neg hdots] at hp ⊢
        exact hretains _ _ hp

/-! ### Where a way ends -/

/-- The place at which following names ends for want of a directory. -/
def stop? (d : Disk) (here : Place) : List String → Option Place
  | [] => none
  | s :: ss =>
    match d.enter here s with
    | .ok next => d.stop? next ss
    | .error _ => some (here ++ [s])

/-- The names of a path that have to be directories. -/
def wayOf (p : Path) : List String :=
  let names := p.segments.filter (· ≠ "")
  if names.getLast? = some "." ∨ names.getLast? = some ".." then names else names.dropLast

/-- The place at which the way of a path ends for want of a directory. -/
def obstacle? (d : Disk) (p : Path) : Option Place := d.stop? (d.origin p) (wayOf p)

/-- Why a place cannot be entered that is no directory. -/
def hindrance (d : Disk) (q : Place) : IoError :=
  match d.node? q with
  | none => .notFound
  | some _ => .notDirectory

theorem enter_eq_error {here : Place} {s : String} {e : IoError} (h : d.enter here s = .error e) :
    e = d.hindrance (here ++ [s]) := by
  rw [enter] at h
  split at h
  · cases h
  · split at h
    · cases h
    · rw [hindrance]
      cases hnode : d.node? (here ++ [s]) with
      | none =>
        rw [hnode] at h
        exact (Except.error.inj h).symm
      | some n =>
        rw [hnode] at h
        cases n with
        | dir => cases h
        | file contents modified => exact (Except.error.inj h).symm

/-- Names that cannot be followed end somewhere, and what is there is the reason. -/
theorem enterAll_eq_error {here : Place} {ss : List String} {e : IoError}
    (h : ss.foldlM d.enter here = .error e) :
    ∃ q, d.stop? here ss = some q ∧ e = d.hindrance q := by
  induction ss generalizing here with
  | nil => cases h
  | cons s ss ih =>
    rw [List.foldlM_cons] at h
    rw [stop?]
    cases hs : d.enter here s with
    | ok next =>
      rw [hs] at h
      exact ih h
    | error e' =>
      rw [hs] at h
      cases h
      exact ⟨_, rfl, enter_eq_error hs⟩

/-- **A path that leads nowhere** is empty, or its way ends somewhere. -/
theorem locate_eq_error {p : Path} {e : IoError} (h : d.locate p = .error e) :
    p.text = "" ∨ ∃ q, d.obstacle? p = some q ∧ e = d.hindrance q := by
  rw [locate] at h
  by_cases htext : p.text = ""
  · exact .inl htext
  · right
    rw [if_neg htext] at h
    rw [obstacle?, wayOf]
    have hfails : ∀ (ss : List String) (f : Place → Target),
        (do return f (← ss.foldlM d.enter (d.origin p)) : Except IoError Target) = .error e →
          ∃ q, d.stop? (d.origin p) ss = some q ∧ e = d.hindrance q := by
      intro ss f hf
      cases hss : ss.foldlM d.enter (d.origin p) with
      | ok there => rw [hss] at hf; cases hf
      | error e' =>
        rw [hss] at hf
        cases hf
        exact enterAll_eq_error hss
    cases hlast : (p.segments.filter (· ≠ "")).getLast? with
    | none => rw [hlast] at h; cases h
    | some last =>
      rw [hlast] at h
      by_cases hdots : last = "." ∨ last = ".."
      · simp only [if_pos hdots] at h
        simp only [Option.some.injEq, if_pos hdots]
        exact hfails _ _ h
      · simp only [if_neg hdots] at h
        simp only [Option.some.injEq, if_neg hdots]
        exact hfails _ _ h

theorem hindrance_cases (d : Disk) (q : Place) :
    d.hindrance q = .notFound ∨ d.hindrance q = .notDirectory := by
  rw [hindrance]
  cases d.node? q with
  | none => exact .inl rfl
  | some n => exact .inr rfl

/-- The way of a path ends for want of a directory, and not for want of room. -/
theorem message_of_locate_eq_error {p : Path} {e : IoError} (h : d.locate p = .error e) :
    e.message ≠ IoError.noSpace.message := by
  rcases locate_eq_error h with htext | ⟨q, -, rfl⟩
  · rw [locate, if_pos htext] at h
    cases h
    decide
  · rcases d.hindrance_cases q with hq | hq <;> rw [hq] <;> decide

/-! ### Writing -/

theorem retains_put {q : Place} {n : Node} (hq : d.node? q ≠ some .dir) :
    Retains d (d.put q n) := by
  refine ⟨rfl, fun r hr => ?_⟩
  have hne : r ≠ q := by
    rintro rfl
    exact hq hr
  rw [node?_put_of_ne hne]
  exact hr

theorem node?_fill_self {q : Place} (hq : d.node? q ≠ some .dir) (contents : Contents) :
    (d.fill q contents).node? q = some (.file contents d.clock) :=
  node?_put_self (isPrefixOf_home_of_ne_dir hq) _

theorem node?_fill_of_ne {p q : Place} (hpq : q ≠ p) (contents : Contents) :
    (d.fill p contents).node? q = d.node? q :=
  @node?_put_of_ne d p q hpq (.file contents d.clock)

theorem retains_fill {q : Place} (hq : d.node? q ≠ some .dir) (contents : Contents) :
    Retains d (d.fill q contents) :=
  ⟨rfl, (retains_put hq).dirs⟩

/-- **What writing a file does.** It is refused, and nothing happens, or the file is there
afterwards: with all that was to be written, or with the part for which there was room. -/
theorem writeFile_cases (d : Disk) (p : Path) (contents : Contents) :
    (∃ e : IoError, e.message ≠ IoError.noSpace.message ∧
      d.writeFile p contents = (d, .error e)) ∨
    ∃ q, d.locate p = .ok ⟨q, false⟩ ∧ d.node? q ≠ some .dir ∧
      (d.cutoff? q contents = none ∧ d.writeFile p contents = (d.fill q contents, .ok ()) ∨
        ∃ n, d.cutoff? q contents = some n ∧
          d.writeFile p contents = (d.fill q (contents.take n), .error .noSpace)) := by
  rw [writeFile]
  cases hp : d.locate p with
  | error e => exact .inl ⟨e, message_of_locate_eq_error hp, rfl⟩
  | ok t =>
    obtain ⟨q, directory⟩ := t
    cases hguard : directory || d.node? q == some .dir with
    | true => exact .inl ⟨.isDirectory, by decide, by simp only [hguard, if_true]⟩
    | false =>
      obtain ⟨rfl, hnode⟩ := Bool.or_eq_false_iff.mp hguard
      refine .inr ⟨q, rfl, by simpa using hnode, ?_⟩
      simp only [hguard, Bool.false_eq_true, if_false]
      cases d.cutoff? q contents with
      | none => exact .inl ⟨rfl, rfl⟩
      | some n => exact .inr ⟨n, rfl, rfl⟩

theorem write_eq_ok_iff {p : Path} {contents : Contents} :
    d.write p contents = .ok d' ↔ d.writeFile p contents = (d', .ok ()) := by
  rw [write]
  rcases d.writeFile p contents with ⟨d₁, _ | _⟩ <;> simp

/-- What a successful write has checked and done. -/
theorem write_eq_ok {p : Path} {contents : Contents} (h : d.write p contents = .ok d') :
    ∃ q, d.locate p = .ok ⟨q, false⟩ ∧ d.node? q ≠ some .dir ∧ d' = d.fill q contents := by
  rw [write_eq_ok_iff] at h
  rcases d.writeFile_cases p contents with ⟨e, -, he⟩ | ⟨q, hp, hnode, ⟨-, hq⟩ | ⟨n, -, hq⟩⟩
  · cases he.symm.trans h
  · cases hq.symm.trans h
    exact ⟨q, hp, hnode, rfl⟩
  · cases hq.symm.trans h

/-- A write succeeds where there is no directory and enough room. -/
theorem write_of_cutoff? {p : Path} {q : Place} {contents : Contents}
    (hp : d.locate p = .ok ⟨q, false⟩) (hnode : d.node? q ≠ some .dir)
    (hroom : d.cutoff? q contents = none) : d.write p contents = .ok (d.fill q contents) := by
  simp [write, writeFile, hp, hnode, hroom]

theorem retains_write {p : Path} {contents : Contents} (h : d.write p contents = .ok d') :
    Retains d d' := by
  obtain ⟨q, -, hnode, rfl⟩ := write_eq_ok h
  exact retains_fill hnode contents

/-- **A file is read as it was written.** -/
theorem readText_of_write {p : Path} {s : String} (h : d.write p (.text s) = .ok d') :
    d'.readText p = .ok s := by
  obtain ⟨q, hp, hnode, rfl⟩ := write_eq_ok h
  rw [readText, (retains_write h).locate hp]
  simp only [bind, Except.bind, node?_fill_self hnode]
  rfl

/-- There is room for as many bytes as a file has. -/
theorem cutoff?_eq_none_of_file {q : Place} {old contents : Contents} {modified : Int}
    (hq : d.node? q = some (.file old modified))
    (hle : contents.bytes.length ≤ old.bytes.length) : d.cutoff? q contents = none := by
  simp only [cutoff?, hq, Option.map_some, Node.size, Option.getD_some,
    Option.filter_eq_none_iff, Option.map_eq_some_iff]
  rintro n ⟨limit, -, rfl⟩
  simp only [decide_eq_true_eq]
  omega

/-- **A file that can be read can be written**, with as many bytes as it has or fewer. -/
theorem exists_write_of_readText {p : Path} {s : String} (h : d.readText p = .ok s)
    {contents : Contents} (hle : contents.bytes.length ≤ s.utf8ByteSize) :
    ∃ d', d.write p contents = .ok d' := by
  rw [readText] at h
  cases hp : d.locate p with
  | error e => rw [hp] at h; cases h
  | ok t =>
    obtain ⟨q, directory⟩ := t
    simp only [hp, bind, Except.bind] at h
    cases hnode : d.node? q with
    | none => simp [hnode] at h
    | some n =>
      cases n with
      | dir => simp [hnode] at h
      | file old modified =>
        cases directory with
        | true => simp [hnode] at h
        | false =>
          cases old with
          | binary bytes => simp [hnode] at h
          | text old =>
            obtain rfl : old = s := by simpa [hnode] using h
            rw [← Contents.length_bytes_text] at hle
            exact ⟨_, write_of_cutoff? hp (by simp [hnode]) (cutoff?_eq_none_of_file hnode hle)⟩

/-! ### Making directories -/

/-- Directories that were made are there, so that making them again does nothing. -/
theorem createFrom_eq_ok {made : Bool} {here : Place} {ss : List String}
    (h : d.createFrom made here ss = (d', .ok ())) :
    Retains d d' ∧ ∀ d₂ made₂, Retains d' d₂ → d₂.createFrom made₂ here ss = (d₂, .ok ()) := by
  induction ss generalizing d made here with
  | nil =>
    cases h
    exact ⟨.refl _, fun _ _ _ => rfl⟩
  | cons s ss ih =>
    rw [createFrom] at h
    by_cases hidle : s = "" ∨ s = "."
    · rw [if_pos hidle] at h
      obtain ⟨hretains, hagain⟩ := ih h
      refine ⟨hretains, fun d₂ made₂ h₂ => ?_⟩
      rw [createFrom, if_pos hidle]
      exact hagain d₂ made₂ h₂
    · rw [if_neg hidle] at h
      by_cases hdots : s = ".."
      · rw [if_pos hdots] at h
        obtain ⟨hretains, hagain⟩ := ih h
        refine ⟨hretains, fun d₂ made₂ h₂ => ?_⟩
        rw [createFrom, if_neg hidle, if_pos hdots]
        exact hagain d₂ made₂ h₂
      · rw [if_neg hdots] at h
        have hthere : ∀ {d₁ : Disk} {made₁ : Bool}, Retains d d₁ →
            d₁.node? (here ++ [s]) = some .dir →
            d₁.createFrom made₁ (here ++ [s]) ss = (d', .ok ()) →
            Retains d d' ∧ ∀ d₂ made₂, Retains d' d₂ →
              d₂.createFrom made₂ here (s :: ss) = (d₂, .ok ()) := by
          intro d₁ made₁ hd₁ hnode h
          obtain ⟨hretains, hagain⟩ := ih h
          refine ⟨hd₁.trans hretains, fun d₂ made₂ h₂ => ?_⟩
          rw [createFrom, if_neg hidle, if_neg hdots, h₂.dirs _ (hretains.dirs _ hnode)]
          exact hagain d₂ made₂ h₂
        cases hnode : d.node? (here ++ [s]) with
        | none =>
          rw [hnode] at h
          exact hthere (retains_put (by simp [hnode])) node?_put_dir h
        | some n =>
          rw [hnode] at h
          cases n with
          | file contents modified => cases (Prod.mk.inj h).2
          | dir => exact hthere (.refl d) hnode h

/-- Makes the directory of a path, if it names one. -/
def makeParent (d : Disk) (p : Path) : Disk × Except IoError Unit :=
  match p.parent? with
  | some parent => if parent.text ≠ "" then d.createDirs parent else (d, .ok ())
  | none => (d, .ok ())

theorem makeParent_cases (p : Path) :
    (∀ d : Disk, d.makeParent p = (d, .ok ())) ∨
      ∃ parent, ∀ d : Disk, d.makeParent p = d.createDirs parent := by
  cases hp : p.parent? with
  | none => exact .inl fun d => by rw [makeParent, hp]
  | some parent =>
    by_cases hne : parent.text ≠ ""
    · exact .inr ⟨parent, fun d => by simp only [makeParent, hp, if_pos hne]⟩
    · exact .inl fun d => by simp only [makeParent, hp, if_neg hne]

theorem makeParent_eq_ok {p : Path} (h : d.makeParent p = (d', .ok ())) :
    Retains d d' ∧ ∀ d₂, Retains d' d₂ → d₂.makeParent p = (d₂, .ok ()) := by
  rcases makeParent_cases p with hall | ⟨parent, hall⟩
  · rw [hall] at h
    cases h
    exact ⟨.refl _, fun d₂ _ => hall d₂⟩
  · rw [hall] at h
    obtain ⟨hretains, hagain⟩ := createFrom_eq_ok h
    refine ⟨hretains, fun d₂ h₂ => ?_⟩
    rw [hall, createDirs, (hretains.trans h₂).origin]
    exact hagain d₂ false h₂

end Disk

end KeyLedger
