import KeyLedger.Reconcile.Basic
import Mathlib.Data.List.Induction
import Mathlib.Data.List.Nodup

/-!
# The log of a run

A run decides about one candidate after the other, and what it has decided so far is held in five
lists. This file says the same thing with one list: the log, which records for every candidate what
became of it, in the order in which the run decided. Everything that a run holds can be read off
the log, so a statement about a run becomes a statement about a list of records, and a proof by
induction over a run has one case for each way in which a candidate can end.

The log does not mention the time of the run. Time enters only when entries are read off.

## The guards are part of the step

`Log.Step` lists the ways in which a record can follow a log, each with everything that the run has
checked at that point. The invariants of a run are proved from it, and none of them unfolds a pass
again.

## Main definitions

* `Fate`, `Record`, `Log` — what becomes of a candidate
* `Log.progress` — what a run holds after a log
* `Log.run` — the log of both passes
* `Adoptable` — what it takes for a candidate to adopt an entry
* `Log.Step`, `Log.Valid` — one record after a log, and logs that are built from such steps

## Main results

* `Manifest.owner?_eq_some_iff`, `Log.adoptable?_eq_some_iff` — the two searches of a run
* `Progress.run_eq` — a run holds what its log says
* `Log.valid_run` — the log of a run is valid
-/

namespace KeyLedger

/-! ### The first entry that qualifies -/

section Search

variable {α : Type} {l : List α} {p : α × Nat → Bool}

theorem find?_zipIdx_eq_some_iff {a : α} {i : Nat} :
    l.zipIdx.find? p = some (a, i) ↔
      l[i]? = some a ∧ p (a, i) ∧ ∀ j < i, ∀ b, l[j]? = some b → ¬ p (b, j) := by
  rw [List.find?_eq_some_iff_getElem]
  constructor
  · rintro ⟨hp, i', hi', hget, hfirst⟩
    have hlen : i' < l.length := by simpa using hi'
    rw [List.getElem_zipIdx] at hget
    obtain ⟨rfl, rfl⟩ := Prod.mk.inj hget
    rw [Nat.zero_add] at *
    refine ⟨List.getElem?_eq_getElem hlen, hp, fun j hj b hb => ?_⟩
    obtain ⟨hjl, rfl⟩ := List.getElem?_eq_some_iff.mp hb
    simpa [List.getElem_zipIdx] using hfirst j hj
  · rintro ⟨hget, hp, hfirst⟩
    obtain ⟨hlen, rfl⟩ := List.getElem?_eq_some_iff.mp hget
    refine ⟨hp, i, by simpa using hlen, by simp [List.getElem_zipIdx], fun j hj => ?_⟩
    have hjl : j < l.length := Nat.lt_trans hj hlen
    simpa [List.getElem_zipIdx] using hfirst j hj _ (List.getElem?_eq_getElem hjl)

theorem find?_zipIdx_eq_none_iff :
    l.zipIdx.find? p = none ↔ ∀ i a, l[i]? = some a → ¬ p (a, i) := by
  rw [List.find?_eq_none]
  constructor
  · intro h i a ha
    exact h (a, i) (List.mk_mem_zipIdx_iff_getElem?.mpr ha)
  · rintro h ⟨a, i⟩ ha
    exact h i a (List.mk_mem_zipIdx_iff_getElem?.mp ha)

end Search

theorem map_some_filterMap {α β : Type} {f : α → Option β} {l : List α}
    (h : ∀ a ∈ l, (f a).isSome) : (l.filterMap f).map some = l.map f := by
  induction l with
  | nil => rfl
  | cons a l ih =>
    obtain ⟨b, hb⟩ := Option.isSome_iff_exists.mp (h a List.mem_cons_self)
    rw [List.filterMap_cons_some hb, List.map_cons, List.map_cons, hb,
      ih fun c hc => h c (List.mem_cons_of_mem _ hc)]

namespace Manifest

variable {m : Manifest} {s : Slot} {e : Entry} {i : Nat}

/-- The owner of a slot is the first entry that holds it. -/
theorem owner?_eq_some_iff :
    m.owner? s = some (e, i) ↔
      m.entries[i]? = some e ∧ e.slot? = some s ∧
        ∀ j < i, ∀ b, m.entries[j]? = some b → b.slot? ≠ some s := by
  simp only [owner?, find?_zipIdx_eq_some_iff, beq_iff_eq, ne_eq]

theorem owner?_eq_none_iff :
    m.owner? s = none ↔ ∀ (i : Nat) (e : Entry), m.entries[i]? = some e → e.slot? ≠ some s := by
  simp only [owner?, find?_zipIdx_eq_none_iff, beq_iff_eq, ne_eq]

theorem claimedBy?_eq_some_iff {c : Candidate} :
    m.claimedBy? c = some (e, i) ↔ ∃ s, c.slot? = some s ∧ m.owner? s = some (e, i) := by
  simp only [claimedBy?, Option.bind_eq_bind, Option.bind_eq_some_iff]

theorem claimedBy?_eq_none_iff {c : Candidate} :
    m.claimedBy? c = none ↔ ∀ s, c.slot? = some s → m.owner? s = none := by
  simp only [claimedBy?, Option.bind_eq_bind, Option.bind_eq_none_iff]

end Manifest

/-! ### Records -/

/-- What becomes of a candidate. -/
inductive Fate where
  /-- It is the entry that holds its slot. -/
  | claimed (e : Entry) (i : Nat)
  /-- It is an entry with the same text, which moves to its namespace. -/
  | adopted (e : Entry) (i : Nat)
  /-- It becomes a new entry. -/
  | added
  /-- It is dropped, because its slot is taken. -/
  | dropped
deriving DecidableEq

/-- A candidate and what became of it. -/
structure Record where
  /-- The candidate. -/
  candidate : Candidate
  /-- What became of it. -/
  fate : Fate
deriving DecidableEq

namespace Record

/-- The index of the entry that the candidate was found to be. -/
def index? (r : Record) : Option Nat :=
  match r.fate with
  | .claimed _ i => some i
  | .adopted _ i => some i
  | .added => none
  | .dropped => none

/-- The slot that the candidate's entry holds in the next manifest. -/
def slot? (r : Record) : Option Slot :=
  match r.fate with
  | .claimed e _ => e.slot?
  | .adopted e _ => e.key.map fun k => ⟨r.candidate.ns, k⟩
  | .added => r.candidate.slot?
  | .dropped => none

/-- The candidate's entry in the next manifest, unless the candidate was dropped. -/
def entry? (now : Instant) (r : Record) : Option Entry :=
  match r.fate with
  | .claimed e _ => some (e.seenAs r.candidate now)
  | .adopted e _ => some { e.seenAs r.candidate now with ns := r.candidate.ns }
  | .added => some (Entry.ofCandidate r.candidate now)
  | .dropped => none

/-- The candidate's entry before and after, if the candidate claimed it. -/
def update? (now : Instant) (r : Record) : Option Update :=
  match r.fate with
  | .claimed e _ => some ⟨e, e.seenAs r.candidate now⟩
  | .adopted _ _ => none
  | .added => none
  | .dropped => none

/-- The candidate was found with the same text. -/
def isUnchanged (r : Record) : Bool :=
  match r.fate with
  | .claimed e _ => Digest.contentHash r.candidate.text = e.contentHash
  | .adopted _ _ => true
  | .added => false
  | .dropped => false

/-- The candidate was found with another text. -/
def isUpdated (r : Record) : Bool :=
  match r.fate with
  | .claimed e _ => Digest.contentHash r.candidate.text ≠ e.contentHash
  | .adopted _ _ => false
  | .added => false
  | .dropped => false

/-- The candidate was not found. -/
def isAdded (r : Record) : Bool :=
  match r.fate with
  | .claimed _ _ => false
  | .adopted _ _ => false
  | .added => true
  | .dropped => false

theorem entry?_bind_slot? (now : Instant) (r : Record) :
    (r.entry? now).bind Entry.slot? = r.slot? := by
  obtain ⟨c, f⟩ := r
  cases f <;> rfl

theorem contentHash_entry? {r : Record} {now : Instant} {e : Entry} (he : r.entry? now = some e) :
    e.contentHash = Digest.contentHash r.candidate.text := by
  obtain ⟨c, f⟩ := r
  cases f <;> cases he <;> rfl

end Record

/-- What became of the candidates of a run, in the order in which it was decided. -/
abbrev Log : Type := List Record

namespace Log

/-- The indices of the entries found so far. -/
def matched (l : Log) : List Nat := l.filterMap Record.index?

/-- The slots taken so far. -/
def slots (l : Log) : List Slot := l.filterMap Record.slot?

/-- What a run at a given time holds after a log. -/
def progress (now : Instant) (l : Log) : Progress :=
  { matched := l.matched.reverse
    claimed := l.slots.reverse
    created := (l.filter Record.isAdded).filterMap (Record.entry? now)
    updated := (l.filter Record.isUpdated).filterMap (Record.update? now)
    unchanged := (l.filter Record.isUnchanged).filterMap (Record.entry? now) }

@[simp] theorem matched_append (l k : Log) : matched (l ++ k) = l.matched ++ k.matched :=
  List.filterMap_append

@[simp] theorem slots_append (l k : Log) : slots (l ++ k) = l.slots ++ k.slots :=
  List.filterMap_append

/-- What one more record adds to what a run holds. -/
theorem progress_append_singleton (now : Instant) (l : Log) (r : Record) :
    progress now (l ++ [r]) =
      { matched := r.index?.toList ++ (l.progress now).matched
        claimed := r.slot?.toList ++ (l.progress now).claimed
        created := (l.progress now).created ++ (([r].filter Record.isAdded).filterMap
          (Record.entry? now))
        updated := (l.progress now).updated ++ (([r].filter Record.isUpdated).filterMap
          (Record.update? now))
        unchanged := (l.progress now).unchanged ++ (([r].filter Record.isUnchanged).filterMap
          (Record.entry? now)) } := by
  have reverse_singleton : ∀ {β : Type} (f : Record → Option β),
      (List.filterMap f [r]).reverse = (f r).toList := by
    intro β f
    cases h : f r <;> simp [h]
  simp only [progress, matched, slots, List.filterMap_append, List.filter_append,
    List.reverse_append, reverse_singleton]

theorem mem_matched_iff {l : Log} {i : Nat} : i ∈ l.matched ↔ ∃ r ∈ l, r.index? = some i :=
  List.mem_filterMap

theorem mem_slots_iff {l : Log} {s : Slot} : s ∈ l.slots ↔ ∃ r ∈ l, r.slot? = some s :=
  List.mem_filterMap

end Log

/-! ### The two searches -/

/-- The entry with index `i` is one that a candidate may adopt after a log: it has the text of the
candidate, nobody was found to be it, and in the namespace of the candidate its key is neither
taken nor held by another entry. -/
structure Adoptable (m : Manifest) (l : Log) (c : Candidate) (e : Entry) (i : Nat) : Prop where
  /-- The manifest has the entry. -/
  entry : m.entries[i]? = some e
  /-- It has the text of the candidate. -/
  hash : e.contentHash = Digest.contentHash c.text
  /-- It is free. -/
  free : i ∉ l.matched
  /-- Its slot in the namespace of the candidate is not taken. -/
  untaken : ∀ k, e.key = some k → ⟨c.ns, k⟩ ∉ l.slots
  /-- Nor does another entry hold that slot. -/
  owner : ∀ k, e.key = some k → ∀ h j, m.owner? ⟨c.ns, k⟩ = some (h, j) → j = i

/-- Nothing but its text keeps a free entry without a key from being adopted. -/
theorem Adoptable.of_keyless {m : Manifest} {l : Log} {c : Candidate} {e : Entry} {i : Nat}
    (he : m.entries[i]? = some e) (hkey : e.key = none)
    (hash : e.contentHash = Digest.contentHash c.text) (free : i ∉ l.matched) :
    Adoptable m l c e i where
  entry := he
  hash := hash
  free := free
  untaken k hk := by rw [hkey] at hk; cases hk
  owner k hk := by rw [hkey] at hk; cases hk

namespace Log

/-- The entry that a candidate adopts after a log. -/
def adoptable? (m : Manifest) (l : Log) (c : Candidate) : Option (Entry × Nat) :=
  Progress.adoptable? m ⟨l.matched, l.slots, [], [], []⟩ c

theorem adoptable?_progress (m : Manifest) (now : Instant) (l : Log) (c : Candidate) :
    (l.progress now).adoptable? m c = l.adoptable? m c := by
  have hc : ∀ e i, Progress.canAdopt m (l.progress now) e i c.ns
      = Progress.canAdopt m ⟨l.matched, l.slots, [], [], []⟩ e i c.ns := by
    intro e i
    cases hk : e.key <;> simp [Progress.canAdopt, hk, progress]
  simp only [adoptable?, Progress.adoptable?, hc]
  simp [progress]

theorem canAdopt_iff {m : Manifest} {l : Log} {e : Entry} {i : Nat} {ns : String} :
    Progress.canAdopt m ⟨l.matched, l.slots, [], [], []⟩ e i ns = true ↔
      (∀ k, e.key = some k → ⟨ns, k⟩ ∉ l.slots) ∧
        ∀ k, e.key = some k → ∀ h j, m.owner? ⟨ns, k⟩ = some (h, j) → j = i := by
  cases hk : e.key with
  | none => simp [Progress.canAdopt, hk]
  | some k =>
    cases ho : m.owner? ⟨ns, k⟩ with
    | none => simp [Progress.canAdopt, hk, ho]
    | some h => simp [Progress.canAdopt, hk, ho, Prod.ext_iff]

theorem adoptable_iff {m : Manifest} {l : Log} {c : Candidate} {e : Entry} {i : Nat} :
    Adoptable m l c e i ↔ m.entries[i]? = some e ∧
      (e.contentHash == Digest.contentHash c.text && !l.matched.contains i &&
        Progress.canAdopt m ⟨l.matched, l.slots, [], [], []⟩ e i c.ns) = true := by
  simp only [Bool.and_eq_true, beq_iff_eq, Bool.not_eq_true', canAdopt_iff]
  constructor
  · rintro ⟨hget, hhash, hfree, huntaken, howner⟩
    exact ⟨hget, ⟨hhash, by simpa using hfree⟩, huntaken, howner⟩
  · rintro ⟨hget, ⟨hhash, hfree⟩, huntaken, howner⟩
    exact ⟨hget, hhash, by simpa using hfree, huntaken, howner⟩

/-- A candidate adopts the first entry that it may adopt. -/
theorem adoptable?_eq_some_iff {m : Manifest} {l : Log} {c : Candidate} {e : Entry} {i : Nat} :
    l.adoptable? m c = some (e, i) ↔
      Adoptable m l c e i ∧ ∀ j < i, ∀ b, ¬ Adoptable m l c b j := by
  simp only [adoptable?, Progress.adoptable?, find?_zipIdx_eq_some_iff, adoptable_iff, not_and,
    and_assoc]

theorem adoptable?_eq_none_iff {m : Manifest} {l : Log} {c : Candidate} :
    l.adoptable? m c = none ↔ ∀ i e, ¬ Adoptable m l c e i := by
  simp only [adoptable?, Progress.adoptable?, find?_zipIdx_eq_none_iff, adoptable_iff, not_and]

/-! ### The log of a run -/

/-- First pass for one candidate: nothing is recorded unless its slot is held. -/
def claim (m : Manifest) (l : Log) (c : Candidate) : Log :=
  match m.claimedBy? c with
  | none => l
  | some (e, i) => l ++ [⟨c, if i ∈ l.matched then .dropped else .claimed e i⟩]

/-- Second pass for one candidate. -/
def settle (m : Manifest) (l : Log) (c : Candidate) : Log :=
  match l.adoptable? m c with
  | some (e, i) => l ++ [⟨c, .adopted e i⟩]
  | none => l ++ [⟨c, if c.slot?.any l.slots.contains then .dropped else .added⟩]

/-- The log of the first pass. -/
def claims (m : Manifest) (cs : List Candidate) : Log := cs.foldl (claim m) []

/-- The log of both passes. -/
def run (m : Manifest) (cs : List Candidate) : Log :=
  (m.unclaimed cs).foldl (settle m) (claims m cs)

@[simp] theorem claims_nil (m : Manifest) : claims m [] = [] := rfl

@[simp] theorem claims_append_singleton (m : Manifest) (cs : List Candidate) (c : Candidate) :
    claims m (cs ++ [c]) = (claims m cs).claim m c := by
  simp [claims]

end Log

theorem Progress.claim_progress (m : Manifest) (now : Instant) (l : Log) (c : Candidate) :
    Progress.claim m now (l.progress now) c = (l.claim m c).progress now := by
  cases hc : m.claimedBy? c with
  | none => simp only [Progress.claim, Log.claim, hc]
  | some h =>
    obtain ⟨e, i⟩ := h
    have hi : (l.progress now).matched.contains i = decide (i ∈ l.matched) := by
      simp [Log.progress]
    simp only [Progress.claim, Log.claim, hc, hi, decide_eq_true_eq, Log.progress_append_singleton]
    by_cases hm : i ∈ l.matched
    · simp [hm, Record.index?, Record.slot?, Record.isAdded, Record.isUpdated, Record.isUnchanged]
    · by_cases hh : Digest.contentHash c.text = e.contentHash <;>
        simp [hm, hh, Record.index?, Record.slot?, Record.isAdded, Record.isUpdated,
          Record.isUnchanged, Record.entry?, Record.update?, Entry.seenAs, Progress.take]

theorem Progress.settle_progress (m : Manifest) (now : Instant) (l : Log) (c : Candidate) :
    Progress.settle m now (l.progress now) c = (l.settle m c).progress now := by
  simp only [Progress.settle, Log.settle, Log.adoptable?_progress]
  cases ha : l.adoptable? m c with
  | some h =>
    obtain ⟨e, i⟩ := h
    simp [Log.progress_append_singleton, List.filter_cons, Record.index?, Record.slot?,
      Record.isAdded, Record.isUpdated, Record.isUnchanged, Record.entry?, Progress.take,
      Entry.slot?, Entry.seenAs]
  | none =>
    have hs : (l.progress now).claimed.contains = l.slots.contains := by
      funext s
      simp [Log.progress]
    simp only [hs, Log.progress_append_singleton]
    by_cases ht : c.slot?.any l.slots.contains <;>
      simp [ht, List.filter_cons, Record.index?, Record.slot?, Record.isAdded, Record.isUpdated,
        Record.isUnchanged, Record.entry?, Progress.take]

/-- **A run holds what its log says.** -/
theorem Progress.run_eq (m : Manifest) (cs : List Candidate) (now : Instant) :
    Progress.run m cs now = (Log.run m cs).progress now := by
  have claims : ∀ l : Log, cs.foldl (Progress.claim m now) (l.progress now)
      = (cs.foldl (Log.claim m) l).progress now := by
    induction cs with
    | nil => intro l; rfl
    | cons c cs ih => intro l; rw [List.foldl_cons, List.foldl_cons, claim_progress, ih]
  have settles : ∀ (ps : List Candidate) (l : Log),
      ps.foldl (Progress.settle m now) (l.progress now)
        = (ps.foldl (Log.settle m) l).progress now := by
    intro ps
    induction ps with
    | nil => intro l; rfl
    | cons c ps ih => intro l; rw [List.foldl_cons, List.foldl_cons, settle_progress, ih]
  have hstart : Progress.start = Log.progress now [] := rfl
  rw [Progress.run, hstart, claims, settles]
  rfl

/-! ### What one step can do -/

namespace Log

/-- The ways in which a record can follow a log, with what the run has checked by then. -/
inductive Step (m : Manifest) (l : Log) : Record → Prop
  /-- The candidate claims the entry that holds its slot. -/
  | claimed {c : Candidate} {s : Slot} {e : Entry} {i : Nat} (asks : c.slot? = some s)
      (held : m.owner? s = some (e, i)) (free : i ∉ l.matched) : Step m l ⟨c, .claimed e i⟩
  /-- The entry that holds its slot has been claimed. -/
  | repeated {c : Candidate} {s : Slot} {e : Entry} {i : Nat} (asks : c.slot? = some s)
      (held : m.owner? s = some (e, i)) (found : i ∈ l.matched) : Step m l ⟨c, .dropped⟩
  /-- The candidate adopts the first entry that it may adopt. -/
  | adopted {c : Candidate} {e : Entry} {i : Nat} (unheld : m.claimedBy? c = none)
      (fits : Adoptable m l c e i) (first : ∀ j < i, ∀ b, ¬ Adoptable m l c b j) :
      Step m l ⟨c, .adopted e i⟩
  /-- There is nothing to adopt, and the slot of the candidate is not taken. -/
  | added {c : Candidate} (unheld : m.claimedBy? c = none)
      (none_fits : ∀ i e, ¬ Adoptable m l c e i) (untaken : ∀ s, c.slot? = some s → s ∉ l.slots) :
      Step m l ⟨c, .added⟩
  /-- There is nothing to adopt, and the slot of the candidate is taken. -/
  | crowded {c : Candidate} {s : Slot} (unheld : m.claimedBy? c = none)
      (none_fits : ∀ i e, ¬ Adoptable m l c e i) (asks : c.slot? = some s) (taken : s ∈ l.slots) :
      Step m l ⟨c, .dropped⟩

/-- The logs that are built from steps. -/
inductive Valid (m : Manifest) : Log → Prop
  /-- Nothing has been decided. -/
  | nil : Valid m []
  /-- One more decision. -/
  | snoc {l : Log} {r : Record} (init : Valid m l) (step : Step m l r) : Valid m (l ++ [r])

theorem claim_of_held {m : Manifest} {c : Candidate} {s : Slot} {e : Entry} {i : Nat}
    (asks : c.slot? = some s) (held : m.owner? s = some (e, i)) (l : Log) :
    ∃ r, r.candidate = c ∧ Step m l r ∧ l.claim m c = l ++ [r] ∧
      (i ∈ l.matched ∧ r.fate = .dropped ∨ i ∉ l.matched ∧ r.fate = .claimed e i) := by
  have hc : m.claimedBy? c = some (e, i) := Manifest.claimedBy?_eq_some_iff.mpr ⟨s, asks, held⟩
  by_cases hi : i ∈ l.matched
  · exact ⟨⟨c, .dropped⟩, rfl, .repeated asks held hi, by simp [claim, hc, hi], .inl ⟨hi, rfl⟩⟩
  · exact ⟨⟨c, .claimed e i⟩, rfl, .claimed asks held hi, by simp [claim, hc, hi],
      .inr ⟨hi, rfl⟩⟩

theorem claim_of_unheld {m : Manifest} {c : Candidate} (unheld : m.claimedBy? c = none)
    (l : Log) : l.claim m c = l := by
  simp only [claim, unheld]

theorem settle_of_unheld {m : Manifest} {c : Candidate} (unheld : m.claimedBy? c = none)
    (l : Log) : ∃ r, r.candidate = c ∧ Step m l r ∧ l.settle m c = l ++ [r] := by
  cases ha : l.adoptable? m c with
  | some h =>
    obtain ⟨e, i⟩ := h
    obtain ⟨fits, first⟩ := adoptable?_eq_some_iff.mp ha
    exact ⟨⟨c, .adopted e i⟩, rfl, .adopted unheld fits first, by simp only [settle, ha]⟩
  | none =>
    have none_fits := adoptable?_eq_none_iff.mp ha
    cases hs : c.slot? with
    | none =>
      exact ⟨⟨c, .added⟩, rfl, .added unheld none_fits (by simp [hs]), by simp [settle, ha, hs]⟩
    | some s =>
      by_cases ht : s ∈ l.slots
      · exact ⟨⟨c, .dropped⟩, rfl, .crowded unheld none_fits hs ht, by simp [settle, ha, hs, ht]⟩
      · exact ⟨⟨c, .added⟩, rfl, .added unheld none_fits (by simpa [hs] using ht),
          by simp [settle, ha, hs, ht]⟩

/-- The first pass records the candidates whose slot is held, in their order. -/
theorem valid_claims (m : Manifest) (cs : List Candidate) : Valid m (claims m cs) := by
  induction cs using List.reverseRecOn with
  | nil => exact .nil
  | append_singleton cs c ih =>
    rw [claims_append_singleton]
    cases hc : m.claimedBy? c with
    | none => rwa [claim_of_unheld hc]
    | some h =>
      obtain ⟨s, asks, held⟩ := Manifest.claimedBy?_eq_some_iff.mp hc
      obtain ⟨r, -, step, hr, -⟩ := claim_of_held asks held (claims m cs)
      exact hr ▸ ih.snoc step

theorem valid_settles {m : Manifest} {ps : List Candidate} (hps : ∀ c ∈ ps, m.claimedBy? c = none)
    {l : Log} (h : Valid m l) : Valid m (ps.foldl (settle m) l) := by
  induction ps generalizing l with
  | nil => exact h
  | cons c ps ih =>
    obtain ⟨r, -, step, hr⟩ := settle_of_unheld (hps c List.mem_cons_self) l
    rw [List.foldl_cons, hr]
    exact ih (fun d hd => hps d (List.mem_cons_of_mem _ hd)) (h.snoc step)

theorem mem_unclaimed_iff {m : Manifest} {cs : List Candidate} {c : Candidate} :
    c ∈ m.unclaimed cs ↔ c ∈ cs ∧ m.claimedBy? c = none := by
  simp [Manifest.unclaimed]

/-- **The log of a run is valid**: every record in it is a step after the records before it. -/
theorem valid_run (m : Manifest) (cs : List Candidate) : Valid m (run m cs) :=
  valid_settles (fun _ hc => (mem_unclaimed_iff.mp hc).2) (valid_claims m cs)

theorem Valid.of_append {m : Manifest} {l k : Log} (h : Valid m (l ++ k)) : Valid m l := by
  induction k using List.reverseRecOn with
  | nil => simpa using h
  | append_singleton k r ih =>
    rw [← List.append_assoc] at h
    generalize hl : l ++ k ++ [r] = l' at h
    cases h with
    | nil => simp at hl
    | snoc init step => exact ih ((List.append_inj' hl rfl).1 ▸ init)

/-- Every record of a valid log is a step after the records before it. -/
theorem Valid.split {m : Manifest} {l k : Log} {r : Record} (h : Valid m (l ++ r :: k)) :
    Valid m l ∧ Step m l r := by
  have hr : Valid m (l ++ [r]) := of_append (k := k) (by simpa using h)
  generalize hl : l ++ [r] = l' at hr
  cases hr with
  | nil => simp at hl
  | snoc init step =>
    obtain ⟨rfl, hrs⟩ := List.append_inj' hl rfl
    obtain rfl := List.singleton_inj.mp hrs
    exact ⟨init, step⟩

theorem Valid.step_of_mem {m : Manifest} {l : Log} {r : Record} (h : Valid m l) (hr : r ∈ l) :
    ∃ k, Step m k r := by
  obtain ⟨k, k', rfl⟩ := List.append_of_mem hr
  exact ⟨k, h.split.2⟩

/-! ### What a run leaves -/

/-- The records of the candidates that were not dropped, in the order in which the next manifest
lists their entries. -/
def arranged (l : Log) : Log :=
  l.filter Record.isUnchanged ++ l.filter Record.isUpdated ++ l.filter Record.isAdded

/-- Up to order, only the candidates that were dropped are missing. -/
theorem arranged_perm (l : Log) : l.arranged.Perm (l.filter fun r => r.fate ≠ .dropped) := by
  induction l with
  | nil => rfl
  | cons r l ih =>
    obtain ⟨c, f⟩ := r
    have hinsert : ∀ (as bs : Log) (r : Record),
        (as ++ bs).Perm (l.filter fun r => r.fate ≠ .dropped) →
          (as ++ r :: bs).Perm (r :: l.filter fun r => r.fate ≠ .dropped) :=
      fun as bs r h => List.perm_middle.trans (h.cons r)
    rw [arranged, List.append_assoc] at ih
    cases f with
    | claimed e i =>
      by_cases hh : Digest.contentHash c.text = e.contentHash
      · simpa [arranged, List.filter_cons, Record.isUnchanged, Record.isUpdated, Record.isAdded, hh]
          using ih
      · simpa [arranged, List.filter_cons, Record.isUnchanged, Record.isUpdated, Record.isAdded, hh]
          using hinsert _ _ ⟨c, .claimed e i⟩ ih
    | adopted e i =>
      simpa [arranged, List.filter_cons, Record.isUnchanged, Record.isUpdated, Record.isAdded]
        using ih
    | added =>
      rw [← List.append_assoc] at ih
      simpa [arranged, List.filter_cons, Record.isUnchanged, Record.isUpdated, Record.isAdded]
        using hinsert _ _ ⟨c, .added⟩ ih
    | dropped =>
      simpa [arranged, List.filter_cons, Record.isUnchanged, Record.isUpdated, Record.isAdded]
        using ih

/-- Every record that is not dropped has its entry. -/
theorem isSome_entry?_of_mem_arranged {l : Log} {r : Record} (hr : r ∈ l.arranged)
    (now : Instant) : (r.entry? now).isSome := by
  have hkept := (List.mem_filter.mp ((arranged_perm l).mem_iff.mp hr)).2
  obtain ⟨c, f⟩ := r
  cases f <;> simp [Record.entry?] at hkept ⊢

/-- What a candidate that was dropped does not have can be read off the records in either order. -/
theorem filterMap_arranged_perm {β : Type} {f : Record → Option β}
    (hf : ∀ r, r.fate = .dropped → f r = none) (l : Log) :
    (l.arranged.filterMap f).Perm (l.filterMap f) := by
  refine ((arranged_perm l).filterMap f).trans (List.Perm.of_eq ?_)
  rw [List.filterMap_filter]
  refine List.filterMap_congr fun r _ => ?_
  by_cases hr : r.fate = .dropped
  · simp [hr, hf r hr]
  · simp [hr]

end Log

theorem Manifest.orphans_congr {m : Manifest} {is js : List Nat} (h : ∀ i, i ∈ is ↔ i ∈ js) :
    m.orphans is = m.orphans js := by
  simp [Manifest.orphans, h]

/-- The outcome of a run, read off its log. -/
theorem reconcile_eq (cs : List Candidate) (m : Manifest) (now : Instant) :
    reconcile cs m now =
      { created := ((Log.run m cs).filter Record.isAdded).filterMap (Record.entry? now)
        updated := ((Log.run m cs).filter Record.isUpdated).filterMap (Record.update? now)
        unchanged := ((Log.run m cs).filter Record.isUnchanged).filterMap (Record.entry? now)
        orphaned := m.orphans (Log.run m cs).matched
        matched := (Log.run m cs).matched.reverse.mergeSort } := by
  have horphans : m.orphans (Log.run m cs).matched.reverse = m.orphans (Log.run m cs).matched :=
    Manifest.orphans_congr fun i => List.mem_reverse
  simp only [reconcile, Progress.run_eq, Log.progress, horphans]

theorem map_entry_filter_isUpdated (now : Instant) (l : Log) :
    ((l.filter Record.isUpdated).filterMap (Record.update? now)).map Update.entry =
      (l.filter Record.isUpdated).filterMap (Record.entry? now) := by
  rw [List.map_filterMap, List.filterMap_filter, List.filterMap_filter]
  refine List.filterMap_congr fun r _ => ?_
  obtain ⟨c, f⟩ := r
  cases f <;> simp [Record.isUpdated, Record.update?, Record.entry?]

/-- The next manifest: what a run has found or made, and then the orphans. -/
theorem nextManifest_eq (cs : List Candidate) (m : Manifest) (now : Instant) :
    nextManifest cs m now =
      ⟨m.version, (Log.run m cs).arranged.filterMap (Record.entry? now) ++
        m.orphans (Log.run m cs).matched⟩ := by
  simp only [nextManifest, reconcile_eq, Outcome.assemble, Log.arranged, List.filterMap_append,
    map_entry_filter_isUpdated]

/-- The entry of a kept record stands in the next manifest where the record is arranged. -/
theorem getElem?_nextManifest {cs : List Candidate} {m : Manifest} {x : Nat} {r : Record}
    (hx : (Log.run m cs).arranged[x]? = some r) (now : Instant) :
    ∃ e, r.entry? now = some e ∧ (nextManifest cs m now).entries[x]? = some e := by
  have hmap := map_some_filterMap fun r hr =>
    Log.isSome_entry?_of_mem_arranged (l := Log.run m cs) (r := r) hr now
  have hget := congrArg (·[x]?) hmap
  simp only [List.getElem?_map, hx, Option.map_some, Option.map_eq_some_iff] at hget
  obtain ⟨e, he, hr⟩ := hget
  refine ⟨e, hr.symm, ?_⟩
  rw [nextManifest_eq]
  exact List.getElem?_append_left (List.getElem?_eq_some_iff.mp he).1 ▸ he

/-! ### Plain candidates -/

/-- A candidate of which only the namespace, the key and the text matter. -/
def Candidate.plain (ns : String) (key : Option String) (text : String) : Candidate :=
  { id := ""
    ns
    kind := .block
    tag := none
    attr := none
    text
    inlineTags := []
    hints := key.elim ∅ fun k => .ofList [("key", k)]
    loc := ⟨"", 0, 0⟩
    framework := "" }

/-- The first instant of 1970. -/
def Instant.epoch : Instant :=
  ⟨⟨1970, 1, 1, by decide⟩, ⟨0, 0, 0, 0, by decide, by decide, by decide, by decide, by decide⟩⟩

end KeyLedger
