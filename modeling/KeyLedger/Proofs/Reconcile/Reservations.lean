import KeyLedger.Proofs.Reconcile.Slots

/-!
# How many entries a second pass adds

The second pass is greedy: every candidate takes the first entry that it may adopt, and so it may
take one that a later candidate could have used better. This file bounds what that can cost. Let
every candidate that waits for the second pass have a *reservation*, which is the index of an entry
that it could adopt, or none. Then at most as many new entries are made as there are candidates
without a reservation, and this holds for every content hash on its own.

## The exchange

When a candidate takes an entry that is reserved for a later one, the two swap: the later candidate
gets the reservation that has become vacant. For this the vacant entry must fit the later candidate
too, which may be in another namespace, and an entry fits every namespace if it has no key. Hence
the third condition of `Reserved`: whenever reservations are out of order, the one of the earlier
candidate is for an entry without a key.

## Main definitions

* `Waiting` — a candidate with its reservation
* `Reservation`, `Reserved` — when reservations hold good after a log
* `Waiting.reseat` — the exchange

## Main results

* `Reserved.settle` — one candidate of the second pass
* `Reserved.added_le` — the whole second pass
-/

namespace KeyLedger

/-- A candidate that waits for the second pass. -/
structure Waiting where
  /-- The candidate. -/
  candidate : Candidate
  /-- The index of the entry that is reserved for it. -/
  seat? : Option Nat
deriving DecidableEq

/-- The entry with index `x` can be adopted by a candidate and stays so: it has the text of the
candidate, it is free, and it does not change its slot. -/
structure Reservation (m : Manifest) (l : Log) (c : Candidate) (x : Nat) (e : Entry) : Prop where
  /-- The manifest has the entry. -/
  entry : m.entries[x]? = some e
  /-- It has the text of the candidate. -/
  hash : e.contentHash = Digest.contentHash c.text
  /-- It is free. -/
  free : x ∉ l.matched
  /-- It has no key, or it is in the namespace of the candidate. -/
  home : e.key = none ∨ e.ns = c.ns

/-- The reservations of those who wait hold good after a log: each is for an entry of its own, and
if an earlier candidate has a later entry, then that entry has no key. -/
structure Reserved (m : Manifest) (l : Log) (q : List Waiting) : Prop where
  /-- Every reservation is good. -/
  good : ∀ w ∈ q, ∀ x, w.seat? = some x → ∃ e, Reservation m l w.candidate x e
  /-- No two are for the same entry, and those that are out of order can be exchanged. -/
  apart : q.Pairwise fun v w => ∀ x y, v.seat? = some x → w.seat? = some y →
    x ≠ y ∧ (y < x → ∀ e, m.entries[x]? = some e → e.key = none)

/-- The number of those with a given content hash who wait without a reservation. -/
def unseated (h : String) (q : List Waiting) : Nat :=
  q.countP fun w => w.seat?.isNone && decide (Digest.contentHash w.candidate.text = h)

/-- The number of new entries with a given content hash. -/
def Log.added (h : String) (l : Log) : Nat :=
  l.countP fun r => r.isAdded && decide (Digest.contentHash r.candidate.text = h)

theorem Log.added_append (h : String) (l k : Log) : added h (l ++ k) = l.added h + k.added h :=
  List.countP_append

/-- What is reserved for a candidate can be adopted by it. -/
theorem Reservation.adoptable {m : Manifest} {l : Log} {c : Candidate} {x : Nat} {e : Entry}
    (h : Reservation m l c x e) (unique : m.SlotUnique) (hl : l.Valid m) :
    Adoptable m l c e x := by
  have howner : ∀ k, e.key = some k → m.owner? ⟨c.ns, k⟩ = some (e, x) := by
    intro k hk
    rcases h.home with hnone | hns
    · simp [hnone] at hk
    · exact unique.owner? h.entry (by simp [Entry.slot?, hk, hns])
  refine ⟨h.entry, h.hash, h.free, fun k hk hs => ?_, fun k hk e' j ho => ?_⟩
  · exact h.free (hl.matched_of_slot hs (howner k hk))
  · rw [howner k hk] at ho
    cases ho
    rfl

/-! ### The exchange -/

/-- Whoever has the reservation `y` gets another one for it, or none. -/
def Waiting.reseat (y : Nat) (s : Option Nat) (w : Waiting) : Waiting :=
  if w.seat? = some y then { w with seat? := s } else w

theorem Waiting.candidate_reseat (y : Nat) (s : Option Nat) (w : Waiting) :
    (w.reseat y s).candidate = w.candidate := by
  unfold reseat
  split <;> rfl

theorem Waiting.seat?_reseat (y : Nat) (s : Option Nat) (w : Waiting) :
    (w.reseat y s).seat? = if w.seat? = some y then s else w.seat? := by
  unfold reseat
  split <;> rfl

theorem unseated_cons (h : String) (w : Waiting) (q : List Waiting) :
    unseated h (w :: q) = unseated h q +
      if w.seat? = none ∧ Digest.contentHash w.candidate.text = h then 1 else 0 := by
  simp [unseated, List.countP_cons]

/-- An exchange leaves nobody without a reservation. -/
theorem unseated_reseat_some (h : String) (y x : Nat) (q : List Waiting) :
    unseated h (q.map (Waiting.reseat y (some x))) = unseated h q := by
  induction q with
  | nil => rfl
  | cons w q ih =>
    rw [List.map_cons, unseated_cons, unseated_cons, ih, Waiting.candidate_reseat,
      Waiting.seat?_reseat]
    by_cases hw : w.seat? = some y <;> simp [hw]

/-- A reservation that is lost leaves at most one more without. -/
theorem unseated_reseat_none {h g : String} {y : Nat} {q : List Waiting}
    (apart : q.Pairwise fun v w => ∀ x z, v.seat? = some x → w.seat? = some z → x ≠ z)
    (hash : ∀ w ∈ q, w.seat? = some y → Digest.contentHash w.candidate.text = g) :
    unseated h (q.map (Waiting.reseat y none)) ≤ unseated h q + if g = h then 1 else 0 := by
  induction q with
  | nil => exact Nat.zero_le _
  | cons w q ih =>
    obtain ⟨hhead, htail⟩ := List.pairwise_cons.mp apart
    rw [List.map_cons, unseated_cons, unseated_cons, Waiting.candidate_reseat,
      Waiting.seat?_reseat]
    by_cases hw : w.seat? = some y
    · -- no other reservation is lost
      have hrest : q.map (Waiting.reseat y none) = q := by
        refine (List.map_congr_left fun v hv => ?_).trans (List.map_id q)
        rw [Waiting.reseat, if_neg fun hvy => hhead v hv y y hw hvy rfl]
        rfl
      have hg := hash w List.mem_cons_self hw
      rw [hrest]
      simp [hw, hg]
    · have := ih htail fun v hv => hash v (List.mem_cons_of_mem _ hv)
      rw [if_neg hw]
      omega

/-! ### The second pass -/

section SecondPass

variable {m : Manifest} {l : Log} {w : Waiting} {q : List Waiting}

/-- A record that names no entry touches no reservation. -/
theorem Reserved.skip (h : Reserved m l (w :: q)) {r : Record} (hr : r.index? = none) :
    Reserved m (l ++ [r]) q := by
  refine ⟨fun v hv x hx => ?_, h.apart.of_cons⟩
  obtain ⟨e, he⟩ := h.good v (List.mem_cons_of_mem _ hv) x hx
  refine ⟨e, he.entry, he.hash, ?_, he.home⟩
  simpa [Log.matched, hr] using he.free

/-- A candidate that adopts an entry exchanges its reservation for the one of that entry. -/
theorem Reserved.reseat (h : Reserved m l (w :: q)) {y : Nat} {b : Entry}
    (fits : Adoptable m l w.candidate b y) (hle : ∀ x, w.seat? = some x → y ≤ x) :
    Reserved m (l ++ [⟨w.candidate, .adopted b y⟩]) (q.map (Waiting.reseat y w.seat?)) := by
  obtain ⟨hhead, htail⟩ := List.pairwise_cons.mp h.apart
  have hmatched : Log.matched (l ++ [⟨w.candidate, .adopted b y⟩]) = l.matched ++ [y] :=
    Log.matched_append l [⟨w.candidate, .adopted b y⟩]
  refine ⟨fun v' hv' x hx => ?_, List.pairwise_map.mpr ?_⟩
  · obtain ⟨v, hv, rfl⟩ := List.mem_map.mp hv'
    rw [Waiting.seat?_reseat] at hx
    rw [Waiting.candidate_reseat]
    by_cases hvy : v.seat? = some y
    · -- `v` gets the reservation of `w`, which is for a later entry and so for one without a key
      rw [if_pos hvy] at hx
      obtain ⟨e, he⟩ := h.good w List.mem_cons_self x hx
      obtain ⟨b', hb'⟩ := h.good v (List.mem_cons_of_mem _ hv) y hvy
      obtain rfl : b = b' := Option.some.inj (fits.entry.symm.trans hb'.entry)
      obtain ⟨hne, hkeyless⟩ := hhead v hv x y hx hvy
      have hlt : y < x := Nat.lt_of_le_of_ne (hle x hx) hne.symm
      refine ⟨e, he.entry, ?_, ?_, .inl (hkeyless hlt e he.entry)⟩
      · rw [he.hash, ← fits.hash, hb'.hash]
      · simpa [hmatched, hne] using he.free
    · rw [if_neg hvy] at hx
      obtain ⟨e, he⟩ := h.good v (List.mem_cons_of_mem _ hv) x hx
      refine ⟨e, he.entry, he.hash, ?_, he.home⟩
      have hne : x ≠ y := fun hxy => hvy (hxy ▸ hx)
      simpa [hmatched, hne] using he.free
  · refine htail.imp_of_mem fun {v v'} hv hv' hvv' x z hx hz => ?_
    rw [Waiting.seat?_reseat] at hx hz
    by_cases hvy : v.seat? = some y
    · rw [if_pos hvy] at hx
      have hne : v'.seat? ≠ some y := fun hv'y => (hvv' y y hvy hv'y).1 rfl
      rw [if_neg hne] at hz
      exact hhead v' hv' x z hx hz
    · rw [if_neg hvy] at hx
      by_cases hv'y : v'.seat? = some y
      · rw [if_pos hv'y] at hz
        refine ⟨fun hxz => (hhead v hv z x hz hx).1 hxz.symm, fun hlt => ?_⟩
        exact (hvv' x y hx hv'y).2 (Nat.lt_of_le_of_lt (hle z hz) hlt)
      · rw [if_neg hv'y] at hz
        exact hvv' x z hx hz

/-- **One candidate of the second pass**: it makes a new entry only at the expense of the number
of those without a reservation. -/
theorem Reserved.settle (h : Reserved m l (w :: q)) (unique : m.SlotUnique) (hl : l.Valid m)
    (unheld : m.claimedBy? w.candidate = none) :
    ∃ r q', l.settle m w.candidate = l ++ [r] ∧ Log.Valid m (l ++ [r]) ∧
      q'.map Waiting.candidate = q.map Waiting.candidate ∧ Reserved m (l ++ [r]) q' ∧
      ∀ g, Log.added g [r] + unseated g q' ≤ unseated g (w :: q) := by
  obtain ⟨r, hr, step, hsettle⟩ := Log.settle_of_unheld unheld l
  have hseat : (∀ i e, ¬ Adoptable m l w.candidate e i) → w.seat? = none := by
    intro none_fits
    refine Option.eq_none_iff_forall_ne_some.mpr fun x hx => ?_
    obtain ⟨e, he⟩ := h.good w List.mem_cons_self x hx
    exact none_fits x e (he.adoptable unique hl)
  refine ⟨r, ?_⟩
  cases step with
  | claimed asks held =>
    obtain rfl := hr
    rw [Manifest.claimedBy?_eq_none_iff.mp unheld _ asks] at held
    cases held
  | repeated asks held =>
    obtain rfl := hr
    rw [Manifest.claimedBy?_eq_none_iff.mp unheld _ asks] at held
    cases held
  | @adopted c b y _ fits first =>
    obtain rfl := hr
    have hle : ∀ x, w.seat? = some x → y ≤ x := by
      intro x hx
      obtain ⟨e, he⟩ := h.good w List.mem_cons_self x hx
      exact Nat.le_of_not_lt fun hlt => first x hlt e (he.adoptable unique hl)
    refine ⟨q.map (Waiting.reseat y w.seat?), hsettle, hl.snoc (.adopted unheld fits first), ?_,
      h.reseat fits hle, fun g => ?_⟩
    · simp [Function.comp_def, Waiting.candidate_reseat]
    · have hadded : Log.added g [⟨w.candidate, .adopted b y⟩] = 0 := by
        simp [Log.added, Record.isAdded]
      rw [hadded, Nat.zero_add, unseated_cons]
      cases hw : w.seat? with
      | some x => simp [unseated_reseat_some]
      | none =>
        have hhash : ∀ v ∈ q, v.seat? = some y →
            Digest.contentHash v.candidate.text = Digest.contentHash w.candidate.text := by
          intro v hv hvy
          obtain ⟨b', hb'⟩ := h.good v (List.mem_cons_of_mem _ hv) y hvy
          obtain rfl : b = b' := Option.some.inj (fits.entry.symm.trans hb'.entry)
          exact hb'.hash.symm.trans fits.hash
        simpa using unseated_reseat_none
          (h.apart.of_cons.imp fun hvw x z hx hz => (hvw x z hx hz).1) hhash
  | added _ none_fits untaken =>
    obtain rfl := hr
    refine ⟨q, hsettle, hl.snoc (.added unheld none_fits untaken), rfl, h.skip rfl, fun g => ?_⟩
    rw [unseated_cons]
    by_cases hg : Digest.contentHash w.candidate.text = g <;>
      simp [Log.added, Record.isAdded, hseat none_fits, hg, Nat.add_comm]
  | crowded _ none_fits asks taken =>
    obtain rfl := hr
    refine ⟨q, hsettle, hl.snoc (.crowded unheld none_fits asks taken), rfl, h.skip rfl,
      fun g => ?_⟩
    rw [unseated_cons]
    simp [Log.added, Record.isAdded]

/-- **The whole second pass** makes at most as many new entries with a content hash as there are
candidates with this hash that have no reservation. -/
theorem Reserved.added_le (unique : m.SlotUnique)
    (unheld : ∀ c ∈ q.map Waiting.candidate, m.claimedBy? c = none) (hl : l.Valid m)
    (h : Reserved m l q) (g : String) :
    ((q.map Waiting.candidate).foldl (Log.settle m) l).added g ≤ l.added g + unseated g q := by
  -- the reservations change on the way, so the induction is on the candidates
  generalize hcs : q.map Waiting.candidate = cs at unheld
  induction cs generalizing l q with
  | nil => exact Nat.le_add_right _ _
  | cons c cs ih =>
    obtain ⟨w, q, rfl, rfl, rfl⟩ := List.map_eq_cons_iff.mp hcs
    obtain ⟨r, q', hsettle, hl', hq', h', hcount⟩ :=
      h.settle unique hl (unheld w.candidate List.mem_cons_self)
    have hrest := ih hl' h' (by rw [hq']) fun d hd => unheld d (List.mem_cons_of_mem _ hd)
    rw [Log.added_append] at hrest
    rw [List.foldl_cons, hsettle]
    have := hcount g
    omega

end SecondPass

end KeyLedger
