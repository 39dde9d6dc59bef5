import KeyLedger.Proofs.Reconcile.Observations
import KeyLedger.Proofs.Reconcile.Reservations

/-!
# Running twice

A run leaves a manifest in which the same candidates should be found again as they are: a second
run should neither update nor create anything. This file says what a second run updates, and how
much it can create.

Nothing is updated exactly if the manifest is *faithful* to the candidates: every slot that is
asked for and held is held with the text of the candidate that asks for it first. Nothing is
created unless a candidate is *displaced*: the first run put it into an entry whose slot it did not
ask for, and another candidate asks for that slot. The second run gives the entry to the other one,
and the displaced candidate is left to look for a new place. For every content hash there are at
most as many new entries as displaced candidates.

## Strategy

Every candidate that waits for the second pass of the second run was kept by the first run, and the
entry that it got then is reserved for it unless it is displaced. The first run has put the entries
that were adopted before those that it made, each in the order of the candidates, so reservations
are out of order only if the earlier one is for a new entry, and then for one without a key.

## Main definitions

* `Manifest.Faithful` — every slot has the text of the candidate that asks for it first
* `Log.seated` — the kept records with their places in the next manifest
* `Log.displaced` — the records whose entry somebody else asks for

## Main results

* `claimed_mem_run_iff` — a slot goes to the candidate that asks for it first
* `updated_eq_nil_iff` — when nothing is updated
* `created_le_displaced` — how much can be created
-/

namespace KeyLedger

/-! ### Claims -/

namespace Log

variable {m : Manifest} {cs : List Candidate} {s : Slot} {e : Entry} {i : Nat}

theorem held_of_mem_claims {r : Record} (hr : r ∈ claims m cs) :
    r.candidate ∈ cs ∧ (m.claimedBy? r.candidate).isSome := by
  have hmem : r.candidate ∈ (claims m cs).map Record.candidate := List.mem_map_of_mem hr
  rw [map_candidate_claims] at hmem
  exact List.mem_filter.mp hmem

/-- The first pass finds the entry that holds a slot if and only if somebody asks for the slot. -/
theorem mem_matched_claims_iff (cs : List Candidate) (ho : m.owner? s = some (e, i)) :
    i ∈ (claims m cs).matched ↔ ∃ c ∈ cs, c.slot? = some s := by
  constructor
  · intro hi
    obtain ⟨q, hq, hqs⟩ :=
      (valid_claims m cs).asked_of_matched (fun q hq => (held_of_mem_claims hq).2) ho hi
    exact ⟨q.candidate, (held_of_mem_claims hq).1, hqs⟩
  · rintro ⟨c, hc, hcs⟩
    have hheld : m.claimedBy? c = some (e, i) := Manifest.claimedBy?_eq_some_iff.mpr ⟨s, hcs, ho⟩
    have hmem : c ∈ (claims m cs).map Record.candidate := by
      rw [map_candidate_claims]
      exact List.mem_filter.mpr ⟨hc, by simp [hheld]⟩
    obtain ⟨r, hr, rfl⟩ := List.mem_map.mp hmem
    obtain ⟨k, k', hsplit⟩ := List.append_of_mem hr
    have hprefix : matched k ⊆ (claims m cs).matched := by
      rw [hsplit, matched_append]
      exact List.subset_append_left _ _
    have hvalid := valid_claims m cs
    rw [hsplit] at hvalid
    have step := hvalid.split.2
    cases step with
    | claimed asks held free =>
      obtain rfl := Option.some.inj (asks.symm.trans hcs)
      rw [held] at ho
      cases ho
      exact mem_matched_iff.mpr ⟨_, hr, rfl⟩
    | repeated asks held found =>
      obtain rfl := Option.some.inj (asks.symm.trans hcs)
      rw [held] at ho
      cases ho
      exact hprefix found
    | adopted unheld => simp [unheld] at hheld
    | added unheld => simp [unheld] at hheld
    | crowded unheld => simp [unheld] at hheld

theorem claimed_mem_claims_iff {c : Candidate} :
    ⟨c, .claimed e i⟩ ∈ claims m cs ↔
      ∃ s, m.owner? s = some (e, i) ∧ cs.find? (fun d => d.slot? == some s) = some c := by
  induction cs using List.reverseRecOn with
  | nil => simp
  | append_singleton cs d ih =>
    rw [claims_append_singleton]
    cases hd : m.claimedBy? d with
    | none =>
      rw [claim_of_unheld hd, ih]
      refine exists_congr fun s => and_congr_right fun ho => ?_
      have hds : d.slot? ≠ some s := by
        intro hds
        rw [Manifest.claimedBy?_eq_none_iff.mp hd s hds] at ho
        cases ho
      rw [List.find?_append, List.find?_singleton, if_neg (by simpa using hds), Option.or_none]
    | some h =>
      obtain ⟨e₀, i₀⟩ := h
      obtain ⟨s₀, asks, held⟩ := Manifest.claimedBy?_eq_some_iff.mp hd
      have hasked := mem_matched_claims_iff cs held
      obtain ⟨⟨d, f⟩, rfl, -, hr, hfate⟩ := claim_of_held asks held (claims m cs)
      rw [hr, List.mem_append, List.mem_singleton, ih]
      constructor
      · rintro (⟨s, ho, hfind⟩ | hnew)
        · exact ⟨s, ho, by simp [List.find?_append, hfind]⟩
        · cases hnew
          obtain ⟨-, hf⟩ | ⟨hi, hf⟩ := hfate
          · cases hf
          · cases hf
            have hnone : cs.find? (fun d => d.slot? == some s₀) = none :=
              List.find?_eq_none.mpr fun b hb hbs => hi (hasked.mpr ⟨b, hb, by simpa using hbs⟩)
            exact ⟨s₀, held, by simpa [List.find?_append, hnone] using asks⟩
      · rintro ⟨s, ho, hfind⟩
        rw [List.find?_append] at hfind
        cases hcs : cs.find? (fun d => d.slot? == some s) with
        | some c' => exact .inl ⟨s, ho, by simpa [hcs] using hfind⟩
        | none =>
          obtain ⟨hds, rfl⟩ : d.slot? = some s ∧ d = c := by simpa [hcs] using hfind
          obtain rfl := Option.some.inj (asks.symm.trans hds)
          rw [held] at ho
          cases ho
          obtain ⟨hi, -⟩ | ⟨-, rfl⟩ := hfate
          · obtain ⟨b, hb, hbs⟩ := hasked.mp hi
            exact absurd (by simpa using hbs) (List.find?_eq_none.mp hcs b hb)
          · exact .inr rfl

/-- **A slot that is held goes to the candidate that asks for it first.** -/
theorem claimed_mem_run_iff {c : Candidate} :
    ⟨c, .claimed e i⟩ ∈ run m cs ↔
      ∃ s, m.owner? s = some (e, i) ∧ cs.find? (fun d => d.slot? == some s) = some c := by
  obtain ⟨k, hrun, hk⟩ := exists_run_eq m cs
  rw [← claimed_mem_claims_iff, hrun, List.mem_append, or_iff_left]
  intro hmem
  have hc : c ∈ m.unclaimed cs := hk ▸ List.mem_map_of_mem hmem
  obtain ⟨l, step⟩ := (valid_run m cs).step_of_mem (hrun ▸ List.mem_append_right _ hmem)
  cases step with
  | claimed asks held =>
    rw [Manifest.claimedBy?_eq_none_iff.mp (mem_unclaimed_iff.mp hc).2 _ asks] at held
    cases held

end Log

/-- Every slot that is held and asked for is held with the text of the candidate that asks for it
first. -/
def Manifest.Faithful (m : Manifest) (cs : List Candidate) : Prop :=
  ∀ s e i c, m.owner? s = some (e, i) → cs.find? (fun d => d.slot? == some s) = some c →
    e.contentHash = Digest.contentHash c.text

theorem updated_eq_nil_iff_forall {cs : List Candidate} {m : Manifest} {now : Instant} :
    (reconcile cs m now).updated = [] ↔ ∀ r ∈ Log.run m cs, r.isUpdated = false := by
  simp only [reconcile_eq, List.filterMap_eq_nil_iff, List.mem_filter]
  constructor
  · intro h r hr
    by_contra hupdated
    have hnone := h r ⟨hr, by simpa using hupdated⟩
    obtain ⟨c, f⟩ := r
    cases f <;> simp_all [Record.isUpdated, Record.update?]
  · rintro h r ⟨hr, hupdated⟩
    rw [h r hr] at hupdated
    cases hupdated

/-- **Nothing is updated if and only if the manifest is faithful.** -/
theorem updated_eq_nil_iff (cs : List Candidate) (m : Manifest) (now : Instant) :
    (reconcile cs m now).updated = [] ↔ m.Faithful cs := by
  rw [updated_eq_nil_iff_forall]
  constructor
  · intro h s e i c ho hfind
    have hsame : Digest.contentHash c.text = e.contentHash := by
      simpa [Record.isUpdated] using h _ (Log.claimed_mem_run_iff.mpr ⟨s, ho, hfind⟩)
    exact hsame.symm
  · rintro h ⟨c, f⟩ hmem
    cases f with
    | claimed e i =>
      obtain ⟨s, ho, hfind⟩ := Log.claimed_mem_run_iff.mp hmem
      simp [Record.isUpdated, h s e i c ho hfind]
    | adopted => rfl
    | added => rfl
    | dropped => rfl

/-! ### Places in the next manifest -/

namespace Log

/-- The records with an unchanged or a new entry, each with the place of the entry, if the next
unchanged one goes to `u` and the next new one to `w`. -/
def seated (u w : Nat) : Log → List (Record × Nat)
  | [] => []
  | r :: l =>
    if r.isUnchanged then (r, u) :: seated (u + 1) w l
    else if r.isAdded then (r, w) :: seated u (w + 1) l
    else seated u w l

theorem not_isUnchanged_of_isAdded {r : Record} (h : r.isAdded = true) : r.isUnchanged = false := by
  obtain ⟨c, f⟩ := r
  cases f <;> simp_all [Record.isAdded, Record.isUnchanged]

theorem map_fst_seated (u w : Nat) (l : Log) :
    (seated u w l).map Prod.fst = l.filter fun r => r.isUnchanged || r.isAdded := by
  induction l generalizing u w with
  | nil => rfl
  | cons r l ih =>
    by_cases hu : r.isUnchanged = true
    · simp [seated, hu, ih]
    · by_cases ha : r.isAdded = true <;> simp [seated, hu, ha, ih]

/-- A seated record is where a list has it that holds the unchanged records from `u` on and the
new ones from `w` on. -/
theorem getElem?_of_mem_seated {k : Log} {u w : Nat} {l : Log}
    (hu : ∀ j r, (l.filter Record.isUnchanged)[j]? = some r → k[u + j]? = some r)
    (hw : ∀ j r, (l.filter Record.isAdded)[j]? = some r → k[w + j]? = some r) :
    ∀ p ∈ seated u w l, k[p.2]? = some p.1 := by
  induction l generalizing u w with
  | nil => intro p hp; cases hp
  | cons r l ih =>
    by_cases hru : r.isUnchanged = true
    · have hra : r.isAdded = false := by
        by_contra ha
        simp [not_isUnchanged_of_isAdded (by simpa using ha)] at hru
      rw [seated, if_pos hru]
      rw [List.filter_cons_of_pos hru] at hu
      rw [List.filter_cons_of_neg (by simp [hra])] at hw
      intro p hp
      rcases List.mem_cons.mp hp with rfl | hp
      · exact hu 0 r rfl
      · refine ih (fun j q hq => ?_) hw p hp
        rw [Nat.add_assoc, Nat.add_comm 1]
        exact hu (j + 1) q hq
    · rw [seated, if_neg hru]
      rw [List.filter_cons_of_neg hru] at hu
      by_cases hra : r.isAdded = true
      · rw [if_pos hra]
        rw [List.filter_cons_of_pos hra] at hw
        intro p hp
        rcases List.mem_cons.mp hp with rfl | hp
        · exact hw 0 r rfl
        · refine ih hu (fun j q hq => ?_) p hp
          rw [Nat.add_assoc, Nat.add_comm 1]
          exact hw (j + 1) q hq
      · rw [if_neg hra]
        rw [List.filter_cons_of_neg hra] at hw
        exact ih hu hw

theorem bounds_of_mem_seated {u w : Nat} {l : Log} {p : Record × Nat} (hp : p ∈ seated u w l) :
    u ≤ p.2 ∧ p.2 < u + (l.filter Record.isUnchanged).length ∨ w ≤ p.2 := by
  induction l generalizing u w with
  | nil => cases hp
  | cons r l ih =>
    by_cases hru : r.isUnchanged = true
    · rw [seated, if_pos hru] at hp
      rw [List.filter_cons_of_pos hru, List.length_cons]
      rcases List.mem_cons.mp hp with rfl | hp
      · left; constructor <;> omega
      · have := ih hp
        omega
    · rw [seated, if_neg hru] at hp
      rw [List.filter_cons_of_neg hru]
      by_cases hra : r.isAdded = true
      · rw [if_pos hra] at hp
        rcases List.mem_cons.mp hp with rfl | hp
        · right; exact Nat.le_refl _
        · have := ih hp
          omega
      · rw [if_neg hra] at hp
        exact ih hp

/-- The places are different, and only new entries come after places that are given out later. -/
theorem pairwise_seated {u w : Nat} {l : Log}
    (hle : u + (l.filter Record.isUnchanged).length ≤ w) :
    (seated u w l).Pairwise fun p q => p.2 ≠ q.2 ∧ (q.2 < p.2 → p.1.isAdded = true) := by
  induction l generalizing u w with
  | nil => exact .nil
  | cons r l ih =>
    by_cases hru : r.isUnchanged = true
    · rw [seated, if_pos hru]
      rw [List.filter_cons_of_pos hru, List.length_cons] at hle
      refine List.pairwise_cons.mpr ⟨fun p hp => ?_, ih (by omega)⟩
      have := bounds_of_mem_seated hp
      constructor
      · omega
      · intro hlt
        omega
    · rw [seated, if_neg hru]
      rw [List.filter_cons_of_neg hru] at hle
      by_cases hra : r.isAdded = true
      · rw [if_pos hra]
        refine List.pairwise_cons.mpr ⟨fun p hp => ⟨?_, fun _ => hra⟩, ih (by omega)⟩
        have := bounds_of_mem_seated hp
        omega
      · rw [if_neg hra]
        exact ih hle

/-- Where the new entries begin in the next manifest. -/
def addedFrom (l : Log) : Nat :=
  (l.filter Record.isUnchanged).length + (l.filter Record.isUpdated).length

/-- The kept records are seated where they are arranged. -/
theorem getElem?_arranged_of_mem_seated {l : Log} {p : Record × Nat}
    (hp : p ∈ seated 0 l.addedFrom l) : l.arranged[p.2]? = some p.1 := by
  refine getElem?_of_mem_seated (fun j r hj => ?_) (fun j r hj => ?_) p hp
  · have hlt := (List.getElem?_eq_some_iff.mp hj).1
    rw [arranged, List.append_assoc, Nat.zero_add, List.getElem?_append_left hlt]
    exact hj
  · rw [arranged, List.getElem?_append_right (by simp [addedFrom])]
    simpa [addedFrom] using hj

end Log

/-! ### Who waits in the second run -/

/-- Somebody asks for a slot. -/
def asked (cs : List Candidate) (s : Slot) : Bool :=
  cs.any fun c => c.slot? == some s

theorem asked_iff {cs : List Candidate} {s : Slot} :
    asked cs s = true ↔ ∃ c ∈ cs, c.slot? = some s := by
  simp [asked]

/-- The number of entries with a given content hash. -/
def entriesWith (g : String) (es : List Entry) : Nat :=
  es.countP fun e => e.contentHash = g

namespace Log

/-- The number of records of candidates with a given content hash. -/
def candidatesWith (g : String) (l : Log) : Nat :=
  l.countP fun r => Digest.contentHash r.candidate.text = g

/-- The records of the candidates that do not find their own slot in the next manifest, and whose
entry there holds a slot that somebody asks for. -/
def displaced (next : Manifest) (cs : List Candidate) (l : Log) : Log :=
  l.filter fun r => (next.claimedBy? r.candidate).isNone && r.slot?.any (asked cs)

/-- Those who wait for the second pass of the second run. The entry from the first run is reserved
for them unless somebody asks for its slot. -/
def queue (next : Manifest) (cs : List Candidate) (l : Log) : List Waiting :=
  ((seated 0 l.addedFrom l).filter fun p => (next.claimedBy? p.1.candidate).isNone).map fun p =>
    ⟨p.1.candidate, if p.1.slot?.any (asked cs) then none else some p.2⟩

variable {m : Manifest} {cs : List Candidate} {r : Record} {s : Slot}

/-- A slot that is held and asked for is taken. -/
theorem slot_mem_run_of_held {e : Entry} {i : Nat} (ho : m.owner? s = some (e, i)) {c : Candidate}
    (hc : c ∈ cs) (hcs : c.slot? = some s) : s ∈ (run m cs).slots := by
  have hfind : (cs.find? fun d => d.slot? == some s).isSome :=
    List.find?_isSome.mpr ⟨c, hc, by simp [hcs]⟩
  obtain ⟨d, hd⟩ := Option.isSome_iff_exists.mp hfind
  exact mem_slots_iff.mpr ⟨_, claimed_mem_run_iff.mpr ⟨s, ho, hd⟩,
    (Manifest.owner?_eq_some_iff.mp ho).2.1⟩

/-- A candidate gets its slot, or is too late for it, unless it adopts an entry. -/
theorem slot_mem_run_or_adopted (hr : r ∈ run m cs) (hs : r.candidate.slot? = some s) :
    s ∈ (run m cs).slots ∨ ∃ e i, r.fate = .adopted e i := by
  have hc : r.candidate ∈ cs := (map_candidate_run_perm m cs).mem_iff.mp (List.mem_map_of_mem hr)
  obtain ⟨k, k', hsplit⟩ := List.append_of_mem hr
  have hvalid := valid_run m cs
  rw [hsplit] at hvalid
  have step := hvalid.split.2
  cases step with
  | claimed asks held =>
    obtain rfl := Option.some.inj (asks.symm.trans hs)
    exact .inl (slot_mem_run_of_held held hc hs)
  | repeated asks held =>
    obtain rfl := Option.some.inj (asks.symm.trans hs)
    exact .inl (slot_mem_run_of_held held hc hs)
  | adopted => exact .inr ⟨_, _, rfl⟩
  | added => exact .inl (mem_slots_iff.mpr ⟨_, hr, hs⟩)
  | crowded _ _ asks taken =>
    obtain rfl := Option.some.inj (asks.symm.trans hs)
    obtain ⟨q, hq, hqs⟩ := mem_slots_iff.mp taken
    exact .inl (mem_slots_iff.mpr ⟨q, hsplit ▸ List.mem_append_left _ hq, hqs⟩)

theorem owner?_nextManifest_ne_none (hs : s ∈ (run m cs).slots) (now : Instant) :
    (nextManifest cs m now).owner? s ≠ none := by
  intro hnone
  obtain ⟨e, he, hes⟩ := List.mem_filterMap.mp ((slots_arranged now (run m cs)).mem_iff.mpr hs)
  have hmem : e ∈ (nextManifest cs m now).entries := by
    rw [nextManifest_eq]
    exact List.mem_append_left _ he
  obtain ⟨i, hi⟩ := List.mem_iff_getElem?.mp hmem
  exact Manifest.owner?_eq_none_iff.mp hnone i e hi hes

/-- A candidate that asks for no slot is kept. -/
theorem Step.adopted_or_added {l : Log} (step : Step m l r) (hs : r.candidate.slot? = none) :
    (∃ e i, r.fate = .adopted e i) ∨ r.fate = .added := by
  cases step with
  | claimed asks => rw [hs] at asks; cases asks
  | repeated asks => rw [hs] at asks; cases asks
  | adopted => exact .inl ⟨_, _, rfl⟩
  | added => exact .inr rfl
  | crowded _ _ asks => rw [hs] at asks; cases asks

/-- **Whoever waits was kept**: it adopted an entry, or it became a new one without a key. -/
theorem adopted_or_added_of_waiting {now : Instant} (hr : r ∈ run m cs)
    (unheld : (nextManifest cs m now).claimedBy? r.candidate = none) :
    (∃ e i, r.fate = .adopted e i) ∨ r.fate = .added ∧ r.candidate.slot? = none := by
  cases hs : r.candidate.slot? with
  | some s =>
    have hnone := Manifest.claimedBy?_eq_none_iff.mp unheld s hs
    refine .inl ((slot_mem_run_or_adopted hr hs).resolve_left fun hmem => ?_)
    exact owner?_nextManifest_ne_none hmem now hnone
  | none =>
    obtain ⟨k, step⟩ := (valid_run m cs).step_of_mem hr
    exact (step.adopted_or_added hs).imp_right fun hf => ⟨hf, rfl⟩

theorem isUnchanged_or_isAdded_of_waiting {now : Instant} (hr : r ∈ run m cs)
    (unheld : ((nextManifest cs m now).claimedBy? r.candidate).isNone) :
    (r.isUnchanged || r.isAdded) = true := by
  rcases adopted_or_added_of_waiting hr (by simpa using unheld) with ⟨e, i, hf⟩ | ⟨hf, -⟩ <;>
    simp [Record.isUnchanged, Record.isAdded, hf]

/-- The queue holds the candidates of the second pass of the second run, in their order. -/
theorem map_candidate_queue (m : Manifest) (cs : List Candidate) (now : Instant) :
    ((run m cs).queue (nextManifest cs m now) cs).map Waiting.candidate =
      (nextManifest cs m now).unclaimed cs := by
  have hheld : ∀ c ∈ cs, ((nextManifest cs m now).claimedBy? c).isNone →
      (m.claimedBy? c).isNone := by
    intro c hc hnone
    rw [Option.isNone_iff_eq_none] at hnone ⊢
    refine Manifest.claimedBy?_eq_none_iff.mpr fun s hs => ?_
    by_contra hsome
    obtain ⟨⟨e, i⟩, ho⟩ := Option.ne_none_iff_exists'.mp hsome
    exact owner?_nextManifest_ne_none (slot_mem_run_of_held ho hc hs) now
      (Manifest.claimedBy?_eq_none_iff.mp hnone s hs)
  calc ((run m cs).queue (nextManifest cs m now) cs).map Waiting.candidate
      = (((seated 0 (run m cs).addedFrom (run m cs)).map Prod.fst).filter fun r =>
          ((nextManifest cs m now).claimedBy? r.candidate).isNone).map Record.candidate := by
        simp [queue, List.filter_map, Function.comp_def]
    _ = ((run m cs).filter fun r =>
          ((nextManifest cs m now).claimedBy? r.candidate).isNone).map Record.candidate := by
        rw [map_fst_seated, List.filter_filter]
        refine congrArg _ (List.filter_congr fun r hr => ?_)
        by_cases hn : ((nextManifest cs m now).claimedBy? r.candidate).isNone = true
        · simp [hn, isUnchanged_or_isAdded_of_waiting hr hn]
        · simp [hn]
    _ = ((run m cs).map Record.candidate).filter fun c =>
          ((nextManifest cs m now).claimedBy? c).isNone := by
        rw [List.filter_map]
        rfl
    _ = (nextManifest cs m now).unclaimed cs := by
        rw [map_candidate_run, Manifest.unclaimed, Manifest.unclaimed, List.filter_append,
          List.filter_filter, List.filter_filter]
        have hnil : (cs.filter fun c => ((nextManifest cs m now).claimedBy? c).isNone &&
            (m.claimedBy? c).isSome) = [] := by
          refine List.filter_eq_nil_iff.mpr fun c hc h => ?_
          rw [Bool.and_eq_true] at h
          have hnone := Option.isNone_iff_eq_none.mp (hheld c hc h.1)
          simp [hnone] at h
        rw [hnil, List.nil_append]
        refine List.filter_congr fun c hc => ?_
        by_cases hn : ((nextManifest cs m now).claimedBy? c).isNone = true
        · simp [hn, hheld c hc hn]
        · simp [hn]

/-- Those who wait without a reservation are displaced. -/
theorem unseated_queue (m : Manifest) (cs : List Candidate) (now : Instant) (g : String) :
    unseated g ((run m cs).queue (nextManifest cs m now) cs) =
      ((run m cs).displaced (nextManifest cs m now) cs).candidatesWith g := by
  have hfst : ∀ p : Record → Bool,
      (seated 0 (run m cs).addedFrom (run m cs)).countP (p ∘ Prod.fst) =
        (run m cs).countP fun r => p r && (r.isUnchanged || r.isAdded) := by
    intro p
    rw [← List.countP_map, map_fst_seated, List.countP_filter]
  rw [unseated, queue, List.countP_map, List.countP_filter, candidatesWith, displaced,
    List.countP_filter]
  have hseat : ∀ r : Record, ∀ x : Nat,
      (if r.slot?.any (asked cs) = true then none else some x).isNone = r.slot?.any (asked cs) := by
    intro r x
    cases r.slot?.any (asked cs) <;> rfl
  simp only [Function.comp_def, hseat]
  refine (hfst fun r => r.slot?.any (asked cs) &&
    decide (Digest.contentHash r.candidate.text = g) &&
      ((nextManifest cs m now).claimedBy? r.candidate).isNone).trans ?_
  refine List.countP_congr fun r hr => ?_
  by_cases hn : ((nextManifest cs m now).claimedBy? r.candidate).isNone = true
  · simp [hn, isUnchanged_or_isAdded_of_waiting hr hn, and_comm]
  · simp [hn]

/-- The entry of a kept record has the text of its candidate, and it is in its namespace or was
claimed. -/
theorem hash_ns_of_entry? {now : Instant} {e : Entry} (he : r.entry? now = some e)
    (hf : (∃ e i, r.fate = .adopted e i) ∨ r.fate = .added) :
    e.contentHash = Digest.contentHash r.candidate.text ∧ e.ns = r.candidate.ns := by
  obtain ⟨c, f⟩ := r
  rcases hf with ⟨e', i, rfl⟩ | rfl <;> cases he <;> exact ⟨rfl, rfl⟩

/-- **The entries of the first run are good reservations for the second.** -/
theorem reserved_queue (m : Manifest) (cs : List Candidate) (now : Instant) :
    Reserved (nextManifest cs m now) (claims (nextManifest cs m now) cs)
      ((run m cs).queue (nextManifest cs m now) cs) := by
  have hrun : ∀ p ∈ seated 0 (run m cs).addedFrom (run m cs), p.1 ∈ run m cs := by
    intro p hp
    have hmem : p.1 ∈ (seated 0 (run m cs).addedFrom (run m cs)).map Prod.fst :=
      List.mem_map_of_mem hp
    rw [map_fst_seated] at hmem
    exact (List.mem_filter.mp hmem).1
  refine ⟨fun w hw x hx => ?_, List.pairwise_map.mpr ?_⟩
  · obtain ⟨p, hp, rfl⟩ := List.mem_map.mp hw
    obtain ⟨hp, hnone⟩ := List.mem_filter.mp hp
    by_cases hasked : p.1.slot?.any (asked cs) = true
    · simp [hasked] at hx
    · obtain rfl : p.2 = x := by simpa [hasked] using hx
      obtain ⟨e, he, hget⟩ := getElem?_nextManifest (getElem?_arranged_of_mem_seated hp) now
      have hfate := adopted_or_added_of_waiting (hrun p hp) (by simpa using hnone)
      obtain ⟨hhash, hns⟩ := hash_ns_of_entry? he (hfate.imp_right And.left)
      refine ⟨e, hget, hhash, fun hmatched => hasked ?_, .inr hns⟩
      -- the first pass finds the entry only if somebody asks for its slot
      obtain ⟨q, hq, hqx⟩ := mem_matched_iff.mp hmatched
      obtain ⟨k, step⟩ := (valid_claims _ _).step_of_mem hq
      have hheld := held_of_mem_claims hq
      cases step with
      | @claimed c s e' i asks held =>
        obtain rfl : i = p.2 := Option.some.inj hqx
        obtain ⟨he', hslot, -⟩ := Manifest.owner?_eq_some_iff.mp held
        obtain rfl : e = e' := Option.some.inj (hget.symm.trans he')
        rw [← p.1.entry?_bind_slot? now, he, Option.bind_some, hslot]
        exact asked_iff.mpr ⟨c, hheld.1, asks⟩
      | repeated => cases hqx
      | adopted unheld => simp [unheld] at hheld
      | added => cases hqx
      | crowded => cases hqx
  · have hpair := pairwise_seated (u := 0) (w := (run m cs).addedFrom) (l := run m cs)
      (by simp [addedFrom])
    refine (hpair.filter _).imp_of_mem fun {p p'} hp _ hpp' x y hx hy => ?_
    obtain ⟨hp, hnone⟩ := List.mem_filter.mp hp
    have hx' : p.2 = x := by
      by_cases hasked : p.1.slot?.any (asked cs) = true <;> simp [hasked] at hx
      exact hx
    have hy' : p'.2 = y := by
      by_cases hasked : p'.1.slot?.any (asked cs) = true <;> simp [hasked] at hy
      exact hy
    subst hx' hy'
    refine ⟨hpp'.1, fun hlt e hget => ?_⟩
    obtain ⟨e', he', hget'⟩ := getElem?_nextManifest (getElem?_arranged_of_mem_seated hp) now
    obtain rfl : e = e' := Option.some.inj (hget.symm.trans hget')
    have hadded := hpp'.2 hlt
    rcases adopted_or_added_of_waiting (hrun p hp) (by simpa using hnone) with
      ⟨b, i, hf⟩ | ⟨hf, hslot⟩
    · simp [Record.isAdded, hf] at hadded
    · have hkey := p.1.entry?_bind_slot? now
      rw [he', Option.bind_some, Record.slot?, hf] at hkey
      simpa [Entry.slot?, hslot] using hkey

theorem added_claims (m : Manifest) (cs : List Candidate) (g : String) :
    (claims m cs).added g = 0 := by
  refine List.countP_eq_zero.mpr fun r hr h => ?_
  have hheld := (held_of_mem_claims hr).2
  obtain ⟨k, step⟩ := (valid_claims m cs).step_of_mem hr
  cases step with
  | claimed => cases h
  | repeated => cases h
  | adopted => cases h
  | added unheld => simp [unheld] at hheld
  | crowded => cases h

/-- A displaced candidate has adopted an entry whose slot it does not ask for. -/
theorem adopted_of_mem_displaced {now : Instant}
    (hr : r ∈ (run m cs).displaced (nextManifest cs m now) cs) :
    ∃ e i s, r.fate = .adopted e i ∧ r.slot? = some s ∧ r.candidate.slot? ≠ some s ∧
      ∃ c ∈ cs, c.slot? = some s := by
  obtain ⟨hr, h⟩ := List.mem_filter.mp hr
  obtain ⟨hnone, hasked⟩ := Bool.and_eq_true_iff.mp h
  rw [Option.isNone_iff_eq_none] at hnone
  obtain ⟨s, hs, hasked⟩ := (Option.any_eq_true _ _).mp hasked
  have htaken : s ∈ (run m cs).slots := mem_slots_iff.mpr ⟨r, hr, hs⟩
  have hown : r.candidate.slot? ≠ some s := fun hc => owner?_nextManifest_ne_none htaken now
    (Manifest.claimedBy?_eq_none_iff.mp hnone s hc)
  rcases adopted_or_added_of_waiting hr hnone with ⟨e, i, hf⟩ | ⟨hf, -⟩
  · exact ⟨e, i, s, hf, hs, hown, asked_iff.mp hasked⟩
  · rw [Record.slot?, hf] at hs
    exact absurd hs hown

end Log

theorem entriesWith_created (cs : List Candidate) (m : Manifest) (now : Instant) (g : String) :
    entriesWith g (reconcile cs m now).created = (Log.run m cs).added g := by
  rw [reconcile_eq, Log.added, entriesWith, List.countP_filterMap, List.countP_filter]
  refine List.countP_congr fun r _ => ?_
  obtain ⟨c, f⟩ := r
  cases f <;> simp [Record.isAdded, Record.entry?, Entry.ofCandidate]

/-- **A second run creates no more than the first has displaced**, for every content hash. -/
theorem created_le_displaced {m : Manifest} (unique : m.SlotUnique) (cs : List Candidate)
    (t₁ t₂ : Instant) (g : String) :
    entriesWith g (reconcile cs (nextManifest cs m t₁) t₂).created ≤
      ((Log.run m cs).displaced (nextManifest cs m t₁) cs).candidatesWith g := by
  have hqueue := Log.map_candidate_queue m cs t₁
  have hbound := Reserved.added_le (unique.nextManifest cs t₁)
    (by rw [hqueue]; exact fun c hc => (Log.mem_unclaimed_iff.mp hc).2) (Log.valid_claims _ cs)
    (Log.reserved_queue m cs t₁) g
  rw [hqueue, Log.added_claims, Log.unseated_queue, Nat.zero_add] at hbound
  rw [entriesWith_created]
  exact hbound

end KeyLedger
