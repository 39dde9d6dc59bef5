import KeyLedger.Proofs.Reconcile.Lineage
import Mathlib.Data.Finset.Card

/-!
# No observation is lost, except to a move

A candidate that asks for the slot of an earlier candidate repeats it, and a run is meant to drop
nothing but repeats. It comes close. Of the three ways in which a slot can be taken, two go back to
a candidate that asked for it; the third does not. When a candidate adopts an entry from another
namespace, the entry brings its key along, and the slot that is taken this way belongs to nobody
who asked. The candidate that asks for it first finds it occupied and is *ousted*.

This file counts what is lost. The candidates that are dropped are repeats and ousted candidates;
against the ousted ones stand the repeats that were kept after all, because they found an entry to
adopt.

## Main definitions

* `markRepeats`, `repeats` — the elements of a list whose label occurs before
* `Ousted` — the first candidate to ask for a slot that a move has taken
* `Log.dropped` — the records of the candidates that were dropped
* `Log.ousted`, `Log.spared` — the dropped records that repeat nothing, and the kept repeats

## Main results

* `Log.map_candidate_run` — both passes keep the order of the input
* `Log.dropped_iff` — what is dropped without being a repeat is ousted
* `observations_kept_iff` — the count of what is kept
* `adoption_ousts_keyed` — a run that loses a candidate without any repeats
-/

namespace KeyLedger

/-! ### Repeats -/

section Repeats

variable {α β : Type} [DecidableEq β] {f : α → Option β} {l : List α} {a : α}

/-- The elements of a list, each with whether it has a label that an earlier element has too. -/
def markRepeats (f : α → Option β) (l : List α) : List (α × Bool) :=
  l.zipIdx.map fun p => (p.1, (f p.1).any fun b => (l.take p.2).any fun a => f a == some b)

/-- The elements of a list that have the label of an earlier element. -/
def repeats (f : α → Option β) (l : List α) : List α :=
  ((markRepeats f l).filter Prod.snd).map Prod.fst

theorem markRepeats_append_singleton :
    markRepeats f (l ++ [a]) =
      markRepeats f l ++ [(a, (f a).any fun b => l.any fun a' => f a' == some b)] := by
  have hinit : l.zipIdx.map (fun p => (p.1, (f p.1).any fun b =>
      ((l ++ [a]).take p.2).any fun a => f a == some b)) = markRepeats f l := by
    refine List.map_congr_left fun p hp => ?_
    have hlt : p.2 < l.length := by simpa using (List.mem_zipIdx hp).2.1
    rw [List.take_append_of_le_length hlt.le]
  rw [markRepeats, List.zipIdx_append, List.map_append, hinit]
  simp

theorem map_fst_markRepeats : (markRepeats f l).map Prod.fst = l := by
  simp [markRepeats, Function.comp_def]

theorem mem_markRepeats_iff {x : Bool} :
    (a, x) ∈ markRepeats f l ↔ ∃ k k', l = k ++ a :: k' ∧
      x = (f a).any fun b => k.any fun a' => f a' == some b := by
  simp only [markRepeats, List.mem_map, Prod.mk.injEq, Prod.exists]
  constructor
  · rintro ⟨a, i, hi, rfl, rfl⟩
    obtain ⟨hlt, hget⟩ := List.getElem?_eq_some_iff.mp (List.mk_mem_zipIdx_iff_getElem?.mp hi)
    refine ⟨l.take i, l.drop (i + 1), ?_, rfl⟩
    rw [← hget, List.getElem_cons_drop, List.take_append_drop]
  · rintro ⟨k, k', rfl, rfl⟩
    exact ⟨a, k.length, List.mk_mem_zipIdx_iff_getElem?.mpr (by simp), rfl, by simp⟩

/-- A list has as many repeats as it has labels beyond the different ones. -/
theorem length_repeats_add_card (f : α → Option β) (l : List α) :
    (repeats f l).length + (l.filterMap f).toFinset.card = (l.filterMap f).length := by
  induction l using List.reverseRecOn with
  | nil => rfl
  | append_singleton l a ih =>
    simp only [repeats, List.length_map] at ih ⊢
    rw [markRepeats_append_singleton, List.filter_append, List.filterMap_append,
      List.length_append, List.length_append, List.toFinset_append]
    cases ha : f a with
    | none => simpa [ha] using ih
    | some b =>
      have hb : (l.any fun a' => f a' == some b) = decide (b ∈ l.filterMap f) :=
        Bool.eq_iff_iff.mpr (by simp [List.mem_filterMap])
      by_cases hmem : b ∈ l.filterMap f
      · have hins : (l.filterMap f).toFinset ∪ {b} = (l.filterMap f).toFinset :=
          Finset.union_eq_left.mpr (by simpa using hmem)
        simp only [hb, hmem, hins, Option.any_some, decide_true, List.filter_cons_of_pos,
          List.filter_nil, List.filterMap_cons_some ha, List.filterMap_nil, List.length_singleton,
          List.toFinset_cons, List.toFinset_nil, insert_empty_eq]
        omega
      · have hins : ((l.filterMap f).toFinset ∪ {b}).card = (l.filterMap f).toFinset.card + 1 := by
          rw [Finset.union_comm, ← Finset.insert_eq]
          exact Finset.card_insert_of_notMem (by simpa using hmem)
        simp only [hb, hmem, hins, Option.any_some, decide_false, List.filter_cons,
          Bool.false_eq_true, if_false, List.filter_nil, List.filterMap_cons_some ha,
          List.filterMap_nil, List.length_singleton, List.length_nil, List.toFinset_cons,
          List.toFinset_nil, insert_empty_eq]
        omega

/-- The number of repeats does not depend on the order. -/
theorem length_repeats_of_perm {γ : Type} {g : γ → Option β} {k : List γ}
    (h : (l.filterMap f).Perm (k.filterMap g)) : (repeats f l).length = (repeats g k).length := by
  have hl := length_repeats_add_card f l
  have hk := length_repeats_add_card g k
  rw [List.toFinset_eq_of_perm _ _ h, h.length_eq] at hl
  omega

end Repeats

/-! ### The order of a log -/

namespace Log

variable {m : Manifest}

theorem map_candidate_claims (m : Manifest) (cs : List Candidate) :
    (claims m cs).map Record.candidate = cs.filter fun c => (m.claimedBy? c).isSome := by
  induction cs using List.reverseRecOn with
  | nil => rfl
  | append_singleton cs c ih =>
    rw [claims_append_singleton, List.filter_append, ← ih]
    cases hc : m.claimedBy? c with
    | none => simp [claim_of_unheld hc, hc]
    | some h =>
      obtain ⟨s, asks, held⟩ := Manifest.claimedBy?_eq_some_iff.mp hc
      obtain ⟨r, rfl, -, hr, -⟩ := claim_of_held asks held (claims m cs)
      simp [hr, hc]

/-- The second pass adds one record for each candidate. -/
theorem exists_settles {ps : List Candidate} (hps : ∀ c ∈ ps, m.claimedBy? c = none) (l : Log) :
    ∃ k : Log, ps.foldl (settle m) l = l ++ k ∧ k.map Record.candidate = ps := by
  induction ps generalizing l with
  | nil => exact ⟨[], by simp, rfl⟩
  | cons c ps ih =>
    obtain ⟨r, rfl, -, hr⟩ := settle_of_unheld (hps c List.mem_cons_self) l
    obtain ⟨k, hk, hmap⟩ := ih (fun d hd => hps d (List.mem_cons_of_mem _ hd)) (l ++ [r])
    exact ⟨r :: k, by simp [hr, hk], by simp [hmap]⟩

theorem exists_run_eq (m : Manifest) (cs : List Candidate) :
    ∃ k : Log, run m cs = claims m cs ++ k ∧ k.map Record.candidate = m.unclaimed cs :=
  exists_settles (fun _ hc => (mem_unclaimed_iff.mp hc).2) _

/-- A run decides about every candidate once: in the first pass about those whose slot is held, in
the second about the others, each time in the order of the input. -/
theorem map_candidate_run (m : Manifest) (cs : List Candidate) :
    (run m cs).map Record.candidate =
      (cs.filter fun c => (m.claimedBy? c).isSome) ++ m.unclaimed cs := by
  obtain ⟨k, hrun, hk⟩ := exists_run_eq m cs
  rw [hrun, List.map_append, map_candidate_claims, hk]

theorem map_candidate_run_perm (m : Manifest) (cs : List Candidate) :
    ((run m cs).map Record.candidate).Perm cs := by
  rw [map_candidate_run, Manifest.unclaimed]
  simpa using List.filter_append_perm (fun c => (m.claimedBy? c).isSome) cs

/-- Whoever comes before a candidate whose slot is held has a slot that is held. -/
theorem held_of_held {cs : List Candidate} {k k' : Log} {r : Record}
    (hrun : run m cs = k ++ r :: k') (hr : (m.claimedBy? r.candidate).isSome) :
    ∀ q ∈ k, (m.claimedBy? q.candidate).isSome := by
  have hsorted : ((run m cs).map Record.candidate).Pairwise fun c d =>
      (m.claimedBy? d).isSome → (m.claimedBy? c).isSome := by
    rw [map_candidate_run, List.pairwise_append]
    refine ⟨List.pairwise_of_forall_mem_list fun c hc d _ _ => (List.mem_filter.mp hc).2,
      List.pairwise_of_forall_mem_list fun c _ d hd hheld => ?_, fun c hc _ _ _ =>
        (List.mem_filter.mp hc).2⟩
    rw [(mem_unclaimed_iff.mp hd).2] at hheld
    cases hheld
  rw [hrun, List.map_append, List.map_cons, List.pairwise_append] at hsorted
  exact fun q hq => hsorted.2.2 _ (List.mem_map_of_mem hq) _ List.mem_cons_self hr

end Log

/-! ### What is dropped -/

/-- A candidate that comes after a log is ousted from the slot that it asks for: no entry of the
manifest holds the slot and nobody asked for it before, but a candidate of the same namespace has
adopted an entry with this key from another namespace, and there is nothing left to adopt. -/
structure Ousted (m : Manifest) (l : Log) (c : Candidate) (s : Slot) : Prop where
  /-- The candidate asks for the slot. -/
  asks : c.slot? = some s
  /-- No entry holds the slot. -/
  unheld : m.owner? s = none
  /-- Nobody asked for it before. -/
  first : ∀ q ∈ l, q.candidate.slot? ≠ some s
  /-- An entry with this key has been moved to the namespace. -/
  moved : ∃ q ∈ l, ∃ e i, q.fate = .adopted e i ∧ q.candidate.ns = s.ns ∧ e.key = some s.key ∧
    e.ns ≠ s.ns
  /-- There is nothing to adopt. -/
  none_fits : ∀ i e, ¬ Adoptable m l c e i

namespace Log

variable {m : Manifest} {k : Log} {r : Record}

/-- An entry that was found before a candidate claims it was found by someone who asked for its
slot. -/
theorem Valid.asked_of_matched (h : Valid m k)
    (hheld : ∀ q ∈ k, (m.claimedBy? q.candidate).isSome) {s : Slot} {e : Entry} {i : Nat}
    (ho : m.owner? s = some (e, i)) (hi : i ∈ k.matched) : ∃ q ∈ k, q.candidate.slot? = some s := by
  obtain ⟨q, hq, hqi⟩ := mem_matched_iff.mp hi
  obtain ⟨k', step⟩ := h.step_of_mem hq
  have hclaimed := hheld q hq
  cases step with
  | @claimed c t e' j asks held free =>
    cases hqi
    obtain ⟨he, hslot, -⟩ := Manifest.owner?_eq_some_iff.mp ho
    obtain ⟨he', hslot', -⟩ := Manifest.owner?_eq_some_iff.mp held
    obtain rfl : e = e' := Option.some.inj (he.symm.trans he')
    exact ⟨_, hq, asks.trans (hslot'.symm.trans hslot)⟩
  | repeated => cases hqi
  | adopted unheld => simp [unheld] at hclaimed
  | added => cases hqi
  | crowded => cases hqi

/-- A slot that is taken although no entry holds it was asked for, or an entry was moved there. -/
theorem Valid.asked_or_moved (h : Valid m k) {s : Slot} (hs : s ∈ k.slots)
    (unheld : m.owner? s = none) :
    (∃ q ∈ k, q.candidate.slot? = some s) ∨
      ∃ q ∈ k, ∃ e i, q.fate = .adopted e i ∧ q.candidate.ns = s.ns ∧ e.key = some s.key ∧
        e.ns ≠ s.ns := by
  obtain ⟨q, hq, hqs⟩ := mem_slots_iff.mp hs
  obtain ⟨k', step⟩ := h.step_of_mem hq
  cases step with
  | @claimed c t e i asks held free =>
    obtain ⟨-, hslot, -⟩ := Manifest.owner?_eq_some_iff.mp held
    obtain rfl : t = s := Option.some.inj (hslot.symm.trans hqs)
    simp [unheld] at held
  | repeated => cases hqs
  | @adopted c e i _ fits first =>
    obtain ⟨key, hkey, rfl⟩ := Option.map_eq_some_iff.mp hqs
    refine .inr ⟨_, hq, e, i, rfl, rfl, hkey, fun hns => ?_⟩
    exact Manifest.owner?_eq_none_iff.mp unheld i e fits.entry (by simp [Entry.slot?, hkey, hns])
  | added => exact .inl ⟨_, hq, hqs⟩
  | crowded => cases hqs

/-- **What is dropped without being a repeat is ousted**, and what is ousted is dropped. -/
theorem dropped_iff {cs : List Candidate} {k' : Log} (hrun : run m cs = k ++ r :: k') :
    (r.fate = .dropped ∧ ¬ ∃ s, r.candidate.slot? = some s ∧ ∃ q ∈ k, q.candidate.slot? = some s) ↔
      ∃ s, Ousted m k r.candidate s := by
  obtain ⟨hvalid, step⟩ := (hrun ▸ valid_run m cs).split
  constructor
  · rintro ⟨hdropped, hnew⟩
    cases step with
    | claimed => cases hdropped
    | @repeated c s e i asks held found =>
      have hheld := held_of_held hrun (by simp [Manifest.claimedBy?, asks, held])
      exact absurd ⟨s, asks, hvalid.asked_of_matched hheld held found⟩ hnew
    | adopted => cases hdropped
    | added => cases hdropped
    | @crowded c s unheld none_fits asks taken =>
      have hfree := Manifest.claimedBy?_eq_none_iff.mp unheld s asks
      have hfirst : ∀ q ∈ k, q.candidate.slot? ≠ some s := fun q hq hqs =>
        hnew ⟨s, asks, q, hq, hqs⟩
      rcases hvalid.asked_or_moved taken hfree with ⟨q, hq, hqs⟩ | hmoved
      · exact absurd hqs (hfirst q hq)
      · exact ⟨s, asks, hfree, hfirst, hmoved, none_fits⟩
  · rintro ⟨s, asks, unheld, hfirst, ⟨q, hq, e, i, hfate, hns, hkey, -⟩, none_fits⟩
    have hnew : ¬ ∃ t, r.candidate.slot? = some t ∧ ∃ d ∈ k, d.candidate.slot? = some t := by
      rintro ⟨t, ht, d, hd, hdt⟩
      exact hfirst d hd (hdt.trans (ht.symm.trans asks))
    refine ⟨?_, hnew⟩
    have htaken : s ∈ k.slots :=
      mem_slots_iff.mpr ⟨q, hq, by simp [Record.slot?, hfate, hkey, hns]⟩
    cases step with
    | claimed asks' held =>
      obtain rfl := Option.some.inj (asks'.symm.trans asks)
      simp [unheld] at held
    | repeated => rfl
    | adopted _ fits => exact absurd fits (none_fits _ _)
    | added _ _ untaken => exact absurd htaken (untaken s asks)
    | crowded => rfl

/-! ### Counting -/

/-- The records of the candidates that were dropped. -/
def dropped (l : Log) : Log := l.filter fun r => r.fate = .dropped

/-- The records of the candidates that were dropped and repeat nothing. -/
def ousted (l : Log) : Log :=
  ((markRepeats (fun r => r.candidate.slot?) l).filter fun p =>
    decide (p.1.fate = .dropped) && !p.2).map Prod.fst

/-- The records of the candidates that are repeats and were kept. -/
def spared (l : Log) : Log :=
  ((markRepeats (fun r => r.candidate.slot?) l).filter fun p =>
    !decide (p.1.fate = .dropped) && p.2).map Prod.fst

theorem mem_ousted_iff {cs : List Candidate} :
    r ∈ (run m cs).ousted ↔
      ∃ k k' s, run m cs = k ++ r :: k' ∧ Ousted m k r.candidate s := by
  have hmem : r ∈ (run m cs).ousted ↔ ∃ k k', run m cs = k ++ r :: k' ∧ r.fate = .dropped ∧
      ¬ ∃ s, r.candidate.slot? = some s ∧ ∃ q ∈ k, q.candidate.slot? = some s := by
    simp only [ousted, List.mem_map, List.mem_filter, Bool.and_eq_true, decide_eq_true_eq,
      Bool.not_eq_true']
    constructor
    · rintro ⟨⟨q, x⟩, ⟨hx, hdropped, rfl⟩, rfl⟩
      obtain ⟨k, k', hrun, hnew⟩ := mem_markRepeats_iff.mp hx
      exact ⟨k, k', hrun, hdropped, by simpa [Option.any_eq_false] using hnew⟩
    · rintro ⟨k, k', hrun, hdropped, hnew⟩
      have hmark : (r, false) ∈ markRepeats (fun r => r.candidate.slot?) (run m cs) :=
        mem_markRepeats_iff.mpr ⟨k, k', hrun, by simpa [Option.any_eq_false] using hnew⟩
      exact ⟨(r, false), ⟨hmark, hdropped, rfl⟩, rfl⟩
  rw [hmem]
  constructor
  · rintro ⟨k, k', hrun, hdropped⟩
    obtain ⟨s, hs⟩ := (dropped_iff hrun).mp hdropped
    exact ⟨k, k', s, hrun, hs⟩
  · rintro ⟨k, k', s, hrun, hs⟩
    exact ⟨k, k', hrun, (dropped_iff hrun).mpr ⟨s, hs⟩⟩

/-- The dropped records and the spared ones are as many as the ousted ones and the repeats. -/
theorem length_dropped_add_spared (l : Log) :
    l.dropped.length + l.spared.length =
      l.ousted.length + (repeats (fun r => r.candidate.slot?) l).length := by
  have hdropped : l.dropped.length =
      ((markRepeats (fun r => r.candidate.slot?) l).filter fun p =>
        decide (p.1.fate = .dropped)).length := by
    conv_lhs => rw [← map_fst_markRepeats (f := fun r : Record => r.candidate.slot?) (l := l)]
    rw [dropped, List.filter_map, List.length_map]
    rfl
  rw [hdropped, spared, ousted, repeats]
  simp only [List.length_map]
  generalize markRepeats (fun r : Record => r.candidate.slot?) l = marks
  induction marks with
  | nil => rfl
  | cons p marks ih =>
    obtain ⟨r, x⟩ := p
    by_cases hr : r.fate = .dropped <;> cases x <;> simp [hr] at ih ⊢ <;> omega

theorem length_arranged_add_dropped (l : Log) :
    l.arranged.length + l.dropped.length = l.length := by
  rw [(arranged_perm l).length_eq, dropped]
  have hsplit := List.length_eq_length_filter_add (l := l) fun r => decide (r.fate ≠ .dropped)
  simp only [ne_eq, decide_not, Bool.not_not] at hsplit
  simp only [ne_eq, decide_not]
  exact hsplit.symm

end Log

/-- **What a run loses.** It keeps or drops every candidate, and it drops no more than the repeats
among them if and only if it ousts no more candidates than it spares repeats. A candidate that is
dropped repeats an earlier one or is ousted. -/
theorem observations_kept_iff (cs : List Candidate) (m : Manifest) (now : Instant) :
    let o := reconcile cs m now
    let kept := o.created.length + o.updated.length + o.unchanged.length
    let l := Log.run m cs
    l.map Record.candidate = (cs.filter fun c => (m.claimedBy? c).isSome) ++ m.unclaimed cs ∧
    kept + l.dropped.length = cs.length ∧
    (cs.length - (repeats Candidate.slot? cs).length ≤ kept ↔
      l.ousted.length ≤ l.spared.length) ∧
    (∀ r, r ∈ l.ousted ↔ ∃ k k' s, l = k ++ r :: k' ∧ Ousted m k r.candidate s) ∧
    ∀ k r k', l = k ++ r :: k' → r.fate = .dropped →
      (∃ s, r.candidate.slot? = some s ∧ ∃ q ∈ k, q.candidate.slot? = some s) ∨
        ∃ s, Ousted m k r.candidate s := by
  intro o kept l
  have hperm := Log.map_candidate_run_perm m cs
  have hkept : kept = l.arranged.length := by
    have hnext : o.unchanged ++ o.updated.map Update.entry ++ o.created =
        l.arranged.filterMap (Record.entry? now) := by
      simp only [o, l, reconcile_eq, map_entry_filter_isUpdated, Log.arranged,
        List.filterMap_append]
    have hlen := List.filterMap_length_eq_length.mpr fun r hr =>
      Log.isSome_entry?_of_mem_arranged (l := l) (r := r) hr now
    rw [← hlen, ← hnext]
    simp only [List.length_append, List.length_map, kept]
    omega
  have hall := Log.length_arranged_add_dropped l
  have hlen : l.length = cs.length := by simpa using hperm.length_eq
  have hrepeats : (repeats (fun r => r.candidate.slot?) l).length =
      (repeats Candidate.slot? cs).length :=
    length_repeats_of_perm (by simpa [List.filterMap_map] using hperm.filterMap Candidate.slot?)
  have hbalance := Log.length_dropped_add_spared l
  refine ⟨Log.map_candidate_run m cs, by omega, by omega, fun r => Log.mem_ousted_iff,
    fun k r k' hrun hdropped => ?_⟩
  by_cases hnew : ∃ s, r.candidate.slot? = some s ∧ ∃ q ∈ k, q.candidate.slot? = some s
  · exact .inl hnew
  · exact .inr ((Log.dropped_iff hrun).mp ⟨hdropped, hnew⟩)

/-- The second of two candidates is ousted by the first, which brings its key along. -/
theorem keyed_candidate_ousted :
    let m := nextManifest [.plain "a" (some "k") "X"] .fresh .epoch
    let cs : List Candidate := [.plain "b" none "X", .plain "b" (some "k") "Y"]
    let r : Record := ⟨.plain "b" (some "k") "Y", .dropped⟩
    r ∈ (Log.run m cs).ousted ∧
      ∃ k k' s, Log.run m cs = k ++ r :: k' ∧ Ousted m k r.candidate s := by
  intro m cs r
  have hr : r ∈ (Log.run m cs).ousted := by decide +kernel
  exact ⟨hr, ((observations_kept_iff cs m .epoch).2.2.2.1 r).mp hr⟩

/-- Two candidates of one namespace, one without a key and one with a key that the other one brings
along from elsewhere: nobody repeats anybody, and one of them is lost. -/
theorem adoption_ousts_keyed :
    let m := nextManifest [.plain "a" (some "k") "X"] .fresh .epoch
    let cs : List Candidate := [.plain "b" none "X", .plain "b" (some "k") "Y"]
    let o := reconcile cs m .epoch
    repeats Candidate.slot? cs = [] ∧
      o.created.length + o.updated.length + o.unchanged.length < cs.length := by
  decide +kernel

end KeyLedger
