import KeyLedger.Proofs.Reconcile.Lineage
import KeyLedger.Proofs.Reconcile.Rescan
import Mathlib.Data.List.Pairwise

/-!
# Keys come first

A candidate whose key is held in the manifest is the entry that holds it, whatever else the run is
given: the first pass is over before anything is adopted, and in it only a candidate that asks for
the same slot earlier can be in the way. So the entry stays under its key, and what is recorded of
it is the place and the text of that one candidate.

It follows that the places of such candidates in the input do not matter either, as long as no two
of them ask for one slot. The first pass then claims one entry for each of them, and the second pass
sees of the first only which entries were found and which slots are taken.

## What the second pass reads

`Log.Alike` says that two logs agree in what the second pass reads of them. Alike logs are continued
by the same records (`Log.Alike.exists_settles`), so that two runs with the same candidates left
over differ only in their first passes.

## Main definitions

* `Manifest.KeyMatches` — a candidate whose key is held in the manifest
* `Log.Alike` — logs that the second pass cannot tell apart

## Main results

* `first_asker_is_entry` — what becomes of an entry whose key is asked for
* `Log.claims_eq_filterMap` — the first pass for candidates that ask for different slots
* `Log.Alike.exists_settles` — alike logs are continued alike
* `keyed_positions_immaterial` — keyed candidates may stand anywhere
-/

namespace KeyLedger

/-! ### The entry under a key -/

namespace Log

variable {m : Manifest} {l : Log}

/-- No two records take one slot. -/
theorem Valid.eq_of_slot (h : Valid m l) {r q : Record} (hr : r ∈ l) (hq : q ∈ l) {s : Slot}
    (hrs : r.slot? = some s) (hqs : q.slot? = some s) : r = q := by
  have hpair := List.pairwise_filterMap.mp h.slots_nodup
  have : Std.Symm fun a b : Record => ∀ u, a.slot? = some u → ∀ v, b.slot? = some v → u ≠ v :=
    ⟨fun a b hab u hu v hv => (hab v hv u hu).symm⟩
  by_contra hne
  exact hpair.forall hr hq hne s hrs s hqs rfl

end Log

section Outcome

variable {cs : List Candidate} {m : Manifest} {now : Instant}

theorem mem_unchanged_iff {e : Entry} : e ∈ (reconcile cs m now).unchanged ↔
    ∃ r ∈ Log.run m cs, r.isUnchanged = true ∧ r.entry? now = some e := by
  simp only [reconcile_eq, List.mem_filterMap, List.mem_filter, and_assoc]

theorem mem_updated_iff {u : Update} : u ∈ (reconcile cs m now).updated ↔
    ∃ r ∈ Log.run m cs, r.isUpdated = true ∧ r.update? now = some u := by
  simp only [reconcile_eq, List.mem_filterMap, List.mem_filter, and_assoc]

theorem mem_matched_reconcile_iff {i : Nat} :
    i ∈ (reconcile cs m now).matched ↔ i ∈ (Log.run m cs).matched :=
  (matched_reconcile_perm cs m now).mem_iff

/-- What a run has found or made is no orphan. -/
theorem Record.status_entry?_ne_orphaned {r : Record} {e : Entry} (h : r.entry? now = some e) :
    e.status ≠ .orphaned := by
  obtain ⟨c, f⟩ := r
  cases f with
  | claimed e₀ i =>
    cases h
    exact Status.revived_ne_orphaned e₀.status
  | adopted e₀ i =>
    cases h
    exact Status.revived_ne_orphaned e₀.status
  | added =>
    cases h
    show Status.extracted ≠ .orphaned
    decide
  | dropped => cases h

/-- An orphan of the next manifest is an entry that was not found. -/
theorem exists_of_orphan_mem_nextManifest {e : Entry} (he : e ∈ (nextManifest cs m now).entries)
    (hstatus : e.status = .orphaned) :
    ∃ (i : Nat) (e₀ : Entry), m.entries[i]? = some e₀ ∧ e₀.slot? = e.slot? ∧
      i ∉ (Log.run m cs).matched := by
  rw [nextManifest_eq] at he
  rcases List.mem_append.mp he with he | he
  · obtain ⟨r, -, hr⟩ := List.mem_filterMap.mp he
    exact absurd hstatus (Record.status_entry?_ne_orphaned hr)
  · obtain ⟨⟨e₀, i⟩, hp, rfl⟩ := List.mem_map.mp he
    obtain ⟨hp, hi⟩ := List.mem_filter.mp hp
    exact ⟨i, e₀, List.mk_mem_zipIdx_iff_getElem?.mp hp, rfl, by simpa using hi⟩

end Outcome

/-- **The first candidate that asks for a key is the entry under it.** Let an entry be the first
that holds a slot, and a candidate the first that asks for the slot, wherever it stands. Then the
entry is found, with the place and the text of the candidate: it is updated if the text is another
one, and else unchanged. No orphan holds the slot afterwards, unless two entries held it before. -/
theorem first_asker_is_entry {m : Manifest} {now : Instant} {ns key : String} {e : Entry} {i : Nat}
    (hentry : m.entries[i]? = some e) (hholds : e.ns = ns ∧ e.key = some key)
    (hfirst : ∀ j < i, ∀ b, m.entries[j]? = some b → ¬ (b.ns = ns ∧ b.key = some key))
    {before after : List Candidate} {c : Candidate} (hasks : c.ns = ns ∧ c.keyHint = some key)
    (hbefore : ∀ b ∈ before, ¬ (b.ns = ns ∧ b.keyHint = some key)) :
    let o := reconcile (before ++ c :: after) m now
    let found : Entry :=
      { file := c.loc.file, ns, key := some key, tag := c.tag
        status := if e.status = .orphaned then .extracted else e.status
        contentHash := Digest.contentHash c.text, fingerprint := e.fingerprint
        start := c.loc.start, stop := c.loc.stop, lastSeen := now, lastCommit := e.lastCommit }
    i ∈ o.matched ∧
    (⟨e, found⟩ ∈ o.updated ↔ Digest.contentHash c.text ≠ e.contentHash) ∧
    (found ∈ o.unchanged ↔ Digest.contentHash c.text = e.contentHash) ∧
    (m.SlotUnique → ∀ e' ∈ (nextManifest (before ++ c :: after) m now).entries,
      e'.status = .orphaned → ¬ (e'.ns = ns ∧ e'.key = some key)) := by
  intro o found
  have hslot : e.slot? = some ⟨ns, key⟩ := Entry.slot?_eq_some_iff.mpr hholds
  have howner : m.owner? ⟨ns, key⟩ = some (e, i) := by
    refine Manifest.owner?_eq_some_iff.mpr ⟨hentry, hslot, fun j hj b hb hbs => ?_⟩
    exact hfirst j hj b hb (Entry.slot?_eq_some_iff.mp hbs)
  have hfind : (before ++ c :: after).find? (fun d => d.slot? == some ⟨ns, key⟩) = some c := by
    have hnone : before.find? (fun d => d.slot? == some ⟨ns, key⟩) = none := by
      refine List.find?_eq_none.mpr fun b hb hbs => hbefore b hb ?_
      exact Candidate.slot?_eq_some_iff.mp (beq_iff_eq.mp hbs)
    have hc : c.slot? = some ⟨ns, key⟩ := Candidate.slot?_eq_some_iff.mpr hasks
    rw [List.find?_append, hnone, Option.none_or, List.find?_cons, hc, beq_self_eq_true]
  have hvalid := Log.valid_run m (before ++ c :: after)
  -- the record of the candidate carries all of the claim; no other record has its slot
  let r : Record := ⟨c, .claimed e i⟩
  have hr : r ∈ Log.run m (before ++ c :: after) :=
    Log.claimed_mem_run_iff.mpr ⟨_, howner, hfind⟩
  have hfound : e.seenAs c now = found := by
    obtain ⟨rfl, hkey⟩ := hholds
    simp only [Entry.seenAs, found, hkey]
    cases e.status <;> rfl
  have honly : ∀ q ∈ Log.run m (before ++ c :: after), q.entry? now = some found → q = r := by
    intro q hq hqfound
    have hqs : q.slot? = some ⟨ns, key⟩ := by
      rw [← q.entry?_bind_slot? now, hqfound]
      rfl
    exact hvalid.eq_of_slot hq hr hqs hslot
  have hmatched : i ∈ (Log.run m (before ++ c :: after)).matched :=
    Log.mem_matched_iff.mpr ⟨r, hr, rfl⟩
  refine ⟨mem_matched_reconcile_iff.mpr hmatched, ?_, ?_, ?_⟩
  · rw [mem_updated_iff]
    constructor
    · rintro ⟨⟨d, f⟩, hq, hupdated, hupdate⟩
      cases f with
      | claimed e₀ j =>
        have hentry? : Record.entry? now ⟨d, .claimed e₀ j⟩ = some found :=
          congrArg (Option.map Update.entry) hupdate
        obtain hqr := honly _ hq hentry?
        rw [hqr] at hupdated
        simpa [r, Record.isUpdated] using hupdated
      | adopted => cases hupdate
      | added => cases hupdate
      | dropped => cases hupdate
    · intro hhash
      refine ⟨r, hr, by simpa [r, Record.isUpdated] using hhash, ?_⟩
      show some (Update.mk e (e.seenAs c now)) = _
      rw [hfound]
  · rw [mem_unchanged_iff]
    constructor
    · rintro ⟨q, hq, hunchanged, hqfound⟩
      rw [honly q hq hqfound] at hunchanged
      simpa [r, Record.isUnchanged] using hunchanged
    · intro hhash
      exact ⟨r, hr, by simpa [r, Record.isUnchanged] using hhash, congrArg some hfound⟩
  · intro hunique e' he' hstatus hholds'
    obtain ⟨j, e₀, he₀, hslot₀, hj⟩ := exists_of_orphan_mem_nextManifest he' hstatus
    rw [Entry.slot?_eq_some_iff.mpr hholds'] at hslot₀
    exact hj (hunique.eq_of_slot hentry he₀ hslot hslot₀ ▸ hmatched)

/-- A candidate without a key comes first and has the text of the entry, an orphan whose key is
asked for afterwards: the entry goes to the second candidate all the same. -/
theorem keyed_entry_outlives_earlier_text :
    let m := nextManifest [] (nextManifest [.plain "a" (some "k") "X"] .fresh .epoch) .epoch
    let cs : List Candidate := [.plain "a" none "X", .plain "a" (some "k") "Y"]
    let e : Entry :=
      { Entry.ofCandidate (.plain "a" (some "k") "X") .epoch with status := .orphaned }
    m.entries[0]? = some e ∧ m.SlotUnique ∧
      0 ∈ (reconcile cs m .epoch).matched ∧
      ⟨e, Entry.ofCandidate (.plain "a" (some "k") "Y") .epoch⟩ ∈ (reconcile cs m .epoch).updated ∧
      ∀ e' ∈ (nextManifest cs m .epoch).entries, e'.status = .orphaned →
        ¬ (e'.ns = "a" ∧ e'.key = some "k") := by
  intro m cs e
  have hentry : m.entries[0]? = some e := by decide +kernel
  have hunique : m.SlotUnique := by decide +kernel
  have hholds : e.ns = "a" ∧ e.key = some "k" := by decide +kernel
  have hbefore : ∀ b ∈ [Candidate.plain "a" none "X"], ¬ (b.ns = "a" ∧ b.keyHint = some "k") := by
    decide +kernel
  obtain ⟨hmatched, hupdated, -, horphans⟩ :
      _ ∧ (⟨e, _⟩ ∈ (reconcile cs m .epoch).updated ↔ _) ∧ _ :=
    first_asker_is_entry hentry hholds (fun j hj => absurd hj (Nat.not_lt_zero j))
      (show (Candidate.plain "a" (some "k") "Y").ns = "a" ∧ _ by decide +kernel) hbefore
  exact ⟨hentry, hunique, hmatched, hupdated.mpr (by decide +kernel), horphans hunique⟩

/-! ### The first pass -/

namespace Manifest

variable {m : Manifest} {c : Candidate}

/-- A candidate has a key, and the manifest has an entry with its namespace and its key. -/
def KeyMatches (m : Manifest) (c : Candidate) : Prop :=
  ∃ key, c.keyHint = some key ∧ ∃ e ∈ m.entries, e.ns = c.ns ∧ e.key = some key

theorem isSome_claimedBy?_iff : (m.claimedBy? c).isSome ↔ m.KeyMatches c := by
  constructor
  · intro h
    obtain ⟨⟨e, i⟩, hc⟩ := Option.isSome_iff_exists.mp h
    obtain ⟨⟨ns, key⟩, hs, ho⟩ := claimedBy?_eq_some_iff.mp hc
    obtain ⟨rfl, hkey⟩ := Candidate.slot?_eq_some_iff.mp hs
    obtain ⟨he, hslot, -⟩ := owner?_eq_some_iff.mp ho
    exact ⟨key, hkey, e, List.mem_of_getElem? he, Entry.slot?_eq_some_iff.mp hslot⟩
  · rintro ⟨key, hkey, e, he, hholds⟩
    by_contra hnone
    rw [Bool.not_eq_true, Option.isSome_eq_false_iff, Option.isNone_iff_eq_none] at hnone
    have hs : c.slot? = some ⟨c.ns, key⟩ := Candidate.slot?_eq_some_iff.mpr ⟨rfl, hkey⟩
    obtain ⟨i, hi⟩ := List.mem_iff_getElem?.mp he
    have hslot : e.slot? = some ⟨c.ns, key⟩ := Entry.slot?_eq_some_iff.mpr hholds
    exact owner?_eq_none_iff.mp (claimedBy?_eq_none_iff.mp hnone _ hs) i e hi hslot

instance (m : Manifest) : DecidablePred m.KeyMatches := fun _ =>
  decidable_of_iff _ isSome_claimedBy?_iff

/-- The record of a candidate that claims the entry under its key. -/
def claim? (m : Manifest) (c : Candidate) : Option Record :=
  (m.claimedBy? c).map fun h => ⟨c, .claimed h.1 h.2⟩

end Manifest

namespace Log

variable {m : Manifest} {cs : List Candidate}

/-- **Candidates that ask for different slots do not get in each other's way**: each claims the
entry that holds its slot. -/
theorem claims_eq_filterMap (hdistinct : (cs.filter (m.KeyMatches ·)).Pairwise
      fun a b => a.slot? ≠ b.slot?) : claims m cs = cs.filterMap m.claim? := by
  induction cs using List.reverseRecOn with
  | nil => rfl
  | append_singleton cs c ih =>
    rw [List.filter_append, List.pairwise_append] at hdistinct
    obtain ⟨hinit, -, hlast⟩ := hdistinct
    rw [claims_append_singleton, List.filterMap_append, ← ih hinit]
    cases hc : m.claimedBy? c with
    | none => simp [claim_of_unheld hc, Manifest.claim?, hc]
    | some h =>
      obtain ⟨e, i⟩ := h
      obtain ⟨s, asks, held⟩ := Manifest.claimedBy?_eq_some_iff.mp hc
      have hmatches : m.KeyMatches c := Manifest.isSome_claimedBy?_iff.mp (by simp [hc])
      have hfree : i ∉ (claims m cs).matched := by
        intro hi
        obtain ⟨b, hb, hbs⟩ := (mem_matched_claims_iff cs held).mp hi
        have hb' : m.KeyMatches b := by
          rw [← Manifest.isSome_claimedBy?_iff, Manifest.claimedBy?_eq_some_iff.mpr ⟨s, hbs, held⟩]
          rfl
        exact hlast b (List.mem_filter.mpr ⟨hb, decide_eq_true hb'⟩) c
          (List.mem_filter.mpr ⟨List.mem_singleton_self c, decide_eq_true hmatches⟩)
          (hbs.trans asks.symm)
      simp [claim, Manifest.claim?, hc, hfree]

/-! ### The second pass -/

/-- Two logs in which the same entries were found and the same slots are taken. -/
structure Alike (l k : Log) : Prop where
  /-- The same entries were found. -/
  matched : ∀ i, i ∈ l.matched ↔ i ∈ k.matched
  /-- The same slots are taken. -/
  slots : ∀ s, s ∈ l.slots ↔ s ∈ k.slots

variable {l k : Log}

theorem Alike.of_perm (h : l.Perm k) : Alike l k where
  matched _ := (h.filterMap Record.index?).mem_iff
  slots _ := (h.filterMap Record.slot?).mem_iff

theorem Alike.append (h : Alike l k) (t : Log) : Alike (l ++ t) (k ++ t) where
  matched i := by rw [matched_append, matched_append, List.mem_append, List.mem_append, h.matched]
  slots s := by rw [slots_append, slots_append, List.mem_append, List.mem_append, h.slots]

theorem Alike.adoptable?_eq (h : Alike l k) (c : Candidate) :
    l.adoptable? m c = k.adoptable? m c := by
  have hmatched : ∀ i, l.matched.contains i = k.matched.contains i := by
    intro i
    rw [Bool.eq_iff_iff, List.contains_iff_mem, List.contains_iff_mem, h.matched]
  have hslots : ∀ s, l.slots.contains s = k.slots.contains s := by
    intro s
    rw [Bool.eq_iff_iff, List.contains_iff_mem, List.contains_iff_mem, h.slots]
  simp only [adoptable?, Progress.adoptable?, Progress.canAdopt, hmatched, hslots]

/-- After alike logs the second pass decides alike. -/
theorem Alike.exists_settle (h : Alike l k) (c : Candidate) :
    ∃ r, l.settle m c = l ++ [r] ∧ k.settle m c = k ++ [r] := by
  have hslots : c.slot?.any l.slots.contains = c.slot?.any k.slots.contains := by
    cases c.slot? with
    | none => rfl
    | some s => simp [h.slots]
  rw [settle, settle, h.adoptable?_eq, hslots]
  cases k.adoptable? m c with
  | none => exact ⟨_, rfl, rfl⟩
  | some a => exact ⟨_, rfl, rfl⟩

/-- **Alike logs are continued by the same records.** -/
theorem Alike.exists_settles (h : Alike l k) (ps : List Candidate) :
    ∃ t, ps.foldl (settle m) l = l ++ t ∧ ps.foldl (settle m) k = k ++ t := by
  induction ps generalizing l k with
  | nil => exact ⟨[], by simp, by simp⟩
  | cons c ps ih =>
    obtain ⟨r, hl, hk⟩ := h.exists_settle (m := m) c
    obtain ⟨t, hlt, hkt⟩ := ih (h.append [r])
    exact ⟨r :: t, by simp [hl, hlt], by simp [hk, hkt]⟩

end Log

/-! ### Positions -/

section Positions

variable {m : Manifest} {cs₁ cs₂ : List Candidate}

theorem filterMap_claim?_filter (cs : List Candidate) :
    (cs.filter (m.KeyMatches ·)).filterMap m.claim? = cs.filterMap m.claim? := by
  rw [List.filterMap_filter]
  refine List.filterMap_congr fun c _ => ?_
  by_cases hc : m.KeyMatches c
  · rw [if_pos (decide_eq_true hc)]
  · have hnone : m.claimedBy? c = none := by
      rw [← Option.not_isSome_iff_eq_none, Manifest.isSome_claimedBy?_iff]
      exact hc
    simp [hc, Manifest.claim?, hnone]

theorem unclaimed_eq_filter (cs : List Candidate) :
    m.unclaimed cs = cs.filter (¬ m.KeyMatches ·) := by
  refine List.filter_congr fun c _ => ?_
  rw [Bool.eq_iff_iff, decide_eq_true_iff, ← Manifest.isSome_claimedBy?_iff]
  simp

/-- Two runs differ in their first passes only, and there only in the order. -/
theorem exists_runs (hrest : cs₁.filter (¬ m.KeyMatches ·) = cs₂.filter (¬ m.KeyMatches ·))
    (hperm : (cs₁.filter (m.KeyMatches ·)).Perm (cs₂.filter (m.KeyMatches ·)))
    (hdistinct : (cs₁.filter (m.KeyMatches ·)).Pairwise fun a b => a.slot? ≠ b.slot?) :
    ∃ l₁ l₂ t : Log, l₁.Perm l₂ ∧ Log.run m cs₁ = l₁ ++ t ∧ Log.run m cs₂ = l₂ ++ t ∧
      ∀ r ∈ l₁, r.isAdded = false := by
  have hdistinct₂ := hperm.pairwise hdistinct fun {a b} hab => Ne.symm hab
  have hclaims : (Log.claims m cs₁).Perm (Log.claims m cs₂) := by
    rw [Log.claims_eq_filterMap hdistinct, Log.claims_eq_filterMap hdistinct₂,
      ← filterMap_claim?_filter, ← filterMap_claim?_filter cs₂]
    exact hperm.filterMap _
  obtain ⟨t, h₁, h₂⟩ := (Log.Alike.of_perm hclaims).exists_settles (m := m) (m.unclaimed cs₁)
  refine ⟨_, _, t, hclaims, h₁, ?_, fun r hr => ?_⟩
  · rw [unclaimed_eq_filter, hrest, ← unclaimed_eq_filter] at h₂
    exact h₂
  · rw [Log.claims_eq_filterMap hdistinct] at hr
    obtain ⟨c, -, hc⟩ := List.mem_filterMap.mp hr
    obtain ⟨h, -, rfl⟩ := Option.map_eq_some_iff.mp hc
    rfl

/-- **Keyed candidates may stand anywhere.** Let two inputs have the same candidates whose key is
held in the manifest, no two of them with one namespace and key, and the same other candidates in
the same order. Then both runs find the same entries, create the same entries in the same order and
leave the same orphans; what they have updated and what is unchanged differs in the order only. -/
theorem keyed_positions_immaterial
    (hrest : cs₁.filter (¬ m.KeyMatches ·) = cs₂.filter (¬ m.KeyMatches ·))
    (hperm : (cs₁.filter (m.KeyMatches ·)).Perm (cs₂.filter (m.KeyMatches ·)))
    (hdistinct : (cs₁.filter (m.KeyMatches ·)).Pairwise
      fun a b => (a.ns, a.keyHint) ≠ (b.ns, b.keyHint)) (now : Instant) :
    let o₁ := reconcile cs₁ m now
    let o₂ := reconcile cs₂ m now
    o₁.matched = o₂.matched ∧ o₁.created = o₂.created ∧ o₁.orphaned = o₂.orphaned ∧
      o₁.updated.Perm o₂.updated ∧ o₁.unchanged.Perm o₂.unchanged := by
  intro o₁ o₂
  have hslots : (cs₁.filter (m.KeyMatches ·)).Pairwise fun a b => a.slot? ≠ b.slot? := by
    refine hdistinct.imp_of_mem fun {a b} ha _ hab heq => hab ?_
    obtain ⟨key, hkey, -⟩ := of_decide_eq_true (List.mem_filter.mp ha).2
    have hb : b.slot? = some ⟨a.ns, key⟩ :=
      heq.symm.trans (Candidate.slot?_eq_some_iff.mpr ⟨rfl, hkey⟩)
    obtain ⟨hns, hbkey⟩ := Candidate.slot?_eq_some_iff.mp hb
    rw [hns, hbkey, hkey]
  obtain ⟨l₁, l₂, t, hlogs, h₁, h₂, hclaims⟩ := exists_runs hrest hperm hslots
  have hruns : (Log.run m cs₁).Perm (Log.run m cs₂) := by
    rw [h₁, h₂]
    exact hlogs.append_right t
  have hmatched : o₁.matched = o₂.matched := by
    have hsame := (matched_reconcile_perm cs₁ m now).trans
      ((hruns.filterMap Record.index?).trans (matched_reconcile_perm cs₂ m now).symm)
    refine hsame.eq_of_pairwise (fun a b _ _ hab hba => ?_)
      (matched_reconcile_ascending cs₁ m now) (matched_reconcile_ascending cs₂ m now)
    exact absurd hab (Nat.lt_asymm hba)
  have hcreated : o₁.created = o₂.created := by
    have hnone₁ : l₁.filter Record.isAdded = [] :=
      List.filter_eq_nil_iff.mpr fun r hr => by simp [hclaims r hr]
    have hnone₂ : l₂.filter Record.isAdded = [] :=
      List.filter_eq_nil_iff.mpr fun r hr => by simp [hclaims r (hlogs.mem_iff.mpr hr)]
    simp only [o₁, o₂, reconcile_eq, h₁, h₂, List.filter_append, hnone₁, hnone₂]
  refine ⟨hmatched, hcreated, ?_, ?_, ?_⟩
  · show o₁.orphaned = o₂.orphaned
    rw [orphaned_reconcile cs₁ m now, orphaned_reconcile cs₂ m now]
    exact congrArg m.orphans hmatched
  · simp only [o₁, o₂, reconcile_eq]
    exact (hruns.filter _).filterMap _
  · simp only [o₁, o₂, reconcile_eq]
    exact (hruns.filter _).filterMap _

/-- Two keyed candidates change places with each other and with one that has no key, whose text is
that of an entry under another key. -/
theorem keyed_positions_immaterial_of_three :
    let m := nextManifest [.plain "a" (some "j") "X", .plain "a" (some "k") "Y",
      .plain "b" (some "l") "Z"] .fresh .epoch
    let first : List Candidate :=
      [.plain "a" (some "j") "Y", .plain "a" none "Z", .plain "a" (some "k") "X"]
    let second : List Candidate :=
      [.plain "a" none "Z", .plain "a" (some "k") "X", .plain "a" (some "j") "Y"]
    first.filter (¬ m.KeyMatches ·) = second.filter (¬ m.KeyMatches ·) ∧
      (first.filter (m.KeyMatches ·)).Perm (second.filter (m.KeyMatches ·)) ∧
      (reconcile first m .epoch).updated.Perm (reconcile second m .epoch).updated ∧
      (reconcile first m .epoch).matched = (reconcile second m .epoch).matched := by
  intro m first second
  have hrest : first.filter (¬ m.KeyMatches ·) = second.filter (¬ m.KeyMatches ·) := by
    decide +kernel
  have hperm : (first.filter (m.KeyMatches ·)).Perm (second.filter (m.KeyMatches ·)) := by
    decide +kernel
  obtain ⟨hmatched, -, -, hupdated, -⟩ :=
    keyed_positions_immaterial hrest hperm (by decide +kernel) .epoch
  exact ⟨hrest, hperm, hupdated, hmatched⟩

end Positions

end KeyLedger
