import KeyLedger.Proofs.Reconcile.Idempotence
import Mathlib.Data.List.Find
import Mathlib.Data.List.Sigma

/-!
# Candidates that have settled

A first run against a fresh manifest leaves a manifest in which its candidates have *settled*: every
slot that is asked for is held, with the text of the candidate that asks for it first, and for every
content hash there are as many entries without a key as there are candidates without one. Every
further run of the same candidates finds all entries again, as they are, and leaves the candidates
settled, in whatever order the entries stood.

## Why the order does not matter

In a run of settled candidates the first pass finds all entries that have a key, so that only
entries without one are left for the second pass. Such an entry fits every candidate with its text,
and a candidate simply takes the first one that is free. Which of them it takes depends on the
order, but not how many are left: the free entries of a content hash are used up from the front, one
for each candidate.

## Main definitions

* `Log.free` — the entries of a content hash that are still free
* `Manifest.Settled` — the candidates have settled
* `Rescanned` — the manifests that further runs of the same candidates can reach

## Main results

* `Log.exists_adopts` — the second pass pairs candidates with free entries in order
* `Manifest.Settled.exists_run` — a run of settled candidates
* `Manifest.Settled.nextManifest` — it leaves them settled
* `rescans_find_everything` — every run after the first, in any order of the entries
-/

namespace KeyLedger

/-! ### Entries without a key -/

/-- The entry has a given content hash and no key. -/
def Entry.keylessWith (g : String) (e : Entry) : Bool :=
  e.key.isNone && decide (e.contentHash = g)

/-- The candidate has a text with a given content hash and asks for no slot. -/
def Candidate.keylessWith (g : String) (c : Candidate) : Bool :=
  c.slot?.isNone && decide (Digest.contentHash c.text = g)

theorem Entry.keylessWith_iff {g : String} {e : Entry} :
    e.keylessWith g = true ↔ e.key = none ∧ e.contentHash = g := by
  simp [keylessWith]

theorem Entry.slot?_eq_none_iff {e : Entry} : e.slot? = none ↔ e.key = none :=
  Option.map_eq_none_iff

/-- The entry that a candidate was found to be, with its index. -/
def Record.found? (r : Record) : Option (Entry × Nat) :=
  match r.fate with
  | .claimed e i => some (e, i)
  | .adopted e i => some (e, i)
  | .added => none
  | .dropped => none

theorem Record.map_snd_found? (r : Record) : r.found?.map Prod.snd = r.index? := by
  obtain ⟨c, f⟩ := r
  cases f <;> rfl

namespace Log

variable {m : Manifest} {l : Log}

/-- The entries with a given content hash that nobody was found to be, in the order of the
manifest. -/
def free (m : Manifest) (g : String) (l : Log) : List (Entry × Nat) :=
  m.entries.zipIdx.filter fun p => decide (p.1.contentHash = g ∧ p.2 ∉ l.matched)

/-- No entry that is free has a key. -/
def FreeKeyless (m : Manifest) (l : Log) : Prop :=
  ∀ i e, m.entries[i]? = some e → i ∉ l.matched → e.key = none

theorem FreeKeyless.append (h : FreeKeyless m l) (k : Log) : FreeKeyless m (l ++ k) := by
  intro i e he hi
  rw [matched_append, List.mem_append, not_or] at hi
  exact h i e he hi.1

theorem mem_free_iff {g : String} {e : Entry} {i : Nat} :
    (e, i) ∈ l.free m g ↔ m.entries[i]? = some e ∧ e.contentHash = g ∧ i ∉ l.matched := by
  rw [free, List.mem_filter, List.mk_mem_zipIdx_iff_getElem?, decide_eq_true_eq]

/-- A candidate adopts the first entry with its text that is free, if free entries have no key. -/
theorem FreeKeyless.adoptable?_eq (h : FreeKeyless m l) (c : Candidate) :
    l.adoptable? m c = (l.free m (Digest.contentHash c.text)).head? := by
  rw [free, List.head?_filter, adoptable?, Progress.adoptable?]
  refine List.find?_congr fun p hp => Bool.eq_iff_iff.mpr ?_
  obtain ⟨e, i⟩ := p
  have he := List.mk_mem_zipIdx_iff_getElem?.mp hp
  have hadopt : i ∉ l.matched →
      Progress.canAdopt m ⟨l.matched, l.slots, [], [], []⟩ e i c.ns = true := by
    intro hi
    simp [Progress.canAdopt, h i e he hi]
  by_cases hi : i ∈ l.matched
  · simp [hi]
  · simp [hi, hadopt hi]

/-- An entry that is found is no longer free; all others stay so. -/
theorem free_append_of_index {r : Record} {i : Nat} (hr : r.index? = some i) (g : String) :
    free m g (l ++ [r]) = (l.free m g).filter fun p => p.2 ≠ i := by
  rw [free, free, List.filter_filter]
  refine List.filter_congr fun p _ => ?_
  have hmatched : matched (l ++ [r]) = l.matched ++ [i] := by simp [matched, hr]
  simp only [hmatched, List.mem_append, List.mem_singleton, not_or, ← Bool.decide_and]
  refine decide_eq_decide.mpr ?_
  tauto

/-- The first free entry of a content hash is taken, and the rest stays. -/
theorem free_append_adopted {c : Candidate} {e : Entry} {i : Nat} {rest : List (Entry × Nat)}
    (h : l.free m (Digest.contentHash c.text) = (e, i) :: rest) (g : String) :
    free m g (l ++ [⟨c, .adopted e i⟩]) =
      if Digest.contentHash c.text = g then rest else l.free m g := by
  rw [free_append_of_index rfl]
  have hfirst : (e, i) ∈ l.free m (Digest.contentHash c.text) := h ▸ List.mem_cons_self
  obtain ⟨he, hhash, -⟩ := mem_free_iff.mp hfirst
  split
  · next hg =>
    have hnodup : (((e, i) :: rest).map Prod.snd).Nodup := by
      rw [← h, free]
      exact (List.nodup_zipIdx_map_snd m.entries).sublist (List.filter_sublist.map _)
    have hrest : ∀ p ∈ rest, p.2 ≠ i := fun p hp hpi =>
      (List.nodup_cons.mp hnodup).1 (List.mem_map.mpr ⟨p, hp, hpi⟩)
    rw [← hg, h, List.filter_cons_of_neg (by simp), List.filter_eq_self.mpr]
    simpa using hrest
  · next hg =>
    refine List.filter_eq_self.mpr fun ⟨b, j⟩ hb => ?_
    obtain ⟨hget, hbg, -⟩ := mem_free_iff.mp hb
    have hne : j ≠ i := by
      rintro rfl
      obtain rfl : e = b := Option.some.inj (he.symm.trans hget)
      exact hg (hhash.symm.trans hbg)
    simpa using hne

/-- **The second pass pairs candidates with free entries in order.** If free entries have no key and
there are enough of them for every content hash, then every candidate adopts one, and the entries of
a content hash are adopted from the front. -/
theorem exists_adopts {ps : List Candidate} (hfree : FreeKeyless m l)
    (henough : ∀ g, ps.countP (fun c => Digest.contentHash c.text = g) ≤ (l.free m g).length) :
    ∃ k : Log, ps.foldl (settle m) l = l ++ k ∧ k.map Record.candidate = ps ∧
      (∀ r ∈ k, ∃ e i, r.fate = .adopted e i) ∧
      ∀ g, (k.filter fun r => Digest.contentHash r.candidate.text = g).filterMap Record.found? ++
        free m g (l ++ k) = l.free m g := by
  induction ps generalizing l with
  | nil => exact ⟨[], by simp, rfl, by simp, by simp⟩
  | cons c ps ih =>
    have hcount := henough (Digest.contentHash c.text)
    cases hc : l.free m (Digest.contentHash c.text) with
    | nil => simp [hc] at hcount
    | cons p rest =>
      obtain ⟨e, i⟩ := p
      have hsettle : l.settle m c = l ++ [⟨c, .adopted e i⟩] := by
        simp [settle, hfree.adoptable?_eq, hc]
      have hleft := free_append_adopted hc
      obtain ⟨k, hk, hmap, hall, hpairs⟩ := ih (hfree.append [⟨c, .adopted e i⟩]) fun g => by
        have := henough g
        rw [List.countP_cons] at this
        rw [hleft]
        split
        · next hg =>
          subst hg
          simp [hc] at this
          omega
        · next hg => simpa [hg] using this
      refine ⟨⟨c, .adopted e i⟩ :: k, ?_, by simp [hmap], ?_, fun g => ?_⟩
      · rw [List.foldl_cons, hsettle, hk, List.append_assoc]
        rfl
      · intro r hr
        rcases List.mem_cons.mp hr with rfl | hr
        · exact ⟨e, i, rfl⟩
        · exact hall r hr
      · have hg := hpairs g
        rw [List.append_assoc, hleft] at hg
        by_cases hcg : Digest.contentHash c.text = g
        · subst hcg
          rw [if_pos rfl] at hg
          simpa [List.filter_cons, Record.found?, hc] using hg
        · rw [if_neg hcg] at hg
          simpa [List.filter_cons, hcg] using hg

/-- The first pass claims the entry that holds the slot of a candidate for the first who asks for
it, or drops the candidate. -/
theorem claimed_or_dropped_of_mem_claims {cs : List Candidate} {r : Record} (hr : r ∈ claims m cs) :
    (∃ c s e i, r = ⟨c, .claimed e i⟩ ∧ m.entries[i]? = some e ∧ e.slot? = some s ∧
      cs.find? (fun d => d.slot? == some s) = some c) ∨ r.fate = .dropped := by
  have hheld := (held_of_mem_claims hr).2
  obtain ⟨k, step⟩ := (valid_claims m cs).step_of_mem hr
  cases step with
  | claimed =>
    obtain ⟨s, ho, hfind⟩ := claimed_mem_claims_iff.mp hr
    obtain ⟨he, hs, -⟩ := Manifest.owner?_eq_some_iff.mp ho
    exact .inl ⟨_, s, _, _, rfl, he, hs, hfind⟩
  | repeated => exact .inr rfl
  | adopted unheld => simp [unheld] at hheld
  | added unheld => simp [unheld] at hheld
  | crowded => exact .inr rfl

end Log

/-! ### Runs without orphans -/

theorem orphans_matched_run (cs : List Candidate) (m : Manifest) (now : Instant) :
    m.orphans (Log.run m cs).matched = (reconcile cs m now).orphaned := by
  rw [reconcile_eq]

section NoOrphans

variable {m : Manifest} {cs : List Candidate} {now : Instant}

/-- Without orphans every entry of the next manifest goes back to a candidate. -/
theorem exists_record_of_mem_nextManifest (h : (reconcile cs m now).orphaned = []) {e : Entry}
    (he : e ∈ (nextManifest cs m now).entries) :
    ∃ r ∈ Log.run m cs, r.entry? now = some e := by
  rw [nextManifest_eq, orphans_matched_run cs m now, h, List.append_nil] at he
  obtain ⟨r, hr, hre⟩ := List.mem_filterMap.mp he
  exact ⟨r, (List.mem_filter.mp ((Log.arranged_perm _).mem_iff.mp hr)).1, hre⟩

/-- The entries without a key that a run leaves for a content hash, if it leaves no orphans. -/
theorem countP_keylessWith_nextManifest (h : (reconcile cs m now).orphaned = []) (g : String) :
    (nextManifest cs m now).entries.countP (Entry.keylessWith g) =
      (Log.run m cs).countP fun r => r.slot?.isNone && decide (r.fate ≠ .dropped) &&
        decide (Digest.contentHash r.candidate.text = g) := by
  have hperm := Log.filterMap_arranged_perm (f := Record.entry? now)
    (fun r hr => by simp [Record.entry?, hr]) (Log.run m cs)
  rw [nextManifest_eq, orphans_matched_run cs m now, h, List.append_nil, hperm.countP_eq,
    List.countP_filterMap]
  refine List.countP_congr fun r _ => ?_
  obtain ⟨c, f⟩ := r
  cases f <;> simp [Record.entry?, Record.slot?, Entry.keylessWith, Entry.seenAs,
    Entry.ofCandidate, Entry.slot?, Candidate.slot?]

end NoOrphans

/-! ### Settled candidates -/

namespace Manifest

/-- The candidates have settled in the manifest. -/
structure Settled (m : Manifest) (cs : List Candidate) : Prop where
  /-- No two entries hold one slot. -/
  unique : m.SlotUnique
  /-- A slot that is held is asked for, and it has the text of the candidate that asks first. -/
  asked : ∀ e ∈ m.entries, ∀ s, e.slot? = some s →
    ∃ c, cs.find? (fun d => d.slot? == some s) = some c ∧ e.contentHash = Digest.contentHash c.text
  /-- A slot that is asked for is held. -/
  held : ∀ c ∈ cs, ∀ s, c.slot? = some s → ∃ e ∈ m.entries, e.slot? = some s
  /-- There are as many entries without a key as candidates, for every content hash. -/
  keyless : ∀ g, m.entries.countP (Entry.keylessWith g) = cs.countP (Candidate.keylessWith g)

namespace Settled

variable {m n : Manifest} {cs : List Candidate}

/-- Whether candidates have settled does not depend on the order of the entries. -/
theorem of_perm (hp : m.entries.Perm n.entries) (h : m.Settled cs) : n.Settled cs where
  unique := h.unique.of_perm hp
  asked e he := h.asked e (hp.mem_iff.mpr he)
  held c hc s hs := by
    obtain ⟨e, he, hes⟩ := h.held c hc s hs
    exact ⟨e, hp.mem_iff.mp he, hes⟩
  keyless g := by rw [← hp.countP_eq, h.keyless g]

theorem faithful (h : m.Settled cs) : m.Faithful cs := by
  intro s e i c ho hfind
  obtain ⟨he, hes, -⟩ := owner?_eq_some_iff.mp ho
  obtain ⟨c', hfind', hhash⟩ := h.asked e (List.mem_of_getElem? he) s hes
  rw [hfind] at hfind'
  cases hfind'
  exact hhash

/-- Only candidates that ask for no slot wait for the second pass. -/
theorem unclaimed_eq (h : m.Settled cs) : m.unclaimed cs = cs.filter fun c => c.slot?.isNone := by
  refine List.filter_congr fun c hc => ?_
  cases hs : c.slot? with
  | none => simp [claimedBy?, hs]
  | some s =>
    obtain ⟨e, he, hes⟩ := h.held c hc s hs
    obtain ⟨i, hi⟩ := List.mem_iff_getElem?.mp he
    have hclaimed : m.claimedBy? c = some (e, i) :=
      claimedBy?_eq_some_iff.mpr ⟨s, hs, h.unique.owner? hi hes⟩
    simp [hclaimed]

/-- The first pass finds exactly the entries that have a key. -/
theorem mem_matched_claims_iff (h : m.Settled cs) {i : Nat} {e : Entry}
    (he : m.entries[i]? = some e) : i ∈ (Log.claims m cs).matched ↔ e.key ≠ none := by
  constructor
  · intro hi hkey
    obtain ⟨r, hr, hri⟩ := Log.mem_matched_iff.mp hi
    rcases Log.claimed_or_dropped_of_mem_claims hr with ⟨c, s, e', i', rfl, he', hes, -⟩ | hf
    · cases hri
      obtain rfl := Option.some.inj (he.symm.trans he')
      simp [Entry.slot?, hkey] at hes
    · simp [Record.index?, hf] at hri
  · intro hkey
    obtain ⟨s, hs⟩ := Option.ne_none_iff_exists'.mp (mt Entry.slot?_eq_none_iff.mp hkey)
    obtain ⟨c, hfind, -⟩ := h.asked e (List.mem_of_getElem? he) s hs
    exact (Log.mem_matched_claims_iff cs (h.unique.owner? he hs)).mpr
      ⟨c, List.mem_of_find?_eq_some hfind, by simpa using List.find?_some hfind⟩

theorem free_claims (h : m.Settled cs) (g : String) :
    (Log.claims m cs).free m g = m.entries.zipIdx.filter fun p => p.1.keylessWith g := by
  refine List.filter_congr fun ⟨e, i⟩ hp => Bool.eq_iff_iff.mpr ?_
  have hi := h.mem_matched_claims_iff (List.mk_mem_zipIdx_iff_getElem?.mp hp)
  rw [decide_eq_true_eq, Entry.keylessWith_iff, hi, not_not]
  exact and_comm

theorem length_free_claims (h : m.Settled cs) (g : String) :
    ((Log.claims m cs).free m g).length =
      (m.unclaimed cs).countP fun c => Digest.contentHash c.text = g := by
  rw [h.free_claims, ← List.countP_eq_length_filter, h.unclaimed_eq, List.countP_filter]
  have hfst : m.entries.zipIdx.countP (fun p => p.1.keylessWith g) =
      m.entries.countP (Entry.keylessWith g) := by
    conv_rhs => rw [← List.zipIdx_map_fst 0 m.entries, List.countP_map]
    rfl
  rw [hfst, h.keyless]
  refine List.countP_congr fun c _ => ?_
  simp [Candidate.keylessWith, and_comm]

/-- **A run of settled candidates**: after the first pass every candidate that is left adopts an
entry without a key, and the entries of a content hash are adopted in their order until none is
left. -/
theorem exists_run (h : m.Settled cs) :
    ∃ k : Log, Log.run m cs = Log.claims m cs ++ k ∧
      k.map Record.candidate = cs.filter (fun c => c.slot?.isNone) ∧
      (∀ r ∈ k, ∃ e i, r.fate = .adopted e i ∧ e.key = none) ∧
      ∀ g, (k.filter fun r => Digest.contentHash r.candidate.text = g).filterMap Record.found? =
        m.entries.zipIdx.filter fun p => p.1.keylessWith g := by
  have hfree : Log.FreeKeyless m (Log.claims m cs) := by
    intro i e he hi
    by_contra hkey
    exact hi ((h.mem_matched_claims_iff he).mpr hkey)
  obtain ⟨k, hrun, hmap, hall, hpairs⟩ :=
    Log.exists_adopts hfree fun g => (h.length_free_claims g).ge
  have hfound : ∀ g, (k.filter fun r => Digest.contentHash r.candidate.text = g).filterMap
      Record.found? = m.entries.zipIdx.filter fun p => p.1.keylessWith g := by
    intro g
    have hlength : ((k.filter fun r => Digest.contentHash r.candidate.text = g).filterMap
        Record.found?).length = ((Log.claims m cs).free m g).length := by
      rw [List.filterMap_length_eq_length.mpr, ← List.countP_eq_length_filter,
        h.length_free_claims, ← hmap, List.countP_map]
      · rfl
      · intro r hr
        obtain ⟨e, i, hf⟩ := hall r (List.mem_filter.mp hr).1
        simp [Record.found?, hf]
    have hnil := congrArg List.length (hpairs g)
    rw [List.length_append, hlength, Nat.add_eq_left, List.length_eq_zero_iff] at hnil
    rw [← h.free_claims, ← hpairs g, hnil, List.append_nil]
  refine ⟨k, hrun, hmap.trans h.unclaimed_eq, fun r hr => ?_, hfound⟩
  obtain ⟨e, i, hf⟩ := hall r hr
  have hmem : (e, i) ∈ (k.filter fun q => Digest.contentHash q.candidate.text =
      Digest.contentHash r.candidate.text).filterMap Record.found? :=
    List.mem_filterMap.mpr ⟨r, List.mem_filter.mpr ⟨hr, by simp⟩, by simp [Record.found?, hf]⟩
  rw [hfound] at hmem
  exact ⟨e, i, hf, (Entry.keylessWith_iff.mp (List.mem_filter.mp hmem).2).1⟩

/-! ### What such a run leaves -/

/-- Every entry is found. -/
theorem mem_matched_run (h : m.Settled cs) {i : Nat} {e : Entry} (he : m.entries[i]? = some e) :
    i ∈ (Log.run m cs).matched := by
  obtain ⟨k, hrun, -, -, hpairs⟩ := h.exists_run
  rw [hrun, Log.matched_append, List.mem_append]
  by_cases hkey : e.key = none
  · have hmem : (e, i) ∈ (k.filter fun r => Digest.contentHash r.candidate.text =
        e.contentHash).filterMap Record.found? := by
      rw [hpairs]
      exact List.mem_filter.mpr ⟨List.mk_mem_zipIdx_iff_getElem?.mpr he,
        Entry.keylessWith_iff.mpr ⟨hkey, rfl⟩⟩
    obtain ⟨r, hr, hfound⟩ := List.mem_filterMap.mp hmem
    refine .inr (Log.mem_matched_iff.mpr ⟨r, (List.mem_filter.mp hr).1, ?_⟩)
    rw [← r.map_snd_found?, hfound]
    rfl
  · exact .inl ((h.mem_matched_claims_iff he).mpr hkey)

theorem orphaned_eq_nil (h : m.Settled cs) (now : Instant) :
    (reconcile cs m now).orphaned = [] := by
  rw [reconcile_eq]
  refine List.map_eq_nil_iff.mpr (List.filter_eq_nil_iff.mpr fun ⟨e, i⟩ hp => ?_)
  have hi := h.mem_matched_run (List.mk_mem_zipIdx_iff_getElem?.mp hp)
  simpa using hi

theorem updated_eq_nil (h : m.Settled cs) (now : Instant) : (reconcile cs m now).updated = [] :=
  (updated_eq_nil_iff cs m now).mpr h.faithful

theorem created_eq_nil (h : m.Settled cs) (now : Instant) : (reconcile cs m now).created = [] := by
  have hadded : ∀ r ∈ Log.run m cs, r.isAdded = false := by
    obtain ⟨k, hrun, -, hall, -⟩ := h.exists_run
    intro r hr
    rw [hrun, List.mem_append] at hr
    rcases hr with hr | hr
    · have hnone := List.countP_eq_zero.mp
        (Log.added_claims m cs (Digest.contentHash r.candidate.text)) r hr
      simpa using hnone
    · obtain ⟨e, i, hf, -⟩ := hall r hr
      simp [Record.isAdded, hf]
  rw [reconcile_eq]
  refine List.filterMap_eq_nil_iff.mpr fun r hr => ?_
  obtain ⟨hr, hr'⟩ := List.mem_filter.mp hr
  rw [hadded r hr] at hr'
  cases hr'

/-- All entries are found as they are. -/
theorem length_unchanged (h : m.Settled cs) (now : Instant) :
    (reconcile cs m now).unchanged.length = m.entries.length := by
  have hvalid := Log.valid_run m cs
  have hall := hvalid.length_matched_add_orphans
  have hmatched := (Log.matched_perm (Log.run m cs)).length_eq
  have hupdated := (hvalid.forall₂_updated now).length_eq
  have hunchanged := (hvalid.forall₂_unchanged now).length_eq
  have hnone := h.updated_eq_nil now
  simp only [reconcile_eq] at hnone ⊢
  rw [orphans_matched_run cs m now, h.orphaned_eq_nil, List.length_nil] at hall
  rw [hnone, List.length_nil] at hupdated
  rw [List.length_append] at hmatched
  omega

theorem entries_nextManifest (h : m.Settled cs) (now : Instant) :
    (KeyLedger.nextManifest cs m now).entries = (reconcile cs m now).unchanged := by
  simp [KeyLedger.nextManifest, Outcome.assemble, h.created_eq_nil, h.updated_eq_nil,
    h.orphaned_eq_nil]

end Settled

/-- A claim is no entry without a key. -/
theorem countP_keyless_claims (m : Manifest) (cs : List Candidate) (g : String) :
    (Log.claims m cs).countP (fun r => r.slot?.isNone && decide (r.fate ≠ .dropped) &&
      decide (Digest.contentHash r.candidate.text = g)) = 0 := by
  refine List.countP_eq_zero.mpr fun r hr hkept => ?_
  rcases Log.claimed_or_dropped_of_mem_claims hr with ⟨c, s, e, i, rfl, -, hs, -⟩ | hf
  · simp [Record.slot?, hs] at hkept
  · simp [hf] at hkept

/-- **A run leaves settled candidates settled.** -/
theorem Settled.nextManifest {m : Manifest} {cs : List Candidate} (h : m.Settled cs)
    (now : Instant) : (KeyLedger.nextManifest cs m now).Settled cs := by
  obtain ⟨k, hrun, hmap, hall, -⟩ := h.exists_run
  have hslots : ∀ r ∈ k, r.slot? = none := by
    intro r hr
    obtain ⟨e, i, hf, hkey⟩ := hall r hr
    simp [Record.slot?, hf, hkey]
  refine ⟨h.unique.nextManifest cs now, fun e he s hs => ?_, fun c hc s hs => ?_, fun g => ?_⟩
  · obtain ⟨r, hr, hre⟩ := exists_record_of_mem_nextManifest (h.orphaned_eq_nil now) he
    have hrs : r.slot? = some s := by rw [← r.entry?_bind_slot? now, hre, Option.bind_some, hs]
    rw [hrun, List.mem_append] at hr
    rcases hr with hr | hr
    · rcases Log.claimed_or_dropped_of_mem_claims hr with ⟨c, s', e', i, rfl, -, hes, hfind⟩ | hf
      · cases hre
        obtain rfl := Option.some.inj (hes.symm.trans hs)
        exact ⟨c, hfind, rfl⟩
      · simp [Record.entry?, hf] at hre
    · rw [hslots r hr] at hrs
      cases hrs
  · obtain ⟨e, he, hes⟩ := h.held c hc s hs
    obtain ⟨i, hi⟩ := List.mem_iff_getElem?.mp he
    have htaken := Log.slot_mem_run_of_held (h.unique.owner? hi hes) hc hs
    obtain ⟨⟨e', j⟩, ho⟩ :=
      Option.ne_none_iff_exists'.mp (Log.owner?_nextManifest_ne_none htaken now)
    obtain ⟨he', hes', -⟩ := owner?_eq_some_iff.mp ho
    exact ⟨e', List.mem_of_getElem? he', hes'⟩
  · rw [countP_keylessWith_nextManifest (h.orphaned_eq_nil now), hrun, List.countP_append,
      countP_keyless_claims, Nat.zero_add]
    calc k.countP _ = (k.map Record.candidate).countP fun c => Digest.contentHash c.text = g := by
          rw [List.countP_map]
          refine List.countP_congr fun r hr => ?_
          obtain ⟨e, i, hf, -⟩ := hall r hr
          simp [hslots r hr, hf]
      _ = cs.countP (Candidate.keylessWith g) := by
          rw [hmap, List.countP_filter]
          refine List.countP_congr fun c _ => ?_
          simp [Candidate.keylessWith, and_comm]

/-! ### The first run -/

/-- A run against a manifest without entries adds a candidate or drops it. -/
theorem added_or_dropped_of_entries_eq_nil {m : Manifest} (hm : m.entries = []) {l : Log}
    {r : Record} (step : l.Step m r) :
    r.fate = .added ∨ r.fate = .dropped ∧ r.candidate.slot? ≠ none := by
  have unheld : ∀ s, m.owner? s = none := fun s => owner?_eq_none_iff.mpr (by simp [hm])
  cases step with
  | claimed _ held => simp [unheld] at held
  | repeated _ held => simp [unheld] at held
  | adopted _ fits => simpa [hm] using fits.entry
  | added => exact .inl rfl
  | crowded _ _ asks => exact .inr ⟨rfl, by simp [asks]⟩

/-- **A first run settles its candidates.** -/
theorem settled_nextManifest_of_entries_eq_nil {m : Manifest} (hm : m.entries = [])
    (cs : List Candidate) (now : Instant) : (KeyLedger.nextManifest cs m now).Settled cs := by
  have unique : m.SlotUnique := by
    rw [SlotUnique, hm]
    exact List.nodup_nil
  have hfate : ∀ r ∈ Log.run m cs,
      r.fate = .added ∨ r.fate = .dropped ∧ r.candidate.slot? ≠ none := by
    intro r hr
    obtain ⟨l, step⟩ := (Log.valid_run m cs).step_of_mem hr
    exact added_or_dropped_of_entries_eq_nil hm step
  have hcandidate : ∀ r ∈ Log.run m cs, r.candidate ∈ cs := fun r hr =>
    (Log.map_candidate_run_perm m cs).mem_iff.mp (List.mem_map_of_mem hr)
  have horphaned : (reconcile cs m now).orphaned = [] := by
    rw [reconcile_eq]
    simp [Manifest.orphans, hm]
  have hfirst : ∀ c ∈ cs, ∀ s, c.slot? = some s →
      ∃ d, cs.find? (fun d => d.slot? == some s) = some d ∧
        ∃ e i, (KeyLedger.nextManifest cs m now).owner? s = some (e, i) ∧
          e.contentHash = Digest.contentHash d.text := by
    intro c hc s hs
    have hsome : (cs.find? fun d => d.slot? == some s).isSome :=
      List.find?_isSome.mpr ⟨c, hc, by simp [hs]⟩
    obtain ⟨d, hfind⟩ := Option.isSome_iff_exists.mp hsome
    have hds : d.slot? = some s := by simpa using List.find?_some hfind
    exact ⟨d, hfind, Log.exists_owner? unique (Log.added_of_find? hm hfind) hds now⟩
  refine ⟨unique.nextManifest cs now, fun e he s hs => ?_, fun c hc s hs => ?_, fun g => ?_⟩
  · obtain ⟨i, hi⟩ := List.mem_iff_getElem?.mp he
    have ho := (unique.nextManifest cs now).owner? hi hs
    obtain ⟨r, hr, hre⟩ := exists_record_of_mem_nextManifest horphaned he
    have hrs : r.candidate.slot? = some s := by
      rcases hfate r hr with hf | ⟨hf, -⟩
      · rw [← hs, ← Option.bind_some e Entry.slot?, ← hre, r.entry?_bind_slot?, Record.slot?, hf]
      · simp [Record.entry?, hf] at hre
    obtain ⟨d, hfind, e', i', ho', hhash⟩ := hfirst _ (hcandidate r hr) s hrs
    rw [ho] at ho'
    cases ho'
    exact ⟨d, hfind, hhash⟩
  · obtain ⟨d, -, e, i, ho, -⟩ := hfirst c hc s hs
    obtain ⟨he, hes, -⟩ := owner?_eq_some_iff.mp ho
    exact ⟨e, List.mem_of_getElem? he, hes⟩
  · rw [countP_keylessWith_nextManifest horphaned,
      ← (Log.map_candidate_run_perm m cs).countP_eq, List.countP_map]
    refine List.countP_congr fun r hr => ?_
    rcases hfate r hr with hf | ⟨hf, hs⟩
    · simp [Record.slot?, hf, Candidate.keylessWith]
    · simp [hf, Candidate.keylessWith, hs]

end Manifest

/-! ### Run after run -/

/-- The manifests that can be reached from a first one by further runs of the same candidates, where
the entries may be put in another order before each run. -/
inductive Rescanned (cs : List Candidate) (first : Manifest) : Manifest → Prop
  /-- No further run. -/
  | first : Rescanned cs first first
  /-- One more run. -/
  | again {m n : Manifest} (init : Rescanned cs first m) (reordered : n.entries.Perm m.entries)
      (now : Instant) : Rescanned cs first (nextManifest cs n now)

/-- Candidates stay settled, and the number of entries stays the same. -/
theorem Rescanned.settled {cs : List Candidate} {first m : Manifest} (h : Rescanned cs first m)
    (hfirst : first.Settled cs) :
    m.Settled cs ∧ m.entries.length = first.entries.length := by
  induction h with
  | first => exact ⟨hfirst, rfl⟩
  | @again m n _ reordered now ih =>
    obtain ⟨hm, hlength⟩ := ih
    have hn : n.Settled cs := hm.of_perm reordered.symm
    refine ⟨hn.nextManifest now, ?_⟩
    rw [hn.entries_nextManifest, hn.length_unchanged, reordered.length_eq, hlength]

/-- **Settling from a fresh start.** After a first run against a fresh manifest, every further run
of the same candidates, in any order of the entries and at any time, creates, updates and orphans
nothing, and finds as many entries as the first run has made. -/
theorem rescans_find_everything (cs : List Candidate) (t₀ : Instant) (m : Manifest)
    (h : Rescanned cs (nextManifest cs .fresh t₀) m) (n : Manifest)
    (reordered : n.entries.Perm m.entries) (now : Instant) :
    let o := reconcile cs n now
    o.created = [] ∧ o.updated = [] ∧ o.orphaned = [] ∧
      o.unchanged.length = (nextManifest cs .fresh t₀).entries.length := by
  intro o
  obtain ⟨hm, hlength⟩ := h.settled (Manifest.settled_nextManifest_of_entries_eq_nil rfl cs t₀)
  have hn : n.Settled cs := hm.of_perm reordered.symm
  refine ⟨hn.created_eq_nil now, hn.updated_eq_nil now, hn.orphaned_eq_nil now, ?_⟩
  rw [hn.length_unchanged, reordered.length_eq, hlength]

/-- Three candidates, two of them without a key and with the same text, are run three times, the
entries being turned around each time. -/
theorem rescans_find_everything_reversed :
    let cs : List Candidate :=
      [.plain "b" none "X", .plain "a" (some "k") "X", .plain "a" none "X"]
    let m := nextManifest cs .fresh .epoch
    let n := nextManifest cs { m with entries := m.entries.reverse } .epoch
    let o := reconcile cs { n with entries := n.entries.reverse } .epoch
    Rescanned cs m n ∧ m.entries.length = 3 ∧
      o.created = [] ∧ o.updated = [] ∧ o.orphaned = [] ∧ o.unchanged.length = 3 := by
  intro cs m n o
  have hrescanned : Rescanned cs m n :=
    .again (n := { m with entries := m.entries.reverse }) .first (List.reverse_perm _) .epoch
  have hlength : m.entries.length = 3 := by decide +kernel
  obtain ⟨hcreated, hupdated, horphaned, hunchanged⟩ :=
    rescans_find_everything cs .epoch n hrescanned { n with entries := n.entries.reverse }
      (List.reverse_perm _) .epoch
  exact ⟨hrescanned, hlength, hcreated, hupdated, horphaned, hunchanged.trans hlength⟩

end KeyLedger
