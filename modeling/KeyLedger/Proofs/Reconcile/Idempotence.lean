import KeyLedger.Proofs.Reconcile.Rescan
import KeyLedger.Report
import Mathlib.Data.Fintype.EquivFin

/-!
# When a second run is clean

A second run of the same candidates is *clean* if it neither creates nor updates anything. It is
clean whatever the candidates are as long as the manifest has no entries, and as soon as there is
one entry, there are candidates for which it is not.

## Two ways to break it

Let the manifest have an entry with a key. Candidates without a key, in a namespace of their own,
can bring that key there, and a last candidate that asks for it has another text. If no entry has a
key, then the first of two candidates that ask for the same slot finds an entry to adopt, and leaves
the slot to the second, which has another text. Both times the second run finds a slot with a text
that is not the one of the candidate that asks for it first. The candidates that come before are
there to use up the entries that would get in the way, and there are more of them than entries.

## The balance

For given candidates the question is settled by a count. What a second run creates for a content
hash is what the first run has dropped and the second has not, and what the second run orphans and
the first has not.

## Main definitions

* `Outcome.Clean` — nothing is created or updated
* `Entry.Observed` — an entry that goes back to candidates

## Main results

* `created_add_dropped` — the balance
* `clean_of_entries_eq_nil` — no entries, and the second run is clean
* `exists_not_faithful` — one entry, and there are candidates that break it
* `rescan_clean_iff` — all of this, over all manifests that runs can reach
* `rescan_moves_keyed` — two runs with the same candidates that differ
-/

namespace KeyLedger

/-- Nothing is created or updated. -/
structure Outcome.Clean (o : Outcome) : Prop where
  /-- Nothing is created. -/
  created : o.created = []
  /-- Nothing is updated. -/
  updated : o.updated = []

/-! ### The balance -/

/-- Whether the entry with a given index has a given content hash. -/
def Manifest.hashAt (m : Manifest) (g : String) (i : Nat) : Bool :=
  (m.entries[i]?).any fun e => e.contentHash = g

theorem Manifest.countP_hashAt {m : Manifest} {zs : List (Entry × Nat)}
    (hzs : zs ⊆ m.entries.zipIdx) (g : String) :
    (zs.map Prod.snd).countP (m.hashAt g) = entriesWith g (zs.map Prod.fst) := by
  rw [entriesWith, List.countP_map, List.countP_map]
  refine List.countP_congr fun z hz => ?_
  have hget := List.mk_mem_zipIdx_iff_getElem?.mp (hzs hz)
  simp [hashAt, hget]

namespace Log

variable {m : Manifest} {cs : List Candidate} {l : Log}

/-- The records of the candidates that were found to be an entry. -/
def found (l : Log) : Log := l.filter fun r => r.index?.isSome

theorem candidatesWith_run (m : Manifest) (cs : List Candidate) (g : String) :
    (run m cs).candidatesWith g = cs.countP fun c => Digest.contentHash c.text = g := by
  rw [← (map_candidate_run_perm m cs).countP_eq, List.countP_map]
  rfl

/-- A candidate is found, becomes a new entry or is dropped. -/
theorem candidatesWith_eq (g : String) (l : Log) :
    l.candidatesWith g = l.found.candidatesWith g + l.added g + l.dropped.candidatesWith g := by
  simp only [candidatesWith, found, dropped, added, List.countP_filter]
  induction l with
  | nil => rfl
  | cons r l ih =>
    obtain ⟨c, f⟩ := r
    by_cases hg : Digest.contentHash c.text = g <;> cases f <;>
      simp [Record.index?, Record.isAdded, hg] at ih ⊢ <;> omega

/-- An entry has the text of its candidate. -/
theorem entriesWith_filterMap (now : Instant) (g : String) (l : Log) :
    entriesWith g (l.filterMap (Record.entry? now)) = l.found.candidatesWith g + l.added g := by
  have hsplit : l.candidatesWith g =
      entriesWith g (l.filterMap (Record.entry? now)) + l.dropped.candidatesWith g := by
    simp only [candidatesWith, entriesWith, dropped, List.countP_filter, List.countP_filterMap]
    induction l with
    | nil => rfl
    | cons r l ih =>
      obtain ⟨c, f⟩ := r
      by_cases hg : Digest.contentHash c.text = g <;> cases f <;>
        simp [Record.entry?, Entry.seenAs, Entry.ofCandidate, hg] at ih ⊢ <;> omega
  have := candidatesWith_eq g l
  omega

/-- The entries that were found and those that were not, if they were found with the same text. -/
theorem Valid.entriesWith_entries (h : Valid m l) (same : ∀ r ∈ l, r.isUpdated = false)
    (g : String) :
    entriesWith g m.entries = l.found.candidatesWith g + entriesWith g (m.orphans l.matched) := by
  have hall : (List.range m.entries.length).countP (m.hashAt g) = entriesWith g m.entries := by
    have hcount := Manifest.countP_hashAt (List.Subset.refl m.entries.zipIdx) g
    rwa [List.zipIdx_map_fst, List.zipIdx_map_snd, ← List.range_eq_range'] at hcount
  have hrest : ((List.range m.entries.length).filter fun i => !l.matched.contains i).countP
      (m.hashAt g) = entriesWith g (m.orphans l.matched) := by
    rw [← Manifest.map_snd_filter_zipIdx, Manifest.countP_hashAt (List.filter_subset_self _),
      Manifest.orphans, entriesWith, entriesWith, List.countP_map, List.countP_map]
    rfl
  have hfound : l.matched.countP (m.hashAt g) = l.found.candidatesWith g := by
    rw [candidatesWith, found, List.countP_filter, matched, List.countP_filterMap]
    refine List.countP_congr fun r hr => ?_
    obtain ⟨c, f⟩ := r
    cases f with
    | claimed e i =>
      have hhash : Digest.contentHash c.text = e.contentHash := by
        simpa [Record.isUpdated] using same _ hr
      simp [Record.index?, Manifest.hashAt, h.entry_of_claimed hr, hhash]
    | adopted e i =>
      obtain ⟨he, hhash⟩ := h.entry_of_adopted hr rfl
      simp [Record.index?, Manifest.hashAt, he, hhash]
    | added => simp [Record.index?]
    | dropped => simp [Record.index?]
  rw [← hall, ← hrest, ← hfound, ← h.matched_append_rest.countP_eq, List.countP_append]

end Log

theorem entriesWith_nextManifest (cs : List Candidate) (m : Manifest) (now : Instant)
    (g : String) :
    entriesWith g (nextManifest cs m now).entries =
      (Log.run m cs).found.candidatesWith g + (Log.run m cs).added g +
        entriesWith g (reconcile cs m now).orphaned := by
  have hperm := Log.filterMap_arranged_perm (f := Record.entry? now)
    (fun r hr => by simp [Record.entry?, hr]) (Log.run m cs)
  rw [← Log.entriesWith_filterMap now, nextManifest_eq, reconcile_eq]
  simp only [entriesWith, List.countP_append, hperm.countP_eq]

/-- **The balance of two runs.** If the second one updates nothing, then for every content hash it
makes up for what only the first has dropped, and for what only the second orphans. -/
theorem created_add_dropped {cs : List Candidate} {m : Manifest} {t₁ t₂ : Instant}
    (h : (reconcile cs (nextManifest cs m t₁) t₂).updated = []) (g : String) :
    entriesWith g (reconcile cs (nextManifest cs m t₁) t₂).created +
        (Log.run (nextManifest cs m t₁) cs).dropped.candidatesWith g +
        entriesWith g (reconcile cs m t₁).orphaned =
      (Log.run m cs).dropped.candidatesWith g +
        entriesWith g (reconcile cs (nextManifest cs m t₁) t₂).orphaned := by
  have hnext := entriesWith_nextManifest cs m t₁ g
  have hentries := (Log.valid_run (nextManifest cs m t₁) cs).entriesWith_entries
    (updated_eq_nil_iff_forall.mp h) g
  have hfirst := Log.candidatesWith_eq g (Log.run m cs)
  have hsecond := Log.candidatesWith_eq g (Log.run (nextManifest cs m t₁) cs)
  rw [Log.candidatesWith_run] at hfirst hsecond
  have horphaned : (reconcile cs (nextManifest cs m t₁) t₂).orphaned =
      (nextManifest cs m t₁).orphans (Log.run (nextManifest cs m t₁) cs).matched := by
    rw [reconcile_eq]
  rw [entriesWith_created, horphaned]
  omega

/-! ### Without entries -/

namespace Log

variable {m : Manifest} {cs : List Candidate} {r : Record} {s : Slot}

/-- The slot that a run has taken for a candidate is held with the text of that candidate. -/
theorem exists_owner? (unique : m.SlotUnique) (hr : r ∈ run m cs) (hs : r.slot? = some s)
    (now : Instant) : ∃ e i, (nextManifest cs m now).owner? s = some (e, i) ∧
      e.contentHash = Digest.contentHash r.candidate.text := by
  have hkept : r.fate ≠ .dropped := by
    intro hf
    rw [Record.slot?, hf] at hs
    cases hs
  have hmem : r ∈ (run m cs).arranged :=
    (arranged_perm _).mem_iff.mpr (List.mem_filter.mpr ⟨hr, by simpa using hkept⟩)
  obtain ⟨i, hi⟩ := List.mem_iff_getElem?.mp hmem
  obtain ⟨e, he, hget⟩ := getElem?_nextManifest hi now
  have hslot : e.slot? = some s := by
    rw [← hs, ← r.entry?_bind_slot? now, he, Option.bind_some]
  exact ⟨e, i, (unique.nextManifest cs now).owner? hget hslot, Record.contentHash_entry? he⟩

/-- A run of candidates whose slots are not held decides about them in their order. -/
theorem map_candidate_run_of_unheld (unheld : ∀ c ∈ cs, m.claimedBy? c = none) :
    (run m cs).map Record.candidate = cs := by
  rw [map_candidate_run, Manifest.unclaimed,
    List.filter_eq_nil_iff.mpr fun c hc => by simp [unheld c hc], List.nil_append,
    List.filter_eq_self.mpr fun c hc => by simp [unheld c hc]]

/-- Whoever asks for a slot first gets it, if there are no entries. -/
theorem added_of_find? (hm : m.entries = []) {c : Candidate}
    (hfind : cs.find? (fun d => d.slot? == some s) = some c) : ⟨c, .added⟩ ∈ run m cs := by
  have unheld : ∀ c, m.claimedBy? c = none := by
    intro c
    refine Manifest.claimedBy?_eq_none_iff.mpr fun s _ => Manifest.owner?_eq_none_iff.mpr ?_
    simp [hm]
  obtain ⟨hcs, as, bs, hsplit, hbefore⟩ := List.find?_eq_some_iff_append.mp hfind
  have hslot : c.slot? = some s := by simpa using hcs
  have hmap := map_candidate_run_of_unheld fun c (_ : c ∈ cs) => unheld c
  rw [hsplit] at hmap
  obtain ⟨k, k₁, hrun, hk, hk₁⟩ := List.map_eq_append_iff.mp hmap
  obtain ⟨r, k', rfl, rfl, -⟩ := List.map_eq_cons_iff.mp hk₁
  rw [← hsplit] at hrun
  have hvalid := valid_run m cs
  rw [hrun] at hvalid ⊢
  obtain ⟨hinit, step⟩ := hvalid.split
  have none_fits : ∀ {k c i e}, ¬ Adoptable m k c e i := by
    intro k c i e fits
    simpa [hm] using fits.entry
  refine List.mem_append_right _ ?_
  cases step with
  | claimed asks held => simp [Manifest.claimedBy?_eq_none_iff.mp (unheld _) _ asks] at held
  | repeated asks held => simp [Manifest.claimedBy?_eq_none_iff.mp (unheld _) _ asks] at held
  | adopted _ fits => exact absurd fits none_fits
  | added => exact List.mem_cons_self
  | crowded _ _ asks taken =>
    -- only a candidate that asked for the slot can have taken it
    obtain rfl := Option.some.inj (asks.symm.trans hslot)
    have hfree := Manifest.claimedBy?_eq_none_iff.mp (unheld _) _ asks
    rcases hinit.asked_or_moved taken hfree with ⟨q, hq, hqs⟩ | ⟨q, hq, e, i, hf, -⟩
    · have hmem : q.candidate ∈ as := hk ▸ List.mem_map_of_mem hq
      simpa [hqs] using hbefore _ hmem
    · simpa [hm] using (hinit.entry_of_adopted hq hf).1

end Log

/-- If nobody is displaced, then nothing is created. -/
theorem created_eq_nil_of_displaced {m : Manifest} (unique : m.SlotUnique) {cs : List Candidate}
    {t₁ : Instant} (h : (Log.run m cs).displaced (nextManifest cs m t₁) cs = []) (t₂ : Instant) :
    (reconcile cs (nextManifest cs m t₁) t₂).created = [] := by
  refine List.eq_nil_iff_forall_not_mem.mpr fun e he => ?_
  have hle := created_le_displaced unique cs t₁ t₂ e.contentHash
  have hpos : 0 < entriesWith e.contentHash (reconcile cs (nextManifest cs m t₁) t₂).created :=
    List.countP_pos_iff.mpr ⟨e, he, by simp⟩
  rw [h] at hle
  exact absurd (Nat.lt_of_lt_of_le hpos hle) (Nat.lt_irrefl 0)

/-- **Without entries a second run is clean**, whatever the candidates. -/
theorem clean_of_entries_eq_nil {m : Manifest} (hm : m.entries = []) (cs : List Candidate)
    (t₁ t₂ : Instant) : (reconcile cs (nextManifest cs m t₁) t₂).Clean := by
  have unique : m.SlotUnique := by
    rw [Manifest.SlotUnique, hm]
    exact List.nodup_nil
  constructor
  · refine created_eq_nil_of_displaced unique (List.eq_nil_iff_forall_not_mem.mpr ?_) t₂
    intro r hr
    obtain ⟨e, i, -, hf, -⟩ := Log.adopted_of_mem_displaced hr
    simpa [hm] using ((Log.valid_run m cs).entry_of_adopted (List.mem_filter.mp hr).1 hf).1
  · refine (updated_eq_nil_iff cs _ t₂).mpr fun s e i c ho hfind => ?_
    have hslot : c.slot? = some s := by simpa using List.find?_some hfind
    obtain ⟨e', i', ho', hhash⟩ := Log.exists_owner? unique (Log.added_of_find? hm hfind) hslot t₁
    rw [ho] at ho'
    cases ho'
    exact hhash

/-! ### With an entry -/

/-- An entry that goes back to candidates. -/
structure Entry.Observed (e : Entry) : Prop where
  /-- Its content hash is the one of a text. -/
  text : ∃ t, e.contentHash = Digest.contentHash t
  /-- Its key came with a candidate. -/
  key : ∃ c : Candidate, e.key = c.keyHint

theorem Manifest.observed_nextManifest {m : Manifest} (h : ∀ e ∈ m.entries, e.Observed)
    (cs : List Candidate) (now : Instant) :
    ∀ e ∈ (nextManifest cs m now).entries, e.Observed := by
  intro e he
  rw [nextManifest_eq] at he
  rcases List.mem_append.mp he with he | he
  · obtain ⟨r, hr, hre⟩ := List.mem_filterMap.mp he
    have hrun := (List.mem_filter.mp ((Log.arranged_perm _).mem_iff.mp hr)).1
    have hvalid := Log.valid_run m cs
    refine ⟨⟨_, Record.contentHash_entry? hre⟩, ?_⟩
    obtain ⟨c, f⟩ := r
    cases f with
    | claimed e' i =>
      cases hre
      exact (h e' (List.mem_of_getElem? (hvalid.entry_of_claimed hrun))).key
    | adopted e' i =>
      cases hre
      exact (h e' (List.mem_of_getElem? (hvalid.entry_of_adopted hrun rfl).1)).key
    | added =>
      cases hre
      exact ⟨c, rfl⟩
    | dropped => cases hre
  · obtain ⟨⟨e', i⟩, hp, rfl⟩ := List.mem_map.mp he
    have he' := List.mk_mem_zipIdx_iff_getElem?.mp (List.mem_filter.mp hp).1
    obtain ⟨htext, hkey⟩ := h e' (List.mem_of_getElem? he')
    exact ⟨htext, hkey⟩

theorem Manifest.observed_after {m : Manifest} (h : ∀ e ∈ m.entries, e.Observed) (rs : Runs) :
    ∀ e ∈ (m.after rs).entries, e.Observed := by
  induction rs generalizing m with
  | nil => exact h
  | cons r rs ih => exact ih (observed_nextManifest h r.1 r.2)

/-- There are texts with different hashes. -/
theorem exists_contentHash_ne (g : String) : ∃ t, Digest.contentHash t ≠ g := by
  have hne : Digest.contentHash "X" ≠ Digest.contentHash "Y" := by decide +kernel
  by_cases hg : Digest.contentHash "X" = g
  · exact ⟨"Y", fun h => hne (hg.trans h.symm)⟩
  · exact ⟨"X", hg⟩

theorem Manifest.exists_ns_ne (m : Manifest) : ∃ b, ∀ e ∈ m.entries, e.ns ≠ b := by
  obtain ⟨b, hb⟩ := Infinite.exists_notMem_finset (m.entries.map Entry.ns).toFinset
  refine ⟨b, fun e he heb => hb ?_⟩
  rw [List.mem_toFinset, ← heb]
  exact List.mem_map_of_mem he

namespace Log

variable {m : Manifest} {cs : List Candidate} {l : Log} {c : Candidate}

/-- A candidate whose slot is not held adopts an entry if there is one for it. -/
theorem Step.of_unheld {r : Record} (step : Step m l r)
    (unheld : m.claimedBy? r.candidate = none) :
    (∃ e i, r.fate = .adopted e i ∧ Adoptable m l r.candidate e i) ∨
      (∀ i e, ¬ Adoptable m l r.candidate e i) ∧
        (r.fate = .added ∨ ∃ s ∈ l.slots, r.candidate.slot? = some s) := by
  cases step with
  | claimed asks held => simp [Manifest.claimedBy?_eq_none_iff.mp unheld _ asks] at held
  | repeated asks held => simp [Manifest.claimedBy?_eq_none_iff.mp unheld _ asks] at held
  | adopted _ fits => exact .inl ⟨_, _, rfl, fits⟩
  | added _ none_fits => exact .inr ⟨none_fits, .inl rfl⟩
  | crowded _ none_fits asks taken => exact .inr ⟨none_fits, .inr ⟨_, taken, asks⟩⟩

/-- A candidate that asks for no slot and was found to be an entry has adopted it. -/
theorem Valid.adopted_of_index {r : Record} (h : Valid m l) (hr : r ∈ l)
    (hs : r.candidate.slot? = none) {i : Nat} (hi : r.index? = some i) :
    ∃ e, r.fate = .adopted e i ∧ m.entries[i]? = some e ∧
      e.contentHash = Digest.contentHash r.candidate.text := by
  obtain ⟨k, step⟩ := h.step_of_mem hr
  rcases step.adopted_or_added hs with ⟨e, j, hf⟩ | hf
  · rw [Record.index?, hf] at hi
    obtain rfl : j = i := Option.some.inj hi
    exact ⟨e, hf, h.entry_of_adopted hr hf⟩
  · rw [Record.index?, hf] at hi
    cases hi

/-- An entry without a key takes no slot when it is adopted. -/
theorem Valid.slot?_of_keyless {r : Record} (h : Valid m l)
    (hkeyless : ∀ e ∈ m.entries, e.key = none) (hr : r ∈ l) {e : Entry} {i : Nat}
    (hf : r.fate = .adopted e i) : r.slot? = none := by
  have he := List.mem_of_getElem? (h.entry_of_adopted hr hf).1
  rw [Record.slot?, hf]
  simp [hkeyless e he]

/-- If more candidates of one kind came than there are entries, and they ask for no slot, then at
some point there was nothing left for them to adopt. -/
theorem Valid.exists_none_fits (h : Valid m l) (hall : ∀ r ∈ l, r.candidate = c)
    (hslot : c.slot? = none) (hlen : m.entries.length < l.length) :
    ∃ k k', l = k ++ k' ∧ ∀ i e, ¬ Adoptable m k c e i := by
  have hunmatched : ∃ r ∈ l, r.index? = none := by
    by_contra hmatched
    have hlength : l.matched.length = l.length := List.filterMap_length_eq_length.mpr
      fun r hr => Option.isSome_iff_ne_none.mpr fun hnone => hmatched ⟨r, hr, hnone⟩
    have := h.length_matched_add_orphans
    omega
  obtain ⟨r, hr, hnone⟩ := hunmatched
  obtain rfl := hall r hr
  obtain ⟨k, k', rfl⟩ := List.append_of_mem hr
  refine ⟨k, _, rfl, ?_⟩
  have step := h.split.2
  cases step with
  | claimed => cases hnone
  | repeated asks => rw [hslot] at asks; cases asks
  | adopted => cases hnone
  | added _ none_fits => exact none_fits
  | crowded _ _ asks => rw [hslot] at asks; cases asks

/-- A slot that goes to another text than the first candidate asks for is not faithful. -/
theorem not_faithful {r : Record} {s : Slot} (unique : m.SlotUnique) (hr : r ∈ run m cs)
    (hs : r.slot? = some s) (hfind : cs.find? (fun d => d.slot? == some s) = some c)
    (hne : Digest.contentHash r.candidate.text ≠ Digest.contentHash c.text) (now : Instant) :
    ¬ (nextManifest cs m now).Faithful cs := by
  intro hfaithful
  obtain ⟨e, i, ho, hhash⟩ := exists_owner? unique hr hs now
  exact hne (hhash.symm.trans (hfaithful s e i c ho hfind))

end Log

section Elsewhere

variable {m : Manifest} {b : String}

theorem find?_slot_replicate {c d : Candidate} {s : Slot} (hc : c.slot? = none)
    (hd : d.slot? = some s) (n : Nat) (ds : List Candidate) :
    (List.replicate n c ++ d :: ds).find? (fun a => a.slot? == some s) = some d := by
  rw [List.find?_append, List.find?_eq_none.mpr, Option.none_or]
  · simp [hd]
  · intro a ha
    simp [List.eq_of_mem_replicate ha, hc]

theorem Manifest.owner?_of_ns_ne (hb : ∀ e ∈ m.entries, e.ns ≠ b) (k : String) :
    m.owner? ⟨b, k⟩ = none := by
  refine owner?_eq_none_iff.mpr fun i e he hs => ?_
  obtain ⟨k', -, hslot⟩ := Option.map_eq_some_iff.mp hs
  exact hb e (List.mem_of_getElem? he) (congrArg Slot.ns hslot)

theorem Manifest.claimedBy?_of_ns_ne (hb : ∀ e ∈ m.entries, e.ns ≠ b) {c : Candidate}
    (hc : c.ns = b) : m.claimedBy? c = none := by
  refine claimedBy?_eq_none_iff.mpr fun s hs => ?_
  obtain ⟨k, -, rfl⟩ := Option.map_eq_some_iff.mp hs
  exact hc ▸ owner?_of_ns_ne (hc ▸ hb) k

/-- After more candidates without a key than there are entries, nothing is left for another one of
them to adopt. -/
theorem exists_run_of_replicate (hb : ∀ e ∈ m.entries, e.ns ≠ b) {c : Candidate} (hc : c.ns = b)
    (hslot : c.slot? = none) (ds : List Candidate) (hds : ∀ d ∈ ds, d.ns = b) :
    ∃ p p' l : Log, Log.run m (List.replicate (m.entries.length + 1) c ++ ds) = p ++ p' ++ l ∧
      (∀ r ∈ p ++ p', r.candidate = c) ∧ l.map Record.candidate = ds ∧
      ∀ i e, ¬ Adoptable m p c e i := by
  have unheld : ∀ a ∈ List.replicate (m.entries.length + 1) c ++ ds, m.claimedBy? a = none := by
    intro a ha
    refine Manifest.claimedBy?_of_ns_ne hb ?_
    rcases List.mem_append.mp ha with ha | ha
    · rw [List.eq_of_mem_replicate ha, hc]
    · exact hds a ha
  obtain ⟨k, l, hrun, hk, hl⟩ :=
    List.map_eq_append_iff.mp (Log.map_candidate_run_of_unheld unheld)
  have hvalid : Log.Valid m k := Log.Valid.of_append (k := l) (hrun ▸ Log.valid_run m _)
  have hall : ∀ r ∈ k, r.candidate = c := fun r hr =>
    List.eq_of_mem_replicate (hk ▸ List.mem_map_of_mem hr)
  have hlen : m.entries.length < k.length := by
    rw [← List.length_map Record.candidate, hk, List.length_replicate]
    exact Nat.lt_succ_self _
  obtain ⟨p, p', rfl, none_fits⟩ := hvalid.exists_none_fits hall hslot hlen
  exact ⟨p, p', l, hrun, hall, hl, none_fits⟩

/-- More candidates without a key than there are entries bring the key of an entry along, and then
it is too late for a candidate with another text to ask for it. -/
theorem not_faithful_of_key (unique : m.SlotUnique) (hb : ∀ e ∈ m.entries, e.ns ≠ b) {e : Entry}
    {i : Nat} (he : m.entries[i]? = some e) {k : String} (hk : e.key = some k)
    (c d : Candidate) (hc : c.ns = b) (hcs : c.slot? = none)
    (hct : e.contentHash = Digest.contentHash c.text) (hd : d.ns = b)
    (hds : d.slot? = some ⟨b, k⟩) (hne : Digest.contentHash c.text ≠ Digest.contentHash d.text)
    (now : Instant) :
    ¬ (nextManifest (List.replicate (m.entries.length + 1) c ++ [d]) m now).Faithful
      (List.replicate (m.entries.length + 1) c ++ [d]) := by
  obtain ⟨p, p', l, hrun, hall, -, none_fits⟩ :=
    exists_run_of_replicate hb hc hcs [d] (by simp [hd])
  have hvalid : Log.Valid m p := by
    refine Log.Valid.of_append (k := p' ++ l) ?_
    rw [← List.append_assoc, ← hrun]
    exact Log.valid_run m _
  have htaken : ∃ r ∈ p, r.slot? = some ⟨b, k⟩ := by
    by_contra hfree
    refine none_fits i e ⟨he, hct, fun hi => ?_, fun k' hk' hs => ?_, fun k' _ e' j ho => ?_⟩
    · obtain ⟨r, hr, hri⟩ := Log.mem_matched_iff.mp hi
      have hrc := hall r (List.mem_append_left _ hr)
      obtain ⟨e', hf, he', -⟩ := hvalid.adopted_of_index hr (by rw [hrc, hcs]) hri
      obtain rfl : e = e' := Option.some.inj (he.symm.trans he')
      exact hfree ⟨r, hr, by simp [Record.slot?, hf, hk, hrc, hc]⟩
    · obtain rfl : k = k' := Option.some.inj (hk.symm.trans hk')
      obtain ⟨r, hr, hrs⟩ := Log.mem_slots_iff.mp hs
      exact hfree ⟨r, hr, hc ▸ hrs⟩
    · rw [hc, Manifest.owner?_of_ns_ne hb] at ho
      cases ho
  obtain ⟨r, hr, hrs⟩ := htaken
  have hrc := hall r (List.mem_append_left _ hr)
  refine Log.not_faithful unique ?_ hrs (find?_slot_replicate hcs hds _ _) (hrc ▸ hne) now
  rw [hrun]
  exact List.mem_append_left _ (List.mem_append_left _ hr)

/-- If no entry has a key, then the first of two candidates that ask for one slot adopts an entry,
and the second gets the slot with another text. The candidates before use up what the second one
could adopt. -/
theorem not_faithful_of_keyless (unique : m.SlotUnique) (hb : ∀ e ∈ m.entries, e.ns ≠ b)
    (hkeyless : ∀ e ∈ m.entries, e.key = none) {e : Entry} {i : Nat}
    (he : m.entries[i]? = some e) (c d d' : Candidate) {s : Slot} (hc : c.ns = b)
    (hcs : c.slot? = none) (hd : d.ns = b) (hds : d.slot? = some s)
    (hdt : e.contentHash = Digest.contentHash d.text) (hd' : d'.ns = b) (hds' : d'.slot? = some s)
    (hct : Digest.contentHash c.text = Digest.contentHash d'.text)
    (hne : Digest.contentHash d'.text ≠ Digest.contentHash d.text) (now : Instant) :
    ¬ (nextManifest (List.replicate (m.entries.length + 1) c ++ [d, d']) m now).Faithful
      (List.replicate (m.entries.length + 1) c ++ [d, d']) := by
  obtain ⟨p, p', l, hrun, hall, hl, none_fits⟩ :=
    exists_run_of_replicate hb hc hcs [d, d'] (by simp [hd, hd'])
  obtain ⟨r, l₁, rfl, rfl, hl₁⟩ := List.map_eq_cons_iff.mp hl
  obtain ⟨r', l₂, rfl, rfl, hl₂⟩ := List.map_eq_cons_iff.mp hl₁
  obtain rfl := List.map_eq_nil_iff.mp hl₂
  have hvalid := Log.valid_run m
    (List.replicate (m.entries.length + 1) c ++ [r.candidate, r'.candidate])
  rw [hrun] at hvalid
  obtain ⟨hinit, step⟩ := hvalid.split
  rw [List.append_cons] at hvalid
  obtain ⟨hinit', step'⟩ := hvalid.split
  -- the first of the two finds an entry with its text
  have hadopted : ∃ e i, r.fate = .adopted e i ∧ Adoptable m (p ++ p') r.candidate e i := by
    refine (step.of_unheld (Manifest.claimedBy?_of_ns_ne hb hd)).resolve_right fun h => ?_
    refine h.1 i e (.of_keyless he (hkeyless e (List.mem_of_getElem? he)) hdt fun hi => ?_)
    obtain ⟨q, hq, hqi⟩ := Log.mem_matched_iff.mp hi
    obtain ⟨e', -, he', hhash⟩ := hinit.adopted_of_index hq (by rw [hall q hq, hcs]) hqi
    obtain rfl : e = e' := Option.some.inj (he.symm.trans he')
    rw [hall q hq, hct] at hhash
    exact hne (hhash.symm.trans hdt)
  -- and nobody before the second has taken a slot
  have hslots : ∀ q ∈ p ++ p' ++ [r], q.slot? = none := by
    intro q hq
    rcases List.mem_append.mp hq with hq | hq
    · have hqs : q.candidate.slot? = none := by rw [hall q hq, hcs]
      obtain ⟨q₀, qstep⟩ := hinit.step_of_mem hq
      rcases qstep.adopted_or_added hqs with ⟨e, i, hf⟩ | hf
      · exact hinit.slot?_of_keyless hkeyless hq hf
      · rw [Record.slot?, hf]
        exact hqs
    · obtain rfl := List.mem_singleton.mp hq
      obtain ⟨e, i, hf, -⟩ := hadopted
      exact hinit'.slot?_of_keyless hkeyless (List.mem_append_right _ hq) hf
  have hadded : r'.fate = .added := by
    rcases step'.of_unheld (Manifest.claimedBy?_of_ns_ne hb hd') with ⟨e', j, -, fits⟩ | ⟨-, h⟩
    · have hkey := hkeyless e' (List.mem_of_getElem? fits.entry)
      refine absurd (.of_keyless fits.entry hkey (fits.hash.trans hct.symm) fun hj => ?_)
        (none_fits j e')
      refine fits.free ?_
      rw [List.append_assoc, Log.matched_append]
      exact List.mem_append_left _ hj
    · refine h.resolve_right ?_
      rintro ⟨t, ht, -⟩
      obtain ⟨q, hq, hqt⟩ := Log.mem_slots_iff.mp ht
      rw [hslots q hq] at hqt
      cases hqt
  refine Log.not_faithful (r := r') unique ?_ ?_ (find?_slot_replicate hcs hds _ _) hne now
  · rw [hrun]
    simp
  · rw [Record.slot?, hadded]
    exact hds'

/-- **As soon as there is an entry, there are candidates that break the law.** -/
theorem exists_not_faithful (unique : m.SlotUnique) (observed : ∀ e ∈ m.entries, e.Observed)
    (hne : m.entries ≠ []) : ∃ cs, ∀ now, ¬ (nextManifest cs m now).Faithful cs := by
  obtain ⟨b, hb⟩ := m.exists_ns_ne
  by_cases hkeyless : ∀ e ∈ m.entries, e.key = none
  · obtain ⟨e, he⟩ := List.exists_mem_of_ne_nil _ hne
    obtain ⟨t, ht⟩ := (observed e he).text
    obtain ⟨t', ht'⟩ := exists_contentHash_ne (Digest.contentHash t)
    obtain ⟨i, hi⟩ := List.mem_iff_getElem?.mp he
    have hslot : ∀ t, (Candidate.plain b (some "k") t).slot? = some ⟨b, "k"⟩ := by
      intro t
      rfl
    exact ⟨_, not_faithful_of_keyless unique hb hkeyless hi (.plain b none t')
      (.plain b (some "k") t) (.plain b (some "k") t') rfl rfl rfl (hslot t) ht rfl (hslot t')
      rfl ht'⟩
  · obtain ⟨e, he, k, hk⟩ : ∃ e ∈ m.entries, ∃ k, e.key = some k := by
      by_contra hall
      refine hkeyless fun e he => Option.eq_none_iff_forall_ne_some.mpr fun k hk => ?_
      exact hall ⟨e, he, k, hk⟩
    obtain ⟨⟨t, ht⟩, a, ha⟩ := observed e he
    obtain ⟨t', ht'⟩ := exists_contentHash_ne (Digest.contentHash t)
    obtain ⟨i, hi⟩ := List.mem_iff_getElem?.mp he
    have hslot : { a with ns := b, text := t' }.slot? = some ⟨b, k⟩ := by
      show a.keyHint.map (fun k => (⟨b, k⟩ : Slot)) = some ⟨b, k⟩
      rw [← ha, hk]
      rfl
    exact ⟨_, not_faithful_of_key unique hb hi hk (.plain b none t)
      { a with ns := b, text := t' } rfl rfl ht rfl hslot ht'.symm⟩

end Elsewhere

/-! ### The law -/

theorem Manifest.SlotUnique.after {m : Manifest} (unique : m.SlotUnique) (rs : Runs) :
    (m.after rs).SlotUnique := by
  induction rs generalizing m with
  | nil => exact unique
  | cons r rs ih => exact ih (unique.nextManifest r.1 r.2)

/-- **When a second run of the same candidates is clean**, whatever runs came before. It is clean
for all candidates if and only if there were no entries before the first of the two runs. For given
candidates, it updates nothing if and only if the first run has left a manifest that is faithful to
them, and it is clean if and only if, besides, what the two runs drop and orphan balances for every
content hash. It creates at most what the first run has displaced, so that the gate opens if nobody
is displaced; and a candidate is displaced by an adoption that puts it into a slot that another
candidate asks for. -/
theorem rescan_clean_iff (rs : Runs) :
    let m := Manifest.fresh.after rs
    ((∀ cs t₁ t₂, (reconcile cs (nextManifest cs m t₁) t₂).Clean) ↔ m.entries = []) ∧
    ∀ (cs : List Candidate) (t₁ t₂ : Instant),
      let next := nextManifest cs m t₁
      let first := reconcile cs m t₁
      let second := reconcile cs next t₂
      let displaced := (Log.run m cs).displaced next cs
      (second.updated = [] ↔ next.Faithful cs) ∧
      (second.Clean ↔ next.Faithful cs ∧ ∀ g,
        (Log.run m cs).dropped.candidatesWith g + entriesWith g second.orphaned =
          (Log.run next cs).dropped.candidatesWith g + entriesWith g first.orphaned) ∧
      (∀ g, entriesWith g second.created ≤ displaced.candidatesWith g) ∧
      (∀ r ∈ displaced, ∃ e i s, r.fate = .adopted e i ∧ r.slot? = some s ∧
        r.candidate.slot? ≠ some s ∧ ∃ c ∈ cs, c.slot? = some s) ∧
      (displaced = [] → (Check.ofOutcome second).passed = true ∧
        (second.Clean ↔ next.Faithful cs)) := by
  intro m
  have unique : m.SlotUnique := Manifest.slotUnique_fresh.after rs
  refine ⟨⟨fun hclean => ?_, fun hm cs t₁ t₂ => clean_of_entries_eq_nil hm cs t₁ t₂⟩, ?_⟩
  · by_contra hne
    have observed : ∀ e ∈ m.entries, e.Observed :=
      Manifest.observed_after (m := .fresh) (fun e he => by cases he) rs
    obtain ⟨cs, hcs⟩ := exists_not_faithful unique observed hne
    exact hcs .epoch ((updated_eq_nil_iff cs _ .epoch).mp (hclean cs .epoch .epoch).updated)
  · intro cs t₁ t₂ next first second displaced
    have hupdated : second.updated = [] ↔ next.Faithful cs := updated_eq_nil_iff cs next t₂
    have hcount : second.updated = [] → ∀ g, entriesWith g second.created +
        (Log.run next cs).dropped.candidatesWith g + entriesWith g first.orphaned =
          (Log.run m cs).dropped.candidatesWith g + entriesWith g second.orphaned :=
      fun hnone g => created_add_dropped hnone g
    refine ⟨hupdated, ?_, created_le_displaced unique cs t₁ t₂,
      fun r hr => Log.adopted_of_mem_displaced hr, fun hnil => ?_⟩
    · constructor
      · rintro ⟨hcreated, hnone⟩
        refine ⟨hupdated.mp hnone, fun g => ?_⟩
        have hzero : entriesWith g second.created = 0 := by
          rw [hcreated]
          rfl
        have := hcount hnone g
        omega
      · rintro ⟨hfaithful, hbalance⟩
        have hnone := hupdated.mpr hfaithful
        refine ⟨List.eq_nil_iff_forall_not_mem.mpr fun e he => ?_, hnone⟩
        have hpos : 0 < entriesWith e.contentHash second.created :=
          List.countP_pos_iff.mpr ⟨e, he, by simp⟩
        have := hcount hnone e.contentHash
        have := hbalance e.contentHash
        omega
    · have hcreated : second.created = [] := created_eq_nil_of_displaced unique hnil t₂
      refine ⟨by simp [Check.ofOutcome, Check.passed, hcreated], ?_⟩
      exact ⟨fun hclean => hupdated.mp hclean.updated, fun h => ⟨hcreated, hupdated.mpr h⟩⟩

/-- An entry that is moved into a slot that nobody asks for is found again. -/
theorem rescan_clean_after_move :
    let rs : Runs := [([.plain "a" (some "k") "X"], .epoch)]
    let m := Manifest.fresh.after rs
    let cs : List Candidate := [.plain "b" none "X", .plain "b" (some "l") "Y"]
    let next := nextManifest cs m .epoch
    (Log.run m cs).displaced next cs = [] ∧
      (Check.ofOutcome (reconcile cs next .epoch)).passed = true := by
  intro rs m cs next
  have hnil : (Log.run m cs).displaced next cs = [] := by decide +kernel
  obtain ⟨-, -, -, -, hpassed⟩ := (rescan_clean_iff rs).2 cs .epoch .epoch
  exact ⟨hnil, (hpassed hnil).1⟩

/-- The first run moves an entry into the slot that the second candidate asks for, and the second
run gives it to that candidate and makes a new entry for the first one. -/
theorem rescan_moves_keyed :
    let m := Manifest.fresh.after [([.plain "a" (some "k") "X"], .epoch)]
    let cs : List Candidate := [.plain "b" none "X", .plain "b" (some "k") "Y"]
    let o := reconcile cs (nextManifest cs m .epoch) .epoch
    o.created.length = 1 ∧ o.updated.length = 1 ∧ (Check.ofOutcome o).passed = false := by
  decide +kernel

end KeyLedger
