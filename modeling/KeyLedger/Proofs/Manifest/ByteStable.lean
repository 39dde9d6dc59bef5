import KeyLedger.Proofs.Manifest.Length
import KeyLedger.Proofs.Manifest.Order
import KeyLedger.Proofs.Manifest.Reachable
import KeyLedger.Proofs.Reconcile.Settling
import KeyLedger.Workflow

/-!
# Storing the same run twice

A run is recorded by reading the stored manifest, reconciling the candidates with it and storing
the next manifest. Recording the same candidates at the same instant a second time finds every entry
again (`rescans_find_everything`), but it does not always leave the file as it is.

## Which runs are stable

An entry that has a key is found by the candidate that made it. An entry without one is found by
its text, in the order in which the file has the entries: by namespace and file. It moves to the
candidate that finds it and takes its fingerprint along. So the file is the same if and only if,
among the candidates of one text that have no key, sorting them by namespace and file leaves the
fingerprints where they were; such candidates are *aligned*.

## Main definitions

* `record` — records a run in the stored manifest
* `Aligned` — sorting candidates of one text leaves their fingerprints in place

## Main results

* `Manifest.sorted_eq_iff` — manifests with the same keyed entries are equal in order if the others
  are
* `sorted_nextManifest_again_iff` — a second run makes the same entries if and only if the
  candidates are aligned
* `utf8ByteSize_again` — the manifest of a second run takes as much room as that of the first
* `scan_run` — a scan records its run, and then reports it
* `second_record_silent_iff` — a second recording writes nothing if and only if the candidates are
  aligned
-/

namespace KeyLedger

/-! ### Entries with and without a key -/

/-- Sorting two lists that pair up elements of one rank. -/
theorem mergeSort_map_eq_iff {α β : Type} {le : β → β → Bool} {f g : α → β} {l : List α}
    (hf : ∀ a b, le (f a) (f b) = le (g a) (g b)) :
    (l.map f).mergeSort le = (l.map g).mergeSort le ↔ ∀ a ∈ l, f a = g a := by
  have hsort : ∀ h : α → β, (∀ a b, le (f a) (f b) = le (h a) (h b)) →
      (l.map h).mergeSort le = (l.mergeSort fun a b => le (f a) (f b)).map h := fun h hh =>
    (List.map_mergeSort fun a _ b _ => hh a b).symm
  rw [hsort f fun _ _ => rfl, hsort g hf, List.map_inj_left]
  simp only [(List.mergeSort_perm l _).mem_iff]

namespace Manifest

variable {m n : Manifest} {a : Entry}

/-- Entries of a slot-unique manifest that have a key are tied only with themselves. -/
theorem SlotUnique.length_filter_tied (h : m.SlotUnique) (ha : a.key.getD "" ≠ "") :
    (m.entries.filter (tied entryLE a)).length ≤ 1 := by
  have hslots : (m.entries.filter (tied entryLE a)).filterMap Entry.slot? =
      (m.entries.filter (tied entryLE a)).map fun _ => ⟨a.ns, a.key.getD ""⟩ := by
    rw [← List.filterMap_eq_map]
    refine List.filterMap_congr fun e he => ?_
    obtain ⟨hns, -, hkey⟩ := tied_entryLE_iff.mp (List.mem_filter.mp he).2
    cases hk : e.key with
    | none => simp [hk] at hkey; exact absurd hkey ha
    | some k => simp [Entry.slot?, hk, hns, hkey]
  have hnodup := h.sublist ((List.filter_sublist (p := tied entryLE a)).filterMap Entry.slot?)
  rw [hslots, List.map_const'] at hnodup
  exact List.nodup_replicate.mp hnodup

/-- Entries tied with one without a key have no key. -/
theorem filter_keyless_tied (ha : a.key.getD "" = "") {l : List Entry}
    (hl : ∀ e ∈ l, e.key ≠ some "") :
    (l.filter fun e => e.key.isNone).filter (tied entryLE a) = l.filter (tied entryLE a) := by
  rw [List.filter_filter]
  refine List.filter_congr fun e he => ?_
  cases ht : tied entryLE a e with
  | false => simp
  | true =>
    have hempty : e.key.getD "" = "" := (tied_entryLE_iff.mp ht).2.2 ▸ ha
    cases hk : e.key with
    | none => rfl
    | some k =>
      obtain rfl : k = "" := by simpa [hk] using hempty
      exact absurd hk (hl e he)

/-- Entries tied with one that has a key have one. -/
theorem filter_keyed_tied (ha : a.key.getD "" ≠ "") (l : List Entry) :
    (l.filter fun e => e.key.isSome).filter (tied entryLE a) = l.filter (tied entryLE a) := by
  rw [List.filter_filter]
  refine List.filter_congr fun e _ => ?_
  cases ht : tied entryLE a e with
  | false => simp
  | true =>
    cases hk : e.key with
    | none => simp [(tied_entryLE_iff.mp ht).2.2, hk] at ha
    | some k => rfl

/-- **Manifests with the same keyed entries are equal in order if the other entries are.** -/
theorem sorted_eq_iff (hversion : m.version = n.version) (unique : m.SlotUnique)
    (hm : ∀ e ∈ m.entries, e.key ≠ some "") (hn : ∀ e ∈ n.entries, e.key ≠ some "")
    (hkeyed : (m.entries.filter fun e => e.key.isSome).Perm
      (n.entries.filter fun e => e.key.isSome)) :
    m.sorted = n.sorted ↔
      (m.entries.filter fun e => e.key.isNone).mergeSort entryLE =
        (n.entries.filter fun e => e.key.isNone).mergeSort entryLE := by
  have hsorted : m.sorted = n.sorted ↔
      m.entries.mergeSort entryLE = n.entries.mergeSort entryLE := by
    simp [sorted, hversion]
  rw [hsorted]
  constructor
  · intro h
    rw [← filter_mergeSort entryLE_trans entryLE_total, h,
      filter_mergeSort entryLE_trans entryLE_total]
  · rw [mergeSort_eq_iff entryLE_trans entryLE_total, mergeSort_eq_iff entryLE_trans entryLE_total]
    intro h a
    -- a stretch of tied entries has either no keys, or one key and hence one entry
    by_cases ha : a.key.getD "" = ""
    · rw [← filter_keyless_tied ha hm, ← filter_keyless_tied ha hn, h a]
    · have hperm := hkeyed.filter (tied entryLE a)
      rw [filter_keyed_tied ha, filter_keyed_tied ha] at hperm
      have hone := unique.length_filter_tied ha
      cases hl : m.entries.filter (tied entryLE a) with
      | nil =>
        rw [hl] at hperm
        exact (List.nil_perm.mp hperm).symm
      | cons e l =>
        have hnil : l = [] := by simpa [hl] using hone
        rw [hl, hnil] at hperm
        rw [hnil, List.perm_singleton.mp hperm.symm]

end Manifest

/-! ### The first run -/

/-- The fingerprint that a candidate's entry starts with. -/
def Candidate.fingerprint (c : Candidate) : Fingerprint := .at c.tag c.loc.start

theorem Candidate.slot?_eq_none_iff {c : Candidate} : c.slot? = none ↔ c.keyHint = none :=
  Option.map_eq_none_iff

theorem Candidate.keyHint_ne_empty (c : Candidate) : c.keyHint ≠ some "" := by
  intro h
  have := (Option.filter_eq_some_iff.mp h).2
  simp at this

section FirstRun

variable {cs : List Candidate} {now : Instant} {e : Entry}

theorem added_or_dropped_of_mem_first {r : Record} (hr : r ∈ Log.run .fresh cs) :
    r.fate = .added ∨ r.fate = .dropped ∧ r.candidate.slot? ≠ none := by
  obtain ⟨l, step⟩ := (Log.valid_run .fresh cs).step_of_mem hr
  exact Manifest.added_or_dropped_of_entries_eq_nil rfl step

theorem entries_first :
    (nextManifest cs .fresh now).entries = (Log.run .fresh cs).filterMap (Record.entry? now) := by
  have hcreated : (Log.run .fresh cs).arranged = (Log.run .fresh cs).filter Record.isAdded := by
    have hnone : ∀ p : Record → Bool, (∀ r, r.fate = .added ∨ r.fate = .dropped → p r = false) →
        (Log.run .fresh cs).filter p = [] := by
      intro p hp
      refine List.filter_eq_nil_iff.mpr fun r hr => ?_
      rw [hp r ((added_or_dropped_of_mem_first hr).imp_right And.left)]
      exact Bool.false_ne_true
    rw [Log.arranged, hnone Record.isUnchanged, hnone Record.isUpdated, List.nil_append,
      List.nil_append]
    all_goals
      rintro r (hf | hf) <;> simp [Record.isUnchanged, Record.isUpdated, hf]
  rw [nextManifest_eq, hcreated, List.filterMap_filter]
  have horphans : ∀ is, Manifest.fresh.orphans is = [] := fun _ => rfl
  rw [horphans, List.append_nil]
  refine List.filterMap_congr fun r hr => ?_
  rcases added_or_dropped_of_mem_first hr with hf | ⟨hf, -⟩ <;>
    simp [Record.isAdded, Record.entry?, hf]

/-- An entry of a first manifest was made for a candidate, for the first one that asks for its slot
if it holds one. -/
theorem exists_candidate_of_mem_first (he : e ∈ (nextManifest cs .fresh now).entries) :
    ∃ c, e = Entry.ofCandidate c now ∧
      ∀ s, e.slot? = some s → cs.find? (fun d => d.slot? == some s) = some c := by
  have unique := Manifest.slotUnique_fresh.nextManifest cs now
  cases hs : e.slot? with
  | none =>
    rw [entries_first] at he
    obtain ⟨r, hr, hre⟩ := List.mem_filterMap.mp he
    rcases added_or_dropped_of_mem_first hr with hf | ⟨hf, -⟩
    · simp [Record.entry?, hf] at hre
      exact ⟨r.candidate, hre.symm, by simp⟩
    · simp [Record.entry?, hf] at hre
  | some s =>
    obtain ⟨c, hfind, -⟩ :=
      (Manifest.settled_nextManifest_of_entries_eq_nil rfl cs now).asked e he s hs
    have hcs : c.slot? = some s := by simpa using List.find?_some hfind
    -- the entry made for the first who asks holds the slot, and only one entry does
    have hmade : Entry.ofCandidate c now ∈ (nextManifest cs .fresh now).entries := by
      rw [entries_first]
      exact List.mem_filterMap.mpr ⟨_, Log.added_of_find? rfl hfind, rfl⟩
    obtain ⟨i, hi⟩ := List.mem_iff_getElem?.mp he
    obtain ⟨j, hj⟩ := List.mem_iff_getElem?.mp hmade
    obtain rfl := unique.eq_of_slot hi hj hs hcs
    refine ⟨c, Option.some.inj (hi.symm.trans hj), fun s' hs' => ?_⟩
    cases hs'
    exact hfind

theorem filter_keyless_first :
    ((nextManifest cs .fresh now).entries.filter fun e => e.key.isNone) =
      (cs.filter fun c => c.slot?.isNone).map fun c => Entry.ofCandidate c now := by
  have hmap : (Log.run .fresh cs).map Record.candidate = cs :=
    Log.map_candidate_run_of_unheld fun c _ =>
      Manifest.claimedBy?_eq_none_iff.mpr fun s _ => rfl
  conv_rhs => rw [← hmap]
  rw [entries_first, List.filter_filterMap, List.filter_map, List.map_map, ← List.filterMap_eq_map,
    List.filterMap_filter]
  refine List.filterMap_congr fun r hr => ?_
  rcases added_or_dropped_of_mem_first hr with hf | ⟨hf, hs⟩
  · simp [Record.entry?, hf, Entry.ofCandidate, Candidate.slot?, Option.filter_some]
  · simp [Record.entry?, hf, hs]

end FirstRun

/-! ### The second run -/

theorem Manifest.Settled.entries_again {m : Manifest} {cs : List Candidate} (h : m.Settled cs)
    (now : Instant) :
    (KeyLedger.nextManifest cs m now).entries = (Log.run m cs).filterMap (Record.entry? now) := by
  have hupdated := h.updated_eq_nil now
  have hcreated := h.created_eq_nil now
  rw [h.entries_nextManifest]
  simp only [reconcile_eq] at hupdated hcreated ⊢
  simp only [List.filterMap_eq_nil_iff, List.mem_filter] at hupdated hcreated
  rw [List.filterMap_filter]
  refine List.filterMap_congr fun r hr => ?_
  obtain ⟨c, f⟩ := r
  cases f with
  | claimed e i =>
    have hsame : Digest.contentHash c.text = e.contentHash := by
      by_contra hne
      cases hupdated _ ⟨hr, by simpa [Record.isUpdated] using hne⟩
    simp [Record.isUnchanged, hsame]
  | adopted e i => rfl
  | added => cases hcreated _ ⟨hr, rfl⟩
  | dropped => rfl

/-- The fingerprint of a candidate's entry in the next manifest. -/
def Record.fingerprint (r : Record) : Fingerprint :=
  match r.found? with
  | some (e, _) => e.fingerprint
  | none => r.candidate.fingerprint

/-- A candidate's entry as it would be made new, but with the fingerprint of the entry that the
candidate was found to be. -/
def Record.heir (now : Instant) (r : Record) : Entry :=
  { Entry.ofCandidate r.candidate now with fingerprint := r.fingerprint }

/-- Whether one candidate may stand before another in the stored order of their entries, if neither
has a key: by namespace, then by file. -/
def Candidate.storedLE (a b : Candidate) : Bool :=
  if a.ns ≠ b.ns then decide (a.ns < b.ns) else decide (a.loc.file ≤ b.loc.file)

/-- Sorting the candidates of one text that have no key leaves their fingerprints in place. -/
def Aligned (cs : List Candidate) : Prop :=
  ∀ c ∈ cs, let same := cs.filter (Candidate.keylessWith (Digest.contentHash c.text))
    (same.mergeSort Candidate.storedLE).map Candidate.fingerprint = same.map Candidate.fingerprint

instance (cs : List Candidate) : Decidable (Aligned cs) := by unfold Aligned; infer_instance

theorem Candidate.entryLE_ofCandidate {a b : Candidate} (ha : a.slot? = none) (hb : b.slot? = none)
    (now : Instant) :
    Manifest.entryLE (.ofCandidate a now) (.ofCandidate b now) = a.storedLE b := by
  have hrank : a.keyHint.getD "" ≤ b.keyHint.getD "" := by
    simp [slot?_eq_none_iff.mp ha, slot?_eq_none_iff.mp hb]
  rw [Bool.eq_iff_iff, Manifest.entryLE_iff, storedLE]
  by_cases hns : a.ns = b.ns
  · have hfile : a.loc.file < b.loc.file ∨ a.loc.file = b.loc.file ↔ a.loc.file ≤ b.loc.file := by
      constructor
      · rintro (h | h)
        · exact Std.le_of_lt h
        · exact h ▸ String.le_refl _
      · intro h
        rcases Std.lt_trichotomy a.loc.file b.loc.file with hlt | heq | hgt
        · exact .inl hlt
        · exact .inr heq
        · exact absurd hgt h
    simp only [Entry.ofCandidate, hns, hrank, hfile, String.lt_irrefl, and_true, true_and, false_or,
      ne_eq, not_true_eq_false, if_false, decide_eq_true_eq]
  · simp [Entry.ofCandidate, hns]

section SecondRun

variable {cs : List Candidate} {now : Instant}

theorem filter_keylessWith_first (g : String) :
    (nextManifest cs .fresh now).entries.filter (Entry.keylessWith g) =
      (cs.filter (Candidate.keylessWith g)).map fun c => Entry.ofCandidate c now := by
  have hsplit : ∀ l : List Entry, l.filter (Entry.keylessWith g) =
      (l.filter fun e => e.key.isNone).filter fun e => e.contentHash = g := by
    intro l
    rw [List.filter_filter]
    exact List.filter_congr fun e _ => Bool.and_comm _ _
  rw [hsplit, filter_keyless_first, List.filter_map, List.filter_filter]
  exact congrArg (List.map _) (List.filter_congr fun c _ => Bool.and_comm _ _)

/-- The entries of one text that have no key, as they are stored. -/
theorem filter_keylessWith_stored (g : String) :
    (nextManifest cs .fresh now).sorted.entries.filter (Entry.keylessWith g) =
      ((cs.filter (Candidate.keylessWith g)).mergeSort Candidate.storedLE).map
        fun c => Entry.ofCandidate c now := by
  have hslot : ∀ c ∈ cs.filter (Candidate.keylessWith g), c.slot? = none := by
    intro c hc
    have := (List.mem_filter.mp hc).2
    simp [Candidate.keylessWith] at this
    exact this.1
  rw [Manifest.sorted, filter_mergeSort Manifest.entryLE_trans Manifest.entryLE_total,
    filter_keylessWith_first, List.map_mergeSort]
  intro a ha b hb
  exact (Candidate.entryLE_ofCandidate (hslot a ha) (hslot b hb) now).symm

/-- The second pass of a second run: the candidates without a key, each with an entry that keeps its
fingerprint. -/
theorem exists_keyless_again (cs : List Candidate) (now : Instant) :
    let m := nextManifest cs .fresh now
    ∃ k : Log, Log.run m.sorted cs = Log.claims m.sorted cs ++ k ∧
      k.map Record.candidate = cs.filter (fun c => c.slot?.isNone) ∧
      (∀ r ∈ k, r.entry? now = some (r.heir now)) ∧
      ∀ g, (k.filter fun r => Digest.contentHash r.candidate.text = g).map Record.fingerprint =
        ((cs.filter (Candidate.keylessWith g)).mergeSort Candidate.storedLE).map
          Candidate.fingerprint := by
  intro m
  have hsettled : m.sorted.Settled cs :=
    (Manifest.settled_nextManifest_of_entries_eq_nil rfl cs now).of_perm m.sorted_perm.symm
  obtain ⟨k, hrun, hmap, hall, hpairs⟩ := hsettled.exists_run
  refine ⟨k, hrun, hmap, fun r hr => ?_, fun g => ?_⟩
  · obtain ⟨e, i, hf, hkey⟩ := hall r hr
    have hslot : r.candidate.slot? = none := by
      have hmem : r.candidate ∈ cs.filter fun c => c.slot?.isNone := hmap ▸ List.mem_map_of_mem hr
      simpa using (List.mem_filter.mp hmem).2
    have he : e ∈ m.sorted.entries := by
      have hmem : r ∈ Log.run m.sorted cs := hrun ▸ List.mem_append_right _ hr
      exact List.mem_of_getElem? ((Log.valid_run m.sorted cs).entry_of_adopted hmem hf).1
    obtain ⟨c, rfl, -⟩ := exists_candidate_of_mem_first (m.sorted_perm.mem_iff.mp he)
    have hc : c.keyHint = none := hkey
    simp [Record.entry?, hf, Record.heir, Record.fingerprint, Record.found?, Entry.seenAs,
      Entry.ofCandidate, Status.revived, hc, Candidate.slot?_eq_none_iff.mp hslot]
  · have hfound : (k.filter fun r => Digest.contentHash r.candidate.text = g).map
        Record.fingerprint = (m.sorted.entries.zipIdx.filter fun p => p.1.keylessWith g).map
          fun p => p.1.fingerprint := by
      rw [← hpairs, List.map_filterMap, ← List.filterMap_eq_map]
      refine List.filterMap_congr fun r hr => ?_
      obtain ⟨e, i, hf, -⟩ := hall r (List.mem_filter.mp hr).1
      simp [Record.fingerprint, Record.found?, hf]
    have hfst : (m.sorted.entries.zipIdx.filter fun p => p.1.keylessWith g).map
        (fun p => p.1.fingerprint) =
          (m.sorted.entries.filter (Entry.keylessWith g)).map Entry.fingerprint := by
      conv_rhs => rw [← List.zipIdx_map_fst 0 m.sorted.entries, List.filter_map, List.map_map]
      rfl
    rw [hfound, hfst, filter_keylessWith_stored, List.map_map]
    rfl

theorem nodup_of_slots {l : List Entry} (hslots : (l.filterMap Entry.slot?).Nodup)
    (hkeyed : ∀ e ∈ l, e.key.isSome) : l.Nodup := by
  refine (List.pairwise_filterMap.mp hslots).imp_of_mem fun {a b} ha _ hab => ?_
  rintro rfl
  obtain ⟨k, hk⟩ := Option.isSome_iff_exists.mp (hkeyed a ha)
  have hs : a.slot? = some ⟨a.ns, k⟩ := by simp [Entry.slot?, hk]
  exact hab _ hs _ hs rfl

/-- The first pass of a second run finds the entries that have a key as they are. -/
theorem claims_again_perm (cs : List Candidate) (now : Instant) :
    let m := nextManifest cs .fresh now
    ((Log.claims m.sorted cs).filterMap (Record.entry? now)).Perm
      (m.entries.filter fun e => e.key.isSome) := by
  intro m
  have hfirst : m.Settled cs := Manifest.settled_nextManifest_of_entries_eq_nil rfl cs now
  have unique : m.sorted.SlotUnique := hfirst.unique.of_perm m.sorted_perm.symm
  have hvalid := Log.valid_claims m.sorted cs
  -- the entry that holds a slot was made for the candidate that asks for it first
  have hseen : ∀ {c : Candidate} {e : Entry} {s : Slot}, e ∈ m.entries → e.slot? = some s →
      cs.find? (fun d => d.slot? == some s) = some c → e.seenAs c now = e := by
    intro c e s he hs hfind
    obtain ⟨d, hd, hfirst⟩ := exists_candidate_of_mem_first he
    obtain rfl := Option.some.inj ((hfirst s hs).symm.trans hfind)
    rw [hd]
    rfl
  have hmem : ∀ e, e ∈ (Log.claims m.sorted cs).filterMap (Record.entry? now) ↔
      e ∈ m.entries.filter fun e => e.key.isSome := by
    intro e
    rw [List.mem_filterMap, List.mem_filter]
    constructor
    · rintro ⟨r, hr, hre⟩
      rcases Log.claimed_or_dropped_of_mem_claims hr with ⟨c, s, e', i, rfl, he, hs, hfind⟩ | hf
      · have he' : e' ∈ m.entries := m.sorted_perm.mem_iff.mp (List.mem_of_getElem? he)
        have hkey : e'.key ≠ none := mt Entry.slot?_eq_none_iff.mpr (by simp [hs])
        obtain rfl := (Option.some.inj hre).symm.trans (hseen he' hs hfind)
        exact ⟨he', Option.isSome_iff_ne_none.mpr hkey⟩
      · simp [Record.entry?, hf] at hre
    · rintro ⟨he, hkey⟩
      obtain ⟨c, -, hfind⟩ := exists_candidate_of_mem_first he
      obtain ⟨key, hkey⟩ := Option.isSome_iff_exists.mp hkey
      have hs : e.slot? = some ⟨e.ns, key⟩ := by simp [Entry.slot?, hkey]
      obtain ⟨i, hi⟩ := List.mem_iff_getElem?.mp (m.sorted_perm.mem_iff.mpr he)
      have hr : ⟨c, .claimed e i⟩ ∈ Log.claims m.sorted cs :=
        Log.claimed_mem_claims_iff.mpr ⟨_, unique.owner? hi hs, hfind _ hs⟩
      exact ⟨_, hr, congrArg some (hseen he hs (hfind _ hs))⟩
  have hkeyed : ∀ e ∈ m.entries.filter (fun e => e.key.isSome), e.key.isSome :=
    fun e he => (List.mem_filter.mp he).2
  refine (List.perm_ext_iff_of_nodup ?_ ?_).mpr hmem
  · refine nodup_of_slots ?_ fun e he => hkeyed e ((hmem e).mp he)
    rw [List.filterMap_filterMap]
    simp only [Record.entry?_bind_slot?]
    exact hvalid.slots_nodup
  · exact nodup_of_slots (hfirst.unique.sublist (List.filter_sublist.filterMap _)) hkeyed

/-- The candidates of one text that have no key, in the log of the second pass. -/
theorem filter_keylessWith_of_map {k : Log}
    (hmap : k.map Record.candidate = cs.filter fun c => c.slot?.isNone) (g : String) :
    cs.filter (Candidate.keylessWith g) =
      (k.filter fun r => Digest.contentHash r.candidate.text = g).map Record.candidate := by
  have hsplit : cs.filter (Candidate.keylessWith g) =
      (cs.filter fun c => c.slot?.isNone).filter fun c => Digest.contentHash c.text = g := by
    rw [List.filter_filter]
    exact List.filter_congr fun c _ => Bool.and_comm _ _
  rw [hsplit, ← hmap, List.filter_map]
  rfl

/-- The candidates are aligned if and only if every candidate without a key finds an entry with its
own fingerprint. -/
theorem aligned_iff {k : Log}
    (hmap : k.map Record.candidate = cs.filter fun c => c.slot?.isNone)
    (hfingerprint : ∀ g, (k.filter fun r => Digest.contentHash r.candidate.text = g).map
      Record.fingerprint = ((cs.filter (Candidate.keylessWith g)).mergeSort
        Candidate.storedLE).map Candidate.fingerprint) :
    Aligned cs ↔ ∀ r ∈ k, r.fingerprint = r.candidate.fingerprint := by
  have hgroup : ∀ g, ((cs.filter (Candidate.keylessWith g)).mergeSort Candidate.storedLE).map
      Candidate.fingerprint = (cs.filter (Candidate.keylessWith g)).map Candidate.fingerprint ↔
        ∀ r ∈ k, Digest.contentHash r.candidate.text = g →
          r.fingerprint = r.candidate.fingerprint := by
    intro g
    rw [← hfingerprint, filter_keylessWith_of_map hmap, List.map_map, List.map_inj_left]
    simp only [List.mem_filter, decide_eq_true_eq, and_imp, Function.comp_apply]
  have hmem : ∀ r ∈ k, r.candidate ∈ cs := by
    intro r hr
    have hc : r.candidate ∈ cs.filter fun c => c.slot?.isNone := hmap ▸ List.mem_map_of_mem hr
    exact (List.mem_filter.mp hc).1
  simp only [Aligned, hgroup]
  exact ⟨fun h r hr => h _ (hmem r hr) r hr rfl, fun h _ _ r hr _ => h r hr⟩

/-- The entries that a second run leaves: those with a key as they were, and one for each candidate
without a key. -/
theorem exists_entries_again (cs : List Candidate) (now : Instant) :
    let m := nextManifest cs .fresh now
    let n := nextManifest cs m.sorted now
    ∃ k : Log, k.map Record.candidate = cs.filter (fun c => c.slot?.isNone) ∧
      (∀ g, (k.filter fun r => Digest.contentHash r.candidate.text = g).map Record.fingerprint =
        ((cs.filter (Candidate.keylessWith g)).mergeSort Candidate.storedLE).map
          Candidate.fingerprint) ∧
      (m.entries.filter fun e => e.key.isSome).Perm (n.entries.filter fun e => e.key.isSome) ∧
      n.entries.filter (fun e => e.key.isNone) = k.map (Record.heir now) := by
  intro m n
  have hfirst : m.Settled cs := Manifest.settled_nextManifest_of_entries_eq_nil rfl cs now
  have hsettled : m.sorted.Settled cs := hfirst.of_perm m.sorted_perm.symm
  obtain ⟨k, hrun, hmap, hentry, hfingerprint⟩ := exists_keyless_again cs now
  have hclaims := claims_again_perm cs now
  have hkeyed : ∀ e ∈ (Log.claims m.sorted cs).filterMap (Record.entry? now), e.key.isSome :=
    fun e he => (List.mem_filter.mp (hclaims.mem_iff.mp he)).2
  have hkeyless : ∀ e ∈ k.map (Record.heir now), e.key = none := by
    intro e he
    obtain ⟨r, hr, rfl⟩ := List.mem_map.mp he
    have hc : r.candidate ∈ cs.filter fun c => c.slot?.isNone := hmap ▸ List.mem_map_of_mem hr
    exact Candidate.slot?_eq_none_iff.mp (by simpa using (List.mem_filter.mp hc).2)
  have hagain : n.entries =
      (Log.claims m.sorted cs).filterMap (Record.entry? now) ++ k.map (Record.heir now) := by
    rw [hsettled.entries_again, hrun, List.filterMap_append, ← List.filterMap_eq_map]
    exact congrArg _ (List.filterMap_congr hentry)
  refine ⟨k, hmap, hfingerprint, ?_, ?_⟩
  · have hnone : (k.map (Record.heir now)).filter (fun e => e.key.isSome) = [] :=
      List.filter_eq_nil_iff.mpr fun e he => by simp [hkeyless e he]
    rw [hagain, List.filter_append, List.filter_eq_self.mpr hkeyed, hnone, List.append_nil]
    exact hclaims.symm
  · have hnone : ((Log.claims m.sorted cs).filterMap (Record.entry? now)).filter
        (fun e => e.key.isNone) = [] :=
      List.filter_eq_nil_iff.mpr fun e he => by
        simpa using Option.isSome_iff_ne_none.mp (hkeyed e he)
    have hall : (k.map (Record.heir now)).filter (fun e => e.key.isNone) =
        k.map (Record.heir now) :=
      List.filter_eq_self.mpr fun e he => by simp [hkeyless e he]
    rw [hagain, List.filter_append, hnone, hall, List.nil_append]

theorem filter_keyless_first_of_map {k : Log}
    (hmap : k.map Record.candidate = cs.filter fun c => c.slot?.isNone) :
    ((nextManifest cs .fresh now).entries.filter fun e => e.key.isNone) =
      k.map fun r => Entry.ofCandidate r.candidate now := by
  rw [filter_keyless_first, ← hmap, List.map_map]
  rfl

/-- **A second run makes the same entries if and only if the candidates are aligned.** -/
theorem sorted_nextManifest_again_iff (cs : List Candidate) (now : Instant) :
    let m := nextManifest cs .fresh now
    m.sorted = (nextManifest cs m.sorted now).sorted ↔ Aligned cs := by
  intro m
  obtain ⟨k, hmap, hfingerprint, hkeyed, hkeyless⟩ := exists_entries_again cs now
  have hnonempty : ∀ e ∈ m.entries, e.key ≠ some "" := by
    intro e he
    obtain ⟨c, rfl, -⟩ := exists_candidate_of_mem_first he
    exact c.keyHint_ne_empty
  have hnonemptyAgain : ∀ e ∈ (nextManifest cs m.sorted now).entries, e.key ≠ some "" := by
    intro e he hkey
    have hmem := hkeyed.mem_iff.mpr (List.mem_filter.mpr ⟨he, by simp [hkey]⟩)
    exact hnonempty e (List.mem_filter.mp hmem).1 hkey
  have hsorted := Manifest.sorted_eq_iff (m := m) (n := nextManifest cs m.sorted now) rfl
    (Manifest.slotUnique_fresh.nextManifest cs now) hnonempty hnonemptyAgain hkeyed
  have hpairs := @mergeSort_map_eq_iff Record Entry Manifest.entryLE
    (fun r => Entry.ofCandidate r.candidate now) (Record.heir now) k fun _ _ => rfl
  rw [hsorted, filter_keyless_first_of_map hmap, hkeyless, hpairs, aligned_iff hmap hfingerprint]
  refine forall₂_congr fun r _ => ?_
  constructor
  · intro h
    exact (congrArg Entry.fingerprint h).symm
  · intro h
    rw [Record.heir, h]
    rfl

/-! ### The length of the second manifest -/

/-- Two ways of naming the elements of a list give the same names if they do so for each part of the
elements that share a label. -/
theorem perm_map_of_filter {α β γ : Type} [DecidableEq γ] (label : α → γ) {a b : α → β} {l : List α}
    (h : ∀ g, ((l.filter fun x => label x = g).map a).Perm
      ((l.filter fun x => label x = g).map b)) : (l.map a).Perm (l.map b) := by
  -- by the number of elements: take away those that share a label with the first
  induction hn : l.length using Nat.strong_induction_on generalizing l with
  | _ n ih =>
    cases l with
    | nil => exact .nil
    | cons x l =>
      let p (y : α) : Bool := label y = label x
      have hsplit := List.filter_append_perm p (x :: l)
      have hrest : (((x :: l).filter fun y => !p y).map a).Perm
          (((x :: l).filter fun y => !p y).map b) := by
        refine ih _ ?_ (fun g => ?_) rfl
        · have hx : (x :: l).filter (fun y => !p y) = l.filter fun y => !p y :=
            List.filter_cons_of_neg (by simp [p])
          rw [hx, ← hn]
          exact Nat.lt_succ_of_le (List.length_filter_le _ l)
        · rw [List.filter_filter]
          by_cases hg : g = label x
          · have hnone : (x :: l).filter (fun y => decide (label y = g) && !p y) = [] :=
              List.filter_eq_nil_iff.mpr fun y _ => by simp [p, hg]
            rw [hnone]
            exact .nil
          · have hsame : (x :: l).filter (fun y => decide (label y = g) && !p y) =
                (x :: l).filter fun y => label y = g := by
              refine List.filter_congr fun y _ => ?_
              by_cases hy : label y = g
              · simp [p, hy, hg]
              · simp [hy]
            rw [hsame]
            exact h g
      have ha := hsplit.map a
      have hb := hsplit.map b
      rw [List.map_append] at ha hb
      exact ha.symm.trans (((h (label x)).append hrest).trans hb)

/-- **A second run makes a manifest of the same length.** Candidates without a key may trade
fingerprints, and all else stays as it is. -/
theorem utf8ByteSize_again (cs : List Candidate) (now : Instant) :
    let m := nextManifest cs .fresh now
    (nextManifest cs m.sorted now).stableText.utf8ByteSize = m.stableText.utf8ByteSize := by
  intro m
  obtain ⟨k, hmap, hfingerprint, hkeyed, hkeyless⟩ := exists_entries_again cs now
  have htraded : (k.map Record.fingerprint).Perm (k.map fun r => r.candidate.fingerprint) := by
    refine perm_map_of_filter (fun r => Digest.contentHash r.candidate.text) fun g => ?_
    rw [hfingerprint, filter_keylessWith_of_map hmap]
    refine ((List.mergeSort_perm _ _).map _).trans ?_
    rw [List.map_map]
    rfl
  have hsum : ∀ n : Manifest, (n.entries.map Entry.textLength).sum =
      ((n.entries.filter fun e => e.key.isSome).map Entry.textLength).sum +
        ((n.entries.filter fun e => e.key.isNone).map Entry.textLength).sum := by
    intro n
    have hsplit := (List.filter_append_perm (fun e : Entry => e.key.isSome) n.entries).map
      Entry.textLength
    simp only [List.map_append, Option.not_isSome] at hsplit
    rw [← hsplit.sum_eq, List.sum_append]
  have hheirs : (k.map fun r => (r.heir now).textLength).sum +
        (k.map fun r => r.candidate.fingerprint.textLength).sum =
      (k.map fun r => (Entry.ofCandidate r.candidate now).textLength).sum +
        (k.map fun r => r.fingerprint.textLength).sum := by
    rw [← List.sum_map_add, ← List.sum_map_add]
    refine congrArg List.sum (List.map_congr_left fun r _ => ?_)
    exact (Entry.ofCandidate r.candidate now).textLength_fingerprint r.fingerprint
  have hfingerprints := (htraded.map Fingerprint.textLength).sum_eq
  rw [List.map_map, List.map_map] at hfingerprints
  refine Manifest.utf8ByteSize_stableText_congr rfl ?_
  rw [hsum, hsum m, (hkeyed.map Entry.textLength).sum_eq, hkeyless,
    filter_keyless_first_of_map hmap, List.map_map, List.map_map]
  refine congrArg _ ?_
  simp only [Function.comp_def] at hfingerprints ⊢
  omega

end SecondRun

/-! ### Recording a run -/

/-- Records a run in the stored manifest; the result says whether the file changed. -/
def record {m : Type → Type} [Monad m] [MonadFiles m] (p : Path) (cs : List Candidate)
    (now : Instant) : ExceptT Failure m Bool := do
  let manifest ← readManifest (m := m) p
  writeManifest p (nextManifest cs manifest now)

section Recording

variable {p : Path} {cs : List Candidate} {now : Instant} {d d' : Disk} {wrote : Bool}

/-- Reading the manifest leaves the disk alone. -/
theorem readManifest_run (p : Path) (d : Disk) : (readManifest (m := DiskM) p d).2 = d := by
  cases h : d.readText p with
  | ok text => rw [readManifest_of_ok h]
  | error e => rw [readManifest_of_error h]

theorem record_run (p : Path) (cs : List Candidate) (now : Instant) (d : Disk) :
    (record (m := DiskM) p cs now).run d =
      (writeManifest (m := DiskM) p
        (nextManifest cs (readManifest (m := DiskM) p d).1 now)).run d := by
  rw [record, DiskM.run_liftM_bind, readManifest_run]

/-- **A scan is a recording and a report.** -/
theorem scan_run (s : Settings) (cs : List Candidate) (now : Instant) (d : Disk) :
    let outcome := reconcile cs (readManifest (m := DiskM) s.manifestPath d).1 now
    (scan (m := DiskM) s cs now).run d = (do
      let wrote ← record s.manifestPath cs now
      let report ← writeReport (.ofOutcome outcome) s.reportsDir now
      return { outcome, wrote, report } : ExceptT Failure DiskM ScanResult).run d := by
  intro outcome
  have hobserve : observe (m := DiskM) s cs now d =
      (((readManifest (m := DiskM) s.manifestPath d).1, outcome), d) :=
    Prod.ext rfl (readManifest_run s.manifestPath d)
  have hnext : nextManifest cs (readManifest (m := DiskM) s.manifestPath d).1 now =
      outcome.assemble (readManifest (m := DiskM) s.manifestPath d).1.version outcome.orphaned :=
    rfl
  rw [scan, DiskM.run_liftM_bind, hobserve, run_bind_eq, run_bind_eq, record_run, hnext]

/-- Recording a run is a stable write of the next manifest. -/
theorem record_eq_ok_iff {m : Manifest} (h : readManifest (m := DiskM) p d = (m, d)) :
    (record (m := DiskM) p cs now).run d = (.ok wrote, d') ↔
      (writeStable (m := DiskM) p (nextManifest cs m now).stableText).run d = (.ok wrote, d') := by
  rw [record_run, h]
  exact DiskM.during_eq_ok_iff

/-- After a first recording, the file holds the first manifest, and a second recording compares it
with the next one. -/
theorem exists_record_again (hmissing : d.readText p = .error .notFound)
    (hfirst : (record (m := DiskM) p cs now).run d = (.ok wrote, d')) :
    let m := nextManifest cs .fresh now
    d'.readText p = .ok m.stableText ∧
      ∃ again d₂, (record (m := DiskM) p cs now).run d' = (.ok again, d₂) ∧
        d₂.readText p = .ok (nextManifest cs m.sorted now).stableText ∧
        (again = false ↔ m.stableText = (nextManifest cs m.sorted now).stableText) ∧
        (again = false → d₂ = d') := by
  intro m
  have hwrite := (record_eq_ok_iff (readManifest_of_error hmissing)).mp hfirst
  have hread := readText_of_writeStable hwrite
  have hstored : readManifest (m := DiskM) p d' = (m.sorted, d') := by
    rw [readManifest_of_ok hread, Manifest.ofText?_stableText_eq]
    rfl
  obtain ⟨d₂, hagain, hsame⟩ :=
    exists_writeStable_again hwrite (utf8ByteSize_again cs now).le
  refine ⟨hread, _, d₂, (record_eq_ok_iff hstored).mpr hagain, readText_of_writeStable hagain, ?_,
    fun h => hsame ?_⟩
  · simp only [decide_eq_false_iff_not, not_not]
    exact Iff.rfl
  · simpa using h

end Recording

/-! ### Two entries that trade places -/

/-- A text in each of two files, with no key; the file that comes second in the stored order is
scanned first. -/
def twins (first second : UInt64) : List Candidate :=
  [{ Candidate.plain "b" none "Save" with loc := ⟨"b.tsx", first, first + 4⟩ },
    { Candidate.plain "a" none "Save" with loc := ⟨"a.tsx", second, second + 4⟩ }]

/-- Twins are aligned only if they have one fingerprint. -/
theorem aligned_twins_iff (first second : UInt64) :
    Aligned (twins first second) ↔ Fingerprint.at none first = Fingerprint.at none second := by
  have hall : (twins first second).filter (Candidate.keylessWith (Digest.contentHash "Save")) =
      twins first second := by
    refine List.filter_eq_self.mpr fun c hc => ?_
    simp only [twins, List.mem_cons, List.not_mem_nil, or_false] at hc
    rcases hc with rfl | rfl <;> simp [Candidate.keylessWith, Candidate.plain] <;> rfl
  have hsort : (twins first second).mergeSort Candidate.storedLE =
      (twins first second).reverse := by
    have hle : Candidate.storedLE
        { Candidate.plain "b" none "Save" with loc := ⟨"b.tsx", first, first + 4⟩ }
        { Candidate.plain "a" none "Save" with loc := ⟨"a.tsx", second, second + 4⟩ } = false := by
      have hne : "b" ≠ "a" := by decide
      have hlt : ¬ "b" < "a" := by decide
      exact (if_pos hne).trans (decide_eq_false hlt)
    simp [twins, List.mergeSort, hle]
  have htext : ∀ c ∈ twins first second, c.text = "Save" := by simp [twins, Candidate.plain]
  have hswap : ((twins first second).reverse.map Candidate.fingerprint =
      (twins first second).map Candidate.fingerprint) ↔
        Fingerprint.at none first = Fingerprint.at none second := by
    simp only [twins, List.reverse_cons, List.reverse_nil, List.nil_append, List.singleton_append,
      List.map_cons, List.map_nil, List.cons.injEq, and_true]
    exact ⟨fun h => h.2, fun h => ⟨h.symm, h⟩⟩
  rw [← hswap]
  constructor
  · intro h
    obtain ⟨c, hc⟩ : ∃ c, c ∈ twins first second := ⟨_, List.mem_cons_self⟩
    simpa only [htext c hc, hall, hsort] using h c hc
  · intro h c hc
    simpa only [htext c hc, hall, hsort] using h

theorem readText_blank : (Disk.blank [] 0).readText ⟨"m.json"⟩ = .error .notFound := rfl

/-- Storing the first manifest of a project. -/
theorem record_blank (cs : List Candidate) :
    (record (m := DiskM) ⟨"m.json"⟩ cs .epoch).run (.blank [] 0) = (.ok true,
      ((Disk.blank [] 0).put ["m.json"]
        (.file (.text (nextManifest cs .fresh .epoch).stableText) 0)).log ["m.json"]) := by
  refine (record_eq_ok_iff (readManifest_of_error readText_blank)).mpr ?_
  generalize (nextManifest cs .fresh .epoch).stableText = text
  rfl

/-! ### The main result -/

/-- **When a second recording writes nothing.** If there is no manifest file and a run is recorded,
then the same run can be recorded again, and that writes nothing, because the file holds the very
bytes that it would write, if and only if the candidates are aligned. -/
theorem second_record_silent_iff {p : Path} {cs : List Candidate} {now : Instant} {d d' : Disk}
    {wrote : Bool} (hmissing : d.readText p = .error .notFound)
    (hfirst : (record (m := DiskM) p cs now).run d = (.ok wrote, d')) :
    ∃ again d₂, (record (m := DiskM) p cs now).run d' = (.ok again, d₂) ∧
      (again = false ↔ Aligned cs) ∧ (again = false ↔ d₂.readText p = d'.readText p) ∧
      (again = false → d₂ = d') := by
  obtain ⟨hread, again, d₂, hagain, hread₂, hsilent, hsame⟩ := exists_record_again hmissing hfirst
  refine ⟨again, d₂, hagain, ?_, ?_, hsame⟩
  · rw [hsilent, Manifest.stableText_eq_iff]
    exact sorted_nextManifest_again_iff cs now
  · rw [hsilent, hread, hread₂, Except.ok.injEq, eq_comm]

/-- Twins with one fingerprint stay as they are. -/
theorem second_record_keeps_twins :
    let p : Path := ⟨"m.json"⟩
    ∃ d₁, (Disk.blank [] 0).readText p = .error .notFound ∧
      (record (m := DiskM) p (twins 7 7) .epoch).run (.blank [] 0) = (.ok true, d₁) ∧
      (record (m := DiskM) p (twins 7 7) .epoch).run d₁ = (.ok false, d₁) := by
  intro p
  obtain ⟨again, d₂, hagain, hsilent, -, hsame⟩ :=
    second_record_silent_iff readText_blank (record_blank (twins 7 7))
  obtain rfl := hsilent.mpr ((aligned_twins_iff 7 7).mpr rfl)
  obtain rfl := hsame rfl
  exact ⟨_, readText_blank, record_blank _, hagain⟩

/-- The twins of the two files adopt each other's entries, so the second recording writes again. -/
theorem second_record_swaps_twins :
    let p : Path := ⟨"m.json"⟩
    ∃ d₁ d₂, (Disk.blank [] 0).readText p = .error .notFound ∧
      (record (m := DiskM) p (twins 0 10) .epoch).run (.blank [] 0) = (.ok true, d₁) ∧
      (record (m := DiskM) p (twins 0 10) .epoch).run d₁ = (.ok true, d₂) ∧
      d₂.readText p ≠ d₁.readText p := by
  intro p
  obtain ⟨hread, again, d₂, hagain, hread₂, hsilent, -⟩ :=
    exists_record_again readText_blank (record_blank (twins 0 10))
  have hdiffer := mt (sorted_nextManifest_again_iff (twins 0 10) .epoch).mp
    (mt (aligned_twins_iff 0 10).mp (by decide +kernel))
  rw [← Manifest.stableText_eq_iff] at hdiffer
  have htrue : again = true := by simpa using mt hsilent.mp hdiffer
  refine ⟨_, d₂, readText_blank, record_blank _, htrue ▸ hagain, ?_⟩
  rw [hread, hread₂]
  exact fun h => hdiffer (Except.ok.inj h).symm

end KeyLedger
