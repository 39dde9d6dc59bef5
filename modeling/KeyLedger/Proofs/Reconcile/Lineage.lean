import KeyLedger.Proofs.Reconcile.Log
import Mathlib.Data.List.Forall2
import Mathlib.Data.List.NodupEquivFin
import Mathlib.Logic.ExistsUnique

/-!
# Every entry has one descendant

A run neither loses nor doubles an identity. Each entry of the manifest is found by exactly one
candidate or stays as an orphan, and either way it has exactly one descendant in the next manifest,
with the same key, fingerprint and commit; all other entries there are new. Nothing is assumed
about the manifest, so this also holds where two entries share a slot.

## Positions, not values

Two entries of a manifest may be equal, so "the descendant of an entry" has to be a statement about
positions. `origins` lists, for every entry of the next manifest in order, the index of the entry
that it comes from. Each index occurs in it once, and this is what "exactly one descendant" means
here, for one run and then for any sequence of runs.

## Main definitions

* `Entry.Heir`, `Entry.Refound` — what an entry keeps for life, and when it is found again
* `origins` — where the entries of the next manifest come from
* `Manifest.after` — the manifest after a sequence of runs
* `DescendsTo` — descent along a sequence of runs

## Main results

* `Log.Valid.matched_nodup` — no entry is found twice
* `exists_equiv_positions` — lists that go once through a set pair it with their positions
* `origins_perm` — each entry of the manifest is the origin of one entry of the next
* `existsUnique_descendsTo` — one descendant after any number of runs
* `identities_conserved` — the account of a run and of sequences of runs
-/

namespace KeyLedger

/-! ### What an entry keeps -/

/-- `e'` is the same identity as `e`: key, fingerprint and commit are kept for life. -/
structure Entry.Heir (e e' : Entry) : Prop where
  /-- The key. -/
  key : e'.key = e.key
  /-- Where the text was first found. -/
  fingerprint : e'.fingerprint = e.fingerprint
  /-- The commit that recorded the entry. -/
  lastCommit : e'.lastCommit = e.lastCommit

theorem Entry.Heir.refl (e : Entry) : e.Heir e := ⟨rfl, rfl, rfl⟩

theorem Entry.Heir.trans {a b c : Entry} (h : a.Heir b) (h' : b.Heir c) : a.Heir c :=
  ⟨h'.key.trans h.key, h'.fingerprint.trans h.fingerprint, h'.lastCommit.trans h.lastCommit⟩

/-- `e'` is `e` as a run at a given time has found it. -/
structure Entry.Refound (now : Instant) (e e' : Entry) : Prop extends e.Heir e' where
  /-- It was seen in this run. -/
  lastSeen : e'.lastSeen = now
  /-- It is no orphan. -/
  status : e'.status ≠ .orphaned

theorem Status.revived_ne_orphaned (s : Status) : s.revived ≠ .orphaned := by
  cases s <;> simp [Status.revived]

theorem Entry.refound_seenAs (e : Entry) (c : Candidate) (now : Instant) :
    e.Refound now (e.seenAs c now) where
  toHeir := ⟨rfl, rfl, rfl⟩
  lastSeen := rfl
  status := Status.revived_ne_orphaned _

theorem Entry.refound_moved (e : Entry) (c : Candidate) (now : Instant) :
    e.Refound now { e.seenAs c now with ns := c.ns } where
  toHeir := ⟨rfl, rfl, rfl⟩
  lastSeen := rfl
  status := Status.revived_ne_orphaned _

/-! ### No entry is found twice -/

namespace Log

variable {m : Manifest} {l : Log}

theorem Step.index_free {r : Record} (step : Step m l r) {i : Nat} (hi : r.index? = some i) :
    i ∉ l.matched := by
  cases step with
  | claimed asks held free => exact Option.some.inj hi ▸ free
  | repeated => cases hi
  | adopted unheld fits first => exact Option.some.inj hi ▸ fits.free
  | added => cases hi
  | crowded => cases hi

theorem Valid.matched_nodup (h : Valid m l) : l.matched.Nodup := by
  induction h with
  | nil => exact List.nodup_nil
  | @snoc l r init step ih =>
    rw [matched_append]
    refine List.nodup_append.mpr ⟨ih, ?_, fun i hi j hj => ?_⟩
    · cases hr : r.index? <;> simp [matched, hr]
    · obtain ⟨q, hq, hqj⟩ := mem_matched_iff.mp hj
      obtain rfl := List.mem_singleton.mp hq
      rintro rfl
      exact step.index_free hqj hi

/-- A record that names an entry names one that the manifest has at that index. -/
theorem Valid.entry_of_claimed (h : Valid m l) {c : Candidate} {e : Entry} {i : Nat}
    (hr : ⟨c, .claimed e i⟩ ∈ l) : m.entries[i]? = some e := by
  obtain ⟨k, step⟩ := h.step_of_mem hr
  cases step with
  | claimed asks held free => exact (Manifest.owner?_eq_some_iff.mp held).1

theorem Valid.entry_of_adopted (h : Valid m l) {r : Record} (hr : r ∈ l) {e : Entry} {i : Nat}
    (hf : r.fate = .adopted e i) : m.entries[i]? = some e ∧
      e.contentHash = Digest.contentHash r.candidate.text := by
  obtain ⟨k, step⟩ := h.step_of_mem hr
  cases step with
  | claimed => cases hf
  | repeated => cases hf
  | adopted unheld fits first =>
    cases hf
    exact ⟨fits.entry, fits.hash⟩
  | added => cases hf
  | crowded => cases hf

theorem Valid.exists_entry (h : Valid m l) {r : Record} (hr : r ∈ l) {i : Nat}
    (hi : r.index? = some i) :
    ∃ e, m.entries[i]? = some e ∧ ∀ now, ∃ e', r.entry? now = some e' ∧ e.Refound now e' := by
  obtain ⟨c, f⟩ := r
  cases f with
  | claimed e j =>
    obtain rfl : j = i := Option.some.inj hi
    exact ⟨e, h.entry_of_claimed hr, fun now => ⟨_, rfl, e.refound_seenAs c now⟩⟩
  | adopted e j =>
    obtain rfl : j = i := Option.some.inj hi
    exact ⟨e, (h.entry_of_adopted hr rfl).1, fun now => ⟨_, rfl, e.refound_moved c now⟩⟩
  | added => cases hi
  | dropped => cases hi

theorem Valid.matched_lt (h : Valid m l) {i : Nat} (hi : i ∈ l.matched) :
    i < m.entries.length := by
  obtain ⟨r, hr, hri⟩ := mem_matched_iff.mp hi
  obtain ⟨e, he, -⟩ := h.exists_entry hr hri
  exact (List.getElem?_eq_some_iff.mp he).1

/-! ### Unchanged and updated entries, one for one -/

/-- The indices of the entries that were found with the same text, in the order in which the
outcome lists them. -/
def unchangedIndices (l : Log) : List Nat := (l.filter Record.isUnchanged).filterMap Record.index?

/-- The indices of the entries that were found with another text, in the order in which the
outcome lists them. -/
def updatedIndices (l : Log) : List Nat := (l.filter Record.isUpdated).filterMap Record.index?

/-- The entry with index `i` was found again with the same text. -/
def Unchanged (m : Manifest) (now : Instant) (i : Nat) (e' : Entry) : Prop :=
  ∃ e, m.entries[i]? = some e ∧ e.Refound now e' ∧ e'.contentHash = e.contentHash

/-- The entry with index `i` was found again in its namespace with another text. -/
def Updated (m : Manifest) (now : Instant) (i : Nat) (u : Update) : Prop :=
  m.entries[i]? = some u.previous ∧ u.previous.Refound now u.entry ∧ u.entry.ns = u.previous.ns ∧
    u.entry.contentHash ≠ u.previous.contentHash

theorem Valid.forall₂_unchanged (h : Valid m l) (now : Instant) :
    List.Forall₂ (Unchanged m now) l.unchangedIndices
      ((l.filter Record.isUnchanged).filterMap (Record.entry? now)) := by
  rw [unchangedIndices]
  have hmem : ∀ r ∈ l.filter Record.isUnchanged, r ∈ l ∧ r.isUnchanged = true :=
    fun r hr => List.mem_filter.mp hr
  generalize l.filter Record.isUnchanged = k at hmem ⊢
  induction k with
  | nil => exact .nil
  | cons r k ih =>
    obtain ⟨hr, hunchanged⟩ := hmem r List.mem_cons_self
    have htail := ih fun q hq => hmem q (List.mem_cons_of_mem _ hq)
    obtain ⟨c, f⟩ := r
    cases f with
    | claimed e i =>
      have hhash : Digest.contentHash c.text = e.contentHash := by
        simpa [Record.isUnchanged] using hunchanged
      exact .cons ⟨e, h.entry_of_claimed hr, e.refound_seenAs c now, hhash⟩ htail
    | adopted e i =>
      obtain ⟨he, hhash⟩ := h.entry_of_adopted hr rfl
      exact .cons ⟨e, he, e.refound_moved c now, hhash.symm⟩ htail
    | added => simp [Record.isUnchanged] at hunchanged
    | dropped => simp [Record.isUnchanged] at hunchanged

theorem Valid.forall₂_updated (h : Valid m l) (now : Instant) :
    List.Forall₂ (Updated m now) l.updatedIndices
      ((l.filter Record.isUpdated).filterMap (Record.update? now)) := by
  rw [updatedIndices]
  have hmem : ∀ r ∈ l.filter Record.isUpdated, r ∈ l ∧ r.isUpdated = true :=
    fun r hr => List.mem_filter.mp hr
  generalize l.filter Record.isUpdated = k at hmem ⊢
  induction k with
  | nil => exact .nil
  | cons r k ih =>
    obtain ⟨hr, hupdated⟩ := hmem r List.mem_cons_self
    have htail := ih fun q hq => hmem q (List.mem_cons_of_mem _ hq)
    obtain ⟨c, f⟩ := r
    cases f with
    | claimed e i =>
      have hhash : Digest.contentHash c.text ≠ e.contentHash := by
        simpa [Record.isUpdated] using hupdated
      exact .cons ⟨h.entry_of_claimed hr, e.refound_seenAs c now, rfl, hhash⟩ htail
    | adopted e i => simp [Record.isUpdated] at hupdated
    | added => simp [Record.isUpdated] at hupdated
    | dropped => simp [Record.isUpdated] at hupdated

theorem filterMap_index?_filter_isAdded (l : Log) :
    (l.filter Record.isAdded).filterMap Record.index? = [] := by
  refine List.filterMap_eq_nil_iff.mpr fun r hr => ?_
  obtain ⟨-, hadded⟩ := List.mem_filter.mp hr
  obtain ⟨c, f⟩ := r
  cases f <;> simp_all [Record.isAdded, Record.index?]

theorem matched_perm (l : Log) :
    (l.updatedIndices ++ l.unchangedIndices).Perm l.matched := by
  have hperm := filterMap_arranged_perm (f := Record.index?)
    (fun r hr => by simp [Record.index?, hr]) l
  rw [arranged, List.filterMap_append, List.filterMap_append, filterMap_index?_filter_isAdded,
    List.append_nil] at hperm
  exact List.perm_append_comm.trans hperm

end Log

/-- Two lists that together go once through a set pair its elements with their positions. -/
theorem exists_equiv_positions {us ss is : List Nat} (hperm : (us ++ ss).Perm is)
    (hnodup : is.Nodup) {a b : Nat} (ha : us.length = a) (hb : ss.length = b) :
    ∃ f : {i // i ∈ is} ≃ Fin a ⊕ Fin b, ∀ i : {i // i ∈ is},
      match f i with
      | .inl j => us[j.val]? = some i.val
      | .inr j => ss[j.val]? = some i.val := by
  subst ha hb
  obtain ⟨hun, hsn, hdisj⟩ := List.nodup_append.mp (hperm.nodup_iff.mpr hnodup)
  have hmem : ∀ {i}, i ∈ is ↔ i ∈ us ∨ i ∈ ss := fun {i} => by
    rw [← hperm.mem_iff, List.mem_append]
  let g : Fin us.length ⊕ Fin ss.length → {i // i ∈ is} := Sum.elim
    (fun j => ⟨us[j], hmem.mpr (.inl (List.getElem_mem _))⟩)
    (fun j => ⟨ss[j], hmem.mpr (.inr (List.getElem_mem _))⟩)
  have hg : Function.Bijective g := by
    constructor
    · rintro (j | j) (k | k) hjk
      · have heq : us[j] = us[k] := congrArg Subtype.val hjk
        exact congrArg Sum.inl (Fin.ext (hun.getElem_inj_iff.mp heq))
      · have heq : us[j] = ss[k] := congrArg Subtype.val hjk
        exact absurd heq (hdisj _ (List.getElem_mem _) _ (List.getElem_mem _))
      · have heq : ss[j] = us[k] := congrArg Subtype.val hjk
        exact absurd heq.symm (hdisj _ (List.getElem_mem _) _ (List.getElem_mem _))
      · have heq : ss[j] = ss[k] := congrArg Subtype.val hjk
        exact congrArg Sum.inr (Fin.ext (hsn.getElem_inj_iff.mp heq))
    · rintro ⟨i, hi⟩
      rcases hmem.mp hi with hi | hi
      · obtain ⟨j, hj, rfl⟩ := List.mem_iff_getElem.mp hi
        exact ⟨.inl ⟨j, hj⟩, rfl⟩
      · obtain ⟨j, hj, rfl⟩ := List.mem_iff_getElem.mp hi
        exact ⟨.inr ⟨j, hj⟩, rfl⟩
  refine ⟨(Equiv.ofBijective g hg).symm, fun i => ?_⟩
  obtain ⟨x, rfl⟩ := (Equiv.ofBijective g hg).surjective i
  rw [Equiv.symm_apply_apply]
  cases x with
  | inl j => exact List.getElem?_eq_getElem j.isLt
  | inr j => exact List.getElem?_eq_getElem j.isLt

/-! ### Where entries come from -/

/-- The index that each entry of the next manifest had in the manifest; a new entry had none. -/
def origins (m : Manifest) (cs : List Candidate) : List (Option Nat) :=
  (Log.run m cs).arranged.map Record.index? ++
    ((List.range m.entries.length).filter fun i => !(Log.run m cs).matched.contains i).map some

theorem Manifest.map_snd_filter_zipIdx (m : Manifest) (is : List Nat) :
    (m.entries.zipIdx.filter fun p => !is.contains p.2).map Prod.snd =
      (List.range m.entries.length).filter fun i => !is.contains i := by
  have hsnd : m.entries.zipIdx.map Prod.snd = List.range m.entries.length := by
    rw [List.zipIdx_map_snd, List.range_eq_range']
  rw [← hsnd, List.filter_map]
  rfl

/-- The entries that were found and those that were not make up the manifest. -/
theorem Log.Valid.matched_append_rest {m : Manifest} {l : Log} (h : l.Valid m) :
    (l.matched ++ (List.range m.entries.length).filter fun i => !l.matched.contains i).Perm
      (List.range m.entries.length) := by
  have hnodup := List.nodup_range (n := m.entries.length)
  refine (List.perm_ext_iff_of_nodup ?_ hnodup).mpr fun i => ?_
  · refine List.nodup_append.mpr ⟨h.matched_nodup, hnodup.filter _, fun i hi j hj => ?_⟩
    have hj' : j ∉ l.matched := by simpa using (List.mem_filter.mp hj).2
    rintro rfl
    exact hj' hi
  · rw [List.mem_append, List.mem_filter, List.mem_range]
    constructor
    · rintro (hi | hi)
      · exact h.matched_lt hi
      · exact hi.1
    · intro hi
      by_cases hmem : i ∈ l.matched
      · exact .inl hmem
      · exact .inr ⟨hi, by simpa using hmem⟩

theorem Log.Valid.length_matched_add_orphans {m : Manifest} {l : Log} (h : l.Valid m) :
    l.matched.length + (m.orphans l.matched).length = m.entries.length := by
  have hlength := h.matched_append_rest.length_eq
  rw [← Manifest.map_snd_filter_zipIdx, List.length_append, List.length_map,
    List.length_range] at hlength
  rw [Manifest.orphans, List.length_map]
  exact hlength

/-- **Each entry of the manifest is the origin of exactly one entry of the next.** -/
theorem origins_perm (m : Manifest) (cs : List Candidate) :
    ((origins m cs).filterMap id).Perm (List.range m.entries.length) := by
  have hfound : (((Log.run m cs).arranged.map Record.index?).filterMap id).Perm
      (Log.run m cs).matched := by
    rw [List.filterMap_map]
    exact Log.filterMap_arranged_perm (fun r hr => by simp [Record.index?, hr]) _
  rw [origins, List.filterMap_append, List.filterMap_map (f := some)]
  refine (hfound.append_right _).trans ?_
  rw [show id ∘ some = @some Nat from rfl, List.filterMap_some]
  exact (Log.valid_run m cs).matched_append_rest

/-- An entry of the next manifest keeps what its origin has for life. -/
theorem forall₂_origins (m : Manifest) (cs : List Candidate) (now : Instant) :
    List.Forall₂ (fun o e' => ∀ i, o = some i → ∃ e, m.entries[i]? = some e ∧ e.Heir e')
      (origins m cs) (nextManifest cs m now).entries := by
  have hvalid := Log.valid_run m cs
  rw [origins, nextManifest_eq]
  refine List.rel_append ?_ ?_
  · have hmem : ∀ r ∈ (Log.run m cs).arranged, r ∈ Log.run m cs ∧ r.fate ≠ .dropped := by
      intro r hr
      simpa using List.mem_filter.mp ((Log.arranged_perm _).mem_iff.mp hr)
    generalize (Log.run m cs).arranged = k at hmem ⊢
    induction k with
    | nil => exact .nil
    | cons r k ih =>
      obtain ⟨hr, hkept⟩ := hmem r List.mem_cons_self
      have htail := ih fun q hq => hmem q (List.mem_cons_of_mem _ hq)
      have hentry : ∃ e', r.entry? now = some e' ∧
          ∀ i, r.index? = some i → ∃ e, m.entries[i]? = some e ∧ e.Heir e' := by
        cases hi : r.index? with
        | some i =>
          obtain ⟨e, he, hnow⟩ := hvalid.exists_entry hr hi
          obtain ⟨e', he', hrefound⟩ := hnow now
          refine ⟨e', he', fun j hj => ⟨e, Option.some.inj hj ▸ he, hrefound.toHeir⟩⟩
        | none =>
          obtain ⟨c, f⟩ := r
          cases f with
          | claimed => cases hi
          | adopted => cases hi
          | added => exact ⟨_, rfl, fun i hi => by cases hi⟩
          | dropped => exact absurd rfl hkept
      obtain ⟨e', he', hheir⟩ := hentry
      rw [List.map_cons, List.filterMap_cons_some he']
      exact .cons hheir htail
  · rw [← Manifest.map_snd_filter_zipIdx, Manifest.orphans, List.map_map,
      List.forall₂_map_left_iff, List.forall₂_map_right_iff, List.forall₂_same]
    rintro ⟨e, i⟩ hp j hj
    obtain rfl : i = j := Option.some.inj hj
    have he := List.mk_mem_zipIdx_iff_getElem?.mp (List.mem_filter.mp hp).1
    exact ⟨e, he, rfl, rfl, rfl⟩

/-- The next manifest begins with the unchanged and then the updated entries. -/
theorem origins_eq (m : Manifest) (cs : List Candidate) : ∃ rest,
    origins m cs = (Log.run m cs).unchangedIndices.map some ++
      ((Log.run m cs).updatedIndices.map some ++ rest) := by
  have hunchanged : ∀ r ∈ (Log.run m cs).filter Record.isUnchanged, r.index?.isSome := by
    rintro ⟨c, f⟩ h
    cases f <;> simp_all [Record.isUnchanged, Record.index?]
  have hupdated : ∀ r ∈ (Log.run m cs).filter Record.isUpdated, r.index?.isSome := by
    rintro ⟨c, f⟩ h
    cases f <;> simp_all [Record.isUpdated, Record.index?]
  rw [origins, Log.arranged, List.map_append, List.map_append, ← map_some_filterMap hunchanged,
    ← map_some_filterMap hupdated, List.append_assoc, List.append_assoc]
  exact ⟨_, rfl⟩

/-- The entry with index `j` of the next manifest comes from the entry with index `i`. -/
def Descends (m : Manifest) (cs : List Candidate) (i j : Nat) : Prop :=
  (origins m cs)[j]? = some (some i)

theorem existsUnique_descends {m : Manifest} (cs : List Candidate) {i : Nat}
    (hi : i < m.entries.length) : ∃! j, Descends m cs i j := by
  have hperm := origins_perm m cs
  have hmem : some i ∈ origins m cs := by
    simpa using List.mem_filterMap.mp (hperm.mem_iff.mpr (List.mem_range.mpr hi))
  have hpair : ((origins m cs).filterMap id).Nodup := hperm.nodup_iff.mpr List.nodup_range
  have hpair := List.pairwise_iff_getElem.mp (List.pairwise_filterMap.mp hpair)
  obtain ⟨j, hj⟩ := List.mem_iff_getElem?.mp hmem
  refine ⟨j, hj, fun k hk => ?_⟩
  obtain ⟨hjl, hj⟩ := List.getElem?_eq_some_iff.mp hj
  obtain ⟨hkl, hk⟩ := List.getElem?_eq_some_iff.mp hk
  rcases Nat.lt_trichotomy k j with hlt | heq | hlt
  · exact absurd rfl (hpair k j hkl hjl hlt i hk i hj)
  · exact heq
  · exact absurd rfl (hpair j k hjl hkl hlt i hj i hk)

theorem Descends.heir {m : Manifest} {cs : List Candidate} {i j : Nat} (h : Descends m cs i j)
    (now : Instant) : ∃ e e', m.entries[i]? = some e ∧
      (nextManifest cs m now).entries[j]? = some e' ∧ e.Heir e' := by
  have hrel := forall₂_origins m cs now
  obtain ⟨hj, hget⟩ := List.getElem?_eq_some_iff.mp h
  have hj' : j < (nextManifest cs m now).entries.length := hrel.length_eq ▸ hj
  obtain ⟨e, he, hheir⟩ := hrel.get hj hj' i hget
  exact ⟨e, _, he, List.getElem?_eq_getElem hj', hheir⟩

/-! ### Run after run -/

/-- A sequence of runs: the candidates and the time of each. -/
abbrev Runs : Type := List (List Candidate × Instant)

/-- The manifest after a sequence of runs. -/
def Manifest.after (m : Manifest) : Runs → Manifest
  | [] => m
  | r :: rs => (nextManifest r.1 m r.2).after rs

theorem Manifest.after_append (m : Manifest) (rs ss : Runs) :
    m.after (rs ++ ss) = (m.after rs).after ss := by
  induction rs generalizing m with
  | nil => rfl
  | cons r rs ih => exact ih (nextManifest r.1 m r.2)

/-- After a sequence of runs the entry with index `j` comes from the entry that had the index
`i` before it. -/
def DescendsTo (m : Manifest) : Runs → Nat → Nat → Prop
  | [], i, j => i = j
  | r :: rs, i, j => ∃ k, Descends m r.1 i k ∧ DescendsTo (nextManifest r.1 m r.2) rs k j

/-- No two entries have one descendant. -/
theorem DescendsTo.origin_unique {m : Manifest} {rs : Runs} {i i' j : Nat}
    (h : DescendsTo m rs i j) (h' : DescendsTo m rs i' j) : i = i' := by
  induction rs generalizing m i i' with
  | nil => exact h.trans h'.symm
  | cons r rs ih =>
    obtain ⟨k, hk, h⟩ := h
    obtain ⟨k', hk', h'⟩ := h'
    obtain rfl := ih h h'
    exact Option.some.inj (Option.some.inj (hk.symm.trans hk'))

/-- A descendant is the same identity. -/
theorem DescendsTo.heir {m : Manifest} {rs : Runs} {i j : Nat} {e : Entry}
    (h : DescendsTo m rs i j) (he : m.entries[i]? = some e) :
    ∃ e', (m.after rs).entries[j]? = some e' ∧ e.Heir e' := by
  induction rs generalizing m i e with
  | nil => exact ⟨e, h ▸ he, .refl e⟩
  | cons r rs ih =>
    obtain ⟨k, hk, h⟩ := h
    obtain ⟨f, e', hf, he', hheir⟩ := hk.heir r.2
    obtain rfl : e = f := Option.some.inj (he.symm.trans hf)
    obtain ⟨e'', he'', hheir'⟩ := ih h he'
    exact ⟨e'', he'', hheir.trans hheir'⟩

/-- **Every entry has exactly one descendant after any sequence of runs.** -/
theorem existsUnique_descendsTo (rs : Runs) {m : Manifest} {i : Nat} (hi : i < m.entries.length) :
    ∃! j, DescendsTo m rs i j := by
  induction rs generalizing m i with
  | nil => exact ⟨i, rfl, fun j hj => Eq.symm hj⟩
  | cons r rs ih =>
    obtain ⟨k, hk, honly⟩ := existsUnique_descends r.1 hi
    obtain ⟨e, e', he, he', -⟩ := hk.heir r.2
    obtain ⟨j, hj, honly'⟩ := ih (List.getElem?_eq_some_iff.mp he').1
    refine ⟨j, ⟨k, hk, hj⟩, ?_⟩
    rintro j' ⟨k', hk', hj'⟩
    obtain rfl := honly k' hk'
    exact honly' j' hj'

/-! ### Conservation -/

theorem matched_reconcile_perm (cs : List Candidate) (m : Manifest) (now : Instant) :
    (reconcile cs m now).matched.Perm (Log.run m cs).matched := by
  rw [reconcile_eq]
  exact (List.mergeSort_perm _ _).trans (List.reverse_perm _)

theorem matched_reconcile_ascending (cs : List Candidate) (m : Manifest) (now : Instant) :
    (reconcile cs m now).matched.Pairwise (· < ·) := by
  have hnodup : (reconcile cs m now).matched.Nodup :=
    (matched_reconcile_perm cs m now).nodup_iff.mpr (Log.valid_run m cs).matched_nodup
  have hle : (reconcile cs m now).matched.Pairwise (· ≤ ·) := by
    rw [reconcile_eq]
    refine (List.pairwise_mergeSort ?_ ?_ _).imp fun h => by simpa using h
    · intro a b c hab hbc
      simpa using Nat.le_trans (by simpa using hab) (by simpa using hbc)
    · intro a b
      simpa using Nat.le_total a b
  exact (hle.and hnodup).imp fun h => Nat.lt_of_le_of_ne h.1 h.2

theorem orphaned_reconcile (cs : List Candidate) (m : Manifest) (now : Instant) :
    (reconcile cs m now).orphaned = m.orphans (reconcile cs m now).matched := by
  refine Eq.trans ?_ (Manifest.orphans_congr fun i =>
    (matched_reconcile_perm cs m now).mem_iff).symm
  rw [reconcile_eq]

/-- **Conservation of identities.** A run finds entries of the manifest, each of them once: the
entries found are, one for one, the updated and the unchanged ones, and those not found are the
orphans. Hence every entry has exactly one descendant in the next manifest, all others being new,
and the same holds from any point of a sequence of runs to its end. -/
theorem identities_conserved (cs : List Candidate) (m : Manifest) (now : Instant) :
    let o := reconcile cs m now
    let next := nextManifest cs m now
    (o.matched.Pairwise (· < ·) ∧ ∀ i ∈ o.matched, i < m.entries.length) ∧
    o.orphaned = ((m.entries.zipIdx.filter fun p => p.2 ∉ o.matched).map fun p =>
      { p.1 with status := .orphaned }) ∧
    (∃ f : {i // i ∈ o.matched} ≃ Fin o.updated.length ⊕ Fin o.unchanged.length, ∀ i,
      match f i with
      | .inl j => Log.Updated m now i o.updated[j] ∧ Descends m cs i (o.unchanged.length + j)
      | .inr j => Log.Unchanged m now i o.unchanged[j] ∧ Descends m cs i j) ∧
    next.version = m.version ∧
    next.entries = o.unchanged ++ o.updated.map Update.entry ++ o.created ++ o.orphaned ∧
    next.entries.length = m.entries.length + o.created.length ∧
    (∀ i < m.entries.length, ∃! j, Descends m cs i j) ∧
    ∀ (rs ss : Runs) (i : Nat) (e : Entry), (m.after rs).entries[i]? = some e →
      (∃! j, DescendsTo (m.after rs) ss i j) ∧
      ∀ j, DescendsTo (m.after rs) ss i j →
        (∀ i', DescendsTo (m.after rs) ss i' j → i' = i) ∧
        ∃ e', (m.after (rs ++ ss)).entries[j]? = some e' ∧ e.Heir e' := by
  intro o next
  have hvalid := Log.valid_run m cs
  have hperm := matched_reconcile_perm cs m now
  have hupdated : List.Forall₂ (Log.Updated m now) (Log.run m cs).updatedIndices o.updated := by
    simpa only [o, reconcile_eq] using hvalid.forall₂_updated now
  have hunchanged : List.Forall₂ (Log.Unchanged m now) (Log.run m cs).unchangedIndices
      o.unchanged := by
    simpa only [o, reconcile_eq] using hvalid.forall₂_unchanged now
  have hlt : ∀ i ∈ o.matched, i < m.entries.length := fun i hi =>
    hvalid.matched_lt (hperm.mem_iff.mp hi)
  refine ⟨⟨matched_reconcile_ascending cs m now, hlt⟩, ?_, ?_, rfl, rfl, ?_,
    fun i hi => existsUnique_descends cs hi, fun rs ss i e he => ⟨?_, ?_⟩⟩
  · rw [show o.orphaned = m.orphans o.matched from orphaned_reconcile cs m now]
    simp [Manifest.orphans]
  · obtain ⟨f, hf⟩ := exists_equiv_positions ((Log.matched_perm _).trans hperm.symm)
      ((matched_reconcile_ascending cs m now).imp Nat.ne_of_lt) hupdated.length_eq
      hunchanged.length_eq
    obtain ⟨rest, horigins⟩ := origins_eq m cs
    refine ⟨f, fun i => ?_⟩
    have hi := hf i
    cases hfi : f i with
    | inl j =>
      rw [hfi] at hi
      obtain ⟨hj, hget⟩ := List.getElem?_eq_some_iff.mp hi
      refine ⟨hget ▸ hupdated.get hj j.isLt, ?_⟩
      rw [Descends, horigins, ← hunchanged.length_eq, List.getElem?_append_right (by simp)]
      simp [List.getElem?_append_left, hj, hget]
    | inr j =>
      rw [hfi] at hi
      obtain ⟨hj, hget⟩ := List.getElem?_eq_some_iff.mp hi
      refine ⟨hget ▸ hunchanged.get hj j.isLt, ?_⟩
      rw [Descends, horigins, List.getElem?_append_left (by simpa using hj)]
      simp [hj, hget]
  · have hmatched : o.updated.length + o.unchanged.length = (Log.run m cs).matched.length := by
      rw [← hupdated.length_eq, ← hunchanged.length_eq, ← List.length_append]
      exact (Log.matched_perm _).length_eq
    have hall := hvalid.length_matched_add_orphans
    have hentries : next.entries.length = o.unchanged.length + o.updated.length + o.created.length
        + o.orphaned.length := by
      simp only [next, nextManifest, Outcome.assemble, List.length_append, List.length_map, o]
    have horphaned : o.orphaned.length = (m.orphans (Log.run m cs).matched).length := by
      simp only [o, reconcile_eq]
    omega
  · exact existsUnique_descendsTo ss (List.getElem?_eq_some_iff.mp he).1
  · intro j hj
    refine ⟨fun i' hi' => hi'.origin_unique hj, ?_⟩
    rw [Manifest.after_append]
    exact hj.heir he

/-- An entry that is moved to another namespace has one descendant. -/
theorem moved_identity_conserved :
    let m := nextManifest [.plain "a" (some "k") "X"] .fresh .epoch
    let cs : List Candidate := [.plain "b" none "X"]
    0 < m.entries.length ∧ (∃! j, Descends m cs 0 j) ∧ ∃! j, DescendsTo m [(cs, .epoch)] 0 j := by
  intro m cs
  have hlen : 0 < m.entries.length := by decide +kernel
  obtain ⟨-, -, -, -, -, -, honce, hruns⟩ := identities_conserved cs m .epoch
  exact ⟨hlen, honce 0 hlen, (hruns [] [(cs, .epoch)] 0 _ (List.getElem?_eq_getElem hlen)).1⟩

end KeyLedger
