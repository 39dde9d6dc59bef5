import KeyLedger.Proofs.Manifest.RoundTrip

/-!
# Manifests that are stored alike

The persisted form of a manifest does not show the order of its entries, except for entries of one
rank, which agree in namespace, file and key; there no key counts as the empty one. So two manifests
have one persisted form if and only if they have one version and the entries of the one are those of
the other in a different order that leaves entries of one rank in theirs. Nothing else is lost: the
text gives away the version and the sorted entries.

A change of order is a permutation of the entries together with their places, so that equal entries
are told apart. All that matters about it is which entries of each rank there are, and in what order.

## Main definitions

* `Rearranges` — a change of order that leaves elements of one rank in theirs

## Main results

* `rearranges_iff` — such a change is one that leaves the elements of each rank as they are
* `RankedAs.eq_iff` — when lists are ranked alike
* `stored_alike_iff` — when manifests are stored alike
-/

namespace KeyLedger

/-! ### Rearrangements -/

section Rearranges

variable {α β : Type} [DecidableEq β] {rank : α → β} {l k : List α}

/-- One list is another in a different order, where elements of one rank stay in theirs: the elements
are moved together with their places, and of two with one rank the one from the lower place stands
first. -/
def Rearranges (rank : α → β) (l k : List α) : Prop :=
  ∃ moved : List (α × Nat), moved.Perm l.zipIdx ∧ moved.map Prod.fst = k ∧
    moved.Pairwise fun a b => rank a.1 = rank b.1 → a.2 < b.2

/-- The places of a list ascend. -/
theorem pairwise_snd_zipIdx (l : List α) (n : Nat) :
    (l.zipIdx n).Pairwise fun a b => a.2 < b.2 := by
  have hplaces : ((l.zipIdx n).map Prod.snd).Pairwise (· < ·) := by
    rw [List.zipIdx_map_snd]
    exact List.pairwise_lt_range'
  exact List.pairwise_map.mp hplaces

theorem Rearranges.filter_eq (h : Rearranges rank l k) (r : β) :
    l.filter (fun a => rank a = r) = k.filter fun a => rank a = r := by
  obtain ⟨moved, hperm, rfl, hstays⟩ := h
  have hmoved : (moved.filter fun a => rank a.1 = r).Pairwise fun a b => a.2 < b.2 := by
    refine (hstays.filter _).imp_of_mem fun {a b} ha hb hlt => hlt ?_
    rw [of_decide_eq_true (List.mem_filter.mp ha).2, of_decide_eq_true (List.mem_filter.mp hb).2]
  have hsame : moved.filter (fun a => rank a.1 = r) = l.zipIdx.filter fun a => rank a.1 = r := by
    refine List.Perm.eq_of_pairwise (fun a b _ _ hab hba => ?_) hmoved
      ((pairwise_snd_zipIdx l 0).filter _) (hperm.filter _)
    exact absurd hba (Nat.lt_asymm hab)
  calc l.filter (fun a => rank a = r)
      = (l.zipIdx.map Prod.fst).filter (fun a => rank a = r) := by rw [List.zipIdx_map_fst]
    _ = (l.zipIdx.filter fun a => rank a.1 = r).map Prod.fst := List.filter_map
    _ = (moved.filter fun a => rank a.1 = r).map Prod.fst := by rw [hsame]
    _ = (moved.map Prod.fst).filter fun a => rank a = r := by rw [List.filter_map]; rfl

/-- The first element is moved to the place of the first of its rank. -/
theorem exists_moved (h : ∀ r, l.filter (fun a => rank a = r) = k.filter fun a => rank a = r)
    (n : Nat) :
    ∃ moved : List (α × Nat), moved.Perm (l.zipIdx n) ∧ moved.map Prod.fst = k ∧
      moved.Pairwise fun a b => rank a.1 = rank b.1 → a.2 < b.2 := by
  induction l generalizing k n with
  | nil =>
    have hk : k = [] := by
      refine List.eq_nil_iff_forall_not_mem.mpr fun a ha => ?_
      have hmem : a ∈ k.filter fun b => rank b = rank a := List.mem_filter.mpr ⟨ha, by simp⟩
      rw [← h] at hmem
      exact List.not_mem_nil hmem
    exact ⟨[], List.Perm.refl _, hk.symm, List.Pairwise.nil⟩
  | cons a l ih =>
    have hfirst := h (rank a)
    rw [List.filter_cons_of_pos (by simp)] at hfirst
    obtain ⟨k₁, k₂, rfl, hbefore, -, hafter⟩ := List.filter_eq_cons_iff.mp hfirst.symm
    have hrest : ∀ r, l.filter (fun b => rank b = r) =
        (k₁ ++ k₂).filter fun b => rank b = r := by
      intro r
      by_cases hr : rank a = r
      · subst hr
        rw [List.filter_append, List.filter_eq_nil_iff.mpr hbefore, List.nil_append, hafter]
      · have hall := h r
        rwa [List.filter_cons_of_neg (by simpa using hr), List.filter_append,
          List.filter_cons_of_neg (by simpa using hr), ← List.filter_append] at hall
    obtain ⟨moved, hperm, hmap, hstays⟩ := ih hrest (n + 1)
    obtain ⟨m₁, m₂, rfl, rfl, rfl⟩ := List.map_eq_append_iff.mp hmap
    have hplace : ∀ b ∈ m₁ ++ m₂, n < b.2 :=
      fun b hb => List.le_snd_of_mem_zipIdx (hperm.mem_iff.mp hb)
    obtain ⟨hm₁, hm₂, hcross⟩ := List.pairwise_append.mp hstays
    refine ⟨m₁ ++ (a, n) :: m₂, ?_, by simp, List.pairwise_append.mpr ⟨hm₁, ?_, ?_⟩⟩
    · rw [List.zipIdx_cons]
      exact List.perm_middle.trans (hperm.cons _)
    · refine List.pairwise_cons.mpr ⟨fun b hb _ => ?_, hm₂⟩
      exact hplace b (List.mem_append_right _ hb)
    · -- nothing of the rank of the first element stands before it
      intro b hb c hc heq
      rcases List.mem_cons.mp hc with rfl | hc
      · exact absurd (decide_eq_true heq) (hbefore b.1 (List.mem_map_of_mem hb))
      · exact hcross b hb c hc heq

/-- **A rearrangement leaves the elements of each rank as they are**, and is nothing else. -/
theorem rearranges_iff : Rearranges rank l k ↔
    ∀ r, l.filter (fun a => rank a = r) = k.filter fun a => rank a = r :=
  ⟨Rearranges.filter_eq, fun h => exists_moved h 0⟩

end Rearranges

/-! ### Manifests -/

theorem RankedAs.filter_tied {es sorted : List Entry} (h : RankedAs es sorted) (e : Entry) :
    sorted.filter (tied Manifest.entryLE e) = es.filter fun b => b.rank = e.rank := by
  have htied : tied Manifest.entryLE e = fun b => decide (b.rank = e.rank) := by
    funext b
    rw [Bool.eq_iff_iff, decide_eq_true_eq, Manifest.tied_iff_rank_eq]
  rw [htied, h.stable]

/-- **Two lists are ranked alike** if and only if one is a rearrangement of the other. -/
theorem RankedAs.eq_iff {es fs sorted sorted' : List Entry} (h : RankedAs es sorted)
    (h' : RankedAs fs sorted') : sorted = sorted' ↔ Rearranges Entry.rank es fs := by
  rw [rearranges_iff]
  constructor
  · rintro rfl r
    rw [← h.stable, h'.stable]
  · intro hsame
    refine eq_of_filter_tied Manifest.entryLE_total
      (h.ascending.imp fun hle => Manifest.entryLE_iff.mpr hle)
      (h'.ascending.imp fun hle => Manifest.entryLE_iff.mpr hle) fun e => ?_
    rw [h.filter_tied, h'.filter_tied, hsame]

/-- The persisted order is the only one that is by rank. -/
theorem Manifest.rankedAs_iff (m : Manifest) (sorted : List Entry) :
    RankedAs m.entries sorted ↔ sorted = m.sorted.entries := by
  constructor
  · intro h
    exact (h.eq_iff m.rankedAs_sorted).mpr (rearranges_iff.mpr fun _ => rfl)
  · rintro rfl
    exact m.rankedAs_sorted

theorem Manifest.stableText_eq_iff_entries {m n : Manifest} : m.stableText = n.stableText ↔
    m.version = n.version ∧ m.sorted.entries = n.sorted.entries := by
  rw [stableText_eq_iff]
  constructor
  · intro h
    exact Manifest.mk.inj h
  · rintro ⟨hversion, hentries⟩
    exact (Manifest.mk.injEq ..).mpr ⟨hversion, hentries⟩

/-- **When manifests are stored alike.** They have one persisted form if and only if they have one
version and the entries of the one are a rearrangement of the entries of the other, by namespace,
file and key. This is so if and only if they have one version and one list is the only one that has
the entries of either in the order of these three, ties as they stood. -/
theorem stored_alike_iff (m n : Manifest) :
    (m.stableText = n.stableText ↔
      m.version = n.version ∧ Rearranges Entry.rank m.entries n.entries) ∧
    (m.stableText = n.stableText ↔
      m.version = n.version ∧ ∃ sorted, (∀ es, RankedAs m.entries es ↔ es = sorted) ∧
        ∀ es, RankedAs n.entries es ↔ es = sorted) := by
  rw [Manifest.stableText_eq_iff_entries]
  refine ⟨and_congr_right' (m.rankedAs_sorted.eq_iff n.rankedAs_sorted), and_congr_right' ?_⟩
  constructor
  · intro h
    exact ⟨m.sorted.entries, m.rankedAs_iff, h ▸ n.rankedAs_iff⟩
  · rintro ⟨sorted, hm, hn⟩
    rw [(hm _).mp m.rankedAs_sorted, (hn _).mp n.rankedAs_sorted]

end KeyLedger
