import KeyLedger.Text.Bytes

/-!
# Bytes and characters

An offset is a boundary of a text if the text is one text after another, the first of which has as
many bytes as the offset says. All that is known about cutting at an offset follows from that: the
text before a boundary is the first of the two, the text after it is the second, and the bytes
between two boundaries are those of the text between them.

For the UTF-8 form of a text, and for what it is for an offset to be valid in it, there are the
definitions of the library; the ones used here agree with them.

## Main results

* `isBoundary_iff` — a boundary is where one text ends and another one begins
* `isBoundary_iff_isValid` — boundaries are the valid offsets
* `exists_split` — a later boundary splits what follows an earlier one
* `extract_utf8Encode` — the bytes of a part of a text
-/

namespace KeyLedger.Text

variable {n : Nat} {as bs cs : List Char}

/-! ### Boundaries -/

theorem takeBytes_append (as bs : List Char) : takeBytes (byteLength as) (as ++ bs) = as := by
  induction as with
  | nil =>
    cases bs with
    | nil => rfl
    | cons c bs =>
      have hpos := c.utf8Size_pos
      simp only [List.nil_append, takeBytes, byteLength_nil, if_neg (Nat.not_le_of_gt hpos)]
  | cons c as ih =>
    simp only [List.cons_append, takeBytes, byteLength_cons, if_pos (Nat.le_add_right _ _),
      Nat.add_sub_cancel_left, ih]

theorem dropBytes_append (as bs : List Char) : dropBytes (byteLength as) (as ++ bs) = bs := by
  induction as with
  | nil => cases bs <;> rfl
  | cons c as ih =>
    have hne : c.utf8Size + byteLength as ≠ 0 := by
      have hpos := c.utf8Size_pos
      omega
    simp only [List.cons_append, dropBytes, byteLength_cons, if_neg hne, Nat.add_sub_cancel_left,
      ih]

/-- **A boundary is where one text ends and another one begins.** -/
theorem isBoundary_iff : isBoundary n cs = true ↔ ∃ as bs, cs = as ++ bs ∧ byteLength as = n := by
  constructor
  · intro h
    induction cs generalizing n with
    | nil => exact ⟨[], [], rfl, (eq_of_beq h).symm⟩
    | cons c cs ih =>
      simp only [isBoundary, Bool.or_eq_true, beq_iff_eq, Bool.and_eq_true,
        decide_eq_true_eq] at h
      rcases h with rfl | ⟨hle, hrest⟩
      · exact ⟨[], c :: cs, rfl, rfl⟩
      · obtain ⟨as, bs, rfl, hlength⟩ := ih hrest
        refine ⟨c :: as, bs, rfl, ?_⟩
        rw [byteLength_cons]
        omega
  · rintro ⟨as, bs, rfl, rfl⟩
    induction as with
    | nil => cases bs <;> simp [isBoundary]
    | cons c as ih => simp [isBoundary, ih]

/-- Only the empty text has no bytes. -/
theorem byteLength_eq_zero_iff : byteLength cs = 0 ↔ cs = [] := by
  cases cs with
  | nil => simp
  | cons c cs =>
    have hpos := c.utf8Size_pos
    simp only [byteLength_cons, List.cons_ne_nil, iff_false]
    omega

/-- **A later boundary splits what follows an earlier one.** -/
theorem exists_split (h : isBoundary n (as ++ bs) = true) (hle : byteLength as ≤ n) :
    ∃ mid rest, bs = mid ++ rest ∧ byteLength as + byteLength mid = n := by
  obtain ⟨before, after, hsplit, rfl⟩ := isBoundary_iff.mp h
  rcases List.append_eq_append_iff.mp hsplit with ⟨mid, rfl, rfl⟩ | ⟨mid, rfl, rfl⟩
  · exact ⟨mid, after, rfl, (byteLength_append as mid).symm⟩
  · -- the later boundary would come first, unless nothing lies between the two
    rw [byteLength_append] at hle
    obtain rfl : mid = [] := byteLength_eq_zero_iff.mp (by omega)
    exact ⟨[], bs, rfl, by simp⟩

/-! ### The UTF-8 form -/

theorem size_utf8Encode (cs : List Char) : cs.utf8Encode.size = byteLength cs := by
  induction cs with
  | nil => rfl
  | cons c cs ih =>
    rw [List.utf8Encode_cons, ByteArray.size_append, ih, List.utf8Encode_singleton,
      List.size_toByteArray, String.length_utf8EncodeChar, byteLength_cons]

theorem byteLength_toList (s : String) : byteLength s.toList = s.utf8ByteSize := by
  rw [← size_utf8Encode, String.utf8Encode_toList, String.size_toByteArray]

/-- **Boundaries are the valid offsets.** -/
theorem isBoundary_iff_isValid {s : String} :
    isBoundary n s.toList = true ↔ (⟨n⟩ : String.Pos.Raw).IsValid s := by
  rw [isBoundary_iff, String.Pos.Raw.isValid_iff_exists_append]
  constructor
  · rintro ⟨as, bs, hsplit, rfl⟩
    refine ⟨String.ofList as, String.ofList bs, ?_, ?_⟩
    · rw [← String.ofList_append, ← hsplit, String.ofList_toList]
    · rw [String.Pos.Raw.ext_iff, String.byteIdx_rawEndPos, ← byteLength_toList,
        String.toList_ofList]
  · rintro ⟨s₁, s₂, rfl, hend⟩
    refine ⟨s₁.toList, s₂.toList, String.toList_append, ?_⟩
    rw [byteLength_toList, ← String.byteIdx_rawEndPos, ← hend]

/-- **The bytes of a part of a text.** -/
theorem extract_utf8Encode (as bs cs : List Char) :
    (as ++ (bs ++ cs)).utf8Encode.extract (byteLength as) (byteLength as + byteLength bs) =
      bs.utf8Encode := by
  calc
    _ = (bs ++ cs).utf8Encode.extract 0 (byteLength bs) := by
      rw [List.utf8Encode_append]
      exact ByteArray.extract_append_size_add' (i := 0) (size_utf8Encode as).symm
    _ = bs.utf8Encode := by
      rw [List.utf8Encode_append]
      exact ByteArray.extract_append_eq_left (size_utf8Encode bs).symm

end KeyLedger.Text
