import KeyLedger.Json.Token
import Mathlib.Data.List.TakeWhile

/-!
# Scalars are read as they were written

Two round trips for the parts of a JSON text that are more than a word: a quoted string, and an
integer of 64 bits. Both are about the characters between the delimiters, so that they can be used
whatever surrounds the scalar.

## Main results

* `Quoted.decode_encode` — the text between quotes
* `Token.foldlM_step_encode` — the lexer keeps to the quotes
* `Literal.exists_cons_of_parse?` — the characters of a numeric literal
* `Token.number?_text` — integers
-/

namespace KeyLedger

/-! ### Quoted strings -/

namespace Text

theorem hexValue?_hexDigit {n : Nat} (h : n < 16) : hexValue? (hexDigit n) = some n := by
  revert n
  decide

end Text

namespace Quoted

/-- A character below the space is one of finitely many, and each comes back. -/
theorem elements?_escape_lt {n : Nat} (h : n < 0x20) (rest : List Char) :
    elements? ('\\' :: 'u' :: '0' :: '0' ::
        Text.hexDigit (n / 16) :: Text.hexDigit (n % 16) :: rest) =
      (elements? rest).map (.char (Char.ofNat n) :: ·) := by
  have hvalue : hex4? '0' '0' (Text.hexDigit (n / 16)) (Text.hexDigit (n % 16)) = some n := by
    have hzero : Text.hexValue? '0' = some 0 := by decide
    rw [hex4?, hzero, Text.hexValue?_hexDigit (by omega), Text.hexValue?_hexDigit (by omega)]
    simp only [Option.bind_eq_bind, Option.bind_some, pure, Option.some.injEq]
    omega
  have hunit : Element.ofUnit n = .char (Char.ofNat n) := by
    have hhigh : isHigh n = false := by simp [isHigh]; omega
    have hlow : isLow n = false := by simp [isLow]; omega
    simp [Element.ofUnit, hhigh, hlow]
  rw [elements?, hvalue]
  cases elements? rest <;> simp [hunit]

/-- A character is escaped by a letter, escaped by its number, or written as it is. -/
theorem encodeChar_cases (c : Char) :
    (∃ a, a ≠ 'u' ∧ escaped? a = some c ∧ encodeChar c = ['\\', a]) ∨
    (c.toNat < 0x20 ∧ encodeChar c =
      ['\\', 'u', '0', '0', Text.hexDigit (c.toNat / 16), Text.hexDigit (c.toNat % 16)]) ∨
    (c ≠ '"' ∧ c ≠ '\\' ∧ ¬ c.toNat < 0x20 ∧ encodeChar c = [c]) := by
  unfold encodeChar
  split_ifs with hquote hback hb hf hn hr ht hlow
  · exact .inl ⟨'"', by decide, by subst hquote; decide, rfl⟩
  · exact .inl ⟨'\\', by decide, by subst hback; decide, rfl⟩
  · exact .inl ⟨'b', by decide, by subst hb; decide, rfl⟩
  · exact .inl ⟨'f', by decide, by subst hf; decide, rfl⟩
  · exact .inl ⟨'n', by decide, by subst hn; decide, rfl⟩
  · exact .inl ⟨'r', by decide, by subst hr; decide, rfl⟩
  · exact .inl ⟨'t', by decide, by subst ht; decide, rfl⟩
  · exact .inr (.inl ⟨hlow, rfl⟩)
  · exact .inr (.inr ⟨hquote, hback, hlow, rfl⟩)

theorem elements?_encodeChar (c : Char) (rest : List Char) :
    elements? (encodeChar c ++ rest) = (elements? rest).map (.char c :: ·) := by
  obtain ⟨a, ha, hx, heq⟩ | ⟨hlow, heq⟩ | ⟨-, hback, hlow, heq⟩ := encodeChar_cases c
  · rw [heq, List.cons_append, List.singleton_append, elements?]
    · rw [hx]
      cases elements? rest <;> simp
    · rintro - - - - - rfl
      exact absurd rfl ha
  · have hchar := elements?_escape_lt hlow rest
    rw [Char.ofNat_toNat] at hchar
    rw [heq]
    exact hchar
  · rw [heq, List.singleton_append, elements?]
    · rw [if_neg (by simp [hlow, hback])]
    · rintro a b d e r rfl
      exact absurd rfl hback
    · rintro a r rfl
      exact absurd rfl hback

/-- The elements of a written text are its characters. -/
theorem elements?_encode (cs : List Char) : elements? (encode cs) = some (cs.map .char) := by
  induction cs with
  | nil => rfl
  | cons c cs ih =>
    have hcons : encode (c :: cs) = encodeChar c ++ encode cs := rfl
    rw [hcons, elements?_encodeChar, ih]
    rfl

theorem join?_map_char (cs : List Char) : join? (cs.map .char) = some cs := by
  induction cs with
  | nil => rfl
  | cons c cs ih => rw [List.map_cons, join?, ih]; rfl

/-- **Reading undoes writing.** -/
theorem decode_encode (cs : List Char) : decode (encode cs) = some (some cs) := by
  rw [decode, elements?_encode, Option.map_some, join?_map_char]

end Quoted

namespace Token

theorem hexDigit_plain {n : Nat} (h : n < 16) : Text.hexDigit n ≠ '"' ∧ Text.hexDigit n ≠ '\\' := by
  revert n
  decide

theorem step_text_of_plain {c : Char} (hquote : c ≠ '"') (hback : c ≠ '\\') (raw : List Char)
    (ts : List Token) : step ⟨.text raw, ts⟩ c = some ⟨.text (c :: raw), ts⟩ := by
  simp [step, hquote, hback]

/-- Within quotes the lexer passes over the escape of a character. -/
theorem foldlM_step_encodeChar (c : Char) (raw : List Char) (ts : List Token) :
    (Quoted.encodeChar c).foldlM step ⟨.text raw, ts⟩ =
      some ⟨.text ((Quoted.encodeChar c).reverse ++ raw), ts⟩ := by
  obtain ⟨a, -, -, heq⟩ | ⟨hlow, heq⟩ | ⟨hquote, hback, -, heq⟩ := Quoted.encodeChar_cases c
  · rw [heq]
    simp [step]
  · obtain ⟨hquote₁, hback₁⟩ := hexDigit_plain (n := c.toNat / 16) (by omega)
    obtain ⟨hquote₀, hback₀⟩ := hexDigit_plain (n := c.toNat % 16) (by omega)
    rw [heq]
    simp [step, hquote₁, hback₁, hquote₀, hback₀]
  · rw [heq, List.foldlM_cons, step_text_of_plain hquote hback]
    rfl

theorem foldlM_step_encode (cs raw : List Char) (ts : List Token) :
    (Quoted.encode cs).foldlM step ⟨.text raw, ts⟩ =
      some ⟨.text ((Quoted.encode cs).reverse ++ raw), ts⟩ := by
  induction cs generalizing raw with
  | nil => rfl
  | cons c cs ih =>
    have hcons : Quoted.encode (c :: cs) = Quoted.encodeChar c ++ Quoted.encode cs := rfl
    rw [hcons, List.foldlM_append, foldlM_step_encodeChar, Option.bind_eq_bind, Option.bind_some,
      ih]
    simp

end Token

/-! ### The characters of literals -/

theorem Token.isNumeral_of_isDigit {c : Char} (h : c.isDigit = true) : isNumeral c = true := by
  simp [isNumeral, h]

namespace Literal

open Token (isNumeral)

theorem isNumeral_of_exponent? {cs : List Char} {e : Option (Bool × List Char)}
    (h : exponent? cs = some e) : ∀ c ∈ cs, isNumeral c = true := by
  have hdigits : ∀ {ds : List Char} {b : Bool},
      (if ds.isEmpty || !ds.all Char.isDigit then none else some (some (b, ds))) = some e →
      ∀ c ∈ ds, isNumeral c = true := by
    intro ds b hds c hc
    split at hds
    · cases hds
    · next hguard =>
      simp only [Bool.or_eq_true, Bool.not_eq_true', not_or, Bool.not_eq_false] at hguard
      exact Token.isNumeral_of_isDigit (List.all_eq_true.mp hguard.2 c hc)
  unfold exponent? at h
  split at h
  · simp
  · next x cs =>
    split at h
    · next hx =>
      have hmark : isNumeral x = true := by rcases hx with rfl | rfl <;> rfl
      refine List.forall_mem_cons.mpr ⟨hmark, ?_⟩
      split at h
      next neg ds heq =>
        split at heq
        · obtain ⟨-, rfl⟩ := Prod.mk.inj heq
          exact List.forall_mem_cons.mpr ⟨rfl, hdigits h⟩
        · obtain ⟨-, rfl⟩ := Prod.mk.inj heq
          exact List.forall_mem_cons.mpr ⟨rfl, hdigits h⟩
        · obtain ⟨-, rfl⟩ := Prod.mk.inj heq
          exact hdigits h
    · cases h

theorem isNumeral_of_fraction? {cs : List Char} {f : List Char × Option (Bool × List Char)}
    (h : fraction? cs = some f) : ∀ c ∈ cs, isNumeral c = true := by
  unfold fraction? at h
  split at h
  · next cs =>
    dsimp only at h
    split at h
    · cases h
    · obtain ⟨e, he, -⟩ := Option.map_eq_some_iff.mp h
      refine List.forall_mem_cons.mpr ⟨rfl, ?_⟩
      rw [← List.takeWhile_append_dropWhile (p := Char.isDigit) (l := cs)]
      refine List.forall_mem_append.mpr ⟨fun c hc => ?_, isNumeral_of_exponent? he⟩
      exact Token.isNumeral_of_isDigit (List.mem_takeWhile_imp hc)
  · obtain ⟨e, he, -⟩ := Option.map_eq_some_iff.mp h
    exact isNumeral_of_exponent? he

/-- A literal begins with a digit or a minus sign and goes on with the characters of numbers. -/
theorem exists_cons_of_parse? {cs : List Char} {l : Literal} (h : parse? cs = some l) :
    ∃ c rest, cs = c :: rest ∧ (c.isDigit = true ∨ c = '-') ∧ ∀ d ∈ rest, isNumeral d = true := by
  have hbody : ∀ {body : List Char} {b : Bool},
      (if (body.takeWhile Char.isDigit).isEmpty || ((body.takeWhile Char.isDigit).head? == some '0'
          && (body.takeWhile Char.isDigit).length != 1) then none
        else (fraction? (body.dropWhile Char.isDigit)).map fun (fraction, exponent) =>
          ({ negative := b, whole := body.takeWhile Char.isDigit, fraction, exponent } : Literal)) =
        some l →
      (∃ c rest, body = c :: rest ∧ c.isDigit = true) ∧ ∀ d ∈ body, isNumeral d = true := by
    intro body b hl
    split at hl
    · cases hl
    · next hguard =>
      obtain ⟨f, hf, -⟩ := Option.map_eq_some_iff.mp hl
      simp only [Bool.or_eq_true, not_or, List.isEmpty_iff] at hguard
      constructor
      · cases body with
        | nil => exact absurd rfl hguard.1
        | cons c rest =>
          refine ⟨c, rest, rfl, ?_⟩
          by_contra hc
          exact hguard.1 (List.takeWhile_cons_of_neg hc)
      · rw [← List.takeWhile_append_dropWhile (p := Char.isDigit) (l := body)]
        refine List.forall_mem_append.mpr ⟨fun c hc => ?_, isNumeral_of_fraction? hf⟩
        exact Token.isNumeral_of_isDigit (List.mem_takeWhile_imp hc)
  unfold parse? at h
  split at h
  next neg body heq =>
    obtain ⟨⟨c, rest, hcons, hc⟩, hall⟩ := hbody h
    split at heq
    · obtain ⟨-, rfl⟩ := Prod.mk.inj heq
      exact ⟨'-', _, rfl, .inr rfl, hall⟩
    · obtain ⟨-, rfl⟩ := Prod.mk.inj heq
      subst hcons
      exact ⟨c, rest, rfl, .inl hc, fun d hd => hall d (List.mem_cons_of_mem _ hd)⟩

end Literal

/-! ### Integers -/

section Integers

theorem digitValue_le (s : Nat) (ds : List Char) : s ≤ Nat.ofDigitChars 10 ds s := by
  induction ds generalizing s with
  | nil => rw [Nat.ofDigitChars_nil]
  | cons d ds ih =>
    rw [Nat.ofDigitChars_cons]
    exact Nat.le_trans (by omega) (ih _)

/-- Digits that fit are absorbed to the last. -/
theorem Literal.absorb_eq {s : Nat} {ds : List Char} (h : Nat.ofDigitChars 10 ds s < UInt64.size) :
    absorb s ds = (Nat.ofDigitChars 10 ds s, []) := by
  induction ds generalizing s with
  | nil => rw [absorb, Nat.ofDigitChars_nil]
  | cons d ds ih =>
    rw [Nat.ofDigitChars_cons] at h ⊢
    have hstep : 10 * s + digitValue d < UInt64.size := Nat.lt_of_le_of_lt (digitValue_le _ ds) h
    rw [absorb, if_pos hstep]
    exact ih h

/-- Only zero is written with a leading zero. -/
theorem head?_toDigits {n : Nat} (h : (Nat.toDigits 10 n).head? = some '0') : n = 0 := by
  induction n using Nat.strongRecOn with
  | ind n ih =>
    by_cases hn : n < 10
    · have hdigit : ∀ d < 10, [d.digitChar].head? = some '0' → d = 0 := by decide
      rw [Nat.toDigits_of_lt_base hn] at h
      exact hdigit n hn h
    · rw [Nat.toDigits_of_base_le (by decide) (by omega), List.head?_append,
        List.head?_eq_some_head Nat.toDigits_ne_nil, Option.some_or,
        ← List.head?_eq_some_head] at h
      have := ih (n / 10) (by omega) h
      omega

/-- The spelling of a number in decimal is a literal without a fraction or an exponent. -/
theorem Literal.parse?_toDigits (n : Nat) :
    parse? (Nat.toDigits 10 n) = some ⟨false, Nat.toDigits 10 n, [], none⟩ ∧
      parse? ('-' :: Nat.toDigits 10 n) = some ⟨true, Nat.toDigits 10 n, [], none⟩ := by
  have hdigits : ∀ c ∈ Nat.toDigits 10 n, c.isDigit = true := fun c hc =>
    Nat.isDigit_of_mem_toDigits (by decide) (by decide) hc
  have htake : (Nat.toDigits 10 n).takeWhile Char.isDigit = Nat.toDigits 10 n :=
    List.takeWhile_eq_self_iff.mpr hdigits
  have hdrop : (Nat.toDigits 10 n).dropWhile Char.isDigit = [] :=
    List.dropWhile_eq_nil_iff.mpr hdigits
  have hshape : ((Nat.toDigits 10 n).isEmpty ||
      ((Nat.toDigits 10 n).head? == some '0' && (Nat.toDigits 10 n).length != 1)) = false := by
    simp only [Bool.or_eq_false_iff, List.isEmpty_eq_false_iff, Bool.and_eq_false_iff]
    refine ⟨Nat.toDigits_ne_nil, ?_⟩
    by_cases hzero : (Nat.toDigits 10 n).head? = some '0'
    · right
      rw [head?_toDigits hzero, Nat.toDigits_zero]
      rfl
    · left
      simpa using hzero
  constructor
  · have hminus : ∀ body, Nat.toDigits 10 n ≠ '-' :: body := fun body hbody =>
      absurd (hdigits '-' (hbody ▸ List.mem_cons_self)) (by decide)
    unfold parse?
    split
    next neg body heq =>
      split at heq
      · next body' hcs => exact absurd hcs (hminus body')
      · obtain ⟨rfl, rfl⟩ := Prod.mk.inj heq
        simp [htake, hdrop, hshape, fraction?, exponent?]
  · simp [parse?, htake, hdrop, hshape, fraction?, exponent?]

/-- **An integer is the value of its own spelling.** -/
theorem Token.number?_text {n : Int} (wide : IsWide n) :
    number? (Number.int n wide).text = some (.num (some (.int n wide))) := by
  obtain ⟨hpos, hneg⟩ := Literal.parse?_toDigits n.natAbs
  have hsmall : n.natAbs < UInt64.size := by
    have := wide.1
    have := wide.2
    change n.natAbs < 18446744073709551616
    omega
  have habsorb : Literal.absorb 0 (Nat.toDigits 10 n.natAbs) = (n.natAbs, []) := by
    have hvalue : Nat.ofDigitChars 10 (Nat.toDigits 10 n.natAbs) 0 = n.natAbs :=
      Nat.ofDigitChars_ten_toDigits
    rw [Literal.absorb_eq (by rw [hvalue]; exact hsmall), hvalue]
  rw [number?, Number.text]
  generalize hk : n.natAbs = k at hpos hneg habsorb ⊢
  by_cases hlt : n < 0
  · have hval : -(k : Int) = n := by omega
    have hne : k ≠ 0 := by omega
    simp [hlt, hneg, Literal.value?, habsorb, Literal.integer?, hval, wide, hne]
  · have hval : (k : Int) = n := by omega
    simp [hlt, hpos, Literal.value?, habsorb, Literal.integer?, hval, wide]

end Integers

end KeyLedger
