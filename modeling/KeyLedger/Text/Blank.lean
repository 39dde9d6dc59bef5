/-!
# Blank and zero-width characters

The two character classes that decide what counts as layout in a text: the `White_Space` property
of Unicode, and the zero-width characters that occupy no space at all. The classes are disjoint:
a zero-width character is not white space.

## Main definitions

* `isBlank` — the 25 characters with the `White_Space` property
* `isWideSpace` — those of them that stand for a plain space
* `isZeroWidth` — the five characters that take no space
* `trim` — a text without its leading and trailing blanks
-/

namespace KeyLedger.Text

/-- Whether the code point of `c` lies in one of the closed intervals of `ranges`. -/
def inRanges (ranges : List (Nat × Nat)) (c : Char) : Bool :=
  ranges.any fun r => decide (r.1 ≤ c.toNat ∧ c.toNat ≤ r.2)

/-- The code points with the `White_Space` property, as closed intervals. -/
def blankRanges : List (Nat × Nat) :=
  [(0x9, 0xD), (0x20, 0x20), (0x85, 0x85), (0xA0, 0xA0), (0x1680, 0x1680), (0x2000, 0x200A),
   (0x2028, 0x2029), (0x202F, 0x202F), (0x205F, 0x205F), (0x3000, 0x3000)]

/-- Blank characters: exactly the `White_Space` property. -/
def isBlank (c : Char) : Bool :=
  inRanges blankRanges c

/-- The spaces beyond ASCII: no-break, ogham, the typographic widths and the ideographic space. -/
def wideSpaceRanges : List (Nat × Nat) :=
  [(0xA0, 0xA0), (0x1680, 0x1680), (0x2000, 0x200A), (0x202F, 0x202F), (0x205F, 0x205F),
   (0x3000, 0x3000)]

/-- Spaces beyond ASCII, each of which reads as a plain space. -/
def isWideSpace (c : Char) : Bool :=
  inRanges wideSpaceRanges c

/-- Zero-width space, non-joiner and joiner, the word joiner, and the byte order mark. -/
def zeroWidthRanges : List (Nat × Nat) :=
  [(0x200B, 0x200D), (0x2060, 0x2060), (0xFEFF, 0xFEFF)]

/-- Characters that take no space and carry no content. -/
def isZeroWidth (c : Char) : Bool :=
  inRanges zeroWidthRanges c

/-! ### Trimming -/

/-- A list without its longest final stretch satisfying `p`. -/
def dropTrailing {α : Type} (p : α → Bool) (l : List α) : List α :=
  (l.reverse.dropWhile p).reverse

/-- A text without its leading and trailing blanks. -/
def trim (cs : List Char) : List Char :=
  dropTrailing isBlank (cs.dropWhile isBlank)

/-- `trim` on strings. -/
def trimmed (s : String) : String :=
  String.ofList (trim s.toList)

end KeyLedger.Text
