/-!
# Byte offsets into a text

Offsets into a file count bytes of its UTF-8 form, while the text itself is a list of characters.
An offset is a *boundary* when it falls between two characters or at an end. `takeBytes` and
`dropBytes` cut at a boundary; their values at other offsets are never used.

## Main definitions

* `byteLength` — the length of the UTF-8 form
* `isBoundary` — whether an offset falls between characters
* `takeBytes`, `dropBytes` — the text before and after an offset
-/

namespace KeyLedger.Text

/-- The number of bytes in the UTF-8 form of a text. -/
def byteLength : List Char → Nat
  | [] => 0
  | c :: cs => c.utf8Size + byteLength cs

/-- Whether `n` is the byte offset of some position between characters, the two ends included. -/
def isBoundary (n : Nat) : List Char → Bool
  | [] => n == 0
  | c :: cs => n == 0 || (decide (c.utf8Size ≤ n) && isBoundary (n - c.utf8Size) cs)

/-- The characters that lie wholly within the first `n` bytes. -/
def takeBytes (n : Nat) : List Char → List Char
  | [] => []
  | c :: cs => if c.utf8Size ≤ n then c :: takeBytes (n - c.utf8Size) cs else []

/-- The characters that start at byte `n` or later. -/
def dropBytes (n : Nat) : List Char → List Char
  | [] => []
  | c :: cs => if n = 0 then c :: cs else dropBytes (n - c.utf8Size) cs

@[simp] theorem byteLength_nil : byteLength [] = 0 := rfl

@[simp] theorem byteLength_cons (c : Char) (cs : List Char) :
    byteLength (c :: cs) = c.utf8Size + byteLength cs := rfl

@[simp] theorem byteLength_append (as bs : List Char) :
    byteLength (as ++ bs) = byteLength as + byteLength bs := by
  induction as with
  | nil => simp
  | cons c as ih => simp [ih, Nat.add_assoc]

end KeyLedger.Text
