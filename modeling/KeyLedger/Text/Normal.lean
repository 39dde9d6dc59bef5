import KeyLedger.Text.Blank
import KeyLedger.Text.Lines

/-!
# The normal form of a text

Two spellings of the same text that differ only in layout have the same normal form: line endings,
exotic spaces, zero-width characters, the length of blank stretches and blanks at either end are
all forgotten. The form is computed as a chain of small passes.

## Main definitions

* `collapseBlanks` — every stretch of blanks becomes one space
* `normalize` — the whole chain, on character lists
* `normalForm` — the chain on strings
-/

namespace KeyLedger.Text

/-- Spaces beyond ASCII become plain spaces. -/
def plainSpaces (cs : List Char) : List Char :=
  cs.map fun c => if isWideSpace c then ' ' else c

/-- Zero-width characters are deleted. -/
def dropZeroWidth (cs : List Char) : List Char :=
  cs.filter fun c => !isZeroWidth c

/-- The work of `collapseBlanks`; `inRun` says that the preceding character was blank, so that the
space for the current stretch is already written. -/
def collapseFrom (inRun : Bool) : List Char → List Char
  | [] => []
  | c :: cs =>
    if isBlank c then
      if inRun then collapseFrom true cs else ' ' :: collapseFrom true cs
    else c :: collapseFrom false cs

/-- Every stretch of blanks becomes a single space. -/
def collapseBlanks (cs : List Char) : List Char :=
  collapseFrom false cs

/-- The normal form: unify line endings, make spaces plain, delete zero-width characters, collapse
blank stretches, trim. -/
def normalize (cs : List Char) : List Char :=
  trim (collapseBlanks (dropZeroWidth (plainSpaces (unifyLineEnds cs))))

/-- `normalize` on strings. -/
def normalForm (s : String) : String :=
  String.ofList (normalize s.toList)

end KeyLedger.Text
