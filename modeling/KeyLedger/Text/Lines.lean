/-!
# Lines and pieces

Ways of cutting a text at a character. `pieces` drops the separator and therefore always yields at
least one piece; `lines` keeps each line feed at the end of its line, so that the lines of a text
concatenate to the text itself. Line endings are unified by reading CR LF, and then every CR that
is left, as a line feed.

## Main definitions

* `pieces` — the stretches between the occurrences of a separator
* `lines` — the lines of a text with their line feeds
* `unifyLineEnds` — CR LF and CR read as LF
-/

namespace KeyLedger.Text

/-- The stretches of a text between the occurrences of `sep`; one more than there are
separators. -/
def pieces (sep : Char) : List Char → List (List Char)
  | [] => [[]]
  | c :: cs =>
    if c = sep then [] :: pieces sep cs
    else
      match pieces sep cs with
      | [] => [[c]]
      | p :: ps => (c :: p) :: ps

/-- `pieces` on strings. -/
def splitAt (sep : Char) (s : String) : List String :=
  (pieces sep s.toList).map String.ofList

/-- The lines of a text, each with the line feed that ends it. Only the last may lack one, and no
line is empty. -/
def lines : List Char → List (List Char)
  | [] => []
  | c :: cs =>
    if c = '\n' then [c] :: lines cs
    else
      match lines cs with
      | [] => [[c]]
      | l :: ls => (c :: l) :: ls

/-! ### Line endings -/

/-- Every CR LF becomes a single LF. -/
def joinCrLf : List Char → List Char
  | [] => []
  | '\r' :: '\n' :: cs => '\n' :: joinCrLf cs
  | c :: cs => c :: joinCrLf cs

/-- Every CR becomes an LF. -/
def crToLf (cs : List Char) : List Char :=
  cs.map fun c => if c = '\r' then '\n' else c

/-- CR LF first, then every remaining CR, read as LF. -/
def unifyLineEnds (cs : List Char) : List Char :=
  crToLf (joinCrLf cs)

/-! ### Searching -/

/-- Whether `pat` occurs somewhere in `cs`. The empty pattern occurs everywhere. -/
def occursIn (pat : List Char) : List Char → Bool
  | [] => pat.isEmpty
  | c :: cs => pat.isPrefixOf (c :: cs) || occursIn pat cs

end KeyLedger.Text
