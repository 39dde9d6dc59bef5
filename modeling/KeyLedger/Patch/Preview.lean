import KeyLedger.Patch.Basic
import KeyLedger.Text.Lines

/-!
# Previews of changed files

A preview shows all lines of the old text and then all lines of the new one. It is not a minimal
difference. A file that does not change has no preview.

## Main definitions

* `splitLines` — the lines of a text, whatever ends them
* `FileChange.preview?` — the preview of a file
* `previewAll` — the previews of all files that change
-/

namespace KeyLedger

/-- A line without one carriage return at its end. -/
def dropReturn (line : List Char) : List Char :=
  if line.getLast? = some '\r' then line.dropLast else line

/-- The lines of a text. A line ends at a line feed, at a carriage return, or at both together. -/
def splitLines (cs : List Char) : List (List Char) :=
  ((Text.pieces '\n' cs).map dropReturn).flatMap (Text.pieces '\r')

/-- The lines of a text behind a mark. -/
def markedLines (mark : String) (text : String) : List String :=
  (splitLines text.toList).map fun line => mark ++ String.ofList line

/-- The preview of a file, if it changes. -/
def FileChange.preview? (c : FileChange) : Option String :=
  if c.old = c.new then none
  else
    let lines := ["--- a/" ++ c.file, "+++ b/" ++ c.file] ++ markedLines "-" c.old
      ++ markedLines "+" c.new
    some (String.intercalate "\n" lines ++ "\n")

/-- The previews of the files that change, with a blank line between them. -/
def previewAll (changes : List FileChange) : String :=
  String.intercalate "\n" (changes.filterMap FileChange.preview?)

end KeyLedger
