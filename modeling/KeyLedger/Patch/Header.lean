import KeyLedger.Patch.Basic
import KeyLedger.Text.Blank
import KeyLedger.Text.Bytes
import KeyLedger.Text.Lines

/-!
# The header of a source file

Imports are inserted after the header of a file: a line that names its interpreter, a line with a
directive, and the import lines that follow, each of which may be missing. The position is a byte
offset, and always the beginning of a line or the end of the file.

## Main definitions

* `Header.isShebang`, `Header.isDirective`, `Header.isImport` — the lines of a header
* `Header.split` — the lines of the header and the lines after it
* `insertPosition` — the offset at which the header ends
* `importInsertion?` — the edit that adds the imports that a file lacks
-/

namespace KeyLedger

namespace Header

/-- Either kind of quotation mark. -/
def isQuote (c : Char) : Bool := c == '\'' || c == '"'

/-- Whether a text, last character first, ends in a quotation mark and blanks. -/
def endsInQuote (reversed : List Char) : Bool :=
  (reversed.dropWhile Text.isBlank).head?.any isQuote

/-- The line that names the interpreter of the file. -/
def isShebang (line : List Char) : Bool := ['#', '!'].isPrefixOf line

/-- A directive: a quoted text that begins with a letter or a space, and perhaps a semicolon, with
blanks around it. -/
def isDirective (line : List Char) : Bool :=
  match Text.trim line with
  | first :: second :: rest =>
    let reversed := rest.reverse
    isQuote first && (second.isAlpha || second == ' ') &&
      (endsInQuote reversed || (reversed.head? == some ';' && endsInQuote reversed.tail))
  | _ => false

/-- A line without the line feed, and then the carriage returns, that end it. -/
def withoutEnd (line : List Char) : List Char :=
  Text.dropTrailing (· == '\r') (Text.dropTrailing (· == '\n') line)

/-- The beginning of an import: blanks, the word `import`, and a blank or a quotation mark. -/
def startsImport (text : List Char) : Bool :=
  let word := ['i', 'm', 'p', 'o', 'r', 't']
  let body := text.dropWhile Text.isBlank
  word.isPrefixOf body && (body.drop word.length).head?.any fun c => Text.isBlank c || isQuote c

/-- An import line: the beginning of an import, without counting what ends the line. -/
def isImport (line : List Char) : Bool := startsImport (withoutEnd line)

/-- Takes the first line off if it satisfies `p`. -/
def takeFirst (p : List Char → Bool) : List (List Char) → List (List Char) × List (List Char)
  | l :: ls => if p l then ([l], ls) else ([], l :: ls)
  | [] => ([], [])

/-- The lines of the header, and the lines after it. -/
def split (ls : List (List Char)) : List (List Char) × List (List Char) :=
  let (shebang, ls) := takeFirst isShebang ls
  let (directive, ls) := takeFirst isDirective ls
  (shebang ++ directive ++ ls.takeWhile isImport, ls.dropWhile isImport)

end Header

/-- The byte offset at which the header of a file ends. -/
def insertPosition (content : List Char) : Nat :=
  Text.byteLength (Header.split (Text.lines content)).1.flatten

/-- The imports whose statements do not occur in a file. -/
def missingImports (content : List Char) (imports : List Import) : List Import :=
  imports.filter fun i => !Text.occursIn i.code.toList content

/-- The lines of import statements. -/
def importBlock (imports : List Import) : List Char :=
  imports.flatMap fun i => i.code.toList ++ ['\n']

/-- The edit that inserts the imports that a file lacks, if it lacks any. At the end of a file
whose last line is not ended, the line is ended first. -/
def importInsertion? (content : List Char) (imports : List Import) : Option Edit :=
  let missing := missingImports content imports
  if missing.isEmpty then none
  else
    let position := insertPosition content
    let unended := position = Text.byteLength content ∧ ¬ content.isEmpty ∧
      content.getLast? ≠ some '\n'
    let block := importBlock missing
    some (.insert position (String.ofList (if unended then '\n' :: block else block)))

end KeyLedger
