import KeyLedger.Candidate.Basic
import KeyLedger.Json.Reader

/-!
# Candidates as JSON

Optional and empty fields are left out when a candidate is written and may be left out when one is
read; the identifier may be missing but is always written.

## Main definitions

* `Candidate.toJson` — the written form
* `Candidate.reader` — reads it
-/

namespace KeyLedger

/-- The names of the kinds of nodes. -/
def NodeKind.names : List (String × NodeKind) :=
  [("block", .block), ("attr", .attr), ("rich", .rich)]

/-- The name of a kind of node. -/
def NodeKind.name : NodeKind → String
  | .block => "block"
  | .attr => "attr"
  | .rich => "rich"

/-- The names of the inline tags. -/
def InlineTag.names : List (String × InlineTag) :=
  [("strong", .strong), ("b", .b), ("em", .em), ("i", .i), ("u", .u), ("code", .code), ("a", .a),
   ("span", .span)]

/-- The name of an inline tag. -/
def InlineTag.name : InlineTag → String
  | .strong => "strong"
  | .b => "b"
  | .em => "em"
  | .i => "i"
  | .u => "u"
  | .code => "code"
  | .a => "a"
  | .span => "span"

/-- A source range as JSON. -/
def SourceRange.toJson (r : SourceRange) : Json :=
  .obj [("file", .str r.file), ("start", .offset r.start), ("end", .offset r.stop)]

/-- Reads a source range. -/
def SourceRange.reader : Reader SourceRange :=
  .record ["file", "start", "end"] fun fs => do
    let file ← fs.required "file" .string
    let start ← fs.required "start" .uint64
    let stop ← fs.required "end" .uint64
    return { file, start, stop }

/-- A value that is written only if it holds something. -/
def unlessEmpty {α : Type} (l : List α) (v : Json) : Option Json :=
  if l.isEmpty then none else some v

/-- A candidate as JSON. -/
def Candidate.toJson (c : Candidate) : Json :=
  .obj <|
    [("id", .str c.id), ("namespace", .str c.ns), ("kind", .str c.kind.name)]
    ++ Json.memberIf "tag" (c.tag.map .str)
    ++ Json.memberIf "attr" (c.attr.map .str)
    ++ [("text", .str c.text)]
    ++ Json.memberIf "inlineTags"
        (unlessEmpty c.inlineTags (.strings (c.inlineTags.map InlineTag.name)))
    ++ Json.memberIf "hints"
        (unlessEmpty c.hints.toList (.obj (c.hints.toList.map fun m => (m.1, .str m.2))))
    ++ [("loc", c.loc.toJson), ("framework", .str c.framework)]

/-- Reads a candidate. -/
def Candidate.reader : Reader Candidate :=
  .record
    ["id", "namespace", "kind", "tag", "attr", "text", "inlineTags", "hints", "loc", "framework"]
    fun fs => do
      let id ← fs.withDefault "id" "" .string
      let ns ← fs.required "namespace" .string
      let kind ← fs.required "kind" (.oneOf NodeKind.names)
      let tag ← fs.optional "tag" .string
      let attr ← fs.optional "attr" .string
      let text ← fs.required "text" .string
      let inlineTags ← fs.withDefault "inlineTags" [] (.list (.oneOf InlineTag.names))
      let hints ← fs.withDefault "hints" ∅ (.dict .string)
      let loc ← fs.required "loc" SourceRange.reader
      let framework ← fs.required "framework" .string
      return { id, ns, kind, tag, attr, text, inlineTags, hints, loc, framework }

/-- Reads a list of candidates. -/
def Candidate.listReader : Reader (List Candidate) := .list Candidate.reader

end KeyLedger
