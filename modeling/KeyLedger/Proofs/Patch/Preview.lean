import KeyLedger.Patch.Preview
import KeyLedger.Proofs.Text.Lines

/-!
# The lines of a preview

A preview cuts a text into lines in two steps: at its line feeds, and then each piece, less one
carriage return at its end, at its other carriage returns. The normal form of a text reads line
endings differently. It replaces CR LF, and then every CR that is left, by a line feed, and cuts
only afterwards. This file compares the two.

They differ at the end of a text and nowhere else. A piece that a line feed follows has lost the
carriage return of a CR LF, and that is right. The last piece has no line feed after it, and if it
ends in a carriage return, that one is lost all the same, although it ends a line by itself. So the
empty line behind it is missing.

## Main definitions

* `unifiedLines` — the lines of a text after its line endings have been unified
* `previewOf` — a preview with given lines

## Main results

* `unifiedLines_eq` — what a preview misses
* `preview_lines_unified_iff` — which previews show the unified lines
-/

namespace KeyLedger

open Text (pieces pieces_append pieces_of_notMem crToLf joinCrLf unifyLineEnds line_induction)

/-- The lines of a text after its line endings have been unified. -/
def unifiedLines (s : String) : List (List Char) := pieces '\n' (unifyLineEnds s.toList)

/-- The preview of a file with given lines. -/
def previewOf (file : String) (old new : List (List Char)) : String :=
  let lines := ["--- a/" ++ file, "+++ b/" ++ file] ++ old.map (fun l => "-" ++ String.ofList l)
    ++ new.map fun l => "+" ++ String.ofList l
  String.intercalate "\n" lines ++ "\n"

theorem preview?_eq {c : FileChange} (h : c.old ≠ c.new) :
    c.preview? = some (previewOf c.file (splitLines c.old.toList) (splitLines c.new.toList)) := by
  rw [FileChange.preview?, if_neg h]
  rfl

/-! ### A single line -/

section Line

variable {l : List Char}

theorem dropReturn_concat (l : List Char) : dropReturn (l ++ ['\r']) = l := by
  rw [dropReturn, List.getLast?_concat, if_pos rfl, List.dropLast_concat]

theorem dropReturn_of_ne (h : l.getLast? ≠ some '\r') : dropReturn l = l := if_neg h

/-- A character is kept unless it is a carriage return that a line feed follows. -/
theorem joinCrLf_cons {c : Char} {cs : List Char} (h : cs.head? ≠ some '\n') :
    joinCrLf (c :: cs) = c :: joinCrLf cs := by
  rw [joinCrLf]
  rintro rest - rfl
  exact h rfl

theorem joinCrLf_of_notMem (h : '\n' ∉ l) : joinCrLf l = l := by
  induction l with
  | nil => rfl
  | cons c l ih =>
    obtain ⟨-, hl⟩ := List.ne_and_not_mem_of_not_mem_cons h
    rw [joinCrLf_cons fun hhead => hl (List.mem_of_head? hhead), ih hl]

/-- A line feed takes the carriage return before it away. -/
theorem joinCrLf_line (h : '\n' ∉ l) (rest : List Char) :
    joinCrLf (l ++ '\n' :: rest) = dropReturn l ++ '\n' :: joinCrLf rest := by
  induction l with
  | nil => simp [joinCrLf, dropReturn]
  | cons c l ih =>
    obtain ⟨hc, hl⟩ := List.ne_and_not_mem_of_not_mem_cons h
    cases l with
    | nil =>
      by_cases hr : c = '\r'
      · simp [hr, joinCrLf, dropReturn]
      · simp [hr, joinCrLf, dropReturn]
    | cons b l =>
      have hskip : joinCrLf (c :: b :: (l ++ '\n' :: rest)) =
          c :: joinCrLf (b :: (l ++ '\n' :: rest)) :=
        joinCrLf_cons fun hhead => hl (Option.some.inj hhead ▸ List.mem_cons_self)
      have hdrop : dropReturn (c :: b :: l) = c :: dropReturn (b :: l) := by
        simp only [dropReturn, List.getLast?_cons_cons, List.dropLast_cons_cons]
        split <;> rfl
      rw [List.cons_append, List.cons_append, hskip, hdrop, ← List.cons_append, ih hl]
      rfl

/-- Where there are no line feeds, cutting at those that were carriage returns is cutting at the
carriage returns. -/
theorem pieces_crToLf (h : '\n' ∉ l) : pieces '\n' (crToLf l) = pieces '\r' l := by
  induction l with
  | nil => rfl
  | cons c l ih =>
    obtain ⟨hc, hl⟩ := List.ne_and_not_mem_of_not_mem_cons h
    have hcons : crToLf (c :: l) = (if c = '\r' then '\n' else c) :: crToLf l := rfl
    by_cases hr : c = '\r'
    · rw [hcons, if_pos hr, pieces, pieces, if_pos rfl, if_pos hr, ih hl]
    · rw [hcons, if_neg hr, pieces, pieces, if_neg (Ne.symm hc), if_neg hr, ih hl]

theorem notMem_dropReturn (h : '\n' ∉ l) : '\n' ∉ dropReturn l := by
  rw [dropReturn]
  split
  · exact fun hmem => h (List.dropLast_subset l hmem)
  · exact h

/-- A carriage return at the end of a line starts an empty piece. -/
theorem pieces_eq_dropReturn (l : List Char) :
    pieces '\r' l = pieces '\r' (dropReturn l) ++ if l.getLast? = some '\r' then [[]] else [] := by
  by_cases hlast : l.getLast? = some '\r'
  · obtain ⟨init, rfl⟩ := List.getLast?_eq_some_iff.mp hlast
    rw [if_pos hlast, dropReturn_concat, pieces_append]
    rfl
  · rw [if_neg hlast, dropReturn_of_ne hlast, List.append_nil]

end Line

/-! ### All lines -/

theorem splitLines_line {l : List Char} (h : '\n' ∉ l) (rest : List Char) :
    splitLines (l ++ '\n' :: rest) = pieces '\r' (dropReturn l) ++ splitLines rest := by
  simp only [splitLines, pieces_append, pieces_of_notMem h, List.map_append, List.flatMap_append,
    List.map_singleton, List.flatMap_singleton]

theorem splitLines_last {l : List Char} (h : '\n' ∉ l) :
    splitLines l = pieces '\r' (dropReturn l) := by
  simp only [splitLines, pieces_of_notMem h, List.map_singleton, List.flatMap_singleton]

theorem unifyLineEnds_line {l : List Char} (h : '\n' ∉ l) (rest : List Char) :
    unifyLineEnds (l ++ '\n' :: rest) = crToLf (dropReturn l) ++ '\n' :: unifyLineEnds rest := by
  rw [unifyLineEnds, joinCrLf_line h, crToLf, List.map_append, List.map_cons]
  rfl

/-- **What a preview misses**: the empty line behind a carriage return at the end of the text. -/
theorem unifiedLines_eq (s : String) : unifiedLines s =
    splitLines s.toList ++ if s.toList.getLast? = some '\r' then [[]] else [] := by
  rw [unifiedLines]
  -- line by line: a line that is ended is cut alike, so that only the last one matters
  induction s.toList using line_induction with
  | nil => rfl
  | last l hne h =>
    rw [unifyLineEnds, joinCrLf_of_notMem h, pieces_crToLf h, pieces_eq_dropReturn,
      splitLines_last h]
  | line l rest h ih =>
    have hlast : (l ++ '\n' :: rest).getLast? = some '\r' ↔ rest.getLast? = some '\r' := by
      rw [List.getLast?_append, List.getLast?_cons]
      cases rest.getLast? <;> simp
    rw [unifyLineEnds_line h, pieces_append, pieces_crToLf (notMem_dropReturn h), ih,
      splitLines_line h, List.append_assoc]
    simp only [hlast]

/-! ### Previews -/

/-- Every line of a preview is ended. -/
theorem toList_intercalate_feed {ls : List String} (h : ls ≠ []) :
    (String.intercalate "\n" ls ++ "\n").toList = ls.flatMap fun l => l.toList ++ ['\n'] := by
  induction ls with
  | nil => exact absurd rfl h
  | cons l ls ih =>
    cases ls with
    | nil => simp
    | cons k ls =>
      have hrest := ih (List.cons_ne_nil k ls)
      rw [List.flatMap_cons, ← hrest]
      simp [String.intercalate_cons_cons]

/-- Every line of a text stands between its mark and a line feed. -/
theorem toList_previewOf (file : String) (old new : List (List Char)) :
    (previewOf file old new).toList = (previewOf file [] []).toList ++
      old.flatMap (fun l => '-' :: (l ++ ['\n'])) ++ new.flatMap fun l => '+' :: (l ++ ['\n']) := by
  simp only [previewOf, List.cons_append, toList_intercalate_feed (List.cons_ne_nil _ _)]
  simp [List.flatMap_map]

/-- A preview with more lines is longer. -/
theorem previewOf_append_eq_iff {file : String} {old new more more' : List (List Char)} :
    previewOf file (old ++ more) (new ++ more') = previewOf file old new ↔
      more = [] ∧ more' = [] := by
  constructor
  · intro h
    have hnone : ∀ (c : Char) (ls : List (List Char)),
        (ls.flatMap fun l => c :: (l ++ ['\n'])).length = 0 → ls = [] := by
      intro c ls hlength
      cases ls with
      | nil => rfl
      | cons l ls => simp at hlength
    have hlength := congrArg (fun text => text.toList.length) h
    simp only [toList_previewOf file (old ++ more), toList_previewOf file old,
      List.flatMap_append, List.length_append] at hlength
    exact ⟨hnone '-' more (by omega), hnone '+' more' (by omega)⟩
  · rintro ⟨rfl, rfl⟩
    rw [List.append_nil, List.append_nil]

/-- **Which previews show the unified lines**: those of texts that do not end in a carriage return.
Of a text that does, the empty line at the end is missing. -/
theorem preview_lines_unified_iff (s : String) :
    (splitLines s.toList = unifiedLines s ↔ s.toList.getLast? ≠ some '\r') ∧
    (s.toList.getLast? = some '\r' → unifiedLines s = splitLines s.toList ++ [[]]) ∧
    ∀ c : FileChange, s = c.old ∨ s = c.new → c.old ≠ c.new →
      c.preview? = some (previewOf c.file (splitLines c.old.toList) (splitLines c.new.toList)) ∧
      (c.preview? = some (previewOf c.file (unifiedLines c.old) (unifiedLines c.new)) ↔
        c.old.toList.getLast? ≠ some '\r' ∧ c.new.toList.getLast? ≠ some '\r') := by
  have hmissing : ∀ s : String,
      (if s.toList.getLast? = some '\r' then [[]] else [] : List (List Char)) = [] ↔
        s.toList.getLast? ≠ some '\r' := by
    intro s
    split <;> simp_all
  refine ⟨?_, fun hlast => ?_, fun c _ hne => ⟨preview?_eq hne, ?_⟩⟩
  · rw [unifiedLines_eq, List.self_eq_append_right, hmissing]
  · rw [unifiedLines_eq, if_pos hlast]
  · rw [preview?_eq hne, Option.some_inj, eq_comm, unifiedLines_eq, unifiedLines_eq,
      previewOf_append_eq_iff, hmissing, hmissing]

/-- All three line endings, two carriage returns before a line feed, and a text that ends in CR
LF. -/
theorem preview_lines_unified_of_mixture :
    let c : FileChange := ⟨"x", "a\rb\r\nc", "a\r\r\n\nb\r\n", false, []⟩
    c.old ≠ c.new ∧
      c.preview? = some (previewOf c.file (unifiedLines c.old) (unifiedLines c.new)) ∧
      unifiedLines c.new = [['a'], [], [], ['b'], []] := by
  intro c
  have hne : c.old ≠ c.new := by decide
  refine ⟨hne, ?_, by decide⟩
  exact ((preview_lines_unified_iff c.old).2.2 c (.inl rfl) hne).2.mpr ⟨by decide, by decide⟩

/-- A text that ends in a carriage return: the empty line behind it is not shown. -/
theorem final_return_starts_no_line :
    let c : FileChange := ⟨"x", "a\r", "b", false, []⟩
    c.preview? = some "--- a/x\n+++ b/x\n-a\n+b\n" ∧
      splitLines c.old.toList = [['a']] ∧ unifiedLines c.old = [['a'], []] ∧
      previewOf c.file (unifiedLines c.old) (unifiedLines c.new) =
        "--- a/x\n+++ b/x\n-a\n-\n+b\n" := by
  intro c
  refine ⟨by decide, by decide, by decide, by decide⟩

end KeyLedger
