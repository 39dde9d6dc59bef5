import KeyLedger.Patch.Header
import KeyLedger.Proofs.Text.Lines

/-!
# Where a header ends

A header is read line by line, and where it ends is counted in bytes. Whether a line belongs to it
does not depend on the line feed that ends the line, and so the header can be read off the rows of a
text just as well (`split_rows`). This is what makes a header independent of whether the last line
of a file is ended.

The position at which imports are inserted cuts the text into the header and the rest. Unless
nothing is left after it, the header ends in a line feed (`after_eq_nil_or_ended`); and if the text
itself is not ended, the insertion starts with a line feed that ends it. So the insertion always
follows a complete line (`ended_before_append_lead`).

## Main definitions

* `Header.IsHeader` — the rows of a header, and of the rest
* `Header.before`, `Header.after` — a text up to the end of its header, and the rest
* `Header.lead` — what ends the header before imports are inserted
* `withImports` — a text with the imports that it lacks

## Main results

* `Header.exists_isHeader` — what the split of rows consists of
* `Header.split_rows` — the header can be read off the rows of a text
* `importInsertion?_eq` — what is inserted, and where
* `rows_withImports` — imports of one line are rows of their own
* `infix_withImports_iff` — what occurs in a text after the insertion
* `exists_feed_of_lost` — what does not occur in it any more
* `missingImports_withImports` — no import of one line is missing after the insertion
-/

namespace KeyLedger

open Text (lines rows withoutFeed Ended byteLength OccursAt)

namespace Header

/-! ### Lines and line feeds -/

theorem isShebang_append (l : List Char) : isShebang (l ++ ['\n']) = isShebang l := by
  match l with
  | [] => rfl
  | [c] => simp [isShebang, List.isPrefixOf]
  | c :: c' :: l => simp [isShebang, List.isPrefixOf]

theorem trim_append (l : List Char) : Text.trim (l ++ ['\n']) = Text.trim l := by
  have hblank : Text.isBlank '\n' = true := by decide
  rw [Text.trim, List.dropWhile_append]
  by_cases hall : (l.dropWhile Text.isBlank).isEmpty
  · rw [if_pos hall, Text.trim, List.isEmpty_iff.mp hall, List.dropWhile_cons_of_pos hblank]
    rfl
  · rw [if_neg hall]
    exact List.rdropWhile_concat_pos _ _ '\n' hblank

theorem isDirective_append (l : List Char) : isDirective (l ++ ['\n']) = isDirective l := by
  rw [isDirective, trim_append, isDirective]

theorem isImport_append (l : List Char) : isImport (l ++ ['\n']) = isImport l := by
  have hend : withoutEnd (l ++ ['\n']) = withoutEnd l :=
    congrArg (Text.dropTrailing (· == '\r')) (Text.withoutFeed_append l)
  rw [isImport, hend, isImport]

/-! ### The split -/

section Split

variable {p : List Char → Bool} {f : List Char → List Char}

theorem takeFirst_append (p : List Char → Bool) (ls : List (List Char)) :
    (takeFirst p ls).1 ++ (takeFirst p ls).2 = ls := by
  match ls with
  | [] => rfl
  | l :: ls =>
    rw [takeFirst]
    split <;> rfl

theorem takeFirst_map (h : ∀ l, p (f l) = p l) (ls : List (List Char)) :
    takeFirst p (ls.map f) = ((takeFirst p ls).1.map f, (takeFirst p ls).2.map f) := by
  match ls with
  | [] => rfl
  | l :: ls =>
    rw [List.map_cons, takeFirst, takeFirst, h l]
    split <;> rfl

/-- The first line, if it satisfies `p`. -/
theorem exists_takeFirst (p : List Char → Bool) (ls : List (List Char)) :
    ∃ o : Option (List Char), (takeFirst p ls).1 = o.toList ∧ (∀ l ∈ o, p l = true) ∧
      (o = none → ∀ l ∈ ls.head?, p l = false) := by
  match ls with
  | [] => exact ⟨none, rfl, by simp, by simp⟩
  | l :: ls =>
    rw [takeFirst]
    by_cases hl : p l = true
    · exact ⟨some l, by rw [if_pos hl]; rfl, by simpa using hl, by simp⟩
    · exact ⟨none, by rw [if_neg hl]; rfl, by simp, by simpa using hl⟩

theorem split_append (ls : List (List Char)) : (split ls).1 ++ (split ls).2 = ls := by
  simp only [split, List.append_assoc, List.takeWhile_append_dropWhile, takeFirst_append]

theorem split_map (hshebang : ∀ l, isShebang (f l) = isShebang l)
    (hdirective : ∀ l, isDirective (f l) = isDirective l) (himport : ∀ l, isImport (f l) = isImport l)
    (ls : List (List Char)) : split (ls.map f) = ((split ls).1.map f, (split ls).2.map f) := by
  have hcomp : isImport ∘ f = isImport := funext himport
  simp only [split, takeFirst_map hshebang, takeFirst_map hdirective, List.takeWhile_map,
    List.dropWhile_map, hcomp, List.map_append]

end Split

/-- The rows of a header, and of the rest: a line that names the interpreter and a directive, each
of which is there if it can be, import lines, and no import line right after them. -/
structure IsHeader (shebang directive : Option (List Char)) (statements rest : List (List Char)) :
    Prop where
  /-- The first line names the interpreter. -/
  interpreter : ∀ l ∈ shebang, isShebang l = true
  /-- The second one is a directive. -/
  quoted : ∀ l ∈ directive, isDirective l = true
  /-- All others are import lines. -/
  imported : ∀ l ∈ statements, isImport l = true
  /-- The rest does not start with an import line. -/
  next : ∀ l ∈ rest.head?, isImport l = false
  /-- No line that names the interpreter is left out. -/
  noInterpreter : shebang = none →
    ∀ l ∈ (directive.toList ++ statements ++ rest).head?, isShebang l = false
  /-- No directive is left out. -/
  noQuoted : directive = none → ∀ l ∈ (statements ++ rest).head?, isDirective l = false

/-- **What the split of rows consists of.** -/
theorem exists_isHeader (ls : List (List Char)) :
    ∃ (shebang directive : Option (List Char)) (statements : List (List Char)),
      (split ls).1 = shebang.toList ++ directive.toList ++ statements ∧
        IsHeader shebang directive statements (split ls).2 := by
  obtain ⟨shebang, hshebang, hisShebang, hnoShebang⟩ := exists_takeFirst isShebang ls
  have hfirst := takeFirst_append isShebang ls
  generalize hls₁ : (takeFirst isShebang ls).2 = ls₁ at hfirst
  obtain ⟨directive, hdirective, hisDirective, hnoDirective⟩ := exists_takeFirst isDirective ls₁
  have hsecond := takeFirst_append isDirective ls₁
  generalize hls₂ : (takeFirst isDirective ls₁).2 = ls₂ at hsecond
  have hthird := List.takeWhile_append_dropWhile (p := isImport) (l := ls₂)
  have hsplit : split ls = (shebang.toList ++ directive.toList ++ ls₂.takeWhile isImport,
      ls₂.dropWhile isImport) := by
    simp only [split, hls₁, hls₂, hshebang, hdirective]
  rw [hsplit]
  refine ⟨shebang, directive, ls₂.takeWhile isImport, rfl, hisShebang, hisDirective, ?_, ?_, ?_, ?_⟩
  · exact fun l hl => List.mem_takeWhile_imp hl
  · intro l hl
    have hnot := List.head?_dropWhile_not isImport ls₂
    rw [Option.mem_def.mp hl] at hnot
    exact hnot
  · intro hnone
    rw [List.append_assoc, hthird, ← hdirective, hsecond]
    rw [hshebang, hnone, Option.toList_none, List.nil_append] at hfirst
    exact hfirst ▸ hnoShebang hnone
  · intro hnone
    rw [hthird]
    rw [hdirective, hnone, Option.toList_none, List.nil_append] at hsecond
    exact hsecond ▸ hnoDirective hnone

/-! ### The cut -/

/-- A text up to the end of its header. -/
def before (content : List Char) : List Char := (split (lines content)).1.flatten

/-- A text from the end of its header. -/
def after (content : List Char) : List Char := (split (lines content)).2.flatten

theorem byteLength_before (content : List Char) :
    byteLength (before content) = insertPosition content := rfl

theorem before_append_after (content : List Char) : before content ++ after content = content := by
  rw [before, after, ← List.flatten_append, split_append, Text.flatten_lines]

theorem after_eq_nil_or_ended (content : List Char) :
    after content = [] ∨ Ended (before content) := by
  obtain ⟨hended, -, -⟩ := Text.lines_eq_append (split_append (lines content)).symm
  exact hended.imp_left fun hnil => by rw [after, hnil]; rfl

theorem rows_eq (content : List Char) :
    rows content = rows (before content) ++ rows (after content) := by
  conv_lhs => rw [← before_append_after content]
  rcases after_eq_nil_or_ended content with hafter | hended
  · rw [hafter, List.append_nil, Text.rows_nil, List.append_nil]
  · rw [Text.rows_append hended]

/-- **The header can be read off the rows of a text.** -/
theorem split_rows (content : List Char) :
    split (rows content) = (rows (before content), rows (after content)) := by
  obtain ⟨-, hbefore, hafter⟩ := Text.lines_eq_append (split_append (lines content)).symm
  rw [Text.rows_eq_map_lines, Text.rows_eq_map_lines, Text.rows_eq_map_lines, before, after,
    hbefore, hafter]
  exact split_map (Text.apply_withoutFeed isShebang_append)
    (Text.apply_withoutFeed isDirective_append) (Text.apply_withoutFeed isImport_append) _

/-- What ends the header before imports are inserted: a line feed, if the text ends with it and is
not ended. -/
def lead (content : List Char) : List Char :=
  if insertPosition content = byteLength content ∧ ¬ content.isEmpty ∧
      content.getLast? ≠ some '\n' then ['\n'] else []

/-- The two ways in which imports are inserted: after a complete line, or at the end of a text that
is not ended. -/
theorem lead_cases (content : List Char) :
    (lead content = [] ∧ Ended (before content)) ∨
      (lead content = ['\n'] ∧ before content = content ∧ ¬ Ended content) := by
  have hcut := before_append_after content
  have hended : Ended content ↔ content = [] ∨ content.getLast? = some '\n' := Text.ended_iff
  have hsize : byteLength content = insertPosition content + byteLength (after content) := by
    rw [← byteLength_before, ← Text.byteLength_append, hcut]
  rw [lead]
  split
  · next h =>
    obtain ⟨hend, hne, hlast⟩ := h
    have hafter : after content = [] := Text.byteLength_eq_zero_iff.mp (by omega)
    rw [hafter, List.append_nil] at hcut
    exact .inr ⟨rfl, hcut, fun h => (hended.mp h).elim (by simpa using hne) hlast⟩
  · next h =>
    refine .inl ⟨rfl, ?_⟩
    rcases after_eq_nil_or_ended content with hafter | hbefore
    · rw [hafter, List.append_nil] at hcut
      rw [hcut, hended]
      by_contra hopen
      simp only [not_or] at hopen
      exact h ⟨by rw [hsize, hafter]; rfl, by simpa using hopen.1, hopen.2⟩
    · exact hbefore

/-- **The insertion follows a complete line.** -/
theorem ended_before_append_lead (content : List Char) : Ended (before content ++ lead content) := by
  rcases lead_cases content with ⟨hlead, hended⟩ | ⟨hlead, -, -⟩
  · rwa [hlead, List.append_nil]
  · rw [hlead]
    exact .inr ⟨_, rfl⟩

/-- Ending the last line of a header makes no further row. -/
theorem rows_before_append_lead (content : List Char) :
    rows (before content ++ lead content) = rows (before content) := by
  rcases lead_cases content with ⟨hlead, -⟩ | ⟨hlead, hbefore, hopen⟩
  · rw [hlead, List.append_nil]
  · rw [hlead, hbefore, Text.rows_append_feed hopen]

end Header

/-! ### The insertion -/

/-- **What is inserted, and where.** -/
theorem importInsertion?_eq (content : List Char) (imports : List Import) :
    importInsertion? content imports =
      if (missingImports content imports).isEmpty then none
      else some (.insert (insertPosition content) (String.ofList
        (Header.lead content ++ importBlock (missingImports content imports)))) := by
  simp only [importInsertion?, Header.lead]
  split
  · rfl
  · split <;> rfl

section Block

variable {imports : List Import}

theorem ended_importBlock (imports : List Import) : Ended (importBlock imports) := by
  induction imports with
  | nil => exact .inl rfl
  | cons i imports ih => exact .append (.inr ⟨i.code.toList, rfl⟩) ih

theorem rows_importBlock (hcodes : ∀ i ∈ imports, '\n' ∉ i.code.toList) :
    rows (importBlock imports) = imports.map fun i => i.code.toList := by
  induction imports with
  | nil => rfl
  | cons i imports ih =>
    have hi := hcodes i List.mem_cons_self
    rw [importBlock, List.flatMap_cons, List.append_assoc, List.singleton_append,
      Text.rows_line hi, List.map_cons]
    exact congrArg _ (ih fun j hj => hcodes j (List.mem_cons_of_mem _ hj))

/-- Every statement occurs among the lines of statements. -/
theorem infix_importBlock {i : Import} (hi : i ∈ imports) :
    i.code.toList <:+: importBlock imports := by
  obtain ⟨before, after, rfl⟩ := List.append_of_mem hi
  refine ⟨importBlock before, '\n' :: importBlock after, ?_⟩
  simp only [importBlock, List.flatMap_append, List.flatMap_cons, List.append_assoc]
  rfl

end Block

/-- A text with the imports that it lacks, in the place where they are inserted. -/
def withImports (content : List Char) (imports : List Import) : List Char :=
  Header.before content ++
    (if (missingImports content imports).isEmpty then []
      else Header.lead content ++ importBlock (missingImports content imports)) ++
    Header.after content

section WithImports

variable {content : List Char} {imports : List Import}

/-- The inserted block begins and ends with a line, so that the rows around it stay as they are. -/
theorem rows_withImports_eq (content : List Char) (imports : List Import) :
    rows (withImports content imports) = rows (Header.before content) ++
      rows (importBlock (missingImports content imports)) ++ rows (Header.after content) := by
  rw [withImports]
  by_cases hnone : missingImports content imports = []
  · rw [hnone, List.isEmpty_nil, if_pos rfl, List.append_nil, Header.before_append_after,
      Header.rows_eq]
    simp [importBlock]
  · rw [if_neg (by simpa using hnone), ← List.append_assoc, List.append_assoc,
      Text.rows_append (Header.ended_before_append_lead content),
      Text.rows_append (ended_importBlock _), Header.rows_before_append_lead, List.append_assoc]

/-- **Imports of one line are rows of their own**: the rows of a text with the imports that it lacks
are those of the header, the missing imports and the other rows of the text. -/
theorem rows_withImports (hcodes : ∀ i ∈ imports, '\n' ∉ i.code.toList) :
    rows (withImports content imports) = rows (Header.before content) ++
      (missingImports content imports).map (fun i => i.code.toList) ++
        rows (Header.after content) := by
  have hmissing : ∀ i ∈ missingImports content imports, '\n' ∉ i.code.toList := fun i hi =>
    hcodes i (List.mem_filter.mp hi).1
  rw [rows_withImports_eq, rows_importBlock hmissing]

/-- **What occurs in a file with the imports that it lacked**: what stood in the file and did not
reach across the end of the header, and what reaches into the insertion. -/
theorem infix_withImports_iff {pat : List Char} :
    pat <:+: withImports content imports ↔
      (∃ i j, OccursAt pat content i j ∧
        (j ≤ insertPosition content ∨ insertPosition content ≤ i)) ∨
      ∃ i j, OccursAt pat (withImports content imports) i j ∧
        i < insertPosition content +
          (byteLength (withImports content imports) - byteLength content) ∧
        insertPosition content < j := by
  have hcut := Header.before_append_after content
  have hsize := congrArg byteLength hcut
  rw [withImports]
  generalize (if (missingImports content imports).isEmpty then [] else _) = new
  have hnew : insertPosition content +
      (byteLength (Header.before content ++ new ++ Header.after content) - byteLength content) =
        byteLength (Header.before content ++ new) := by
    simp only [← Header.byteLength_before, Text.byteLength_append] at hsize ⊢
    omega
  rw [hnew, Text.infix_insert_iff, hcut, Header.byteLength_before]

/-- **What is lost when imports are inserted**: a text within which the header ends, after one of its
line feeds. -/
theorem exists_feed_of_lost {pat : List Char} (h : pat <:+: content)
    (hlost : ¬ pat <:+: withImports content imports) :
    ∃ i j u v, OccursAt pat content i j ∧ pat = u ++ '\n' :: v ∧ v ≠ [] ∧
      i + byteLength (u ++ ['\n']) = insertPosition content := by
  obtain ⟨xs, ys, hcontent⟩ := h
  have hoccurs : OccursAt pat content (byteLength xs) (byteLength (xs ++ pat)) :=
    ⟨xs, ys, hcontent.symm, rfl, rfl⟩
  have hacross : byteLength xs < insertPosition content ∧
      insertPosition content < byteLength (xs ++ pat) := by
    by_contra hside
    exact hlost (infix_withImports_iff.mpr (.inl ⟨_, _, hoccurs, by omega⟩))
  have hcut := Header.before_append_after content
  obtain ⟨u, v, hpat, hv, hend⟩ := (hcut ▸ hoccurs).exists_feed
    (Header.after_eq_nil_or_ended content) hacross.1 hacross.2
  exact ⟨_, _, u, v, hoccurs, hpat, hv, hend⟩

/-- **A text of one line that occurs in a file still does when imports are inserted.** -/
theorem infix_withImports {pat : List Char} (hpat : '\n' ∉ pat) (h : pat <:+: content) :
    pat <:+: withImports content imports := by
  by_contra hlost
  obtain ⟨-, -, u, v, -, rfl, -⟩ := exists_feed_of_lost h hlost
  simp at hpat

/-- **No import of one line is missing after the insertion.** -/
theorem missingImports_withImports (hcodes : ∀ i ∈ imports, '\n' ∉ i.code.toList) :
    missingImports (withImports content imports) imports = [] := by
  refine List.filter_eq_nil_iff.mpr fun i hi => ?_
  have hoccurs : i.code.toList <:+: withImports content imports := by
    by_cases hpresent : i.code.toList <:+: content
    · exact infix_withImports (hcodes i hi) hpresent
    · have hmissing : i ∈ missingImports content imports :=
        List.mem_filter.mpr ⟨hi, by simpa [← Text.occursIn_iff] using hpresent⟩
      rw [withImports, if_neg (by simpa using List.ne_nil_of_mem hmissing), List.append_assoc]
      refine List.infix_append_of_infix_right (List.infix_append_of_infix_left ?_)
      exact List.infix_append_of_infix_right (infix_importBlock hmissing)
  simpa using Text.occursIn_iff.mpr hoccurs

end WithImports

end KeyLedger
