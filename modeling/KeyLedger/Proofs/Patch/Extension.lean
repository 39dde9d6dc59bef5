import KeyLedger.Proofs.Patch.Injection

/-!
# Injected imports extend the header

A header ends where the first line stands that does not belong to it. If imports are inserted there,
each of them an import line, the header of the new text is the old one and the inserted lines. For
an import line is neither a line that names the interpreter nor a directive, so that it cannot be
taken for one where there was none, and the line after the insertion is the one that ended the
header before. The next injection therefore goes after this one.

What has once become part of the header stays there. Whatever is inserted afterwards, be it import
lines or not, the lines of the header are read as before, and at least as far.

A line is an import line by what stands before its end, and carriage returns belong to the end. The
code of an import is judged in the same way here: the word `import` with nothing but a carriage
return after it would begin an import, but it is no import line (`bare_import_extends_nothing`).

## Main definitions

* `injectAll` — a text after one injection after the other

## Main results

* `Header.split_insert` — import lines inserted after a header belong to it
* `Header.prefix_split` — a header goes at least as far if something else follows it
* `before_withImports` — the header of a text with the import lines that it lacked
* `before_prefix_before_injectAll` — later injections leave the header in place
* `before_splice` — the header after the insertion of import lines
* `later_insertions` — later injections go after the inserted text
* `injected_imports_extend_header` — where the header ends after an injection
-/

namespace KeyLedger

open Text (rows byteLength takeBytes occursIn Ended)

/-! ### Beginnings of a text -/

namespace Text

theorem rows_eq_nil_iff {cs : List Char} : rows cs = [] ↔ cs = [] := by
  constructor
  · intro h
    induction cs using line_induction with
    | nil => rfl
    | last l hne hl => simp [rows_last hne hl] at h
    | line l rest hl ih => simp [rows_line hl] at h
  · rintro rfl
    exact rows_nil

/-- Of two beginnings of a text, the second of which ends with a line, the one with fewer rows comes
first. -/
theorem prefix_of_rows_prefix {as bs cs : List Char} (has : as <+: cs) (hbs : bs <+: cs)
    (hend : bs = cs ∨ Ended bs) (h : rows as <+: rows bs) : as <+: bs := by
  rcases hend with rfl | hend
  · exact has
  rcases List.prefix_or_prefix_of_prefix has hbs with hle | ⟨rest, rfl⟩
  · exact hle
  · rw [rows_append hend] at h
    have hlength := h.length_le
    rw [List.length_append] at hlength
    have hrest : rest = [] := rows_eq_nil_iff.mp (List.length_eq_zero_iff.mp (by omega))
    simp [hrest]

theorem byteLength_le_of_prefix {as cs : List Char} (h : as <+: cs) :
    byteLength as ≤ byteLength cs := by
  obtain ⟨rest, rfl⟩ := h
  rw [byteLength_append]
  omega

theorem takeBytes_of_prefix {as cs : List Char} (h : as <+: cs) :
    takeBytes (byteLength as) cs = as := by
  obtain ⟨rest, rfl⟩ := h
  exact takeBytes_append as rest

end Text

namespace Header

/-! ### Import lines -/

section Import

variable {l : List Char}

/-- The first character of an import line that is not blank. -/
theorem head?_dropWhile_of_isImport (h : isImport l = true) :
    (l.dropWhile Text.isBlank).head? = some 'i' := by
  obtain ⟨ending, hl⟩ : withoutEnd l <+: l :=
    (List.rdropWhile_prefix _ _).trans (List.rdropWhile_prefix _ _)
  simp only [isImport, startsImport, Bool.and_eq_true, List.isPrefixOf_iff_prefix] at h
  obtain ⟨⟨rest, hword⟩, -⟩ := h
  rw [← hl, List.dropWhile_append, ← hword]
  rfl

theorem isShebang_of_isImport (h : isImport l = true) : isShebang l = false := by
  have hfirst := head?_dropWhile_of_isImport h
  by_contra hshebang
  rw [Bool.not_eq_false, isShebang, List.isPrefixOf_iff_prefix] at hshebang
  obtain ⟨rest, rfl⟩ := hshebang
  have hmark : ('#' :: '!' :: rest).dropWhile Text.isBlank = '#' :: '!' :: rest :=
    List.dropWhile_cons_of_neg (by decide)
  simp [hmark] at hfirst

theorem isDirective_of_isImport (h : isImport l = true) : isDirective l = false := by
  have hfirst := head?_dropWhile_of_isImport h
  have hbegins : Text.trim l <+: l.dropWhile Text.isBlank := List.rdropWhile_prefix _ _
  rw [isDirective]
  split
  · next first second rest htrim =>
    rw [htrim] at hbegins
    obtain ⟨ending, hending⟩ := hbegins
    rw [← hending] at hfirst
    obtain rfl : first = 'i' := by simpa using hfirst
    rfl
  · rfl

end Import

/-! ### The split -/

section Split

variable {p : List Char → Bool} {shebang directive : Option (List Char)}
  {statements rest new ls : List (List Char)}

theorem takeFirst_toList_append {o : Option (List Char)} (h : ∀ l ∈ o, p l = true)
    (hnone : o = none → ∀ l ∈ ls.head?, p l = false) :
    takeFirst p (o.toList ++ ls) = (o.toList, ls) := by
  match o, ls with
  | some l, ls => exact if_pos (h l rfl)
  | none, [] => rfl
  | none, l :: ls => exact if_neg (by simpa using hnone rfl l rfl)

/-- **A header is found** where it stands. -/
theorem IsHeader.split_eq (h : IsHeader shebang directive statements rest) :
    split (shebang.toList ++ directive.toList ++ statements ++ rest) =
      (shebang.toList ++ directive.toList ++ statements, rest) := by
  have hfirst := takeFirst_toList_append h.interpreter h.noInterpreter
  have hsecond := takeFirst_toList_append h.quoted h.noQuoted
  have hrest : rest.takeWhile isImport = [] ∧ rest.dropWhile isImport = rest := by
    match rest, h.next with
    | [], _ => exact ⟨rfl, rfl⟩
    | l :: rest, hnext =>
      have hl : ¬ isImport l = true := by simpa using hnext l rfl
      exact ⟨List.takeWhile_cons_of_neg hl, List.dropWhile_cons_of_neg hl⟩
  simp only [List.append_assoc] at hfirst hsecond ⊢
  simp only [split, hfirst, hsecond, List.takeWhile_append_of_pos h.imported,
    List.dropWhile_append_of_pos h.imported, hrest, List.append_nil, List.append_assoc]

/-- Lines that do not satisfy `p` do not come first either. -/
theorem head?_insert (hnew : ∀ l ∈ new, p l = false)
    (h : ∀ l ∈ (ls ++ rest).head?, p l = false) : ∀ l ∈ (ls ++ new ++ rest).head?, p l = false := by
  match ls, new with
  | [], [] => exact h
  | [], n :: new =>
    intro l hl
    exact hnew l (by simp_all)
  | l :: ls, new => exact h

/-- Import lines after a header belong to it. -/
theorem IsHeader.append (h : IsHeader shebang directive statements rest)
    (hnew : ∀ l ∈ new, isImport l = true) :
    IsHeader shebang directive (statements ++ new) rest where
  interpreter := h.interpreter
  quoted := h.quoted
  imported l hl := (List.mem_append.mp hl).elim (h.imported l) (hnew l)
  next := h.next
  noInterpreter hnone := by
    rw [← List.append_assoc]
    exact head?_insert (fun l hl => isShebang_of_isImport (hnew l hl)) (h.noInterpreter hnone)
  noQuoted hnone :=
    head?_insert (fun l hl => isDirective_of_isImport (hnew l hl)) (h.noQuoted hnone)

/-- **Import lines inserted after a header belong to it**, and nothing else does. -/
theorem split_insert (hnew : ∀ l ∈ new, isImport l = true) (ls : List (List Char)) :
    split ((split ls).1 ++ new ++ (split ls).2) = ((split ls).1 ++ new, (split ls).2) := by
  obtain ⟨shebang, directive, statements, hsplit, hheader⟩ := exists_isHeader ls
  have hextended := (hheader.append hnew).split_eq
  rwa [← List.append_assoc, ← hsplit] at hextended

/-- **A header goes at least as far** if something else follows it. -/
theorem prefix_split (ls tail : List (List Char)) :
    (split ls).1 <+: (split ((split ls).1 ++ tail)).1 := by
  obtain ⟨shebang, directive, statements, hsplit, hheader⟩ := exists_isHeader ls
  rw [hsplit]
  -- only if the line that names the interpreter is all there is can the tail be read otherwise
  by_cases hrest : directive.toList ++ statements = []
  · obtain ⟨hdirective, rfl⟩ := List.append_eq_nil_iff.mp hrest
    rw [hdirective, List.append_nil, List.append_nil]
    match shebang, hheader.interpreter with
    | none, _ => exact List.nil_prefix
    | some l, hinterpreter =>
      have hfirst : takeFirst isShebang ([l] ++ tail) = ([l], tail) := if_pos (hinterpreter l rfl)
      simp only [split, Option.toList_some, hfirst, List.append_assoc]
      exact List.prefix_append _ _
  · have hfirst : takeFirst isShebang (shebang.toList ++ (directive.toList ++ statements ++ tail)) =
        (shebang.toList, directive.toList ++ statements ++ tail) := by
      refine takeFirst_toList_append hheader.interpreter fun hnone l hl => ?_
      refine hheader.noInterpreter hnone l ?_
      rwa [List.head?_append_of_ne_nil _ hrest] at hl ⊢
    have hsecond : takeFirst isDirective (directive.toList ++ (statements ++ tail)) =
        (directive.toList, statements ++ tail) := by
      refine takeFirst_toList_append hheader.quoted fun hnone l hl => ?_
      refine hheader.noQuoted hnone l ?_
      have hstatements : statements ≠ [] := by simpa [hnone] using hrest
      rwa [List.head?_append_of_ne_nil _ hstatements] at hl ⊢
    simp only [List.append_assoc] at hfirst hsecond ⊢
    simp only [split, hfirst, hsecond, List.takeWhile_append_of_pos hheader.imported]
    simp only [List.append_assoc, List.prefix_append_right_inj]
    exact List.prefix_append _ _

end Split

end Header

/-! ### The header of a text with imports -/

section WithImports

variable {content : List Char} {imports : List Import}

theorem Header.before_prefix (content : List Char) : Header.before content <+: content :=
  ⟨_, Header.before_append_after content⟩

theorem Header.before_eq_or_ended (content : List Char) :
    Header.before content = content ∨ Ended (Header.before content) := by
  refine (Header.after_eq_nil_or_ended content).imp_left fun hnil => ?_
  have hcut := Header.before_append_after content
  rwa [hnil, List.append_nil] at hcut

/-- The beginning of a text is in its header if its rows are. -/
theorem Header.prefix_before {as : List Char} (has : as <+: content)
    (h : rows as <+: rows (Header.before content)) : as <+: Header.before content :=
  Text.prefix_of_rows_prefix has (Header.before_prefix content)
    (Header.before_eq_or_ended content) h

theorem withImports_of_missing (hmissing : missingImports content imports ≠ []) :
    withImports content imports = Header.before content ++ Header.lead content ++
      importBlock (missingImports content imports) ++ Header.after content := by
  rw [withImports, if_neg (by simpa using hmissing), ← List.append_assoc]

/-- **The header of a text with the import lines that it lacked** is the old one and these lines. -/
theorem before_withImports (hmissing : missingImports content imports ≠ [])
    (hlines : ∀ i ∈ missingImports content imports,
      '\n' ∉ i.code.toList ∧ Header.isImport i.code.toList = true) :
    Header.before (withImports content imports) =
      Header.before content ++ Header.lead content ++
        importBlock (missingImports content imports) := by
  have hended : Ended (Header.before content ++ Header.lead content ++
      importBlock (missingImports content imports)) :=
    (Header.ended_before_append_lead content).append (ended_importBlock _)
  have hblock := rows_importBlock fun i hi => (hlines i hi).1
  have hsplit := Header.split_rows content
  have hrows : rows (Header.before (withImports content imports)) =
      rows (Header.before content ++ Header.lead content ++
        importBlock (missingImports content imports)) := by
    have hnew : ∀ l ∈ rows (importBlock (missingImports content imports)),
        Header.isImport l = true := by
      rw [hblock]
      intro l hl
      obtain ⟨i, hi, rfl⟩ := List.mem_map.mp hl
      exact (hlines i hi).2
    have hinsert := Header.split_insert hnew (rows content)
    rw [hsplit, ← rows_withImports_eq, Header.split_rows] at hinsert
    rw [Text.rows_append (Header.ended_before_append_lead content),
      Header.rows_before_append_lead]
    exact congrArg Prod.fst hinsert
  obtain ⟨rest, hrest⟩ := Header.prefix_before
    ⟨Header.after content, (withImports_of_missing hmissing).symm⟩ (hrows ▸ List.prefix_rfl)
  rw [← hrest, Text.rows_append hended, List.append_right_eq_self, Text.rows_eq_nil_iff] at hrows
  rw [← hrest, hrows, List.append_nil]

/-- The header of a text is part of the header afterwards, whatever is inserted. -/
theorem before_prefix_before_withImports (content : List Char) (imports : List Import) :
    Header.before content <+: Header.before (withImports content imports) := by
  refine Header.prefix_before ?_ ?_
  · rw [withImports, List.append_assoc]
    exact List.prefix_append _ _
  · have hbegins := Header.prefix_split (rows content)
      (rows (importBlock (missingImports content imports)) ++ rows (Header.after content))
    rwa [Header.split_rows, ← List.append_assoc, ← rows_withImports_eq, Header.split_rows]
      at hbegins

end WithImports

/-! ### One injection after the other -/

/-- A text after one injection after the other, each of which inserts the imports that are missing
by then. -/
def injectAll (content : List Char) (rounds : List (List Import)) : List Char :=
  rounds.foldl
    (fun content imports => spliceAll content (importInsertion? content imports).toList) content

/-- **Later injections leave the header in place.** -/
theorem before_prefix_before_injectAll (content : List Char) (rounds : List (List Import)) :
    Header.before content <+: Header.before (injectAll content rounds) := by
  induction rounds generalizing content with
  | nil => exact List.prefix_rfl
  | cons imports rounds ih =>
    have hstep := before_prefix_before_withImports content imports
    rw [← spliceAll_importInsertion?] at hstep
    exact hstep.trans (ih _)

section Insertion

variable {content : List Char} {imports : List Import} {e : Edit}
  (h : importInsertion? content imports = some e)

include h

theorem importInsertion?_eq_some : missingImports content imports ≠ [] ∧
    e = .insert (insertPosition content) (String.ofList
      (Header.lead content ++ importBlock (missingImports content imports))) := by
  rw [importInsertion?_eq] at h
  split at h
  · exact nomatch h
  · next hne => exact ⟨by simpa using hne, (Option.some.inj h).symm⟩

theorem start_of_importInsertion? : e.start = insertPosition content :=
  congrArg Edit.start (importInsertion?_eq_some h).2

theorem takeBytes_start : takeBytes e.start content = Header.before content := by
  rw [start_of_importInsertion? h]
  exact Text.takeBytes_of_prefix (Header.before_prefix content)

variable (hlines : ∀ i ∈ imports, occursIn i.code.toList content = false →
  '\n' ∉ i.code.toList ∧ Header.isImport i.code.toList = true)

include hlines

/-- **The header after the insertion of import lines** is the old one and the inserted text. -/
theorem before_splice :
    Header.before (splice content e) = takeBytes e.start content ++ e.replacement.toList := by
  obtain ⟨hne, he⟩ := importInsertion?_eq_some h
  have hmissing : ∀ i ∈ missingImports content imports,
      '\n' ∉ i.code.toList ∧ Header.isImport i.code.toList = true := by
    intro i hi
    obtain ⟨hmem, hlacks⟩ := List.mem_filter.mp hi
    exact hlines i hmem (by simpa using hlacks)
  have hsplice : splice content e = withImports content imports := by
    rw [← spliceAll_importInsertion?, h]
    rfl
  rw [hsplice, before_withImports hne hmissing, takeBytes_start h, List.append_assoc, he]
  exact congrArg _ String.toList_ofList.symm

theorem insertPosition_splice :
    insertPosition (splice content e) = e.start + e.replacement.utf8ByteSize := by
  rw [← Header.byteLength_before, before_splice h hlines, Text.byteLength_append,
    takeBytes_start h, Header.byteLength_before, Text.byteLength_toList,
    start_of_importInsertion? h]

/-- **Later injections go after the inserted text**, and leave what is before its end. -/
theorem later_insertions (rounds : List (List Import)) :
    takeBytes (e.start + e.replacement.utf8ByteSize) (injectAll (splice content e) rounds) =
        takeBytes e.start content ++ e.replacement.toList ∧
      ∀ later e', importInsertion? (injectAll (splice content e) rounds) later = some e' →
        e.start + e.replacement.utf8ByteSize ≤ e'.start := by
  have hbegins := before_prefix_before_injectAll (splice content e) rounds
  rw [← insertPosition_splice h hlines, ← before_splice h hlines, ← Header.byteLength_before]
  refine ⟨Text.takeBytes_of_prefix (hbegins.trans (Header.before_prefix _)), ?_⟩
  intro later e' h'
  rw [start_of_importInsertion? h', ← Header.byteLength_before]
  exact Text.byteLength_le_of_prefix hbegins

end Insertion

/-! ### Insertions of a plan -/

section Injection

variable {options : ApplyOptions} {ps : List Patch} {d : Disk}

/-- The edits of a plan for a file that lacks an import. -/
theorem exists_insertion (current : String → Except IoError String) {planned : List Patch}
    (hplanned : planned = (PatchGroup.ofPatches ps).toList.filterMap fun f =>
      plannedPatch? (current f.1) f.1 f.2)
    {file text : String} (htext : current file = .ok text)
    (hmissing : ∃ i ∈ importsOf ps file, occursIn i.code.toList text.toList = false) :
    ∃ q ∈ planned, ∃ e, q.file = file ∧ q.edits = sortEdits (editsOf ps file ++ [e]) ∧
      importInsertion? text.toList (mergeImports (importsOf ps file)) = some e := by
  obtain ⟨i, hi, hlacks⟩ := hmissing
  have hne : missingImports text.toList (mergeImports (importsOf ps file)) ≠ [] :=
    List.ne_nil_of_mem (List.mem_filter.mpr ⟨mem_distinct.mpr hi, by rw [hlacks]; rfl⟩)
  have hfile : file ∈ planned.map Patch.file := by
    obtain ⟨p, hp, hpfile, hpi⟩ := mem_importsOf.mp hi
    exact (mem_files_planned hplanned).mpr ⟨p, hp, hpfile, .inr (List.ne_nil_of_mem hpi)⟩
  obtain ⟨q, hq, rfl⟩ := List.mem_map.mp hfile
  obtain ⟨g, hg, hgfile, -, hedits⟩ := exists_of_mem_planned hplanned hq
  obtain ⟨e, he⟩ : ∃ e,
      importInsertion? text.toList (mergeImports (importsOf ps q.file)) = some e := by
    rw [importInsertion?_eq, if_neg (by simpa using hne)]
    exact ⟨_, rfl⟩
  have hinsertion : insertion? (current q.file) (mergeImports (importsOf ps q.file)) = some e := by
    rw [htext]
    exact he
  rw [FilePatches.edits_eq_editsOf hg, FilePatches.imports_eq_importsOf hg, hgfile, hinsertion]
    at hedits
  exact ⟨q, hq, e, rfl, hedits, he⟩

/-- **Injected imports extend the header.** Let all files that are to have imports be readable, so
that planning succeeds. Let a file lack an import, and let every import that it lacks be one line,
and an import line as a header is read, that is without carriage returns at its end. Then the edits
planned for the file are those proposed and an insertion. After the insertion has been applied to
the file, the header ends where the inserted text does. Whatever is injected into that text later,
the text before this offset stays, and each further insertion goes to this offset or beyond. -/
theorem injected_imports_extend_header
    (hread : ∀ p ∈ ps, p.imports ≠ [] →
      ∃ text, (currentText (m := DiskM) options p.file d).1 = .ok text) :
    ∃ planned, (plan (currentText (m := DiskM) options) ps).run d = (.ok planned, d) ∧
      ∀ file text, (currentText (m := DiskM) options file d).1 = .ok text →
        (∀ i ∈ importsOf ps file, occursIn i.code.toList text.toList = false →
          '\n' ∉ i.code.toList ∧ Header.isImport i.code.toList = true) →
        (∃ i ∈ importsOf ps file, occursIn i.code.toList text.toList = false) →
        ∃ q ∈ planned, ∃ (e : Edit) (c : FileChange), q.file = file ∧
          q.edits = sortEdits (editsOf ps file ++ [e]) ∧
          e.start = insertPosition text.toList ∧ e.stop = e.start ∧
          (apply (m := DiskM) [⟨file, [e], [], ∅⟩] { options with write := false }).run d =
            (.ok ⟨[c], []⟩, d) ∧
          c.old = text ∧ c.new.toList = splice text.toList e ∧
          insertPosition c.new.toList = e.start + e.replacement.utf8ByteSize ∧
          ∀ rounds : List (List Import),
            takeBytes (e.start + e.replacement.utf8ByteSize) (injectAll c.new.toList rounds) =
              takeBytes e.start text.toList ++ e.replacement.toList ∧
            ∀ (later : List Import) (e' : Edit),
              importInsertion? (injectAll c.new.toList rounds) later = some e' →
                e.start + e.replacement.utf8ByteSize ≤ e'.start := by
  refine ⟨_, run_plan_currentText hread, fun file text htext hlines hmissing => ?_⟩
  obtain ⟨q, hq, e, hqfile, hedits, he⟩ := exists_insertion
    (fun file => (currentText (m := DiskM) options file d).1) rfl htext hmissing
  have hlines' : ∀ i ∈ mergeImports (importsOf ps file),
      occursIn i.code.toList text.toList = false →
        '\n' ∉ i.code.toList ∧ Header.isImport i.code.toList = true :=
    fun i hi => hlines i (mem_distinct.mp hi)
  have hfits : Applicable text.toList [e] := by
    have hall := applicable_importInsertion? text.toList (mergeImports (importsOf ps file))
    rwa [he] at hall
  have hinsertion : insertion? (.ok text) (mergeImports (importsOf ps file)) = some e := he
  refine ⟨q, hq, e, _, hqfile, hedits, start_of_importInsertion? he, stop_of_insertion? hinsertion,
    apply_singleton rfl htext hfits, rfl, String.toList_ofList, ?_⟩
  rw [String.toList_ofList]
  exact ⟨insertPosition_splice he hlines', later_insertions he hlines'⟩

/-- The header ends with a directive that is not ended, and of three imports one is there already,
which is no import line. There is also an edit of the directive. -/
theorem injected_imports_extend_unended_header :
    let text := "#!/bin/node\r\n'use client'"
    let ps : List Patch := [⟨"x", [], [⟨"b", "import b"⟩, ⟨"c", "'use client'"⟩], ∅⟩,
      ⟨"x", [⟨14, 17, "no"⟩], [⟨"é", "  import é from 'é'\r"⟩], ∅⟩]
    let options : ApplyOptions := ⟨true, some (.ofList [("x", text)]), ⟨"."⟩⟩
    (∀ i ∈ importsOf ps "x", occursIn i.code.toList text.toList = false →
        '\n' ∉ i.code.toList ∧ Header.isImport i.code.toList = true) ∧
      (∃ i ∈ importsOf ps "x", occursIn i.code.toList text.toList = false) ∧
      ∀ d : Disk, ∃ planned,
        (plan (currentText (m := DiskM) options) ps).run d = (.ok planned, d) ∧
        ∃ q ∈ planned, ∃ (e : Edit) (c : FileChange), q.edits = sortEdits [⟨14, 17, "no"⟩, e] ∧
          e.start = 25 ∧
          (apply (m := DiskM) [⟨"x", [e], [], ∅⟩] { options with write := false }).run d =
            (.ok ⟨[c], []⟩, d) ∧
          c.old = text ∧ insertPosition c.new.toList = 25 + e.replacement.utf8ByteSize ∧
          ∀ e', importInsertion? (injectAll c.new.toList [[⟨"f", "f()"⟩]]) [⟨"g", "import g"⟩] =
            some e' → 25 + e.replacement.utf8ByteSize ≤ e'.start := by
  intro text ps options
  have hlines : ∀ i ∈ importsOf ps "x", occursIn i.code.toList text.toList = false →
      '\n' ∉ i.code.toList ∧ Header.isImport i.code.toList = true := by decide
  have hmissing : ∃ i ∈ importsOf ps "x", occursIn i.code.toList text.toList = false := by decide
  refine ⟨hlines, hmissing, fun d => ?_⟩
  have hread : ∀ p ∈ ps, p.imports ≠ [] →
      ∃ text, (currentText (m := DiskM) options p.file d).1 = .ok text := by
    intro p hp _
    simp only [ps, List.mem_cons, List.not_mem_nil, or_false] at hp
    rcases hp with rfl | rfl <;> exact ⟨text, rfl⟩
  obtain ⟨planned, hplan, hextends⟩ := injected_imports_extend_header hread
  obtain ⟨q, hq, e, c, -, hqedits, hstart, -, hrun, hold, -, hposition, hlater⟩ :=
    hextends "x" text rfl hlines hmissing
  have hoffset : e.start = 25 := hstart.trans (by decide)
  rw [hoffset] at hposition hlater
  exact ⟨planned, hplan, q, hq, e, c, hqedits, hoffset, hrun, hold, hposition, (hlater _).2 _⟩

/-- **A code that only its carriage return makes an import** does not extend the header. Into an
empty file it is inserted as a line of its own, and the header of that line is empty. -/
theorem bare_import_extends_nothing :
    let code := "import\r"
    let ps : List Patch := [⟨"x", [], [⟨"a", code⟩], ∅⟩]
    let options : ApplyOptions := ⟨false, some (.ofList [("x", "")]), ⟨"."⟩⟩
    let d : Disk := .blank [] 0
    '\n' ∉ code.toList ∧ Header.startsImport code.toList = true ∧
      ∃ planned, (plan (currentText (m := DiskM) options) ps).run d = (.ok planned, d) ∧
        ∃ q ∈ planned, ∃ (e : Edit) (c : FileChange), q.edits = [e] ∧ e.start = 0 ∧
          (apply (m := DiskM) [⟨"x", [e], [], ∅⟩] options).run d = (.ok ⟨[c], []⟩, d) ∧
          c.new = "import\r\n" ∧ e.start + e.replacement.utf8ByteSize = 8 ∧
          insertPosition c.new.toList = 0 := by
  intro code ps options d
  have hread : ∀ p ∈ ps, p.imports ≠ [] →
      ∃ text, (currentText (m := DiskM) options p.file d).1 = .ok text := by
    intro p hp _
    cases List.mem_singleton.mp hp
    exact ⟨"", rfl⟩
  have hmissing : ∃ i ∈ importsOf ps "x", occursIn i.code.toList "".toList = false := by decide
  obtain ⟨q, hq, e, -, hedits, he⟩ := exists_insertion
    (fun file => (currentText (m := DiskM) options file d).1) rfl rfl hmissing
  have hinsertion : importInsertion? "".toList (mergeImports (importsOf ps "x")) =
      some ⟨0, 0, "import\r\n"⟩ := by decide +kernel
  cases he.symm.trans hinsertion
  let c : FileChange := ⟨"x", "", "import\r\n", false, []⟩
  have happly : (apply (m := DiskM) [⟨"x", [⟨0, 0, "import\r\n"⟩], [], ∅⟩] options).run d =
      (.ok ⟨[c], []⟩, d) := Prod.ext (by decide +kernel) (by decide +kernel)
  exact ⟨by decide, by decide, _, run_plan_currentText hread, q, hq, _, c,
    hedits.trans (by decide +kernel), rfl, happly, rfl, by decide, by decide⟩

end Injection

end KeyLedger
