import KeyLedger.Proofs.Patch.Injection

/-!
# Lines around inserted imports

Imports are inserted where the header of a file ends. If each is one line, the insertion is a matter
of whole lines: the rows of the new text are those of the header, the imports that the file lacked,
and the other rows of the file.

A header is found line by line, and only the first line of a statement that goes over several lines
looks like an import. So the insertion may go through such a statement, after one of its line feeds.
The statement had been found in the file, and was not inserted for that reason; now it does not occur
in it any more, and the next plan inserts it again.

## Main results

* `exists_injected` — the insertion for each file, and its text afterwards
* `insertion_respects_lines` — where imports of one line are inserted, and the rows afterwards
* `present_import_kept_iff` — which imports of a file still occur in it after the insertion
-/

namespace KeyLedger

open Text (rows byteLength occursIn OccursAt)

section Insertion

variable {options : ApplyOptions} {ps : List Patch} {d : Disk}

/-- **The insertion for each file, and its text afterwards.** -/
theorem exists_injected (hwrite : options.write = false) (hedits : ∀ p ∈ ps, p.edits = [])
    (hread : ∀ p ∈ ps, p.imports ≠ [] →
      ∃ text, (currentText (m := DiskM) options p.file d).1 = .ok text) :
    ∃ planned r, (plan (currentText (m := DiskM) options) ps).run d = (.ok planned, d) ∧
      (apply (m := DiskM) planned options).run d = (.ok r, d) ∧
      ∀ file text, (currentText (m := DiskM) options file d).1 = .ok text →
        importsOf ps file ≠ [] → ∃ q ∈ planned, ∃ c ∈ r.files, q.file = file ∧ c.file = file ∧
          q.edits = (importInsertion? text.toList (mergeImports (importsOf ps file))).toList ∧
          c.old = text ∧
          c.new.toList = withImports text.toList (mergeImports (importsOf ps file)) := by
  obtain ⟨planned, hplan, hinjection⟩ := exists_injectionPlan hedits hread
  obtain ⟨r, hrun, -, -, hreports⟩ := hinjection.exists_reports (.inl hwrite)
  refine ⟨planned, r, hplan, hrun, fun file text htext hne => ?_⟩
  obtain ⟨q, hq, rfl⟩ := List.mem_map.mp ((hinjection.mem_files file).mpr hne)
  obtain ⟨himports, text', htext', hqedits⟩ := hinjection.patches q hq
  obtain rfl : text' = text := Except.ok.inj (htext'.symm.trans htext)
  obtain ⟨text'', htext'', hreport, -⟩ := hreports q hq
  obtain rfl : text'' = text' := Except.ok.inj (htext''.symm.trans htext)
  refine ⟨q, hq, _, ((hreport.files _).mpr rfl).1, rfl, rfl, himports ▸ hqedits, rfl, ?_⟩
  rw [Patch.injection, String.toList_ofList, himports]

/-- **Inserting imports of one line respects lines.** Let patches propose imports and no edits, and
let all files that are to have imports be readable. Then planning and applying the plan succeeds. A
file that is to have imports of one line each, and lacks one of them, has one edit. The edit inserts
at an offset of a character, which is the start of the file, its end, or the start of a line. The
rows before it are a line that names the interpreter and a directive, if there are any, and import
lines, and the row after it is no import line. The rows of the new text are those before the offset,
the imports that the file lacked, in the order in which they were first proposed, and the others. -/
theorem insertion_respects_lines (hwrite : options.write = false)
    (hedits : ∀ p ∈ ps, p.edits = [])
    (hread : ∀ p ∈ ps, p.imports ≠ [] →
      ∃ text, (currentText (m := DiskM) options p.file d).1 = .ok text) :
    ∃ planned r, (plan (currentText (m := DiskM) options) ps).run d = (.ok planned, d) ∧
      (apply (m := DiskM) planned options).run d = (.ok r, d) ∧
      ∀ file text, (currentText (m := DiskM) options file d).1 = .ok text →
        (∀ i ∈ importsOf ps file, '\n' ∉ i.code.toList) →
        (∃ i ∈ importsOf ps file, occursIn i.code.toList text.toList = false) →
        ∃ q ∈ planned, ∃ c ∈ r.files, ∃ (e : Edit) (before after : List Char)
          (shebang directive : Option (List Char)) (statements : List (List Char)),
          q.file = file ∧ q.edits = [e] ∧ c.file = file ∧ c.old = text ∧
          e.start = insertPosition text.toList ∧ e.stop = e.start ∧ e.Fits text ∧
          before ++ after = text.toList ∧ byteLength before = e.start ∧
          (before = [] ∨ after = [] ∨ ∃ as, before = as ++ ['\n']) ∧
          rows before = shebang.toList ++ directive.toList ++ statements ∧
          Header.IsHeader shebang directive statements (rows after) ∧
          rows text.toList = rows before ++ rows after ∧
          rows c.new.toList = rows before ++
            ((distinct (importsOf ps file)).filter fun i =>
              !occursIn i.code.toList text.toList).map (fun i => i.code.toList) ++ rows after := by
  obtain ⟨planned, r, hplan, hrun, hinjected⟩ := exists_injected hwrite hedits hread
  refine ⟨planned, r, hplan, hrun, fun file text htext hcodes hmissing => ?_⟩
  obtain ⟨i, hi, hlacks⟩ := hmissing
  obtain ⟨q, hq, c, hc, hqfile, hcfile, hqedits, hold, hnew⟩ :=
    hinjected file text htext (List.ne_nil_of_mem hi)
  have hne : missingImports text.toList (mergeImports (importsOf ps file)) ≠ [] :=
    List.ne_nil_of_mem (List.mem_filter.mpr ⟨mem_distinct.mpr hi, by rw [hlacks]; rfl⟩)
  rw [importInsertion?_eq, if_neg (by simpa using hne)] at hqedits
  -- the header is found among lines with their line feeds, and what it consists of is read off rows
  obtain ⟨shebang, directive, statements, hsplit, hheader⟩ :=
    Header.exists_isHeader (rows text.toList)
  rw [Header.split_rows] at hsplit hheader
  have hline : Header.before text.toList = [] ∨ Header.after text.toList = [] ∨
      ∃ as, Header.before text.toList = as ++ ['\n'] :=
    or_left_comm.mp (Header.after_eq_nil_or_ended text.toList)
  refine ⟨q, hq, c, hc, _, Header.before text.toList, Header.after text.toList, shebang, directive,
    statements, hqfile, hqedits, hcfile, hold, rfl, rfl, Edit.fits_iff.mpr ⟨Nat.le_refl _, ?_⟩,
    Header.before_append_after _, Header.byteLength_before _, hline, hsplit, hheader,
    Header.rows_eq _, ?_⟩
  · exact fits_insert text.toList _
  · rw [hnew]
    exact rows_withImports fun j hj => hcodes j (mem_distinct.mp hj)

/-- A header with CR LF whose last line is not ended, and characters of several bytes: one import is
there, and the other one is proposed twice. -/
theorem insertion_respects_lines_at_end :
    let text := "#!/bin/node\r\n'use client'\r\nimport é from 'é'"
    let ps : List Patch := [⟨"x", [], [⟨"b", "import b"⟩, ⟨"é", "import é from 'é'"⟩], ∅⟩,
      ⟨"x", [], [⟨"a", "import a"⟩, ⟨"b", "import b"⟩], ∅⟩]
    let options : ApplyOptions := ⟨false, some (.ofList [("x", text)]), ⟨"."⟩⟩
    (∀ p ∈ ps, p.edits = []) ∧ (∀ i ∈ importsOf ps "x", '\n' ∉ i.code.toList) ∧
      (∃ i ∈ importsOf ps "x", occursIn i.code.toList text.toList = false) ∧
      ∀ d : Disk, ∃ planned r,
        (plan (currentText (m := DiskM) options) ps).run d = (.ok planned, d) ∧
        (apply (m := DiskM) planned options).run d = (.ok r, d) ∧
        ∃ q ∈ planned, ∃ c ∈ r.files, ∃ e, q.edits = [e] ∧ e.start = text.utf8ByteSize ∧
          e.Fits text ∧ c.old = text ∧
          rows c.new.toList = ["#!/bin/node\r".toList, "'use client'\r".toList,
            "import é from 'é'".toList, "import b".toList, "import a".toList] := by
  intro text ps options
  have hedits : ∀ p ∈ ps, p.edits = [] := by decide
  have hcodes : ∀ i ∈ importsOf ps "x", '\n' ∉ i.code.toList := by decide
  have hmissing : ∃ i ∈ importsOf ps "x", occursIn i.code.toList text.toList = false := by decide
  refine ⟨hedits, hcodes, hmissing, fun d => ?_⟩
  have hread : ∀ p ∈ ps, p.imports ≠ [] →
      ∃ text, (currentText (m := DiskM) options p.file d).1 = .ok text := by
    intro p hp _
    simp only [ps, List.mem_cons, List.not_mem_nil, or_false] at hp
    rcases hp with rfl | rfl <;> exact ⟨text, rfl⟩
  obtain ⟨planned, r, hplan, hrun, hlines⟩ := insertion_respects_lines rfl hedits hread
  obtain ⟨q, hq, c, hc, e, before, after, -, -, -, -, hqedits, -, hold, hstart, -, hfits, hcut,
    hbefore, -, -, -, -, hrows⟩ := hlines "x" text rfl hcodes hmissing
  -- all of the text is header, so that nothing is left after the insertion
  have hend : insertPosition text.toList = text.utf8ByteSize := by decide
  have hafter : after = [] := by
    have hsize := congrArg byteLength hcut
    rw [Text.byteLength_append, Text.byteLength_toList] at hsize
    exact Text.byteLength_eq_zero_iff.mp (by omega)
  rw [hafter, List.append_nil] at hcut
  refine ⟨planned, r, hplan, hrun, q, hq, c, hc, e, hqedits, hstart.trans hend, hfits, hold, ?_⟩
  rw [hrows, hafter, hcut]
  decide

/-- **An import that was there is kept** exactly if it stood in the file without reaching across the
end of the header, or if it occurs in the new text and reaches into the insertion. If it is lost, the
header ends within the import, after one of its line feeds; so imports of one line are kept. -/
theorem present_import_kept_iff (hwrite : options.write = false)
    (hedits : ∀ p ∈ ps, p.edits = [])
    (hread : ∀ p ∈ ps, p.imports ≠ [] →
      ∃ text, (currentText (m := DiskM) options p.file d).1 = .ok text) :
    ∃ planned r, (plan (currentText (m := DiskM) options) ps).run d = (.ok planned, d) ∧
      (apply (m := DiskM) planned options).run d = (.ok r, d) ∧
      ∀ file text, (currentText (m := DiskM) options file d).1 = .ok text →
        ∀ i ∈ importsOf ps file, occursIn i.code.toList text.toList = true →
          ∃ c ∈ r.files, c.file = file ∧ c.old = text ∧
            (occursIn i.code.toList c.new.toList = true ↔
              (∃ j k, OccursAt i.code.toList text.toList j k ∧
                (k ≤ insertPosition text.toList ∨ insertPosition text.toList ≤ j)) ∨
              ∃ j k, OccursAt i.code.toList c.new.toList j k ∧
                j < insertPosition text.toList + (c.new.utf8ByteSize - text.utf8ByteSize) ∧
                insertPosition text.toList < k) ∧
            (occursIn i.code.toList c.new.toList = false →
              ∃ j k u v, OccursAt i.code.toList text.toList j k ∧
                i.code.toList = u ++ '\n' :: v ∧ v ≠ [] ∧
                j + byteLength (u ++ ['\n']) = insertPosition text.toList) := by
  obtain ⟨planned, r, hplan, hrun, hinjected⟩ := exists_injected hwrite hedits hread
  refine ⟨planned, r, hplan, hrun, fun file text htext i hi hpresent => ?_⟩
  obtain ⟨-, -, c, hc, -, hcfile, -, hold, hnew⟩ :=
    hinjected file text htext (List.ne_nil_of_mem hi)
  refine ⟨c, hc, hcfile, hold, ?_, fun hlost => ?_⟩
  · rw [Text.occursIn_iff, ← Text.byteLength_toList, ← Text.byteLength_toList, hnew]
    exact infix_withImports_iff
  · have hgone : ¬ i.code.toList <:+: c.new.toList := by
      rw [← Text.occursIn_iff, hlost]
      exact Bool.false_ne_true
    exact exists_feed_of_lost (Text.occursIn_iff.mp hpresent) (hnew ▸ hgone)

/-- A statement of several lines that the file has after its header. -/
theorem present_import_kept_below_header :
    let block : Import := ⟨"b", "import b,\n  * as c from 'b'"⟩
    let text := "'use client'\nimport a\n\nimport b,\n  * as c from 'b'\n"
    let ps : List Patch := [⟨"x", [], [block, ⟨"d", "import d"⟩], ∅⟩]
    let options : ApplyOptions := ⟨false, some (.ofList [("x", text)]), ⟨"."⟩⟩
    (∀ p ∈ ps, p.edits = []) ∧ occursIn block.code.toList text.toList = true ∧
      ∀ d : Disk, ∃ planned r,
        (plan (currentText (m := DiskM) options) ps).run d = (.ok planned, d) ∧
        (apply (m := DiskM) planned options).run d = (.ok r, d) ∧
        ∃ c ∈ r.files, c.file = "x" ∧ c.old = text ∧
          occursIn block.code.toList c.new.toList = true := by
  intro block text ps options
  have hedits : ∀ p ∈ ps, p.edits = [] := by decide
  have hpresent : occursIn block.code.toList text.toList = true := by decide
  refine ⟨hedits, hpresent, fun d => ?_⟩
  have hread : ∀ p ∈ ps, p.imports ≠ [] →
      ∃ text, (currentText (m := DiskM) options p.file d).1 = .ok text := by
    intro p hp _
    rw [List.mem_singleton.mp hp]
    exact ⟨text, rfl⟩
  obtain ⟨planned, r, hplan, hrun, hkept⟩ := present_import_kept_iff rfl hedits hread
  obtain ⟨c, hc, hfile, hold, hiff, -⟩ :=
    hkept "x" text rfl block (mem_importsOf.mpr ⟨_, List.mem_singleton_self _, rfl, by decide⟩)
      hpresent
  refine ⟨planned, r, hplan, hrun, c, hc, hfile, hold, hiff.mpr (.inl ⟨23, 50, ?_, .inr ?_⟩)⟩
  · exact ⟨"'use client'\nimport a\n\n".toList, ['\n'], by decide, by decide, by decide⟩
  · decide

/-- A statement of several lines that ends the header of a file: another import is inserted after
its first line. -/
theorem insertion_splits_statement :
    let block : Import := ⟨"a", "import a,\n  * as b from 'a'"⟩
    let text := "import a,\n  * as b from 'a'\n"
    let ps : List Patch := [⟨"x", [], [block, ⟨"c", "import c"⟩], ∅⟩]
    let options : ApplyOptions := ⟨false, some (.ofList [("x", text)]), ⟨"."⟩⟩
    occursIn block.code.toList text.toList = true ∧
      ∀ d : Disk, ∃ planned r,
        (plan (currentText (m := DiskM) options) ps).run d = (.ok planned, d) ∧
        (apply (m := DiskM) planned options).run d = (.ok r, d) ∧
        ∃ c ∈ r.files, c.file = "x" ∧ c.old = text ∧
          c.new = "import a,\nimport c\n  * as b from 'a'\n" ∧
          occursIn block.code.toList c.new.toList = false := by
  intro block text ps options
  refine ⟨by decide, fun d => ?_⟩
  have hread : ∀ p ∈ ps, p.imports ≠ [] →
      ∃ text, (currentText (m := DiskM) options p.file d).1 = .ok text := by
    intro p hp _
    rw [List.mem_singleton.mp hp]
    exact ⟨text, rfl⟩
  obtain ⟨planned, r, hplan, hrun, hinjected⟩ := exists_injected rfl (by decide) hread
  obtain ⟨-, -, c, hc, -, hfile, -, hold, hnew⟩ := hinjected "x" text rfl (by decide)
  have hsplit : c.new.toList = "import a,\nimport c\n  * as b from 'a'\n".toList :=
    hnew.trans (by decide)
  refine ⟨planned, r, hplan, hrun, c, hc, hfile, hold, String.toList_inj.mp hsplit, ?_⟩
  rw [hsplit]
  decide

end Insertion

end KeyLedger
