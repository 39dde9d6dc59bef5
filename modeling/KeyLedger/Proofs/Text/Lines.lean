import KeyLedger.Proofs.Text.Bytes
import KeyLedger.Text.Blank
import KeyLedger.Text.Lines
import Mathlib.Data.List.DropRight

/-!
# Rows of a text, and what occurs in it

There are two ways to take a text apart at its line feeds. `lines` leaves every line feed at the end
of its line, so that offsets can be counted; `rows` drops them, so that one row can be compared with
another whether or not it is the last one. They cut at the same places (`rows_eq_map_lines`).

A text can be cut between any two of its lines, and what comes before the cut then ends in a line
feed (`lines_eq_append`). A text that occurs somewhere and has no line feed lies within one line, so
that such a cut does not go through it: a cut goes through a text only after one of its line feeds
(`OccursAt.exists_feed`).

## Main definitions

* `withoutFeed` — a line without the line feed that ends it
* `rows` — the lines of a text without line feeds
* `Ended` — a text whose last line is ended
* `OccursAt` — a text stands at given offsets of another one

## Main results

* `splitAt_eq_iff` — what the pieces of a text are
* `line_induction` — induction on a text, line by line
* `rows_eq_map_lines` — rows are lines without their line feeds
* `rows_append` — the rows of two texts, the first of which is ended
* `lines_eq_append` — cutting a text between lines
* `OccursAt.exists_feed` — a cut between lines goes through a text only after a line feed
* `infix_insert_iff` — what occurs in a text into which another one is inserted
-/

namespace KeyLedger.Text

/-! ### Pieces -/

theorem pieces_eq_splitOn (sep : Char) (cs : List Char) : pieces sep cs = cs.splitOn sep := by
  induction cs with
  | nil => rfl
  | cons c cs ih =>
    have hcons : (c :: cs).splitOn sep =
        if (c == sep) = true then [] :: cs.splitOn sep else (cs.splitOn sep).modifyHead (c :: ·) :=
      List.splitOnP_cons_eq_if_modifyHead c cs
    rw [pieces, ih, hcons]
    refine if_congr beq_iff_eq.symm rfl ?_
    cases hsplit : cs.splitOn sep with
    | nil => exact absurd hsplit (List.splitOnP_ne_nil _ _)
    | cons p ps => rfl

theorem notMem_of_mem_pieces {sep : Char} {cs p : List Char} (h : p ∈ pieces sep cs) : sep ∉ p := by
  induction cs generalizing p with
  | nil => simp_all [pieces]
  | cons c cs ih =>
    rw [pieces] at h
    split at h
    · rcases List.mem_cons.mp h with rfl | h
      · exact List.not_mem_nil
      · exact ih h
    · next hc =>
      cases hpieces : pieces sep cs with
      | nil =>
        rw [hpieces] at h
        obtain rfl := List.mem_singleton.mp h
        simpa using Ne.symm hc
      | cons q qs =>
        rw [hpieces] at h ih
        rcases List.mem_cons.mp h with rfl | h
        · have hq := ih List.mem_cons_self
          simpa [hq] using Ne.symm hc
        · exact ih (List.mem_cons_of_mem _ h)

theorem pieces_ne_nil (sep : Char) (cs : List Char) : pieces sep cs ≠ [] := by
  rw [pieces_eq_splitOn]
  exact List.splitOnP_ne_nil _ _

theorem pieces_of_notMem {sep : Char} {l : List Char} (h : sep ∉ l) : pieces sep l = [l] := by
  induction l with
  | nil => rfl
  | cons c l ih =>
    obtain ⟨hc, hl⟩ := List.ne_and_not_mem_of_not_mem_cons h
    rw [pieces, if_neg (Ne.symm hc), ih hl]

theorem pieces_append (sep : Char) (as bs : List Char) :
    pieces sep (as ++ sep :: bs) = pieces sep as ++ pieces sep bs := by
  simp only [pieces_eq_splitOn]
  exact List.splitOnP_append_cons as bs (beq_self_eq_true sep)

/-- **The pieces of a text** are the texts without the separator from which it is put together. -/
theorem splitAt_eq_iff {sep : Char} {s : String} {ss : List String} :
    splitAt sep s = ss ↔ ss ≠ [] ∧ (∀ p ∈ ss, sep ∉ p.toList) ∧
      (String.singleton sep).intercalate ss = s := by
  constructor
  · rintro rfl
    refine ⟨?_, fun p hp => ?_, ?_⟩
    · exact fun h => pieces_ne_nil sep s.toList (List.map_eq_nil_iff.mp h)
    · obtain ⟨cs, hcs, rfl⟩ := List.mem_map.mp hp
      rw [String.toList_ofList]
      exact notMem_of_mem_pieces hcs
    · rw [← String.toList_inj, String.toList_intercalate, splitAt, List.map_map,
        String.toList_singleton, show String.toList ∘ String.ofList = id from
          funext fun _ => String.toList_ofList, List.map_id, pieces_eq_splitOn]
      exact List.intercalate_splitOn sep
  · rintro ⟨hne, hsep, rfl⟩
    have hchars : ((String.singleton sep).intercalate ss).toList.splitOn sep =
        ss.map String.toList := by
      rw [String.toList_intercalate, String.toList_singleton]
      refine List.splitOn_intercalate sep ?_ (by simpa using hne)
      intro l hl
      obtain ⟨p, hp, rfl⟩ := List.mem_map.mp hl
      exact hsep p hp
    rw [splitAt, pieces_eq_splitOn, hchars, List.map_map]
    simp [Function.comp_def]

/-! ### Line by line -/

/-- **Induction on a text, line by line.** A text is empty, or one line that is not ended, or a line
and the text after it. -/
@[elab_as_elim]
theorem line_induction {motive : List Char → Prop} (nil : motive [])
    (last : ∀ l, l ≠ [] → '\n' ∉ l → motive l)
    (line : ∀ l rest, '\n' ∉ l → motive rest → motive (l ++ '\n' :: rest)) (cs : List Char) :
    motive cs := by
  induction hlength : cs.length using Nat.strong_induction_on generalizing cs with
  | _ n ih =>
    by_cases hmem : '\n' ∈ cs
    · obtain ⟨l, rest, rfl, hl⟩ := List.eq_append_cons_of_mem hmem
      have hshorter : rest.length < n := by
        rw [← hlength, List.length_append, List.length_cons]
        omega
      exact line l rest hl (ih rest.length hshorter rest rfl)
    · by_cases hnil : cs = []
      · exact hnil ▸ nil
      · exact last cs hnil hmem

section Lines

variable {l rest : List Char}

theorem lines_line (h : '\n' ∉ l) (rest : List Char) :
    lines (l ++ '\n' :: rest) = (l ++ ['\n']) :: lines rest := by
  induction l with
  | nil => simp [lines]
  | cons c l ih =>
    obtain ⟨hc, hl⟩ := List.ne_and_not_mem_of_not_mem_cons h
    rw [List.cons_append, lines, if_neg (Ne.symm hc), ih hl]
    rfl

theorem lines_last (hne : l ≠ []) (h : '\n' ∉ l) : lines l = [l] := by
  induction l with
  | nil => exact absurd rfl hne
  | cons c l ih =>
    obtain ⟨hc, hl⟩ := List.ne_and_not_mem_of_not_mem_cons h
    rw [lines, if_neg (Ne.symm hc)]
    by_cases hnil : l = []
    · rw [hnil]
      rfl
    · rw [ih hnil hl]

theorem flatten_lines (cs : List Char) : (lines cs).flatten = cs := by
  induction cs using line_induction with
  | nil => rfl
  | last l hne h => rw [lines_last hne h, List.flatten_singleton]
  | line l rest h ih => rw [lines_line h, List.flatten_cons, ih, List.append_assoc]; rfl

end Lines

/-! ### Rows -/

/-- A line without the line feed that ends it. -/
def withoutFeed (line : List Char) : List Char := dropTrailing (· == '\n') line

theorem withoutFeed_append (l : List Char) : withoutFeed (l ++ ['\n']) = withoutFeed l :=
  List.rdropWhile_concat_pos _ l '\n' rfl

theorem withoutFeed_of_notMem {l : List Char} (h : '\n' ∉ l) : withoutFeed l = l := by
  refine List.rdropWhile_eq_self_iff.mpr fun hne hlast => h ?_
  rw [← eq_of_beq hlast]
  exact List.getLast_mem hne

/-- Whatever does not depend on a line feed at the end is the same without it. -/
theorem apply_withoutFeed {α : Type} {f : List Char → α} (h : ∀ l, f (l ++ ['\n']) = f l)
    (l : List Char) : f (withoutFeed l) = f l := by
  induction l using List.reverseRecOn with
  | nil => rfl
  | append_singleton l c ih =>
    by_cases hc : c = '\n'
    · rw [hc, withoutFeed_append, ih, h]
    · exact congrArg f (List.rdropWhile_concat_neg _ l c (by simpa using hc))

/-- The rows of a text: what lies between its line feeds, but for an empty piece at the end. -/
def rows (cs : List Char) : List (List Char) :=
  let ps := pieces '\n' cs
  if ps.getLast? = some [] then ps.dropLast else ps

section Rows

variable {l : List Char}

@[simp] theorem rows_nil : rows [] = [] := rfl

theorem rows_last (hne : l ≠ []) (h : '\n' ∉ l) : rows l = [l] := by
  simp [rows, pieces_of_notMem h, hne]

theorem rows_line (h : '\n' ∉ l) (rest : List Char) : rows (l ++ '\n' :: rest) = l :: rows rest := by
  have hne := pieces_ne_nil '\n' rest
  have hpieces : pieces '\n' (l ++ '\n' :: rest) = l :: pieces '\n' rest := by
    rw [pieces_append, pieces_of_notMem h]
    rfl
  have hlast : (l :: pieces '\n' rest).getLast? = (pieces '\n' rest).getLast? :=
    List.getLast?_append_of_ne_nil [l] hne
  simp only [rows, hpieces, hlast, List.dropLast_cons_of_ne_nil hne]
  split <;> rfl

/-- **Rows are lines without their line feeds.** -/
theorem rows_eq_map_lines (cs : List Char) : rows cs = (lines cs).map withoutFeed := by
  induction cs using line_induction with
  | nil => rfl
  | last l hne h => rw [rows_last hne h, lines_last hne h, List.map_singleton, withoutFeed_of_notMem h]
  | line l rest h ih =>
    rw [rows_line h, lines_line h, List.map_cons, withoutFeed_append, withoutFeed_of_notMem h, ih]

end Rows

/-! ### Cutting between lines -/

/-- A text that is empty or ends in a line feed. -/
def Ended (cs : List Char) : Prop := cs = [] ∨ ∃ as, cs = as ++ ['\n']

theorem ended_iff {cs : List Char} : Ended cs ↔ cs = [] ∨ cs.getLast? = some '\n' :=
  or_congr_right List.getLast?_eq_some_iff.symm

theorem Ended.append {as bs : List Char} (has : Ended as) (hbs : Ended bs) : Ended (as ++ bs) := by
  rcases hbs with rfl | ⟨bs, rfl⟩
  · rwa [List.append_nil]
  · exact .inr ⟨as ++ bs, (List.append_assoc _ _ _).symm⟩

theorem Ended.of_append {as bs : List Char} (h : Ended (as ++ bs)) : Ended bs := by
  rcases List.eq_nil_or_concat' bs with rfl | ⟨bs, c, rfl⟩
  · exact .inl rfl
  · rcases h with h | ⟨cs, h⟩
    · simp at h
    · rw [← List.append_assoc] at h
      obtain ⟨-, hc⟩ := List.append_inj' h rfl
      exact .inr ⟨bs, by rw [hc]⟩

/-- **The rows of two texts**, the first of which is ended. -/
theorem rows_append {as : List Char} (h : Ended as) (bs : List Char) :
    rows (as ++ bs) = rows as ++ rows bs := by
  induction as using line_induction with
  | nil => rfl
  | last l hne hl =>
    rcases h with rfl | ⟨cs, rfl⟩
    · exact absurd rfl hne
    · simp at hl
  | line l rest hl ih =>
    have hrest : Ended rest := by
      rw [← List.singleton_append, ← List.append_assoc] at h
      exact h.of_append
    rw [List.append_assoc, List.cons_append, rows_line hl, rows_line hl, ih hrest]
    rfl

/-- Ending the last line of a text makes no further row. -/
theorem rows_append_feed {cs : List Char} (h : ¬ Ended cs) : rows (cs ++ ['\n']) = rows cs := by
  induction cs using line_induction with
  | nil => exact absurd (.inl rfl) h
  | last l hne hl => rw [rows_line hl, rows_last hne hl, rows_nil]
  | line l rest hl ih =>
    have hrest : ¬ Ended rest := by
      intro hended
      have hline : Ended (l ++ ['\n']) := .inr ⟨l, rfl⟩
      exact h (by simpa using hline.append hended)
    rw [List.append_assoc, List.cons_append, rows_line hl, rows_line hl, ih hrest]

/-- **Cutting a text between lines.** -/
theorem lines_eq_append {cs : List Char} {ls ks : List (List Char)} (h : lines cs = ls ++ ks) :
    (ks = [] ∨ Ended ls.flatten) ∧ lines ls.flatten = ls ∧ lines ks.flatten = ks := by
  induction cs using line_induction generalizing ls with
  | nil =>
    obtain ⟨rfl, rfl⟩ := List.append_eq_nil_iff.mp h.symm
    exact ⟨.inl rfl, rfl, rfl⟩
  | last l hne hl =>
    rw [lines_last hne hl] at h
    rcases List.append_eq_singleton_iff.mp h.symm with ⟨rfl, rfl⟩ | ⟨rfl, rfl⟩
    · exact ⟨.inr (.inl rfl), rfl, by rw [List.flatten_singleton, lines_last hne hl]⟩
    · exact ⟨.inl rfl, by rw [List.flatten_singleton, lines_last hne hl], rfl⟩
  | line l rest hl ih =>
    match ls with
    | [] =>
      refine ⟨.inr (.inl rfl), rfl, ?_⟩
      rw [← show lines (l ++ '\n' :: rest) = ks from h, flatten_lines]
    | l' :: ls =>
      rw [lines_line hl, List.cons_append, List.cons.injEq] at h
      obtain ⟨rfl, h⟩ := h
      obtain ⟨hended, hls, hks⟩ := ih h
      refine ⟨hended.imp_right (.append (.inr ⟨l, rfl⟩)), ?_, hks⟩
      rw [List.flatten_cons, List.append_assoc, List.singleton_append, lines_line hl, hls]

/-! ### Occurrences -/

theorem occursIn_iff {pat cs : List Char} : occursIn pat cs = true ↔ pat <:+: cs := by
  induction cs with
  | nil => simp [occursIn]
  | cons c cs ih =>
    rw [occursIn, Bool.or_eq_true, List.isPrefixOf_iff_prefix, ih, List.infix_cons_iff]

/-- A text stands in another one from one offset up to another. -/
def OccursAt (pat cs : List Char) (start stop : Nat) : Prop :=
  ∃ as bs, cs = as ++ pat ++ bs ∧ byteLength as = start ∧ byteLength (as ++ pat) = stop

/-- Of two ways to take a text apart, the one that cuts first. -/
theorem exists_append_of_le {as bs xs ys : List Char} (h : xs ++ ys = as ++ bs)
    (hle : byteLength xs ≤ byteLength as) : ∃ mid, as = xs ++ mid ∧ ys = mid ++ bs := by
  rcases List.append_eq_append_iff.mp h with hfirst | ⟨mid, rfl, rfl⟩
  · exact hfirst
  · rw [byteLength_append] at hle
    obtain rfl : mid = [] := byteLength_eq_zero_iff.mp (by omega)
    exact ⟨[], by simp, rfl⟩

/-- **A cut between lines goes through a text** only after one of its line feeds. -/
theorem OccursAt.exists_feed {pat as bs : List Char} {i j : Nat} (h : OccursAt pat (as ++ bs) i j)
    (hcut : bs = [] ∨ Ended as) (hi : i < byteLength as) (hj : byteLength as < j) :
    ∃ u v, pat = u ++ '\n' :: v ∧ v ≠ [] ∧ i + byteLength (u ++ ['\n']) = byteLength as := by
  obtain ⟨xs, ys, hcs, rfl, rfl⟩ := h
  obtain ⟨v, hpat, rfl⟩ := exists_append_of_le hcs (Nat.le_of_lt hj)
  obtain ⟨left, rfl, rfl⟩ := exists_append_of_le hpat (Nat.le_of_lt hi)
  have hv : v ≠ [] := by
    rintro rfl
    simp at hj
  have hended : Ended (xs ++ left) := hcut.resolve_left fun h => hv (List.append_eq_nil_iff.mp h).1
  rcases hended.of_append with rfl | ⟨u, rfl⟩
  · simp at hi
  · exact ⟨u, v, by simp, hv, (byteLength_append _ _).symm⟩

/-- **What occurs in a text into which another one is inserted**: what stood in the text and did not
reach across the place, and what reaches into the insertion. -/
theorem infix_insert_iff {pat as new bs : List Char} :
    pat <:+: as ++ new ++ bs ↔
      (∃ i j, OccursAt pat (as ++ bs) i j ∧ (j ≤ byteLength as ∨ byteLength as ≤ i)) ∨
      ∃ i j, OccursAt pat (as ++ new ++ bs) i j ∧ i < byteLength (as ++ new) ∧
        byteLength as < j := by
  constructor
  · rintro ⟨xs, ys, h⟩
    by_cases hbefore : byteLength (xs ++ pat) ≤ byteLength as
    · rw [List.append_assoc as] at h
      obtain ⟨mid, rfl, -⟩ := exists_append_of_le h hbefore
      exact .inl ⟨_, _, ⟨xs, mid ++ bs, List.append_assoc _ _ _, rfl, rfl⟩, .inl hbefore⟩
    by_cases hafter : byteLength (as ++ new) ≤ byteLength xs
    · rw [List.append_assoc] at h
      obtain ⟨mid, rfl, rfl⟩ := exists_append_of_le h.symm hafter
      refine .inl ⟨_, _, ⟨as ++ mid, ys, by simp only [List.append_assoc], rfl, rfl⟩, .inr ?_⟩
      rw [byteLength_append]
      omega
    · exact .inr ⟨_, _, ⟨xs, ys, h.symm, rfl, rfl⟩, by omega, by omega⟩
  · rintro (⟨_, _, ⟨xs, ys, h, rfl, rfl⟩, hbefore | hafter⟩ | ⟨_, _, ⟨xs, ys, h, -, -⟩, -⟩)
    · obtain ⟨mid, rfl, -⟩ := exists_append_of_le h.symm hbefore
      exact ⟨xs, mid ++ new ++ bs, by simp only [List.append_assoc]⟩
    · rw [List.append_assoc] at h
      obtain ⟨mid, rfl, rfl⟩ := exists_append_of_le h hafter
      exact ⟨as ++ new ++ mid, ys, by simp only [List.append_assoc]⟩
    · exact ⟨xs, ys, h.symm⟩

end KeyLedger.Text
