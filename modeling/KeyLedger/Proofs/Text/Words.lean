import KeyLedger.Digest.ContentHash
import Mathlib.Data.List.DropRight
import Mathlib.Logic.Relation

/-!
# The words of a text

The normal form of a text is computed in five passes, each of which sees what the passes before it
have left. What comes of all of them can be said in one sentence: it is the words of the text, joined
by single spaces. A word is what stands between two blanks once the zero-width characters are out.

## How the passes are followed

A text is read from left to right, with the word that has been begun on the side. Read in this way,
the first three passes are seen to keep the words whatever has been begun, and collapsing is seen to
write them out, up to a space at either end that trimming takes off.

## What a normal form tells

The words are read off a normal form again, so that it holds them and nothing else. Texts with one
normal form are those that can be retouched into each other: by taking out or putting in zero-width
characters anywhere, by changing one run of blanks for another, and by blanks at the ends.

## Main definitions

* `words` — the words of a text
* `joined` — words with single spaces between them
* `Retouched` — texts that differ in layout only

## Main results

* `normalize_eq_joined` — the normal form joins the words
* `words_joined` — the words are read off again
* `retouched_iff` — texts that differ in layout only are those with the same words
-/

namespace KeyLedger.Text

variable {c : Char} {cs w as bs : List Char} {ws : List (List Char)}

/-- The words of a text: the stretches between its blanks, with zero-width characters deleted and
empty stretches dropped. -/
def words (cs : List Char) : List (List Char) :=
  ((cs.filter fun c => !isZeroWidth c).splitOnP isBlank).filter fun w => !w.isEmpty

/-- Words with single spaces between them. -/
def joined (ws : List (List Char)) : List Char :=
  [' '].intercalate ws

/-! ### The two classes -/

theorem isZeroWidth_of_isBlank (h : isBlank c = true) : isZeroWidth c = false := by
  simp only [isBlank, blankRanges, isZeroWidth, zeroWidthRanges, inRanges, List.any_cons,
    List.any_nil, Bool.or_false, Bool.or_eq_true, decide_eq_true_eq, Bool.or_eq_false_iff,
    decide_eq_false_iff_not] at h ⊢
  omega

theorem isBlank_of_isWideSpace (h : isWideSpace c = true) : isBlank c = true := by
  simp only [isBlank, blankRanges, isWideSpace, wideSpaceRanges, inRanges, List.any_cons,
    List.any_nil, Bool.or_false, Bool.or_eq_true, decide_eq_true_eq] at h ⊢
  omega

theorem isBlank_space : isBlank ' ' = true := by decide

theorem isBlank_of_isDigit (h : c.isDigit = true) : isBlank c = false := by
  have hrange : 48 ≤ c.toNat ∧ c.toNat ≤ 57 := by
    simpa [Char.isDigit, UInt32.le_iff_toNat_le] using h
  rw [← Bool.not_eq_true]
  intro hblank
  obtain ⟨r, hr, hc⟩ := List.any_eq_true.mp hblank
  rw [decide_eq_true_eq] at hc
  have hapart : ∀ r ∈ blankRanges, r.2 < 48 ∨ 57 < r.1 := by decide
  have := hapart r hr
  omega

/-! ### Reading word by word -/

/-- The words from a word on that has been closed; there is no word without a letter. -/
def close (w : List Char) (ws : List (List Char)) : List (List Char) :=
  if w = [] then ws else w :: ws

/-- The words of a text before which the letters of `w` have been read. -/
def wordsFrom (w : List Char) : List Char → List (List Char)
  | [] => close w []
  | c :: cs =>
    if isZeroWidth c then wordsFrom w cs
    else if isBlank c then close w (wordsFrom [] cs)
    else wordsFrom (w ++ [c]) cs

theorem wordsFrom_zeroWidth (h : isZeroWidth c = true) (w cs : List Char) :
    wordsFrom w (c :: cs) = wordsFrom w cs := by
  rw [wordsFrom, if_pos h]

theorem wordsFrom_blank (h : isBlank c = true) (w cs : List Char) :
    wordsFrom w (c :: cs) = close w (wordsFrom [] cs) := by
  rw [wordsFrom, isZeroWidth_of_isBlank h, if_neg Bool.false_ne_true, if_pos h]

theorem wordsFrom_letter (hwidth : isZeroWidth c = false) (hblank : isBlank c = false)
    (w cs : List Char) : wordsFrom w (c :: cs) = wordsFrom (w ++ [c]) cs := by
  rw [wordsFrom, hwidth, hblank, if_neg Bool.false_ne_true, if_neg Bool.false_ne_true]

theorem modifyHead_nil_append (ws : List (List Char)) : ws.modifyHead ([] ++ ·) = ws :=
  congrFun List.modifyHead_id ws

/-- Reading word by word finds the words, the first of which goes on from what has been read. -/
theorem wordsFrom_eq (w cs : List Char) :
    wordsFrom w cs = (((cs.filter fun c => !isZeroWidth c).splitOnP isBlank).modifyHead
      (w ++ ·)).filter fun w => !w.isEmpty := by
  induction cs generalizing w with
  | nil => cases w <;> simp [wordsFrom, close]
  | cons c cs ih =>
    cases hwidth : isZeroWidth c with
    | true => rw [wordsFrom_zeroWidth hwidth, ih, List.filter_cons_of_neg (by simp [hwidth])]
    | false =>
      rw [List.filter_cons_of_pos (by simp [hwidth]), List.splitOnP_cons_eq_if_modifyHead]
      cases hblank : isBlank c with
      | true =>
        rw [wordsFrom_blank hblank, ih, if_pos rfl, modifyHead_nil_append]
        cases w <;> simp [close]
      | false =>
        have hcomp : (w ++ ·) ∘ List.cons c = (w ++ [c] ++ ·) := by
          funext l
          simp
        rw [wordsFrom_letter hwidth hblank, ih, if_neg Bool.false_ne_true,
          List.modifyHead_modifyHead, hcomp]

theorem wordsFrom_nil (cs : List Char) : wordsFrom [] cs = words cs := by
  rw [wordsFrom_eq, modifyHead_nil_append, words]

/-! ### Words as such -/

/-- A word: letters, and at least one. -/
def IsWord (w : List Char) : Prop :=
  w ≠ [] ∧ ∀ c ∈ w, isZeroWidth c = false ∧ isBlank c = false

theorem isWord_of_mem_wordsFrom {v : List Char}
    (hw : ∀ c ∈ w, isZeroWidth c = false ∧ isBlank c = false) (h : v ∈ wordsFrom w cs) :
    IsWord v := by
  have hclose : ∀ {w : List Char} {ws}, (∀ c ∈ w, isZeroWidth c = false ∧ isBlank c = false) →
      v ∈ close w ws → IsWord v ∨ v ∈ ws := by
    intro w ws hw hv
    rw [close] at hv
    split at hv
    · exact .inr hv
    · next hne =>
      rcases List.mem_cons.mp hv with rfl | hv
      · exact .inl ⟨hne, hw⟩
      · exact .inr hv
  induction cs generalizing w with
  | nil => exact (hclose hw h).resolve_right List.not_mem_nil
  | cons c cs ih =>
    cases hwidth : isZeroWidth c with
    | true =>
      rw [wordsFrom_zeroWidth hwidth] at h
      exact ih hw h
    | false =>
      cases hblank : isBlank c with
      | true =>
        rw [wordsFrom_blank hblank] at h
        exact (hclose hw h).elim id (ih (fun _ hmem => absurd hmem List.not_mem_nil))
      | false =>
        rw [wordsFrom_letter hwidth hblank] at h
        refine ih (fun d hd => ?_) h
        rcases List.mem_append.mp hd with hd | hd
        · exact hw d hd
        · rw [List.mem_singleton.mp hd]
          exact ⟨hwidth, hblank⟩

theorem isWord_of_mem_words {v : List Char} (h : v ∈ words cs) : IsWord v := by
  rw [← wordsFrom_nil] at h
  exact isWord_of_mem_wordsFrom (fun _ hmem => absurd hmem List.not_mem_nil) h

/-- A blank parts the words before it from those after it. -/
theorem words_append_blank (h : isBlank c = true) (as bs : List Char) :
    words (as ++ c :: bs) = words as ++ words bs := by
  rw [words, List.filter_append, List.filter_cons_of_pos (by simp [isZeroWidth_of_isBlank h]),
    List.splitOnP_append_cons _ _ h, List.filter_append, words, words]

theorem words_of_isWord (h : IsWord w) : words w = [w] := by
  have hletters : w.filter (fun c => !isZeroWidth c) = w :=
    List.filter_eq_self.mpr fun c hc => by simp [(h.2 c hc).1]
  rw [words, hletters, List.splitOnP_eq_singleton fun c hc => (h.2 c hc).2]
  simp [h.1]

@[simp] theorem joined_nil : joined [] = [] := rfl

@[simp] theorem joined_singleton (w : List Char) : joined [w] = w := by
  simp [joined, List.intercalate]

theorem joined_cons (w : List Char) (h : ws ≠ []) : joined (w :: ws) = w ++ ' ' :: joined ws := by
  cases ws with
  | nil => exact absurd rfl h
  | cons v ws => simp [joined, List.intercalate, List.intersperse]

/-- **Words that are joined are found again.** -/
theorem words_joined (h : ∀ w ∈ ws, IsWord w) : words (joined ws) = ws := by
  induction ws with
  | nil => rfl
  | cons w ws ih =>
    obtain ⟨hw, hws⟩ := List.forall_mem_cons.mp h
    by_cases hne : ws = []
    · rw [hne, joined_singleton, words_of_isWord hw]
    · rw [joined_cons w hne, words_append_blank isBlank_space, words_of_isWord hw, ih hws]
      rfl

/-! ### The passes that keep the words -/

/-- Changing blanks for blanks keeps the words. -/
theorem wordsFrom_map {f : Char → Char}
    (hf : ∀ c, isBlank c = true ∧ isBlank (f c) = true ∨ f c = c) (w cs : List Char) :
    wordsFrom w (cs.map f) = wordsFrom w cs := by
  induction cs generalizing w with
  | nil => rfl
  | cons c cs ih =>
    rw [List.map_cons]
    rcases hf c with ⟨hc, hfc⟩ | hfc
    · rw [wordsFrom_blank hc, wordsFrom_blank hfc, ih]
    · rw [hfc, wordsFrom, wordsFrom, ih, ih, ih]

theorem wordsFrom_plainSpaces (w cs : List Char) :
    wordsFrom w (plainSpaces cs) = wordsFrom w cs := by
  refine wordsFrom_map (fun c => ?_) w cs
  by_cases hc : isWideSpace c = true
  · exact .inl ⟨isBlank_of_isWideSpace hc, by rw [if_pos hc]; exact isBlank_space⟩
  · exact .inr (if_neg hc)

theorem wordsFrom_crToLf (w cs : List Char) : wordsFrom w (crToLf cs) = wordsFrom w cs := by
  refine wordsFrom_map (fun c => ?_) w cs
  by_cases hc : c = '\r'
  · subst hc
    exact .inl ⟨by decide, by decide⟩
  · exact .inr (if_neg hc)

theorem wordsFrom_joinCrLf (w cs : List Char) : wordsFrom w (joinCrLf cs) = wordsFrom w cs := by
  have hfeed : isBlank '\n' = true := by decide
  fun_induction joinCrLf cs generalizing w with
  | case1 => rfl
  | case2 cs ih =>
    -- the line feed closes the word that the carriage return would have closed
    rw [wordsFrom_blank hfeed, ih, wordsFrom_blank (by decide), wordsFrom_blank hfeed]
    rfl
  | case3 c cs _ ih => rw [wordsFrom, wordsFrom, ih, ih, ih]

theorem wordsFrom_dropZeroWidth (w cs : List Char) :
    wordsFrom w (dropZeroWidth cs) = wordsFrom w cs := by
  rw [wordsFrom_eq, wordsFrom_eq, dropZeroWidth, List.filter_filter]
  simp only [Bool.and_self]

/-! ### The passes that join them -/

/-- Blanks and nothing else. -/
def AllBlank (cs : List Char) : Prop := ∀ c ∈ cs, isBlank c = true

theorem allBlank_nil : AllBlank [] := fun _ hmem => absurd hmem List.not_mem_nil

theorem AllBlank.cons (hc : isBlank c = true) (hcs : AllBlank cs) : AllBlank (c :: cs) :=
  List.forall_mem_cons.mpr ⟨hc, hcs⟩

theorem allBlank_singleton (hc : isBlank c = true) : AllBlank [c] := allBlank_nil.cons hc

/-- Collapsing writes out the words. It leaves at most a space at the end, if the space before the
text has been written, or if a word has been begun. -/
theorem exists_collapseFrom (hcs : ∀ c ∈ cs, isZeroWidth c = false) :
    (∃ gap, AllBlank gap ∧ collapseFrom true cs = joined (wordsFrom [] cs) ++ gap) ∧
    ∀ w, w ≠ [] → ∃ gap, AllBlank gap ∧
      w ++ collapseFrom false cs = joined (wordsFrom w cs) ++ gap := by
  induction cs with
  | nil =>
    refine ⟨⟨[], allBlank_nil, rfl⟩, fun w hw => ⟨[], allBlank_nil, ?_⟩⟩
    simp [wordsFrom, close, hw, collapseFrom]
  | cons c cs ih =>
    obtain ⟨hc, hrest⟩ := List.forall_mem_cons.mp hcs
    obtain ⟨⟨gap, hgap, htrue⟩, hfalse⟩ := ih hrest
    cases hblank : isBlank c with
    | true =>
      refine ⟨⟨gap, hgap, ?_⟩, fun w hw => ?_⟩
      · rw [collapseFrom, if_pos hblank, if_pos rfl, wordsFrom_blank hblank, htrue]
        rfl
      · rw [collapseFrom, if_pos hblank, if_neg Bool.false_ne_true, wordsFrom_blank hblank, close,
          if_neg hw, htrue]
        by_cases hlast : wordsFrom [] cs = []
        · -- the space after the last word is all that follows
          refine ⟨' ' :: gap, hgap.cons isBlank_space, ?_⟩
          simp [hlast]
        · exact ⟨gap, hgap, by simp [joined_cons w hlast]⟩
    | false =>
      refine ⟨?_, fun w hw => ?_⟩
      · rw [collapseFrom, hblank, if_neg Bool.false_ne_true, wordsFrom_letter hc hblank]
        exact hfalse [c] (List.cons_ne_nil c [])
      · rw [collapseFrom, hblank, if_neg Bool.false_ne_true, wordsFrom_letter hc hblank]
        obtain ⟨gap, hgap, heq⟩ := hfalse (w ++ [c]) (by simp)
        exact ⟨gap, hgap, by rw [← heq]; simp⟩

/-- The words are all there is, but for blanks at the ends. -/
theorem exists_collapseBlanks (hcs : ∀ c ∈ cs, isZeroWidth c = false) :
    ∃ gap gap', AllBlank gap ∧ AllBlank gap' ∧
      collapseBlanks cs = gap ++ joined (words cs) ++ gap' := by
  obtain ⟨⟨gap', hgap', htrue⟩, -⟩ := exists_collapseFrom hcs
  rw [wordsFrom_nil] at htrue
  have hfirst : collapseBlanks cs = collapseFrom true cs ∨
      collapseBlanks cs = ' ' :: collapseFrom true cs := by
    cases cs with
    | nil => exact .inl rfl
    | cons c cs =>
      cases hc : isBlank c <;> simp [collapseBlanks, collapseFrom, hc]
  rcases hfirst with heq | heq
  · refine ⟨[], gap', allBlank_nil, hgap', ?_⟩
    rw [heq, htrue, List.nil_append]
  · refine ⟨[' '], gap', allBlank_singleton isBlank_space, hgap', ?_⟩
    rw [heq, htrue]
    rfl

theorem exists_joined_cons (h : ∀ w ∈ ws, IsWord w) (hne : ws ≠ []) :
    ∃ c l, joined ws = c :: l ∧ isBlank c = false := by
  obtain ⟨w, ws, rfl⟩ := List.exists_cons_of_ne_nil hne
  obtain ⟨hw, hletters⟩ := h w List.mem_cons_self
  obtain ⟨c, l, rfl⟩ := List.exists_cons_of_ne_nil hw
  refine ⟨c, ?_⟩
  by_cases hws : ws = []
  · exact ⟨l, by rw [hws, joined_singleton], (hletters c List.mem_cons_self).2⟩
  · exact ⟨l ++ ' ' :: joined ws, by rw [joined_cons _ hws]; rfl,
      (hletters c List.mem_cons_self).2⟩

theorem exists_joined_append (h : ∀ w ∈ ws, IsWord w) (hne : ws ≠ []) :
    ∃ l c, joined ws = l ++ [c] ∧ isBlank c = false := by
  induction ws with
  | nil => exact absurd rfl hne
  | cons w ws ih =>
    obtain ⟨hw, hrest⟩ := List.forall_mem_cons.mp h
    by_cases hws : ws = []
    · refine ⟨w.dropLast, w.getLast hw.1, ?_, (hw.2 _ (List.getLast_mem hw.1)).2⟩
      rw [hws, joined_singleton, List.dropLast_append_getLast]
    · obtain ⟨l, c, heq, hc⟩ := ih hrest hws
      exact ⟨w ++ ' ' :: l, c, by rw [joined_cons w hws, heq]; simp, hc⟩

/-- Trimming takes off the blanks around a text that neither starts nor ends in one. -/
theorem trim_between {gap gap' : List Char} (hgap : AllBlank gap) (hgap' : AllBlank gap')
    (hfirst : ∀ c ∈ cs.head?, isBlank c = false) (hlast : ∀ c ∈ cs.getLast?, isBlank c = false) :
    trim (gap ++ cs ++ gap') = cs := by
  rw [trim, List.append_assoc, List.dropWhile_append_of_pos hgap]
  rcases List.eq_nil_or_concat' cs with rfl | ⟨l, c', rfl⟩
  · rw [List.nil_append, List.dropWhile_eq_nil_iff.mpr hgap']
    rfl
  · have hfront : (l ++ [c'] ++ gap').dropWhile isBlank = l ++ [c'] ++ gap' := by
      obtain ⟨c, k, hcons⟩ := List.exists_cons_of_ne_nil (show l ++ [c'] ≠ [] by simp)
      rw [hcons] at hfirst ⊢
      rw [List.cons_append, List.dropWhile_cons_of_neg (by simp [hfirst c rfl])]
    have hc' : isBlank c' = false := hlast c' (by simp)
    rw [hfront, dropTrailing, List.reverse_append,
      List.dropWhile_append_of_pos fun d hd => hgap' d (List.mem_reverse.mp hd),
      List.reverse_append, List.reverse_singleton, List.singleton_append,
      List.dropWhile_cons_of_neg (by simp [hc']), List.reverse_cons, List.reverse_reverse]

/-- What trimming takes off is blank. -/
theorem exists_trim (cs : List Char) :
    ∃ gap gap', AllBlank gap ∧ AllBlank gap' ∧ cs = gap ++ trim cs ++ gap' := by
  have hblank : ∀ ds : List Char, AllBlank (ds.takeWhile isBlank) :=
    fun ds c hc => List.mem_takeWhile_imp hc
  have hback : cs.dropWhile isBlank =
      trim cs ++ ((cs.dropWhile isBlank).reverse.takeWhile isBlank).reverse := by
    rw [trim, dropTrailing, ← List.reverse_append, List.takeWhile_append_dropWhile,
      List.reverse_reverse]
  refine ⟨cs.takeWhile isBlank, ((cs.dropWhile isBlank).reverse.takeWhile isBlank).reverse,
    hblank cs, fun c hc => hblank _ c (List.mem_reverse.mp hc), ?_⟩
  rw [List.append_assoc, ← hback, List.takeWhile_append_dropWhile]

/-- Trimming takes off the blanks around joined words. -/
theorem trim_joined {gap gap' : List Char} (h : ∀ w ∈ ws, IsWord w) (hgap : AllBlank gap)
    (hgap' : AllBlank gap') : trim (gap ++ joined ws ++ gap') = joined ws := by
  by_cases hws : ws = []
  · rw [hws]
    exact trim_between hgap hgap' (by simp) (by simp)
  · obtain ⟨c, l, hfirst, hc⟩ := exists_joined_cons h hws
    obtain ⟨l', c', hlast, hc'⟩ := exists_joined_append h hws
    refine trim_between hgap hgap' ?_ ?_
    · simpa [hfirst] using hc
    · simpa [hlast] using hc'

/-- **The normal form joins the words.** -/
theorem normalize_eq_joined (cs : List Char) : normalize cs = joined (words cs) := by
  have hwords : words (dropZeroWidth (plainSpaces (unifyLineEnds cs))) = words cs := by
    rw [← wordsFrom_nil, wordsFrom_dropZeroWidth, wordsFrom_plainSpaces, unifyLineEnds,
      wordsFrom_crToLf, wordsFrom_joinCrLf, wordsFrom_nil]
  have hwidth : ∀ c ∈ dropZeroWidth (plainSpaces (unifyLineEnds cs)), isZeroWidth c = false :=
    fun c hc => by simpa using (List.mem_filter.mp hc).2
  obtain ⟨gap, gap', hgap, hgap', heq⟩ := exists_collapseBlanks hwidth
  rw [normalize, heq, hwords, trim_joined (fun w hw => isWord_of_mem_words hw) hgap hgap']

theorem words_normalize (cs : List Char) : words (normalize cs) = words cs := by
  rw [normalize_eq_joined, words_joined fun w hw => isWord_of_mem_words hw]

/-! ### Retouching -/

/-- A change of layout at one place. -/
inductive Retouch : List Char → List Char → Prop
  /-- A zero-width character is taken out, wherever it stands. -/
  | zeroWidth (as bs : List Char) {c : Char} (hc : isZeroWidth c = true) :
      Retouch (as ++ c :: bs) (as ++ bs)
  /-- A run of blanks gives way to another one; a line ending is such a run, CR LF included. -/
  | run (as bs : List Char) {gap gap' : List Char} (hgap : AllBlank gap) (hne : gap ≠ [])
      (hgap' : AllBlank gap') (hne' : gap' ≠ []) : Retouch (as ++ gap ++ bs) (as ++ gap' ++ bs)
  /-- Blanks in front are taken off. -/
  | front {gap : List Char} (hgap : AllBlank gap) (bs : List Char) : Retouch (gap ++ bs) bs
  /-- Blanks at the end are taken off. -/
  | back (as : List Char) {gap : List Char} (hgap : AllBlank gap) : Retouch (as ++ gap) as

/-- Texts that come from each other by changes of layout, made or taken back in any number. -/
def Retouched (s t : List Char) : Prop := Relation.EqvGen Retouch s t

theorem words_allBlank_append {gap : List Char} (h : AllBlank gap) (bs : List Char) :
    words (gap ++ bs) = words bs := by
  induction gap with
  | nil => rfl
  | cons c gap ih =>
    obtain ⟨hc, hrest⟩ := List.forall_mem_cons.mp h
    exact (words_append_blank hc [] (gap ++ bs)).trans (ih hrest)

theorem words_run {gap : List Char} (h : AllBlank gap) (hne : gap ≠ []) (as bs : List Char) :
    words (as ++ gap ++ bs) = words as ++ words bs := by
  obtain ⟨c, gap, rfl⟩ := List.exists_cons_of_ne_nil hne
  obtain ⟨hc, hrest⟩ := List.forall_mem_cons.mp h
  rw [List.append_assoc, List.cons_append, words_append_blank hc, words_allBlank_append hrest]

theorem Retouch.words_eq {s t : List Char} (h : Retouch s t) : words s = words t := by
  cases h with
  | zeroWidth as bs hc =>
    rw [words, words, List.filter_append, List.filter_append,
      List.filter_cons_of_neg (by simp [hc])]
  | run as bs hgap hne hgap' hne' => rw [words_run hgap hne, words_run hgap' hne']
  | front hgap bs => exact words_allBlank_append hgap t
  | @back _ gap hgap =>
    by_cases hne : gap = []
    · rw [hne, List.append_nil]
    · have hrun := words_run hgap hne t []
      rwa [List.append_nil, show words [] = [] from rfl, List.append_nil] at hrun

/-- What is retouched may stand after a word and a space. -/
theorem Retouched.after_space {s t : List Char} (h : Retouched s t) (w : List Char) :
    Retouched (w ++ ' ' :: s) (w ++ ' ' :: t) := by
  induction h with
  | rel s t hstep =>
    refine .rel _ _ ?_
    cases hstep with
    | zeroWidth as bs hc => simpa using Retouch.zeroWidth (w ++ ' ' :: as) bs hc
    | run as bs hgap hne hgap' hne' =>
      simpa using Retouch.run (w ++ ' ' :: as) bs hgap hne hgap' hne'
    | @front gap hgap bs =>
      -- blanks in front lengthen the run that the space begins
      simpa using Retouch.run w t (hgap.cons isBlank_space) (List.cons_ne_nil _ _)
        (allBlank_singleton isBlank_space) (List.cons_ne_nil _ _)
    | back as hgap => simpa using Retouch.back (w ++ ' ' :: t) hgap
  | refl s => exact .refl _
  | symm s t _ ih => exact .symm _ _ ih
  | trans s t u _ _ ih₁ ih₂ => exact .trans _ _ _ ih₁ ih₂

/-- A text is retouched into its words, joined. -/
theorem retouched_joined (w cs : List Char) : Retouched (w ++ cs) (joined (wordsFrom w cs)) := by
  induction cs generalizing w with
  | nil =>
    have heq : joined (wordsFrom w []) = w ++ [] := by
      by_cases hw : w = [] <;> simp [wordsFrom, close, hw]
    rw [heq]
    exact .refl _
  | cons c cs ih =>
    cases hwidth : isZeroWidth c with
    | true =>
      rw [wordsFrom_zeroWidth hwidth]
      exact .trans _ _ _ (.rel _ _ (.zeroWidth w cs hwidth)) (ih w)
    | false =>
      cases hblank : isBlank c with
      | true =>
        rw [wordsFrom_blank hblank, close]
        split
        · next hw =>
          subst hw
          exact .trans _ _ _ (.rel _ _ (.front (allBlank_singleton hblank) cs)) (ih [])
        · have hrun : Retouch (w ++ c :: cs) (w ++ ' ' :: cs) := by
            simpa using Retouch.run w cs (allBlank_singleton hblank) (List.cons_ne_nil c [])
              (allBlank_singleton isBlank_space) (List.cons_ne_nil ' ' [])
          refine .trans _ _ _ (.rel _ _ hrun) (.trans _ _ _ ((ih []).after_space w) ?_)
          by_cases hlast : wordsFrom [] cs = []
          · rw [hlast, joined_singleton]
            exact .rel _ _ (.back w (allBlank_singleton isBlank_space))
          · rw [joined_cons w hlast]
            exact .refl _
      | false =>
        rw [wordsFrom_letter hwidth hblank]
        simpa using ih (w ++ [c])

/-- **Texts differ in layout only if and only if they have the same words.** -/
theorem retouched_iff {s t : List Char} : Retouched s t ↔ words s = words t := by
  constructor
  · intro h
    induction h with
    | rel s t hstep => exact hstep.words_eq
    | refl s => rfl
    | symm s t _ ih => exact ih.symm
    | trans s t u _ _ ih₁ ih₂ => exact ih₁.trans ih₂
  · intro h
    have hs := retouched_joined [] s
    have ht := retouched_joined [] t
    rw [wordsFrom_nil, List.nil_append] at hs ht
    exact .trans _ _ _ hs (.symm _ _ (h ▸ ht))

theorem normalForm_eq_iff {s t : String} :
    normalForm s = normalForm t ↔ words s.toList = words t.toList := by
  rw [normalForm, normalForm, String.ofList_inj]
  constructor
  · intro h
    rw [← words_normalize, h, words_normalize]
  · intro h
    rw [normalize_eq_joined, normalize_eq_joined, h]

/-- **The normal form of a text is its words, joined by single spaces.** It is its own normal form.
Texts have one normal form, and then one content hash, if and only if they differ in layout only,
and if and only if their words are the same. -/
theorem normal_form_joins_words (s t : String) :
    normalForm s = String.ofList ([' '].intercalate (words s.toList)) ∧
    normalForm (normalForm s) = normalForm s ∧
    (normalForm s = normalForm t ↔ Retouched s.toList t.toList) ∧
    (normalForm s = normalForm t ↔ words s.toList = words t.toList) ∧
    (Retouched s.toList t.toList → Digest.contentHash s = Digest.contentHash t) := by
  refine ⟨?_, ?_, ?_, normalForm_eq_iff, fun h => ?_⟩
  · rw [normalForm, normalize_eq_joined, joined]
  · rw [normalForm_eq_iff, normalForm, String.toList_ofList, words_normalize]
  · rw [normalForm_eq_iff, retouched_iff]
  · rw [Digest.contentHash, Digest.contentHash, normalForm_eq_iff.mpr (retouched_iff.mp h)]

/-- A zero-width space in front of a run of blanks with a line ending, and a no-break space at the
end. -/
theorem layout_of_two_words_immaterial :
    let s := "a\u200b \r\nb\u00a0"
    Retouched s.toList "a b".toList ∧ normalForm s = "a b" ∧
      words s.toList = [['a'], ['b']] ∧ Digest.contentHash s = Digest.contentHash "a b" := by
  intro s
  have hs : s.toList = ['a', '\u200b', ' ', '\r', '\n', 'b', '\u00a0'] := by decide +kernel
  have ht : "a b".toList = ['a', ' ', 'b'] := by decide +kernel
  have hretouched : Retouched s.toList "a b".toList := by
    rw [hs, ht]
    have hwidth := Retouch.zeroWidth ['a'] [' ', '\r', '\n', 'b', '\u00a0']
      (show isZeroWidth '\u200b' = true by decide)
    have hgap : AllBlank [' ', '\r', '\n'] :=
      .cons isBlank_space (.cons (by decide) (allBlank_singleton (by decide)))
    have hrun := Retouch.run ['a'] ['b', '\u00a0'] hgap (List.cons_ne_nil _ _)
      (allBlank_singleton isBlank_space) (List.cons_ne_nil _ _)
    have hback := Retouch.back ['a', ' ', 'b']
      (allBlank_singleton (show isBlank '\u00a0' = true by decide))
    exact .trans _ _ _ (.rel _ _ hwidth) (.trans _ _ _ (.rel _ _ hrun) (.rel _ _ hback))
  obtain ⟨-, -, hnormal, hwords, hhash⟩ := normal_form_joins_words s "a b"
  have hform : normalForm s = normalForm "a b" := hnormal.mpr hretouched
  refine ⟨hretouched, hform.trans (by decide +kernel), ?_, hhash hretouched⟩
  rw [hwords.mp hform]
  decide +kernel

end KeyLedger.Text
