import KeyLedger.Json.Document
import KeyLedger.Proofs.Dict
import KeyLedger.Proofs.Json.Tokens

/-!
# A persisted value is read back

The automaton over the tokens of a value builds the document of the value, and a document in which
the keys of every object ascend is the document of its own value. Together with the lexer this gives
the round trip: the persisted text of a value reads as its canonical form, provided that its numbers
are denoted by their own spellings, that no object has a key twice, and that its containers do not
nest too deeply.

## Main results

* `Doc.ofTokens?_tokens` — the tree of the tokens of a value
* `Doc.parse?_write` — the tree of the text of a value, in any layout
* `Doc.toJson?_ofJson_sortKeys` — the value of a canonical document
* `Json.parse?_sortedText` — the persisted form is read as the canonical form
-/

namespace KeyLedger

/-! ### Trees -/

namespace Doc

/-- The automaton turns the tokens of a value into its document, wherever a value may stand. -/
def Builds (v : Json) : Prop :=
  ∀ open_ rest, (v.tokens ++ rest).foldlM step (.value, open_) =
    rest.foldlM step (.after (ofJson v), open_)

theorem foldlM_step_cons {s s' : Mode × List Frame} {t : Token} (h : step s t = some s')
    (ts : List Token) : (t :: ts).foldlM step s = ts.foldlM step s' := by
  rw [List.foldlM_cons, h]
  rfl

theorem foldlM_tokensItems {vs : List Json} (hvs : ∀ v ∈ vs, Builds v) (w : Doc)
    (done : List Doc) (open_ : List Frame) (rest : List Token) :
    (Json.tokensItems vs ++ .closeBracket :: rest).foldlM step (.after w, .arr done :: open_) =
      rest.foldlM step (.after (.arr ((w :: done).reverse ++ ofJsonItems vs)), open_) := by
  induction vs generalizing w done with
  | nil => rw [ofJsonItems, List.append_nil]; exact foldlM_step_cons rfl rest
  | cons v vs ih =>
    rw [Json.tokensItems, List.cons_append, foldlM_step_cons rfl, List.append_assoc,
      hvs v List.mem_cons_self, ih fun u hu => hvs u (List.mem_cons_of_mem _ hu)]
    simp [ofJsonItems]

theorem foldlM_tokensMembers {ms : List (String × Json)} (hms : ∀ m ∈ ms, Builds m.2)
    (k : Option String) (w : Doc) (done : List (Option String × Doc)) (open_ : List Frame)
    (rest : List Token) :
    (Json.tokensMembers ms ++ .closeBrace :: rest).foldlM step
        (.after w, .member done k :: open_) =
      rest.foldlM step (.after (.obj (((k, w) :: done).reverse ++ ofJsonMembers ms)), open_) := by
  induction ms generalizing k w done with
  | nil => rw [ofJsonMembers, List.append_nil]; exact foldlM_step_cons rfl rest
  | cons m ms ih =>
    obtain ⟨k', v⟩ := m
    rw [Json.tokensMembers, List.cons_append, foldlM_step_cons rfl, List.cons_append,
      foldlM_step_cons rfl, List.cons_append, foldlM_step_cons rfl, List.append_assoc,
      hms (k', v) List.mem_cons_self, ih fun u hu => hms u (List.mem_cons_of_mem _ hu)]
    simp [ofJsonMembers]

/-- No value begins with a closing bracket, so the first item of an array is read like any value. -/
theorem foldlM_firstItem (v : Json) (open_ : List Frame) (rest : List Token) :
    (v.tokens ++ rest).foldlM step (.firstItem, open_) =
      (v.tokens ++ rest).foldlM step (.value, .arr [] :: open_) := by
  have hstep : ∀ t ts, t ≠ .closeBracket → ((t :: ts) ++ rest).foldlM step (.firstItem, open_) =
      ((t :: ts) ++ rest).foldlM step (.value, .arr [] :: open_) := by
    intro t ts ht
    have hfirst : step (.firstItem, open_) t = step (.value, .arr [] :: open_) t := by
      cases t <;> first | rfl | exact absurd rfl ht
    rw [List.cons_append, List.foldlM_cons, List.foldlM_cons, hfirst]
  cases v with
  | null => exact hstep _ _ (by simp)
  | bool b => exact hstep _ _ (by simp)
  | num n => exact hstep _ _ (by simp)
  | str s => exact hstep _ _ (by simp)
  | arr items => cases items <;> exact hstep _ _ (by simp)
  | obj members => cases members <;> exact hstep _ _ (by simp)

theorem builds {v : Json} (hv : v.Steady) : Builds v := by
  induction hv with
  | null => intro open_ rest; exact foldlM_step_cons rfl rest
  | bool b => intro open_ rest; exact foldlM_step_cons rfl rest
  | num steady => intro open_ rest; exact foldlM_step_cons rfl rest
  | str s => intro open_ rest; exact foldlM_step_cons rfl rest
  | @arr items _ ih =>
    intro open_ rest
    cases items with
    | nil => rfl
    | cons v vs =>
      rw [Json.tokens, List.cons_append, foldlM_step_cons
        (show step (.value, open_) .openBracket = some (.firstItem, open_) from rfl),
        List.append_assoc, List.append_assoc, foldlM_firstItem, ih v List.mem_cons_self,
        List.singleton_append, foldlM_tokensItems fun u hu => ih u (List.mem_cons_of_mem _ hu)]
      simp [ofJson, ofJsonItems]
  | @obj members _ _ ih =>
    intro open_ rest
    cases members with
    | nil => rfl
    | cons m ms =>
      obtain ⟨k, v⟩ := m
      rw [Json.tokens, List.cons_append, foldlM_step_cons
        (show step (.value, open_) .openBrace = some (.firstKey, open_) from rfl),
        List.cons_append, foldlM_step_cons
        (show step (.firstKey, open_) (.str (some k)) = some (.colon [] (some k), open_) from rfl),
        List.cons_append, foldlM_step_cons (show step (.colon [] (some k), open_) .colon =
        some (.value, .member [] (some k) :: open_) from rfl),
        List.append_assoc, List.append_assoc, ih (k, v) List.mem_cons_self,
        List.singleton_append, foldlM_tokensMembers fun u hu => ih u (List.mem_cons_of_mem _ hu)]
      simp [ofJson, ofJsonMembers]

/-- **The tree of the tokens of a value is the document of the value.** -/
theorem ofTokens?_tokens {v : Json} (hv : v.Steady) : ofTokens? v.tokens = some (ofJson v) := by
  have hbuilds := builds hv [] []
  rw [List.append_nil] at hbuilds
  rw [ofTokens?, hbuilds]
  rfl

/-- The text of a value, closed by a gap, is parsed as the document of the value. -/
theorem parse?_write {l : Json.Layout} (hl : l.Blank) {v : Json} (hv : v.Steady) {gap : List Char}
    (hgap : ∀ c ∈ gap, Token.isGap c = true) :
    parse? (String.ofList (v.write l 0 ++ gap)) = some (ofJson v) := by
  have hlex : Token.lex? (v.write l 0 ++ gap) = some v.tokens := by
    have hend : Token.Stops gap := by
      simpa using Token.Stops.gap hgap (show Token.Stops [] from trivial)
    have hvalue := Json.lexFrom_write hl hv 0 [] gap hend
    have hclose : Token.lexFrom ⟨.idle, v.tokens.reverse⟩ (gap ++ []) =
        Token.lexFrom ⟨.idle, v.tokens.reverse⟩ [] := Token.lexFrom_gap hgap
    rw [List.append_nil] at hvalue hclose
    change Token.lexFrom ⟨.idle, []⟩ (v.write l 0 ++ gap) = some v.tokens
    rw [hvalue, hclose]
    simp [Token.lexFrom, Token.finish]
  rw [parse?, String.toList_ofList, hlex]
  exact ofTokens?_tokens hv

end Doc

/-! ### Members in key order -/

namespace Json

theorem perm_sortMembers (ms : List (String × Json)) : (sortMembers ms).Perm ms :=
  List.mergeSort_perm ms _

/-- Members under different keys ascend strictly once they are sorted. -/
theorem ascending_sortMembers {ms : List (String × Json)} (h : (ms.map Prod.fst).Nodup) :
    Members.Ascending (sortMembers ms) := by
  have hsorted : (sortMembers ms).Pairwise fun a b => decide (a.1 ≤ b.1) = true := by
    refine List.pairwise_mergeSort (fun a b c hab hbc => ?_) (fun a b => ?_) ms
    · simp only [decide_eq_true_eq] at hab hbc ⊢
      exact String.le_trans hab hbc
    · simp only [Bool.or_eq_true, decide_eq_true_eq]
      exact String.le_total a.1 b.1
  have hnodup : ((sortMembers ms).map Prod.fst).Nodup :=
    ((perm_sortMembers ms).map Prod.fst).nodup_iff.mpr h
  refine hsorted.imp₂ (fun a b hle hne => ?_) (List.pairwise_map.mp hnodup)
  rw [decide_eq_true_eq] at hle
  exact String.not_le.mp fun hge => hne (String.le_antisymm hle hge)

theorem sortKeysItems_eq (vs : List Json) : sortKeysItems vs = vs.map sortKeys := by
  induction vs with
  | nil => rfl
  | cons v vs ih => rw [sortKeysItems, ih, List.map_cons]

theorem sortKeysMembers_eq (ms : List (String × Json)) :
    sortKeysMembers ms = ms.map fun m => (m.1, sortKeys m.2) := by
  induction ms with
  | nil => rfl
  | cons m ms ih => rw [sortKeysMembers, ih, List.map_cons]

theorem keys_sortKeysMembers (ms : List (String × Json)) :
    (sortKeysMembers ms).map Prod.fst = ms.map Prod.fst := by
  rw [sortKeysMembers_eq, List.map_map]
  rfl

/-- A canonical object keeps the keys apart. -/
theorem keys_sortMembers_nodup {ms : List (String × Json)} (hms : (ms.map Prod.fst).Nodup) :
    ((sortMembers (sortKeysMembers ms)).map Prod.fst).Nodup := by
  rw [((perm_sortMembers _).map Prod.fst).nodup_iff, keys_sortKeysMembers]
  exact hms

theorem mem_sortMembers_sortKeysMembers {ms : List (String × Json)} {m : String × Json}
    (h : m ∈ sortMembers (sortKeysMembers ms)) : ∃ v, (m.1, v) ∈ ms ∧ m.2 = sortKeys v := by
  rw [(perm_sortMembers _).mem_iff, sortKeysMembers_eq] at h
  obtain ⟨⟨k, v⟩, hkv, rfl⟩ := List.mem_map.mp h
  exact ⟨v, hkv, rfl⟩

/-- The canonical form of a steady value is steady. -/
theorem Steady.sortKeys {v : Json} (hv : v.Steady) : v.sortKeys.Steady := by
  induction hv with
  | null => exact .null
  | bool b => exact .bool b
  | num steady => exact .num steady
  | str s => exact .str s
  | @arr items _ ih =>
    rw [Json.sortKeys, sortKeysItems_eq]
    refine .arr fun w hw => ?_
    obtain ⟨v, hv, rfl⟩ := List.mem_map.mp hw
    exact ih v hv
  | @obj members hkeys _ ih =>
    rw [Json.sortKeys]
    refine .obj (keys_sortMembers_nodup hkeys) fun m hm => ?_
    obtain ⟨v, hv, heq⟩ := mem_sortMembers_sortKeysMembers hm
    rw [heq]
    exact ih _ hv

theorem depthItems_le_iff {vs : List Json} {n : Nat} :
    depthItems vs ≤ n ↔ ∀ v ∈ vs, v.depth ≤ n := by
  induction vs with
  | nil => simp [depthItems]
  | cons v vs ih => rw [depthItems, Nat.max_le, ih, List.forall_mem_cons]

theorem depthMembers_le_iff {ms : List (String × Json)} {n : Nat} :
    depthMembers ms ≤ n ↔ ∀ m ∈ ms, m.2.depth ≤ n := by
  induction ms with
  | nil => simp [depthMembers]
  | cons m ms ih => rw [depthMembers, Nat.max_le, ih, List.forall_mem_cons]

end Json

/-! ### Values -/

namespace Doc

theorem ofJsonItems_eq (vs : List Json) : ofJsonItems vs = vs.map ofJson := by
  induction vs with
  | nil => rfl
  | cons v vs ih => rw [ofJsonItems, ih, List.map_cons]

theorem ofJsonMembers_eq (ms : List (String × Json)) :
    ofJsonMembers ms = ms.map fun m => (some m.1, ofJson m.2) := by
  induction ms with
  | nil => rfl
  | cons m ms ih => rw [ofJsonMembers, ih, List.map_cons]

theorem toJsonItems?_eq {f : Json → Json} {budget : Nat} {vs : List Json}
    (h : ∀ v ∈ vs, toJson? budget (ofJson (f v)) = some v) :
    toJsonItems? budget (ofJsonItems (vs.map f)) = some vs := by
  induction vs with
  | nil => rfl
  | cons v vs ih =>
    rw [List.map_cons, ofJsonItems, toJsonItems?, h v List.mem_cons_self,
      ih fun w hw => h w (List.mem_cons_of_mem _ hw)]
    rfl

theorem toJsonMembers?_eq {f : Json → Json} {budget : Nat} {ms : List (String × Json)}
    (h : ∀ m ∈ ms, toJson? budget (ofJson (f m.2)) = some m.2) :
    toJsonMembers? budget (ofJsonMembers (ms.map fun m => (m.1, f m.2))) = some ms := by
  induction ms with
  | nil => rfl
  | cons m ms ih =>
    rw [List.map_cons, ofJsonMembers, toJsonMembers?, h m List.mem_cons_self,
      ih fun w hw => h w (List.mem_cons_of_mem _ hw)]
    rfl

/-- **The document of a canonical value has that value**, if the value does not nest too deeply. -/
theorem toJson?_ofJson_sortKeys {v : Json} (hv : v.Steady) {budget : Nat}
    (hdepth : v.depth ≤ budget) : toJson? budget (ofJson v.sortKeys) = some v.sortKeys := by
  induction hv generalizing budget with
  | null => rfl
  | bool b => rfl
  | num steady => rfl
  | str s => rfl
  | @arr items _ ih =>
    rw [Json.depth] at hdepth
    obtain ⟨b, rfl⟩ := Nat.exists_eq_add_of_le' (Nat.le_trans (Nat.le_add_left 1 _) hdepth)
    have hitems : ∀ w ∈ Json.sortKeysItems items, toJson? b (ofJson (id w)) = some w := by
      rw [Json.sortKeysItems_eq]
      intro w hw
      obtain ⟨v, hv, rfl⟩ := List.mem_map.mp hw
      exact ih v hv (Json.depthItems_le_iff.mp (Nat.le_of_succ_le_succ hdepth) v hv)
    have hall := toJsonItems?_eq hitems
    rw [List.map_id] at hall
    rw [Json.sortKeys, ofJson, toJson?, hall]
    rfl
  | @obj members hkeys _ ih =>
    rw [Json.depth] at hdepth
    obtain ⟨b, rfl⟩ := Nat.exists_eq_add_of_le' (Nat.le_trans (Nat.le_add_left 1 _) hdepth)
    have hmembers : ∀ m ∈ Json.sortMembers (Json.sortKeysMembers members),
        toJson? b (ofJson (id m.2)) = some m.2 := by
      intro m hm
      obtain ⟨v, hv, heq⟩ := Json.mem_sortMembers_sortKeysMembers hm
      rw [heq]
      exact ih _ hv (Json.depthMembers_le_iff.mp (Nat.le_of_succ_le_succ hdepth) _ hv)
    have hall := toJsonMembers?_eq hmembers
    rw [show (fun m : String × Json => (m.1, id m.2)) = id from rfl, List.map_id] at hall
    have hascending : Members.Ascending (Json.sortMembers (Json.sortKeysMembers members)) :=
      Json.ascending_sortMembers (Json.keys_sortKeysMembers members ▸ hkeys)
    rw [Json.sortKeys, ofJson, toJson?, hall, Option.map_some,
      Members.ofList_of_ascending hascending]

end Doc

/-- The persisted form of a value is the text of the document of its canonical form. -/
theorem Doc.parse?_sortedText {v : Json} (hv : v.Steady) :
    Doc.parse? v.sortedText = some (Doc.ofJson v.sortKeys) := by
  have htext : v.sortedText = String.ofList (v.sortKeys.write .indented 0 ++ ['\n']) := by
    rw [Json.sortedText, Json.pretty, String.ofList_append]
  have hgap : ∀ c ∈ ['\n'], Token.isGap c = true := by
    intro c hc
    rw [List.mem_singleton.mp hc]
    rfl
  rw [htext]
  exact Doc.parse?_write Json.Layout.blank_indented hv.sortKeys hgap

/-- **The persisted form of a value is read as its canonical form.** -/
theorem Json.parse?_sortedText {v : Json} (hv : v.Steady) (hdepth : v.depth ≤ Doc.maxDepth) :
    Json.parse? v.sortedText = some v.sortKeys := by
  rw [parse?, Doc.parse?_sortedText hv]
  exact Doc.toJson?_ofJson_sortKeys hv hdepth

end KeyLedger
