import KeyLedger.Json.Printer
import KeyLedger.Proofs.Json.Scalars

/-!
# The tokens of a written value

A value is written as the tokens that it consists of, with gaps between them, and the lexer finds
these tokens again. The tokens of a value do not depend on the layout, so one theorem is about all
of them.

## Where a token ends

The lexer notices the end of a number or a word only at the next character. The statements are
therefore about what the lexer makes of a text and whatever follows it, where what follows must not
be able to continue the last token. After a value that is a comma, a closing mark, a gap or the end.

## Main definitions

* `Json.Regular` — values whose numbers are integers of 64 bits and whose objects have no key twice
* `Json.Steady` — the same with all numbers that are denoted by their own spellings
* `Json.tokens` — the tokens of a value
* `Token.Stops` — what may follow a token

## Main results

* `Json.lexFrom_write` — the lexer finds the tokens of a value, in any layout
-/

namespace KeyLedger

/-! ### Values and their tokens -/

/-- A number that its own spelling denotes. Every integer of 64 bits is one, but not every double:
reading rounds more than once. -/
def Number.Steady (n : Number) : Prop := Token.number? n.text = some (.num (some n))

namespace Json

/-- A value whose numbers are integers of 64 bits and whose objects have no key twice. -/
inductive Regular : Json → Prop
  /-- The null value. -/
  | null : Regular .null
  /-- A truth value. -/
  | bool (b : Bool) : Regular (.bool b)
  /-- An integer of 64 bits. -/
  | int (n : Int) (wide : IsWide n) : Regular (.num (.int n wide))
  /-- A string. -/
  | str (s : String) : Regular (.str s)
  /-- An array of such values. -/
  | arr {items : List Json} (items_regular : ∀ v ∈ items, Regular v) : Regular (.arr items)
  /-- An object with such values under different keys. -/
  | obj {members : List (String × Json)} (keys_nodup : (members.map Prod.fst).Nodup)
      (values_regular : ∀ m ∈ members, Regular m.2) : Regular (.obj members)

/-- A value whose numbers are denoted by their own spellings and whose objects have no key twice. -/
inductive Steady : Json → Prop
  /-- The null value. -/
  | null : Steady .null
  /-- A truth value. -/
  | bool (b : Bool) : Steady (.bool b)
  /-- A number. -/
  | num {n : Number} (steady : n.Steady) : Steady (.num n)
  /-- A string. -/
  | str (s : String) : Steady (.str s)
  /-- An array of such values. -/
  | arr {items : List Json} (items_steady : ∀ v ∈ items, Steady v) : Steady (.arr items)
  /-- An object with such values under different keys. -/
  | obj {members : List (String × Json)} (keys_nodup : (members.map Prod.fst).Nodup)
      (values_steady : ∀ m ∈ members, Steady m.2) : Steady (.obj members)

theorem Regular.steady {v : Json} (h : v.Regular) : v.Steady := by
  induction h with
  | null => exact .null
  | bool b => exact .bool b
  | int n wide => exact .num (Token.number?_text wide)
  | str s => exact .str s
  | arr _ ih => exact .arr ih
  | obj keys_nodup _ ih => exact .obj keys_nodup ih

mutual

/-- The tokens of a value. -/
def tokens : Json → List Token
  | .null => [.null]
  | .bool b => [.bool b]
  | .num n => [.num (some n)]
  | .str s => [.str (some s)]
  | .arr [] => [.openBracket, .closeBracket]
  | .arr (v :: vs) => .openBracket :: (tokens v ++ tokensItems vs ++ [.closeBracket])
  | .obj [] => [.openBrace, .closeBrace]
  | .obj ((k, v) :: ms) =>
    .openBrace :: .str (some k) :: .colon :: (tokens v ++ tokensMembers ms ++ [.closeBrace])

/-- The tokens of the items of an array after the first. -/
def tokensItems : List Json → List Token
  | [] => []
  | v :: vs => .comma :: (tokens v ++ tokensItems vs)

/-- The tokens of the members of an object after the first. -/
def tokensMembers : List (String × Json) → List Token
  | [] => []
  | (k, v) :: ms => .comma :: .str (some k) :: .colon :: (tokens v ++ tokensMembers ms)

end

end Json

/-! ### The lexer, token by token -/

namespace Token

/-- What the lexer makes of a text from a state on. -/
def lexFrom (s : State) (cs : List Char) : Option (List Token) :=
  cs.foldlM step s >>= finish

/-- A text that cannot continue a number or a word. -/
def Stops : List Char → Prop
  | [] => True
  | c :: _ => isNumeral c = false ∧ c.isLower = false

variable {ts : List Token} {rest : List Char}

theorem lexFrom_cons (s : State) (c : Char) (cs : List Char) :
    lexFrom s (c :: cs) = step s c >>= fun s' => lexFrom s' cs := by
  rw [lexFrom, List.foldlM_cons]
  cases step s c <;> rfl

theorem lexFrom_append (s : State) (cs ds : List Char) :
    lexFrom s (cs ++ ds) = cs.foldlM step s >>= fun s' => lexFrom s' ds := by
  rw [lexFrom, List.foldlM_append]
  cases cs.foldlM step s <;> rfl

/-- A punctuation mark is a token by itself. -/
theorem lexFrom_mark {c : Char} {t : Token} (hmark : ∀ ts, start ts c = some ⟨.idle, t :: ts⟩) :
    lexFrom ⟨.idle, ts⟩ (c :: rest) = lexFrom ⟨.idle, t :: ts⟩ rest := by
  have hstep : step ⟨.idle, ts⟩ c = some ⟨.idle, t :: ts⟩ := hmark ts
  rw [lexFrom_cons, hstep]
  rfl

/-- Gaps between tokens do not count. -/
theorem lexFrom_gap {gap : List Char} (hgap : ∀ c ∈ gap, isGap c = true) :
    lexFrom ⟨.idle, ts⟩ (gap ++ rest) = lexFrom ⟨.idle, ts⟩ rest := by
  induction gap with
  | nil => rfl
  | cons c gap ih =>
    have hstep : step ⟨.idle, ts⟩ c = some ⟨.idle, ts⟩ := by
      simp [step, start, hgap c List.mem_cons_self]
    rw [List.cons_append, lexFrom_cons, hstep]
    exact ih fun d hd => hgap d (List.mem_cons_of_mem _ hd)

/-- A quoted string. -/
theorem lexFrom_quote (s : String) :
    lexFrom ⟨.idle, ts⟩ (Json.quote s ++ rest) = lexFrom ⟨.idle, .str (some s) :: ts⟩ rest := by
  have hopen : step ⟨.idle, ts⟩ '"' = some ⟨.text [], ts⟩ := rfl
  have hclose : step ⟨.text (Quoted.encode s.toList).reverse, ts⟩ '"' =
      some ⟨.idle, .str (some s) :: ts⟩ := by
    simp [step, text?, Quoted.decode_encode]
  rw [Json.quote, List.cons_append, lexFrom_cons, hopen, List.append_assoc]
  change lexFrom ⟨.text [], ts⟩ _ = _
  rw [lexFrom_append, foldlM_step_encode, List.append_nil]
  change lexFrom ⟨.text (Quoted.encode s.toList).reverse, ts⟩ _ = _
  rw [List.singleton_append, lexFrom_cons, hclose]
  rfl

/-- A word ends where something else begins. -/
theorem lexFrom_word {spelled : List Char} {t : Token} (hword : word? spelled.reverse = some t)
    (hrest : Stops rest) :
    lexFrom ⟨.word spelled, ts⟩ rest = lexFrom ⟨.idle, t :: ts⟩ rest := by
  cases rest with
  | nil => simp [lexFrom, finish, hword]
  | cons c cs =>
    have hstep : step ⟨.word spelled, ts⟩ c = step ⟨.idle, t :: ts⟩ c := by
      simp [step, hrest.2, hword]
    rw [lexFrom_cons, lexFrom_cons, hstep]

/-- A number ends where something else begins. -/
theorem lexFrom_number {spelled : List Char} {t : Token}
    (hnumber : number? spelled.reverse = some t) (hrest : Stops rest) :
    lexFrom ⟨.number spelled, ts⟩ rest = lexFrom ⟨.idle, t :: ts⟩ rest := by
  cases rest with
  | nil => simp [lexFrom, finish, hnumber]
  | cons c cs =>
    have hstep : step ⟨.number spelled, ts⟩ c = step ⟨.idle, t :: ts⟩ c := by
      simp [step, hrest.1, hnumber]
    rw [lexFrom_cons, lexFrom_cons, hstep]

theorem foldlM_step_number {cs : List Char} (hcs : ∀ c ∈ cs, isNumeral c = true)
    (spelled : List Char) :
    cs.foldlM step ⟨.number spelled, ts⟩ = some ⟨.number (cs.reverse ++ spelled), ts⟩ := by
  induction cs generalizing spelled with
  | nil => rfl
  | cons c cs ih =>
    have hstep : step ⟨.number spelled, ts⟩ c = some ⟨.number (c :: spelled), ts⟩ := by
      simp [step, hcs c List.mem_cons_self]
    rw [List.foldlM_cons, hstep, Option.bind_eq_bind, Option.bind_some,
      ih fun d hd => hcs d (List.mem_cons_of_mem _ hd)]
    simp

/-- A literal begins like a number and goes on like one. -/
theorem exists_cons_of_number? {cs : List Char} {t : Token} (h : number? cs = some t) :
    ∃ c rest, cs = c :: rest ∧ (∀ ts, start ts c = some ⟨.number [c], ts⟩) ∧
      ∀ d ∈ rest, isNumeral d = true := by
  obtain ⟨l, hl, -⟩ := Option.map_eq_some_iff.mp h
  obtain ⟨c, rest, hcs, hc, hrest⟩ := Literal.exists_cons_of_parse? hl
  refine ⟨c, rest, hcs, fun ts => ?_, hrest⟩
  rcases hc with hc | rfl
  · have hgap : isGap c = false := by
      by_contra hgap
      simp only [isGap, Bool.not_eq_false, Bool.or_eq_true, beq_iff_eq] at hgap
      rcases hgap with ((rfl | rfl) | rfl) | rfl <;> exact absurd hc (by decide)
    have hquote : c ≠ '"' := by
      rintro rfl
      exact absurd hc (by decide)
    simp [start, hgap, hquote, hc]
  · rfl

/-- A number that its own spelling denotes. -/
theorem lexFrom_num {n : Number} (hn : n.Steady) (hrest : Stops rest) :
    lexFrom ⟨.idle, ts⟩ (n.text ++ rest) = lexFrom ⟨.idle, .num (some n) :: ts⟩ rest := by
  obtain ⟨c, cs, htext, hstart, hcs⟩ := exists_cons_of_number? hn
  have hstep : step ⟨.idle, ts⟩ c = some ⟨.number [c], ts⟩ := hstart ts
  have hspelled : number? (cs.reverse ++ [c]).reverse = some (.num (some n)) := by
    rw [← hn, htext]
    simp
  rw [htext, List.cons_append, lexFrom_cons, hstep]
  change lexFrom ⟨.number [c], ts⟩ _ = _
  rw [lexFrom_append, foldlM_step_number hcs]
  exact lexFrom_number hspelled hrest

/-! ### What may follow -/

theorem Stops.gap {gap : List Char} (hgap : ∀ c ∈ gap, isGap c = true) (hrest : Stops rest) :
    Stops (gap ++ rest) := by
  cases gap with
  | nil => exact hrest
  | cons c gap =>
    have h := hgap c List.mem_cons_self
    simp only [isGap, Bool.or_eq_true, beq_iff_eq] at h
    rcases h with ((rfl | rfl) | rfl) | rfl <;> exact ⟨by decide, by decide⟩

end Token

namespace Json

open Token

/-! ### Whole values -/

/-- A layout that puts nothing but gaps between tokens. -/
structure Layout.Blank (l : Layout) : Prop where
  /-- Before an item or a closing mark. -/
  line : ∀ depth, ∀ c ∈ l.line depth, isGap c = true
  /-- After a colon. -/
  afterColon : ∀ c ∈ l.afterColon, isGap c = true

theorem Layout.blank_indented : Layout.indented.Blank := by
  refine ⟨fun depth c hc => ?_, fun c hc => ?_⟩
  · rcases List.mem_cons.mp hc with rfl | hc
    · decide
    · rw [List.eq_of_mem_replicate hc]
      decide
  · rw [List.mem_singleton.mp hc]
    decide

/-- The lexer finds the tokens of a value that is written in a layout. -/
def Lexes (l : Layout) (v : Json) : Prop :=
  ∀ depth ts rest, Stops rest →
    lexFrom ⟨.idle, ts⟩ (v.write l depth ++ rest) = lexFrom ⟨.idle, v.tokens.reverse ++ ts⟩ rest

variable {l : Layout}

theorem stops_writeItems {depth : Nat} {vs : List Json} {rest : List Char} (hrest : Stops rest) :
    Stops (writeItems l depth vs ++ rest) := by
  cases vs with
  | nil => exact hrest
  | cons v vs => exact ⟨by decide, by decide⟩

theorem stops_writeMembers (depth : Nat) (ms : List (String × Json)) {rest : List Char}
    (hrest : Stops rest) : Stops (writeMembers l depth ms ++ rest) := by
  cases ms with
  | nil => exact hrest
  | cons m ms => exact ⟨by decide, by decide⟩

theorem lexFrom_writeItems (hl : l.Blank) {vs : List Json} (hvs : ∀ v ∈ vs, Lexes l v)
    (depth : Nat) (ts : List Token) {rest : List Char} (hrest : Stops rest) :
    lexFrom ⟨.idle, ts⟩ (writeItems l depth vs ++ rest) =
      lexFrom ⟨.idle, (tokensItems vs).reverse ++ ts⟩ rest := by
  induction vs generalizing ts with
  | nil => rfl
  | cons v vs ih =>
    have hv := hvs v List.mem_cons_self
    rw [writeItems, List.cons_append, lexFrom_mark (c := ',') (t := .comma) fun _ => rfl,
      List.append_assoc, List.append_assoc, lexFrom_gap (hl.line depth),
      hv depth _ _ (stops_writeItems hrest), ih fun w hw => hvs w (List.mem_cons_of_mem _ hw)]
    simp [tokensItems]

theorem lexFrom_member (hl : l.Blank) {v : Json} (hv : Lexes l v) (k : String) (depth : Nat)
    (ts : List Token) {rest : List Char} (hrest : Stops rest) :
    lexFrom ⟨.idle, ts⟩ (quote k ++ ':' :: l.afterColon ++ v.write l depth ++ rest) =
      lexFrom ⟨.idle, v.tokens.reverse ++ .colon :: .str (some k) :: ts⟩ rest := by
  rw [List.append_assoc, List.append_assoc, lexFrom_quote, List.cons_append,
    lexFrom_mark (c := ':') (t := .colon) fun _ => rfl, lexFrom_gap hl.afterColon,
    hv depth _ _ hrest]

theorem lexFrom_writeMembers (hl : l.Blank) {ms : List (String × Json)}
    (hms : ∀ m ∈ ms, Lexes l m.2) (depth : Nat) (ts : List Token) {rest : List Char}
    (hrest : Stops rest) :
    lexFrom ⟨.idle, ts⟩ (writeMembers l depth ms ++ rest) =
      lexFrom ⟨.idle, (tokensMembers ms).reverse ++ ts⟩ rest := by
  induction ms generalizing ts with
  | nil => rfl
  | cons m ms ih =>
    obtain ⟨k, v⟩ := m
    have hmember := lexFrom_member hl (hms (k, v) List.mem_cons_self) k depth (.comma :: ts)
      (stops_writeMembers (l := l) depth ms hrest)
    rw [ih fun m hm => hms m (List.mem_cons_of_mem _ hm)] at hmember
    rw [writeMembers, List.cons_append, lexFrom_mark (c := ',') (t := .comma) fun _ => rfl]
    simp only [List.append_assoc, List.cons_append] at hmember ⊢
    rw [lexFrom_gap (hl.line depth), hmember]
    simp [tokensMembers]

/-- **The lexer finds the tokens of a value**, in any layout and whatever follows. -/
theorem lexFrom_write (hl : l.Blank) {v : Json} (hv : v.Steady) : Lexes l v := by
  induction hv with
  | null =>
    intro depth ts rest hrest
    exact lexFrom_word (by decide) hrest
  | bool b =>
    intro depth ts rest hrest
    cases b <;> exact lexFrom_word (by decide) hrest
  | num steady =>
    intro depth ts rest hrest
    rw [write]
    exact lexFrom_num steady hrest
  | str s =>
    intro depth ts rest _
    rw [write]
    exact lexFrom_quote s
  | @arr items _ ih =>
    intro depth ts rest hrest
    cases items with
    | nil => rfl
    | cons v vs =>
      have hclose : Stops (l.line depth ++ ']' :: rest) :=
        .gap (hl.line depth) ⟨by decide, by decide⟩
      rw [write, List.cons_append, lexFrom_mark (c := '[') (t := .openBracket) fun _ => rfl]
      simp only [List.append_assoc, List.singleton_append]
      rw [lexFrom_gap (hl.line _), ih v List.mem_cons_self _ _ _ (stops_writeItems hclose),
        lexFrom_writeItems hl (fun w hw => ih w (List.mem_cons_of_mem _ hw)) _ _ hclose,
        lexFrom_gap (hl.line _), lexFrom_mark (c := ']') (t := .closeBracket) fun _ => rfl]
      simp [tokens]
  | @obj members _ _ ih =>
    intro depth ts rest hrest
    cases members with
    | nil => rfl
    | cons m ms =>
      obtain ⟨k, v⟩ := m
      have hclose : Stops (l.line depth ++ '\x7d' :: rest) :=
        .gap (hl.line depth) ⟨by decide, by decide⟩
      have hmember := lexFrom_member hl (ih (k, v) List.mem_cons_self) k (depth + 1)
        (.openBrace :: ts) (stops_writeMembers (l := l) (depth + 1) ms hclose)
      rw [lexFrom_writeMembers hl (fun m hm => ih m (List.mem_cons_of_mem _ hm)) _ _ hclose,
        lexFrom_gap (hl.line _), lexFrom_mark (c := '\x7d') (t := .closeBrace) fun _ => rfl]
        at hmember
      rw [write, List.cons_append, lexFrom_mark (c := '\x7b') (t := .openBrace) fun _ => rfl]
      simp only [List.append_assoc, List.cons_append, List.nil_append] at hmember ⊢
      rw [lexFrom_gap (hl.line _), hmember]
      simp [tokens]

end Json

end KeyLedger
