import ArithDecide.Proofs.Tokens

/-!
# Expressions are read back from their texts

An expression whose symbols can stand in a text, `SExpr.Legible`, is read back from its text
(`SExpr.parse_lines`), and reading answers with such expressions only (`SExpr.legible_of_parse`).

Both concern tokens only. The text of an expression has the tokens of the expression, whatever follows
(`SExpr.tokens_text`). A symbol ends where something follows that no symbol contains, so the text
behind it has to start with such a character.
-/

namespace ArithDecide

/-- A name that can stand in a text as one symbol. -/
def IsSymbol (name : String) : Prop :=
  name ≠ "" ∧ ∀ c ∈ name.toList, isSymbolChar c = true

instance : DecidablePred IsSymbol := fun name =>
  decidable_of_iff (name ≠ "" ∧ name.toList.all isSymbolChar = true) (by simp [IsSymbol])

/-- No symbol goes on into the text. -/
def Separates (text : List Char) : Prop := ∀ c ∈ text.head?, isSymbolChar c = false

theorem separates_cons {c : Char} {text : List Char} (ends : isSymbolChar c = false) :
    Separates (c :: text) := by
  intro d first
  obtain rfl := Option.some.inj first
  exact ends

/-! ## Symbols -/

section Symbols

variable {text : List Char}

/-- A symbol reaches as far as its characters do. -/
theorem takeWhile_symbol {name text : List Char} (chars : ∀ c ∈ name, isSymbolChar c = true)
    (separates : Separates text) : (name ++ text).takeWhile isSymbolChar = name ∧
      (name ++ text).dropWhile isSymbolChar = text := by
  rw [List.takeWhile_append_of_pos chars, List.dropWhile_append_of_pos chars]
  cases text with
  | nil => simp
  | cons c text => simp [separates c rfl]

theorem tokens_symbol {name : String} (symbol : IsSymbol name) (separates : Separates text) :
    tokens (name.toList ++ text) = .symbol name :: tokens text := by
  obtain ⟨nonempty, chars⟩ := symbol
  obtain ⟨c, rest, spelled⟩ : ∃ c rest, name.toList = c :: rest :=
    List.exists_cons_of_ne_nil fun empty => nonempty (String.toList_eq_nil_iff.1 empty)
  rw [spelled] at chars
  obtain ⟨taken, left_over⟩ := takeWhile_symbol
    (fun d member => chars d (List.mem_cons_of_mem _ member)) separates
  rw [spelled, List.cons_append, tokens_symbolChar (chars c List.mem_cons_self), taken, left_over,
    ← spelled, String.ofList_toList]

/-- Every symbol that is found can stand in a text. -/
theorem isSymbol_of_mem_tokens {name : String} (member : .symbol name ∈ tokens text) :
    IsSymbol name := by
  fun_induction tokens text with
  | case1 => cases member
  | case2 rest ih => exact ih (by simpa using member)
  | case3 rest _ ih => exact ih (by simpa using member)
  | case4 rest _ _ ih => exact ih member
  | case5 c rest _ _ _ plain ih => exact ih member
  | case6 c rest _ _ _ _ blank ih => exact ih (by simpa using member)
  | case7 c rest left right comment _ visible ih =>
    rcases List.mem_cons.1 member with here | later
    · obtain rfl := Token.symbol.inj here
      refine ⟨by simp, fun d among => ?_⟩
      rw [String.toList_ofList] at among
      rcases List.mem_cons.1 among with rfl | behind
      · exact isSymbolChar_iff.2 ⟨Bool.eq_false_iff.2 visible, left, right, comment⟩
      · exact List.mem_takeWhile_imp behind
    · exact ih later

end Symbols

/-! ## Texts of expressions -/

namespace SExpr

/-- All symbols of an expression can stand in a text. -/
inductive Legible : SExpr → Prop
  | symbol {name : String} (is : IsSymbol name) : Legible (symbol name)
  | list {items : List SExpr} (all : ∀ item ∈ items, Legible item) : Legible (list items)

variable {rest : List Char}

theorem toList_restText_cons (item : SExpr) (items : List SExpr) (rest : List Char) :
    (restText (item :: items)).toList ++ rest =
      ' ' :: (item.text.toList ++ ((restText items).toList ++ rest)) := by
  simp [restText]

theorem separates_restText (items : List SExpr) (separates : Separates rest) :
    Separates ((restText items).toList ++ rest) := by
  cases items with
  | nil => simpa [restText] using separates
  | cons item others =>
    rw [toList_restText_cons]
    exact separates_cons (by decide)

theorem tokens_restText {items : List SExpr}
    (texts : ∀ item ∈ items, ∀ rest, Separates rest →
      ArithDecide.tokens (item.text.toList ++ rest) = item.tokens ++ ArithDecide.tokens rest)
    (separates : Separates rest) : ArithDecide.tokens ((restText items).toList ++ rest) =
      allTokens items ++ ArithDecide.tokens rest := by
  induction items with
  | nil => simp [restText, allTokens]
  | cons item items ih =>
    rw [toList_restText_cons, tokens_plainBlank (by decide),
      texts item List.mem_cons_self _ (separates_restText items separates),
      ih fun other member => texts other (List.mem_cons_of_mem _ member)]
    simp [allTokens]

/-- The text of an expression has its tokens. -/
theorem tokens_text {e : SExpr} (legible : e.Legible) :
    ∀ rest, Separates rest →
      ArithDecide.tokens (e.text.toList ++ rest) = e.tokens ++ ArithDecide.tokens rest := by
  induction legible with
  | symbol is =>
    intro rest separates
    rw [text, tokens_symbol is separates]
    rfl
  | @list items _ ih =>
    intro rest separates
    cases items with
    | nil =>
      have spelled : (list []).text.toList ++ rest = '(' :: ')' :: rest := by simp [text]
      rw [spelled, tokens_leftParen, tokens_rightParen]
      simp [tokens, allTokens]
    | cons first others =>
      have spelled : (list (first :: others)).text.toList ++ rest =
          '(' :: (first.text.toList ++ ((restText others).toList ++ ')' :: rest)) := by
        simp [text]
      have closing : Separates (')' :: rest) := separates_cons (by decide)
      rw [spelled, tokens_leftParen,
        ih first List.mem_cons_self _ (separates_restText others closing),
        tokens_restText (fun e member => ih e (List.mem_cons_of_mem _ member)) closing,
        tokens_rightParen]
      simp [tokens, allTokens]

/-! ## Reading texts -/

/-- Expressions on a line each. -/
def lines (commands : List SExpr) : String :=
  String.join (commands.map fun command => command.text ++ "\n")

theorem tokens_lines {commands : List SExpr} (legible : ∀ command ∈ commands, command.Legible) :
    ArithDecide.tokens (lines commands).toList = allTokens commands := by
  induction commands with
  | nil => simp [lines, ArithDecide.tokens, allTokens]
  | cons command rest ih =>
    have spelled : (lines (command :: rest)).toList =
        command.text.toList ++ '\n' :: (lines rest).toList := by
      simp [lines, String.join_cons]
    rw [spelled, tokens_text (legible command List.mem_cons_self) _ (separates_cons (by decide)),
      tokens_plainBlank (by decide), ih fun e member => legible e (List.mem_cons_of_mem _ member)]
    rfl

/-- Expressions that are written on a line each are read back. -/
theorem parse_lines {commands : List SExpr} (legible : ∀ command ∈ commands, command.Legible) :
    parse (lines commands).toList = .ok commands :=
  parse_eq_ok_iff.2 (tokens_lines legible)

mutual

theorem legible_of_tokens :
    ∀ e : SExpr, (∀ name, .symbol name ∈ e.tokens → IsSymbol name) → e.Legible
  | symbol name, symbols => .symbol (symbols name (by simp [tokens]))
  | list items, symbols =>
    .list (legible_of_allTokens items fun name member => symbols name (by simp [tokens, member]))

theorem legible_of_allTokens :
    ∀ items : List SExpr, (∀ name, .symbol name ∈ allTokens items → IsSymbol name) →
      ∀ item ∈ items, item.Legible
  | [], _ => by simp
  | e :: others, symbols => List.forall_mem_cons.2
    ⟨legible_of_tokens e fun name member => symbols name (by simp [allTokens, member]),
      legible_of_allTokens others fun name member => symbols name (by simp [allTokens, member])⟩

end

/-- Whatever is read can be written. -/
theorem legible_of_parse {text : List Char} {commands : List SExpr}
    (parsed : parse text = .ok commands) : ∀ command ∈ commands, command.Legible := by
  have same := parse_eq_ok_iff.1 parsed
  exact legible_of_allTokens commands fun name member => isSymbol_of_mem_tokens (same ▸ member)

end SExpr

end ArithDecide
