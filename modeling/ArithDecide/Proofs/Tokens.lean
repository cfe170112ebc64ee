import Mathlib.Data.List.TakeWhile
import ArithDecide.Snapshot.Reader

/-!
# Reading depends on tokens only

A text is read character by character, and blanks are skipped at three places. What is read is determined
by the tokens of the text, the parentheses and symbols in their order: `SExpr.parse` finds the expressions
whose tokens these are (`SExpr.parse_eq_ok_iff`), and there are such expressions if and only if there is
no stray blank and the parentheses balance (`SExpr.exists_allTokens_iff`).
-/

namespace ArithDecide

/-- A piece of a snapshot text. -/
inductive Token where
  | leftParen
  | rightParen
  | symbol (name : String)
  /-- A blank character that is not plain. -/
  | stray
  deriving DecidableEq, Inhabited

/-- The tokens of a text. Symbols reach as far as they can, plain blanks are skipped, and so are comments,
from a semicolon to the end of its line. -/
def tokens : List Char → List Token
  | [] => []
  | c :: rest =>
    if c = '(' then .leftParen :: tokens rest
    else if c = ')' then .rightParen :: tokens rest
    else if c = ';' then tokens (rest.dropWhile fun d => d ≠ '\n')
    else if isPlainBlank c then tokens rest
    else if isBlank c then .stray :: tokens rest
    else
      .symbol (String.ofList (c :: rest.takeWhile isSymbolChar)) :: tokens (rest.dropWhile isSymbolChar)
termination_by text => text.length
decreasing_by
  all_goals simp only [List.length_cons]
  · omega
  · omega
  · have := length_dropWhile_le (fun d => decide (d ≠ '\n')) rest; omega
  · omega
  · omega
  · have := length_dropWhile_le isSymbolChar rest; omega

example : tokens "(ab ;c)\n(d))".toList =
    [.leftParen, .symbol "ab", .leftParen, .symbol "d", .rightParen, .rightParen] := by cbv

theorem isSymbolChar_iff {c : Char} :
    isSymbolChar c = true ↔ isBlank c = false ∧ c ≠ '(' ∧ c ≠ ')' ∧ c ≠ ';' := by
  simp [isSymbolChar, and_assoc]

/-! ## Behind blanks -/

section Front

variable {c : Char} {text rest : List Char}

theorem tokens_plainBlank (plain : isPlainBlank c = true) : tokens (c :: rest) = tokens rest := by
  have apart {d : Char} (visible : isPlainBlank d = false) : c ≠ d := by
    rintro rfl
    rw [plain] at visible
    cases visible
  rw [tokens, if_neg (apart (by decide)), if_neg (apart (by decide)), if_neg (apart (by decide)),
    if_pos plain]

theorem tokens_comment : tokens (';' :: rest) = tokens (rest.dropWhile fun d => d ≠ '\n') := by
  rw [tokens, if_neg (by decide), if_neg (by decide), if_pos rfl]

theorem tokens_leftParen : tokens ('(' :: rest) = .leftParen :: tokens rest := by
  rw [tokens, if_pos rfl]

theorem tokens_rightParen : tokens (')' :: rest) = .rightParen :: tokens rest := by
  rw [tokens, if_neg (by decide), if_pos rfl]

theorem tokens_symbolChar (is : isSymbolChar c = true) : tokens (c :: rest) =
    .symbol (String.ofList (c :: rest.takeWhile isSymbolChar)) ::
      tokens (rest.dropWhile isSymbolChar) := by
  obtain ⟨visible, left, right, comment⟩ := isSymbolChar_iff.1 is
  have printed : ¬isPlainBlank c = true := fun plain => by
    rw [isBlank_of_isPlainBlank plain] at visible
    cases visible
  rw [tokens, if_neg left, if_neg right, if_neg comment, if_neg printed,
    if_neg (Bool.eq_false_iff.1 visible)]

theorem tokens_stray (blank : isBlank c = true) (odd : isPlainBlank c = false) :
    tokens (c :: rest) = .stray :: tokens rest := by
  have apart {d : Char} (visible : isBlank d = false) : c ≠ d := by
    rintro rfl
    rw [blank] at visible
    cases visible
  rw [tokens, if_neg (apart (by decide)), if_neg (apart (by decide)), if_neg (apart (by decide)),
    if_neg (Bool.eq_false_iff.1 odd), if_pos blank]

/-- What is skipped has no tokens. -/
theorem tokens_skipBlanks (text : List Char) : tokens (SExpr.skipBlanks text) = tokens text := by
  fun_induction SExpr.skipBlanks text with
  | case1 => rfl
  | case2 c rest plain ih => rw [ih, tokens_plainBlank plain]
  | case3 rest _ ih => rw [ih, tokens_comment]
  | case4 => rfl

/-- Neither plain blanks nor comments are left in front. -/
theorem not_skipped (skipped : SExpr.skipBlanks text = c :: rest) :
    isPlainBlank c = false ∧ c ≠ ';' := by
  fun_induction SExpr.skipBlanks text with
  | case1 => cases skipped
  | case2 _ _ _ ih => exact ih skipped
  | case3 _ _ ih => exact ih skipped
  | case4 d behind printed comment =>
    cases skipped
    exact ⟨Bool.eq_false_iff.2 printed, comment⟩

/-- The first token of a text, with what is in front once blanks are skipped. -/
inductive Front (text : List Char) : Prop
  | nothing : SExpr.skipBlanks text = [] → tokens text = [] → Front text
  | leftParen {rest : List Char} : SExpr.skipBlanks text = '(' :: rest →
      tokens text = .leftParen :: tokens rest → Front text
  | rightParen {rest : List Char} : SExpr.skipBlanks text = ')' :: rest →
      tokens text = .rightParen :: tokens rest → Front text
  | symbol {c : Char} {rest : List Char} : SExpr.skipBlanks text = c :: rest →
      isSymbolChar c = true → tokens text =
        .symbol (String.ofList (c :: rest.takeWhile isSymbolChar)) ::
          tokens (rest.dropWhile isSymbolChar) → Front text
  | stray {c : Char} {rest : List Char} : SExpr.skipBlanks text = c :: rest → c ≠ '(' → c ≠ ')' →
      isSymbolChar c = false → tokens text = .stray :: tokens rest → Front text

/-- What comes first in a text once blanks are skipped is also its first token. -/
theorem front (text : List Char) : Front text := by
  have same := tokens_skipBlanks text
  cases skipped : SExpr.skipBlanks text with
  | nil =>
    rw [skipped] at same
    exact .nothing skipped (by rw [← same, tokens])
  | cons c rest =>
    rw [skipped] at same
    obtain ⟨printed, comment⟩ := not_skipped skipped
    by_cases left : c = '('
    · subst left
      exact .leftParen skipped (same.symm.trans tokens_leftParen)
    by_cases right : c = ')'
    · subst right
      exact .rightParen skipped (same.symm.trans tokens_rightParen)
    cases blank : isBlank c with
    | true =>
      refine .stray skipped left right ?_ (same.symm.trans (tokens_stray blank printed))
      simp [isSymbolChar, blank]
    | false =>
      have is : isSymbolChar c = true := isSymbolChar_iff.2 ⟨blank, left, right, comment⟩
      exact .symbol skipped is (same.symm.trans (tokens_symbolChar is))

theorem skipBlanks_eq_nil_iff : SExpr.skipBlanks text = [] ↔ tokens text = [] := by
  rcases front text with ⟨skipped, same⟩ | ⟨skipped, same⟩ | ⟨skipped, same⟩ | ⟨skipped, -, same⟩ |
    ⟨skipped, -, -, -, same⟩ <;> simp [skipped, same]

end Front

/-! ## Reading -/

namespace SExpr

mutual

/-- The tokens of an expression. -/
def tokens : SExpr → List Token
  | symbol name => [.symbol name]
  | list items => .leftParen :: (allTokens items ++ [.rightParen])

/-- The tokens of expressions, one after another. -/
def allTokens : List SExpr → List Token
  | [] => []
  | item :: items => tokens item ++ allTokens items

end

variable {text rest last behind : List Char} {e : SExpr} {items : List SExpr} {ts : List Token}
  {c : Char}

/-- The expression is read, with the rest left. -/
def ReadsExpr (text : List Char) (e : SExpr) (rest : List Char) : Prop :=
  ∃ shorter, readExpr text = some (e, ⟨rest, shorter⟩)

/-- The expressions are read, with the rest left. -/
def ReadsItems (text : List Char) (items : List SExpr) (rest : List Char) : Prop :=
  ∃ within, readItems text = (items, ⟨rest, within⟩)

theorem readExpr_eq_none (skipped : skipBlanks text = []) : readExpr text = none := by
  rw [readExpr]
  split
  · rfl
  · rename_i found _
    rw [skipped] at found
    cases found

theorem readExpr_eq_none_of_front (skipped : skipBlanks text = c :: behind) (left : c ≠ '(')
    (other : isSymbolChar c = false) : readExpr text = none := by
  rw [readExpr]
  split
  · rfl
  · rename_i found _
    cases skipped.symm.trans found
    rw [if_neg left, if_neg (Bool.eq_false_iff.1 other)]

/-- A symbol is read up to the first character that cannot be part of it. -/
theorem readsExpr_symbol (skipped : skipBlanks text = c :: behind) (is : isSymbolChar c = true) :
    ReadsExpr text (symbol (String.ofList (c :: behind.takeWhile isSymbolChar)))
      (behind.dropWhile isSymbolChar) := by
  have le := length_skipBlanks_le text
  have within := length_dropWhile_le isSymbolChar behind
  rw [skipped, List.length_cons] at le
  refine ⟨by omega, ?_⟩
  rw [readExpr]
  split
  · rename_i found _
    rw [skipped] at found
    cases found
  · rename_i found _
    cases skipped.symm.trans found
    rw [if_neg (isSymbolChar_iff.1 is).2.1, if_pos is]

/-- What stands between brackets is read as a list if its items are read. -/
theorem readsExpr_list (skipped : skipBlanks text = '(' :: behind)
    (inside : ReadsItems behind items last) (closed : skipBlanks last = ')' :: rest) :
    ReadsExpr text (list items) rest := by
  obtain ⟨within, inside⟩ := inside
  have le := length_skipBlanks_le text
  have le' := length_skipBlanks_le last
  rw [skipped, List.length_cons] at le
  rw [closed, List.length_cons] at le'
  refine ⟨by omega, ?_⟩
  rw [readExpr]
  split
  · rename_i found _
    rw [skipped] at found
    cases found
  · rename_i found _
    cases skipped.symm.trans found
    rw [if_pos rfl, inside]
    simp only
    split
    · rename_i found _
      rw [closed] at found
      cases found
    · rename_i found _
      cases closed.symm.trans found
      rw [if_pos rfl]

/-- A list that is not closed is not read. -/
theorem readExpr_eq_none_of_unclosed (skipped : skipBlanks text = '(' :: behind)
    (inside : ReadsItems behind items last) (unclosed : ∀ rest, skipBlanks last ≠ ')' :: rest) :
    readExpr text = none := by
  obtain ⟨within, inside⟩ := inside
  rw [readExpr]
  split
  · rfl
  · rename_i found _
    cases skipped.symm.trans found
    rw [if_pos rfl, inside]
    simp only
    split
    · rfl
    · rename_i found _
      split
      · rename_i right
        exact absurd (right ▸ found) (unclosed _)
      · rfl

theorem readsItems_nil (stop : readExpr text = none) : ReadsItems text [] text :=
  ⟨Nat.le_refl _, by rw [readItems, stop]⟩

theorem readsItems_cons (first : ReadsExpr text e behind) (others : ReadsItems behind items rest) :
    ReadsItems text (e :: items) rest := by
  obtain ⟨shorter, first⟩ := first
  obtain ⟨within, others⟩ := others
  refine ⟨by omega, ?_⟩
  rw [readItems, first]
  simp only [others]

theorem exists_readsItems (text : List Char) : ∃ items rest, ReadsItems text items rest :=
  ⟨(readItems text).1, (readItems text).2.1, (readItems text).2.2, rfl⟩

theorem ReadsExpr.unique {other : SExpr} (first : ReadsExpr text e rest)
    (second : ReadsExpr text other last) : e = other ∧ rest = last := by
  obtain ⟨_, first⟩ := first
  obtain ⟨_, second⟩ := second
  rw [first] at second
  cases second
  exact ⟨rfl, rfl⟩

theorem ReadsItems.unique {others : List SExpr} (first : ReadsItems text items rest)
    (second : ReadsItems text others last) : items = others ∧ rest = last := by
  obtain ⟨_, first⟩ := first
  obtain ⟨_, second⟩ := second
  rw [first] at second
  cases second
  exact ⟨rfl, rfl⟩

/-! ### What is read has the tokens of the text -/

/-- How an expression is read: a symbol, or a list that is closed. -/
theorem ReadsExpr.cases (reads : ReadsExpr text e rest) :
    (∃ name, e = symbol name ∧ ArithDecide.tokens text = .symbol name :: ArithDecide.tokens rest) ∨
    ∃ items behind last, e = list items ∧ skipBlanks text = '(' :: behind ∧
      ReadsItems behind items last ∧ ArithDecide.tokens text = .leftParen :: ArithDecide.tokens behind ∧
      ArithDecide.tokens last = .rightParen :: ArithDecide.tokens rest := by
  have found {f : SExpr} {r : List Char} (other : ReadsExpr text f r) := reads.unique other
  have not_none (none_read : readExpr text = none) : False := by
    obtain ⟨_, reads⟩ := reads
    rw [none_read] at reads
    cases reads
  rcases front text with ⟨skipped, same⟩ | @⟨behind, skipped, same⟩ | ⟨skipped, same⟩ |
    ⟨skipped, is, same⟩ | ⟨skipped, left, -, other, same⟩
  · exact (not_none (readExpr_eq_none skipped)).elim
  · obtain ⟨items, last, inside⟩ := exists_readsItems behind
    rcases front last with ⟨after, -⟩ | ⟨after, -⟩ | ⟨after, closed⟩ | ⟨after, is, -⟩ | ⟨after, -, right, -⟩
    · refine (not_none (readExpr_eq_none_of_unclosed skipped inside ?_)).elim
      simp [after]
    · refine (not_none (readExpr_eq_none_of_unclosed skipped inside ?_)).elim
      simp [after]
    · obtain ⟨rfl, rfl⟩ := found (readsExpr_list skipped inside after)
      exact .inr ⟨items, behind, last, rfl, skipped, inside, same, closed⟩
    · refine (not_none (readExpr_eq_none_of_unclosed skipped inside fun rest closed => ?_)).elim
      cases after.symm.trans closed
      exact absurd is (by decide)
    · refine (not_none (readExpr_eq_none_of_unclosed skipped inside fun rest closed => ?_)).elim
      cases after.symm.trans closed
      exact right rfl
  · exact (not_none (readExpr_eq_none_of_front skipped (by decide) (by decide))).elim
  · obtain ⟨rfl, rfl⟩ := found (readsExpr_symbol skipped is)
    exact .inl ⟨_, rfl, same⟩
  · exact (not_none (readExpr_eq_none_of_front skipped left other)).elim

/-- Expressions are read one after another until none can be read. -/
theorem ReadsItems.cases (reads : ReadsItems text items rest) :
    (items = [] ∧ rest = text) ∨ ∃ e others behind, items = e :: others ∧
      ReadsExpr text e behind ∧ ReadsItems behind others rest := by
  cases first : readExpr text with
  | none =>
    obtain ⟨rfl, rfl⟩ := reads.unique (readsItems_nil first)
    exact .inl ⟨rfl, rfl⟩
  | some found =>
    obtain ⟨others, last, later⟩ := exists_readsItems found.2.1
    have here : ReadsExpr text found.1 found.2.1 := ⟨found.2.2, first⟩
    obtain ⟨rfl, rfl⟩ := reads.unique (readsItems_cons here later)
    exact .inr ⟨_, others, _, rfl, here, later⟩

/-- By induction on the length of the text: the items of a list and what follows an expression are read
from shorter texts. -/
theorem tokens_of_readsItems (reads : ReadsItems text items rest) :
    ArithDecide.tokens text = allTokens items ++ ArithDecide.tokens rest := by
  induction length : text.length using Nat.strong_induction_on generalizing text items rest with
  | _ n ih =>
    subst length
    rcases reads.cases with ⟨rfl, rfl⟩ | ⟨e, others, behind, rfl, first, later⟩
    · rfl
    · have shorter : behind.length < text.length := first.choose
      have after := ih _ shorter later rfl
      rcases first.cases with
        ⟨name, rfl, same⟩ | ⟨inner, opened, last, rfl, skipped, inside, same, closed⟩
      · rw [same, after]
        rfl
      · have le := length_skipBlanks_le text
        rw [skipped, List.length_cons] at le
        have within := ih _ le inside rfl
        rw [same, within, closed, after]
        simp [allTokens, tokens]

/-! ### What has the tokens of expressions is read -/

/-- By induction on the length of the text. What follows the expressions can be no further expression: the
text ends there, or a list is closed. -/
theorem exists_readsItems_of_tokens (same : ArithDecide.tokens text = allTokens items ++ ts)
    (stop : ts = [] ∨ ∃ later, ts = .rightParen :: later) :
    ∃ rest, ReadsItems text items rest ∧ ArithDecide.tokens rest = ts := by
  induction length : text.length using Nat.strong_induction_on generalizing text items ts with
  | _ n ih =>
    subst length
    have le := length_skipBlanks_le text
    cases items with
    | nil =>
      refine ⟨text, readsItems_nil ?_, same⟩
      change ArithDecide.tokens text = ts at same
      rcases front text with ⟨skipped, -⟩ | ⟨-, first⟩ | ⟨skipped, -⟩ | ⟨-, -, first⟩ | ⟨-, -, -, -, first⟩
      · exact readExpr_eq_none skipped
      · rcases stop with rfl | ⟨later, rfl⟩ <;> cases same.symm.trans first
      · exact readExpr_eq_none_of_front skipped (by decide) (by decide)
      · rcases stop with rfl | ⟨later, rfl⟩ <;> cases same.symm.trans first
      · rcases stop with rfl | ⟨later, rfl⟩ <;> cases same.symm.trans first
    | cons e others =>
      cases e with
      | symbol name =>
        have first : ArithDecide.tokens text = .symbol name :: (allTokens others ++ ts) := same
        rcases front text with ⟨-, other⟩ | ⟨-, other⟩ | ⟨-, other⟩ | @⟨c, behind, skipped, is, other⟩ |
          ⟨-, -, -, -, other⟩ <;> rw [first] at other
        · cases other
        · cases other
        · cases other
        · obtain ⟨token, behind_tokens⟩ := List.cons.inj other
          obtain rfl := Token.symbol.inj token
          have read := readsExpr_symbol skipped is
          obtain ⟨rest, later, left⟩ := ih _ read.choose behind_tokens.symm stop rfl
          exact ⟨rest, readsItems_cons read later, left⟩
        · cases other
      | list inner =>
        have first : ArithDecide.tokens text =
            .leftParen :: (allTokens inner ++ .rightParen :: (allTokens others ++ ts)) := by
          rw [same]
          simp [allTokens, tokens]
        rcases front text with ⟨-, other⟩ | @⟨behind, skipped, other⟩ | ⟨-, other⟩ | ⟨-, -, other⟩ |
          ⟨-, -, -, -, other⟩ <;> rw [first] at other
        · cases other
        · rw [skipped, List.length_cons] at le
          obtain ⟨last, inside, closing⟩ := ih _ le (List.cons.inj other).2.symm (.inr ⟨_, rfl⟩) rfl
          rcases front last with ⟨-, other⟩ | ⟨-, other⟩ | @⟨after, closed, other⟩ | ⟨-, -, other⟩ |
            ⟨-, -, -, -, other⟩ <;> rw [closing] at other
          · cases other
          · cases other
          · have read := readsExpr_list skipped inside closed
            obtain ⟨rest, later, left⟩ := ih _ read.choose (List.cons.inj other).2.symm stop rfl
            exact ⟨rest, readsItems_cons read later, left⟩
          · cases other
          · cases other
        · cases other
        · cases other
        · cases other

/-- A text is read as the expressions whose tokens it has. -/
theorem parse_eq_ok_iff : parse text = .ok items ↔ ArithDecide.tokens text = allTokens items := by
  obtain ⟨found, last, reads⟩ := exists_readsItems text
  have parsed : parse text = .ok items ↔ found = items ∧ skipBlanks last = [] := by
    obtain ⟨within, reads⟩ := reads
    cases skipped : skipBlanks last <;> simp [parse, reads, skipped]
  have same := tokens_of_readsItems reads
  constructor
  · intro ok
    obtain ⟨rfl, skipped⟩ := parsed.1 ok
    rw [same, skipBlanks_eq_nil_iff.1 skipped, List.append_nil]
  · intro expected
    obtain ⟨rest, reads', left⟩ := exists_readsItems_of_tokens
      (expected.trans (List.append_nil _).symm) (.inl rfl)
    obtain ⟨rfl, rfl⟩ := reads.unique reads'
    exact parsed.2 ⟨rfl, skipBlanks_eq_nil_iff.2 left⟩

end SExpr

/-! ## Balanced parentheses -/

/-- No parenthesis is closed before it is opened, and all are closed. -/
def Balanced (ts : List Token) : Prop :=
  (∀ n, (ts.take n).count .rightParen ≤ (ts.take n).count .leftParen) ∧
    ts.count .rightParen = ts.count .leftParen

theorem balanced_nil : Balanced [] := ⟨by simp, rfl⟩

theorem balanced_symbol (name : String) : Balanced [.symbol name] := by
  refine ⟨fun n => ?_, rfl⟩
  cases n <;> simp

theorem Balanced.append {ts us : List Token} (first : Balanced ts) (second : Balanced us) :
    Balanced (ts ++ us) := by
  constructor
  · intro n
    rw [List.take_append, List.count_append, List.count_append]
    exact Nat.add_le_add (first.1 n) (second.1 _)
  · rw [List.count_append, List.count_append, first.2, second.2]

/-- Balanced tokens between brackets are balanced. -/
theorem Balanced.enclose {ts : List Token} (balanced : Balanced ts) :
    Balanced (.leftParen :: (ts ++ [.rightParen])) := by
  constructor
  · intro n
    cases n with
    | zero => simp
    | succ n =>
      have inside := balanced.1 n
      have last : ([.rightParen].take (n - ts.length) : List Token).count .rightParen ≤ 1 :=
        (List.Sublist.count_le _ (List.take_sublist _ _)).trans (by simp)
      rw [List.take_succ_cons, List.take_append]
      simp only [List.count_cons, List.count_append]
      simp only [beq_self_eq_true, if_true, reduceCtorEq, beq_iff_eq, if_false]
      omega
  · have := balanced.2
    simp [this]

namespace SExpr

mutual

theorem balanced_tokens : ∀ e : SExpr, Balanced e.tokens ∧ .stray ∉ e.tokens
  | symbol name => ⟨balanced_symbol name, by simp [tokens]⟩
  | list items => by
    obtain ⟨balanced, clean⟩ := balanced_allTokens items
    refine ⟨balanced.enclose, ?_⟩
    simpa [tokens] using clean

theorem balanced_allTokens :
    ∀ items : List SExpr, Balanced (allTokens items) ∧ .stray ∉ allTokens items
  | [] => ⟨balanced_nil, List.not_mem_nil⟩
  | e :: others => by
    obtain ⟨balanced, clean⟩ := balanced_tokens e
    obtain ⟨balanced', clean'⟩ := balanced_allTokens others
    exact ⟨balanced.append balanced', by simp [allTokens, clean, clean']⟩

end

/-- Behind a number of open lists: what is left are the rest of the innermost list and, each behind a
closing parenthesis, the rests of the others. By induction on the tokens. -/
theorem exists_items_of_open {ts : List Token} {depth : Nat} (clean : .stray ∉ ts)
    (within : ∀ n, (ts.take n).count .rightParen ≤ depth + (ts.take n).count .leftParen)
    (total : ts.count .rightParen = depth + ts.count .leftParen) :
    ∃ (items : List SExpr) (others : List (List SExpr)), others.length = depth ∧
      ts = allTokens items ++ others.flatMap fun outer => .rightParen :: allTokens outer := by
  induction ts generalizing depth with
  | nil =>
    refine ⟨[], [], ?_, rfl⟩
    simp only [List.count_nil] at total
    simpa using total
  | cons token ts ih =>
    obtain ⟨other, behind⟩ : Token.stray ≠ token ∧ .stray ∉ ts := by simpa using clean
    have later (n : Nat) := within (n + 1)
    simp only [List.take_succ_cons, List.count_cons] at later total
    cases token with
    | stray => exact absurd rfl other
    | symbol name =>
      obtain ⟨items, others, length, same⟩ := ih behind (by simpa using later) (by simpa using total)
      exact ⟨symbol name :: items, others, length, by rw [same]; rfl⟩
    | leftParen =>
      simp only [beq_self_eq_true, if_true, reduceCtorEq, beq_iff_eq, if_false] at later total
      obtain ⟨inner, others, length, same⟩ := @ih (depth + 1) behind
        (fun n => by have := later n; omega) (by omega)
      cases others with
      | nil => cases length
      | cons items others =>
        refine ⟨list inner :: items, others, Nat.succ.inj length, ?_⟩
        rw [same]
        simp [allTokens, tokens]
    | rightParen =>
      simp only [beq_self_eq_true, if_true, reduceCtorEq, beq_iff_eq, if_false] at later total
      cases depth with
      | zero =>
        have := later 0
        simp at this
      | succ depth =>
        obtain ⟨items, others, length, same⟩ := @ih depth behind
          (fun n => by have := later n; omega) (by omega)
        exact ⟨[], items :: others, congrArg Nat.succ length, by rw [same]; rfl⟩

/-- Tokens are those of expressions if there is no stray blank among them and the parentheses balance. -/
theorem exists_allTokens_iff {ts : List Token} :
    (∃ items, ts = allTokens items) ↔ .stray ∉ ts ∧ Balanced ts := by
  constructor
  · rintro ⟨items, rfl⟩
    exact (balanced_allTokens items).symm
  · rintro ⟨clean, within, total⟩
    obtain ⟨items, others, length, same⟩ := @exists_items_of_open ts 0 clean
      (by simpa using within) (by simpa using total)
    rw [List.length_eq_zero_iff.1 length] at same
    exact ⟨items, by simpa using same⟩

end SExpr

end ArithDecide
