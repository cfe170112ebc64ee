import ArithDecide.Text.Blank

/-!
# S-expressions

Snapshots are texts of symbols and parentheses. `SExpr.parse` reads them character by character: before
an expression and before a closing parenthesis plain blanks and comments are skipped, and a list has as
many items as can be read. What could not be read is left, so that a syntax error can show where reading
stopped: at the outermost list that was not finished, or at what could not start an expression.
-/

namespace ArithDecide

/-- Whether a character may occur in a symbol. -/
def isSymbolChar (c : Char) : Bool := !isBlank c && c ≠ '(' && c ≠ ')' && c ≠ ';'

theorem length_dropWhile_le {α : Type} (p : α → Bool) (l : List α) :
    (l.dropWhile p).length ≤ l.length :=
  (List.dropWhile_sublist p).length_le

/-- A symbol or a list of expressions. -/
inductive SExpr where
  | symbol (name : String)
  | list (items : List SExpr)
  deriving Inhabited

namespace SExpr

/-- The name of a symbol. -/
def symbol? : SExpr → Option String
  | symbol name => some name
  | list _ => none

mutual

/-- The text of an expression, with single blanks between the items of a list. -/
def text : SExpr → String
  | symbol name => name
  | list [] => "()"
  | list (first :: rest) => "(" ++ text first ++ restText rest ++ ")"

/-- The texts of expressions, each behind a blank. -/
def restText : List SExpr → String
  | [] => ""
  | item :: rest => " " ++ text item ++ restText rest

end

/-! ## Reading -/

/-- The text behind plain blanks and comments. A comment goes from a semicolon to the end of its line. -/
def skipBlanks : List Char → List Char
  | [] => []
  | c :: rest =>
    if isPlainBlank c then skipBlanks rest
    else if c = ';' then skipBlanks (rest.dropWhile fun d => d ≠ '\n')
    else c :: rest
termination_by text => text.length
decreasing_by
  all_goals simp only [List.length_cons]
  · omega
  · have := length_dropWhile_le (fun d => decide (d ≠ '\n')) rest; omega

theorem length_skipBlanks_le (text : List Char) : (skipBlanks text).length ≤ text.length := by
  fun_induction skipBlanks text with
  | case1 => exact Nat.le_refl _
  | case2 c rest _ ih => exact Nat.le_succ_of_le ih
  | case3 rest _ ih => exact Nat.le_succ_of_le (Nat.le_trans ih (length_dropWhile_le _ rest))
  | case4 => exact Nat.le_refl _

mutual

/-- Reads an expression behind blanks; the answer is the expression and the text behind it. -/
def readExpr (text : List Char) :
    Option (SExpr × { rest : List Char // rest.length < text.length }) :=
  match skipBlanks text, length_skipBlanks_le text with
  | [], _ => none
  | c :: behind, le =>
    if c = '(' then
      match readItems behind with
      | (items, ⟨last, within⟩) =>
        match skipBlanks last, length_skipBlanks_le last with
        | [], _ => none
        | d :: rest, le' =>
          if d = ')' then
            some (.list items, ⟨rest, by simp only [List.length_cons] at le le'; omega⟩)
          else none
    else if isSymbolChar c then
      some (.symbol (String.ofList (c :: behind.takeWhile isSymbolChar)),
        ⟨behind.dropWhile isSymbolChar,
          Nat.lt_of_lt_of_le (Nat.lt_succ_of_le (length_dropWhile_le _ behind)) le⟩)
    else none
termination_by (text.length, 0)
decreasing_by exact Prod.Lex.left _ _ le

/-- Reads as many expressions as there are; the answer is the expressions and the text behind them. -/
def readItems (text : List Char) : List SExpr × { rest : List Char // rest.length ≤ text.length } :=
  match readExpr text with
  | none => ([], ⟨text, Nat.le_refl _⟩)
  | some (item, ⟨behind, shorter⟩) =>
    match readItems behind with
    | (items, ⟨rest, within⟩) => (item :: items, ⟨rest, Nat.le_trans within (Nat.le_of_lt shorter)⟩)
termination_by (text.length, 1)
decreasing_by
  · exact Prod.Lex.right _ Nat.zero_lt_one
  · exact Prod.Lex.left _ _ shorter

end

/-- The expressions of a text, or the text where reading stopped. -/
def parse (text : List Char) : Except (List Char) (List SExpr) :=
  match readItems text with
  | (items, ⟨last, _⟩) =>
    match skipBlanks last with
    | [] => .ok items
    | stopped => .error stopped

end SExpr

end ArithDecide
