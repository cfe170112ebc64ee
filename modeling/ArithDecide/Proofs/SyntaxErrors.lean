import ArithDecide.Proofs.Tokens

/-!
# When reading ends in a syntax error

Reading ends in a syntax error if and only if a blank that is not plain stands outside of comments or the
parentheses do not balance. Otherwise the answer, a snapshot or another error, depends on the tokens of
the text only (`Snapshot.read_determined`): once the expressions are known, no part of the reader looks at
the text, and none reports a syntax error (`Snapshot.NoSyntax`).
-/

namespace ArithDecide

/-! ## Stray blanks -/

/-- The text without its comments. -/
def withoutComments : List Char → List Char
  | [] => []
  | c :: rest =>
    if c = ';' then withoutComments (rest.dropWhile fun d => d ≠ '\n')
    else c :: withoutComments rest
termination_by text => text.length
decreasing_by
  all_goals simp only [List.length_cons]
  · have := length_dropWhile_le (fun d => decide (d ≠ '\n')) rest; omega
  · omega

/-- A blank that is not plain stands outside of comments. -/
def StrayBlank (text : List Char) : Prop :=
  ∃ c ∈ withoutComments text, isBlank c = true ∧ isPlainBlank c = false

section Stray

variable {c : Char} {text rest name : List Char}

theorem withoutComments_cons (other : c ≠ ';') :
    withoutComments (c :: rest) = c :: withoutComments rest := by
  rw [withoutComments, if_neg other]

theorem strayBlank_comment :
    StrayBlank (';' :: rest) ↔ StrayBlank (rest.dropWhile fun d => d ≠ '\n') := by
  rw [StrayBlank, withoutComments, if_pos rfl]
  exact Iff.rfl

theorem strayBlank_cons (other : c ≠ ';') : StrayBlank (c :: rest) ↔
    isBlank c = true ∧ isPlainBlank c = false ∨ StrayBlank rest := by
  rw [StrayBlank, withoutComments_cons other]
  simp [StrayBlank]

/-- A character that is no stray blank and starts no comment. -/
theorem strayBlank_skip (other : c ≠ ';') (ordinary : isBlank c = false ∨ isPlainBlank c = true) :
    StrayBlank (c :: rest) ↔ StrayBlank rest := by
  rw [strayBlank_cons other]
  refine or_iff_right fun stray => ?_
  rcases ordinary with visible | plain
  · exact absurd (visible.symm.trans stray.1) nofun
  · exact absurd (plain.symm.trans stray.2) nofun

theorem strayBlank_symbol (chars : ∀ c ∈ name, isSymbolChar c = true) :
    StrayBlank (name ++ rest) ↔ StrayBlank rest := by
  induction name with
  | nil => exact Iff.rfl
  | cons c name ih =>
    obtain ⟨first, others⟩ := List.forall_mem_cons.1 chars
    obtain ⟨visible, -, -, other⟩ := isSymbolChar_iff.1 first
    rw [List.cons_append, strayBlank_skip other (.inl visible), ih others]

/-- The text has a stray token exactly if it has a stray blank. -/
theorem stray_mem_tokens_iff (text : List Char) : .stray ∈ tokens text ↔ StrayBlank text := by
  fun_induction tokens text with
  | case1 => simp [StrayBlank, withoutComments]
  | case2 rest ih => rw [strayBlank_skip (by decide) (.inl (by decide)), ← ih]; simp
  | case3 rest _ ih => rw [strayBlank_skip (by decide) (.inl (by decide)), ← ih]; simp
  | case4 rest _ _ ih => rw [strayBlank_comment, ih]
  | case5 c rest _ _ other plain ih => rw [strayBlank_skip other (.inr plain), ih]
  | case6 c rest _ _ other odd blank ih =>
    rw [strayBlank_cons other]
    exact ⟨fun _ => .inl ⟨blank, Bool.eq_false_iff.2 odd⟩, fun _ => List.mem_cons_self⟩
  | case7 c rest left right comment _ visible ih =>
    have is : isSymbolChar c = true :=
      isSymbolChar_iff.2 ⟨Bool.eq_false_iff.2 visible, left, right, comment⟩
    have chars : ∀ d ∈ c :: rest.takeWhile isSymbolChar, isSymbolChar d = true :=
      List.forall_mem_cons.2 ⟨is, fun d => List.mem_takeWhile_imp⟩
    have spelled : c :: rest = (c :: rest.takeWhile isSymbolChar) ++ rest.dropWhile isSymbolChar := by
      rw [List.cons_append, List.takeWhile_append_dropWhile]
    rw [spelled, strayBlank_symbol chars, ← ih]
    simp

end Stray

/-! ## Other errors -/

namespace Snapshot

/-- The answer is no syntax error. -/
def NoSyntax {α : Type} (answer : Except ReadError α) : Prop :=
  ∀ near, answer ≠ .error (.syntaxError near)

section

variable {α β : Type} {answer : Except ReadError α}

theorem noSyntax_ok (a : α) : NoSyntax (.ok a : Except ReadError α) := fun _ => nofun

theorem NoSyntax.bind {f : α → Except ReadError β} (first : NoSyntax answer)
    (later : ∀ a, NoSyntax (f a)) : NoSyntax (answer >>= f) := by
  cases answer with
  | error e => exact fun near same => first near (congrArg Except.error (Except.error.inj same))
  | ok a => exact later a

theorem NoSyntax.map (first : NoSyntax answer) (f : α → β) : NoSyntax (answer.map f) := by
  cases answer with
  | error e => exact fun near same => first near (congrArg Except.error (Except.error.inj same))
  | ok a => exact noSyntax_ok _

end

theorem noSyntax_readNumeral (e : SExpr) : NoSyntax (readNumeral e) := by
  unfold readNumeral
  cases Numeral.read e with
  | error text => exact fun _ => nofun
  | ok value => exact noSyntax_ok _

theorem noSyntax_readSort (name : String) : NoSyntax (readSort name) := by
  unfold readSort
  split
  · exact noSyntax_ok _
  · exact fun _ => nofun

section

variable {malformed : ReadError} (other : ∀ near, malformed ≠ .syntaxError near)
include other

theorem noSyntax_malformed {α : Type} : NoSyntax (.error malformed : Except ReadError α) :=
  fun near same => other near (Except.error.inj same)

theorem noSyntax_readTerms (items : List SExpr) : NoSyntax (readTerms malformed items) := by
  have wrong := noSyntax_malformed other (α := List (Rat × String))
  fun_induction readTerms malformed items with
  | case1 => exact noSyntax_ok _
  | case2 coeff name rest ih =>
    exact (noSyntax_readNumeral coeff).bind fun value => ih.bind fun terms => noSyntax_ok _
  | case3 => exact wrong
  | case4 rest ih => exact ih
  | case5 => exact wrong
  | case6 => exact wrong

theorem noSyntax_readDefinition (var : String) (definition : SExpr) :
    NoSyntax (readDefinition malformed var definition) := by
  have wrong := noSyntax_malformed (α := Assertion) other
  unfold readDefinition
  split
  · split
    · exact (noSyntax_readTerms other _).map _
    · split
      · split
        · exact noSyntax_ok _
        · exact wrong
      · exact (noSyntax_readNumeral _).map _
  · exact (noSyntax_readNumeral _).map _

theorem noSyntax_readComparison (strict : Bool) (left right : SExpr) :
    NoSyntax (readComparison malformed strict left right) := by
  unfold readComparison
  split
  · exact (noSyntax_readNumeral _).bind fun _ => noSyntax_ok _
  · exact (noSyntax_readNumeral _).bind fun _ => noSyntax_ok _
  · exact noSyntax_malformed other

end

/-- An assertion that is an expression is never a syntax error. -/
theorem noSyntax_readAssertion (body : SExpr) : NoSyntax (readAssertion body) := by
  have other : ∀ near, ReadError.malformedAssertion body.text ≠ .syntaxError near := fun _ => nofun
  have wrong := noSyntax_malformed (α := Assertion) other
  unfold readAssertion
  split
  · split
    · split
      · exact noSyntax_readDefinition other _ _
      · exact wrong
    · split
      · exact noSyntax_readComparison other _ _ _
      · split
        · exact noSyntax_readComparison other _ _ _
        · exact wrong
  · exact wrong

/-- A command that is an expression is never a syntax error: what is wrong with it is that it is not
supported or malformed. -/
theorem noSyntax_readCommand (s : Snapshot) (command : SExpr) :
    NoSyntax (s.readCommand command) := by
  have wrong : NoSyntax (.error (.unsupportedCommand command.text) : Except ReadError Snapshot) :=
    @noSyntax_malformed (.unsupportedCommand command.text) (fun _ => nofun) _
  have malformed : NoSyntax (.error (.malformedAssertion command.text) : Except ReadError Snapshot) :=
    @noSyntax_malformed (.malformedAssertion command.text) (fun _ => nofun) _
  unfold readCommand
  split
  · split
    · split
      · exact (noSyntax_readSort _).map _
      · exact wrong
    · split
      · split
        · exact (noSyntax_readSort _).map _
        · exact wrong
      · split
        · split
          · refine (noSyntax_readAssertion _).bind fun assertion => ?_
            split
            · rename_i var _
              exact @noSyntax_malformed (.undeclaredVariable var) (fun _ => nofun) _
            · exact noSyntax_ok _
          · exact malformed
        · split
          · exact noSyntax_ok _
          · exact wrong
  · exact wrong

theorem noSyntax_foldlM_readCommand (s : Snapshot) (commands : List SExpr) :
    NoSyntax (commands.foldlM readCommand s) := by
  induction commands generalizing s with
  | nil => exact noSyntax_ok s
  | cons command rest ih =>
    rw [List.foldlM_cons]
    exact (noSyntax_readCommand s command).bind ih

/-! ## Reading -/

/-- Reading ends in a syntax error exactly for a stray blank or unbalanced parentheses; otherwise all
texts with the same tokens give the same answer. -/
theorem read_determined :
    (∀ text : String, (∃ near, read text = .error (.syntaxError near)) ↔
      StrayBlank text.toList ∨ ¬Balanced (tokens text.toList)) ∧
    ∀ text other : String, tokens text.toList = tokens other.toList →
      ¬StrayBlank text.toList → Balanced (tokens text.toList) → read text = read other := by
  have readable (text : String) : ¬(StrayBlank text.toList ∨ ¬Balanced (tokens text.toList)) ↔
      ∃ commands, tokens text.toList = SExpr.allTokens commands := by
    rw [SExpr.exists_allTokens_iff, stray_mem_tokens_iff, not_or, not_not]
  have read_eq {text : String} {commands : List SExpr}
      (same : tokens text.toList = SExpr.allTokens commands) :
      read text = commands.foldlM readCommand .empty := by
    rw [read, SExpr.parse_eq_ok_iff.2 same]
  refine ⟨fun text => ⟨fun ⟨near, failed⟩ => ?_, fun unreadable => ?_⟩,
    fun text other same clean balanced => ?_⟩
  · by_contra fine
    obtain ⟨commands, same⟩ := (readable text).1 fine
    rw [read_eq same] at failed
    exact noSyntax_foldlM_readCommand _ _ near failed
  · cases parsed : SExpr.parse text.toList with
    | error rest => exact ⟨_, by rw [read, parsed]; rfl⟩
    | ok commands =>
      exact absurd unreadable ((readable text).2 ⟨commands, SExpr.parse_eq_ok_iff.1 parsed⟩)
  · obtain ⟨commands, found⟩ := (readable text).1 fun wrong =>
      wrong.elim clean fun unbalanced => unbalanced balanced
    rw [read_eq found, read_eq (same ▸ found)]

/-- Blanks and comments between tokens make no difference, a missing parenthesis is an error. -/
theorem read_determined_spread :
    read "(set-logic QF_LRA)" = read " ( set-logic ; linear\n\tQF_LRA )" ∧
      ∃ near, read "(set-logic QF_LRA" = .error (.syntaxError near) := by
  have spelled : tokens "(set-logic QF_LRA)".toList =
      SExpr.allTokens [.list [.symbol "set-logic", .symbol "QF_LRA"]] := by cbv
  obtain ⟨clean, balanced⟩ := SExpr.exists_allTokens_iff.1 ⟨_, spelled⟩
  obtain ⟨fails, same⟩ := read_determined
  refine ⟨same _ _ (by cbv) (mt (stray_mem_tokens_iff _).2 clean) balanced, ?_⟩
  refine (fails _).2 (.inr fun other => ?_)
  have opened : (tokens "(set-logic QF_LRA".toList).count .rightParen ≠
      (tokens "(set-logic QF_LRA".toList).count .leftParen := by cbv
  exact opened other.2

end Snapshot

end ArithDecide
