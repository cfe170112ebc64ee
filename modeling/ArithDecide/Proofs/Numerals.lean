import Mathlib.Algebra.Order.Ring.Rat
import ArithDecide.Proofs.Expressions
import ArithDecide.Snapshot.Numeral

/-!
# Numerals are read back

`Numeral.expr` is the expression whose text is written for a rational. It is legible, and reading it
gives the rational.
-/

namespace ArithDecide.Numeral

/-! ## Digits -/

theorem isDigit_iff {c : Char} : isDigit c = true ↔ 48 ≤ c.toNat ∧ c.toNat ≤ 57 := by
  simp only [isDigit, Bool.and_eq_true, decide_eq_true_eq, Char.le_def, UInt32.le_iff_toNat_le]
  exact Iff.rfl

theorem isSymbolChar_of_isDigit {c : Char} (digit : isDigit c = true) : isSymbolChar c = true := by
  obtain ⟨least, most⟩ := isDigit_iff.1 digit
  have apart {d : Char} (outside : d.toNat < 48 ∨ 57 < d.toNat) : c ≠ d := by
    rintro rfl
    omega
  refine isSymbolChar_iff.2 ⟨?_, apart (by decide), apart (by decide), apart (by decide)⟩
  simp only [isBlank, Bool.or_eq_false_iff, Bool.and_eq_false_iff, decide_eq_false_iff_not]
  omega

theorem toList_toString (n : Nat) : (toString n).toList = Nat.toDigits 10 n := by
  rw [Nat.toString_eq_ofList_toDigits, String.toList_ofList]

theorem isDigits_toString (n : Nat) : isDigits (toString n) = true := by
  rw [isDigits, toList_toString, List.all_eq_true]
  exact fun c member => Nat.isDigit_of_mem_toDigits (by decide) (by decide) member

theorem isSymbol_toString (n : Nat) : IsSymbol (toString n) := by
  refine ⟨fun empty => ?_, fun c member => ?_⟩
  · exact Nat.toDigits_ne_nil ((toList_toString n).symm.trans (String.toList_eq_nil_iff.2 empty))
  · exact isSymbolChar_of_isDigit (List.all_eq_true.1 (isDigits_toString n) c member)

theorem read_toString (n : Nat) : read (.symbol (toString n)) = .ok (n : Rat) := by
  have value : ofDigits (toString n).toList = n := by
    rw [toList_toString, ofDigits, ← Nat.ofDigitChars_eq_foldl, Nat.ofDigitChars_ten_toDigits]
  rw [read, if_pos (isDigits_toString n), value]

theorem toString_num {value : Rat} (nonneg : 0 ≤ value) :
    toString value.num = toString value.num.toNat := by
  rw [Int.toString_eq_repr, Int.repr_eq_if, if_pos (Rat.num_nonneg.2 nonneg)]
  rfl

/-! ## Rationals -/

/-- What is written for a rational that is at least zero. -/
def magnitudeExpr (value : Rat) : SExpr :=
  if value.den = 1 then .symbol (toString value.num.toNat)
  else .list [.symbol "/", .symbol (toString value.num.toNat), .symbol (toString value.den)]

/-- What is written for a rational. -/
def expr (value : Rat) : SExpr :=
  if value < 0 then .list [.symbol "-", magnitudeExpr (-value)] else magnitudeExpr value

theorem text_magnitudeExpr {value : Rat} (nonneg : 0 ≤ value) :
    (magnitudeExpr value).text = magnitudeText value := by
  rw [magnitudeExpr, magnitudeText, toString_num nonneg]
  split
  · rw [SExpr.text]
  · rw [← String.toList_inj]
    simp [SExpr.text, SExpr.restText]

theorem text_expr (value : Rat) : (expr value).text = text value := by
  rw [expr, text]
  split
  · rename_i negative
    have spelled := text_magnitudeExpr (neg_nonneg.2 negative.le)
    rw [← String.toList_inj]
    simp [SExpr.text, SExpr.restText, spelled]
  · rename_i nonneg
    exact text_magnitudeExpr (not_lt.1 nonneg)

theorem legible_magnitudeExpr (value : Rat) : (magnitudeExpr value).Legible := by
  rw [magnitudeExpr]
  split
  · exact .symbol (isSymbol_toString _)
  · refine .list fun item member => ?_
    simp only [List.mem_cons, List.not_mem_nil, or_false] at member
    rcases member with rfl | rfl | rfl
    · exact .symbol (by decide)
    · exact .symbol (isSymbol_toString _)
    · exact .symbol (isSymbol_toString _)

theorem legible_expr (value : Rat) : (expr value).Legible := by
  rw [expr]
  split
  · refine .list (List.forall_mem_cons.2 ⟨.symbol (by decide), ?_⟩)
    exact List.forall_mem_cons.2 ⟨legible_magnitudeExpr _, by simp⟩
  · exact legible_magnitudeExpr value

/-- What is written for a number that is not negative is read as that number, as an integer or as a
quotient of two. -/
theorem read_magnitudeExpr {value : Rat} (nonneg : 0 ≤ value) :
    read (magnitudeExpr value) = .ok value := by
  have numerator : ((value.num.toNat : Nat) : Rat) = (value.num : Rat) := by
    exact_mod_cast congrArg (Int.cast (R := Rat)) (Int.toNat_of_nonneg (Rat.num_nonneg.2 nonneg))
  have whole (n : Nat) : (n : Rat).isInt = true := by simp [Rat.isInt]
  have quotient : ((value.num.toNat : Nat) : Rat) / ((value.den : Nat) : Rat) = value := by
    rw [numerator]
    exact Rat.num_div_den value
  rw [magnitudeExpr]
  split
  · rename_i integer
    rw [integer, Nat.cast_one, div_one] at quotient
    rw [read_toString, quotient]
  · rw [read, if_pos rfl, read_toString, read_toString]
    simp only [bind, Except.bind, whole, quotient]
    rw [if_pos (by simp)]

/-- A rational is read back from what is written for it. -/
theorem read_expr (value : Rat) : read (expr value) = .ok value := by
  rw [expr]
  split
  · rename_i negative
    rw [read, if_pos rfl, read_magnitudeExpr (neg_nonneg.2 negative.le)]
    exact congrArg Except.ok (neg_neg value)
  · rename_i nonneg
    exact read_magnitudeExpr (not_lt.1 nonneg)

end ArithDecide.Numeral
