import ArithDecide.Literal
import ArithDecide.Number.InfRat

/-!
# Linear forms

A linear form is a sum of variables with rational coefficients. It is kept canonical: the variables
increase strictly and no coefficient is zero, so equal sums are equal forms. `ofEntries` reads a
list of entries in any order and merges those of one variable; `substitute` replaces a variable by a
form.
-/

namespace ArithDecide

/-- A sum of variables with coefficients, each variable at most once, in increasing order, and no
coefficient zero. -/
@[ext]
structure LinearForm where
  terms : List (Var × Rat)
  increasing : terms.Pairwise fun s t => s.1 < t.1
  nonzero : ∀ t ∈ terms, t.2 ≠ 0
  deriving DecidableEq

namespace LinearForm

/-! ## Sorted terms -/

/-- Adds `coeff · v` to a canonical list of terms. -/
def addToTerms (v : Var) (coeff : Rat) : List (Var × Rat) → List (Var × Rat)
  | [] => if coeff = 0 then [] else [(v, coeff)]
  | (w, d) :: rest =>
    if v < w then
      if coeff = 0 then (w, d) :: rest else (v, coeff) :: (w, d) :: rest
    else if w < v then (w, d) :: addToTerms v coeff rest
    else if d + coeff = 0 then rest else (v, d + coeff) :: rest

/-- Every variable of the sum is the new one or was there. -/
theorem fst_of_mem_addToTerms {v : Var} {coeff : Rat} {terms : List (Var × Rat)} {t : Var × Rat}
    (member : t ∈ addToTerms v coeff terms) : t.1 = v ∨ t ∈ terms := by
  induction terms with
  | nil =>
    simp only [addToTerms] at member
    split at member <;> simp_all
  | cons head rest ih =>
    simp only [addToTerms] at member
    grind

/-- Adding to a coefficient keeps the variables of the terms in strictly increasing order. -/
theorem pairwise_addToTerms (v : Var) (coeff : Rat) {terms : List (Var × Rat)}
    (increasing : terms.Pairwise fun s t => s.1 < t.1) :
    (addToTerms v coeff terms).Pairwise fun s t => s.1 < t.1 := by
  induction terms with
  | nil => simp only [addToTerms]; split <;> simp
  | cons head rest ih =>
    obtain ⟨w, d⟩ := head
    have ⟨below, tail⟩ := List.pairwise_cons.1 increasing
    simp only [addToTerms]
    split
    · split
      · exact increasing
      · refine List.pairwise_cons.2 ⟨?_, increasing⟩
        intro t member
        rcases List.mem_cons.1 member with rfl | member
        · assumption
        · exact Nat.lt_trans (by assumption) (below t member)
    · split
      · refine List.pairwise_cons.2 ⟨?_, ih tail⟩
        intro t member
        rcases fst_of_mem_addToTerms member with same | member
        · simpa [same]
        · exact below t member
      · split
        · exact tail
        · refine List.pairwise_cons.2 ⟨?_, tail⟩
          intro t member
          have above : w < t.1 := below t member
          show v < t.1
          grind

theorem ne_zero_of_mem_addToTerms {v : Var} {coeff : Rat} {terms : List (Var × Rat)}
    (nonzero : ∀ t ∈ terms, t.2 ≠ 0) : ∀ t ∈ addToTerms v coeff terms, t.2 ≠ 0 := by
  induction terms with
  | nil =>
    intro t member
    simp only [addToTerms] at member
    split at member <;> simp_all
  | cons head rest ih =>
    intro t member
    simp only [addToTerms] at member
    grind

/-! ## Operations -/

/-- The empty sum. -/
def zero : LinearForm := ⟨[], .nil, by simp⟩

instance : Inhabited LinearForm := ⟨zero⟩

/-- The sum with `coeff · v` added. -/
def addTerm (f : LinearForm) (v : Var) (coeff : Rat) : LinearForm where
  terms := addToTerms v coeff f.terms
  increasing := pairwise_addToTerms v coeff f.increasing
  nonzero := ne_zero_of_mem_addToTerms f.nonzero

/-- The form with the given entries: entries of one variable are added up. -/
def ofEntries (entries : List (Var × Rat)) : LinearForm :=
  entries.foldl (fun f entry => f.addTerm entry.1 entry.2) zero

/-- The form `f + factor · g`. -/
def addScaled (f : LinearForm) (factor : Rat) (g : LinearForm) : LinearForm :=
  g.terms.foldl (fun acc t => acc.addTerm t.1 (factor * t.2)) f

/-- The form `factor · f`. -/
def scale (factor : Rat) (f : LinearForm) : LinearForm :=
  zero.addScaled factor f

/-- The coefficient of a variable, zero when it does not occur. -/
def coeff (f : LinearForm) (v : Var) : Rat :=
  (f.terms.lookup v).getD 0

/-- Whether the variable occurs. -/
def mentions (f : LinearForm) (v : Var) : Bool :=
  f.terms.any fun t => t.1 == v

/-- The variables that occur, in increasing order. -/
def vars (f : LinearForm) : List Var := f.terms.map Prod.fst

/-- The form without the term of a variable. -/
def erase (f : LinearForm) (v : Var) : LinearForm where
  terms := f.terms.filter fun t => t.1 ≠ v
  increasing := f.increasing.filter _
  nonzero := fun t member => f.nonzero t (List.mem_filter.1 member).1

/-- The form with a variable replaced by a form. -/
def substitute (f : LinearForm) (v : Var) (replacement : LinearForm) : LinearForm :=
  (f.erase v).addScaled (f.coeff v) replacement

/-! ## Values -/

/-- The value of the form under an assignment of rationals. -/
def eval (f : LinearForm) (assignment : Var → Rat) : Rat :=
  total (f.terms.map fun t => t.2 * assignment t.1)

/-- The value of the form under an assignment of rationals with infinitesimal parts. -/
def evalInf (f : LinearForm) (assignment : Var → InfRat) : InfRat :=
  (f.terms.map fun t => (assignment t.1).scale t.2).foldl (· + ·) 0

/-! ## Text -/

/-- The text of a form: `x = 2·y - z + 1/2·w` has the right side `2·y - z + 1/2·w`. A coefficient of
absolute value one is not written, and the empty sum is `0`. -/
def text (f : LinearForm) (name : Var → String) : String :=
  match f.terms with
  | [] => "0"
  | first :: rest =>
    let absolute (c : Rat) : Rat := if c < 0 then -c else c
    let unsigned (t : Var × Rat) : String :=
      if absolute t.2 = 1 then name t.1 else rationalText (absolute t.2) ++ "·" ++ name t.1
    let leading := (if first.2 < 0 then "-" else "") ++ unsigned first
    rest.foldl (fun acc t => acc ++ (if t.2 < 0 then " - " else " + ") ++ unsigned t) leading

end LinearForm

end ArithDecide
