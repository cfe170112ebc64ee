import ArithDecide.Engine.Problem
import ArithDecide.Nonlinear.Refinement

/-!
# Nested evaluation of rows

A row that mentions monomials is evaluated as `x · (Σ inner) + Σ rest` around the variable `x` that
most of its products share. The row says that this is zero, so an interval without zero is a
conflict.
-/

namespace ArithDecide.Engine

/-- The term `coeff · Π factors` of a row whose monomials were expanded. -/
structure ProductTerm where
  coeff : Rat
  factors : List Var
  /-- The monomial variable that was expanded. -/
  monomial : Option Var
  deriving DecidableEq, Inhabited

/-- A term of a row with its monomial expanded. -/
def productTerm (e : Engine) (t : Var × Rat) : ProductTerm :=
  match e.monomial? t.1 with
  | some m => ⟨t.2, m.factors, some t.1⟩
  | none => ⟨t.2, [t.1], none⟩

/-- The variable that occurs in most products, the smallest of several, if it occurs in two. -/
def mostSharedFactor? (products : List ProductTerm) : Option Var :=
  let distinct := products.map fun p => (powersOf p.factors).map Prod.fst
  let counts := powersOf distinct.flatten
  let best := counts.foldl (fun (best : Option (Var × Nat)) p =>
    if p.2 < 2 then best
    else match best with
      | none => some p
      | some b => if b.2 < p.2 then some p else some b) none
  best.map Prod.fst

/-- The interval of a product without the shared variable: the product as it is bounded, and the
monomial as it is bounded. -/
def restInterval (e : Engine) (p : ProductTerm) : Interval :=
  let product := e.productInterval p.factors
  (match p.monomial with
    | some v => product.intersect (e.varInterval v)
    | none => product).scale p.coeff

/-- The interval of the row around a variable. -/
def nestedInterval (e : Engine) (products : List ProductTerm) (shared : Var) : Interval :=
  let holding := products.filter fun p => p.factors.contains shared
  let others := products.filter fun p => !p.factors.contains shared
  let inner := (holding.map fun p =>
    (e.productInterval (p.factors.erase shared)).scale p.coeff).foldl Interval.add (.point 0)
  let rest := (others.map e.restInterval).foldl Interval.add (.point 0)
  ((e.varInterval shared).mul inner).add rest

/-- Evaluates one row. The answer is false when the row cannot be zero, which is a conflict. -/
def checkNestedRow (e : Engine) (r : RowId) : Engine × Bool :=
  match (e.tableau.get? r).filter fun row => !row.pending with
  | none => (e, true)
  | some row =>
    let products := row.zeroTerms.map e.productTerm
    if products.all fun p => p.monomial.isNone then (e, true)
    else
      match mostSharedFactor? products with
      | none => (e, true)
      | some shared =>
        let counted := e.count fun s => { s with nestedForms := s.nestedForms + 1 }
        let total := counted.nestedInterval products shared
        if total.contains 0 then (counted, true)
        else
          let used := products.flatMap fun p => p.factors ++ p.monomial.toList
          let (joined, reason) := counted.joinReasons (counted.boundReasons used)
          let traced := joined.trace .nonlinear fun _ =>
            "row of " ++ counted.varName row.base ++ " evaluates to " ++ total.text ++ " around " ++
              counted.varName shared
          (traced.setConflict reason, false)

/-- Evaluates all rows in reduced form that mention monomials. -/
def checkNestedForms (e : Engine) : Engine × Bool :=
  forEach checkNestedRow e.tableau.rowIds e

end ArithDecide.Engine
