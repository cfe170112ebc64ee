import ArithDecide.Engine.Bounds

/-!
# Stating a problem

The operations that add variables, rows, monomials, atoms, literals, unconditional bounds and
equalities. Misuse is answered by an error and leaves the engine as it was. A literal is only queued
here; its bound is installed by the next propagation.
-/

namespace ArithDecide.Engine

/-- Fails unless the variable exists. -/
def requireVar (e : Engine) (v : Var) : Except EngineError Unit :=
  if e.hasVar v then .ok () else .error (.unknownVariable v)

/-! ## Variables and rows -/

/-- Adds a variable with the value zero and without bounds. -/
def mkVar (e : Engine) (sort : NumSort) (term : Term) : Engine × Var :=
  let added := { e with
    columns := e.columns.push ⟨sort, term⟩
    values := e.values.push 0
    valueStamps := e.valueStamps.push 0
    bounds := e.bounds.addVar }
  (added.count fun s => { s with maxColumns := max s.maxColumns added.numVars }, e.numVars)

/-- Names a variable. -/
def setName (e : Engine) (v : Var) (name : String) : Except EngineError Engine := do
  e.requireVar v
  return { e with names := e.names.assign v name }

/-- Puts a row into the tableau. -/
def pushRow (e : Engine) (base : Var) (form : LinearForm) : Engine × RowId :=
  let added := { e with tableau := e.tableau.addRow base form }
  (added.count fun s => { s with maxRows := max s.maxRows added.numRows }, e.numRows)

/-- Whether the entries of a new row are variables other than its base. -/
def requireEntries (e : Engine) (base : Var) : List (Var × Rat) → Except EngineError Unit
  | [] => .ok ()
  | (v, _) :: rest => do
    e.requireVar v
    if v = base then throw (.baseNotFresh base)
    e.requireEntries base rest

/-- Puts a row into the tableau and gives its base the value of the row. The base is to be repaired
and the row to be inspected. Without eager normalisation the row stays pending until the next
propagation. -/
def placeRow (e : Engine) (base : Var) (form : LinearForm) : Engine × RowId :=
  let (added, r) := e.pushRow base form
  let valued :=
    if e.options.eagerNormalization then added.normalizeRow r
    else added.setValue base (added.value base)
  let marked := { valued.markToPatch base with touched := SortedSet.insert r valued.touched }
  let checked := marked.declareChecking
  (checked.trace .simplex fun _ => "added " ++ r.text ++ ": " ++ checked.rowText r, r)

/-- Adds the row `base = Σ coeff · v`. The base must be a variable that occurs in no row. -/
def addRow (e : Engine) (base : Var) (entries : List (Var × Rat)) :
    Except EngineError (Engine × RowId) := do
  e.requireVar base
  e.requireEntries base entries
  if !e.tableau.isFresh base then throw (.baseNotFresh base)
  return e.placeRow base (.ofEntries entries)

/-- Adds a variable together with the row that defines it. -/
def mkLinear (e : Engine) (sort : NumSort) (term : Term) (entries : List (Var × Rat)) :
    Except EngineError (Engine × Var) := do
  entries.forM fun entry => e.requireVar entry.1
  let (added, base) := e.mkVar sort term
  let (next, _) ← added.addRow base entries
  return (next, base)

/-! ## Monomials -/

/-- The sort of a number computed from variables of integer sort only, or from others too. -/
def jointSort (e : Engine) (vs : List Var) : NumSort :=
  if vs.all e.isInt then .int else .real

/-- The monomial that a variable stands for. -/
def monomial? (e : Engine) (v : Var) : Option Monomial :=
  e.monomials.find? fun m => m.var == v

/-- Adds a variable that stands for the product of the sorted factors. -/
def placeMonomial (e : Engine) (sorted : List Var) : Engine × Var :=
  let (added, v) := e.mkVar (e.jointSort sorted) .internal
  let traced := added.trace .nonlinear fun _ =>
    v.text ++ " = " ++ "·".intercalate (sorted.map added.varName)
  ({ traced with monomials := traced.monomials ++ [Monomial.mk v sorted] }, v)

/-- The variable that stands for a product, new unless the product has one already. -/
def mkMonomial (e : Engine) (factors : List Var) : Except EngineError (Engine × Var) := do
  if factors.length < 2 then throw (.degenerateMonomial factors.length)
  factors.forM e.requireVar
  let sorted := factors.mergeSort fun v w => v ≤ w
  match e.monomials.find? fun m => m.factors == sorted with
  | some m => return (e, m.var)
  | none => return e.placeMonomial sorted

/-! ## Atoms and literals -/

/-- The atom of a fact. A new atom is handed out at once if the active bounds decide it. -/
def internAtom (e : Engine) (v : Var) (kind : BoundKind) (threshold : Rat) : Engine × Literal :=
  match e.atoms.find? v kind threshold with
  | some a => (e, .positive a)
  | none =>
    let a := e.atoms.atoms.size
    (({ e with atoms := e.atoms.add v kind threshold }).propagateAtom a, .positive a)

/-- The literal that says `v >= threshold` or `v <= threshold`. -/
def mkAtom (e : Engine) (v : Var) (kind : BoundKind) (threshold : Rat) :
    Except EngineError (Engine × Literal) := do
  e.requireVar v
  return e.internAtom v kind threshold

/-- Asserts a literal. Its bound is installed by the next propagation, in the order of assertion. A
literal whose negation was asserted before is a conflict. -/
def assertLiteral (e : Engine) (l : Literal) : Except EngineError Engine :=
  if (e.atoms.get? l.atom).isNone then .error (.unknownLiteral l)
  else
    match e.atoms.assign l with
    | .queued atoms =>
      .ok (({ e with atoms := atoms }).trace .atoms fun _ => "asserted " ++ l.text)
    | .redundant => .ok e
    | .conflicting =>
      let (first, asserted) := e.dependencies.mkLiteral l
      let (second, opposite) := first.mkLiteral l.negate
      let (joined, conflict) := ({ e with dependencies := second }).joinReasons [asserted, opposite]
      .ok (joined.setConflict conflict)

/-- Asserts `v >= k` and `v <= k`, and answers with their literals. -/
def assertEq (e : Engine) (v : Var) (value : Rat) :
    Except EngineError (Engine × Literal × Literal) := do
  let (e, lower) ← e.mkAtom v .lower value
  let (e, upper) ← e.mkAtom v .upper value
  let e ← e.assertLiteral lower
  let e ← e.assertLiteral upper
  return (e, lower, upper)

/-! ## Unconditional bounds and equalities -/

/-- Installs a bound that holds unconditionally: no explanation mentions it. -/
def assertGiven (e : Engine) (v : Var) (kind : BoundKind) (value : InfRat) :
    Except EngineError Engine := do
  e.requireVar v
  let noted := { e with given := e.given ++ [GivenBound.mk v kind value] }
  return (noted.installBound v kind value none .given).1

/-- Fixes the difference of two variables to zero. Explanations mention the pair. -/
def fixDifference (e : Engine) (difference left right : Var) : Engine :=
  let (arena, reason) := e.dependencies.mkEquality left right
  let noted := { e with dependencies := arena }
  (forEach (fun e kind => e.installBound difference kind 0 reason .derived)
    [.lower, .upper] noted).1

/-- Asserts that two variables are equal: their difference is a new variable fixed to zero. -/
def assertVarEq (e : Engine) (left right : Var) : Except EngineError Engine := do
  e.requireVar left
  e.requireVar right
  if left = right then return e
  let (added, difference) := e.mkVar (e.jointSort [left, right]) .internal
  let (withRow, _) ← added.addRow difference [(left, 1), (right, -1)]
  return withRow.fixDifference difference left right

/-! ## Consequences -/

/-- Takes the oldest entailed literal. -/
def nextPropagation (e : Engine) : Engine × Option Propagation :=
  ({ e with propagations := e.propagations.tail }, e.propagations.head?)

/-- Takes the oldest reported equality. -/
def nextEquality (e : Engine) : Engine × Option EqualityReport :=
  ({ e with equalities := e.equalities.tail }, e.equalities.head?)

end ArithDecide.Engine
