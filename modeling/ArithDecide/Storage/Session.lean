import ArithDecide.Storage.Basic

/-!
# Sessions of the store

What is asked of the tableau: variables and rows are added, rows are normalized and pivoted, and scopes are
entered and left. Entering a scope switches recording on and notes the length of the trail and the
number of variables; leaving it takes back the changes made since, forgets the variables added since,
and records on only if another scope is open.

A session keeps, beside the store, the equations that were passed for the rows that are present, as they
were passed. `PlainSession` is the same for the tableau that the engine works with.
-/

namespace ArithDecide

/-- An equation as it is passed: the base equals the sum of the entries, which may be in any order, name
a variable more than once and have zeros. -/
structure Equation where
  base : Var
  entries : List (Var × Rat)
  deriving DecidableEq, Inhabited

def Equation.Holds (equation : Equation) (α : Var → Rat) : Prop :=
  α equation.base = total (equation.entries.map fun entry => entry.2 * α entry.1)

/-- The equations of all rows hold, read off the terms that are stored. -/
def SparseTableau.Holds (t : SparseTableau) (α : Var → Rat) : Prop :=
  ∀ row ∈ t.rows, α row.base = total (row.terms.map fun term => term.2 * α term.1)

/-- What is asked of a tableau. -/
inductive TableauCall where
  | addVar
  | addRow (base : Var) (entries : List (Var × Rat))
  | normalize (r : RowId)
  | pivot (r : RowId) (entering : Var)
  /-- Enters a scope. -/
  | enter
  /-- Leaves the innermost scope. -/
  | leave
  deriving DecidableEq

/-- A store with its open scopes and the equations of its rows. -/
structure TableauSession where
  store : SparseTableau
  /-- The length of the trail and the number of variables when each open scope was entered, innermost
  first. -/
  scopes : List (Nat × Nat)
  /-- The equations passed for the rows that are present, in the order of the rows. -/
  given : List Equation
  deriving DecidableEq

namespace TableauSession

def start (deadEntryRatio : Nat) : TableauSession := ⟨.empty deadEntryRatio, [], []⟩

/-- What the engine checks before it makes a call: the base of a new row is fresh and not mentioned by
it, the variables of the row exist, and a pivot is on a term of a row when no row is pending. -/
def allows (s : TableauSession) : TableauCall → Bool
  | .addVar | .normalize _ | .enter => true
  | .addRow base entries => s.store.isFresh base &&
      entries.all fun entry => entry.1 != base && decide (entry.1 < s.store.numVars)
  | .pivot r entering => s.store.rows.all (fun row => !row.pending) &&
      (s.store.rows[r]?).any fun row => (row.positionOf? entering).isSome
  | .leave => !s.scopes.isEmpty

def step (s : TableauSession) : TableauCall → TableauSession
  | .addVar => { s with store := s.store.addVar }
  | .addRow base entries =>
    { s with store := s.store.addRow base entries, given := s.given ++ [⟨base, entries⟩] }
  | .normalize r => { s with store := (s.store.normalize r).1 }
  | .pivot r entering => { s with store := s.store.pivot r entering }
  | .enter =>
    { s with
      store := s.store.setRecording true
      scopes := (s.store.trail.length, s.store.numVars) :: s.scopes }
  | .leave =>
    match s.scopes with
    | [] => s
    | (length, numVars) :: outer =>
      let rewound := s.store.undoTo length
      { store := (rewound.truncateVars numVars).setRecording !outer.isEmpty
        scopes := outer
        given := s.given.take rewound.rows.size }

def run (s : TableauSession) (calls : List TableauCall) : TableauSession := calls.foldl step s

/-- Every call is made when it is allowed. -/
def allowsAll : TableauSession → List TableauCall → Bool
  | _, [] => true
  | s, call :: rest => s.allows call && allowsAll (s.step call) rest

end TableauSession

/-- The tableau that the engine works with, and the lengths of the trail when its open scopes were
entered. -/
structure PlainSession where
  tableau : Tableau
  marks : List Nat
  deriving DecidableEq

namespace PlainSession

def start : PlainSession := ⟨.empty, []⟩

def step (s : PlainSession) : TableauCall → PlainSession
  | .addVar => s
  | .addRow base entries => { s with tableau := s.tableau.addRow base (.ofEntries entries) }
  | .normalize r => { s with tableau := s.tableau.normalize r }
  | .pivot r entering => { s with tableau := s.tableau.pivot r entering }
  | .enter => ⟨{ s.tableau with recording := true }, s.tableau.trail.length :: s.marks⟩
  | .leave =>
    match s.marks with
    | [] => s
    | length :: outer => ⟨{ s.tableau.undoTo length with recording := !outer.isEmpty }, outer⟩

def run (s : PlainSession) (calls : List TableauCall) : PlainSession := calls.foldl step s

end PlainSession

end ArithDecide
