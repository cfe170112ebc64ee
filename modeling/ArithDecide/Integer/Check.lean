import ArithDecide.Integer.Branching
import ArithDecide.Integer.DivisibilityTest
import ArithDecide.Integer.GomoryCut

/-!
# Integer reasoning

Once the rational relaxation is feasible, rows without integer solutions are looked for, then
fractional values are patched, then, every few checks, a cut is added, and otherwise a case split is
asked for.
-/

namespace ArithDecide

/-- What integer reasoning came to. -/
inductive IntegerOutcome where
  /-- Every integer variable has an integral value. -/
  | feasible
  /-- There is no integer solution. -/
  | conflict
  /-- A cut was added and the assignment has to be repaired. -/
  | cutAdded
  | branch (split : CaseSplit)
  /-- Some value is fractional, but no split could be made. -/
  | giveUp
  deriving DecidableEq, Inhabited

namespace Engine

/-- Whether this integer check may add a cut after `cuts` cuts of the same check. -/
def mayCut (e : Engine) (cuts : Nat) : Bool :=
  0 < e.options.branchCutRatio && e.integerChecks % e.options.branchCutRatio = 0 &&
    cuts < e.options.maxGomoryCuts

/-- The first row from which a cut can be made. -/
def cutSource? (e : Engine) : Option (RowId × Row) :=
  let entries := e.tableau.rowIds.filterMap fun r => (e.tableau.get? r).map fun row => (r, row)
  entries.find? fun entry => e.isCutSource entry.2

/-- Asks for a case split. -/
def askBranch (e : Engine) : Engine × IntegerOutcome :=
  match e.selectBranch with
  | (next, some split) => (next, .branch split)
  | (next, none) => (next, .giveUp)

/-- Adds a cut if that is allowed and possible, else asks for a case split. -/
def cutOrBranch (e : Engine) (cuts : Nat) : Engine × IntegerOutcome :=
  match (if e.mayCut cuts then e.cutSource? else none) with
  | none => e.askBranch
  | some (r, row) =>
    match e.addCut r (e.cutOf row) with
    | (next, true) => (next, .cutAdded)
    | (next, false) => (next, .conflict)

/-- Integer reasoning after `cuts` cuts of the same check. -/
def checkIntegers (e : Engine) (cuts : Nat) : Engine × IntegerOutcome :=
  if e.fractionalVars.isEmpty then (e, .feasible)
  else
    let counted := { e with integerChecks := e.integerChecks + 1 }
    match forEach testDivisibility counted.tableau.rowIds counted with
    | (tested, false) => (tested, .conflict)
    | (tested, true) =>
      let patched := tested.patchIntegers
      if patched.fractionalVars.isEmpty then (patched, .feasible) else patched.cutOrBranch cuts

end Engine

end ArithDecide
