import ArithDecide.Engine.FixedEqualities
import ArithDecide.Engine.ImpliedBounds

/-!
# Propagation

`propagate` installs the bounds of the asserted literals in their order of arrival, repairs the
assignment over the rationals and derives consequences. It answers false when there is a conflict.
-/

namespace ArithDecide.Engine

/-- Installs the bound of an asserted literal. -/
def installLiteral (e : Engine) (l : Literal) : Engine × Bool :=
  match e.atoms.get? l.atom with
  | none => (e, true)
  | some atom =>
    let (kind, value) := atom.bound l.negative
    let (arena, reason) := e.dependencies.mkLiteral l
    ({ e with dependencies := arena }).installBound atom.var kind value reason (.literal l)

/-- Installs the bounds of the next `count` queued literals; a literal leaves the queue even when
its bound is a conflict, which ends the installing. -/
def installQueued : Nat → Engine → Engine × Bool
  | 0, e => (e, true)
  | count + 1, e =>
    match e.atoms.next? with
    | none => (e, true)
    | some (l, atoms) =>
      match ({ e with atoms := atoms }).installLiteral l with
      | (next, true) => installQueued count next
      | (next, false) => (next, false)

/-- Derives bounds from the touched rows and repairs the assignment again if they moved it. -/
def propagateRows (e : Engine) : Engine × Bool :=
  if !e.options.propagateBounds || e.touched.isEmpty then (e, true)
  else
    match e.propagateImpliedBounds with
    | (next, true) => if next.toPatch.isEmpty then (next, true) else next.makeFeasible
    | (next, false) => (next, false)

/-- Installs what was asserted, repairs the assignment and derives consequences. -/
def propagate (e : Engine) : Engine × Bool :=
  if e.isInfeasible then (e, false)
  else
    let normal := e.normalizePendingRows
    match installQueued normal.atoms.queued.length normal with
    | (installed, true) =>
      match installed.makeFeasible with
      | (feasible, true) =>
        match feasible.propagateRows with
        | (next, true) => (next.propagateFixedEqualities, true)
        | (next, false) => (next, false)
      | (feasible, false) => (feasible, false)
    | (installed, false) => (installed, false)

end ArithDecide.Engine
