import ArithDecide.Guarded.Failure
import ArithDecide.Storage.Session

/-!
# The guarded store

The operations of the sparse tableau with their conditions checked: removed terms are there, no row is
substituted in itself or mentions its own base, squashing moves entries to earlier positions, a pivot is
on a nonzero term of its row, a row that is taken back is the last one and forgotten columns are empty.
-/

namespace ArithDecide

namespace SparseTableau.Guarded

/-! ## Entries -/

def insertTerm (t : SparseTableau) (r : RowId) (v : Var) (coeff : Rat) :
    Except Failure (Nat × SparseTableau) := do
  demand (r < t.rows.size ∧ v < t.columns.size) .outOfRange
  return t.insertTerm r v coeff

def removeTerm (t : SparseTableau) (r : RowId) (i : Nat) : Except Failure (Rat × SparseTableau) := do
  demand ((t.term? r i).isSome = true) .deadEntry
  return t.removeTerm r i

def compactRow (t : SparseTableau) (r : RowId) : Except Failure SparseTableau :=
  match t.rows[r]? with
  | none => .error .outOfRange
  | some row => do
    demand (∀ move ∈ row.slots.compact.1, move.2 ≤ move.1) .movedBack
    return t.compactRow r

def clearRow (t : SparseTableau) (r : RowId) : Except Failure SparseTableau :=
  (t.positions r).foldlM (fun t i => do return (← removeTerm t r i).2) t

def fillRow (t : SparseTableau) (r : RowId) (terms : List (Var × Rat)) :
    Except Failure SparseTableau :=
  terms.foldlM (fun t term => do return (← insertTerm t r term.1 term.2).2) t

/-! ## Substitution -/

def addTerm (target : RowId) (factor : Rat) (acc : SparseTableau × PositionMap)
    (term : Var × Rat) : Except Failure (SparseTableau × PositionMap) :=
  let (t, positions) := acc
  let delta := factor * term.2
  match positions.lookup term.1 with
  | some i =>
    match t.term? target i with
    | none => .error .deadEntry
    | some entry =>
      let added := t.modifyTerm target i fun entry => { entry with coeff := entry.coeff + delta }
      if entry.coeff + delta = 0 then do
        let (_, removed) ← removeTerm added target i
        return (removed, positions.filter fun position => position.1 ≠ term.1)
      else return (added, positions)
  | none => do
    demand (∀ row ∈ t.rows[target]?, term.1 ≠ row.base) .ownBase
    let (i, inserted) ← insertTerm t target term.1 delta
    return (inserted, (term.1, i) :: positions)

def substitute (t : SparseTableau) (target : RowId) (i : Nat) (source : RowId) :
    Except Failure SparseTableau := do
  let (factor, removed) ← removeTerm t target i
  match removed.rows[source]? with
  | none => .error .outOfRange
  | some row =>
    let (added, _) ← row.terms.foldlM (addTerm target factor) (removed, removed.positionMap target)
    compactRow added target

/-! ## The operations -/

def addRow (t : SparseTableau) (base : Var) (entries : List (Var × Rat)) :
    Except Failure SparseTableau := do
  demand (t.isFresh base = true) .baseInUse
  demand (∀ entry ∈ entries, entry.1 ≠ base) .ownBase
  let r := t.rows.size
  let merged := entries.foldl mergeEntry []
  let started := { t with rows := t.rows.push ⟨base, .empty, true⟩ }
  let filled ← fillRow started r (merged.filter fun entry => entry.2 ≠ 0)
  return { filled with baseRow := filled.baseRow.setIfInBounds base (some r) }.record (.addRow r)

def reduceRow (r : RowId) : Nat → SparseTableau → Except Failure (SparseTableau × Bool)
  | 0, t => .ok (t, false)
  | count + 1, t =>
    match t.baseTerm? r with
    | none => .ok (t, false)
    | some (i, source) => do
      let replaced ← substitute t r i source
      let (reduced, _) ← reduceRow r count replaced
      return (reduced, true)

def normalize (t : SparseTableau) (r : RowId) : Except Failure (SparseTableau × Bool) :=
  match (t.rows[r]?).filter SparseRow.pending with
  | none => .ok (t, false)
  | some row => do
    let (reduced, changed) ← reduceRow r (Nat.pow 2 r) t
    let settled := { reduced with
      rows := reduced.rows.modify r fun row => { row with pending := false } }
    return (settled.record (.normalize r row.sortedTerms), changed)

def pivotRow (t : SparseTableau) (r : RowId) (entering : Var) : Except Failure SparseTableau :=
  match t.rows[r]? with
  | none => .error .outOfRange
  | some row =>
    match row.positionOf? entering with
    | none => .error .notInRow
    | some i => do
      let (coeff, removed) ← removeTerm t r i
      demand (coeff ≠ 0) .zeroPivot
      let inverse := 1 / coeff
      let scaled := { removed with
        rows := removed.rows.modify r fun row =>
          { row with slots := row.slots.map fun entry =>
            { entry with coeff := entry.coeff * -inverse } } }
      let (_, solved) ← insertTerm scaled r row.base inverse
      let exchanged := { solved with
        rows := solved.rows.modify r fun row => { row with base := entering }
        baseRow := (solved.baseRow.setIfInBounds row.base none).setIfInBounds entering (some r) }
      match exchanged.columns[entering]? with
      | none => .error .outOfRange
      | some column =>
        column.live.foldlM (fun t target => do
          demand (target.2.row ≠ r) .ownRow
          substitute t target.2.row target.2.rowIndex r) exchanged

def pivot (t : SparseTableau) (r : RowId) (entering : Var) : Except Failure SparseTableau :=
  match t.rows[r]? with
  | none => .error .outOfRange
  | some row => do
    let pivoted ← pivotRow t r entering
    return pivoted.record (.pivot r row.base)

/-! ## Going back -/

def removeLastRow (t : SparseTableau) (r : RowId) : Except Failure SparseTableau := do
  demand (r + 1 = t.rows.size) .notLastRow
  let cleared ← clearRow t r
  match t.rows[r]? with
  | none => .error .outOfRange
  | some row =>
    return { cleared with
      baseRow := cleared.baseRow.setIfInBounds row.base none
      rows := cleared.rows.pop }

def replaceTerms (t : SparseTableau) (r : RowId) (terms : List (Var × Rat)) :
    Except Failure SparseTableau := do
  let cleared ← clearRow t r
  let filled ← fillRow cleared r terms
  return { filled with rows := filled.rows.modify r fun row => { row with pending := true } }

def undo (t : SparseTableau) : SparseChange → Except Failure SparseTableau
  | .addRow r => removeLastRow t r
  | .pivot r leaving => pivotRow t r leaving
  | .normalize r terms => replaceTerms t r terms

def undoTo (t : SparseTableau) (length : Nat) : Except Failure SparseTableau := do
  let undone ← (t.trail.take (t.trail.length - length)).foldlM undo t
  return { undone with trail := t.trail.drop (t.trail.length - length) }

def truncateVars (t : SparseTableau) (count : Nat) : Except Failure SparseTableau := do
  demand (∀ column ∈ t.columns.toList.drop count, column.size = 0) .columnInUse
  return t.truncateVars count

end SparseTableau.Guarded

namespace TableauSession.Guarded

open SparseTableau

/-- The session after a call. -/
def step (s : TableauSession) : TableauCall → Except Failure TableauSession
  | .addVar => .ok (s.step .addVar)
  | .addRow base entries => do
    let store ← SparseTableau.Guarded.addRow s.store base entries
    return { s with store := store, given := s.given ++ [⟨base, entries⟩] }
  | .normalize r => do
    let (store, _) ← SparseTableau.Guarded.normalize s.store r
    return { s with store := store }
  | .pivot r entering => do
    let store ← SparseTableau.Guarded.pivot s.store r entering
    return { s with store := store }
  | .enter => .ok (s.step .enter)
  | .leave =>
    match s.scopes with
    | [] => .ok s
    | (length, numVars) :: outer => do
      let rewound ← SparseTableau.Guarded.undoTo s.store length
      let truncated ← SparseTableau.Guarded.truncateVars rewound numVars
      return {
        store := truncated.setRecording !outer.isEmpty
        scopes := outer
        given := s.given.take rewound.rows.size }

end TableauSession.Guarded

/-- A computation that may fail and that carries a store along. -/
abbrev Guarded := StateT TableauSession (Except Failure)

/-- Makes a call of the store. -/
def Guarded.ask (call : TableauCall) : Guarded Unit := fun s => do
  let next ← TableauSession.Guarded.step s call
  return ((), next)

end ArithDecide
