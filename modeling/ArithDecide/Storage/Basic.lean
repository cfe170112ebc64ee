import ArithDecide.Storage.Slots
import ArithDecide.Tableau

/-!
# How the tableau is stored

The rows are sparse: a row has slots for its terms, and a column has slots for the rows that a variable
occurs in. A term and its column entry know each other's position. `SparseTableau.view` is the tableau
that is stored. Removed entries leave tombstones, which are squashed out once a row or column holds too
many of them.
-/

namespace ArithDecide

/-- A term of a row. -/
structure RowEntry where
  var : Var
  coeff : Rat
  /-- The position of the paired entry in the column of the variable. -/
  columnIndex : Nat
  deriving DecidableEq, Inhabited

/-- A place where a variable occurs. -/
structure ColumnEntry where
  row : RowId
  /-- The position of the paired term in the row. -/
  rowIndex : Nat
  deriving DecidableEq, Inhabited

/-- The equation that the base equals the sum of the terms. -/
structure SparseRow where
  base : Var
  slots : Slots RowEntry
  pending : Bool
  deriving DecidableEq, Inhabited

namespace SparseRow

/-- The terms, in the order of their positions. -/
def terms (row : SparseRow) : List (Var × Rat) :=
  row.slots.live.map fun entry => (entry.2.var, entry.2.coeff)

/-- The terms, in the order of their variables. -/
def sortedTerms (row : SparseRow) : List (Var × Rat) :=
  row.terms.mergeSort fun s t => s.1 ≤ t.1

/-- The position of the term of a variable. -/
def positionOf? (row : SparseRow) (v : Var) : Option Nat :=
  (row.slots.live.find? fun entry => entry.2.var == v).map Prod.fst

/-- The row that is stored. -/
def view (row : SparseRow) : Row := ⟨row.base, .ofEntries row.terms, row.pending⟩

end SparseRow

/-- A change of the tableau, with what is needed to take it back. -/
inductive SparseChange where
  | addRow (r : RowId)
  | pivot (r : RowId) (leaving : Var)
  | normalize (r : RowId) (terms : List (Var × Rat))
  deriving DecidableEq

def SparseChange.view : SparseChange → TableauChange
  | .addRow _ => .addRow
  | .pivot r leaving => .pivot r leaving
  | .normalize r terms => .normalize r (.ofEntries terms)

/-- Rows and columns that index each other. -/
structure SparseTableau where
  rows : Array SparseRow
  columns : Array (Slots ColumnEntry)
  /-- The row that each variable heads. -/
  baseRow : Array (Option RowId)
  /-- The recorded changes, latest first. -/
  trail : List SparseChange
  recording : Bool
  /-- How many tombstones are allowed for a hundred entries. -/
  deadEntryRatio : Nat
  deriving DecidableEq, Inhabited

namespace SparseTableau

/-- The tableau without variables and rows. -/
def empty (deadEntryRatio : Nat) : SparseTableau := ⟨#[], #[], #[], [], false, deadEntryRatio⟩

/-- The tableau that is stored. -/
def view (t : SparseTableau) : Tableau where
  rows := t.rows.map SparseRow.view
  trail := t.trail.map SparseChange.view
  recording := t.recording

/-! ## Variables -/

def numVars (t : SparseTableau) : Nat := t.columns.size

def addVar (t : SparseTableau) : SparseTableau :=
  { t with columns := t.columns.push .empty, baseRow := t.baseRow.push none }

/-- Forgets the variables from a number on. -/
def truncateVars (t : SparseTableau) (count : Nat) : SparseTableau :=
  { t with columns := t.columns.take count, baseRow := t.baseRow.take count }

/-- The row that a variable heads. -/
def rowOf? (t : SparseTableau) (v : Var) : Option RowId := (t.baseRow[v]?).join

/-- A variable can head a new row if it heads none and its column is empty. -/
def isFresh (t : SparseTableau) (v : Var) : Bool :=
  (t.rowOf? v).isNone && (t.columns[v]?).any fun column => column.size == 0

/-! ## Entries -/

/-- The term at a position of a row. -/
def term? (t : SparseTableau) (r : RowId) (i : Nat) : Option RowEntry :=
  (t.rows[r]?).bind fun row => row.slots.get? i

/-- The entry at a position of a column. -/
def place? (t : SparseTableau) (v : Var) (i : Nat) : Option ColumnEntry :=
  (t.columns[v]?).bind fun column => column.get? i

/-- Changes the term at a position of a row. -/
def modifyTerm (t : SparseTableau) (r : RowId) (i : Nat) (change : RowEntry → RowEntry) :
    SparseTableau :=
  { t with rows := t.rows.modify r fun row => { row with slots := row.slots.modify i change } }

/-- Changes the entry at a position of a column. -/
def modifyPlace (t : SparseTableau) (v : Var) (i : Nat) (change : ColumnEntry → ColumnEntry) :
    SparseTableau :=
  { t with columns := t.columns.modify v fun column => column.modify i change }

/-- Adds a term to a row; the answer is its position. -/
def insertTerm (t : SparseTableau) (r : RowId) (v : Var) (coeff : Rat) : Nat × SparseTableau :=
  match t.rows[r]?, t.columns[v]? with
  | some row, some column =>
    let (rowIndex, slots) := row.slots.insert ⟨v, coeff, 0⟩
    let (columnIndex, places) := column.insert ⟨r, rowIndex⟩
    let inserted := { t with
      rows := t.rows.setIfInBounds r { row with slots := slots }
      columns := t.columns.setIfInBounds v places }
    (rowIndex, inserted.modifyTerm r rowIndex fun entry => { entry with columnIndex := columnIndex })
  | _, _ => (0, t)

/-- Whether tombstones are to be squashed out. -/
def isSparse (t : SparseTableau) (size dead : Nat) : Bool :=
  4 < dead && t.deadEntryRatio * size < dead * 100

/-- Tells the term that is paired with an entry of a column where the entry is. -/
def repointTerm (v : Var) (t : SparseTableau) (move : Nat × Nat) : SparseTableau :=
  match t.place? v move.2 with
  | none => t
  | some place =>
    t.modifyTerm place.row place.rowIndex fun entry => { entry with columnIndex := move.2 }

/-- Squashes out the tombstones of a column if there are many. -/
def compactColumn (t : SparseTableau) (v : Var) : SparseTableau :=
  match t.columns[v]? with
  | none => t
  | some column =>
    if t.isSparse column.size column.numDead then
      let (moves, compacted) := column.compact
      moves.foldl (repointTerm v) { t with columns := t.columns.setIfInBounds v compacted }
    else t

/-- Tells the column entry that is paired with a term of a row where the term is. -/
def repointPlace (r : RowId) (t : SparseTableau) (move : Nat × Nat) : SparseTableau :=
  match t.term? r move.2 with
  | none => t
  | some entry =>
    t.modifyPlace entry.var entry.columnIndex fun place => { place with rowIndex := move.2 }

/-- Squashes out the tombstones of a row if there are many. -/
def compactRow (t : SparseTableau) (r : RowId) : SparseTableau :=
  match t.rows[r]? with
  | none => t
  | some row =>
    if t.isSparse row.slots.size row.slots.numDead then
      let (moves, compacted) := row.slots.compact
      moves.foldl (repointPlace r)
        { t with rows := t.rows.setIfInBounds r { row with slots := compacted } }
    else t

/-- Removes the term at a position of a row; the answer is its coefficient. -/
def removeTerm (t : SparseTableau) (r : RowId) (i : Nat) : Rat × SparseTableau :=
  match t.term? r i with
  | none => (0, t)
  | some entry =>
    let removed := { t with
      rows := t.rows.modify r fun row => { row with slots := row.slots.kill i }
      columns := t.columns.modify entry.var fun column => column.kill entry.columnIndex }
    (entry.coeff, removed.compactColumn entry.var)

/-- The positions of the terms of a row. -/
def positions (t : SparseTableau) (r : RowId) : List Nat :=
  match t.rows[r]? with
  | none => []
  | some row => row.slots.live.map Prod.fst

/-- Removes all terms of a row. -/
def clearRow (t : SparseTableau) (r : RowId) : SparseTableau :=
  (t.positions r).foldl (fun t i => (t.removeTerm r i).2) t

/-- Adds terms to a row. -/
def fillRow (t : SparseTableau) (r : RowId) (terms : List (Var × Rat)) : SparseTableau :=
  terms.foldl (fun t term => (t.insertTerm r term.1 term.2).2) t

/-! ## Substitution -/

/-- Where the terms of a row are, by variable. -/
abbrev PositionMap := List (Var × Nat)

def positionMap (t : SparseTableau) (r : RowId) : PositionMap :=
  match t.rows[r]? with
  | none => []
  | some row => row.slots.live.map fun entry => (entry.2.var, entry.1)

/-- Adds a multiple of a term to a row: to the term of the same variable, which is removed when they
cancel, or as a new one. -/
def addTerm (target : RowId) (factor : Rat) (acc : SparseTableau × PositionMap)
    (term : Var × Rat) : SparseTableau × PositionMap :=
  let (t, positions) := acc
  let delta := factor * term.2
  match positions.lookup term.1 with
  | some i =>
    match t.term? target i with
    | none => (t, positions)
    | some entry =>
      let added := t.modifyTerm target i fun entry => { entry with coeff := entry.coeff + delta }
      if entry.coeff + delta = 0 then
        ((added.removeTerm target i).2, positions.filter fun position => position.1 ≠ term.1)
      else (added, positions)
  | none =>
    let (i, inserted) := t.insertTerm target term.1 delta
    (inserted, (term.1, i) :: positions)

/-- Replaces the variable at a position of a row by the terms of the row that it heads. -/
def substitute (t : SparseTableau) (target : RowId) (i : Nat) (source : RowId) : SparseTableau :=
  let (factor, removed) := t.removeTerm target i
  let terms := ((removed.rows[source]?).map SparseRow.terms).getD []
  let (added, _) := terms.foldl (addTerm target factor) (removed, removed.positionMap target)
  added.compactRow target

/-! ## The operations -/

/-- Writes a change to the trail if changes are recorded. -/
def record (t : SparseTableau) (change : SparseChange) : SparseTableau :=
  if t.recording then { t with trail := change :: t.trail } else t

def setRecording (t : SparseTableau) (recording : Bool) : SparseTableau :=
  { t with recording := recording }

/-- Adds an entry to that of the same variable, or as a new one. -/
def mergeEntry (merged : List (Var × Rat)) (entry : Var × Rat) : List (Var × Rat) :=
  if merged.any fun other => other.1 == entry.1 then
    merged.map fun other =>
      if other.1 = entry.1 then (other.1, other.2 + entry.2) else other
  else merged ++ [entry]

/-- Adds a row: the entries of one variable are merged and zeros are dropped. -/
def addRow (t : SparseTableau) (base : Var) (entries : List (Var × Rat)) : SparseTableau :=
  let r := t.rows.size
  let merged := entries.foldl mergeEntry []
  let started := { t with rows := t.rows.push ⟨base, .empty, true⟩ }
  let filled := started.fillRow r (merged.filter fun entry => entry.2 ≠ 0)
  { filled with baseRow := filled.baseRow.setIfInBounds base (some r) }.record (.addRow r)

/-- The first term of a row whose variable heads another row, and that row. -/
def baseTerm? (t : SparseTableau) (r : RowId) : Option (Nat × RowId) := do
  let row ← t.rows[r]?
  row.slots.live.findSome? fun entry =>
    ((t.rowOf? entry.2.var).filter fun source => source ≠ r).map fun source => (entry.1, source)

/-- Substitutes bases in a row until none is left or a number of substitutions is used up; the second
answer is whether any was made. -/
def reduceRow (r : RowId) : Nat → SparseTableau → SparseTableau × Bool
  | 0, t => (t, false)
  | count + 1, t =>
    match t.baseTerm? r with
    | none => (t, false)
    | some (i, source) => ((reduceRow r count (t.substitute r i source)).1, true)

/-- Puts a pending row into reduced form; the second answer is whether that changed it. A substituted
base brings in bases of rows before its own only, so there are fewer than `2 ^ r` substitutions. -/
def normalize (t : SparseTableau) (r : RowId) : SparseTableau × Bool :=
  match (t.rows[r]?).filter SparseRow.pending with
  | none => (t, false)
  | some row =>
    let (reduced, changed) := reduceRow r (Nat.pow 2 r) t
    let settled := { reduced with
      rows := reduced.rows.modify r fun row => { row with pending := false } }
    (settled.record (.normalize r row.sortedTerms), changed)

/-- Exchanges the base of a row with one of its variables and replaces that variable in all other rows.
-/
def pivotRow (t : SparseTableau) (r : RowId) (entering : Var) : SparseTableau :=
  match t.rows[r]? with
  | none => t
  | some row =>
    match row.positionOf? entering with
    | none => t
    | some i =>
      let (coeff, removed) := t.removeTerm r i
      let inverse := 1 / coeff
      let scaled := { removed with
        rows := removed.rows.modify r fun row =>
          { row with slots := row.slots.map fun entry =>
            { entry with coeff := entry.coeff * -inverse } } }
      let (_, solved) := scaled.insertTerm r row.base inverse
      let exchanged := { solved with
        rows := solved.rows.modify r fun row => { row with base := entering }
        baseRow := (solved.baseRow.setIfInBounds row.base none).setIfInBounds entering (some r) }
      let targets := ((exchanged.columns[entering]?).map Slots.live).getD []
      targets.foldl (fun t target => t.substitute target.2.row target.2.rowIndex r) exchanged

/-- Exchanges the base of a row with one of its variables, and records that. -/
def pivot (t : SparseTableau) (r : RowId) (entering : Var) : SparseTableau :=
  match t.rows[r]? with
  | none => t
  | some row => (t.pivotRow r entering).record (.pivot r row.base)

/-! ## Going back -/

/-- Removes the latest row. -/
def removeLastRow (t : SparseTableau) (r : RowId) : SparseTableau :=
  let cleared := t.clearRow r
  match t.rows[r]? with
  | none => cleared
  | some row =>
    { cleared with
      baseRow := cleared.baseRow.setIfInBounds row.base none
      rows := cleared.rows.pop }

/-- Gives a row other terms and makes it pending. -/
def replaceTerms (t : SparseTableau) (r : RowId) (terms : List (Var × Rat)) : SparseTableau :=
  let filled := (t.clearRow r).fillRow r terms
  { filled with rows := filled.rows.modify r fun row => { row with pending := true } }

/-- Takes back a change. -/
def undo (t : SparseTableau) : SparseChange → SparseTableau
  | .addRow r => t.removeLastRow r
  | .pivot r leaving => t.pivotRow r leaving
  | .normalize r terms => t.replaceTerms r terms

/-- Takes back all changes since the trail had a length, the latest one first. -/
def undoTo (t : SparseTableau) (length : Nat) : SparseTableau :=
  { (t.trail.take (t.trail.length - length)).foldl undo t with
    trail := t.trail.drop (t.trail.length - length) }

/-! ## Checking -/

/-- Whether a row is found by its base, its terms are paired with column entries and not zero, and it
mentions no base unless it is pending. -/
def isConsistentRow (t : SparseTableau) (r : RowId) (row : SparseRow) : Bool :=
  t.rowOf? row.base == some r && row.slots.live.all fun (i, entry) =>
    t.place? entry.var entry.columnIndex == some ⟨r, i⟩ && entry.coeff != 0 &&
      (row.pending || (t.rowOf? entry.var).isNone)

/-- Whether the entries of a column are paired with terms of its variable. -/
def isConsistentColumn (t : SparseTableau) (v : Var) (column : Slots ColumnEntry) : Bool :=
  column.live.all fun (k, place) => (t.term? place.row place.rowIndex).any fun entry =>
    entry.var == v && entry.columnIndex == k

/-- Whether rows and columns mirror each other and the rows that are not pending are in reduced form. -/
def isConsistent (t : SparseTableau) : Bool :=
  t.rows.toList.zipIdx.all (fun (row, r) => t.isConsistentRow r row) &&
    t.columns.toList.zipIdx.all fun (column, v) => t.isConsistentColumn v column

end SparseTableau

end ArithDecide
