import ArithDecide.Engine.Bounds
import ArithDecide.Proofs.BoundStore
import ArithDecide.Proofs.Dependency
import ArithDecide.Proofs.Tableau

/-!
# What the engine's state says

A rational assignment solves a state when it gives integers to the integer variables and satisfies
the rows, the definitions of the monomials and the unconditional bounds. A dependency is grounded
when everything below it was asserted and is still in force; it entails a bound when no solution that
makes all of it true breaks the bound, and it refutes the state when no solution makes all of it true.
What was asserted in the open scopes is kept beside the engine as a `History`.

Cuts read the current values, and which values leaving a scope gives back depends on the numbers of
scopes. So what rests on values is claimed of `State.Reliable` states only: of those in which no number
of a scope came again, or none mattered.
-/

namespace ArithDecide

/-! ## What was asserted -/

/-- What the caller asserted in one scope. -/
structure Frame where
  /-- Literals that were accepted. -/
  asserted : List Literal
  /-- Literals whose negation had been accepted before. -/
  rejected : List Literal
  /-- Pairs of variables that were said to be equal. -/
  equated : List VarPair
  deriving DecidableEq, Inhabited

/-- What was asserted in the open scopes and outside of all scopes, innermost first. -/
abbrev History := List Frame

namespace History

def asserted (h : History) : List Literal := h.flatMap Frame.asserted

def rejected (h : History) : List Literal := h.flatMap Frame.rejected

def equated (h : History) : List VarPair := h.flatMap Frame.equated

/-- Outside of all scopes, with nothing asserted. -/
def start : History := [⟨[], [], []⟩]

/-- Inside a new scope. -/
def enter (h : History) : History := ⟨[], [], []⟩ :: h

/-- Changes what was asserted in the innermost scope. -/
def amend (change : Frame → Frame) : History → History
  | [] => [change ⟨[], [], []⟩]
  | frame :: outer => change frame :: outer

/-- A literal is asserted: it is rejected if its negation was accepted before. -/
def assert (h : History) (l : Literal) : History :=
  if l.negate ∈ h.asserted then
    h.amend fun frame => { frame with rejected := l :: frame.rejected }
  else h.amend fun frame => { frame with asserted := l :: frame.asserted }

/-- Two variables are said to be equal. -/
def equate (h : History) (p : VarPair) : History :=
  h.amend fun frame => { frame with equated := p :: frame.equated }

section

variable {h : History} {l m : Literal} {p q : VarPair}

theorem mem_asserted_assert : m ∈ (h.assert l).asserted ↔
    m ∈ h.asserted ∨ (m = l ∧ l.negate ∉ h.asserted) := by
  rw [assert]
  split
  · cases h <;> simp_all [amend, asserted]
  · cases h with
    | nil => simp_all [amend, asserted]
    | cons frame outer =>
      simp_all [amend, asserted]
      grind

theorem mem_rejected_assert : m ∈ (h.assert l).rejected ↔
    m ∈ h.rejected ∨ (m = l ∧ l.negate ∈ h.asserted) := by
  rw [assert]
  split
  · cases h with
    | nil => simp_all [amend, rejected]
    | cons frame outer =>
      simp_all [amend, rejected]
      grind
  · cases h <;> simp_all [amend, rejected]

/-- Only a literal whose negation was accepted is rejected. -/
theorem rejected_assert (accepted : l.negate ∉ h.asserted) : (h.assert l).rejected = h.rejected := by
  rw [assert, if_neg accepted]
  cases h <;> rfl

@[simp] theorem equated_assert (h : History) (l : Literal) : (h.assert l).equated = h.equated := by
  rw [assert]
  split <;> cases h <;> rfl

@[simp] theorem asserted_enter (h : History) : h.enter.asserted = h.asserted := rfl

@[simp] theorem rejected_enter (h : History) : h.enter.rejected = h.rejected := rfl

@[simp] theorem equated_enter (h : History) : h.enter.equated = h.equated := rfl

@[simp] theorem asserted_equate (h : History) (p : VarPair) :
    (h.equate p).asserted = h.asserted := by
  cases h <;> rfl

@[simp] theorem rejected_equate (h : History) (p : VarPair) :
    (h.equate p).rejected = h.rejected := by
  cases h <;> rfl

theorem mem_equated_equate : q ∈ (h.equate p).equated ↔ q = p ∨ q ∈ h.equated := by
  cases h <;> simp [equate, amend, equated]

theorem assert_ne_nil (h : History) (l : Literal) : h.assert l ≠ [] := by
  rw [assert]
  split <;> cases h <;> exact List.cons_ne_nil _ _

theorem equate_ne_nil (h : History) (p : VarPair) : h.equate p ≠ [] := by
  cases h <;> exact List.cons_ne_nil _ _

@[simp] theorem tail_assert (h : History) (l : Literal) : (h.assert l).tail = h.tail := by
  rw [assert]
  split <;> cases h <;> rfl

@[simp] theorem tail_equate (h : History) (p : VarPair) : (h.equate p).tail = h.tail := by
  cases h <;> rfl

end

end History

/-! ## Meanings -/

/-- The fact that a literal of the atom states about the value of its variable. -/
def Atom.Means (atom : Atom) (negative : Bool) (q : Rat) : Prop :=
  match atom.kind, negative with
  | .lower, false => atom.threshold ≤ q
  | .lower, true => q < atom.threshold
  | .upper, false => q ≤ atom.threshold
  | .upper, true => atom.threshold < q

/-- The bound of a literal says what the literal means. -/
theorem Atom.admits_bound_iff (atom : Atom) (negative : Bool) (q : Rat) :
    (atom.bound negative).1.admits (atom.bound negative).2 (.ofRat q) = true ↔
      atom.Means negative q := by
  obtain ⟨var, kind, threshold, assignment, propagated⟩ := atom
  cases kind <;> cases negative <;>
    simp [Atom.bound, Atom.Means, BoundKind.admits, BoundKind.opposite, InfRat.le_def] <;> grind

theorem Atom.means_negate (atom : Atom) (negative : Bool) (q : Rat) :
    atom.Means (!negative) q ↔ ¬atom.Means negative q := by
  obtain ⟨var, kind, threshold, assignment, propagated⟩ := atom
  cases kind <;> cases negative <;> simp [Atom.Means]

theorem Atom.means_congr {atom later : Atom} (var_eq : later.var = atom.var)
    (kind_eq : later.kind = atom.kind) (threshold_eq : later.threshold = atom.threshold)
    (negative : Bool) (α : Var → Rat) :
    later.Means negative (α later.var) ↔ atom.Means negative (α atom.var) := by
  simp only [Atom.Means, var_eq, kind_eq, threshold_eq]

/-- The assignment makes both variables equal. -/
def VarPair.Holds (α : Var → Rat) (p : VarPair) : Prop := α p.left = α p.right

/-- The monomial has the value of the product of its factors. -/
def Monomial.Holds (α : Var → Rat) (m : Monomial) : Prop := α m.var = (m.factors.map α).prod

/-- The assignment respects an unconditional bound. -/
def GivenBound.Holds (α : Var → Rat) (g : GivenBound) : Prop :=
  g.kind.admits g.value (.ofRat (α g.var)) = true

/-- The assignment respects a bound. -/
def Bound.Holds (α : Var → Rat) (b : Bound) : Prop := b.Admits (.ofRat (α b.var))

namespace Engine.State

variable {s : State} {α : Var → Rat}

/-- The assignment makes the literal true. -/
def LiteralHolds (s : State) (α : Var → Rat) (l : Literal) : Prop :=
  ∀ atom, s.atoms.get? l.atom = some atom → atom.Means l.negative (α atom.var)

/-- Integers for integer variables, and every row, monomial and unconditional bound holds. -/
structure Solves (s : State) (α : Var → Rat) : Prop where
  integral : ∀ v, s.isInt v = true → ∃ n : Int, α v = n
  rows : s.tableau.Holds α
  monomials : ∀ m ∈ s.monomials, m.Holds α
  given : ∀ g ∈ s.given, g.Holds α

/-- Integers for integer variables, and every row holds. -/
structure Fits (s : State) (α : Var → Rat) : Prop where
  integral : ∀ v, s.isInt v = true → ∃ n : Int, α v = n
  rows : s.tableau.Holds α

theorem Solves.fits (solves : s.Solves α) : s.Fits α := ⟨solves.integral, solves.rows⟩

/-- The assignment makes everything below the dependency true. -/
def Believes (s : State) (α : Var → Rat) (d : Dependency) : Prop :=
  s.dependencies.AllLeaves (s.LiteralHolds α) (VarPair.Holds α) d

/-- Everything below the dependency was asserted and is in force. -/
def Grounded (s : State) (h : History) (d : Dependency) : Prop :=
  s.dependencies.AllLeaves (· ∈ s.atoms.asserted) (· ∈ h.equated) d

/-- No solution that makes the dependency true breaks the bound. -/
def Entails (s : State) (d : Dependency) (b : Bound) : Prop :=
  ∀ α, s.Solves α → s.Believes α d → b.Holds α

/-- No solution makes the dependency true. -/
def Refutes (s : State) (d : Dependency) : Prop :=
  ∀ α, s.Solves α → ¬s.Believes α d

/-- So few scopes were entered that no number was given to two of them. -/
def Numbered (s : State) : Prop := s.scopesEntered < 2 ^ 32

instance : Decidable s.Numbered := inferInstanceAs (Decidable (_ < _))

theorem Numbered.of_eq (count : Nat) (entered : s.scopesEntered = count) (few : count < 2 ^ 32) :
    s.Numbered := by
  rwa [Numbered, entered]

theorem Numbered.of_none (none_entered : s.scopesEntered = 0) : s.Numbered :=
  .of_eq 0 none_entered (Nat.two_pow_pos 32)

/-- No number was given to two scopes, or no scope was left so far. -/
def Reliable (s : State) : Prop := s.Numbered ∨ s.scopesEntered = s.depth

theorem Numbered.reliable (numbered : s.Numbered) : s.Reliable := .inl numbered

/-- The bound has a reason that is in force and, as far as the values can be relied on, entails it. -/
structure Supported (s : State) (h : History) (b : Bound) : Prop where
  names : s.dependencies.Names b.reason
  grounded : s.Grounded h b.reason
  entails : s.Reliable → s.Entails b.reason b

/-- The dependency blames a literal that was asserted against its negation. -/
def Clash (s : State) (h : History) (d : Dependency) : Prop :=
  ∃ l, l ∈ h.rejected ∧ l.negate ∈ s.atoms.asserted ∧
    (∃ atom, s.atoms.get? l.atom = some atom) ∧
    ∀ L Q, s.dependencies.AllLeaves L Q d ↔ L l ∧ L l.negate

/-- What the engine may blame for infeasibility: reasons in force that no solution satisfies as far as
the values can be relied on, or a literal and its negation. -/
structure Blames (s : State) (h : History) (d : Dependency) : Prop where
  names : s.dependencies.Names d
  justified : (s.Grounded h d ∧ (s.Reliable → s.Refutes d)) ∨ s.Clash h d

/-! ## Growth -/

/-- The second state says at least what the first one says, and keeps its atoms and nodes. -/
structure Grows (s next : State) : Prop where
  solves : ∀ α, next.Solves α → s.Solves α
  nodes : s.dependencies.Extends next.dependencies
  atoms : ∀ a atom, s.atoms.get? a = some atom → ∃ later, next.atoms.get? a = some later ∧
    later.var = atom.var ∧ later.kind = atom.kind ∧ later.threshold = atom.threshold
  asserted : ∀ l ∈ s.atoms.asserted, l ∈ next.atoms.asserted
  reliable : next.Reliable → s.Reliable

theorem Grows.refl (s : State) : s.Grows s where
  solves _ h := h
  nodes := .refl _
  atoms _ atom found := ⟨atom, found, rfl, rfl, rfl⟩
  asserted _ h := h
  reliable := id

theorem Grows.trans {t u : State} (first : s.Grows t) (second : t.Grows u) : s.Grows u where
  solves α h := first.solves α (second.solves α h)
  nodes := first.nodes.trans second.nodes
  atoms a atom found := by
    obtain ⟨mid, found', var_eq, kind_eq, threshold_eq⟩ := first.atoms a atom found
    obtain ⟨late, found'', var_eq', kind_eq', threshold_eq'⟩ := second.atoms a mid found'
    exact ⟨late, found'', var_eq'.trans var_eq, kind_eq'.trans kind_eq,
      threshold_eq'.trans threshold_eq⟩
  asserted l h := second.asserted l (first.asserted l h)
  reliable reliable := first.reliable (second.reliable reliable)

section Growth

variable {next : State} {h k : History} {d : Dependency} {b : Bound}

theorem Grows.literalHolds (grows : s.Grows next) {l : Literal} (holds : next.LiteralHolds α l) :
    s.LiteralHolds α l := by
  intro atom found
  obtain ⟨later, found', var_eq, kind_eq, threshold_eq⟩ := grows.atoms _ atom found
  exact (Atom.means_congr var_eq kind_eq threshold_eq _ α).1 (holds later found')

theorem Grows.believes (grows : s.Grows next) (closed : s.dependencies.Closed)
    (names : s.dependencies.Names d) (believes : next.Believes α d) : s.Believes α d :=
  ((DependencyArena.allLeaves_extends closed grows.nodes names).1 believes).mono
    (fun _ => grows.literalHolds) fun _ holds => holds

theorem Grows.grounded (grows : s.Grows next) (closed : s.dependencies.Closed)
    (names : s.dependencies.Names d) (longer : ∀ p ∈ h.equated, p ∈ k.equated)
    (grounded : s.Grounded h d) : next.Grounded k d :=
  ((DependencyArena.allLeaves_extends closed grows.nodes names).2 grounded).mono
    grows.asserted longer

theorem Grows.entails (grows : s.Grows next) (closed : s.dependencies.Closed)
    (names : s.dependencies.Names d) (entails : s.Entails d b) : next.Entails d b :=
  fun α solves believes =>
    entails α (grows.solves α solves) (grows.believes closed names believes)

theorem Grows.refutes (grows : s.Grows next) (closed : s.dependencies.Closed)
    (names : s.dependencies.Names d) (refutes : s.Refutes d) : next.Refutes d :=
  fun α solves believes =>
    refutes α (grows.solves α solves) (grows.believes closed names believes)

theorem Grows.supported (grows : s.Grows next) (closed : s.dependencies.Closed)
    (longer : ∀ p ∈ h.equated, p ∈ k.equated) (supported : s.Supported h b) :
    next.Supported k b where
  names := grows.nodes.names supported.names
  grounded := grows.grounded closed supported.names longer supported.grounded
  entails reliable :=
    grows.entails closed supported.names (supported.entails (grows.reliable reliable))

theorem Grows.blames (grows : s.Grows next) (closed : s.dependencies.Closed)
    (longer : ∀ p ∈ h.equated, p ∈ k.equated) (rejected : ∀ l ∈ h.rejected, l ∈ k.rejected)
    (blames : s.Blames h d) : next.Blames k d where
  names := grows.nodes.names blames.names
  justified := by
    rcases blames.justified with ⟨grounded, refutes⟩ | ⟨l, given, opposite, ⟨atom, found⟩, leaves⟩
    · exact .inl ⟨grows.grounded closed blames.names longer grounded, fun reliable =>
        grows.refutes closed blames.names (refutes (grows.reliable reliable))⟩
    · obtain ⟨later, found', -⟩ := grows.atoms _ atom found
      exact .inr ⟨l, rejected l given, grows.asserted _ opposite, ⟨later, found'⟩, fun L Q =>
        (DependencyArena.allLeaves_extends closed grows.nodes blames.names).trans (leaves L Q)⟩

end Growth

/-- Whatever is blamed, no solution makes it true. -/
theorem Blames.refutes {h : History} {d : Dependency} (blames : s.Blames h d)
    (reliable : s.Reliable) : s.Refutes d := by
  rcases blames.justified with ⟨-, refutes⟩ | ⟨l, -, -, ⟨atom, found⟩, leaves⟩
  · exact refutes reliable
  · intro α _ believes
    have ⟨holds, opposite⟩ := (leaves _ _).1 believes
    exact (atom.means_negate l.negative _).1 (opposite atom found) (holds atom found)

end Engine.State

end ArithDecide
