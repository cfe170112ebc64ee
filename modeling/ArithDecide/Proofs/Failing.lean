/-!
# Computations that may fail

What the success of a composed computation says about its parts.
-/

namespace ArithDecide

variable {ε ε' α β : Type}

theorem bind_eq_ok {x : Except ε α} {f : α → Except ε β} {b : β} (ok : x >>= f = .ok b) :
    ∃ a, x = .ok a ∧ f a = .ok b := by
  cases x with
  | error _ => cases ok
  | ok a => exact ⟨a, rfl, ok⟩

/-- A failure comes from the first part or from the second one. -/
theorem bind_eq_error {x : Except ε α} {f : α → Except ε β} {error : ε}
    (failed : x >>= f = .error error) : x = .error error ∨ ∃ a, x = .ok a ∧ f a = .error error := by
  cases x with
  | error _ => exact .inl (congrArg Except.error (Except.error.inj failed))
  | ok a => exact .inr ⟨a, rfl, failed⟩

theorem map_eq_ok {f : α → β} {x : Except ε α} {b : β} (ok : x.map f = .ok b) :
    ∃ a, x = .ok a ∧ f a = b := by
  cases x with
  | error _ => cases ok
  | ok a => exact ⟨a, rfl, Except.ok.inj ok⟩

theorem forM_eq_ok {f : α → Except ε Unit} {items : List α} :
    items.forM f = .ok () ↔ ∀ a ∈ items, f a = .ok () := by
  induction items with
  | nil => exact ⟨fun _ _ member => absurd member List.not_mem_nil, fun _ => rfl⟩
  | cons a rest ih =>
    show f a >>= (fun _ => rest.forM f) = .ok () ↔ _
    rw [List.forall_mem_cons, ← ih]
    constructor
    · intro ok
      obtain ⟨_, first, others⟩ := bind_eq_ok ok
      exact ⟨first, others⟩
    · rintro ⟨first, others⟩
      rw [first]
      exact others

theorem forM_eq_error {f : α → Except ε Unit} {items : List α} {error : ε}
    (failed : items.forM f = .error error) : ∃ a ∈ items, f a = .error error := by
  induction items with
  | nil => cases failed
  | cons a rest ih =>
    rcases bind_eq_error failed with first | ⟨_, -, later⟩
    · exact ⟨a, List.mem_cons_self, first⟩
    · obtain ⟨b, member, failed⟩ := ih later
      exact ⟨b, List.mem_cons_of_mem _ member, failed⟩

/-- A computation for each item succeeds when each of them does. -/
theorem mapM_eq_ok {f : α → Except ε β} {g : α → β} {items : List α}
    (each : ∀ a ∈ items, f a = .ok (g a)) : items.mapM f = .ok (items.map g) := by
  induction items with
  | nil => rfl
  | cons a rest ih =>
    obtain ⟨first, others⟩ := List.forall_mem_cons.1 each
    rw [List.mapM_cons, first, ih others]
    rfl

theorem of_mapM_eq_ok {f : α → Except ε β} {items : List α} {results : List β}
    (ok : items.mapM f = .ok results) :
    results.length = items.length ∧ ∀ a ∈ items, ∃ b, f a = .ok b := by
  induction items generalizing results with
  | nil =>
    obtain rfl := Except.ok.inj ok
    exact ⟨rfl, fun _ member => absurd member List.not_mem_nil⟩
  | cons a rest ih =>
    rw [List.mapM_cons] at ok
    obtain ⟨b, first, ok⟩ := bind_eq_ok ok
    obtain ⟨others, all, ok⟩ := bind_eq_ok ok
    obtain rfl := Except.ok.inj ok
    obtain ⟨length, each⟩ := ih all
    exact ⟨congrArg Nat.succ length, List.forall_mem_cons.2 ⟨⟨b, first⟩, each⟩⟩

end ArithDecide
