/-!
# Calls one after another

What sessions of the stores have in common. A run makes its calls while they are allowed, so what every
allowed call keeps holds after the run. Marks are kept in the order of a stack, so retracting to one of
them forgets those that were set after it and leaves the older ones.
-/

namespace ArithDecide

section Runs

variable {State Call : Type} {allows : State → Call → Bool} {step : State → Call → State}

/-- Every call is made when it is allowed. -/
def allowsEach (allows : State → Call → Bool) (step : State → Call → State) : State → List Call → Bool
  | _, [] => true
  | s, call :: rest => allows s call && allowsEach allows step (step s call) rest

/-- What every allowed call keeps holds after a run. -/
theorem foldl_of_allowsEach {Kept : State → Prop}
    (keeps : ∀ {s call}, Kept s → allows s call = true → Kept (step s call)) {s : State}
    {calls : List Call} (kept : Kept s) (allowed : allowsEach allows step s calls = true) :
    Kept (calls.foldl step s) := by
  induction calls generalizing s with
  | nil => exact kept
  | cons call rest ih =>
    rw [allowsEach, Bool.and_eq_true] at allowed
    exact ih (keeps kept allowed.1) allowed.2

end Runs

section Marks

variable {Moment : Type} {Older : Moment → Moment → Prop} {moments outer : List Moment}
  {latest : Moment} {index : Nat}

/-- The marks that are left once the latest ones are forgotten were known, and are no younger than the
latest one of them. -/
theorem left_of_drop (refl : ∀ moment, Older moment moment)
    (nested : moments.Pairwise fun later earlier => Older earlier later)
    (left : moments.drop index = latest :: outer) :
    (∀ moment ∈ latest :: outer, moment ∈ moments ∧ Older moment latest) ∧
      (latest :: outer).Pairwise fun later earlier => Older earlier later := by
  have rest : (latest :: outer).Pairwise fun later earlier => Older earlier later :=
    left ▸ nested.drop
  refine ⟨fun moment member => ⟨List.mem_of_mem_drop (left ▸ member), ?_⟩, rest⟩
  rcases List.mem_cons.1 member with rfl | earlier
  · exact refl moment
  · exact (List.pairwise_cons.1 rest).1 moment earlier

end Marks

end ArithDecide
