/-
Runs of a step function: properties of all states that a run goes through, and of all its steps.

`AlongStates.of_inv` is the induction over a run, done once: what the steps preserve under a condition on
each of them holds in every state of a run whose steps meet the condition. `foldlM_inv` is that for steps that may
have no result, and the last state.
-/

namespace Libcoin.Run

variable {S A : Type}

/-- The state after a list of actions. -/
def final (step : S → A → S) : S → List A → S
  | s, [] => s
  | s, action :: actions => final step (step s action) actions

/-- The property holds in every state of the run, the first one included. -/
def AlongStates (step : S → A → S) (holds : S → Prop) : S → List A → Prop
  | s, [] => holds s
  | s, action :: actions => holds s ∧ AlongStates step holds (step s action) actions

/-- The condition is met by every step of the run. -/
def AlongSteps (step : S → A → S) (meets : S → A → Prop) : S → List A → Prop
  | _, [] => True
  | s, action :: actions => meets s action ∧ AlongSteps step meets (step s action) actions

variable {step : S → A → S} {holds : S → Prop} {meets : S → A → Prop}

instance decidableAlongStates [DecidablePred holds] : (s : S) → (actions : List A) →
    Decidable (AlongStates step holds s actions)
  | s, [] => inferInstanceAs (Decidable (holds s))
  | s, action :: actions =>
    have := decidableAlongStates (step s action) actions
    inferInstanceAs (Decidable (_ ∧ _))

instance decidableAlongSteps [∀ s action, Decidable (meets s action)] : (s : S) → (actions : List A) →
    Decidable (AlongSteps step meets s actions)
  | _, [] => inferInstanceAs (Decidable True)
  | s, action :: actions =>
    have := decidableAlongSteps (step s action) actions
    inferInstanceAs (Decidable (_ ∧ _))

theorem AlongStates.first {s : S} {actions : List A} (along : AlongStates step holds s actions) :
    holds s := by
  cases actions with
  | nil => exact along
  | cons action actions => exact along.1

/-- A condition on the actions alone. -/
theorem AlongSteps.of_forall {s : S} {actions : List A} (all : ∀ action ∈ actions, ∀ s, meets s action) :
    AlongSteps step meets s actions := by
  induction actions generalizing s with
  | nil => trivial
  | cons action actions ih =>
    exact ⟨all action List.mem_cons_self s, ih fun action member => all action (List.mem_cons_of_mem _ member)⟩

/-- A weaker condition. -/
theorem AlongSteps.imp {weaker : S → A → Prop} (gives : ∀ s action, meets s action → weaker s action) {s : S}
    {actions : List A} (along : AlongSteps step meets s actions) : AlongSteps step weaker s actions := by
  induction actions generalizing s with
  | nil => trivial
  | cons action actions ih => exact ⟨gives s action along.1, ih along.2⟩

/-- The induction over a run. -/
theorem AlongStates.of_inv {inv : S → Prop} (gives : ∀ s, inv s → holds s)
    (preserved : ∀ s action, inv s → meets s action → inv (step s action)) {s : S} {actions : List A}
    (start : inv s) (along : AlongSteps step meets s actions) : AlongStates step holds s actions := by
  induction actions generalizing s with
  | nil => exact gives s start
  | cons action actions ih =>
    exact ⟨gives s start, ih (preserved s action start along.1) along.2⟩

theorem AlongStates.final {s : S} {actions : List A} (along : AlongStates step holds s actions) :
    holds (final step s actions) := by
  induction actions generalizing s with
  | nil => exact along
  | cons action actions ih => exact ih along.2

theorem final_eq_foldl (s : S) (actions : List A) : final step s actions = actions.foldl step s := by
  induction actions generalizing s with
  | nil => rfl
  | cons action actions ih => exact ih (step s action)

theorem final_append (s : S) (actions later : List A) :
    final step s (actions ++ later) = final step (final step s actions) later := by
  induction actions generalizing s with
  | nil => rfl
  | cons action actions ih => exact ih (step s action)

/-- What every step preserves holds in the end. -/
theorem final_inv (inv : S → Prop) (preserved : ∀ s action, inv s → inv (step s action)) {s : S} (start : inv s)
    (actions : List A) : inv (final step s actions) := by
  induction actions generalizing s with
  | nil => exact start
  | cons action actions ih => exact ih (preserved s action start)

/-- The induction over a run whose steps may have no result. -/
theorem foldlM_inv {step : S → A → Option S} (inv : S → Prop) (meets : A → Prop)
    (preserved : ∀ s action s', inv s → meets action → step s action = some s' → inv s') {s s' : S}
    {actions : List A} (start : inv s) (all : ∀ action ∈ actions, meets action)
    (run : actions.foldlM step s = some s') : inv s' := by
  induction actions generalizing s with
  | nil => exact Option.some.inj run ▸ start
  | cons action actions ih =>
    rw [List.foldlM_cons] at run
    obtain ⟨next, one, rest⟩ := Option.bind_eq_some_iff.mp run
    exact ih (preserved s action next start (all action List.mem_cons_self) one)
      (fun other member => all other (List.mem_cons_of_mem _ member)) rest

end Libcoin.Run
