/-
Machines that take one symbol at a time and stop at a result.

* `Machine.run` takes symbols up to a result, and gives back those that are left.
* `Machine.Passes`: from one state to another one along some symbols, without a result. Passages compose
  (`Passes.append`), and a loop that keeps its state in step with what it has read passes whatever it takes
  (`Passes.loop`).
* `Machine.runChunks`: symbols that come in chunks. How they are cut does not matter (`runChunks_eq`).
-/

import Mathlib.Tactic.TypeStar

namespace Libcoin

namespace Machine

variable {σ β ρ : Type*} (step : σ → β → Option ρ × σ)

/-- The symbols up to a result: the result, those that are left, and the state. -/
def run : List β → σ → Option ρ × List β × σ
  | [], s => (none, [], s)
  | b :: bs, s =>
    match step s b with
    | (none, s) => run bs s
    | (some result, s) => (some result, bs, s)

/-- Symbols that come in chunks, one after the other, up to a result. -/
def runChunks : List (List β) → σ → Option ρ × List β × σ
  | [], s => (none, [], s)
  | chunk :: chunks, s =>
    match run step chunk s with
    | (none, _, s) => runChunks chunks s
    | (some result, rest, s) => (some result, rest ++ chunks.flatten, s)

/-- The symbols take the machine from one state to the other, and there is no result on the way. -/
def Passes (bs : List β) (s s' : σ) : Prop := ∀ rest, run step (bs ++ rest) s = run step rest s'

variable {step} {s s' s'' : σ} {b : β} {bs cs : List β}

theorem run_goes (goes : step s b = (none, s')) : run step (b :: bs) s = run step bs s' := by
  rw [run, goes]

theorem run_stops {result : ρ} (stops : step s b = (some result, s')) :
    run step (b :: bs) s = (some result, bs, s') := by
  rw [run, stops]

theorem Passes.nil : Passes step [] s s := fun _ => rfl

theorem Passes.cons (goes : step s b = (none, s')) (further : Passes step bs s' s'') : Passes step (b :: bs) s s'' := by
  intro rest
  rw [List.cons_append, run_goes goes]
  exact further rest

theorem Passes.one (goes : step s b = (none, s')) : Passes step [b] s s' := .cons goes .nil

theorem Passes.append (first : Passes step bs s s') (second : Passes step cs s' s'') :
    Passes step (bs ++ cs) s s'' := by
  intro rest
  rw [List.append_assoc, first, second]

/-- A loop whose state is a function of what it has read. -/
theorem Passes.loop (state : List β → σ) {taken : β → Prop}
    (goes : ∀ seen b, taken b → step (state seen) b = (none, state (seen ++ [b]))) (all : ∀ b ∈ bs, taken b)
    (seen : List β) : Passes step bs (state seen) (state (seen ++ bs)) := by
  induction bs generalizing seen with
  | nil =>
    rw [List.append_nil]
    exact .nil
  | cons b bs ih =>
    obtain ⟨here, later⟩ := List.forall_mem_cons.mp all
    have rest := ih later (seen ++ [b])
    rw [List.append_assoc] at rest
    exact .cons (goes seen b here) rest

/-- Symbols that lead to a result, or to a state from which the others are taken. -/
theorem run_append (bs cs : List β) (s : σ) :
    run step (bs ++ cs) s =
      match run step bs s with
      | (none, _, s) => run step cs s
      | (some result, rest, s) => (some result, rest ++ cs, s) := by
  induction bs generalizing s with
  | nil => rfl
  | cons b bs ih =>
    rw [List.cons_append, run, run]
    cases step s b with
    | mk result next =>
      cases result with
      | none => exact ih next
      | some result => rfl

theorem runChunks_eq (chunks : List (List β)) (s : σ) : runChunks step chunks s = run step chunks.flatten s := by
  induction chunks generalizing s with
  | nil => rfl
  | cons chunk chunks ih =>
    rw [List.flatten_cons, run_append, runChunks]
    cases run step chunk s with
    | mk result rest =>
      cases result with
      | none => exact ih rest.2
      | some result => rfl

/-- Before a result that uses all symbols there is none. -/
theorem run_early {result : ρ} (all : run step (bs ++ cs) s = (some result, [], s')) (more : cs ≠ []) :
    (run step bs s).1 = none := by
  rw [run_append] at all
  cases early : run step bs s with
  | mk found rest =>
    cases found with
    | none => rfl
    | some found =>
      rw [early] at all
      have used := congrArg (fun out => out.2.1) all
      exact absurd (List.append_eq_nil_iff.mp used).2 more

end Machine

end Libcoin
