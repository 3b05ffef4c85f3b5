/-
The evaluation of a script, instruction by instruction.

* `pass` is one turn of the loop, with the limits before and after the instruction.
* `Reaches` is the loop up to a point between two instructions, with the instructions it has passed. What is left to
  evaluate there is all that the loop still does: `Reaches.loopAt_eq`.
* `At` is a point of `TxEvaluator.run`.
-/

import Libcoin.Script.TransactionEvaluator

namespace Libcoin

open Evaluator

namespace Evaluator

variable {Own : Type}

/-! ### One turn -/

/-- An opcode is counted above `OP_16`. -/
def counted (opcode : Nat) (s : Evaluator Own) : Evaluator Own :=
  if 96 < opcode then { s with opCount := s.opCount + 1 } else s

@[simp] theorem counted_stack (opcode : Nat) (s : Evaluator Own) : (counted opcode s).stack = s.stack := by
  unfold counted
  split <;> rfl

@[simp] theorem counted_altStack (opcode : Nat) (s : Evaluator Own) :
    (counted opcode s).altStack = s.altStack := by
  unfold counted
  split <;> rfl

@[simp] theorem counted_execStack (opcode : Nat) (s : Evaluator Own) :
    (counted opcode s).execStack = s.execStack := by
  unfold counted
  split <;> rfl

@[simp] theorem counted_own (opcode : Nat) (s : Evaluator Own) : (counted opcode s).own = s.own := by
  unfold counted
  split <;> rfl

@[simp] theorem counted_exec (opcode : Nat) (s : Evaluator Own) : (counted opcode s).exec = s.exec := by
  unfold exec
  rw [counted_execStack]

theorem counted_opCount (opcode : Nat) (s : Evaluator Own) :
    (counted opcode s).opCount = s.opCount + if 96 < opcode then 1 else 0 := by
  unfold counted
  split <;> rfl

/-- One turn of the loop. -/
def pass (evalAt : Script → Nat → Evaluator Own → Turn Own) (opcode : Nat) (value : Data) (current : Script)
    (s : Evaluator Own) : Turn Own :=
  if maxElementSize < value.length then .done false s
  else if 96 < opcode ∧ 201 < (counted opcode s).opCount then .done false (counted opcode s)
  else if disabled opcode then .done false (counted opcode s)
  else
    match instruction (evalAt current) opcode value (counted opcode s) with
    | .done result s => .done result s
    | .next s => if 1000 < s.stack.length + s.altStack.length then .done false s else .next s

section Turns

variable {evalAt : Script → Nat → Evaluator Own → Turn Own} {opcode : Nat} {value : Data} {current : Script}
  {s s' : Evaluator Own} {rest : List (Option (Nat × Data) × Script)}

/-- The loop takes one turn after the other. -/
theorem loopAt_cons : loopAt evalAt ((some (opcode, value), current) :: rest) s =
    match pass evalAt opcode value current s with
    | .done result s => (result, s)
    | .next s => loopAt evalAt rest s := by
  unfold Evaluator.pass counted
  rw [loopAt]
  dsimp only
  generalize (if 96 < opcode then { s with opCount := s.opCount + 1 } else s) = s₁
  split
  · rfl
  · split
    · rfl
    · split
      · rfl
      · cases instruction (evalAt current) opcode value s₁ with
        | done result s₂ => rfl
        | next s₂ =>
          dsimp only
          split <;> rfl

theorem loopAt_next (passed : pass evalAt opcode value current s = .next s') :
    loopAt evalAt ((some (opcode, value), current) :: rest) s = loopAt evalAt rest s' := by
  rw [loopAt_cons, passed]

theorem loopAt_done {result : Bool} (passed : pass evalAt opcode value current s = .done result s') :
    loopAt evalAt ((some (opcode, value), current) :: rest) s = (result, s') := by
  rw [loopAt_cons, passed]

/-- An instruction that is passed is within the limits. -/
theorem pass_next : pass evalAt opcode value current s = .next s' ↔
    value.length ≤ maxElementSize ∧ (96 < opcode → s.opCount < 201) ∧ disabled opcode = false ∧
      instruction (evalAt current) opcode value (counted opcode s) = .next s' ∧
        s'.stack.length + s'.altStack.length ≤ 1000 := by
  have count : 96 < opcode ∧ 201 < (counted opcode s).opCount ↔ ¬(96 < opcode → s.opCount < 201) := by
    rw [counted_opCount]
    by_cases high : 96 < opcode
    · rw [if_pos high]
      omega
    · simp [high]
  unfold Evaluator.pass
  constructor
  · intro passed
    split at passed
    · cases passed
    · rename_i short
      split at passed
      · cases passed
      · rename_i few
        split at passed
        · cases passed
        · rename_i enabled
          cases turn : instruction (evalAt current) opcode value (counted opcode s) with
          | done result s₂ =>
            rw [turn] at passed
            cases passed
          | next s₂ =>
            rw [turn] at passed
            dsimp only at passed
            split at passed
            · cases passed
            · rename_i room
              cases passed
              exact ⟨Nat.not_lt.mp short, not_not.mp fun exceeded => few (count.mpr exceeded),
                Bool.not_eq_true _ ▸ enabled, rfl, Nat.not_lt.mp room⟩
  · rintro ⟨short, few, enabled, turn, room⟩
    rw [if_neg (Nat.not_lt.mpr short), if_neg fun many => count.mp many few, enabled, turn]
    exact (if_neg Bool.false_ne_true).trans (if_neg (Nat.not_lt.mpr room))

/-- Only `eval` ends an evaluation with success before the end of the script. -/
theorem pass_not_true (never : ∀ current opcode s s', evalAt current opcode s ≠ .done true s') :
    pass evalAt opcode value current s ≠ .done true s' := by
  intro passed
  unfold Evaluator.pass at passed
  split at passed
  · cases passed
  · split at passed
    · cases passed
    · split at passed
      · cases passed
      · cases turn : instruction (evalAt current) opcode value (counted opcode s) with
        | done result s₂ =>
          rw [turn] at passed
          cases passed
          unfold instruction at turn
          split at turn
          · cases turn
          · split at turn
            · exact never _ _ _ _ turn
            · cases turn
        | next s₂ =>
          rw [turn] at passed
          dsimp only at passed
          split at passed <;> cases passed

end Turns

/-! ### The points of an evaluation -/

/-- An instruction that was passed, with the rest of the script after it and the evaluator on both sides. -/
structure Passed (Own : Type) where
  opcode : Nat
  current : Script
  before : Evaluator Own
  after : Evaluator Own

/-- The instruction was evaluated, and not only read. -/
def Passed.Executed (passed : Passed Own) : Prop :=
  passed.before.exec = true ∨ 99 ≤ passed.opcode ∧ passed.opcode ≤ 104

instance (passed : Passed Own) : Decidable passed.Executed := inferInstanceAs (Decidable (_ ∨ _))

/-- The loop over the instructions is at a point: what it has passed, what is left, and the evaluator. -/
inductive Reaches (evalAt : Script → Nat → Evaluator Own → Turn Own)
    (ops : List (Option (Nat × Data) × Script)) (start : Evaluator Own) :
    List (Passed Own) → List (Option (Nat × Data) × Script) → Evaluator Own → Prop
  | start : Reaches evalAt ops start [] ops start
  | pass {path rest opcode value current s s'}
      (reached : Reaches evalAt ops start path ((some (opcode, value), current) :: rest) s)
      (passed : Evaluator.pass evalAt opcode value current s = .next s') :
      Reaches evalAt ops start (path ++ [⟨opcode, current, s, s'⟩]) rest s'

section Points

variable {evalAt : Script → Nat → Evaluator Own → Turn Own} {ops rest : List (Option (Nat × Data) × Script)}
  {start s s' : Evaluator Own} {path : List (Passed Own)}

/-- From a point on, the loop goes over what is left. -/
theorem Reaches.loopAt_eq (reached : Reaches evalAt ops start path rest s) :
    loopAt evalAt ops start = loopAt evalAt rest s := by
  induction reached with
  | start => rfl
  | pass _ passed ih => exact ih.trans (loopAt_next passed)

/-- What is left was there from the start. -/
theorem Reaches.suffix (reached : Reaches evalAt ops start path rest s) : rest <:+ ops := by
  induction reached with
  | start => exact List.suffix_rfl
  | pass _ _ ih => exact (List.suffix_cons _ _).trans ih

/-- The points after one instruction. -/
theorem Reaches.cons {opcode : Nat} {value : Data} {current : Script}
    (passed : Evaluator.pass evalAt opcode value current start = .next s')
    (reached : Reaches evalAt ops s' path rest s) :
    Reaches evalAt ((some (opcode, value), current) :: ops) start (⟨opcode, current, start, s'⟩ :: path) rest s := by
  induction reached with
  | start => exact .pass .start passed
  | pass _ further ih => exact .pass ih further

/-- An evaluation that succeeds reaches the end of the script. -/
theorem reaches_end (never : ∀ current opcode s s', evalAt current opcode s ≠ .done true s')
    (done : loopAt evalAt ops start = (true, s')) : ∃ path, Reaches evalAt ops start path [] s' := by
  induction ops generalizing start with
  | nil =>
    obtain ⟨-, rfl⟩ := Prod.mk.inj done
    exact ⟨[], .start⟩
  | cons op ops ih =>
    obtain ⟨instruction?, current⟩ := op
    cases instruction? with
    | none => cases done
    | some op =>
      obtain ⟨opcode, value⟩ := op
      cases passed : Evaluator.pass evalAt opcode value current start with
      | done result s =>
        rw [loopAt_done passed] at done
        cases done
        exact absurd passed (pass_not_true never)
      | next s =>
        rw [loopAt_next passed] at done
        obtain ⟨path, reached⟩ := ih done
        exact ⟨_, .cons passed reached⟩

end Points

end Evaluator

/-! ### The subclass -/

namespace TxEvaluator

/-- `operator()` is at a point between two instructions of the script. -/
structure At (checkSig : Data → Data → Script → Bool) (hashers : Hashers) (script : Script) (start : TxEvaluator)
    (path : List (Passed TxMembers)) (rest : List (Option (Nat × Data) × Script)) (s : TxEvaluator) : Prop where
  small : script.length ≤ 10000
  reached : Reaches (eval checkSig hashers script) (Script.opsAt script) start.restart path rest s

variable {checkSig : Data → Data → Script → Bool} {hashers : Hashers} {script : Script} {start s : TxEvaluator}
  {path : List (Passed TxMembers)} {rest : List (Option (Nat × Data) × Script)}

/-- From a point on, `operator()` goes over what is left. -/
theorem At.run_eq (point : At checkSig hashers script start path rest s) :
    run checkSig hashers script start = loopAt (eval checkSig hashers script) rest s := by
  unfold run
  rw [if_neg (Nat.not_lt.mpr point.small)]
  exact point.reached.loopAt_eq

/-- An evaluation that succeeds reaches the end of the script. -/
theorem run_end (done : run checkSig hashers script start = (true, s)) :
    ∃ path, At checkSig hashers script start path [] s := by
  unfold run at done
  split at done
  · cases done
  · rename_i small
    obtain ⟨path, reached⟩ := reaches_end (fun _ _ _ _ => eval_not_true) done
    exact ⟨path, Nat.not_lt.mp small, reached⟩

end TxEvaluator

end Libcoin
