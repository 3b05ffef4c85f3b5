/-
The opcodes that no case of `eval` is for.

* `Undefined` are the opcodes without a meaning, where they are executed, and `OP_VERIF` and `OP_VERNOTIF` anywhere.
* `run_undefinedOpcode_iff` says when an evaluation fails that comes to one.
-/

import Libcoin.Script.Limits
import Libcoin.Script.Solver

namespace Libcoin

open Evaluator

namespace TxEvaluator

/-- The opcode has no meaning: `OP_RESERVED`, `OP_VER`, `OP_RESERVED1`, `OP_RESERVED2` and those above `OP_NOP10`, where
they are executed, or `OP_VERIF` and `OP_VERNOTIF`. -/
def Undefined (opcode : Nat) (s : TxEvaluator) : Prop :=
  s.exec = true ∧ (opcode = 80 ∨ opcode = 98 ∨ opcode = 137 ∨ opcode = 138 ∨ 185 < opcode) ∨
    opcode = 101 ∨ opcode = 102

/-- The opcode is one operation too many, or the evaluation has begun with too many values. -/
def Exceeds (opcode : Nat) (s : TxEvaluator) : Prop :=
  96 < opcode ∧ 201 ≤ s.opCount ∨ 1000 < s.stack.length + s.altStack.length

section Turns

variable {checkSig : Data → Data → Script → Bool} {hashers : Hashers} {script current : Script} {opcode : Nat}
  {value : Data} {s s' : TxEvaluator} {start : TxEvaluator} {path : List (Passed TxMembers)}
  {rest : List (Option (Nat × Data) × Script)}

theorem Undefined.high (undefined_ : Undefined opcode s) : 78 < opcode := by
  unfold Undefined at undefined_
  omega

/-- Neither of the two functions `eval` has a case for the opcode. -/
theorem eval_undefinedOpcode (undefined_ : Undefined opcode s) (s' : TxEvaluator) :
    eval checkSig hashers script current opcode s' = .next s' := by
  have base : evalNext hashers opcode s' = some s' := by
    rcases undefined_ with ⟨-, rfl | rfl | rfl | rfl | beyond⟩ | rfl | rfl
    · rfl
    · rfl
    · rfl
    · rfl
    · unfold evalNext
      rw [if_neg (by omega), if_neg (by omega), if_neg (by omega), if_neg (by omega), if_neg (by omega),
        if_neg (by omega), if_neg (by omega)]
    · rfl
    · rfl
  have other : opcode < 171 ∨ 175 < opcode := by
    unfold Undefined at undefined_
    omega
  rw [eval_base other, Evaluator.eval, base]

/-- The turn of the opcode. -/
theorem pass_undefinedOpcode (undefined_ : Undefined opcode s) :
    (Exceeds opcode s → ∃ s', pass (eval checkSig hashers script) opcode [] current s = .done false s') ∧
      (¬Exceeds opcode s → pass (eval checkSig hashers script) opcode [] current s = .next (counted opcode s)) := by
  have enabled : disabled opcode = false := by
    simp only [disabled, List.contains_eq_mem, List.mem_cons, List.not_mem_nil, or_false, decide_eq_false_iff_not]
    unfold Undefined at undefined_
    omega
  have turn : instruction (eval checkSig hashers script current) opcode [] (counted opcode s) =
      .next (counted opcode s) := by
    unfold instruction
    have evaluated : (s.exec || decide (99 ≤ opcode ∧ opcode ≤ 104)) = true := by
      rcases undefined_ with ⟨exec, -⟩ | rfl | rfl
      · rw [exec, Bool.true_or]
      · exact Bool.or_true _
      · exact Bool.or_true _
    rw [counted_exec, decide_eq_false (show ¬opcode ≤ 78 by have high := undefined_.high; omega), Bool.and_false,
      if_neg Bool.false_ne_true, if_pos evaluated, eval_undefinedOpcode undefined_]
  constructor
  · intro exceeds
    unfold Evaluator.pass
    rw [if_neg (show ¬maxElementSize < ([] : Data).length from Nat.not_lt_zero _)]
    split
    · exact ⟨_, rfl⟩
    · rename_i few
      rw [enabled, if_neg Bool.false_ne_true, turn]
      have full : 1000 < (counted opcode s).stack.length + (counted opcode s).altStack.length := by
        rw [counted_stack, counted_altStack]
        rcases exceeds with ⟨high, many⟩ | full
        · rw [counted_opCount, if_pos high] at few
          omega
        · exact full
      exact ⟨_, if_pos full⟩
  · intro within
    refine pass_next.mpr ⟨Nat.zero_le _, fun high => Nat.lt_of_not_le fun many => within (.inl ⟨high, many⟩), enabled,
      turn, ?_⟩
    rw [counted_stack, counted_altStack]
    exact Nat.not_lt.mp fun full => within (.inr full)

/-! ### Open branches -/

theorem control_open {s s' : TxEvaluator} (next : Evaluator.control opcode s = some s') :
    s.execStack.length ≤ s'.execStack.length + if opcode = 104 then 1 else 0 := by
  have same {s' : TxEvaluator} (branches : s'.execStack = s.execStack) :
      s.execStack.length ≤ s'.execStack.length + if opcode = 104 then 1 else 0 := by
    rw [branches]
    exact Nat.le_add_right _ _
  have more {value : Bool} {s' : TxEvaluator} (branches : s'.execStack = value :: s.execStack) :
      s.execStack.length ≤ s'.execStack.length + if opcode = 104 then 1 else 0 := by
    rw [branches, List.length_cons]
    omega
  unfold Evaluator.control at next
  split at next <;> (try split at next) <;> (try split at next) <;> first
    | cases next; done
    | cases next; exact same rfl
    | cases next; exact more rfl
    | (rename_i value rest branches
       cases next
       rw [branches]
       exact Nat.le_add_right _ _)
    | (rename_i value rest branches
       cases next
       rw [branches]
       exact le_rfl)

/-- The base class closes a branch at `OP_ENDIF` alone. -/
theorem evalNext_open {s s' : TxEvaluator} (next : evalNext hashers opcode s = some s') :
    s.execStack.length ≤ s'.execStack.length + if opcode = 104 then 1 else 0 := by
  have onStack (stack : Option (List Data)) (moved : (stack.map fun stack => { s with stack := stack }) = some s') :
      s.execStack.length ≤ s'.execStack.length + if opcode = 104 then 1 else 0 := by
    obtain ⟨stack, -, rfl⟩ := Option.map_eq_some_iff.mp moved
    exact Nat.le_add_right _ _
  unfold evalNext at next
  dsimp only at next
  split at next
  · obtain rfl := Option.some.inj next
    exact Nat.le_add_right _ _
  · split at next
    · exact control_open next
    · split at next
      · exact onStack _ next
      · split at next
        · exact onStack _ next
        · split at next
          · obtain rfl := Option.some.inj next
            exact Nat.le_add_right _ _
          · split at next
            · exact onStack _ next
            · split at next
              · exact onStack _ next
              · obtain rfl := Option.some.inj next
                exact Nat.le_add_right _ _

/-- A turn that closes a branch is counted. -/
theorem pass_open (passed : pass (eval checkSig hashers script) opcode value current s = .next s') :
    s.opCount + s.execStack.length ≤ s'.opCount + s'.execStack.length := by
  obtain ⟨-, -, -, turn, -⟩ := pass_next.mp passed
  have count := counted_opCount opcode s
  have branches := counted_execStack opcode s
  unfold instruction at turn
  split at turn
  · cases turn
    show _ ≤ (counted opcode s).opCount + (counted opcode s).execStack.length
    rw [branches]
    omega
  · split at turn
    · obtain ⟨s₁, base, branches', sum, -⟩ := eval_next turn
      have below := evalNext_open base
      have same := (evalNext_keeps base).2
      rw [branches] at below
      have closing : (if opcode = 104 then 1 else 0) ≤ if 96 < opcode then 1 else 0 := by
        split
        · rw [if_pos (by omega)]
        · exact Nat.zero_le _
      rw [branches', sum, same, count]
      omega
    · cases turn
      rw [branches]
      omega

/-- The operations and the open branches become more from point to point. -/
theorem reaches_open {ops : List (Option (Nat × Data) × Script)}
    (reached : Reaches (eval checkSig hashers script) ops start path rest s) (count : start.opCount ≤ 201) :
    start.opCount + start.execStack.length ≤ s.opCount + s.execStack.length ∧ s.opCount ≤ 201 := by
  induction reached with
  | start => exact ⟨le_rfl, count⟩
  | pass _ passed ih =>
    exact ⟨ih.1.trans (pass_open passed), ((eval_lawful checkSig hashers script).pass_count passed ih.2).2⟩

/-- An evaluation that succeeds has closed its branches within the limit of the operations. -/
theorem loopAt_open {ops : List (Option (Nat × Data) × Script)} (count : s.opCount ≤ 201)
    (done : (loopAt (eval checkSig hashers script) ops s).1 = true) : s.opCount + s.execStack.length ≤ 201 := by
  obtain ⟨path, reached⟩ := reaches_end (fun _ _ _ _ => eval_not_true) (Prod.ext done rfl :
    loopAt (eval checkSig hashers script) ops s = (true, (loopAt (eval checkSig hashers script) ops s).2))
  have closed : (loopAt (eval checkSig hashers script) ops s).2.execStack.isEmpty = true := by
    have ended := congrArg Prod.fst reached.loopAt_eq
    rw [done] at ended
    exact ended.symm
  obtain ⟨sum, within⟩ := reaches_open reached count
  rw [List.isEmpty_iff.mp closed, List.length_nil] at sum
  exact sum.trans within

/-- So many `OP_ENDIF` close the branches. -/
theorem loopAt_closes (count : s.opCount + s.execStack.length ≤ 201)
    (room : s.stack.length + s.altStack.length ≤ 1000) :
    (loopAt (eval checkSig hashers script) (List.replicate s.execStack.length (some (104, []), [])) s).1 = true := by
  obtain ⟨stack, altStack, execStack, opCount, own⟩ := s
  dsimp only at count room ⊢
  induction execStack generalizing opCount with
  | nil => rfl
  | cons value branches ih =>
    rw [List.length_cons] at count
    rw [List.length_cons, List.replicate_succ]
    have passed : pass (eval checkSig hashers script) 104 [] [] ⟨stack, altStack, value :: branches, opCount, own⟩ =
        .next ⟨stack, altStack, branches, opCount + 1, own⟩ := by
      refine pass_next.mpr ⟨Nat.zero_le _, fun _ => ?_, rfl, ?_, room⟩
      · show opCount < 201
        omega
      · unfold instruction
        rw [show decide (104 ≤ 78) = false from rfl, Bool.and_false, if_neg Bool.false_ne_true,
          show decide (99 ≤ 104 ∧ 104 ≤ 104) = true from rfl, Bool.or_true]
        rfl
    rw [loopAt_next passed]
    exact ih (opCount + 1) (by omega)

/-! ### Evaluations -/

/-- **An evaluation that comes to an undefined opcode fails exactly where the opcode exceeds the limits or the rest of
the script fails without it; whatever the rest is, exactly where the branches cannot be closed any more.** -/
theorem run_undefinedOpcode_iff
    (point : At checkSig hashers script start path ((some (opcode, value), current) :: rest) s)
    (undefined_ : Undefined opcode s) :
    ((run checkSig hashers script start).1 = false ↔
        Exceeds opcode s ∨ (loopAt (eval checkSig hashers script) rest (counted opcode s)).1 = false) ∧
      ((∀ later, (loopAt (eval checkSig hashers script) ((some (opcode, value), current) :: later) s).1 = false) ↔
        201 < (counted opcode s).opCount + s.execStack.length ∨ 1000 < s.stack.length + s.altStack.length) := by
  obtain rfl : value = [] := by
    have member := ops_of_opsAt (point.reached.suffix.subset List.mem_cons_self)
    by_contra filled
    have low := opcode_le_of_value member filled
    have high := undefined_.high
    omega
  obtain ⟨ended, skipped⟩ := @pass_undefinedOpcode checkSig hashers script current opcode s undefined_
  have within : s.opCount ≤ 201 :=
    (point.reached.count (eval_lawful checkSig hashers script) rfl).2
  have count := counted_opCount opcode s
  constructor
  · rw [point.run_eq]
    by_cases exceeds : Exceeds opcode s
    · obtain ⟨s', passed⟩ := ended exceeds
      rw [loopAt_done passed]
      exact iff_of_true rfl (.inl exceeds)
    · rw [loopAt_next (skipped exceeds), or_iff_right exceeds]
  · by_cases exceeds : Exceeds opcode s
    · obtain ⟨s', passed⟩ := ended exceeds
      refine iff_of_true (fun later => by rw [loopAt_done passed]) ?_
      rcases exceeds with ⟨high, many⟩ | full
      · rw [count, if_pos high]
        omega
      · exact .inr full
    · have room : s.stack.length + s.altStack.length ≤ 1000 := Nat.not_lt.mp fun full => exceeds (.inr full)
      have few : (counted opcode s).opCount ≤ 201 :=
        counted_le (fun high => Nat.lt_of_not_le fun many => exceeds (.inl ⟨high, many⟩)) within
      rw [or_iff_left (Nat.not_lt.mpr room), ← counted_execStack opcode s]
      constructor
      · intro all
        by_contra closable
        have failed := all (List.replicate (counted opcode s).execStack.length (some (104, []), []))
        rw [loopAt_next (skipped exceeds), loopAt_closes (Nat.not_lt.mp closable) (by simpa using room)] at failed
        cases failed
      · intro unfinished later
        rw [loopAt_next (skipped exceeds)]
        exact Bool.eq_false_iff.mpr fun done => absurd (loopAt_open few done) (Nat.not_le.mpr unfinished)

end Turns

/-- `OP_RESERVED` before `OP_RETURN`. -/
theorem run_undefinedOpcode_return :
    (run (fun _ _ _ => true) Small.hashers [80, 106] new).1 = false :=
  (run_undefinedOpcode_iff (⟨by decide, .start⟩ : At (fun _ _ _ => true) Small.hashers [80, 106] new []
    ((some (80, []), [106]) :: [(some (106, []), [])]) new) (.inl ⟨rfl, .inl rfl⟩)).1.mpr (.inr rfl)

/-- Undefined opcodes before `OP_1`, also in a branch that is not executed. -/
theorem run_undefinedOpcode_true :
    At (fun _ _ _ => true) Small.hashers [80, 81] new [] [(some (80, []), [81]), (some (81, []), [])] new ∧
      Undefined 80 new ∧
      (∀ opcode ∈ [80, 98, 101, 102, 137, 138, 186, 234, 255],
        (run (fun _ _ _ => true) Small.hashers [opcode, 81] new).1 = true) ∧
      (run (fun _ _ _ => true) Small.hashers [0, 99, 101, 102, 104, 81] new).1 = true ∧
        Transaction.verifyScripts Small.hashers (fun _ _ _ => false) [81] [98, 81] true = some true :=
  ⟨⟨by decide, .start⟩, .inl ⟨rfl, .inl rfl⟩, by decide +kernel, by decide +kernel, by decide +kernel⟩

end TxEvaluator

end Libcoin
