/-
The limits of an evaluation.

* `WithinLimits` are the limits at a point: the stacks, the values on them, the results of the numeric opcodes, and the
  operations that were executed.
* `Lawful` is what each call of `eval` has to keep. `Reaches.withinLimits` concludes that an evaluation is within the
  limits at every point.
* `eval_lawful` and `TxEvaluator.eval_lawful` are the two functions `eval`, of which the second counts the keys of a
  check as operations as well.
-/

import Libcoin.Script.MultiSig
import Libcoin.Script.Passes

namespace Libcoin

open Evaluator

namespace Evaluator

variable {Own : Type}

/-! ### The limits -/

/-- The opcodes that leave the result of a calculation: the small numbers, `OP_DEPTH`, `OP_SIZE`, and those from
`OP_1ADD` to `OP_WITHIN`. -/
def numeric (opcode : Nat) : Bool :=
  decide (opcode = 79 ∨ 81 ≤ opcode ∧ opcode ≤ 96 ∨ opcode = 116 ∨ opcode = 130 ∨ 139 ≤ opcode ∧ opcode ≤ 165)

/-- What an instruction counts that was executed: one if it is more than a push, and its keys. -/
def Passed.cost (keys : Nat → List Data → Nat) (passed : Passed Own) : Nat :=
  if passed.Executed then (if 96 < passed.opcode then 1 else 0) + keys passed.opcode passed.before.stack else 0

theorem Passed.cost_le (keys : Nat → List Data → Nat) (passed : Passed Own) :
    passed.cost keys ≤ (if 96 < passed.opcode then 1 else 0) + keys passed.opcode passed.before.stack := by
  unfold cost
  split
  · exact le_rfl
  · exact Nat.zero_le _

/-- The limits at a point, with the number of keys that an opcode finds on a stack. -/
structure WithinLimits (keys : Nat → List Data → Nat) (path : List (Passed Own)) (s : Evaluator Own) : Prop where
  room : s.stack.length + s.altStack.length ≤ 1000
  values : ∀ value ∈ s.stack ++ s.altStack, value.length ≤ maxElementSize
  /-- Of a result that is verified nothing is left. -/
  results : ∀ passed ∈ path, passed.before.exec = true → numeric passed.opcode = true →
    ∃ result rest, result.length ≤ 5 ∧
      verified (decide (passed.opcode = 157)) (result :: rest) = some passed.after.stack
  operations : (path.map (Passed.cost keys)).sum ≤ 201

/-- What a function `eval` keeps. -/
structure Lawful (keys : Nat → List Data → Nat) (evalAt : Script → Nat → Evaluator Own → Turn Own) : Prop where
  push : ∀ opcode ≤ 78, ∀ stack, keys opcode stack = 0
  short : ∀ {current opcode s s'}, evalAt current opcode s = .next s' → Short s.stack → Short s.altStack →
    s.stack.length ≤ 1000 → opcode < 256 → Short s'.stack ∧ Short s'.altStack
  result : ∀ {current opcode s s'}, evalAt current opcode s = .next s' → Short s.stack → s.stack.length ≤ 1000 →
    numeric opcode = true →
      ∃ result rest, result.length ≤ 5 ∧ verified (decide (opcode = 157)) (result :: rest) = some s'.stack
  count : ∀ {current opcode s s'}, evalAt current opcode s = .next s' → s.opCount ≤ 201 →
    s'.opCount = s.opCount + keys opcode s.stack ∧ s'.opCount ≤ 201

section Runs

variable {keys : Nat → List Data → Nat} {evalAt : Script → Nat → Evaluator Own → Turn Own} {opcode : Nat} {value : Data}
  {current : Script} {start s s' : Evaluator Own} {path : List (Passed Own)}
  {ops rest : List (Option (Nat × Data) × Script)}

theorem counted_le (few : 96 < opcode → s.opCount < 201) (count : s.opCount ≤ 201) :
    (counted opcode s).opCount ≤ 201 := by
  rw [counted_opCount]
  split
  · exact few ‹_›
  · exact count

/-- The count of a turn. -/
theorem Lawful.pass_count (lawful : Lawful keys evalAt) (passed : pass evalAt opcode value current s = .next s')
    (count : s.opCount ≤ 201) :
    s.opCount + Passed.cost keys ⟨opcode, current, s, s'⟩ ≤ s'.opCount ∧ s'.opCount ≤ 201 := by
  obtain ⟨-, few, -, turn, -⟩ := pass_next.mp passed
  have within := counted_le few count
  have charged := counted_opCount opcode s
  unfold instruction at turn
  rw [counted_exec] at turn
  have cost := Passed.cost_le keys ⟨opcode, current, s, s'⟩
  dsimp only at cost
  split at turn
  · rename_i pushed
    obtain ⟨-, low⟩ := Bool.and_eq_true_iff.mp pushed
    rw [lawful.push opcode (of_decide_eq_true low)] at cost
    cases turn
    refine ⟨?_, within⟩
    show _ ≤ (counted opcode s).opCount
    omega
  · split at turn
    · obtain ⟨sum, within'⟩ := lawful.count turn within
      rw [counted_stack] at sum
      exact ⟨by omega, within'⟩
    · rename_i skipped
      have free : Passed.cost keys ⟨opcode, current, s, s'⟩ = 0 := by
        refine if_neg fun executed => skipped (Bool.or_eq_true_iff.mpr ?_)
        exact Or.imp id (decide_eq_true ·) executed
      cases turn
      refine ⟨?_, within⟩
      rw [free, charged]
      omega

/-- The values and the result of a turn. -/
theorem Lawful.pass_short (lawful : Lawful keys evalAt) (passed : pass evalAt opcode value current s = .next s')
    (low : opcode < 256) (short : Short s.stack) (alt : Short s.altStack) (few : s.stack.length ≤ 1000) :
    Short s'.stack ∧ Short s'.altStack ∧ (s.exec = true → numeric opcode = true → ∃ result rest, result.length ≤ 5 ∧
      verified (decide (opcode = 157)) (result :: rest) = some s'.stack) := by
  obtain ⟨size, -, -, turn, -⟩ := pass_next.mp passed
  unfold instruction at turn
  rw [counted_exec] at turn
  split at turn
  · rename_i pushed
    obtain ⟨-, pushed⟩ := Bool.and_eq_true_iff.mp pushed
    have pushed : opcode ≤ 78 := of_decide_eq_true pushed
    cases turn
    rw [counted_stack, counted_altStack]
    refine ⟨.cons size short, alt, fun _ calculates => ?_⟩
    have calculates := of_decide_eq_true calculates
    omega
  · split at turn
    · have kept := lawful.short turn (by rwa [counted_stack]) (by rwa [counted_altStack]) (by rwa [counted_stack]) low
      exact ⟨kept.1, kept.2, fun _ => lawful.result turn (by rwa [counted_stack]) (by rwa [counted_stack])⟩
    · rename_i skipped
      cases turn
      rw [counted_stack, counted_altStack]
      exact ⟨short, alt, fun exec => absurd (Bool.or_eq_true_iff.mpr (.inl exec)) skipped⟩

/-- The operations at a point are not more than are counted. -/
theorem Reaches.count (lawful : Lawful keys evalAt) (reached : Reaches evalAt ops start path rest s)
    (idle : start.opCount = 0) : (path.map (Passed.cost keys)).sum ≤ s.opCount ∧ s.opCount ≤ 201 := by
  induction reached with
  | start =>
    rw [idle]
    exact ⟨le_rfl, Nat.zero_le _⟩
  | @pass path rest opcode value current s s' _ passed ih =>
    obtain ⟨step, within⟩ := lawful.pass_count passed ih.2
    rw [List.map_append, List.sum_append, List.map_singleton, List.sum_singleton]
    omega

/-- **An evaluation from empty stacks is within the limits at every point.** -/
theorem Reaches.withinLimits (lawful : Lawful keys evalAt) (reached : Reaches evalAt ops start path rest s)
    (bytes : ∀ opcode value current, (some (opcode, value), current) ∈ ops → opcode < 256) (stack : start.stack = [])
    (altStack : start.altStack = []) (idle : start.opCount = 0) : WithinLimits keys path s := by
  have sizes : Short s.stack ∧ Short s.altStack ∧ s.stack.length + s.altStack.length ≤ 1000 ∧
      ∀ passed ∈ path, passed.before.exec = true → numeric passed.opcode = true → ∃ result rest, result.length ≤ 5 ∧
        verified (decide (passed.opcode = 157)) (result :: rest) = some passed.after.stack := by
    induction reached with
    | start =>
      rw [stack, altStack]
      exact ⟨short_nil, short_nil, by decide, nofun⟩
    | @pass path rest opcode value current s s' reached passed ih =>
      obtain ⟨short, alt, room, before⟩ := ih
      obtain ⟨-, -, -, -, room'⟩ := pass_next.mp passed
      obtain ⟨short', alt', result⟩ := lawful.pass_short passed
        (bytes opcode value current (reached.suffix.subset List.mem_cons_self)) short alt (by omega)
      refine ⟨short', alt', room', fun other inside => ?_⟩
      rcases List.mem_append.mp inside with earlier | last
      · exact before other earlier
      · obtain rfl := List.mem_singleton.mp last
        exact result
  obtain ⟨short, alt, room, results⟩ := sizes
  exact ⟨room, fun value inside => (List.mem_append.mp inside).elim (short value) (alt value), results,
    (reached.count lawful idle).1.trans (reached.count lawful idle).2⟩

end Runs

/-! ### The base class -/

theorem numberBytes_le_five {n : Int} (small : n.natAbs < 2 ^ 32) : (numberBytes n).length ≤ 5 :=
  numberBytes_length (by omega)

/-- The results of the numeric opcodes. -/
theorem evalNext_result {hashers : Hashers} {opcode : Nat} {s s' : Evaluator Own}
    (next : evalNext hashers opcode s = some s') (short : Short s.stack) (few : s.stack.length ≤ 1000)
    (calculates : numeric opcode = true) :
    ∃ result rest, result.length ≤ 5 ∧ verified (decide (opcode = 157)) (result :: rest) = some s'.stack := by
  have calculates := of_decide_eq_true calculates
  have left {result : Data} {rest : List Data} (size : result.length ≤ 5) (other : opcode ≠ 157)
      (stack : s'.stack = result :: rest) : ∃ result rest, result.length ≤ 5 ∧
        verified (decide (opcode = 157)) (result :: rest) = some s'.stack := by
    refine ⟨result, rest, size, ?_⟩
    rw [decide_eq_false other, stack]
    rfl
  unfold evalNext at next
  dsimp only at next
  split at next
  · obtain rfl := Option.some.inj next
    exact left (numberBytes_le_five (by omega)) (by omega) rfl
  · rw [if_neg (by omega), if_neg (by omega)] at next
    split at next
    · obtain rfl : opcode = 116 := by omega
      obtain ⟨stack, moved, rfl⟩ := Option.map_eq_some_iff.mp next
      obtain rfl := Option.some.inj moved
      exact left (numberBytes_le_five (by omega)) (by omega) rfl
    · rw [if_neg (by omega), if_pos (by omega)] at next
      obtain ⟨stack, done, rfl⟩ := Option.map_eq_some_iff.mp next
      unfold calculate at done
      split at done
      · split at done
        · rename_i x rest given
          obtain rfl := Option.some.inj done
          have size : x.length ≤ maxElementSize := (given ▸ short).head
          unfold maxElementSize at size
          exact left (numberBytes_le_five (by omega)) (by omega) rfl
        · cases done
      · rw [if_neg (by omega)] at done
        split at done
        · split at done
          · obtain ⟨n, cast, rfl⟩ := Option.map_eq_some_iff.mp done
            exact left (numberBytes_length (unary_bound opcode (castToBigNum_bound cast))) (by omega) rfl
          · cases done
        · split at done
          · split at done
            · obtain ⟨n, second, done⟩ := Option.bind_eq_some_iff.mp done
              obtain ⟨m, top, done⟩ := Option.bind_eq_some_iff.mp done
              have small := binary_bound opcode (castToBigNum_bound second) (castToBigNum_bound top)
              exact ⟨_, _, numberBytes_length small, done⟩
            · cases done
          · split at done
            · obtain ⟨n, -, done⟩ := Option.bind_eq_some_iff.mp done
              obtain ⟨low, -, done⟩ := Option.bind_eq_some_iff.mp done
              obtain ⟨high, -, done⟩ := Option.bind_eq_some_iff.mp done
              obtain rfl := Option.some.inj done
              refine left ?_ (by omega) rfl
              unfold boolBytes
              split <;> decide
            · cases done

theorem eval_next {hashers : Hashers} {opcode : Nat} {s s' : Evaluator Own} (turn : eval hashers opcode s = .next s') :
    evalNext hashers opcode s = some s' := by
  unfold eval at turn
  split at turn
  · cases turn
    assumption
  · cases turn

/-- The base class counts no keys. -/
theorem eval_lawful (hashers : Hashers) : @Lawful Own (fun _ _ => 0) fun _ => eval hashers where
  push _ _ _ := rfl
  short turn short alt few low := evalNext_short (eval_next turn) short alt few low
  result turn short few calculates := evalNext_result (eval_next turn) short few calculates
  count turn count := by
    have same := (evalNext_keeps (eval_next turn)).2
    exact ⟨same, same.trans_le count⟩

end Evaluator

/-! ### The subclass -/

namespace TxEvaluator

/-- The number of keys that `OP_CHECKMULTISIG` and `OP_CHECKMULTISIGVERIFY` find on a stack. -/
def multiSigKeys (opcode : Nat) (stack : List Data) : Nat :=
  if opcode = 174 ∨ opcode = 175 then ((castToBigNum (stack.headD [])).getD 0).toNat else 0

section Turns

variable {checkSig : Data → Data → Script → Bool} {hashers : Hashers} {script current : Script} {opcode : Nat}
  {verify result : Bool} {stack : List Data} {s s' : TxEvaluator}

/-- A result that is left changes nothing else. -/
theorem leave_next (left : leave verify result stack s = .next s') :
    s'.opCount = s.opCount ∧ s'.execStack = s.execStack := by
  unfold leave at left
  split at left
  · cases left
    exact ⟨rfl, rfl⟩
  · split at left
    · cases left
      exact ⟨rfl, rfl⟩
    · cases left

theorem evalCheckSig_next (turn : evalCheckSig checkSig verify script s = .next s') :
    s'.opCount = s.opCount ∧ s'.execStack = s.execStack := by
  unfold evalCheckSig at turn
  split at turn
  · split at turn
    · cases turn
    · exact leave_next turn
  · cases turn

theorem evalCheckMultiSig_next (turn : evalCheckMultiSig checkSig verify script s = .next s') :
    s'.opCount = s.opCount + ((castToBigNum (s.stack.headD [])).getD 0).toNat ∧ s'.opCount ≤ 201 ∧
      s'.execStack = s.execStack := by
  by_cases given : ∃ keys sigs rest, MultiSigArgs s.stack keys sigs rest ∧ s.opCount + keys.length ≤ 201
  · obtain ⟨keys, sigs, rest, args, room⟩ := given
    rw [evalCheckMultiSig_args args room] at turn
    cases known : code script s.own.separator with
    | none =>
      rw [known] at turn
      cases turn
    | some scriptCode =>
      rw [known] at turn
      obtain ⟨count, branches⟩ := leave_next turn
      obtain ⟨keysCount, sigsCount, extra, counted, -, stack⟩ := args.given
      have size : ((castToBigNum (s.stack.headD [])).getD 0).toNat = keys.length := by
        rw [stack, List.headD_cons, counted]
        rfl
      rw [size]
      exact ⟨count, count.trans_le room, branches⟩
  · obtain ⟨count, refused⟩ := @evalCheckMultiSig_refused checkSig script verify s fun keys sigs rest args =>
      Nat.lt_of_not_le fun room => given ⟨keys, sigs, rest, args, room⟩
    rw [refused] at turn
    cases turn

/-- What a turn of the subclass is for the count and the branches: one of the base class, and the keys. -/
theorem eval_next (turn : eval checkSig hashers script current opcode s = .next s') :
    ∃ s₁, evalNext hashers opcode s = some s₁ ∧ s'.execStack = s₁.execStack ∧
      s'.opCount = s₁.opCount + multiSigKeys opcode s₁.stack ∧ (s₁.opCount ≤ 201 → s'.opCount ≤ 201) := by
  unfold eval Evaluator.eval at turn
  cases base : evalNext hashers opcode s with
  | none =>
    rw [base] at turn
    cases turn
  | some s₁ =>
    rw [base] at turn
    dsimp only at turn
    refine ⟨s₁, rfl, ?_⟩
    unfold multiSigKeys
    split at turn
    · cases turn
      rw [if_neg (by omega)]
      exact ⟨rfl, rfl, id⟩
    · split at turn
      · obtain ⟨count, branches⟩ := evalCheckSig_next turn
        rw [if_neg (by omega)]
        exact ⟨branches, count, fun within => count.trans_le within⟩
      · split at turn
        · rename_i multi
          obtain ⟨count, within, branches⟩ := evalCheckMultiSig_next turn
          rw [if_pos multi]
          exact ⟨branches, count, fun _ => within⟩
        · rename_i other
          cases turn
          rw [if_neg other]
          exact ⟨rfl, rfl, id⟩

theorem eval_lawful (checkSig : Data → Data → Script → Bool) (hashers : Hashers) (script : Script) :
    Lawful multiSigKeys (eval checkSig hashers script) where
  push opcode low stack := if_neg (by omega)
  short turn short alt few low := eval_short turn short alt few low
  result {current opcode s s'} turn short few calculates := by
    have low : opcode < 171 := by
      have calculates := of_decide_eq_true calculates
      omega
    rw [eval_base (.inl low)] at turn
    exact evalNext_result (Evaluator.eval_next turn) short few calculates
  count {current opcode s s'} turn count := by
    obtain ⟨s₁, base, -, sum, within⟩ := eval_next turn
    have same := (evalNext_keeps base).2
    have keys : multiSigKeys opcode s₁.stack = multiSigKeys opcode s.stack := by
      unfold multiSigKeys
      split
      · rename_i multi
        have base' : evalNext hashers opcode s = some s := by
          rcases multi with rfl | rfl <;> rfl
        cases base.symm.trans base'
        rfl
      · rfl
    rw [same, keys] at sum
    exact ⟨sum, within (same.trans_le count)⟩

end Turns

end TxEvaluator

/-! ### Both -/

/-- **At every point of an evaluation from empty stacks, by the base class or with a transaction, the stacks hold at
most 1000 values of at most 520 bytes, the numeric results have had at most 5 bytes, and at most 201 operations were
executed.** -/
theorem evaluation_withinLimits (hashers : Hashers) (script : Script) :
    (∀ (Own : Type) (own : Own) path rest s, script.length ≤ 10000 →
      Reaches (fun _ => Evaluator.eval hashers) (Script.opsAt script) (Evaluator.new own) path rest s →
        WithinLimits (fun _ _ => 0) path s) ∧
    ∀ checkSig path rest s, TxEvaluator.At checkSig hashers script TxEvaluator.new path rest s →
      WithinLimits TxEvaluator.multiSigKeys path s := by
  have bytes : ∀ opcode value current, (some (opcode, value), current) ∈ Script.opsAt script → opcode < 256 :=
    fun opcode value current member => ops_lt (TxEvaluator.ops_of_opsAt member)
  exact ⟨fun Own own path rest s _ reached => reached.withinLimits (eval_lawful hashers) bytes rfl rfl rfl,
    fun checkSig path rest s point =>
      point.reached.withinLimits (TxEvaluator.eval_lawful checkSig hashers script) bytes rfl rfl rfl⟩

/-- A check of one signature by one key, after a sum. -/
theorem evaluation_withinLimits_sum :
    ∃ path s, (TxEvaluator.run (fun _ _ _ => true) Small.hashers [81, 82, 147, 81, 81, 81, 81, 174]
        TxEvaluator.new) = (true, s) ∧
      s.stack = [[1]] ∧ WithinLimits TxEvaluator.multiSigKeys path s := by
  have done : TxEvaluator.run (fun _ _ _ => true) Small.hashers [81, 82, 147, 81, 81, 81, 81, 174] TxEvaluator.new =
    (true, { TxEvaluator.new with stack := [[1]], opCount := 3 }) := rfl
  obtain ⟨path, point⟩ := TxEvaluator.run_end done
  exact ⟨path, _, done, rfl, (evaluation_withinLimits Small.hashers _).2 _ path [] _ point⟩

end Libcoin
