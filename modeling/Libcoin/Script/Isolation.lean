/-
What the evaluation of an output script sees of the signature script.

* `LeavesSame`: two signature scripts leave the same second stack and no place of a separator, or nothing to go on
  with.
* `verifyOutput_congr` and `verifyOutput_defined`: then nothing else of the evaluator is left over.
* `result_fill`, `result_compareAlt` and `result_checkSig` are the output scripts that see the size of the second
  stack, a value on it, and the place of a separator.

An evaluation has 201 opcodes, so a value too deep on the second stack is out of sight.
-/

import Libcoin.Script.TransactionEvaluator

namespace Libcoin

open Evaluator TxEvaluator

namespace Script

/-- A script to pay to another one. -/
theorem ops_payToScriptHash {script : Script} (form : script.isPayToScriptHash = true) :
    ∃ hash, ops script = [some (169, []), some (20, hash), some (135, [])] := by
  obtain ⟨size, first, second, last⟩ := of_decide_eq_true form
  match script with
  | [] => cases size
  | [_] => cases size
  | byte₀ :: byte₁ :: rest =>
    obtain rfl : byte₀ = 169 := first
    obtain rfl : byte₁ = 0x14 := second
    have long : rest.length = 21 := by simpa using size
    have end_ : rest.drop 20 = [135] := by
      rw [List.drop_eq_getElem_cons (by omega : 20 < rest.length), List.drop_eq_nil_of_le (by omega)]
      have last : rest.getD 20 0 = 135 := last
      rw [List.getD_eq_getElem?_getD, List.getElem?_eq_getElem (by omega), Option.getD_some] at last
      rw [last]
    refine ⟨rest.take 20, ?_⟩
    have pushed : getOp (0x14 :: rest) = some (20, rest.take 20, [135]) := by
      rw [← end_]
      exact (if_neg (Nat.not_lt.mpr (by omega)) : operand 20 20 rest = _)
    rw [ops_opcode (by decide), ops_cons pushed]
    rfl

/-- An opcode so many times. -/
theorem ops_replicate {byte : UInt8} (high : 78 < byte.toNat) (count : Nat) (rest : Script) :
    ops (List.replicate count byte ++ rest) = List.replicate count (some (byte.toNat, [])) ++ ops rest := by
  induction count with
  | zero => rfl
  | succ count ih =>
    rw [List.replicate_succ, List.cons_append, ops_opcode high, ih]
    rfl

/-- `OP_1` so many times. -/
def fill (count : Nat) : Script := List.replicate count 81

theorem ops_fill (count : Nat) : ops (fill count) = List.replicate count (some (81, [])) := by
  have all := @ops_replicate 81 (by decide) count []
  rwa [List.append_nil, ops_nil, List.append_nil] at all

/-- Compares a value of the second stack with the given one. -/
def compareAlt (depth : Nat) (value : Data) : Script :=
  List.replicate (depth + 1) 108 ++ 119 :: (pushData value ++ [135])

theorem ops_compareAlt (depth : Nat) {value : Data} (short : value.length < 2 ^ 32) :
    ∃ opcode ≤ 78, ops (compareAlt depth value) =
      List.replicate (depth + 1) (some (108, [])) ++ [some (119, []), some (opcode, value), some (135, [])] := by
  obtain ⟨opcode, low, pushed⟩ := ops_pushData short [135]
  refine ⟨opcode, low, ?_⟩
  unfold compareAlt
  rw [ops_replicate (by decide), ops_opcode (by decide), pushed]
  rfl

end Script

/-! ### A second evaluation -/

namespace TxEvaluator

variable {checkSig : Data → Data → Script → Bool} {hashers : Hashers} {script : Script} {s s' : TxEvaluator}

/-- What an evaluation starts from is all that it depends on. -/
theorem run_congr (same : s.restart = s'.restart) :
    run checkSig hashers script s = run checkSig hashers script s' := by
  unfold run
  rw [same]

/-- What a signature script leaves. -/
structure Left (s : TxEvaluator) : Prop where
  bounded : Bounded s
  closed : s.execStack = []
  known : Known s

theorem run_left (done : run checkSig hashers script new = (true, s)) : Left s := by
  obtain ⟨bounded, closed⟩ := run_true new_bounded done
  have known : Known (run checkSig hashers script new).2 := run_known rfl rfl
  rw [done] at known
  exact ⟨bounded, closed, known⟩

/-- Two evaluators that a signature script left, without places of separators. -/
theorem Left.restart_eq (left : Left s) (left' : Left s') (stack : s.stack = s'.stack)
    (altStack : s.altStack = s'.altStack) (fresh : s.own.separator = .none) (fresh' : s'.own.separator = .none) :
    s.restart = s'.restart := by
  have own : s.own = s'.own := by
    cases own : s.own
    cases own' : s'.own
    have defined := left.known.2
    have defined' := left'.known.2
    rw [own] at fresh defined
    rw [own'] at fresh' defined'
    subst fresh fresh' defined defined'
    rfl
  unfold restart
  rw [stack, altStack, left.closed, left'.closed, own]

/-! ### Output scripts that tell them apart -/

theorem instruction_one (idle : s.execStack = []) :
    instruction (Evaluator.eval hashers) 81 [] s = .next { s with stack := [1] :: s.stack } := by
  rw [instruction_eval idle (by decide)]
  rfl

/-- `OP_1` so many times. -/
theorem loop_fill (idle : s.execStack = []) {count : Nat}
    (room : s.stack.length + s.altStack.length + count ≤ 1000) :
    loop (Evaluator.eval hashers) (List.replicate count (some (81, []))) s =
      (true, { s with stack := List.replicate count [1] ++ s.stack }) := by
  induction count generalizing s with
  | zero => exact Prod.ext (List.isEmpty_iff.mpr idle) rfl
  | succ count ih =>
    have one : ([1] :: s.stack).length + s.altStack.length + count ≤ 1000 := by
      rw [List.length_cons]
      omega
    have further := @ih { s with stack := [1] :: s.stack } idle one
    rw [List.replicate_succ, loop_next (Nat.zero_le _) (by decide) (instruction_one idle)
      ((Nat.le_add_right _ _).trans one), further,
      List.replicate_succ', List.append_assoc]
    rfl

/-- `OP_1` once too often. -/
theorem loop_overfill (idle : s.execStack = []) {count : Nat} (room : s.stack.length + s.altStack.length ≤ 1000)
    (excess : 1000 < s.stack.length + s.altStack.length + count) :
    (loop (Evaluator.eval hashers) (List.replicate count (some (81, []))) s).1 = false := by
  induction count generalizing s with
  | zero => omega
  | succ count ih =>
    rw [List.replicate_succ, loop_low (Nat.zero_le _) (by decide), instruction_one idle]
    dsimp only
    split
    · rfl
    · rename_i still
      exact ih idle (Nat.not_lt.mp still) (by simp; omega)

theorem eval_fromAlt {value : Data} {values : List Data} (given : s.altStack = value :: values) :
    Evaluator.eval hashers 108 s = .next { s with stack := value :: s.stack, altStack := values } := by
  obtain ⟨stack, altStack, execStack, opCount, own⟩ := s
  cases given
  rfl

/-- `OP_FROMALTSTACK` so many times. -/
theorem loop_fromAlt (idle : s.execStack = []) {count : Nat} (deep : count ≤ s.altStack.length)
    (few : s.opCount + count ≤ 201) (room : s.stack.length + s.altStack.length ≤ 1000)
    (rest : List (Option (Nat × Data))) :
    loop (Evaluator.eval hashers) (List.replicate count (some (108, [])) ++ rest) s =
      loop (Evaluator.eval hashers) rest
        { s with
          stack := (s.altStack.take count).reverse ++ s.stack
          altStack := s.altStack.drop count
          opCount := s.opCount + count } := by
  induction count generalizing s with
  | zero => rfl
  | succ count ih =>
    obtain ⟨value, values, given⟩ := List.exists_cons_of_length_pos (Nat.zero_lt_of_lt deep)
    rw [given, List.length_cons] at deep room
    have turn : instruction (Evaluator.eval hashers) 108 [] { s with opCount := s.opCount + 1 } =
        .next { s with stack := value :: s.stack, altStack := values, opCount := s.opCount + 1 } :=
      (@instruction_eval _ _ _ _ { s with opCount := s.opCount + 1 } idle (by decide)).trans (eval_fromAlt given)
    have taken : (value :: s.stack).length + values.length ≤ 1000 := by
      rw [List.length_cons]
      omega
    have further := @ih { s with stack := value :: s.stack, altStack := values, opCount := s.opCount + 1 } idle
      (Nat.le_of_succ_le_succ deep) (by dsimp only; omega) taken
    rw [List.replicate_succ, List.cons_append, loop_counted (by decide) (by decide) (by omega) turn taken,
      further]
    simp [given, Nat.add_assoc, Nat.add_comm 1]

/-- The top is compared with the given value, when another one under it made room. -/
theorem loop_compare (idle : s.execStack = []) {given second value : Data} {others : List Data} {opcode : Nat}
    (stack : s.stack = given :: second :: others) (few : s.opCount + 2 ≤ 201)
    (room : (given :: second :: others).length + s.altStack.length ≤ 1000) (low : opcode ≤ 78)
    (short : value.length ≤ maxElementSize) :
    loop (Evaluator.eval hashers) [some (119, []), some (opcode, value), some (135, [])] s =
      (true, { s with stack := boolBytes (decide (given = value)) :: others, opCount := s.opCount + 2 }) := by
  obtain ⟨stack', altStack, execStack, opCount, own⟩ := s
  dsimp only at idle stack few room ⊢
  subst idle stack
  simp only [List.length_cons] at room
  have nip : instruction (Evaluator.eval hashers) 119 []
      (Evaluator.mk (given :: second :: others) altStack [] (opCount + 1) own) =
        .next (Evaluator.mk (given :: others) altStack [] (opCount + 1) own) := rfl
  have push : instruction (Evaluator.eval hashers) opcode value
      (Evaluator.mk (given :: others) altStack [] (opCount + 1) own) =
        .next (Evaluator.mk (value :: given :: others) altStack [] (opCount + 1) own) := instruction_push rfl low
  have equal : instruction (Evaluator.eval hashers) 135 []
      (Evaluator.mk (value :: given :: others) altStack [] (opCount + 2) own) =
        .next (Evaluator.mk (boolBytes (decide (given = value)) :: others) altStack [] (opCount + 2) own) := rfl
  rw [loop_counted (by decide) (by decide) (by dsimp only; omega) nip (by simp only [List.length_cons]; omega),
    loop_next short (by omega) push (by simp only [List.length_cons]; omega),
    loop_counted (by decide) (by decide) (by dsimp only; omega) equal (by simp only [List.length_cons]; omega)]
  rfl

theorem loopAt_one (idle : s.execStack = []) {current : Script} {rest : List (Option (Nat × Data) × Script)}
    (room : ([1] :: s.stack).length + s.altStack.length ≤ 1000) :
    loopAt (TxEvaluator.eval checkSig hashers script) ((some (81, []), current) :: rest) s =
      loopAt (TxEvaluator.eval checkSig hashers script) rest { s with stack := [1] :: s.stack } := by
  have turn : instruction (TxEvaluator.eval checkSig hashers script current) 81 [] s =
      .next { s with stack := [1] :: s.stack } := by
    rw [instruction_eval idle (by decide), eval_base (.inl (by decide))]
    rfl
  rw [loopAt, if_neg (by decide)]
  dsimp only
  rw [if_neg (show ¬96 < 81 by decide), if_neg (show ¬(96 < 81 ∧ 201 < s.opCount) by omega),
    if_neg (show ¬disabled 81 = true by decide), turn]
  exact if_neg (by dsimp only; omega)

/-- The check of a signature with a place of a separator before this script. -/
theorem loopAt_checkSig (idle : s.execStack = []) (before : s.own.separator = .before) (uncounted : s.opCount = 0)
    {vchPubKey vchSig : Data} {rest : List Data} (stack : s.stack = vchPubKey :: vchSig :: rest) :
    (loopAt (TxEvaluator.eval checkSig hashers script) [(some (172, []), [])] s).2.own.undefined = true := by
  obtain ⟨stack', altStack, execStack, opCount, ⟨separator, undefined_⟩⟩ := s
  dsimp only at idle before uncounted stack
  subst idle before uncounted stack
  rfl

end TxEvaluator

namespace Transaction

section Same

variable {hashers : Hashers} {checkSig : Data → Data → Script → Bool} {pushOnly strict : Bool} {script : Script}
  {s s' : TxEvaluator}

theorem result_defined {evaluated : Bool × TxEvaluator} (defined : evaluated.2.own.undefined = false) :
    ∃ accepted, result evaluated = some accepted := by
  unfold result
  rw [defined]
  split
  · contradiction
  · split
    · exact ⟨_, rfl⟩
    · exact ⟨_, rfl⟩

/-- Where no separator was left, no iterator of another script is used. -/
theorem verifyOutput_defined (left : Left s) (fresh : s.own.separator = .none) :
    ∃ accepted, verifyOutput hashers checkSig pushOnly script strict s = some accepted := by
  have defined := left.known.2
  obtain ⟨accepted, evaluated⟩ := result_defined
    (@run_known checkSig hashers script s fresh defined).2
  unfold verifyOutput
  dsimp only
  rw [evaluated, Option.bind_eq_bind, Option.bind_some]
  cases accepted with
  | false => exact ⟨false, rfl⟩
  | true =>
    by_cases hashed : (strict && script.isPayToScriptHash) = true
    · cases pushOnly with
      | false => exact ⟨false, by rw [hashed]; rfl⟩
      | true =>
        obtain ⟨hash, ops⟩ := Script.ops_payToScriptHash (Bool.and_eq_true_iff.mp hashed).2
        -- the script with the hash has no separator either
        have own : (run checkSig hashers script s).2.own = s.own := by
          refine run_own fresh fun value => ?_
          rw [ops]
          simp
        obtain ⟨accepted, evaluated⟩ := result_defined
          (@run_known checkSig hashers (s.stack.headD [])
            { (run checkSig hashers script s).2 with stack := s.stack.tail } (own ▸ fresh) (own ▸ defined)).2
        refine ⟨accepted, ?_⟩
        rw [hashed]
        exact evaluated
    · exact ⟨true, by rw [Bool.eq_false_iff.mpr hashed]; rfl⟩

/-- Where a hash of a script is not looked at, the result is that of the output script. -/
theorem verifyOutput_plain :
    verifyOutput hashers checkSig pushOnly script false s = result (run checkSig hashers script s) := by
  unfold verifyOutput
  dsimp only
  cases result (run checkSig hashers script s) with
  | none => rfl
  | some accepted => cases accepted <;> rfl

/-- Two evaluators that start with the same members are not told apart. -/
theorem verifyOutput_congr (stack : s.stack = s'.stack) (same : s.restart = s'.restart) :
    verifyOutput hashers checkSig pushOnly script strict s =
      verifyOutput hashers checkSig pushOnly script strict s' := by
  unfold verifyOutput
  rw [run_congr same, stack]

end Same

/-! ### What they show -/

section Probes

variable {hashers : Hashers} {checkSig : Data → Data → Script → Bool} {script : Script} {s s' : TxEvaluator}

theorem result_failed {evaluated : Bool × TxEvaluator} (failed : evaluated.1 = false)
    (defined : evaluated.2.own.undefined = false) : result evaluated = some false := by
  unfold result
  rw [failed, defined]
  rfl

theorem result_top {top : Data} {rest : List Data} (stack : s.stack = top :: rest)
    (defined : s.own.undefined = false) :
    result (true, s) = some (castToBool top) := by
  unfold result
  rw [stack, defined]
  rfl

/-- A stack that is filled up to the limit shows how much room there was. -/
theorem result_fill (left : Left s) {count : Nat} (positive : 0 < count) (small : count ≤ 1000) :
    result (run checkSig hashers (Script.fill count) s) =
      some (decide (s.stack.length + s.altStack.length + count ≤ 1000)) := by
  have evaluated : run checkSig hashers (Script.fill count) s =
      loop (Evaluator.eval hashers) (List.replicate count (some (81, []))) s.restart := by
    rw [run_base, Script.ops_fill]
    · intro opcode value inside
      rw [Script.ops_fill] at inside
      cases List.eq_of_mem_replicate inside
      exact .inl (by decide)
    · rw [Script.fill, List.length_replicate]
      omega
  rw [evaluated]
  by_cases room : s.stack.length + s.altStack.length + count ≤ 1000
  · rw [@loop_fill hashers s.restart left.closed count room, decide_eq_true room]
    obtain ⟨less, rfl⟩ := Nat.exists_eq_succ_of_ne_zero positive.ne'
    exact @result_top { s.restart with stack := [1] :: List.replicate less [1] ++ s.stack } _ _ rfl left.known.2
  · have excess : 1000 < s.restart.stack.length + s.restart.altStack.length + count := Nat.not_le.mp room
    rw [decide_eq_false room]
    refine result_failed (@loop_overfill hashers s.restart left.closed count left.bounded.room excess) ?_
    rw [loop_own]
    exact left.known.2

theorem castToBool_boolBytes (value : Bool) : castToBool (boolBytes value) = value := by
  cases value <;> rfl

/-- A value of the second stack is compared. -/
theorem result_compareAlt (left : Left s) (nonempty : s.stack ≠ []) {depth : Nat} (shallow : depth ≤ 198)
    {value given : Data} (short : value.length ≤ maxElementSize) (at_ : s.altStack[depth]? = some given) :
    result (run checkSig hashers (Script.compareAlt depth value) s) = some (decide (given = value)) := by
  have size : value.length ≤ 520 := short
  obtain ⟨opcode, low, ops⟩ := @Script.ops_compareAlt depth value (size.trans_lt (by decide))
  have evaluated : run checkSig hashers (Script.compareAlt depth value) s =
      loop (Evaluator.eval hashers) (List.replicate (depth + 1) (some (108, [])) ++
        [some (119, []), some (opcode, value), some (135, [])]) s.restart := by
    rw [run_base, ops]
    · intro other value' inside
      rw [ops] at inside
      refine .inl ?_
      rcases List.mem_append.mp inside with moved | last
      · cases List.eq_of_mem_replicate moved
        decide
      · simp only [List.mem_cons, Option.some.injEq, Prod.mk.injEq, List.not_mem_nil, or_false] at last
        omega
    · have pushed := Script.pushData_length value
      unfold Script.compareAlt
      rw [List.length_append, List.length_replicate, List.length_cons, List.length_append]
      simp only [List.length_cons, List.length_nil]
      omega
  obtain ⟨deep, -⟩ := List.getElem?_eq_some_iff.mp at_
  obtain ⟨second, others, under⟩ : ∃ second others,
    (s.altStack.take depth).reverse ++ s.stack = second :: others :=
    List.exists_cons_of_ne_nil fun empty => nonempty (List.append_eq_nil_iff.mp empty).2
  have top : (s.altStack.take (depth + 1)).reverse ++ s.stack = given :: second :: others := by
    rw [List.take_add_one, at_, List.reverse_append, List.append_assoc, under]
    rfl
  have total : (given :: second :: others).length + (s.altStack.drop (depth + 1)).length ≤ 1000 := by
    rw [← top, List.length_append, List.length_reverse, List.length_take, List.length_drop]
    have room := left.bounded.room
    omega
  have moved := @loop_fromAlt hashers s.restart left.closed (depth + 1) deep (show 0 + (depth + 1) ≤ 201 by omega)
    left.bounded.room [some (119, []), some (opcode, value), some (135, [])]
  rw [show s.restart.altStack = s.altStack from rfl, show s.restart.stack = s.stack from rfl, top] at moved
  have compared := @loop_compare hashers
    { s.restart with
      stack := given :: second :: others, altStack := s.altStack.drop (depth + 1), opCount := 0 + (depth + 1) }
    left.closed given second value others opcode rfl (show 0 + (depth + 1) + 2 ≤ 201 by omega) total low short
  have shown := @result_top
    { s.restart with
      stack := boolBytes (decide (given = value)) :: others
      altStack := s.altStack.drop (depth + 1)
      opCount := 0 + (depth + 1) + 2 } _ _ rfl left.known.2
  rw [castToBool_boolBytes] at shown
  rw [evaluated, moved]
  exact (congrArg result compared).trans shown

/-- A place of a separator before this script shows in a check of a signature. -/
theorem result_checkSig (left : Left s) (placed : s.own.separator ≠ .none) (nonempty : s.stack ≠ [])
    (few : s.altStack.length ≤ 199) : ∃ script, result (run checkSig hashers script s) = none := by
  have before : s.restart.own.separator = .before := if_neg placed
  have undefined_ {evaluated : Bool × TxEvaluator} (used : evaluated.2.own.undefined = true) :
      result evaluated = none := by
    unfold result
    rw [used]
    rfl
  obtain ⟨top, rest, stack⟩ := List.exists_cons_of_ne_nil nonempty
  cases rest with
  | cons second others => exact ⟨[172], undefined_ (loopAt_checkSig
    (s := s.restart) left.closed before rfl stack)⟩
  | nil =>
    refine ⟨[81, 172], undefined_ ?_⟩
    have pushed : { s.restart with stack := [1] :: s.stack }.stack = [1] :: top :: [] := congrArg ([1] :: ·) stack
    have room : { s.restart with stack := [1] :: s.stack }.stack.length + s.altStack.length ≤ 1000 := by
      rw [pushed]
      simp only [List.length_cons, List.length_nil]
      omega
    have one : run checkSig hashers [81, 172] s = _ := loopAt_one (s := s.restart) left.closed room
    rw [one]
    exact loopAt_checkSig (s := { s.restart with stack := [1] :: s.stack }) left.closed before rfl pushed

/-- No output script tells two evaluators apart. -/
def Alike (hashers : Hashers) (checkSig : Data → Data → Script → Bool) (s s' : TxEvaluator) : Prop :=
  ∀ script, ∃ accepted,
    result (run checkSig hashers script s) = some accepted ∧
      result (run checkSig hashers script s') = some accepted

theorem Alike.symm (alike : Alike hashers checkSig s s') : Alike hashers checkSig s' s := by
  intro script
  obtain ⟨accepted, first, second⟩ := alike script
  exact ⟨accepted, second, first⟩

/-- What remains under the limit would show. -/
theorem Alike.length_le (alike : Alike hashers checkSig s s') (left : Left s) (left' : Left s')
    (stack : s.stack = s'.stack) : s'.altStack.length ≤ s.altStack.length := by
  by_contra deeper
  have room := left.bounded.room
  have room' := left'.bounded.room
  rw [← stack] at room'
  obtain ⟨accepted, filled, excess⟩ := alike (.fill (1000 - (s.stack.length + s.altStack.length)))
  rw [result_fill left (by omega) (by omega), decide_eq_true (by omega)] at filled
  rw [result_fill left' (by omega) (by omega), ← stack, decide_eq_false (by omega)] at excess
  cases filled.trans excess.symm

theorem Alike.altStack_eq (alike : Alike hashers checkSig s s') (left : Left s) (left' : Left s')
    (stack : s.stack = s'.stack) (nonempty : s.stack ≠ []) (few : s.altStack.length ≤ 199) :
    s.altStack = s'.altStack := by
  have same : s.altStack.length = s'.altStack.length :=
    Nat.le_antisymm (alike.symm.length_le left' left stack.symm) (alike.length_le left left' stack)
  refine List.ext_getElem same fun depth inside inside' => ?_
  have short := left.bounded.altStack _ (List.getElem_mem inside)
  obtain ⟨accepted, own, other⟩ := alike (.compareAlt depth s.altStack[depth])
  rw [result_compareAlt left nonempty (by omega) short (List.getElem?_eq_getElem inside),
    decide_eq_true rfl] at own
  rw [result_compareAlt left' (stack ▸ nonempty) (by omega) short (List.getElem?_eq_getElem inside')] at other
  exact (of_decide_eq_true (Option.some.inj (other.trans own.symm))).symm

/-- A place of a separator leaves the result undefined. -/
theorem Alike.fresh (alike : Alike hashers checkSig s s') (left : Left s) (nonempty : s.stack ≠ [])
    (few : s.altStack.length ≤ 199) : s.own.separator = .none := by
  by_contra placed
  obtain ⟨script, undefined_⟩ := @result_checkSig hashers checkSig s left placed nonempty few
  obtain ⟨accepted, defined, -⟩ := alike script
  cases undefined_.symm.trans defined

end Probes

/-! ### The isolation of scripts -/

section Isolation

variable {hashers : Hashers} {signing : Signing} {txn : Transaction} {n : Nat} {type : Int} {sig sig' : Script}
  {s s' : TxEvaluator}

/-- The transaction with another signature script. -/
def withSignature (txn : Transaction) (n : Nat) (signature : Script) : Transaction :=
  { txn with inputs := txn.inputs.modify n fun input => { input with signature := signature } }

/-- The first evaluation of `verify`. -/
def evalSignature (hashers : Hashers) (signing : Signing) (txn : Transaction) (n : Nat) (type : Int)
    (sig : Script) :
    Bool × TxEvaluator :=
  run (checkSig signing (txn.withSignature n sig) n type) hashers sig new

/-- `verify` has the same defined result with two signature scripts, for every output script. -/
def Isolated (hashers : Hashers) (signing : Signing) (txn : Transaction) (n : Nat) (type : Int)
    (sig sig' : Script) :
    Prop :=
  ∀ script strict, ∃ accepted,
    verify hashers signing (txn.withSignature n sig) n script type strict = some accepted ∧
      verify hashers signing (txn.withSignature n sig') n script type strict = some accepted

/-- Two signature scripts leave the same second stack and no place of a separator, or nothing to go on with. -/
def LeavesSame (s s' : TxEvaluator) : Prop :=
  s.stack = [] ∨ s.altStack = s'.altStack ∧ s.own.separator = .none ∧ s'.own.separator = .none

/-- What does not look at the script of an input is kept. -/
theorem map_withSignature {α : Type} {part : Input → α} {signature : Script}
    (kept : ∀ input : Input, part { input with signature := signature } = part input) :
    (txn.withSignature n signature).inputs.map part = txn.inputs.map part := by
  refine List.ext_getElem? fun i => ?_
  unfold withSignature
  rw [List.getElem?_map, List.getElem?_map, List.getElem?_modify]
  cases txn.inputs[i]? with
  | none => rfl
  | some input =>
    refine congrArg some ?_
    dsimp only
    split
    · exact kept input
    · rfl

/-- The hashes that are signed do not depend on the signature script. -/
theorem checkSig_withSignature (signing : Signing) (type : Int) (valid : n < txn.inputs.length)
    (signature : Script) :
    checkSig signing (txn.withSignature n signature) n type = checkSig signing txn n type := by
  have cores := @map_withSignature txn n _ core signature fun _ => rfl
  have prevouts := congrArg (List.map Prod.fst) cores
  have sequences := congrArg (List.map Prod.snd) cores
  rw [List.map_map, List.map_map] at prevouts sequences
  have own := congrArg (·[n]?) cores
  simp only [List.getElem?_map] at own
  have sequence := congrArg (Option.map Prod.snd) own
  rw [Option.map_map, Option.map_map] at sequence
  have valid' : n < (txn.withSignature n signature).inputs.length := by
    have lengths := congrArg List.length cores
    rw [List.length_map, List.length_map] at lengths
    exact lengths ▸ valid
  have hashes (scriptCode : Script) (hashType : Int) :
      (txn.withSignature n signature).getSignatureHash signing.hash scriptCode n hashType =
        txn.getSignatureHash signing.hash scriptCode n hashType := by
    refine getSignatureHash_congr valid' valid rfl rfl (fun code => ?_) rfl
    unfold inputsOf
    split
    · rw [← Option.toList_map, ← Option.toList_map, map_signed own]
    · exact sealedInputs_congr prevouts sequence fun _ => sequences
  funext vchSig vchPubKey scriptCode
  unfold checkSig
  split
  · rfl
  · rw [hashes]

theorem verify_withSignature (valid : n < txn.inputs.length) (script : Script) (strict : Bool)
    (signature : Script) :
    verify hashers signing (txn.withSignature n signature) n script type strict =
      verifyScripts hashers (checkSig signing txn n type) signature script strict := by
  have input : (txn.withSignature n signature).inputs[n]? =
    some { txn.inputs[n] with signature := signature } := by
    unfold withSignature
    rw [List.getElem?_modify_eq, List.getElem?_eq_getElem valid]
    rfl
  unfold verify
  rw [input, checkSig_withSignature signing type valid]
  rfl

theorem verifyScripts_eq {checkSig : Data → Data → Script → Bool}
    (evaluated : run checkSig hashers sig new = (true, s)) (script : Script) (strict : Bool) :
    verifyScripts hashers checkSig sig script strict =
      if s.stack.isEmpty then some false else verifyOutput hashers checkSig sig.isPushOnly script strict s := by
  unfold verifyScripts
  rw [evaluated]
  dsimp only
  rw [(run_left evaluated).known.2]
  rfl

/-- **The output script sees of the signature script the main stack, the second stack and the place of a
separator.** -/
theorem verify_isolated (valid : n < txn.inputs.length)
    (first : evalSignature hashers signing txn n type sig = (true, s))
    (second : evalSignature hashers signing txn n type sig' = (true, s')) (stack : s.stack = s'.stack)
    (pushOnly : sig.isPushOnly = sig'.isPushOnly) :
    (LeavesSame s s' → Isolated hashers signing txn n type sig sig') ∧
      (s.altStack.length ≤ 199 → (Isolated hashers signing txn n type sig sig' ↔ LeavesSame s s')) := by
  unfold evalSignature at first second
  rw [checkSig_withSignature signing type valid] at first second
  have left := run_left first
  have left' := run_left second
  have enough (same : LeavesSame s s') : Isolated hashers signing txn n type sig sig' := by
    intro script strict
    rw [verify_withSignature valid, verify_withSignature valid, verifyScripts_eq first,
      verifyScripts_eq second, ← stack]
    rcases same with empty | ⟨altStack, fresh, fresh'⟩
    · rw [empty]
      exact ⟨false, rfl, rfl⟩
    · split
      · exact ⟨false, rfl, rfl⟩
      · obtain ⟨accepted, defined⟩ := verifyOutput_defined left fresh
        refine ⟨accepted, defined, ?_⟩
        rw [← pushOnly, ← verifyOutput_congr stack (left.restart_eq left' stack altStack fresh fresh')]
        exact defined
  refine ⟨enough, fun few => ⟨fun isolated => ?_, enough⟩⟩
  by_cases empty : s.stack = []
  · exact .inl empty
  have alike : Alike hashers (checkSig signing txn n type) s s' := by
    intro script
    obtain ⟨accepted, own, other⟩ := isolated script false
    rw [verify_withSignature valid, verifyScripts_eq first] at own
    rw [verify_withSignature valid, verifyScripts_eq second, ← stack] at other
    rw [if_neg (by simpa using empty), verifyOutput_plain] at own other
    exact ⟨accepted, own, other⟩
  have altStack := alike.altStack_eq left left' stack empty few
  exact .inr ⟨altStack, alike.fresh left empty few, alike.symm.fresh left' (stack ▸ empty) (altStack ▸ few)⟩

end Isolation

end Transaction

/-- No signature is accepted. -/
def Small.signing : Transaction.Signing := { hash := Small.digest, keyVerify := fun _ _ _ => false }

namespace Transaction

open Libcoin.Small in
/-- `1 1 TOALTSTACK` and `1 NOP` leave the same main stack, and `FROMALTSTACK` tells them apart. -/
theorem verify_not_isolated :
    let evaluated := evalSignature hashers signing (spendCoin 0 []) 0 0 [0x51, 0x51, 0x6b]
    let evaluated' := evalSignature hashers signing (spendCoin 0 []) 0 0 [0x51, 0x61]
    evaluated.1 = true ∧ evaluated'.1 = true ∧ evaluated.2.stack = evaluated'.2.stack ∧
      Script.isPushOnly [0x51, 0x51, 0x6b] = Script.isPushOnly [0x51, 0x61] ∧
      verify hashers signing ((spendCoin 0 []).withSignature 0 [0x51, 0x51, 0x6b]) 0 [0x6c] 0 false = some true ∧
      verify hashers signing ((spendCoin 0 []).withSignature 0 [0x51, 0x61]) 0 [0x6c] 0 false = some false := by
  decide +kernel

open Libcoin.Small in
/-- Two ways to push the same value. -/
theorem verify_isolated_push : Isolated hashers signing (spendCoin 0 []) 0 0 [0x51] [0x01, 0x01] :=
  (@verify_isolated hashers signing (spendCoin 0 []) 0 0 [0x51] [0x01, 0x01]
    { TxEvaluator.new with stack := [[1]] } { TxEvaluator.new with stack := [[1]] } (by decide) rfl rfl rfl
    (by decide)).1 (.inr ⟨rfl, rfl, rfl⟩)

end Transaction

end Libcoin
