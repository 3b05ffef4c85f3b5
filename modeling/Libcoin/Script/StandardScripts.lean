/-
What the standard forms of an output script ask of the values that a signature script pushes.

* `run_pushes` and `verifyScripts_pushes`: a signature script of pushes leaves its values.
* `result_pubKey`, `result_pubKeyHash` and `result_multiSig` compute the evaluation of each form.
-/

import Libcoin.Script.Isolation
import Libcoin.Script.MultiSig
import Libcoin.Script.Solver

namespace Libcoin

open Evaluator TxEvaluator Script

namespace TxEvaluator

variable {checkSig : Data → Data → Script → Bool} {hashers : Hashers} {script : Script} {s : TxEvaluator}

/-- Without separators the place in the script does not matter. -/
theorem run_ops (plain : ∀ value, some (171, value) ∉ ops script) (small : script.length ≤ 10000) :
    run checkSig hashers script s = loop (eval checkSig hashers script []) (ops script) s.restart := by
  unfold run
  rw [if_neg (by omega), ← opsAt_fst]
  refine loopAt_eq_loop _ _ (fun opcode value current inside => ?_) _
  have other : opcode ≠ 171 := by
    rintro rfl
    exact plain value (ops_of_opsAt inside)
  funext s
  unfold eval
  cases Evaluator.eval hashers opcode s with
  | done result s => rfl
  | next s =>
    dsimp only
    rw [if_neg other, if_neg other]

/-- A new evaluator with a stack, after so many opcodes that are counted. -/
def holding (stack : List Data) (opCount : Nat) : TxEvaluator := { new with stack := stack, opCount := opCount }

@[simp] theorem holding_restart (stack : List Data) (opCount : Nat) :
    (holding stack opCount).restart = holding stack 0 := rfl

theorem ops_pushes (args : List Data) (short : ∀ arg ∈ args, arg.length ≤ maxElementSize) {opcode : Nat}
    {value : Data} (member : some (opcode, value) ∈ ops (args.flatMap pushData)) : opcode ≤ 78 := by
  induction args with
  | nil => cases member
  | cons arg args ih =>
    have size := short arg List.mem_cons_self
    obtain ⟨opcode', low, read⟩ := @ops_pushData arg (size.trans_lt (by decide)) (args.flatMap pushData)
    rw [List.flatMap_cons, read] at member
    rcases List.mem_cons.mp member with here | later
    · cases here
      exact low
    · exact ih (fun arg inside => short arg (List.mem_cons_of_mem _ inside)) later

theorem pushes_length (args : List Data) (short : ∀ arg ∈ args, arg.length ≤ maxElementSize) :
    (args.flatMap pushData).length ≤ 525 * args.length := by
  induction args with
  | nil => exact le_rfl
  | cons arg args ih =>
    have size : arg.length ≤ 520 := short arg List.mem_cons_self
    have first := pushData_length arg
    have rest := ih fun arg inside => short arg (List.mem_cons_of_mem _ inside)
    rw [List.flatMap_cons, List.length_append, List.length_cons]
    omega

/-- A script of pushes leaves its values. -/
theorem run_pushes {args : List Data} (short : ∀ arg ∈ args, arg.length ≤ maxElementSize) (few : args.length ≤ 19) :
    run checkSig hashers (args.flatMap pushData) new = (true, holding args.reverse 0) := by
  have bytes := pushes_length args short
  have plain : ∀ value, some (171, value) ∉ ops (args.flatMap pushData) := fun value member =>
    absurd (ops_pushes args short member) (by decide)
  rw [run_ops plain (by omega)]
  have room : new.stack.length + new.altStack.length + args.length ≤ 1000 := by
    show 0 + 0 + args.length ≤ 1000
    omega
  have whole := @loop_pushes _ (eval checkSig hashers (args.flatMap pushData) []) args short [] new rfl room
  rw [List.append_nil] at whole
  show loop _ _ new = _
  rw [whole]
  show (true, { new with stack := args.reverse ++ [] }) = _
  rw [List.append_nil]
  rfl

/-! ### Turns -/

section Turns

variable {current : Script} {stack stack' : List Data} {key sig hash value : Data} {opcode opCount opCount' : Nat}

/-- `OP_CHECKSIG` where no separator was met. -/
theorem eval_checkSig : eval checkSig hashers script current 172 (holding (key :: sig :: stack) opCount) =
    .next (holding (boolBytes (checkSig sig key (findAndDelete (pushData sig) script)) :: stack) opCount) := rfl

theorem eval_dup : eval checkSig hashers script current 118 (holding (key :: stack) opCount) =
    .next (holding (key :: key :: stack) opCount) := rfl

theorem eval_hash160 : eval checkSig hashers script current 169 (holding (key :: stack) opCount) =
    .next (holding (hashers.hash160 key :: stack) opCount) := rfl

/-- `OP_EQUALVERIFY` goes on where the values are the same. -/
theorem eval_equalVerify : eval checkSig hashers script current 136 (holding (hash :: value :: stack) opCount) =
    if value = hash then .next (holding stack opCount) else .done false (holding (hash :: value :: stack) opCount) := by
  have base : evalNext hashers 136 (holding (hash :: value :: stack) opCount) =
      (verified true (boolBytes (decide (value = hash)) :: stack)).map fun stack => holding stack opCount := rfl
  unfold eval Evaluator.eval
  rw [base]
  by_cases same : value = hash
  · rw [decide_eq_true same, if_pos same]
    rfl
  · rw [decide_eq_false same, if_neg same]
    rfl

variable {evaluate : Nat → TxEvaluator → Turn TxMembers} {rest : List (Option (Nat × Data))}

/-- A turn for an opcode that is counted. -/
theorem loop_turn (turn : evaluate opcode (holding stack (opCount + 1)) = .next (holding stack' opCount'))
    (high : 96 < opcode) (enabled : disabled opcode = false) (few : opCount < 201) (room : stack'.length ≤ 1000) :
    loop evaluate (some (opcode, []) :: rest) (holding stack opCount) =
      loop evaluate rest (holding stack' opCount') :=
  loop_counted high enabled few ((instruction_eval rfl (by omega)).trans turn) room

theorem loop_fails {s' : TxEvaluator} (turn : evaluate opcode (holding stack (opCount + 1)) = .done false s')
    (high : 96 < opcode) (enabled : disabled opcode = false) (few : opCount < 201) :
    loop evaluate (some (opcode, []) :: rest) (holding stack opCount) = (false, s') := by
  have few : (holding stack opCount).opCount < 201 := few
  have turn : instruction evaluate opcode []
      { holding stack opCount with opCount := (holding stack opCount).opCount + 1 } = .done false s' :=
    (instruction_eval rfl (by omega)).trans turn
  rw [loop, if_neg (by simp)]
  dsimp only
  rw [if_pos high]
  dsimp only
  rw [if_neg (by omega), enabled, turn]
  rfl

/-- A turn for a push. -/
theorem loop_push (low : opcode ≤ 78) (size : value.length ≤ maxElementSize) (room : stack.length < 1000) :
    loop evaluate (some (opcode, value) :: rest) (holding stack opCount) =
      loop evaluate rest (holding (value :: stack) opCount) :=
  loop_next size (by omega) (instruction_push rfl low) room

theorem result_bool (result : Bool) :
    Transaction.result (loop evaluate [] (holding (boolBytes result :: stack) opCount)) = some result := by
  cases result <;> rfl

end Turns

/-! ### The forms -/

section Forms

variable {key sig hash : Data} {opcode : Nat}

/-- A key, and the check of the signature. -/
theorem result_pubKey (form : ops script = [some (opcode, key), some (172, [])]) (low : opcode ≤ 78)
    (size : key.length ≤ maxElementSize) :
    Transaction.result (run checkSig hashers script (holding [sig] 0)) =
      some (checkSig sig key (findAndDelete (pushData sig) script)) := by
  have plain : ∀ value, some (171, value) ∉ ops script := by
    intro value member
    rw [form] at member
    simp at member
    omega
  have bytes := length_le_opsSize script (by rw [form]; simp)
  have small : opsSize (ops script) = key.length + 5 + 5 := by rw [form]; rfl
  have short : key.length ≤ 520 := size
  rw [run_ops plain (by omega), holding_restart, form, loop_push low size (by simp),
    loop_turn eval_checkSig (by decide) (by decide) (by decide) (by simp), result_bool]

/-- The hash of a key: the key is the one that was hashed, and the signature is checked by it. -/
theorem result_pubKeyHash
    (form : ops script = [some (118, []), some (169, []), some (opcode, hash), some (136, []), some (172, [])])
    (low : opcode ≤ 78) (size : hash.length ≤ maxElementSize) :
    Transaction.result (run checkSig hashers script (holding [key, sig] 0)) =
      some (decide (hashers.hash160 key = hash) && checkSig sig key (findAndDelete (pushData sig) script)) := by
  have plain : ∀ value, some (171, value) ∉ ops script := by
    intro value member
    rw [form] at member
    simp at member
    omega
  have bytes := length_le_opsSize script (by rw [form]; simp)
  have small : opsSize (ops script) = 5 + (5 + (hash.length + 5 + (5 + 5))) := by
    rw [form]
    simp [opsSize]
  have short : hash.length ≤ 520 := size
  rw [run_ops plain (by omega), holding_restart, form,
    loop_turn eval_dup (by decide) (by decide) (by decide) (by simp),
    loop_turn eval_hash160 (by decide) (by decide) (by decide) (by simp), loop_push low size (by simp)]
  by_cases same : hashers.hash160 key = hash
  · rw [loop_turn (eval_equalVerify.trans (if_pos same)) (by decide) (by decide) (by decide) (by simp),
      loop_turn eval_checkSig (by decide) (by decide) (by decide) (by simp), result_bool, decide_eq_true same,
      Bool.true_and]
  · rw [loop_fails (eval_equalVerify.trans (if_neg same)) (by decide) (by decide) (by decide), decide_eq_false same,
      Bool.false_and]
    rfl

/-- The pushes of some keys. -/
theorem loop_keys {evaluate : Nat → TxEvaluator → Turn TxMembers} {rest : List (Option (Nat × Data))} {opCount : Nat}
    (keys : List (Nat × Data)) (stack : List Data) (pushes : ∀ key ∈ keys, key.1 ≤ 78 ∧ key.2.length ≤ maxElementSize)
    (room : stack.length + keys.length ≤ 1000) :
    loop evaluate (keys.map some ++ rest) (holding stack opCount) =
      loop evaluate rest (holding ((keys.map Prod.snd).reverse ++ stack) opCount) := by
  induction keys generalizing stack with
  | nil => rfl
  | cons key keys ih =>
    obtain ⟨low, size⟩ := pushes key List.mem_cons_self
    rw [List.length_cons] at room
    have further := ih (key.2 :: stack) (fun key member => pushes key (List.mem_cons_of_mem _ member))
      (by rw [List.length_cons]; omega)
    rw [List.map_cons, List.cons_append]
    show loop evaluate (some (key.1, key.2) :: (keys.map some ++ rest)) _ = _
    rw [loop_push low size (by omega), further, List.map_cons, List.reverse_cons, List.append_assoc]
    rfl

theorem numberBytes_small {n : Nat} (positive : 1 ≤ n) (small : n ≤ 16) : numberBytes n = [UInt8.ofNat n] := by
  have all : ∀ n : Nat, n < 17 → 1 ≤ n → numberBytes n = [UInt8.ofNat n] := by decide +kernel
  exact all n (by omega) positive

theorem castToBigNum_small {n : Nat} (small : n ≤ 16) : castToBigNum [UInt8.ofNat n] = some n := by
  have all : ∀ n : Nat, n < 17 → castToBigNum [UInt8.ofNat n] = some (n : Int) := by decide +kernel
  exact all n (by omega)

/-- A turn for a small number. -/
theorem loop_small {rest : List (Option (Nat × Data))} {opCount n : Nat} {current : Script} {stack : List Data}
    (positive : 1 ≤ n) (small : n ≤ 16) (room : stack.length < 1000) :
    loop (eval checkSig hashers script current) (some (80 + n, []) :: rest) (holding stack opCount) =
      loop (eval checkSig hashers script current) rest (holding ([UInt8.ofNat n] :: stack) opCount) := by
  have base : evalNext hashers (80 + n) (holding stack opCount) =
      some (holding (numberBytes n :: stack) opCount) := by
    have number : (((80 + n : Nat) : Int) - 80) = n := by omega
    unfold evalNext
    rw [if_pos (by omega), number]
    rfl
  have turn : instruction (eval checkSig hashers script current) (80 + n) [] (holding stack opCount) =
      .next (holding ([UInt8.ofNat n] :: stack) opCount) := by
    rw [instruction_eval rfl (by omega), eval_base (.inl (by omega)), Evaluator.eval, base,
      numberBytes_small positive small]
  exact loop_next (Nat.zero_le _) (by omega) turn room

/-- `OP_CHECKMULTISIG` with the keys, the signatures, and the value that is taken as well. -/
theorem eval_checkMultiSig {current : Script} {keys sigs : List Data} {opCount : Nat}
    (fewer : sigs.length ≤ keys.length)
    (few : keys.length ≤ 16) (room : opCount + keys.length ≤ 201) :
    eval checkSig hashers script current 174 (holding ([UInt8.ofNat keys.length] ::
        (keys ++ [UInt8.ofNat sigs.length] :: (sigs ++ [[]]))) opCount) =
      .next (holding [boolBytes (matchSigs checkSig (sigs.foldl (fun scriptCode vchSig =>
        findAndDelete (pushData vchSig) scriptCode) script) sigs keys)] (opCount + keys.length)) := by
  have counted : castToBigNum [UInt8.ofNat keys.length] = some (keys.length : Int) := castToBigNum_small few
  have counted' : castToBigNum [UInt8.ofNat sigs.length] = some (sigs.length : Int) :=
    castToBigNum_small (fewer.trans few)
  have args : MultiSigArgs ([UInt8.ofNat keys.length] :: (keys ++ [UInt8.ofNat sigs.length] :: (sigs ++ [[]]))) keys
      sigs [] := ⟨few.trans (by decide), fewer, _, _, [], counted, counted', rfl⟩
  have checked (s : TxEvaluator) : eval checkSig hashers script current 174 s =
      evalCheckMultiSig checkSig false script s := rfl
  rw [checked, @evalCheckMultiSig_args checkSig script false keys sigs [] (holding _ opCount) args room]
  rfl

theorem opsSize_keys (keys : List (Nat × Data)) (rest : List (Option (Nat × Data)))
    (sizes : ∀ key ∈ keys, key.2.length ≤ maxElementSize) :
    opsSize (keys.map some ++ rest) ≤ 525 * keys.length + opsSize rest := by
  induction keys with
  | nil => rw [List.length_nil, Nat.mul_zero, Nat.zero_add]; exact le_rfl
  | cons key keys ih =>
    have size : key.2.length ≤ 520 := sizes key List.mem_cons_self
    have more := ih fun key member => sizes key (List.mem_cons_of_mem _ member)
    have sum : opsSize ((key :: keys).map some ++ rest) = key.2.length + 5 + opsSize (keys.map some ++ rest) := rfl
    rw [List.length_cons]
    omega

/-- So many of some keys: the signatures are those of some of them, in their order. -/
theorem result_multiSig {m n : Nat} {keys : List (Nat × Data)} {sigs : List Data} (positive : 1 ≤ m) (fewer : m ≤ n)
    (few : n ≤ 16) (counted : keys.length = n) (counted' : sigs.length = m)
    (pushes : ∀ key ∈ keys, key.1 ≤ 78 ∧ key.2.length ≤ maxElementSize)
    (form : ops script = some (80 + m, []) :: keys.map some ++ [some (80 + n, []), some (174, [])]) :
    Transaction.result (run checkSig hashers script (holding (sigs ++ [[]]) 0)) =
      some (matchSigs checkSig (sigs.foldl (fun scriptCode vchSig => findAndDelete (pushData vchSig) scriptCode) script)
        sigs (keys.map Prod.snd).reverse) := by
  have plain : ∀ value, some (171, value) ∉ ops script := by
    intro value member
    rw [form] at member
    rcases List.mem_append.mp member with front | back
    · rcases List.mem_cons.mp front with first | inside
      · obtain ⟨same, -⟩ := Prod.mk.inj (Option.some.inj first)
        omega
      · obtain ⟨key, member, same⟩ := List.mem_map.mp inside
        have low := (pushes key member).1
        rw [Option.some.inj same] at low
        exact absurd low (show ¬171 ≤ 78 by decide)
    · simp at back
      omega
  have readable : none ∉ ops script := by
    rw [form]
    simp
  have bytes := length_le_opsSize script readable
  have small := opsSize_keys keys [some (80 + n, []), some (174, [])] fun key member => (pushes key member).2
  have first : opsSize (ops script) = 5 + opsSize (keys.map some ++ [some (80 + n, []), some (174, [])]) := by
    rw [form]
    rfl
  have last : opsSize [some (80 + n, []), some (174, [])] = 10 := rfl
  have keyed : ((keys.map Prod.snd).reverse).length = n := by rw [List.length_reverse, List.length_map, counted]
  have check := @eval_checkMultiSig checkSig hashers script [] (keys.map Prod.snd).reverse sigs 1 (by omega) (by omega)
    (by omega)
  rw [keyed, counted'] at check
  rw [run_ops plain (by omega), holding_restart, form, List.cons_append,
    loop_small positive (fewer.trans few) (by simp; omega), loop_keys keys _ pushes (by simp; omega),
    loop_small (positive.trans fewer) few (by simp; omega),
    loop_turn check (by decide) (by decide) (by decide) (by simp), result_bool]

end Forms

end TxEvaluator

namespace Transaction

variable {checkSig : Data → Data → Script → Bool} {hashers : Hashers} {script : Script}

/-- A signature script of pushes, and an output script that is not the hash of another one. -/
theorem verifyScripts_pushes {args : List Data} (short : ∀ arg ∈ args, arg.length ≤ maxElementSize)
    (few : args.length ≤ 19) (nonempty : args ≠ []) (other : script.isPayToScriptHash = false) (strict : Bool)
    {accepted : Bool} (evaluated : result (run checkSig hashers script (holding args.reverse 0)) = some accepted) :
    verifyScripts hashers checkSig (args.flatMap pushData) script strict = some accepted := by
  have left : (holding args.reverse 0).stack.isEmpty = false := by
    rw [List.isEmpty_eq_false_iff]
    exact List.reverse_ne_nil_iff.mpr nonempty
  unfold verifyScripts
  rw [run_pushes short few]
  dsimp only
  rw [left]
  show verifyOutput hashers checkSig _ script strict (holding args.reverse 0) = _
  unfold verifyOutput
  dsimp only
  rw [evaluated, other, Bool.and_false]
  cases accepted <;> rfl

end Transaction

end Libcoin
