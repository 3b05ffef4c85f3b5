/-
Scripts and their evaluation.

* `Script.getOp` reads one instruction, `Script.ops` all of them. `Script.pushData` and `Script.pushInt` are the
  two ways to write a value.
* An `Evaluator` has the members of the class and those of a subclass. `Evaluator.run` is the call operator, with
  the virtual function `eval` as a parameter.
* `Evaluator.eval` is the function of the base class.

A stack has its top first.
-/

import Libcoin.Library.Codec
import Libcoin.Ledger.Types

namespace Libcoin

/-! ### Instructions -/

namespace Script

/-- The immediate operand of an opcode. -/
def operand (opcode size : Nat) (pc : Script) : Option (Nat × Data × Script) :=
  if pc.length < size then none else some (opcode, pc.take size, pc.drop size)

/-- The bytes that `OP_PUSHDATA1`, `OP_PUSHDATA2` and `OP_PUSHDATA4` have for the size of their operand. -/
def sizeWidth (opcode : Nat) : Nat := if opcode = 76 then 1 else if opcode = 77 then 2 else 4

/-- `getOp2`: the opcode, its immediate operand, and the rest of the script. -/
def getOp : Script → Option (Nat × Data × Script)
  | [] => none
  | byte :: pc =>
    let opcode := byte.toNat
    if 78 < opcode then some (opcode, [], pc)
    else if opcode < 76 then operand opcode opcode pc
    else if pc.length < sizeWidth opcode then none
    else operand opcode (littleEndian (pc.take (sizeWidth opcode))) (pc.drop (sizeWidth opcode))

theorem operand_rest {opcode size : Nat} {pc : Script} {read : Nat × Data × Script}
    (given : operand opcode size pc = some read) : read.2.2.length ≤ pc.length := by
  unfold operand at given
  split at given
  · cases given
  · obtain rfl := Option.some.inj given
    exact (List.length_drop ..).trans_le (Nat.sub_le _ _)

theorem getOp_shorter {script rest : Script} {opcode : Nat} {value : Data}
    (read : getOp script = some (opcode, value, rest)) : rest.length < script.length := by
  cases script with
  | nil => cases read
  | cons byte pc =>
    rw [List.length_cons]
    unfold getOp at read
    dsimp only at read
    split at read
    · cases read
      exact Nat.lt_succ_self _
    · split at read
      · exact Nat.lt_succ_of_le (operand_rest read)
      · split at read
        · cases read
        · have shorter := operand_rest read
          rw [List.length_drop] at shorter
          dsimp only at shorter
          omega

/-- The instructions of a script one after the other, at most so many. `none` ends a script that cannot be read.
-/
def opsUpTo : Nat → Script → List (Option (Nat × Data))
  | 0, _ => []
  | turns + 1, script =>
    if script.isEmpty then []
    else
      match getOp script with
      | none => [none]
      | some (opcode, value, rest) => some (opcode, value) :: opsUpTo turns rest

/-- The instructions of a script. -/
def ops (script : Script) : List (Option (Nat × Data)) := opsUpTo script.length script

theorem opsUpTo_enough {turns : Nat} {script : Script} (enough : script.length ≤ turns) :
    opsUpTo turns script = opsUpTo script.length script := by
  induction turns using Nat.strong_induction_on generalizing script with
  | h turns ih =>
    cases turns with
    | zero =>
      rw [Nat.le_zero.mp enough]
    | succ turns =>
      cases script with
      | nil => rfl
      | cons byte pc =>
        rw [List.length_cons, opsUpTo, opsUpTo]
        congr 1
        cases read : getOp (byte :: pc) with
        | none => rfl
        | some instruction =>
          obtain ⟨opcode, value, rest⟩ := instruction
          have shorter := getOp_shorter read
          rw [List.length_cons] at shorter enough
          dsimp only
          rw [ih turns (Nat.lt_succ_self _) (by omega)]
          by_cases last : pc.length = turns
          · rw [last, ih turns (Nat.lt_succ_self _) (by omega)]
          · rw [ih pc.length (by omega) (by omega)]

@[simp] theorem ops_nil : ops [] = [] := rfl

/-- The instructions of a script, at most so many, each with the rest of the script after it. -/
def opsAtUpTo : Nat → Script → List (Option (Nat × Data) × Script)
  | 0, _ => []
  | turns + 1, script =>
    if script.isEmpty then []
    else
      match getOp script with
      | none => [(none, script)]
      | some (opcode, value, rest) => (some (opcode, value), rest) :: opsAtUpTo turns rest

def opsAt (script : Script) : List (Option (Nat × Data) × Script) := opsAtUpTo script.length script

theorem opsAtUpTo_fst (turns : Nat) (script : Script) :
    (opsAtUpTo turns script).map Prod.fst = opsUpTo turns script := by
  induction turns generalizing script with
  | zero => rfl
  | succ turns ih =>
    unfold opsAtUpTo opsUpTo
    split
    · rfl
    · cases read : getOp script with
      | none => rfl
      | some instruction => exact congrArg (_ :: ·) (ih _)

/-- The instructions without their places. -/
theorem opsAt_fst (script : Script) : (opsAt script).map Prod.fst = ops script := opsAtUpTo_fst _ script

/-- One instruction and those after it. -/
theorem ops_cons {script rest : Script} {opcode : Nat} {value : Data}
    (read : getOp script = some (opcode, value, rest)) : ops script = some (opcode, value) :: ops rest := by
  have shorter := getOp_shorter read
  obtain ⟨turns, long⟩ : ∃ turns, script.length = turns + 1 := ⟨script.length - 1, by omega⟩
  have nonempty : script.isEmpty = false := by
    rw [List.isEmpty_eq_false_iff]
    rintro rfl
    cases read
  have fewer : opsUpTo turns rest = opsUpTo rest.length rest := opsUpTo_enough (by omega)
  unfold ops
  rw [long, opsUpTo, nonempty, read, ← fewer]
  rfl

/-- What holds of every instruction that is read. -/
theorem of_mem_ops {script : Script} {opcode : Nat} {value : Data} {p : Nat → Data → Prop}
    (each : ∀ (script rest : Script) opcode value, getOp script = some (opcode, value, rest) → p opcode value)
    (member : some (opcode, value) ∈ ops script) : p opcode value := by
  unfold ops at member
  generalize script.length = turns at member
  induction turns generalizing script with
  | zero => cases member
  | succ turns ih =>
    rw [opsUpTo] at member
    split at member
    · cases member
    · cases read : getOp script with
      | none =>
        rw [read] at member
        cases List.mem_singleton.mp member
      | some instruction =>
        obtain ⟨opcode', value', rest⟩ := instruction
        rw [read] at member
        rcases List.mem_cons.mp member with here | later
        · cases here
          exact each script rest opcode value read
        · exact ih later

/-! ### Writing -/

/-- `operator<<` for a value. -/
def pushData (value : Data) : Script :=
  if value.length < 76 then UInt8.ofNat value.length :: value
  else if value.length ≤ 0xff then 76 :: littleBytes 1 value.length ++ value
  else if value.length ≤ 0xffff then 77 :: littleBytes 2 value.length ++ value
  else 78 :: littleBytes 4 value.length ++ value

theorem pushData_length (value : Data) : (pushData value).length ≤ value.length + 5 := by
  unfold pushData
  split
  · simp
  · split
    · simp
      omega
    · split
      · simp
        omega
      · simp
        omega

theorem operand_append (opcode : Nat) (value rest : Data) :
    operand opcode value.length (value ++ rest) = some (opcode, value, rest) := by
  unfold operand
  rw [if_neg (by rw [List.length_append]; omega), List.take_left, List.drop_left]

/-- An operand with its size before it. -/
theorem getOp_sized {byte : UInt8} (low : byte.toNat ≤ 78) (high : 76 ≤ byte.toNat) {value : Data}
    (size : value.length < 256 ^ sizeWidth byte.toNat) (rest : Script) :
    getOp (byte :: littleBytes (sizeWidth byte.toNat) value.length ++ value ++ rest) =
      some (byte.toNat, value, rest) := by
  have width := littleBytes_length (sizeWidth byte.toNat) value.length
  rw [List.cons_append, List.cons_append, List.append_assoc]
  unfold getOp
  dsimp only
  rw [if_neg (by omega), if_neg (by omega), if_neg (by rw [List.length_append, width]; omega),
    List.take_left' width, List.drop_left' width, littleEndian_littleBytes size, operand_append]

/-- The opcode of a short value is its length. -/
theorem getOp_short {value : Data} (short : value.length < 76) (rest : Script) :
    getOp (pushData value ++ rest) = some (value.length, value, rest) := by
  have byte : (UInt8.ofNat value.length).toNat = value.length := by
    rw [UInt8.toNat_ofNat']
    omega
  unfold pushData
  rw [if_pos short, List.cons_append]
  unfold getOp
  dsimp only
  rw [byte, if_neg (by omega), if_pos short, operand_append]

/-- A pushed value is read back, with an opcode that says to push it. -/
theorem getOp_pushData {value : Data} (short : value.length < 2 ^ 32) (rest : Script) :
    ∃ opcode ≤ 78, getOp (pushData value ++ rest) = some (opcode, value, rest) := by
  by_cases small : value.length < 76
  · exact ⟨value.length, by omega, getOp_short small rest⟩
  · unfold pushData
    rw [if_neg small]
    split
    · exact ⟨76, by decide, getOp_sized (by decide) (by decide) (show _ < 256 ^ 1 by omega) rest⟩
    · split
      · exact ⟨77, by decide, getOp_sized (by decide) (by decide) (show _ < 256 ^ 2 by omega) rest⟩
      · exact ⟨78, by decide, getOp_sized (by decide) (by decide) (show _ < 256 ^ 4 by omega) rest⟩

theorem ops_pushData {value : Data} (short : value.length < 2 ^ 32) (rest : Script) :
    ∃ opcode ≤ 78, ops (pushData value ++ rest) = some (opcode, value) :: ops rest := by
  obtain ⟨opcode, low, read⟩ := getOp_pushData short rest
  exact ⟨opcode, low, ops_cons read⟩

/-- An opcode without an operand. -/
theorem ops_opcode {byte : UInt8} (high : 78 < byte.toNat) (rest : Script) :
    ops (byte :: rest) = some (byte.toNat, []) :: ops rest := by
  refine ops_cons ?_
  unfold getOp
  exact if_pos high

end Script

/-! ### Numbers -/

/-- `CBigNum::getvch`: the lowest byte first, with the sign in the highest bit. -/
def numberBytes (n : Int) : Data :=
  let magnitude := n.natAbs
  let size := if magnitude = 0 then 0 else (magnitude.log2 + 1) / 8 + 1
  littleBytes size (if n < 0 then magnitude + 2 ^ (8 * size - 1) else magnitude)

/-- `CastToBigNum`, which throws on more than four bytes. -/
def castToBigNum (value : Data) : Option Int :=
  let sign := 2 ^ (8 * value.length - 1)
  if 4 < value.length then none
  else if value ≠ [] ∧ sign ≤ littleEndian value then some (sign - littleEndian value)
  else some (littleEndian value)

/-- `CastToBool`. A negative zero is false. -/
def castToBool (value : Data) : Bool :=
  value.dropLast.any (fun byte => decide (byte ≠ 0)) ||
    decide (value.getLastD 0 ≠ 0 ∧ value.getLastD 0 ≠ 0x80)

/-- `vchTrue` and `vchFalse`. -/
def boolBytes (value : Bool) : Data := if value then [1] else []

namespace Script

/-- `push_int64`. -/
def pushInt (n : Int) : Script :=
  if n = -1 ∨ (1 ≤ n ∧ n ≤ 16) then [UInt8.ofNat (n + 80).toNat] else pushData (numberBytes n)

end Script

/-! ### The evaluator -/

/-- The hash functions of the opcodes, with the sizes of their results. -/
structure Hashers where
  ripemd160 : Data → Data
  sha1 : Data → Data
  sha256 : Data → Data
  hash160 : Data → Data
  hash256 : Data → Data
  ripemd160_length : ∀ value, (ripemd160 value).length = 20
  sha1_length : ∀ value, (sha1 value).length = 20
  sha256_length : ∀ value, (sha256 value).length = 32
  hash160_length : ∀ value, (hash160 value).length = 20
  hash256_length : ∀ value, (hash256 value).length = 32

/-- The members of an `Evaluator`, and those of a subclass. -/
structure Evaluator (Own : Type) where
  stack : List Data
  altStack : List Data
  execStack : List Bool
  opCount : Nat
  own : Own

/-- What `eval` returns: an indeterminate value, or true or false, which ends the evaluation. -/
inductive Turn (Own : Type)
  | next (s : Evaluator Own)
  | done (result : Bool) (s : Evaluator Own)

/-- The evaluator after a turn. -/
def Turn.state {Own : Type} : Turn Own → Evaluator Own
  | .next s => s
  | .done _ s => s

namespace Evaluator

variable {Own : Type}

/-- The constructor. -/
def new (own : Own) : Evaluator Own := { stack := [], altStack := [], execStack := [], opCount := 0, own := own }

/-- `_exec`. -/
def exec (s : Evaluator Own) : Bool := s.execStack.all id

/-- `MAX_SCRIPT_ELEMENT_SIZE`. -/
def maxElementSize : Nat := 520

/-- The opcodes from `OP_CAT` on that are disabled. -/
def disabled (opcode : Nat) : Bool :=
  [126, 127, 128, 129, 131, 132, 133, 134, 141, 142, 149, 150, 151, 152, 153].contains opcode

/-- What an instruction does that is not refused: a push, or `eval`. -/
def instruction (eval : Nat → Evaluator Own → Turn Own) (opcode : Nat) (value : Data) (s : Evaluator Own) :
    Turn Own :=
  if s.exec && decide (opcode ≤ 78) then .next { s with stack := value :: s.stack }
  else if s.exec || decide (99 ≤ opcode ∧ opcode ≤ 104) then eval opcode s
  else .next s

/-- The loop of `operator()`. -/
def loop (eval : Nat → Evaluator Own → Turn Own) :
    List (Option (Nat × Data)) → Evaluator Own → Bool × Evaluator Own
  | [], s => (s.execStack.isEmpty, s)
  | none :: _, s => (false, s)
  | some (opcode, value) :: rest, s =>
    if maxElementSize < value.length then (false, s)
    else
      let s := if 96 < opcode then { s with opCount := s.opCount + 1 } else s
      if 96 < opcode ∧ 201 < s.opCount then (false, s)
      else if disabled opcode then (false, s)
      else
        match instruction eval opcode value s with
        | .done result s => (result, s)
        | .next s => if 1000 < s.stack.length + s.altStack.length then (false, s) else loop eval rest s

/-- The loop of `operator()`, where `eval` is also given the rest of the script. -/
def loopAt (eval : Script → Nat → Evaluator Own → Turn Own) :
    List (Option (Nat × Data) × Script) → Evaluator Own → Bool × Evaluator Own
  | [], s => (s.execStack.isEmpty, s)
  | (none, _) :: _, s => (false, s)
  | (some (opcode, value), current) :: rest, s =>
    if maxElementSize < value.length then (false, s)
    else
      let s := if 96 < opcode then { s with opCount := s.opCount + 1 } else s
      if 96 < opcode ∧ 201 < s.opCount then (false, s)
      else if disabled opcode then (false, s)
      else
        match instruction (eval current) opcode value s with
        | .done result s => (result, s)
        | .next s => if 1000 < s.stack.length + s.altStack.length then (false, s) else loopAt eval rest s

/-- `operator()`. -/
def run (eval : Nat → Evaluator Own → Turn Own) (script : Script) (s : Evaluator Own) : Bool × Evaluator Own :=
  let s := { s with opCount := 0 }
  if 10000 < script.length then (false, s) else loop eval (Script.ops script) s

section Loop

variable {eval : Nat → Evaluator Own → Turn Own} {opcode : Nat} {value : Data} {s s' : Evaluator Own}
  {rest : List (Option (Nat × Data))}

theorem disabled_low (low : opcode < 126) : disabled opcode = false := by
  simp only [disabled, List.contains_eq_mem, List.mem_cons, List.not_mem_nil, or_false, decide_eq_false_iff_not]
  omega

/-- A value is pushed where the instructions are executed. -/
theorem instruction_push (idle : s.execStack = []) (low : opcode ≤ 78) :
    instruction eval opcode value s = .next { s with stack := value :: s.stack } := by
  unfold instruction exec
  rw [idle, decide_eq_true low]
  rfl

theorem instruction_eval (idle : s.execStack = []) (high : 78 < opcode) :
    instruction eval opcode value s = eval opcode s := by
  unfold instruction exec
  rw [idle, decide_eq_false (by omega : ¬opcode ≤ 78)]
  rfl

/-- A turn of the loop for an opcode that is not counted. -/
theorem loop_low (short : value.length ≤ maxElementSize) (low : opcode ≤ 96) :
    loop eval (some (opcode, value) :: rest) s =
      match instruction eval opcode value s with
      | .done result s => (result, s)
      | .next s => if 1000 < s.stack.length + s.altStack.length then (false, s) else loop eval rest s := by
  rw [loop, if_neg (show ¬maxElementSize < value.length by omega)]
  dsimp only
  rw [if_neg (show ¬96 < opcode by omega), if_neg (fun counted => absurd counted.1 (by omega)),
    disabled_low (by omega)]
  rfl

theorem loop_next (short : value.length ≤ maxElementSize) (low : opcode ≤ 96)
    (turn : instruction eval opcode value s = .next s') (room : s'.stack.length + s'.altStack.length ≤ 1000) :
    loop eval (some (opcode, value) :: rest) s = loop eval rest s' := by
  rw [loop_low short low, turn]
  exact if_neg (by omega)

/-- A turn of the loop for an opcode that is counted. -/
theorem loop_counted (high : 96 < opcode) (enabled : disabled opcode = false) (few : s.opCount < 201)
    (turn : instruction eval opcode [] { s with opCount := s.opCount + 1 } = .next s')
    (room : s'.stack.length + s'.altStack.length ≤ 1000) :
    loop eval (some (opcode, []) :: rest) s = loop eval rest s' := by
  rw [loop, if_neg (by simp)]
  dsimp only
  rw [if_pos high]
  dsimp only
  rw [if_neg (by omega), enabled, turn]
  exact (if_neg Bool.false_ne_true).trans (if_neg (by omega))

/-- Where the place does not matter, the loop is that of the base class. -/
theorem loopAt_eq_loop (evalAt : Script → Nat → Evaluator Own → Turn Own) (eval : Nat → Evaluator Own → Turn Own)
    {ops : List (Option (Nat × Data) × Script)}
    (same : ∀ opcode value current, (some (opcode, value), current) ∈ ops → evalAt current opcode = eval opcode)
    (s : Evaluator Own) : loopAt evalAt ops s = loop eval (ops.map Prod.fst) s := by
  induction ops generalizing s with
  | nil => rfl
  | cons op ops ih =>
    obtain ⟨instruction?, current⟩ := op
    cases instruction? with
    | none => rfl
    | some op =>
      obtain ⟨opcode, value⟩ := op
      have turn (s : Evaluator Own) : instruction (evalAt current) opcode value s =
        instruction eval opcode value s := by
        unfold instruction
        rw [same opcode value current List.mem_cons_self]
      have further := ih fun opcode value current inside =>
        same opcode value current (List.mem_cons_of_mem _ inside)
      rw [List.map_cons, loopAt, loop]
      dsimp only
      rw [turn]
      generalize (if 96 < opcode then { s with opCount := s.opCount + 1 } else s) = counted
      cases instruction eval opcode value counted with
      | done result s => rfl
      | next s =>
        dsimp only
        rw [further]

/-- What every call of `eval` keeps, a loop keeps. -/
theorem loopAt_keeps {evalAt : Script → Nat → Evaluator Own → Turn Own} {kept : Evaluator Own → Prop}
    (count : ∀ s n, kept s → kept { s with opCount := n })
    (push : ∀ s value, kept s → kept { s with stack := value :: s.stack })
    (ops : List (Option (Nat × Data) × Script))
    (call : ∀ opcode value current, (some (opcode, value), current) ∈ ops →
      ∀ s, kept s → kept (evalAt current opcode s).state) :
    ∀ s, kept s → kept (loopAt evalAt ops s).2 := by
  induction ops with
  | nil => exact fun s keep => keep
  | cons op ops ih =>
    intro s keep
    obtain ⟨instruction?, current⟩ := op
    cases instruction? with
    | none => exact keep
    | some op =>
      obtain ⟨opcode, value⟩ := op
      have counted : kept (if 96 < opcode then { s with opCount := s.opCount + 1 } else s) := by
        split
        · exact count s _ keep
        · exact keep
      rw [loopAt]
      split
      · exact keep
      · dsimp only
        generalize (if 96 < opcode then { s with opCount := s.opCount + 1 } else s) = s₁ at counted ⊢
        split
        · exact counted
        · split
          · exact counted
          · have turned : kept (instruction (evalAt current) opcode value s₁).state := by
              unfold instruction
              split
              · exact push s₁ value counted
              · split
                · exact call opcode value current List.mem_cons_self s₁ counted
                · exact counted
            cases turn : instruction (evalAt current) opcode value s₁ with
            | done result s₂ =>
              rw [turn] at turned
              exact turned
            | next s₂ =>
              rw [turn] at turned
              dsimp only
              split
              · exact turned
              · exact ih (fun opcode value current inside =>
                  call opcode value current (List.mem_cons_of_mem _ inside)) s₂ turned

/-- What every call of `eval` keeps, the loop of the base class keeps. -/
theorem loop_keeps {kept : Evaluator Own → Prop}
    (count : ∀ s n, kept s → kept { s with opCount := n })
    (push : ∀ s value, kept s → kept { s with stack := value :: s.stack })
    (ops : List (Option (Nat × Data)))
    (call : ∀ opcode value, some (opcode, value) ∈ ops → ∀ s, kept s → kept (eval opcode s).state)
    (s : Evaluator Own)
    (keep : kept s) : kept (loop eval ops s).2 := by
  have whole : (ops.map fun op => (op, ([] : Script))).map Prod.fst = ops := by
    rw [List.map_map]
    exact List.map_id ops
  have anywhere := @loopAt_eq_loop _ (fun _ => eval) eval (ops.map fun op => (op, [])) (fun _ _ _ _ => rfl) s
  rw [whole] at anywhere
  rw [← anywhere]
  refine loopAt_keeps count push _ (fun opcode value current inside => call opcode value ?_) s keep
  obtain ⟨op, found, place⟩ := List.mem_map.mp inside
  cases place
  exact found

/-- What every turn keeps, an evaluation keeps that succeeds at the end of the script, and no branch is left open.
-/
theorem loopAt_true {evalAt : Script → Nat → Evaluator Own → Turn Own} {kept : Evaluator Own → Prop}
    (count : ∀ s n, kept s → kept { s with opCount := n })
    (never : ∀ current opcode s s', evalAt current opcode s ≠ .done true s')
    (ops : List (Option (Nat × Data) × Script))
    (turn : ∀ opcode value current, (some (opcode, value), current) ∈ ops → value.length ≤ maxElementSize →
      ∀ s s', kept s → instruction (evalAt current) opcode value s = .next s' →
        s'.stack.length + s'.altStack.length ≤ 1000 → kept s') :
    ∀ s s', kept s → loopAt evalAt ops s = (true, s') → kept s' ∧ s'.execStack = [] := by
  induction ops with
  | nil =>
    intro s s' keep done
    obtain ⟨closed, rfl⟩ := Prod.mk.inj done
    exact ⟨keep, List.isEmpty_iff.mp closed⟩
  | cons op ops ih =>
    intro s s' keep done
    obtain ⟨instruction?, current⟩ := op
    cases instruction? with
    | none => cases done
    | some op =>
      obtain ⟨opcode, value⟩ := op
      have counted : kept (if 96 < opcode then { s with opCount := s.opCount + 1 } else s) := by
        split
        · exact count s _ keep
        · exact keep
      rw [loopAt] at done
      split at done
      · cases done
      · rename_i short
        dsimp only at done
        generalize (if 96 < opcode then { s with opCount := s.opCount + 1 } else s) = s₁ at counted done
        split at done
        · cases done
        · split at done
          · cases done
          · cases turned : instruction (evalAt current) opcode value s₁ with
            | done result s₂ =>
              rw [turned] at done
              obtain ⟨rfl, rfl⟩ := Prod.mk.inj done
              -- only `eval` ends an evaluation
              unfold instruction at turned
              split at turned
              · cases turned
              · split at turned
                · exact absurd turned (never _ _ _ _)
                · cases turned
            | next s₂ =>
              rw [turned] at done
              dsimp only at done
              split at done
              · cases done
              · rename_i room
                have kept₂ := turn opcode value current List.mem_cons_self
                  (Nat.not_lt.mp short) s₁ s₂ counted turned
                  (Nat.not_lt.mp room)
                exact ih (fun opcode value current inside =>
                  turn opcode value current (List.mem_cons_of_mem _ inside))
                  s₂ s' kept₂ done

end Loop

/-! ### The base class -/

/-- The cases that only move values on the stack, up to `OP_TUCK`. -/
def shuffle (opcode : Nat) (stack : List Data) : Option (List Data) :=
  match opcode, stack with
  | 109, _ :: _ :: rest => some rest -- `OP_2DROP`
  | 110, x2 :: x1 :: rest => some (x2 :: x1 :: x2 :: x1 :: rest) -- `OP_2DUP`
  | 111, x3 :: x2 :: x1 :: rest => some (x3 :: x2 :: x1 :: x3 :: x2 :: x1 :: rest) -- `OP_3DUP`
  | 112, x4 :: x3 :: x2 :: x1 :: rest => some (x2 :: x1 :: x4 :: x3 :: x2 :: x1 :: rest) -- `OP_2OVER`
  | 113, x6 :: x5 :: x4 :: x3 :: x2 :: x1 :: rest => some (x2 :: x1 :: x6 :: x5 :: x4 :: x3 :: rest) -- `OP_2ROT`
  | 114, x4 :: x3 :: x2 :: x1 :: rest => some (x2 :: x1 :: x4 :: x3 :: rest) -- `OP_2SWAP`
  | 115, x :: rest => some (if castToBool x then x :: x :: rest else x :: rest) -- `OP_IFDUP`
  | 116, rest => some (numberBytes rest.length :: rest) -- `OP_DEPTH`
  | 117, _ :: rest => some rest -- `OP_DROP`
  | 118, x :: rest => some (x :: x :: rest) -- `OP_DUP`
  | 119, x2 :: _ :: rest => some (x2 :: rest) -- `OP_NIP`
  | 120, x2 :: x1 :: rest => some (x1 :: x2 :: x1 :: rest) -- `OP_OVER`
  | 123, x3 :: x2 :: x1 :: rest => some (x1 :: x3 :: x2 :: rest) -- `OP_ROT`
  | 124, x2 :: x1 :: rest => some (x1 :: x2 :: rest) -- `OP_SWAP`
  | 125, x2 :: x1 :: rest => some (x2 :: x1 :: x2 :: rest) -- `OP_TUCK`
  | _, _ => none

/-- `OP_PICK` and `OP_ROLL`. -/
def pick (roll : Bool) : List Data → Option (List Data)
  | [] | [_] => none
  | top :: rest => do
    let n ← castToBigNum top
    if n < 0 then none
    else do
      let value ← rest[n.toNat]?
      return value :: if roll then rest.eraseIdx n.toNat else rest

/-- The numeric opcodes with one operand that are not disabled. -/
def unary (opcode : Nat) (n : Int) : Int :=
  match opcode with
  | 139 => n + 1 -- `OP_1ADD`
  | 140 => n - 1 -- `OP_1SUB`
  | 143 => -n -- `OP_NEGATE`
  | 144 => n.natAbs -- `OP_ABS`
  | 145 => if n = 0 then 1 else 0 -- `OP_NOT`
  | _ => if n = 0 then 0 else 1 -- `OP_0NOTEQUAL`

/-- The numeric opcodes with two operands that are not disabled. -/
def binary (opcode : Nat) (n m : Int) : Int :=
  let truth (p : Prop) [Decidable p] : Int := if p then 1 else 0
  if opcode = 147 then n + m -- `OP_ADD`
  else if opcode = 148 then n - m -- `OP_SUB`
  else if opcode = 154 then truth (n ≠ 0 ∧ m ≠ 0) -- `OP_BOOLAND`
  else if opcode = 155 then truth (n ≠ 0 ∨ m ≠ 0) -- `OP_BOOLOR`
  else if opcode = 156 ∨ opcode = 157 then truth (n = m) -- `OP_NUMEQUAL`, `OP_NUMEQUALVERIFY`
  else if opcode = 158 then truth (n ≠ m) -- `OP_NUMNOTEQUAL`
  else if opcode = 159 then truth (n < m) -- `OP_LESSTHAN`
  else if opcode = 160 then truth (m < n) -- `OP_GREATERTHAN`
  else if opcode = 161 then truth (n ≤ m) -- `OP_LESSTHANOREQUAL`
  else if opcode = 162 then truth (m ≤ n) -- `OP_GREATERTHANOREQUAL`
  else if opcode = 163 then min n m -- `OP_MIN`
  else max n m -- `OP_MAX`

/-- `OP_NUMEQUALVERIFY` takes its result from the stack again, or fails. -/
def verified (verify : Bool) : List Data → Option (List Data)
  | [] => none
  | top :: rest => if !verify then some (top :: rest) else if castToBool top then some rest else none

/-- `OP_SIZE`, the comparisons and the numbers. -/
def calculate (opcode : Nat) (stack : List Data) : Option (List Data) :=
  if opcode = 130 then
    match stack with
    | x :: rest => some (numberBytes x.length :: x :: rest)
    | _ => none
  else if opcode = 135 ∨ opcode = 136 then
    match stack with
    | x2 :: x1 :: rest => verified (decide (opcode = 136)) (boolBytes (decide (x1 = x2)) :: rest)
    | _ => none
  else if opcode ≤ 146 then
    match stack with
    | x :: rest => (castToBigNum x).map fun n => numberBytes (unary opcode n) :: rest
    | _ => none
  else if opcode ≤ 164 then
    match stack with
    | x2 :: x1 :: rest => do
      let n ← castToBigNum x1
      let m ← castToBigNum x2
      verified (decide (opcode = 157)) (numberBytes (binary opcode n m) :: rest)
    | _ => none
  else
    match stack with
    | x3 :: x2 :: x1 :: rest => do
      let n ← castToBigNum x1
      let low ← castToBigNum x2
      let high ← castToBigNum x3
      return boolBytes (decide (low ≤ n ∧ n < high)) :: rest
    | _ => none

/-- The hashes. -/
def crypto (hashers : Hashers) (opcode : Nat) : List Data → Option (List Data)
  | [] => none
  | x :: rest =>
    match opcode with
    | 166 => some (hashers.ripemd160 x :: rest)
    | 167 => some (hashers.sha1 x :: rest)
    | 168 => some (hashers.sha256 x :: rest)
    | 169 => some (hashers.hash160 x :: rest)
    | _ => some (hashers.hash256 x :: rest)

/-- The control opcodes, and those on the second stack. -/
def control (opcode : Nat) (s : Evaluator Own) : Option (Evaluator Own) :=
  match opcode with
  | 99 | 100 => -- `OP_IF`, `OP_NOTIF`
    if !s.exec then some { s with execStack := false :: s.execStack }
    else
      match s.stack with
      | x :: rest =>
        let value := if opcode = 100 then !castToBool x else castToBool x
        some { s with stack := rest, execStack := value :: s.execStack }
      | [] => none
  | 103 => -- `OP_ELSE`
    match s.execStack with
    | value :: rest => some { s with execStack := (!value) :: rest }
    | [] => none
  | 104 => -- `OP_ENDIF`
    match s.execStack with
    | _ :: rest => some { s with execStack := rest }
    | [] => none
  | 105 => -- `OP_VERIFY`
    match s.stack with
    | x :: rest => if castToBool x then some { s with stack := rest } else none
    | [] => none
  | 106 => none -- `OP_RETURN`
  | 107 => -- `OP_TOALTSTACK`
    match s.stack with
    | x :: rest => some { s with stack := rest, altStack := x :: s.altStack }
    | [] => none
  | 108 => -- `OP_FROMALTSTACK`
    match s.altStack with
    | x :: rest => some { s with stack := x :: s.stack, altStack := rest }
    | [] => none
  | _ => some s

/-- `Evaluator::eval` where it leaves a value indeterminate. It returns false and throws otherwise, which ends the
evaluation in the same way; the opcodes that are disabled do not reach it. -/
def evalNext (hashers : Hashers) (opcode : Nat) (s : Evaluator Own) : Option (Evaluator Own) :=
  let onStack (stack : Option (List Data)) := stack.map fun stack => { s with stack := stack }
  if opcode = 79 ∨ (81 ≤ opcode ∧ opcode ≤ 96) then some { s with stack := numberBytes (opcode - 80) :: s.stack }
  else if opcode < 109 then control opcode s
  else if opcode = 121 ∨ opcode = 122 then onStack (pick (decide (opcode = 122)) s.stack)
  else if opcode ≤ 125 then onStack (shuffle opcode s.stack)
  else if opcode = 137 ∨ opcode = 138 then some s
  else if opcode ≤ 165 then onStack (calculate opcode s.stack)
  else if opcode ≤ 170 then onStack (crypto hashers opcode s.stack)
  else some s

/-- `Evaluator::eval`. -/
def eval (hashers : Hashers) (opcode : Nat) (s : Evaluator Own) : Turn Own :=
  match evalNext hashers opcode s with
  | some s => .next s
  | none => .done false s

/-- The control opcodes move values between the stacks. -/
theorem control_next {opcode : Nat} {s s' : Evaluator Own} (next : control opcode s = some s') :
    s'.own = s.own ∧ s'.opCount = s.opCount ∧
      ∀ value ∈ s'.stack ++ s'.altStack, value ∈ s.stack ++ s.altStack := by
  unfold control at next
  split at next <;> (try split at next) <;> (try split at next) <;> first
    | cases next; exact ⟨rfl, rfl, fun _ inside => inside⟩
    | cases next; done
    | (rename_i stack _
       cases next
       refine ⟨rfl, rfl, fun value inside => ?_⟩
       simp only [stack, List.mem_append, List.mem_cons] at inside ⊢
       tauto)
    | (rename_i stack
       cases next
       refine ⟨rfl, rfl, fun value inside => ?_⟩
       simp only [stack, List.mem_append, List.mem_cons] at inside ⊢
       tauto)

/-- The base class leaves the members of a subclass alone, and the count of opcodes. -/
theorem evalNext_keeps {hashers : Hashers} {opcode : Nat} {s s' : Evaluator Own}
    (next : evalNext hashers opcode s = some s') : s'.own = s.own ∧ s'.opCount = s.opCount := by
  have onStack (stack : Option (List Data)) (moved : (stack.map fun stack =>
    { s with stack := stack }) = some s') :
      s'.own = s.own ∧ s'.opCount = s.opCount := by
    obtain ⟨stack, -, rfl⟩ := Option.map_eq_some_iff.mp moved
    exact ⟨rfl, rfl⟩
  unfold evalNext at next
  dsimp only at next
  split at next
  · exact Option.some.inj next ▸ ⟨rfl, rfl⟩
  · split at next
    · exact ⟨(control_next next).1, (control_next next).2.1⟩
    · split at next
      · exact onStack _ next
      · split at next
        · exact onStack _ next
        · split at next
          · exact Option.some.inj next ▸ ⟨rfl, rfl⟩
          · split at next
            · exact onStack _ next
            · split at next
              · exact onStack _ next
              · exact Option.some.inj next ▸ ⟨rfl, rfl⟩

/-- The loop of the base class leaves the members of a subclass alone. -/
theorem loop_own (hashers : Hashers) (ops : List (Option (Nat × Data))) (s : Evaluator Own) :
    (loop (eval hashers) ops s).2.own = s.own := by
  refine @loop_keeps _ _ (fun s' => s'.own = s.own) (fun _ _ keep => keep) (fun _ _ keep => keep) _ ?_ s rfl
  intro opcode value _ s' keep
  unfold eval
  cases base : evalNext hashers opcode s' with
  | none => exact keep
  | some s₁ => exact (evalNext_keeps base).1.trans keep

/-! ### Sizes -/

theorem numberBytes_length {n : Int} (small : n.natAbs < 2 ^ 39) : (numberBytes n).length ≤ 5 := by
  unfold numberBytes
  dsimp only
  rw [littleBytes_length]
  split
  · exact Nat.zero_le _
  · rename_i positive
    have bits := (Nat.log2_lt positive).mpr small
    omega

/-- A number of at most four bytes. -/
theorem castToBigNum_bound {value : Data} {n : Int} (cast : castToBigNum value = some n) : n.natAbs < 2 ^ 32 := by
  have bound (bytes : Data) : littleEndian bytes < 256 ^ bytes.length := by
    induction bytes with
    | nil => exact Nat.one_pos
    | cons byte bytes ih =>
      have low := byte.toNat_lt
      rw [littleEndian, List.length_cons, pow_succ]
      omega
  unfold castToBigNum at cast
  dsimp only at cast
  split at cast
  · cases cast
  · rename_i short
    have small : littleEndian value < 2 ^ 32 :=
      (bound value).trans_le ((Nat.pow_le_pow_right (by decide) (Nat.not_lt.mp short)).trans (by decide))
    split at cast
    · rename_i negative
      obtain rfl := Option.some.inj cast
      generalize 2 ^ (8 * value.length - 1) = sign at negative ⊢
      omega
    · obtain rfl := Option.some.inj cast
      omega

theorem unary_bound (opcode : Nat) {n : Int} (small : n.natAbs < 2 ^ 32) : (unary opcode n).natAbs < 2 ^ 39 := by
  unfold unary
  split <;> omega

theorem binary_bound (opcode : Nat) {n m : Int} (left : n.natAbs < 2 ^ 32) (right : m.natAbs < 2 ^ 32) :
    (binary opcode n m).natAbs < 2 ^ 39 := by
  have either (p : Prop) [Decidable p] {a b : Int} (yes : a.natAbs < 2 ^ 39) (no : b.natAbs < 2 ^ 39) :
      (if p then a else b).natAbs < 2 ^ 39 := by
    split
    · exact yes
    · exact no
  have truth (p : Prop) [Decidable p] : (if p then (1 : Int) else 0).natAbs < 2 ^ 39 :=
    either p (by decide) (by decide)
  unfold binary
  exact either _ (by omega) <| either _ (by omega) <| either _ (truth _) <| either _ (truth _) <|
    either _ (truth _) <| either _ (truth _) <| either _ (truth _) <| either _ (truth _) <| either _ (truth _) <|
    either _ (truth _) <| either _ (by omega) (by omega)

/-- No value of a stack is too long. -/
def Short (values : List Data) : Prop := ∀ value ∈ values, value.length ≤ maxElementSize

theorem short_nil : Short [] := nofun

theorem Short.cons {value : Data} {values : List Data} (size : value.length ≤ maxElementSize)
    (short : Short values) : Short (value :: values) := by
  intro other inside
  rcases List.mem_cons.mp inside with rfl | inside
  · exact size
  · exact short other inside

theorem Short.tail {value : Data} {values : List Data} (short : Short (value :: values)) : Short values :=
  fun other inside => short other (List.mem_cons_of_mem _ inside)

theorem Short.head {value : Data} {values : List Data} (short : Short (value :: values)) :
    value.length ≤ maxElementSize :=
  short value List.mem_cons_self

theorem number_short {n : Int} (small : n.natAbs < 2 ^ 39) : (numberBytes n).length ≤ maxElementSize :=
  (numberBytes_length small).trans (by decide)

theorem boolBytes_short (value : Bool) : (boolBytes value).length ≤ maxElementSize := by
  cases value <;> decide

theorem shuffle_mem {opcode : Nat} {stack stack' : List Data} (moved : shuffle opcode stack = some stack') :
    ∀ value ∈ stack', value ∈ stack ∨ value = numberBytes stack.length := by
  unfold shuffle at moved
  split at moved <;> (try split at moved) <;> cases moved <;> intro value inside <;>
    simp only [List.mem_cons] at inside ⊢ <;> tauto

theorem pick_mem {roll : Bool} {stack stack' : List Data} (picked : pick roll stack = some stack') :
    ∀ value ∈ stack', value ∈ stack := by
  unfold pick at picked
  split at picked
  · cases picked
  · cases picked
  · rename_i top rest _
    obtain ⟨n, -, picked⟩ := Option.bind_eq_some_iff.mp picked
    split at picked
    · cases picked
    · obtain ⟨found, place, picked⟩ := Option.bind_eq_some_iff.mp picked
      obtain rfl := Option.some.inj picked
      intro value inside
      rcases List.mem_cons.mp inside with rfl | inside
      · exact List.mem_cons_of_mem _ (List.mem_of_getElem? place)
      · refine List.mem_cons_of_mem _ ?_
        split at inside
        · exact List.mem_of_mem_eraseIdx inside
        · exact inside

theorem verified_short {verify : Bool} {stack stack' : List Data} (short : Short stack)
    (done : verified verify stack = some stack') : Short stack' := by
  unfold verified at done
  split at done
  · cases done
  · split at done
    · exact Option.some.inj done ▸ short
    · split at done
      · exact Option.some.inj done ▸ short.tail
      · cases done

theorem calculate_short {opcode : Nat} {stack stack' : List Data} (short : Short stack)
    (done : calculate opcode stack = some stack') : Short stack' := by
  unfold calculate at done
  split at done
  · split at done
    · obtain rfl := Option.some.inj done
      refine .cons (number_short ?_) short
      have size := short.head
      unfold maxElementSize at size
      omega
    · cases done
  · split at done
    · split at done
      · exact verified_short (.cons (boolBytes_short _) short.tail.tail) done
      · cases done
    · split at done
      · split at done
        · obtain ⟨n, cast, rfl⟩ := Option.map_eq_some_iff.mp done
          exact .cons (number_short (unary_bound opcode (castToBigNum_bound cast))) short.tail
        · cases done
      · split at done
        · split at done
          · obtain ⟨n, left, done⟩ := Option.bind_eq_some_iff.mp done
            obtain ⟨m, right, done⟩ := Option.bind_eq_some_iff.mp done
            refine verified_short (.cons (number_short ?_) short.tail.tail) done
            exact binary_bound opcode (castToBigNum_bound left) (castToBigNum_bound right)
          · cases done
        · split at done
          · obtain ⟨n, -, done⟩ := Option.bind_eq_some_iff.mp done
            obtain ⟨low, -, done⟩ := Option.bind_eq_some_iff.mp done
            obtain ⟨high, -, done⟩ := Option.bind_eq_some_iff.mp done
            obtain rfl := Option.some.inj done
            exact .cons (boolBytes_short _) short.tail.tail.tail
          · cases done

theorem crypto_short {hashers : Hashers} {opcode : Nat} {stack stack' : List Data} (short : Short stack)
    (done : crypto hashers opcode stack = some stack') : Short stack' := by
  unfold crypto at done
  split at done
  · cases done
  · split at done <;> obtain rfl := Option.some.inj done
    · exact .cons ((hashers.ripemd160_length _).trans_le (by decide)) short.tail
    · exact .cons ((hashers.sha1_length _).trans_le (by decide)) short.tail
    · exact .cons ((hashers.sha256_length _).trans_le (by decide)) short.tail
    · exact .cons ((hashers.hash160_length _).trans_le (by decide)) short.tail
    · exact .cons ((hashers.hash256_length _).trans_le (by decide)) short.tail

/-- The base class makes no long value from short ones. -/
theorem evalNext_short {hashers : Hashers} {opcode : Nat} {s s' : Evaluator Own}
    (next : evalNext hashers opcode s = some s') (short : Short s.stack) (alt : Short s.altStack)
    (few : s.stack.length ≤ 1000) (low : opcode < 256) : Short s'.stack ∧ Short s'.altStack := by
  have onStack (stack : Option (List Data)) (made : ∀ stack', stack = some stack' → Short stack')
      (moved : (stack.map fun stack => { s with stack := stack }) = some s') :
        Short s'.stack ∧ Short s'.altStack := by
    obtain ⟨stack', given, rfl⟩ := Option.map_eq_some_iff.mp moved
    exact ⟨made stack' given, alt⟩
  unfold evalNext at next
  dsimp only at next
  split at next
  · exact Option.some.inj next ▸ ⟨.cons (number_short (by omega)) short, alt⟩
  · split at next
    · have moved := (control_next next).2.2
      have all (value : Data) (inside : value ∈ s'.stack ++ s'.altStack) : value.length ≤ maxElementSize :=
        (List.mem_append.mp (moved value inside)).elim (short value) (alt value)
      exact ⟨fun value inside => all value (List.mem_append_left _ inside),
        fun value inside => all value (List.mem_append_right _ inside)⟩
    · split at next
      · exact onStack _ (fun stack' picked value inside => short value (pick_mem picked value inside)) next
      · split at next
        · refine onStack _ (fun stack' moved value inside => ?_) next
          rcases shuffle_mem moved value inside with before | rfl
          · exact short value before
          · exact number_short (by omega)
        · split at next
          · exact Option.some.inj next ▸ ⟨short, alt⟩
          · split at next
            · exact onStack _ (fun stack' done => calculate_short short done) next
            · split at next
              · exact onStack _ (fun stack' done => crypto_short short done) next
              · exact Option.some.inj next ▸ ⟨short, alt⟩

end Evaluator

end Libcoin
