/-
Name scripts: what a script drops, and the evaluator of name operations.

* `Script.getDropped` writes what `OP_DROP` and `OP_2DROP` take from the stack as a script again, by the virtual
  function `dropEval` of `DropEvaluator`.
* `nameEval` is that of `NameOperation::Evaluator`.
* `NameForm.script` has the three name scripts as they are built, `nameForm_recognised_iff` says which of them the
  evaluator recognises.
-/

import Libcoin.Script.Evaluator

namespace Libcoin

/-! ### Dropped values -/

/-- `DropEvaluator::eval`. `OP_DROP` records the front of the stack and takes the back. -/
def dropEval (hashers : Hashers) (opcode : Nat) (s : Evaluator (List Data)) : Turn (List Data) :=
  if opcode = 109 then
    match s.stack with
    | x2 :: x1 :: rest => .next { s with stack := rest, own := s.own ++ [x2, x1] }
    | _ => .done false s
  else if opcode = 117 then
    match s.stack with
    | x :: rest => .next { s with stack := rest, own := s.own ++ [(x :: rest).getLastD []] }
    | [] => .done false s
  else s.eval hashers opcode

/-- A value of one byte from 1 to 15, which is written as a number. -/
def isSmall : Data → Bool
  | [byte] => decide (0 < byte ∧ byte < 16)
  | _ => false

/-- The loop of `DropEvaluator::dropped` over one value. -/
def writeDropped (value : Data) : Script :=
  if isSmall value then Script.pushInt (value.headD 0).toNat else Script.pushData value

/-- `DropEvaluator::dropped`. -/
def dropped (values : List Data) : Script := values.flatMap writeDropped

/-- The values that a script drops. -/
def droppedValues (hashers : Hashers) (script : Script) : List Data :=
  (Evaluator.run (dropEval hashers) script (.new [])).2.own

/-- `Script::getDropped`. -/
def Script.getDropped (hashers : Hashers) (script : Script) : Script := dropped (droppedValues hashers script)

/-! ### Name operations -/

/-- The members of `NameOperation::Evaluator`. -/
structure NameMembers where
  nameScript : Bool
  ignoreRules : Bool
  deriving DecidableEq, Repr

abbrev NameEvaluator := Evaluator NameMembers

/-- `uint160` of a value. A value of another size is zero. -/
def toUint160 (value : Data) : Data := if value.length = 20 then value else List.replicate 20 0

namespace NameEvaluator

def new (ignoreRules : Bool) : NameEvaluator := Evaluator.new { nameScript := false, ignoreRules := ignoreRules }

/-- `_name_script = true`. -/
def named (s : NameEvaluator) : NameEvaluator := { s with own := { s.own with nameScript := true } }

def wasNameScript (s : NameEvaluator) : Bool := s.own.nameScript

def wasNameNew (s : NameEvaluator) : Bool := decide (s.stack.length = 1)

def wasFirstUpdate (s : NameEvaluator) : Bool := decide (s.stack.length = 3)

def name (s : NameEvaluator) : Data := s.stack.headD []

def value (s : NameEvaluator) : Data := s.stack.tail.headD []

/-- `OP_NAME_NEW`, which wants the hash alone. -/
def evalNew (s : NameEvaluator) : Turn NameMembers :=
  match s.stack with
  | [hash] => .done (decide (hash.length = 20)) s
  | _ => .done false s

/-- `OP_NAME_FIRSTUPDATE`: either a name, a random value and a value, or these on the hash of a name that was
reserved. -/
def evalFirstUpdate (hashers : Hashers) (s : NameEvaluator) : Turn NameMembers :=
  match s.stack with
  | [name, _, value] => .next { s with stack := [name, value] }
  | [name, rand, value, hash] =>
    if toUint160 hash = hashers.hash160 (rand ++ name) then .done true { s with stack := [name, value, hash] }
    else if s.own.ignoreRules then .done true { s with own := { s.own with nameScript := false } }
    else .done false s
  | _ => .done false s

/-- `OP_NAME_UPDATE`: either a name and a value, or these on the name and the value that were stored before. -/
def evalUpdate (s : NameEvaluator) : Turn NameMembers :=
  match s.stack with
  | [_, _] => .next s
  | [name2, value2, name1, _] =>
    if name2 ≠ name1 ∧ !s.own.ignoreRules then .done false s else .done true { s with stack := [name1, value2] }
  | _ => .done false s

end NameEvaluator

/-- `NameOperation::Evaluator::eval`. -/
def nameEval (hashers : Hashers) (opcode : Nat) (s : NameEvaluator) : Turn NameMembers :=
  match opcode with
  | 81 => s.named.evalNew
  | 82 => s.named.evalFirstUpdate hashers
  | 83 => s.named.evalUpdate
  | _ => .next s

/-! ### The forms of the tests -/

/-- The three name scripts, with their arguments. -/
inductive NameForm
  | nameNew (hash : Data)
  | firstUpdate (name rand value : Data)
  | update (name value : Data)
  deriving DecidableEq, Repr

namespace NameForm

/-- The arguments, the one that is pushed first at the front. -/
def args : NameForm → List Data
  | nameNew hash => [hash]
  | firstUpdate name rand value => [name, rand, value]
  | update name value => [name, value]

/-- `OP_NAME_NEW`, `OP_NAME_FIRSTUPDATE` and `OP_NAME_UPDATE`. -/
def number : NameForm → Nat
  | nameNew _ => 1
  | firstUpdate .. => 2
  | update .. => 3

/-- The drops that match. -/
def drops : NameForm → Script
  | nameNew _ => [109]
  | firstUpdate .. => [109, 109]
  | update .. => [109, 117]

/-- What the operation leaves on the stack, the top first. -/
def left : NameForm → List Data
  | nameNew hash => [hash]
  | firstUpdate name _ value => [name, value]
  | update name value => [name, value]

/-- The name script in front of an address script. -/
def script (form : NameForm) : Script :=
  Script.pushInt form.number ++ form.args.flatMap Script.pushData ++ form.drops

end NameForm

/-! ### What a name script drops -/

section Forms

variable {Own : Type} {hashers : Hashers} {form : NameForm} {address : Script}

open Evaluator Script

theorem ops_pushInt {n : Nat} (positive : 0 < n) (small : n ≤ 16) (rest : Script) :
    ops (pushInt n ++ rest) = some (80 + n, []) :: ops rest := by
  have byte : (UInt8.ofNat (n + 80)).toNat = 80 + n := by
    rw [UInt8.toNat_ofNat']
    omega
  unfold pushInt
  rw [if_pos (by omega), show ((n : Int) + 80).toNat = n + 80 by omega, ← byte]
  exact ops_opcode (by omega) rest

/-- The values of some pushes are on the stack after them. -/
theorem loop_pushes {eval : Nat → Evaluator Own → Turn Own} (args : List Data)
    (short : ∀ arg ∈ args, arg.length ≤ maxElementSize) (rest : Script) (s : Evaluator Own)
    (idle : s.execStack = []) (room : s.stack.length + s.altStack.length + args.length ≤ 1000) :
    loop eval (ops (args.flatMap pushData ++ rest)) s =
      loop eval (ops rest) { s with stack := args.reverse ++ s.stack } := by
  induction args generalizing s with
  | nil => rfl
  | cons arg args ih =>
    have size := short arg List.mem_cons_self
    obtain ⟨opcode, low, read⟩ := @ops_pushData arg (size.trans_lt (by decide)) (args.flatMap pushData ++ rest)
    rw [List.length_cons] at room
    have further := ih (fun arg inside => short arg (List.mem_cons_of_mem _ inside))
      { s with stack := arg :: s.stack } idle (by
        show s.stack.length + 1 + s.altStack.length + args.length ≤ 1000
        omega)
    rw [List.flatMap_cons, List.append_assoc, read,
      loop_next size (by omega) (instruction_push idle low) (by
        show s.stack.length + 1 + s.altStack.length ≤ 1000
        omega), further, List.reverse_cons, List.append_assoc]
    rfl

/-- A script without drops. -/
def DropFree (script : Script) : Prop :=
  ∀ opcode value, some (opcode, value) ∈ ops script → opcode ≠ 109 ∧ opcode ≠ 117

theorem loop_dropFree (free : DropFree address) (s : Evaluator (List Data)) :
    (loop (dropEval hashers) (ops address) s).2.own = s.own := by
  refine @loop_keeps _ _ (fun s' => s'.own = s.own) (fun _ _ keep => keep) (fun _ _ keep => keep) _ ?_ s rfl
  intro opcode value inside s' keep
  obtain ⟨pair, single⟩ := free opcode value inside
  unfold dropEval
  rw [if_neg pair, if_neg single]
  unfold Evaluator.eval
  split
  · exact (evalNext_keeps ‹_›).1.trans keep
  · exact keep

/-- The turn of `OP_2DROP`. -/
theorem loop_pairDrop (rest : Script) (s : Evaluator (List Data)) (two : 2 ≤ s.stack.length)
    (idle : s.execStack = []) (few : s.opCount < 201) (room : s.stack.length + s.altStack.length ≤ 1000) :
    loop (dropEval hashers) (ops (109 :: rest)) s =
      loop (dropEval hashers) (ops rest)
        { s with stack := s.stack.drop 2, own := s.own ++ s.stack.take 2, opCount := s.opCount + 1 } := by
  obtain ⟨x2, x1, below, on⟩ : ∃ x2 x1 below, s.stack = x2 :: x1 :: below := by
    match stack : s.stack, two with
    | x2 :: x1 :: below, _ => exact ⟨x2, x1, below, rfl⟩
  have turn : instruction (dropEval hashers) 109 [] { s with opCount := s.opCount + 1 } =
      .next { s with stack := s.stack.drop 2, own := s.own ++ s.stack.take 2, opCount := s.opCount + 1 } := by
    refine (instruction_eval (by exact idle) (show 78 < 109 by decide)).trans ?_
    unfold dropEval
    rw [if_pos rfl]
    dsimp only
    rw [on]
    rfl
  rw [ops_opcode (by decide)]
  refine loop_counted (by decide) rfl few turn ?_
  show (s.stack.drop 2).length + s.altStack.length ≤ 1000
  rw [List.length_drop]
  omega

/-- The turn of `OP_DROP` for the only value. -/
theorem loop_lastDrop (rest : Script) (s : Evaluator (List Data)) (one : s.stack.length = 1)
    (idle : s.execStack = []) (few : s.opCount < 201) (room : s.altStack.length ≤ 1000) :
    loop (dropEval hashers) (ops (117 :: rest)) s =
      loop (dropEval hashers) (ops rest)
        { s with stack := [], own := s.own ++ s.stack, opCount := s.opCount + 1 } := by
  obtain ⟨x, on⟩ := List.length_eq_one_iff.mp one
  have turn : instruction (dropEval hashers) 117 [] { s with opCount := s.opCount + 1 } =
      .next { s with stack := [], own := s.own ++ s.stack, opCount := s.opCount + 1 } := by
    refine (instruction_eval (by exact idle) (show 78 < 117 by decide)).trans ?_
    unfold dropEval
    rw [if_neg (by decide), if_pos rfl]
    dsimp only
    rw [on]
    rfl
  rw [ops_opcode (by decide)]
  refine loop_counted (by decide) rfl few turn ?_
  show 0 + s.altStack.length ≤ 1000
  omega

theorem numberBytes_number (form : NameForm) : numberBytes form.number = [UInt8.ofNat form.number] := by
  cases form
  · exact (by decide +kernel : numberBytes 1 = [1])
  · exact (by decide +kernel : numberBytes 2 = [2])
  · exact (by decide +kernel : numberBytes 3 = [3])

theorem NameForm.number_bounds (form : NameForm) : 0 < form.number ∧ form.number ≤ 3 := by
  cases form <;> simp [NameForm.number]

theorem NameForm.args_length (form : NameForm) : form.args.length ≤ 3 := by
  cases form <;> simp [NameForm.args]

/-- The drops take everything, the last value first. -/
theorem loop_drops (address : Script) (s : Evaluator (List Data)) (number : Data)
    (on : s.stack = form.args.reverse ++ [number]) (idle : s.execStack = []) (fresh : s.opCount = 0)
    (alone : s.altStack = []) (nothing : s.own = []) :
    loop (dropEval hashers) (ops (form.drops ++ address)) s =
      loop (dropEval hashers) (ops address)
        { s with stack := [], own := form.args.reverse ++ [number], opCount := form.drops.length } := by
  obtain ⟨stack, altStack, execStack, opCount, own⟩ := s
  obtain rfl : stack = form.args.reverse ++ [number] := on
  obtain rfl : execStack = [] := idle
  obtain rfl : opCount = 0 := fresh
  obtain rfl : altStack = [] := alone
  obtain rfl : own = [] := nothing
  cases form with
  | nameNew hash =>
    show loop _ (ops (109 :: address)) _ = _
    rw [loop_pairDrop address _ (by simp [NameForm.args]) rfl (by simp) (by simp [NameForm.args])]
    rfl
  | firstUpdate name rand value =>
    show loop _ (ops (109 :: 109 :: address)) _ = _
    rw [loop_pairDrop _ _ (by simp [NameForm.args]) rfl (by simp) (by simp [NameForm.args]),
      loop_pairDrop address _ (by simp [NameForm.args]) rfl (by simp) (by simp [NameForm.args])]
    rfl
  | update name value =>
    show loop _ (ops (109 :: 117 :: address)) _ = _
    rw [loop_pairDrop _ _ (by simp [NameForm.args]) rfl (by simp) (by simp [NameForm.args]),
      loop_lastDrop address _ (by simp [NameForm.args]) rfl (by simp) (by simp)]
    rfl

/-- A name script drops its arguments in reverse, and then the number of its operation. -/
theorem droppedValues_script (short : ∀ arg ∈ form.args, arg.length ≤ maxElementSize)
    (fits : (form.script ++ address).length ≤ 10000) (free : DropFree address) :
    droppedValues hashers (form.script ++ address) = form.args.reverse ++ [[UInt8.ofNat form.number]] := by
  have number := form.number_bounds
  have few := form.args_length
  have first : instruction (dropEval hashers) (80 + form.number) [] (Evaluator.new ([] : List Data)) =
      .next { Evaluator.new [] with stack := [[UInt8.ofNat form.number]] } := by
    rw [instruction_eval rfl (by omega)]
    unfold dropEval
    rw [if_neg (by omega), if_neg (by omega)]
    unfold Evaluator.eval evalNext
    rw [if_pos (by omega), show ((80 + form.number : Nat) : Int) - 80 = form.number by omega, numberBytes_number]
    rfl
  have started (rest : Script) : loop (dropEval hashers) (ops (pushInt form.number ++ rest)) (Evaluator.new []) =
      loop (dropEval hashers) (ops rest) { Evaluator.new [] with stack := [[UInt8.ofNat form.number]] } := by
    rw [ops_pushInt (by omega) (by omega)]
    exact loop_next (Nat.zero_le _) (by omega) first (show 1 + 0 ≤ 1000 by decide)
  have args (rest : Script) := @loop_pushes _ (dropEval hashers) form.args short rest
    { Evaluator.new [] with stack := [[UInt8.ofNat form.number]] } rfl (show 1 + 0 + _ ≤ 1000 by omega)
  unfold droppedValues Evaluator.run
  rw [if_neg (by omega), NameForm.script, List.append_assoc, List.append_assoc]
  show (loop (dropEval hashers) _ (Evaluator.new [])).2.own = _
  rw [started, args, loop_drops address _ _ rfl rfl rfl rfl rfl]
  exact loop_dropFree free _

end Forms

/-! ### Dropped values in the name evaluator -/

section Values

variable {hashers : Hashers}

open Evaluator Script

/-- What the evaluator does with one dropped value. -/
def nameTurn (hashers : Hashers) (value : Data) (s : NameEvaluator) : Turn NameMembers :=
  if isSmall value then nameEval hashers (80 + (value.headD 0).toNat) s
  else .next { s with stack := value :: s.stack }

/-- The loop over dropped values. -/
def nameLoop (hashers : Hashers) : List Data → NameEvaluator → Bool × NameEvaluator
  | [], s => (true, s)
  | value :: values, s =>
    if maxElementSize < value.length then (false, s)
    else
      match nameTurn hashers value s with
      | .done result s => (result, s)
      | .next s => if 1000 < s.stack.length + s.altStack.length then (false, s) else nameLoop hashers values s

theorem isSmall_iff {value : Data} : isSmall value = true ↔ ∃ byte, value = [byte] ∧ 0 < byte ∧ byte < 16 := by
  constructor
  · intro small
    match value, small with
    | [byte], small => exact ⟨byte, rfl, of_decide_eq_true small⟩
  · rintro ⟨byte, rfl, bounds⟩
    exact decide_eq_true bounds

theorem ops_writeSmall {value : Data} (small : isSmall value = true) (rest : Script) :
    ops (writeDropped value ++ rest) = some (80 + (value.headD 0).toNat, []) :: ops rest := by
  obtain ⟨byte, rfl, positive, low⟩ := isSmall_iff.mp small
  have positive : 0 < byte.toNat := UInt8.lt_iff_toNat_lt.mp positive
  have low : byte.toNat < 16 := UInt8.lt_iff_toNat_lt.mp low
  unfold writeDropped
  rw [if_pos small]
  exact ops_pushInt positive low.le rest

theorem ops_writeLarge {value : Data} (large : isSmall value = false) (short : value.length < 2 ^ 32)
    (rest : Script) : ∃ opcode ≤ 78, ops (writeDropped value ++ rest) = some (opcode, value) :: ops rest := by
  unfold writeDropped
  rw [large]
  exact ops_pushData short rest

theorem small_bounds {value : Data} (small : isSmall value = true) :
    0 < (value.headD 0).toNat ∧ (value.headD 0).toNat < 16 ∧ value.length = 1 := by
  obtain ⟨byte, rfl, positive, low⟩ := isSmall_iff.mp small
  exact ⟨UInt8.lt_iff_toNat_lt.mp positive, UInt8.lt_iff_toNat_lt.mp low, rfl⟩

/-- A turn of the name evaluator leaves the conditionals and the other stack alone, and no name operation puts
more on the stack. -/
theorem nameEval_next {opcode : Nat} {s s' : NameEvaluator} (next : nameEval hashers opcode s = .next s') :
    s'.execStack = s.execStack ∧ s'.altStack = s.altStack ∧ s'.stack.length ≤ s.stack.length := by
  unfold nameEval at next
  split at next
  · unfold NameEvaluator.evalNew at next
    split at next <;> cases next
  · unfold NameEvaluator.evalFirstUpdate at next
    split at next
    · rename_i stack
      cases next
      refine ⟨rfl, rfl, ?_⟩
      have long : s.stack.length = 3 := congrArg List.length stack
      show 2 ≤ s.stack.length
      omega
    · split at next
      · cases next
      · split at next <;> cases next
    · cases next
  · unfold NameEvaluator.evalUpdate at next
    split at next
    · cases next
      exact ⟨rfl, rfl, le_rfl⟩
    · split at next <;> cases next
    · cases next
  · cases next
    exact ⟨rfl, rfl, le_rfl⟩

theorem nameEval_done {opcode : Nat} {s s' : NameEvaluator} {result : Bool}
    (done : nameEval hashers opcode s = .done result s') : s'.stack.length ≤ s.stack.length := by
  unfold nameEval at done
  split at done
  · unfold NameEvaluator.evalNew at done
    split at done <;> cases done <;> exact le_rfl
  · unfold NameEvaluator.evalFirstUpdate at done
    split at done
    · cases done
    · rename_i stack
      have long : s.stack.length = 4 := congrArg List.length stack
      split at done
      · cases done
        show 3 ≤ s.stack.length
        omega
      · split at done <;> cases done <;> exact le_rfl
    · cases done
      exact le_rfl
  · unfold NameEvaluator.evalUpdate at done
    split at done
    · cases done
    · rename_i stack
      have long : s.stack.length = 4 := congrArg List.length stack
      split at done
      · cases done
        exact le_rfl
      · cases done
        show 2 ≤ s.stack.length
        omega
    · cases done
      exact le_rfl
  · cases done

/-- The evaluator reads the values back as they were dropped. -/
theorem loop_dropped (values : List Data) (short : ∀ value ∈ values, value.length < 2 ^ 32) (s : NameEvaluator)
    (idle : s.execStack = []) : loop (nameEval hashers) (ops (dropped values)) s = nameLoop hashers values s := by
  induction values generalizing s with
  | nil =>
    show (s.execStack.isEmpty, s) = (true, s)
    rw [idle]
    rfl
  | cons value values ih =>
    have rest := ih fun value inside => short value (List.mem_cons_of_mem _ inside)
    have size := short value List.mem_cons_self
    rw [dropped, List.flatMap_cons, nameLoop, nameTurn]
    cases small : isSmall value with
    | true =>
      obtain ⟨positive, low, one⟩ := small_bounds small
      rw [ops_writeSmall small, loop_low (Nat.zero_le _) (by omega), instruction_eval idle (by omega),
        if_neg (by rw [one]; decide), if_pos rfl]
      cases turn : nameEval hashers (80 + (value.headD 0).toNat) s with
      | done result s' => rfl
      | next s' =>
        dsimp only
        rw [← dropped, rest s' ((nameEval_next turn).1.trans idle)]
    | false =>
      obtain ⟨opcode, push, read⟩ := ops_writeLarge small size (values.flatMap writeDropped)
      rw [read, ← dropped]
      by_cases long : maxElementSize < value.length
      · rw [if_pos long, loop, if_pos long]
      · rw [if_neg long, loop_low (by omega) (by omega), instruction_push idle push, if_neg Bool.false_ne_true]
        dsimp only
        rw [rest { s with stack := value :: s.stack } idle]

theorem run_dropped {values : List Data} (fits : (dropped values).length ≤ 10000)
    (short : ∀ value ∈ values, value.length < 2 ^ 32) {s : NameEvaluator} (idle : s.execStack = []) :
    run (nameEval hashers) (dropped values) s = nameLoop hashers values { s with opCount := 0 } := by
  unfold run
  rw [if_neg (by omega)]
  exact loop_dropped values short _ idle

theorem nameLoop_done {value : Data} {values : List Data} {s s' : NameEvaluator} {result : Bool}
    (short : value.length ≤ maxElementSize) (turn : nameTurn hashers value s = .done result s') :
    nameLoop hashers (value :: values) s = (result, s') := by
  rw [nameLoop, if_neg (Nat.not_lt.mpr short), turn]

theorem nameLoop_next {value : Data} {values : List Data} {s s' : NameEvaluator}
    (short : value.length ≤ maxElementSize) (turn : nameTurn hashers value s = .next s')
    (room : s'.stack.length + s'.altStack.length ≤ 1000) :
    nameLoop hashers (value :: values) s = nameLoop hashers values s' := by
  rw [nameLoop, if_neg (Nat.not_lt.mpr short), turn]
  exact if_neg (Nat.not_lt.mpr room)

/-- The stack holds at most the values that are not small. -/
theorem nameLoop_length (values : List Data) (s : NameEvaluator) :
    (nameLoop hashers values s).2.stack.length ≤ s.stack.length + values.countP fun value => !isSmall value := by
  induction values generalizing s with
  | nil => exact Nat.le_add_right _ _
  | cons value values ih =>
    rw [nameLoop, nameTurn]
    split
    · exact Nat.le_add_right _ _
    · cases small : isSmall value with
      | true =>
        rw [if_pos rfl, List.countP_cons_of_neg (by rw [small]; decide)]
        cases turn : nameEval hashers (80 + (value.headD 0).toNat) s with
        | done result s' => exact (nameEval_done turn).trans (Nat.le_add_right _ _)
        | next s' =>
          have fewer := (nameEval_next turn).2.2
          dsimp only
          split
          · exact fewer.trans (Nat.le_add_right _ _)
          · exact (ih s').trans (by omega)
      | false =>
        rw [if_neg Bool.false_ne_true, List.countP_cons_of_pos (by rw [small]; rfl)]
        dsimp only
        split
        · show s.stack.length + 1 ≤ _
          omega
        · refine (ih _).trans ?_
          show s.stack.length + 1 + _ ≤ _
          omega

end Values

/-! ### Which forms are recognised -/

namespace NameForm

/-- The sizes of the arguments. -/
def Valid : NameForm → Prop
  | nameNew hash => hash.length = 20
  | firstUpdate name rand value => name.length ≤ 520 ∧ rand.length ≤ 520 ∧ value.length ≤ 520
  | update name value => name.length ≤ 520 ∧ value.length ≤ 520

theorem Valid.short {form : NameForm} (valid : form.Valid) : ∀ arg ∈ form.args, arg.length ≤ 520 := by
  intro arg inside
  cases form with
  | nameNew hash =>
    obtain rfl := List.mem_singleton.mp inside
    have size : arg.length = 20 := valid
    omega
  | firstUpdate name rand value =>
    obtain ⟨nameSize, randSize, valueSize⟩ := valid
    simp only [args, List.mem_cons, List.not_mem_nil, or_false] at inside
    rcases inside with rfl | rfl | rfl <;> assumption
  | update name value =>
    obtain ⟨nameSize, valueSize⟩ := valid
    simp only [args, List.mem_cons, List.not_mem_nil, or_false] at inside
    rcases inside with rfl | rfl <;> assumption

/-- A script is recognised as an operation with its arguments: what stands before the last opcode leaves just the
arguments on the stack and is no name script, that opcode is the one of the operation, and it accepts them. -/
structure Recognised (hashers : Hashers) (ignoreRules : Bool) (form : NameForm) (script : Script) : Prop where
  front : ∃ front, script = front ++ [UInt8.ofNat (80 + form.number)] ∧
    Evaluator.run (nameEval hashers) front (NameEvaluator.new ignoreRules) =
      (true, { NameEvaluator.new ignoreRules with stack := form.args })
  accepted : ∃ s : NameEvaluator,
    Evaluator.run (nameEval hashers) script (NameEvaluator.new ignoreRules) = (true, s) ∧
      s.wasNameScript = true ∧ s.stack = form.left

section Recognition

variable {hashers : Hashers} {form : NameForm}

open Evaluator

theorem writeDropped_number (form : NameForm) :
    writeDropped [UInt8.ofNat form.number] = [UInt8.ofNat (80 + form.number)] := by
  cases form <;> rfl

theorem isSmall_number (form : NameForm) : isSmall [UInt8.ofNat form.number] = true := by
  cases form <;> rfl

theorem writeDropped_length (value : Data) : (writeDropped value).length ≤ value.length + 5 := by
  unfold writeDropped
  split
  · rename_i small
    obtain ⟨positive, low, one⟩ := small_bounds small
    unfold Script.pushInt
    rw [if_pos (by omega)]
    simp
  · exact Script.pushData_length value

theorem dropped_length {values : List Data} (short : ∀ value ∈ values, value.length ≤ 520) :
    (dropped values).length ≤ 525 * values.length := by
  induction values with
  | nil => exact le_rfl
  | cons value values ih =>
    have size := short value List.mem_cons_self
    have first := writeDropped_length value
    have rest := ih fun value inside => short value (List.mem_cons_of_mem _ inside)
    rw [dropped] at rest
    rw [dropped, List.flatMap_cons, List.length_append, List.length_cons]
    omega

/-- Values that are not small are pushed. -/
theorem nameLoop_large {values : List Data} (large : ∀ value ∈ values, isSmall value = false)
    (short : ∀ value ∈ values, value.length ≤ 520) (rest : List Data) (s : NameEvaluator)
    (room : s.stack.length + s.altStack.length + values.length ≤ 1000) :
    nameLoop hashers (values ++ rest) s = nameLoop hashers rest
      { s with stack := values.reverse ++ s.stack } := by
  induction values generalizing s with
  | nil => rfl
  | cons value values ih =>
    have size := short value List.mem_cons_self
    have further := ih (fun value inside => large value (List.mem_cons_of_mem _ inside))
      (fun value inside => short value (List.mem_cons_of_mem _ inside)) { s with stack := value :: s.stack } (by
        rw [List.length_cons] at room
        show s.stack.length + 1 + s.altStack.length + values.length ≤ 1000
        omega)
    rw [List.length_cons] at room
    have turn : nameTurn hashers value s = .next { s with stack := value :: s.stack } := by
      unfold nameTurn
      rw [large value List.mem_cons_self]
      rfl
    rw [List.cons_append, nameLoop_next size turn (show s.stack.length + 1 + s.altStack.length ≤ 1000 by omega),
      further, List.reverse_cons, List.append_assoc]
    rfl

/-- The operation accepts its arguments. -/
theorem nameLoop_number (valid : form.Valid) (s : NameEvaluator) (on : s.stack = form.args)
    (alone : s.altStack = []) :
    ∃ s', nameLoop hashers [[UInt8.ofNat form.number]] s = (true, s') ∧ s'.wasNameScript = true ∧
      s'.stack = form.left := by
  have turned : nameTurn hashers [UInt8.ofNat form.number] s = nameEval hashers (80 + form.number) s := by
    unfold nameTurn
    rw [isSmall_number, if_pos rfl]
    cases form <;> rfl
  cases form with
  | nameNew hash =>
    have size : hash.length = 20 := valid
    have turn : s.named.evalNew = .done true s.named := by
      unfold NameEvaluator.evalNew
      rw [show s.named.stack = [hash] from on]
      dsimp only
      rw [decide_eq_true size]
    exact ⟨s.named, nameLoop_done (by decide : 1 ≤ 520) (turned.trans turn), rfl, on⟩
  | firstUpdate name rand value =>
    have turn : s.named.evalFirstUpdate hashers = .next { s.named with stack := [name, value] } := by
      unfold NameEvaluator.evalFirstUpdate
      rw [show s.named.stack = [name, rand, value] from on]
    refine ⟨{ s.named with stack := [name, value] }, nameLoop_next
      (by decide : 1 ≤ 520) (turned.trans turn) ?_, rfl,
      rfl⟩
    show 2 + s.altStack.length ≤ 1000
    rw [alone]
    decide
  | update name value =>
    have turn : s.named.evalUpdate = .next s.named := by
      unfold NameEvaluator.evalUpdate
      rw [show s.named.stack = [name, value] from on]
    refine ⟨s.named, nameLoop_next (by decide : 1 ≤ 520) (turned.trans turn) ?_, rfl, on⟩
    show s.stack.length + s.altStack.length ≤ 1000
    rw [alone, on]
    simp [args]

theorem dropped_split (form : NameForm) : dropped (form.args.reverse ++ [[UInt8.ofNat form.number]]) =
    dropped form.args.reverse ++ [UInt8.ofNat (80 + form.number)] := by
  rw [dropped, List.flatMap_append, List.flatMap_singleton, writeDropped_number]
  rfl

/-- The run over the arguments alone. -/
theorem run_args (valid : form.Valid) (ignoreRules : Bool) :
    run (nameEval hashers) (dropped form.args.reverse) (NameEvaluator.new ignoreRules) =
      nameLoop hashers form.args.reverse (NameEvaluator.new ignoreRules) := by
  have few := form.args_length
  have short : ∀ arg ∈ form.args.reverse, arg.length ≤ 520 := fun arg inside =>
    valid.short arg (List.mem_reverse.mp inside)
  have size := dropped_length short
  rw [List.length_reverse] at size
  exact run_dropped (by omega) (fun arg inside => (short arg inside).trans_lt (by decide)) rfl

/-- Arguments that are not small are on the stack, and the operation finds them. -/
theorem recognised_of_large (valid : form.Valid) (ignoreRules : Bool)
    (large : ∀ arg ∈ form.args, isSmall arg = false) :
    form.Recognised hashers ignoreRules (dropped (form.args.reverse ++ [[UInt8.ofNat form.number]])) := by
  have few := form.args_length
  have large : ∀ arg ∈ form.args.reverse, isSmall arg = false := fun arg inside =>
    large arg (List.mem_reverse.mp inside)
  have short : ∀ arg ∈ form.args.reverse, arg.length ≤ 520 := fun arg inside =>
    valid.short arg (List.mem_reverse.mp inside)
  have size := dropped_length short
  rw [List.length_reverse] at size
  have pushed (rest : List Data) : nameLoop hashers (form.args.reverse ++ rest) (NameEvaluator.new ignoreRules) =
      nameLoop hashers rest { NameEvaluator.new ignoreRules with stack := form.args } := by
    have loop := @nameLoop_large hashers _ large short rest (NameEvaluator.new ignoreRules)
      (show 0 + 0 + form.args.reverse.length ≤ 1000 by
        rw [List.length_reverse]
        omega)
    rw [List.reverse_reverse, show (NameEvaluator.new ignoreRules).stack = [] from rfl, List.append_nil] at loop
    exact loop
  constructor
  · refine ⟨_, dropped_split form, ?_⟩
    rw [run_args valid, ← List.append_nil form.args.reverse, pushed]
    rfl
  · obtain ⟨s, run, named, stack⟩ := @nameLoop_number hashers form valid
      { NameEvaluator.new ignoreRules with stack := form.args } rfl rfl
    refine ⟨s, ?_, named, stack⟩
    rw [run_dropped ?_ ?_ rfl]
    · exact (pushed _).trans run
    · rw [dropped_split, List.length_append, List.length_singleton]
      omega
    · intro value inside
      rcases List.mem_append.mp inside with arg | number
      · exact (short value arg).trans_lt (by decide)
      · rw [List.mem_singleton.mp number]
        simp

/-- An argument that is small is not on the stack when the operation is evaluated. -/
theorem large_of_recognised (valid : form.Valid) {ignoreRules : Bool}
    (recognised : form.Recognised hashers ignoreRules
      (dropped (form.args.reverse ++ [[UInt8.ofNat form.number]]))) :
    ∀ arg ∈ form.args, isSmall arg = false := by
  obtain ⟨front, split, run⟩ := recognised.front
  rw [dropped_split] at split
  obtain rfl : dropped form.args.reverse = front := List.append_cancel_right split
  rw [run_args valid] at run
  have bound := @nameLoop_length hashers form.args.reverse (NameEvaluator.new ignoreRules)
  rw [run] at bound
  have full : form.args.reverse.countP (fun value => !isSmall value) = form.args.reverse.length := by
    have all : form.args.length ≤ 0 + form.args.reverse.countP fun value => !isSmall value := bound
    have most := form.args.reverse.countP_le_length (p := fun value => !isSmall value)
    rw [List.length_reverse] at most ⊢
    omega
  intro arg inside
  have large := List.countP_eq_length.mp full arg (List.mem_reverse.mpr inside)
  simpa using large

end Recognition

end NameForm

/-- A name script in front of an address script, which drops nothing: what it drops is recognised as the operation
with its arguments exactly when no argument is a single byte from 1 to 15. -/
theorem nameForm_recognised_iff (hashers : Hashers) (ignoreRules : Bool) {form : NameForm} (valid : form.Valid)
    {address : Script} (free : DropFree address) (fits : (form.script ++ address).length ≤ 10000) :
    form.Recognised hashers ignoreRules (Script.getDropped hashers (form.script ++ address)) ↔
      ∀ arg ∈ form.args, isSmall arg = false := by
  unfold Script.getDropped
  rw [droppedValues_script valid.short fits free]
  exact ⟨NameForm.large_of_recognised valid, NameForm.recognised_of_large valid ignoreRules⟩

/-! ### The script of the tests -/

/-- `OP_DUP OP_HASH160 <hash> OP_EQUALVERIFY OP_CHECKSIG`. -/
def Script.payToPubKeyHash (hash : Data) : Script := [118, 169] ++ Script.pushData hash ++ [136, 172]

theorem Script.ops_payToPubKeyHash {hash : Data} (size : hash.length = 20) :
    ∃ opcode ≤ 78, ops (payToPubKeyHash hash) =
      [some (118, []), some (169, []), some (opcode, hash), some (136, []), some (172, [])] := by
  obtain ⟨opcode, low, read⟩ := @ops_pushData hash (by omega) [136, 172]
  refine ⟨opcode, low, ?_⟩
  show ops (118 :: 169 :: (pushData hash ++ [136, 172])) = _
  rw [ops_opcode (by decide), ops_opcode (by decide), read, ops_opcode (by decide), ops_opcode (by decide)]
  rfl

theorem dropFree_payToPubKeyHash {hash : Data} (size : hash.length = 20) :
    DropFree (Script.payToPubKeyHash hash) := by
  obtain ⟨opcode, low, all⟩ := Script.ops_payToPubKeyHash size
  intro other value inside
  rw [all] at inside
  simp only [List.mem_cons, Option.some.injEq, Prod.mk.injEq, List.not_mem_nil, or_false] at inside
  omega

namespace Small

/-- Hash functions that forget the value. -/
def hashers : Hashers :=
  { ripemd160 := fun _ => List.replicate 20 0
    sha1 := fun _ => List.replicate 20 0
    sha256 := fun _ => List.replicate 32 0
    hash160 := fun _ => List.replicate 20 0
    hash256 := fun _ => List.replicate 32 0
    ripemd160_length := fun _ => List.length_replicate
    sha1_length := fun _ => List.length_replicate
    sha256_length := fun _ => List.length_replicate
    hash160_length := fun _ => List.length_replicate
    hash256_length := fun _ => List.length_replicate }

def address : Script := Script.payToPubKeyHash (List.replicate 20 7)

end Small

/-- The value `[5]` of an update is lost: it is written as `OP_5`, which the name evaluator does not push. -/
theorem nameForm_lost :
    ¬(NameForm.update [100, 47, 120] [5]).Recognised Small.hashers false
      (Script.getDropped Small.hashers ((NameForm.update [100, 47, 120] [5]).script ++ Small.address)) := by
  rintro ⟨-, s, run, -, stack⟩
  have result : (Evaluator.run (nameEval Small.hashers)
      (Script.getDropped Small.hashers ((NameForm.update [100, 47, 120] [5]).script ++ Small.address))
      (NameEvaluator.new false)).1 = false := by decide +kernel
  rw [run] at result
  cases result

/-- A first update with an empty value and a value of one byte. -/
theorem nameForm_recognised_firstUpdate :
    (NameForm.firstUpdate [100, 47, 120] [16] []).Recognised Small.hashers false
      (Script.getDropped Small.hashers ((NameForm.firstUpdate [100, 47, 120] [16] []).script ++ Small.address)) :=
  (@nameForm_recognised_iff Small.hashers false (.firstUpdate [100, 47, 120] [16] [])
    ⟨by decide, by decide, by decide⟩ _ (dropFree_payToPubKeyHash (by decide)) (by decide +kernel)).mpr
      (by decide)

end Libcoin
