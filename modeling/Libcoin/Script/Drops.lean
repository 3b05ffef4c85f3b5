/-
What `getDropped` collects from a script that pushes values and drops them.

* `Pushes` is one push, `Drop` an `OP_DROP` or an `OP_2DROP`.
* `recorded` is what the drop evaluator records of drops on a stack: `OP_2DROP` the two values that it takes, but
  `OP_DROP` the value at the bottom.
-/

import Libcoin.Script.NameScripts
import Libcoin.Script.Operations

namespace Libcoin

open Evaluator Script

/-- One operation that pushes the value. -/
def Pushes (b : Script) (value : Data) : Prop :=
  (∃ opcode ≤ 78, getOp b = some (opcode, value, [])) ∨
    ∃ opcode : Nat, (opcode = 79 ∨ 81 ≤ opcode ∧ opcode ≤ 96) ∧ getOp b = some (opcode, [], []) ∧
      value = numberBytes (opcode - 80)

/-- `operator<<` writes a push. -/
theorem pushes_pushData {value : Data} (short : value.length < 2 ^ 32) : Pushes (pushData value) value := by
  obtain ⟨opcode, low, read⟩ := getOp_pushData short []
  rw [List.append_nil] at read
  exact .inl ⟨opcode, low, read⟩

/-- The two opcodes that drop values. -/
inductive Drop
  | one
  | two
  deriving DecidableEq, Repr

namespace Drop

/-- `OP_DROP` and `OP_2DROP`. -/
def opcode : Drop → UInt8
  | one => 117
  | two => 109

/-- How many values are dropped. -/
def size : Drop → Nat
  | one => 1
  | two => 2

theorem size_pos (drop : Drop) : 1 ≤ drop.size := by cases drop <;> decide

theorem opcode_high (drop : Drop) : 78 < drop.opcode.toNat := by cases drop <;> decide

/-- What is recorded of drops on a stack. -/
def recorded : List Drop → List Data → List Data
  | [], _ => []
  | one :: drops, stack => stack.getLastD [] :: recorded drops stack.tail
  | two :: drops, stack => stack.take 2 ++ recorded drops (stack.drop 2)

/-- Where an `OP_DROP` stands, the value on top is the value at the bottom. -/
def TopIsBottom : List Drop → List Data → Prop
  | [], _ => True
  | one :: drops, stack => stack.getLastD [] = stack.headD [] ∧ TopIsBottom drops stack.tail
  | two :: drops, stack => TopIsBottom drops (stack.drop 2)

theorem length_recorded {drops : List Drop} {stack : List Data} (deep : (drops.map size).sum ≤ stack.length) :
    (recorded drops stack).length = (drops.map size).sum := by
  induction drops generalizing stack with
  | nil => rfl
  | cons drop drops ih =>
    rw [List.map_cons, List.sum_cons] at deep ⊢
    cases drop with
    | one =>
      have deep : 1 + (drops.map size).sum ≤ stack.length := deep
      have rest := @ih stack.tail (by rw [List.length_tail]; omega)
      rw [recorded, List.length_cons, rest]
      exact Nat.add_comm _ _
    | two =>
      have deep : 2 + (drops.map size).sum ≤ stack.length := deep
      have rest := @ih (stack.drop 2) (by rw [List.length_drop]; omega)
      rw [recorded, List.length_append, rest, List.length_take_of_le (by omega)]
      rfl

/-- The values are recorded from the top down exactly when the bottom is that of the top. -/
theorem recorded_eq_iff {drops : List Drop} {stack : List Data} (deep : (drops.map size).sum = stack.length) :
    recorded drops stack = stack ↔ TopIsBottom drops stack := by
  induction drops generalizing stack with
  | nil =>
    obtain rfl : stack = [] := List.length_eq_zero_iff.mp deep.symm
    exact iff_of_true rfl trivial
  | cons drop drops ih =>
    rw [List.map_cons, List.sum_cons] at deep
    cases drop with
    | one =>
      cases stack with
      | nil =>
        have deep : 1 + (drops.map size).sum = 0 := deep
        omega
      | cons top rest =>
        have fewer : (drops.map size).sum = rest.length := by
          rw [List.length_cons, Nat.add_comm] at deep
          exact Nat.add_right_cancel deep
        rw [recorded, List.cons_eq_cons, List.tail_cons, ih fewer]
        exact Iff.rfl
    | two =>
      have fewer : (drops.map size).sum = (stack.drop 2).length := by
        rw [List.length_drop, ← deep]
        exact (Nat.add_sub_cancel_left _ _).symm
      rw [recorded, TopIsBottom, ← ih fewer]
      constructor
      · intro same
        exact List.append_cancel_left (same.trans (List.take_append_drop 2 stack).symm)
      · intro same
        rw [same, List.take_append_drop]

end Drop

open Drop

section Runs

variable {hashers : Hashers}

/-- The turn of a push. -/
theorem loop_push {b : Script} {value : Data} (pushes : Pushes b value) (short : value.length ≤ maxElementSize)
    (rest : Script) (s : Evaluator (List Data)) (idle : s.execStack = [])
    (room : s.stack.length + s.altStack.length + 1 ≤ 1000) :
    loop (dropEval hashers) (ops (b ++ rest)) s =
      loop (dropEval hashers) (ops rest) { s with stack := value :: s.stack } := by
  have fits : ({ s with stack := value :: s.stack } : Evaluator (List Data)).stack.length + s.altStack.length ≤
      1000 := by
    show s.stack.length + 1 + s.altStack.length ≤ 1000
    omega
  rcases pushes with ⟨opcode, low, read⟩ | ⟨opcode, number, read, rfl⟩
  · rw [ops_cons (getOp_append read rest)]
    exact loop_next short (by omega) (instruction_push idle low) fits
  · rw [ops_cons (getOp_append read rest)]
    refine loop_next (Nat.zero_le _) (by omega) ((instruction_eval idle (by omega)).trans ?_) fits
    unfold dropEval
    rw [if_neg (by omega), if_neg (by omega)]
    unfold Evaluator.eval evalNext
    rw [if_pos number]

/-- A value that is too long ends the evaluation. -/
theorem loop_long {b : Script} {value : Data} (pushes : Pushes b value) (long : ¬value.length ≤ maxElementSize)
    (rest : Script) (s : Evaluator (List Data)) : (loop (dropEval hashers) (ops (b ++ rest)) s).2 = s := by
  rcases pushes with ⟨opcode, low, read⟩ | ⟨opcode, number, read, rfl⟩
  · rw [ops_cons (getOp_append read rest), loop, if_pos (by omega)]
  · exact absurd (number_short (by omega)) long

/-- The pushes of a script leave their values, or end its evaluation. -/
theorem loop_allPushed {pushed : List Script} {values : List Data} (pushes : List.Forall₂ Pushes pushed values)
    (rest : Script) (s : Evaluator (List Data)) (idle : s.execStack = [])
    (room : s.stack.length + s.altStack.length + values.length ≤ 1000) :
    (Short values → loop (dropEval hashers) (ops (pushed.flatten ++ rest)) s =
      loop (dropEval hashers) (ops rest) { s with stack := values.reverse ++ s.stack }) ∧
    (¬Short values → (loop (dropEval hashers) (ops (pushed.flatten ++ rest)) s).2.own = s.own) := by
  induction pushes generalizing s with
  | nil => exact ⟨fun _ => rfl, fun long => absurd short_nil long⟩
  | @cons b value pushed values push pushes ih =>
    rw [List.length_cons] at room
    rw [List.flatten_cons, List.append_assoc]
    by_cases size : value.length ≤ maxElementSize
    · obtain ⟨all, ends⟩ := ih { s with stack := value :: s.stack } idle (by
        show s.stack.length + 1 + s.altStack.length + values.length ≤ 1000
        omega)
      rw [loop_push push size _ s idle (by omega)]
      refine ⟨fun short => ?_, fun long => ends fun short => long (.cons size short)⟩
      rw [all short.tail, List.reverse_cons, List.append_assoc]
      rfl
    · refine ⟨fun short => absurd short.head size, fun _ => ?_⟩
      rw [loop_long push size]

/-- The turn of one drop. -/
theorem loop_drop (drop : Drop) (rest : Script) (s : Evaluator (List Data)) (deep : drop.size ≤ s.stack.length)
    (idle : s.execStack = []) (few : s.opCount < 201) (room : s.stack.length + s.altStack.length ≤ 1000) :
    loop (dropEval hashers) (ops (drop.opcode :: rest)) s =
      loop (dropEval hashers) (ops rest)
        { s with stack := s.stack.drop drop.size, own := s.own ++ recorded [drop] s.stack,
                 opCount := s.opCount + 1 } := by
  cases drop with
  | two =>
    have pair := @loop_pairDrop hashers rest s deep idle few room
    rw [recorded, recorded, List.append_nil]
    exact pair
  | one =>
    obtain ⟨top, below, on⟩ : ∃ top below, s.stack = top :: below := by
      cases stack : s.stack with
      | nil =>
        rw [stack] at deep
        cases deep
      | cons top below => exact ⟨top, below, rfl⟩
    have turn : instruction (dropEval hashers) 117 [] { s with opCount := s.opCount + 1 } =
        .next { s with stack := s.stack.drop 1, own := s.own ++ recorded [.one] s.stack,
                       opCount := s.opCount + 1 } := by
      refine (instruction_eval (by exact idle) (show 78 < 117 by decide)).trans ?_
      unfold dropEval
      rw [if_neg (by decide), if_pos rfl]
      dsimp only
      rw [on]
      rfl
    show loop _ (ops (117 :: rest)) s = _
    rw [ops_opcode (by decide)]
    refine loop_counted (by decide) rfl few turn ?_
    show (s.stack.drop 1).length + s.altStack.length ≤ 1000
    rw [List.length_drop]
    omega

/-- The drops of a script, up to the limit of the opcodes. -/
theorem loop_allDropped {drops : List Drop} (s : Evaluator (List Data))
    (deep : (drops.map size).sum ≤ s.stack.length) (idle : s.execStack = []) (count : s.opCount ≤ 201)
    (room : s.stack.length + s.altStack.length ≤ 1000) :
    (loop (dropEval hashers) (ops (drops.map opcode)) s).2.own =
      s.own ++ recorded (drops.take (201 - s.opCount)) s.stack := by
  induction drops generalizing s with
  | nil =>
    rw [List.take_nil]
    exact (List.append_nil _).symm
  | cons drop drops ih =>
    rw [List.map_cons, List.sum_cons] at deep
    rw [List.map_cons]
    by_cases few : s.opCount < 201
    · have size := drop.size_pos
      obtain ⟨left, count'⟩ : ∃ left, 201 - s.opCount = left + 1 ∧ 201 - (s.opCount + 1) = left :=
        ⟨200 - s.opCount, by omega, by omega⟩
      have rest := ih { s with stack := s.stack.drop drop.size, own := s.own ++ recorded [drop] s.stack,
                               opCount := s.opCount + 1 }
        (by
          show _ ≤ (s.stack.drop drop.size).length
          rw [List.length_drop]
          omega)
        idle (show s.opCount + 1 ≤ 201 by omega) (by
          show (s.stack.drop drop.size).length + s.altStack.length ≤ 1000
          rw [List.length_drop]
          omega)
      rw [loop_drop drop _ s (by omega) idle few room, rest, count'.1]
      show s.own ++ _ ++ recorded (drops.take (201 - (s.opCount + 1))) _ = _
      rw [count'.2, List.take_succ_cons, List.append_assoc]
      cases drop with
      | one =>
        show s.own ++ ([s.stack.getLastD []] ++ recorded (drops.take left) (s.stack.drop 1)) = _
        rw [List.drop_one]
        rfl
      | two =>
        rw [recorded, recorded, recorded, List.append_nil]
        rfl
    · have full : s.opCount = 201 := by omega
      rw [ops_opcode drop.opcode_high, loop, if_neg (by simp)]
      have high : 96 < drop.opcode.toNat := by cases drop <;> decide
      rw [if_pos high]
      dsimp only
      rw [if_pos ⟨high, by omega⟩, full]
      exact (List.append_nil _).symm

/-- **The dropped values are the pushed ones in reverse exactly when the script is within the limits and every
`OP_DROP` finds on top what is at the bottom.** -/
theorem droppedValues_reverse_iff (hashers : Hashers) {pushed : List Script} {values : List Data}
    (pushes : List.Forall₂ Pushes pushed values) (few : values.length ≤ 1000) {drops : List Drop}
    (all : (drops.map size).sum = values.length) :
    droppedValues hashers (pushed.flatten ++ drops.map opcode) = values.reverse ↔
      values = [] ∨
        (pushed.flatten ++ drops.map opcode).length ≤ 10000 ∧ Short values ∧ drops.length ≤ 201 ∧
          TopIsBottom drops values.reverse := by
  by_cases nothing : values = []
  · subst nothing
    cases pushes
    obtain rfl : drops = [] := by
      cases drops with
      | nil => rfl
      | cons drop drops =>
        have positive := drop.size_pos
        rw [List.map_cons, List.sum_cons, List.length_nil] at all
        omega
    exact iff_of_true rfl (.inl rfl)
  · have different : ¬([] : List Data) = values.reverse := fun same =>
      nothing (List.reverse_eq_nil_iff.mp same.symm)
    rw [or_iff_right nothing]
    unfold droppedValues Evaluator.run
    dsimp only
    by_cases fits : (pushed.flatten ++ drops.map opcode).length ≤ 10000
    · rw [if_neg (Nat.not_lt.mpr fits), and_iff_right fits]
      obtain ⟨whole, part⟩ := @loop_allPushed hashers _ _ pushes (drops.map opcode)
        { Evaluator.new [] with opCount := 0 } rfl (show 0 + 0 + values.length ≤ 1000 by omega)
      by_cases short : Short values
      · have deep : (drops.map size).sum = values.reverse.length := by rw [List.length_reverse, all]
        have dropped := @loop_allDropped hashers drops
          { Evaluator.new ([] : List Data) with opCount := 0, stack := values.reverse ++ [] }
          (by
            show _ ≤ (values.reverse ++ []).length
            rw [List.append_nil]
            exact deep.le)
          rfl (Nat.zero_le _) (by
            show (values.reverse ++ []).length + 0 ≤ 1000
            rw [List.append_nil, List.length_reverse]
            exact few)
        rw [whole short, and_iff_right short]
        refine (congrArg (· = values.reverse) dropped).to_iff.trans ?_
        show recorded (drops.take 201) (values.reverse ++ []) = _ ↔ _
        rw [List.append_nil]
        by_cases within : drops.length ≤ 201
        · rw [List.take_of_length_le within, and_iff_right within]
          exact recorded_eq_iff deep
        · -- the values of the last drops are missing
          refine iff_of_false (fun same => ?_) fun both => within both.1
          have split := congrArg List.sum (congrArg (List.map size) (List.take_append_drop 201 drops))
          rw [List.map_append, List.sum_append] at split
          have length := congrArg List.length same
          rw [length_recorded (by omega), ← deep, ← split] at length
          have last := List.length_le_sum_of_one_le ((drops.drop 201).map size) fun amount inside => by
            obtain ⟨drop, -, rfl⟩ := List.mem_map.mp inside
            exact drop.size_pos
          rw [List.length_map, List.length_drop] at last
          omega
      · rw [part short]
        exact iff_of_false different fun all => short all.1
    · rw [if_pos (Nat.lt_of_not_le fits)]
      exact iff_of_false different fun all => fits all.1

end Runs

/-- Three values, of which two are dropped at once. -/
theorem droppedValues_reverse_three :
    droppedValues Small.hashers ([pushData [1, 1], [81], pushData [3, 3]].flatten ++ [two, one].map opcode) =
      [[1, 1], numberBytes 1, [3, 3]].reverse :=
  (droppedValues_reverse_iff Small.hashers (.cons (pushes_pushData (by decide)) (.cons
    (.inr ⟨81, by decide, rfl, rfl⟩) (.cons (pushes_pushData (by decide)) .nil))) (by decide) rfl).mpr
    (.inr ⟨by decide, by unfold Short; decide +kernel, by decide, rfl, trivial⟩)

/-- Two values that are dropped one after the other, and both at once. -/
theorem droppedValues_not_reverse :
    droppedValues Small.hashers ([pushData [1, 1], pushData [2, 2]].flatten ++ [one, one].map opcode) ≠
        [[1, 1], [2, 2]].reverse ∧
      droppedValues Small.hashers ([pushData [1, 1], pushData [2, 2]].flatten ++ [two].map opcode) =
        [[1, 1], [2, 2]].reverse := by
  decide +kernel

end Libcoin
