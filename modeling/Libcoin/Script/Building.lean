/-
Scripts that are built with `operator<<`: how they are read and evaluated.

* `build` appends byte strings and 64-bit integers. `pushInt64_eq` and `pushUInt64_eq`: both kinds of integers are
  written by the same opcodes and bytes.
* `build_inverse`: such a script is read as what it was built from, to its end.
-/

import Libcoin.Keys.WordNumbers
import Libcoin.Script.CoinbaseHeight
import Libcoin.Script.NameScripts
import Libcoin.Script.Operations

namespace Libcoin

open Evaluator

namespace Script

/-- `push_int64`, with the conversion to `unsigned char`. -/
def pushInt64 (n : Int64) : Script :=
  if n = -1 ∨ (1 ≤ n ∧ n ≤ 16) then [(n + 80).toUInt64.toUInt8] else pushData (numberBytes (setint64 n))

/-- `push_uint64`. -/
def pushUInt64 (n : UInt64) : Script :=
  if 1 ≤ n ∧ n ≤ 16 then [(n + 80).toUInt8] else pushData (numberBytes (setuint64 n))

/-- What `operator<<` appends. The smaller integers are converted to those of 64 bits. -/
inductive Item
  | bytes (value : Data)
  | int64 (n : Int64)
  | uint64 (n : UInt64)

namespace Item

/-- The bytes that are appended. -/
def write : Item → Script
  | bytes value => pushData value
  | int64 n => pushInt64 n
  | uint64 n => pushUInt64 n

/-- The string, or the shortest bytes of the number. -/
def value : Item → Data
  | bytes value => value
  | int64 n => numberBytes n.toInt
  | uint64 n => numberBytes n.toNat

/-- The size fits into the four bytes that there are for it. -/
def Short : Item → Prop
  | bytes value => value.length < 2 ^ 32
  | _ => True

end Item

/-- `operator<<` one item after the other. -/
def build (items : List Item) : Script := items.foldl (fun script item => script ++ item.write) []

/-! ### Integers -/

theorem pushInt64_eq (n : Int64) : pushInt64 n = pushInt n.toInt := by
  have small : (n = -1 ∨ (1 ≤ n ∧ n ≤ 16)) ↔ IsSmallNumber n.toInt := by
    unfold IsSmallNumber
    rw [← Int64.toInt_inj, Int64.le_iff_toInt_le, Int64.le_iff_toInt_le]
    rfl
  unfold pushInt64
  rw [setint64_eq]
  by_cases opcode : n = -1 ∨ (1 ≤ n ∧ n ≤ 16)
  · have word := small.mp opcode
    rw [if_pos opcode, pushInt_small word]
    have whole : Int64.ofInt n.toInt = n := Int64.ofInt_toInt n
    generalize n.toInt = k at word whole
    subst whole
    rcases word with rfl | ⟨low, high⟩
    · rfl
    · interval_cases k <;> rfl
  · rw [if_neg opcode, pushInt_large fun number => opcode (small.mpr number)]

theorem pushUInt64_eq (n : UInt64) : pushUInt64 n = pushInt n.toNat := by
  have small : (1 ≤ n ∧ n ≤ 16) ↔ IsSmallNumber n.toNat := by
    unfold IsSmallNumber
    rw [UInt64.le_iff_toNat_le, UInt64.le_iff_toNat_le]
    show 1 ≤ n.toNat ∧ n.toNat ≤ 16 ↔ _
    omega
  unfold pushUInt64
  rw [setuint64_eq]
  by_cases opcode : 1 ≤ n ∧ n ≤ 16
  · have word := small.mp opcode
    have byte : (n + 80).toUInt8 = UInt8.ofNat ((n.toNat : Int) + 80).toNat := by
      apply UInt8.toNat.inj
      rw [UInt64.toNat_toUInt8, UInt64.toNat_add, UInt8.toNat_ofNat', show (80 : UInt64).toNat = 80 from rfl]
      omega
    rw [if_pos opcode, pushInt_small word, byte]
  · rw [if_neg opcode, pushInt_large fun number => opcode (small.mpr number)]

/-! ### One item -/

/-- What an instruction pushes. -/
def Pushes (opcode : Nat) (operand value : Data) : Prop :=
  opcode ≤ 78 ∧ operand = value ∨
    (opcode = 79 ∨ 81 ≤ opcode ∧ opcode ≤ 96) ∧ operand = [] ∧ value = numberBytes (opcode - 80)

theorem Pushes.low {opcode : Nat} {operand value : Data} (pushes : Pushes opcode operand value) : opcode ≤ 96 := by
  rcases pushes with ⟨low, -⟩ | ⟨number, -⟩ <;> omega

theorem Pushes.operand_length {opcode : Nat} {operand value : Data} (pushes : Pushes opcode operand value) :
    operand.length ≤ value.length := by
  rcases pushes with ⟨-, rfl⟩ | ⟨-, rfl, -⟩
  · exact le_rfl
  · exact Nat.zero_le _

theorem numberBytes_length_word {n : Int} (low : -2 ^ 63 ≤ n) (high : n < 2 ^ 64) : (numberBytes n).length ≤ 9 :=
  @numberBytes_fits n 8 (by omega)

/-- The operation that a number is written as. -/
theorem getOp_pushInt {n : Int} (low : -2 ^ 63 ≤ n) (high : n < 2 ^ 64) :
    ∃ opcode operand, Pushes opcode operand (numberBytes n) ∧
      ∀ rest, getOp (pushInt n ++ rest) = some (opcode, operand, rest) := by
  by_cases small : IsSmallNumber n
  · have byte : (UInt8.ofNat (n + 80).toNat).toNat = (n + 80).toNat := by
      rw [UInt8.toNat_ofNat']
      rcases small with rfl | ⟨least, most⟩ <;> omega
    refine ⟨(n + 80).toNat, [], .inr ⟨?_, rfl, ?_⟩, fun rest => ?_⟩
    · rcases small with rfl | ⟨least, most⟩ <;> omega
    · rcases small with rfl | ⟨least, most⟩
      · rfl
      · rw [Int.toNat_of_nonneg (by omega), Int.add_sub_cancel]
    · rw [pushInt_small small, List.singleton_append]
      unfold getOp
      dsimp only
      rw [byte]
      exact if_pos (by rcases small with rfl | ⟨least, most⟩ <;> omega)
  · have size := numberBytes_length_word low high
    refine ⟨(numberBytes n).length, numberBytes n, .inl ⟨by omega, rfl⟩, fun rest => ?_⟩
    rw [pushInt_large small]
    exact getOp_short (by omega) rest

/-- **Each item is one operation, which pushes its value.** -/
theorem Item.read {item : Item} (short : item.Short) :
    ∃ opcode operand, Pushes opcode operand item.value ∧
      ∀ rest, getOp (item.write ++ rest) = some (opcode, operand, rest) := by
  cases item with
  | bytes value =>
    obtain ⟨opcode, low, alone⟩ := getOp_pushData short []
    rw [List.append_nil] at alone
    exact ⟨opcode, value, .inl ⟨low, rfl⟩, getOp_append alone⟩
  | int64 n =>
    rw [Item.write, pushInt64_eq]
    have high := n.toInt_lt
    exact getOp_pushInt n.le_toInt (by omega)
  | uint64 n =>
    have word := n.toNat_lt
    rw [Item.write, pushUInt64_eq]
    exact getOp_pushInt (by omega) (by omega)

theorem Item.isOperation {item : Item} (short : item.Short) : IsOperation item.write := by
  obtain ⟨opcode, operand, -, read⟩ := Item.read short
  have alone := read []
  rw [List.append_nil] at alone
  exact ⟨opcode, operand, alone⟩

/-! ### A script of items -/

theorem foldl_write (script : Script) (items : List Item) :
    items.foldl (fun script item => script ++ item.write) script = script ++ items.flatMap Item.write := by
  induction items generalizing script with
  | nil => simp
  | cons item items ih => rw [List.foldl_cons, ih, List.flatMap_cons, List.append_assoc]

theorem build_eq (items : List Item) : build items = items.flatMap Item.write := foldl_write [] items

@[simp] theorem build_cons (item : Item) (items : List Item) : build (item :: items) = item.write ++ build items := by
  rw [build_eq, build_eq, List.flatMap_cons]

/-- There are as many operations as items, and nothing is left. -/
theorem split_build {items : List Item} (short : ∀ item ∈ items, item.Short) :
    split (build items) = (items.map Item.write, []) := by
  refine Parts.unique ⟨?_, fun b inside => ?_, rfl⟩
  · rw [List.append_nil, build_eq, List.flatMap_def]
  · obtain ⟨item, member, rfl⟩ := List.mem_map.mp inside
    exact Item.isOperation (short item member)

theorem ops_build {items : List Item} (short : ∀ item ∈ items, item.Short) :
    ∃ instructions : List (Nat × Data),
      ops (build items) = instructions.map some ∧ instructions.length = items.length := by
  induction items with
  | nil => exact ⟨[], rfl, rfl⟩
  | cons item items ih =>
    obtain ⟨instructions, read, count⟩ := ih fun item inside => short item (List.mem_cons_of_mem _ inside)
    obtain ⟨opcode, operand, -, first⟩ := Item.read (short item List.mem_cons_self)
    refine ⟨(opcode, operand) :: instructions, ?_, ?_⟩
    · rw [build_cons, ops_cons (first _), read, List.map_cons]
    · rw [List.length_cons, List.length_cons, count]

/-! ### Evaluation -/

section Evaluation

variable {Own : Type} {eval : Nat → Evaluator Own → Turn Own} {s : Evaluator Own}

/-- The opcodes for small numbers are those of the base class. -/
def PushesSmall (eval : Nat → Evaluator Own → Turn Own) : Prop :=
  ∀ opcode s, (opcode = 79 ∨ 81 ≤ opcode ∧ opcode ≤ 96) →
    eval opcode s = .next { s with stack := numberBytes (opcode - 80) :: s.stack }

theorem pushesSmall_eval (hashers : Hashers) : @PushesSmall Own (Evaluator.eval hashers) := by
  intro opcode s number
  unfold Evaluator.eval evalNext
  rw [if_pos number]

theorem Pushes.instruction {opcode : Nat} {operand value : Data} (pushes : Pushes opcode operand value)
    (small : PushesSmall eval) (idle : s.execStack = []) :
    instruction eval opcode operand s = .next { s with stack := value :: s.stack } := by
  rcases pushes with ⟨low, rfl⟩ | ⟨number, rfl, rfl⟩
  · exact instruction_push idle low
  · rw [instruction_eval idle (by omega), small opcode s number]

/-- The values of some items are on the stack after them. -/
theorem loop_items (small : PushesSmall eval) {items : List Item} (short : ∀ item ∈ items, item.Short)
    (sizes : ∀ item ∈ items, item.value.length ≤ maxElementSize) (rest : Script) (idle : s.execStack = [])
    (room : s.stack.length + s.altStack.length + items.length ≤ 1000) :
    loop eval (ops (build items ++ rest)) s =
      loop eval (ops rest) { s with stack := (items.map Item.value).reverse ++ s.stack } := by
  induction items generalizing s with
  | nil => rfl
  | cons item items ih =>
    obtain ⟨opcode, operand, pushes, read⟩ := Item.read (short item List.mem_cons_self)
    have size := pushes.operand_length.trans (sizes item List.mem_cons_self)
    rw [List.length_cons] at room
    have further := @ih { s with stack := item.value :: s.stack }
      (fun item inside => short item (List.mem_cons_of_mem _ inside))
      (fun item inside => sizes item (List.mem_cons_of_mem _ inside)) idle (by
        show s.stack.length + 1 + s.altStack.length + items.length ≤ 1000
        omega)
    rw [build_cons, List.append_assoc, ops_cons (read _),
      loop_next size pushes.low (pushes.instruction small idle) (by
        show s.stack.length + 1 + s.altStack.length ≤ 1000
        omega), further, List.map_cons, List.reverse_cons, List.append_assoc]
    rfl

/-- A script of items within the limits leaves their values. -/
theorem run_build (small : PushesSmall eval) {items : List Item} (short : ∀ item ∈ items, item.Short)
    (sizes : ∀ item ∈ items, item.value.length ≤ maxElementSize) (bytes : (build items).length ≤ 10000)
    (few : items.length ≤ 1000) (own : Own) :
    run eval (build items) (new own) = (true, { new own with stack := (items.map Item.value).reverse }) := by
  have whole := @loop_items _ eval (new own) small items short sizes [] rfl (by
    show 0 + 0 + items.length ≤ 1000
    omega)
  rw [List.append_nil] at whole
  unfold run
  rw [if_neg (by omega)]
  refine whole.trans ?_
  show (true, { new own with stack := (items.map Item.value).reverse ++ [] }) = _
  rw [List.append_nil]

end Evaluation

/-- **A script is read as what it was built from.** There is one operation for each item and nothing after them, and
within the limits of the evaluator their values are on the stack, those of integers in the shortest form. -/
theorem build_inverse (items : List Item) (short : ∀ item ∈ items, item.Short) :
    (∃ instructions : List (Nat × Data),
        ops (build items) = instructions.map some ∧ instructions.length = items.length) ∧
      split (build items) = (items.map Item.write, []) ∧
      (∀ n, IsShortest (numberBytes n) n) ∧
      ∀ (Own : Type) (hashers : Hashers) (own : Own), (build items).length ≤ 10000 →
        (∀ item ∈ items, item.value.length ≤ maxElementSize) → items.length ≤ 1000 →
        run (Evaluator.eval hashers) (build items) (new own) =
          (true, { new own with stack := (items.map Item.value).reverse }) := by
  refine ⟨ops_build short, split_build short, numberBytes_shortest, fun Own hashers own bytes sizes few => ?_⟩
  exact run_build (pushesSmall_eval hashers) short sizes bytes few own

/-- The least number, minus one, zero, and a string whose size has a byte of its own. -/
theorem build_inverse_edges :
    run (Evaluator.eval Small.hashers)
        (build [.int64 (-2 ^ 63), .int64 (-1), .uint64 0, .bytes (List.replicate 76 7)]) (new ()) =
      (true, { new () with
        stack := [List.replicate 76 7, [], [0x81], [0, 0, 0, 0, 0, 0, 0, 0x80, 0x80]] }) := by
  have short : ∀ item ∈ [Item.int64 (-2 ^ 63), .int64 (-1), .uint64 0, .bytes (List.replicate 76 7)], item.Short := by
    simp [Item.Short]
  have values : ([Item.int64 (-2 ^ 63), .int64 (-1), .uint64 0, .bytes (List.replicate 76 7)].map
      Item.value).reverse = [List.replicate 76 7, [], [0x81], [0, 0, 0, 0, 0, 0, 0, 0x80, 0x80]] := by
    decide +kernel
  rw [← values]
  exact (build_inverse _ short).2.2.2 Unit Small.hashers () (by decide +kernel) (by decide +kernel) (by decide)

end Script

end Libcoin
