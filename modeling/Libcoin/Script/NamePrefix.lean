/-
`skipNamePrefix`: the name operation at the beginning of a script is skipped.

* `getOp2` is `getOp` with the place where it leaves the iterator, also when it fails.
* `skipNamePrefix` reads one operation more than the prefix, and steps back by one byte.
-/

import Libcoin.Script.Operations

namespace Libcoin

namespace Script

/-! ### The iterator -/

/-- The end of `getOp2`: the immediate operand. -/
def operand2 (opcode size : Nat) (pc : Script) : Option (Nat × Data) × Script :=
  if pc.length < size then (none, pc) else (some (opcode, pc.take size), pc.drop size)

/-- `getOp2`: the opcode and its immediate operand, and the rest of the script from where the iterator is left. -/
def getOp2 : Script → Option (Nat × Data) × Script
  | [] => (none, [])
  | byte :: pc =>
    let opcode := byte.toNat
    if 78 < opcode then (some (opcode, []), pc)
    else if opcode < 76 then operand2 opcode opcode pc
    else if pc.length < sizeWidth opcode then (none, pc)
    else operand2 opcode (littleEndian (pc.take (sizeWidth opcode))) (pc.drop (sizeWidth opcode))

theorem operand2_eq_some {opcode size : Nat} {pc rest : Script} {read : Nat × Data} :
    operand2 opcode size pc = (some read, rest) ↔ operand opcode size pc = some (read.1, read.2, rest) := by
  obtain ⟨opcode', value⟩ := read
  unfold operand2 operand
  split <;> simp [Prod.ext_iff, and_assoc]

/-- Where it succeeds, it is `getOp`. -/
theorem getOp2_eq_some {script rest : Script} {read : Nat × Data} :
    getOp2 script = (some read, rest) ↔ getOp script = some (read.1, read.2, rest) := by
  obtain ⟨opcode', value⟩ := read
  cases script with
  | nil => simp [getOp2, getOp]
  | cons byte pc =>
    unfold getOp2 getOp
    dsimp only
    split
    · simp [Prod.ext_iff, and_assoc]
    · split
      · exact operand2_eq_some
      · split
        · simp [Prod.ext_iff]
        · exact operand2_eq_some

/-! ### The prefix -/

/-- `OP_DROP`, `OP_2DROP` and `OP_NOP`. -/
def isDrop (opcode : Nat) : Bool := decide (opcode = 117 ∨ opcode = 109 ∨ opcode = 97)

/-- The loop over the arguments, at most so many: their number, and the iterator after the first drop. -/
def skipArgs : Nat → Nat → Script → Option (Nat × Script)
  | 0, _, _ => none
  | turns + 1, argCnt, pc =>
    match getOp2 pc with
    | (none, _) => none
    | (some (opcode, _), pc) =>
      if isDrop opcode then some (argCnt, pc)
      else if 78 < opcode then none
      else skipArgs turns (argCnt + 1) pc

/-- The loop over the drops, at most so many: the iterator after the operation that is not one. -/
def skipDrops : Nat → Script → Script
  | 0, pc => pc
  | turns + 1, pc =>
    match getOp2 pc with
    | (none, pc) => pc
    | (some (opcode, _), pc) => if isDrop opcode then skipDrops turns pc else pc

/-- `skipNamePrefix`: the iterator, where a prefix is skipped. -/
def skipNamePrefix (script : Script) : Option Script :=
  match getOp2 script with
  | (none, _) => none
  | (some (opcode, _), pc) =>
    if opcode < 81 ∨ 96 < opcode then none
    else
      match skipArgs pc.length 0 pc with
      | none => none
      | some (argCnt, pc) =>
        let pc := skipDrops (pc.length + 1) pc
        -- `pc--`
        let pc := script.drop (script.length - pc.length - 1)
        let op := opcode - 80
        if op = 1 ∧ argCnt = 1 ∨ op = 2 ∧ argCnt = 3 ∨ op = 3 ∧ argCnt = 2 then some pc else none

/-- `getWithoutNamePrefix`. -/
def getWithoutNamePrefix (script : Script) : Script := (skipNamePrefix script).getD script

/-! ### What is skipped -/

/-- The pushes of arguments. -/
def AllPushes (args : List Script) : Prop :=
  ∀ b ∈ args, ∃ opcode ≤ 78, ∃ value, getOp b = some (opcode, value, [])

theorem getOp2_append {b : Script} {opcode : Nat} {value : Data} (read : getOp b = some (opcode, value, []))
    (rest : Script) : getOp2 (b ++ rest) = (some (opcode, value), rest) :=
  getOp2_eq_some.mpr (getOp_append read rest)

theorem getOp2_opcode {byte : UInt8} (high : 78 < byte.toNat) (rest : Script) :
    getOp2 (byte :: rest) = (some (byte.toNat, []), rest) := by
  unfold getOp2
  exact if_pos high

theorem skipArgs_pushes {args : List Script} (pushes : AllPushes args) {drop : UInt8}
    (drops : isDrop drop.toNat = true) (rest : Script) {turns argCnt : Nat}
    (enough : args.length < turns) :
    skipArgs turns argCnt (args.flatten ++ drop :: rest) = some (argCnt + args.length, rest) := by
  have high : 78 < drop.toNat := by
    unfold isDrop at drops
    have known := of_decide_eq_true drops
    omega
  induction args generalizing turns argCnt with
  | nil =>
    obtain ⟨fewer, rfl⟩ : ∃ fewer, turns = fewer + 1 := ⟨turns - 1, by rw [List.length_nil] at enough; omega⟩
    rw [List.flatten_nil, List.nil_append, skipArgs, getOp2_opcode high]
    exact if_pos drops
  | cons b args ih =>
    rw [List.length_cons] at enough
    obtain ⟨fewer, rfl⟩ : ∃ fewer, turns = fewer + 1 := ⟨turns - 1, by omega⟩
    obtain ⟨opcode, low, value, read⟩ := pushes b List.mem_cons_self
    have further := @ih (fun other inside => pushes other (List.mem_cons_of_mem _ inside)) fewer (argCnt + 1)
      (by omega)
    have push : ¬isDrop opcode = true := by
      unfold isDrop
      rw [decide_eq_true_eq]
      omega
    rw [List.flatten_cons, List.append_assoc, skipArgs, getOp2_append read]
    dsimp only
    rw [if_neg push, if_neg (by omega), further, List.length_cons, Nat.add_right_comm]
    rfl

theorem skipDrops_drops {drops : List UInt8} (all : ∀ drop ∈ drops, isDrop drop.toNat = true) {rest : Script}
    (stop : ∀ opcode value pc, getOp2 rest = (some (opcode, value), pc) → isDrop opcode = false) {turns : Nat}
    (enough : drops.length < turns) : skipDrops turns (drops ++ rest) = (getOp2 rest).2 := by
  induction drops generalizing turns with
  | nil =>
    obtain ⟨fewer, rfl⟩ : ∃ fewer, turns = fewer + 1 := ⟨turns - 1, by rw [List.length_nil] at enough; omega⟩
    rw [List.nil_append, skipDrops]
    cases read : getOp2 rest with
    | mk instruction pc =>
      cases instruction with
      | none => rfl
      | some read' =>
        obtain ⟨opcode, value⟩ := read'
        dsimp only
        rw [stop opcode value pc read]
        rfl
  | cons drop drops ih =>
    rw [List.length_cons] at enough
    obtain ⟨fewer, rfl⟩ : ∃ fewer, turns = fewer + 1 := ⟨turns - 1, by omega⟩
    have first := all drop List.mem_cons_self
    have high : 78 < drop.toNat := by
      unfold isDrop at first
      have known := of_decide_eq_true first
      omega
    rw [List.cons_append, skipDrops, getOp2_opcode high]
    dsimp only
    rw [if_pos first]
    exact @ih (fun other inside => all other (List.mem_cons_of_mem _ inside)) fewer (by omega)

/-- The opcode, arguments and drops of a name operation: `OP_1` with one argument, `OP_2` with three, `OP_3` with two.
-/
structure NamePrefix where
  op : Nat
  args : List Script
  drops : List UInt8
  known : op = 1 ∧ args.length = 1 ∨ op = 2 ∧ args.length = 3 ∨ op = 3 ∧ args.length = 2
  pushes : AllPushes args
  nonempty : drops ≠ []
  all : ∀ drop ∈ drops, isDrop drop.toNat = true

namespace NamePrefix

def script (form : NamePrefix) : Script := UInt8.ofNat (80 + form.op) :: (form.args.flatten ++ form.drops)

/-- The script after a prefix, with one byte before where the operation after the prefix ends. -/
theorem getWithoutNamePrefix_eq (form : NamePrefix) {rest : Script}
    (stop : ∀ byte ∈ rest.head?, isDrop byte.toNat = false) :
    getWithoutNamePrefix (form.script ++ rest) =
      (form.script ++ rest).drop ((form.script ++ rest).length - (getOp2 rest).2.length - 1) := by
  obtain ⟨op, args, drops, known, pushes, nonempty, all⟩ := form
  obtain ⟨drop, drops, rfl⟩ := List.exists_cons_of_ne_nil nonempty
  have byte : (UInt8.ofNat (80 + op)).toNat = 80 + op := by
    rw [UInt8.toNat_ofNat']
    omega
  have positive : ∀ args : List Script, AllPushes args → args.length ≤ args.flatten.length := by
    intro args pushes
    induction args with
    | nil => exact le_rfl
    | cons b args ih =>
      obtain ⟨opcode, -, value, read⟩ := pushes b List.mem_cons_self
      have one := IsOperation.pos ⟨opcode, value, read⟩
      have rest := ih fun other inside => pushes other (List.mem_cons_of_mem _ inside)
      rw [List.flatten_cons, List.length_append, List.length_cons]
      omega
  have few := positive args pushes
  have stops (opcode : Nat) (value : Data) (pc : Script) (read : getOp2 rest = (some (opcode, value), pc)) :
      isDrop opcode = false := by
    cases rest with
    | nil => cases read
    | cons byte rest =>
      rw [← stop byte rfl]
      -- an operation is named by its first byte
      unfold getOp2 operand2 at read
      dsimp only at read
      congr 1
      split at read
      · exact (congrArg Prod.fst (Option.some.inj (congrArg Prod.fst read))).symm
      · split at read
        · split at read
          · cases read
          · exact (congrArg Prod.fst (Option.some.inj (congrArg Prod.fst read))).symm
        · split at read
          · cases read
          · split at read
            · cases read
            · exact (congrArg Prod.fst (Option.some.inj (congrArg Prod.fst read))).symm
  have first := getOp2_opcode (show 78 < (UInt8.ofNat (80 + op)).toNat by omega)
    (args.flatten ++ drop :: drops ++ rest)
  have arguments := @skipArgs_pushes args pushes drop (all drop List.mem_cons_self) (drops ++ rest)
    (args.flatten ++ drop :: drops ++ rest).length 0 (by simp only [List.length_append, List.length_cons]; omega)
  have dropped := @skipDrops_drops drops (fun other inside => all other (List.mem_cons_of_mem _ inside)) rest stops
    ((drops ++ rest).length + 1) (by rw [List.length_append]; omega)
  unfold getWithoutNamePrefix skipNamePrefix script
  rw [List.cons_append, first, List.append_assoc, List.cons_append] at *
  dsimp only
  rw [byte, if_neg (by omega), arguments]
  dsimp only
  rw [dropped, show 80 + op - 80 = op by omega, Nat.zero_add, if_pos known]
  rfl

end NamePrefix

/-! ### What is left -/

/-- The first operation moves the iterator by one byte: it has no operand, or not all of the bytes that are looked
for next are there. -/
def MovesOneByte : Script → Prop
  | [] => False
  | byte :: pc =>
    byte = 0 ∨ 78 < byte.toNat ∨ pc.length < if byte.toNat < 76 then byte.toNat else sizeWidth byte.toNat

theorem operand2_length (opcode size : Nat) (pc : Script) :
    (operand2 opcode size pc).2.length ≤ pc.length ∧
      ((operand2 opcode size pc).2.length = pc.length ↔ size = 0 ∨ pc.length < size) := by
  unfold operand2
  split
  · rename_i short
    exact ⟨le_rfl, iff_of_true rfl (.inr short)⟩
  · rw [List.length_drop]
    omega

theorem getOp2_movesOneByte (rest : Script) :
    (getOp2 rest).2.length ≤ rest.length ∧ ((getOp2 rest).2.length + 1 = rest.length ↔ MovesOneByte rest) := by
  cases rest with
  | nil => exact ⟨le_rfl, iff_of_false (by simp) id⟩
  | cons byte pc =>
    have zero : byte = 0 ↔ byte.toNat = 0 := UInt8.toNat_inj.symm
    unfold getOp2 MovesOneByte
    dsimp only
    rw [List.length_cons, zero]
    split
    · exact ⟨Nat.le_succ _, iff_of_true rfl (.inr (.inl ‹_›))⟩
    · split
      · have operand := operand2_length byte.toNat byte.toNat pc
        omega
      · have width : 0 < sizeWidth byte.toNat := by
          unfold sizeWidth
          split
          · exact Nat.one_pos
          · split <;> decide
        split
        · exact ⟨Nat.le_succ _, iff_of_true rfl (.inr (.inr ‹_›))⟩
        · have operand := operand2_length byte.toNat (littleEndian (pc.take (sizeWidth byte.toNat)))
            (pc.drop (sizeWidth byte.toNat))
          rw [List.length_drop] at operand
          omega

/-- **The rest of a script is what is left without its prefix exactly when the first operation of the rest moves the
iterator by one byte.** -/
theorem getWithoutNamePrefix_iff (form : NamePrefix) (rest : Script)
    (stop : ∀ byte ∈ rest.head?, isDrop byte.toNat = false) :
    getWithoutNamePrefix (form.script ++ rest) = rest ↔ MovesOneByte rest := by
  obtain ⟨within, one⟩ := getOp2_movesOneByte rest
  have positive : 0 < form.script.length := Nat.succ_pos _
  rw [form.getWithoutNamePrefix_eq stop, ← one]
  constructor
  · intro same
    have length := congrArg List.length same
    rw [List.length_drop, List.length_append] at length
    omega
  · intro moved
    rw [List.length_append, show form.script.length + rest.length - (getOp2 rest).2.length - 1 =
      form.script.length by omega, List.drop_left]

/-- `OP_1` with a hash, dropped at once with the number. -/
def hashPrefix : NamePrefix where
  op := 1
  args := [pushData [7, 7]]
  drops := [109]
  known := by decide
  pushes := by
    intro b inside
    obtain rfl := List.mem_singleton.mp inside
    exact ⟨2, by decide, [7, 7], rfl⟩
  nonempty := by decide
  all := by decide +kernel

/-- Before `OP_DUP OP_HASH160`. -/
theorem getWithoutNamePrefix_iff_dup : getWithoutNamePrefix (hashPrefix.script ++ [118, 169]) = [118, 169] :=
  (getWithoutNamePrefix_iff hashPrefix [118, 169] (by decide +kernel)).mpr (.inr (.inl (by decide)))

/-- Without a rest a drop is left, and before a push of two bytes the last one. -/
theorem getWithoutNamePrefix_wrong :
    getWithoutNamePrefix (hashPrefix.script ++ []) = [109] ∧
      getWithoutNamePrefix (hashPrefix.script ++ [2, 5, 6, 172]) = [6, 172] := by
  decide

end Script

end Libcoin
