/-
The operations of a script, and `findAndDelete`.

* `split` has the bytes of the operations of a script, and what is left where no further operation can be read.
* `findAndDelete_whole`: `findAndDelete` removes the operations that are the one it is given, and no other byte.
-/

import Libcoin.Script.SignatureHash

namespace Libcoin

namespace Script

/-! ### Operations -/

/-- The bytes are those of one operation. -/
def IsOperation (b : Script) : Prop := ∃ opcode value, getOp b = some (opcode, value, [])

/-- What `getOp` reads does not depend on what follows. -/
theorem getOp_append {b : Script} {opcode : Nat} {value : Data} (read : getOp b = some (opcode, value, []))
    (rest : Script) : getOp (b ++ rest) = some (opcode, value, rest) := by
  have operand_of {size : Nat} {pc : Script} (given : operand opcode size pc = some (opcode, value, [])) :
      operand opcode size (pc ++ rest) = some (opcode, value, rest) := by
    unfold operand at given
    split at given
    · cases given
    · rename_i enough
      simp only [Option.some.injEq, Prod.mk.injEq, true_and] at given
      obtain ⟨rfl, nothing⟩ := given
      have exactly : pc.length = size := by
        have length := congrArg List.length nothing
        rw [List.length_drop, List.length_nil] at length
        omega
      rw [← exactly, List.take_length]
      exact operand_append opcode pc rest
  have same {opcode' size : Nat} {pc : Script}
      (given : operand opcode' size pc = some (opcode, value, [])) : opcode' = opcode := by
    unfold operand at given
    split at given
    · cases given
    · exact congrArg Prod.fst (Option.some.inj given)
  cases b with
  | nil => cases read
  | cons byte pc =>
    rw [List.cons_append]
    unfold getOp at read ⊢
    dsimp only at read ⊢
    split at read
    · rename_i high
      rw [if_pos high]
      cases read
      rfl
    · rename_i low
      rw [if_neg low]
      split at read
      · rename_i short
        rw [if_pos short]
        obtain rfl := same read
        exact operand_of read
      · rename_i sized
        rw [if_neg sized]
        split at read
        · cases read
        · rename_i enough
          obtain rfl := same read
          rw [if_neg (by rw [List.length_append]; omega), List.take_append_of_le_length (by omega),
            List.drop_append_of_le_length (by omega)]
          exact operand_of read

/-- An operation that is read is one by itself. -/
theorem getOp_split {script rest : Script} {opcode : Nat} {value : Data}
    (read : getOp script = some (opcode, value, rest)) :
    ∃ b, script = b ++ rest ∧ getOp b = some (opcode, value, []) := by
  have operand_of {opcode' size : Nat} {pc : Script} (given : operand opcode' size pc = some (opcode, value, rest)) :
      pc = pc.take size ++ rest ∧ operand opcode' size (pc.take size) = some (opcode, value, []) := by
    unfold operand at given ⊢
    split at given
    · cases given
    · rename_i enough
      simp only [Option.some.injEq, Prod.mk.injEq] at given
      obtain ⟨rfl, rfl, rfl⟩ := given
      refine ⟨(List.take_append_drop size pc).symm, ?_⟩
      have length : (pc.take size).length = size := List.length_take_of_le (Nat.not_lt.mp enough)
      rw [if_neg (by omega), List.take_of_length_le length.le, List.drop_of_length_le length.le]
  cases script with
  | nil => cases read
  | cons byte pc =>
    unfold getOp at read
    dsimp only at read
    split at read
    · rename_i high
      cases read
      refine ⟨[byte], rfl, ?_⟩
      unfold getOp
      exact if_pos high
    · rename_i low
      split at read
      · rename_i short
        obtain ⟨whole, own⟩ := operand_of read
        refine ⟨byte :: pc.take byte.toNat, congrArg (byte :: ·) whole, ?_⟩
        unfold getOp
        dsimp only
        rw [if_neg low, if_pos short]
        exact own
      · rename_i sized
        split at read
        · cases read
        · rename_i enough
          obtain ⟨whole, own⟩ := operand_of read
          generalize size : littleEndian (pc.take (sizeWidth byte.toNat)) = n at read whole own
          refine ⟨byte :: (pc.take (sizeWidth byte.toNat) ++ (pc.drop (sizeWidth byte.toNat)).take n), ?_, ?_⟩
          · rw [List.cons_append, List.append_assoc, ← whole, List.take_append_drop]
          · have width : (pc.take (sizeWidth byte.toNat)).length = sizeWidth byte.toNat :=
              List.length_take_of_le (Nat.not_lt.mp enough)
            unfold getOp
            dsimp only
            rw [if_neg low, if_neg sized, if_neg (by rw [List.length_append]; omega), List.take_left' width,
              List.drop_left' width, size]
            exact own

/-- The operations of a script, at most so many, and what is left. -/
def splitUpTo : Nat → Script → List Script × Script
  | 0, script => ([], script)
  | turns + 1, script =>
    match getOp script with
    | none => ([], script)
    | some (_, _, rest) =>
      (script.take (script.length - rest.length) :: (splitUpTo turns rest).1, (splitUpTo turns rest).2)

/-- The operations of a script, and what is left where the next one cannot be read. -/
def split (script : Script) : List Script × Script := splitUpTo script.length script

theorem splitUpTo_operation {b rest : Script} (operation : IsOperation b) (turns : Nat) :
    splitUpTo (turns + 1) (b ++ rest) = (b :: (splitUpTo turns rest).1, (splitUpTo turns rest).2) := by
  obtain ⟨opcode, value, read⟩ := operation
  rw [splitUpTo, getOp_append read]
  dsimp only
  rw [List.length_append, Nat.add_sub_cancel, List.take_left]

theorem IsOperation.pos {b : Script} (operation : IsOperation b) : 0 < b.length := by
  obtain ⟨opcode, value, read⟩ := operation
  exact getOp_shorter read

/-- Where `getOp` reads nothing there is nothing to split. -/
theorem splitUpTo_none {script : Script} (unread : getOp script = none) (turns : Nat) :
    splitUpTo turns script = ([], script) := by
  cases turns with
  | zero => rfl
  | succ turns => rw [splitUpTo, unread]

/-- A script is its operations and what is left. -/
structure Parts (script : Script) (parts : List Script × Script) : Prop where
  whole : parts.1.flatten ++ parts.2 = script
  operations : ∀ b ∈ parts.1, IsOperation b
  unread : getOp parts.2 = none

theorem splitUpTo_parts {turns : Nat} {script : Script} (enough : script.length ≤ turns) :
    Parts script (splitUpTo turns script) := by
  induction turns generalizing script with
  | zero =>
    obtain rfl := List.length_eq_zero_iff.mp (Nat.le_zero.mp enough)
    exact ⟨rfl, nofun, rfl⟩
  | succ turns ih =>
    cases read : getOp script with
    | none =>
      rw [splitUpTo_none read]
      exact ⟨rfl, nofun, read⟩
    | some instruction =>
      obtain ⟨opcode, value, rest⟩ := instruction
      have shorter := getOp_shorter read
      obtain ⟨b, rfl, own⟩ := getOp_split read
      have operation : IsOperation b := ⟨opcode, value, own⟩
      have further := @ih rest (by omega)
      rw [splitUpTo_operation operation]
      refine ⟨?_, fun other inside => ?_, further.unread⟩
      · rw [List.flatten_cons, List.append_assoc, further.whole]
      · rcases List.mem_cons.mp inside with rfl | later
        · exact operation
        · exact further.operations other later

theorem split_parts (script : Script) : Parts script (split script) := splitUpTo_parts le_rfl

/-- There is one way to split a script. -/
theorem Parts.unique {script : Script} {parts : List Script × Script} (given : Parts script parts) :
    split script = parts := by
  obtain ⟨operations, tail⟩ := parts
  obtain ⟨whole, known, unread⟩ := given
  dsimp only at whole known unread
  unfold split
  generalize size : script.length = turns
  have enough : script.length ≤ turns := size.le
  clear size
  induction operations generalizing script turns with
  | nil =>
    obtain rfl : tail = script := whole
    exact splitUpTo_none unread turns
  | cons b operations ih =>
    have operation := known b List.mem_cons_self
    have positive := operation.pos
    rw [List.flatten_cons, List.append_assoc] at whole
    subst whole
    rw [List.length_append] at enough
    obtain ⟨fewer, rfl⟩ : ∃ fewer, turns = fewer + 1 := ⟨turns - 1, by omega⟩
    have further := ih rfl (fun other inside => known other (List.mem_cons_of_mem _ inside)) fewer (by omega)
    rw [splitUpTo_operation operation, further]

/-! ### Deletion -/

/-- One turn of the loop of `findAndDelete` at an operation. -/
theorem deleteFrom_operation {b other rest : Script} (operation : IsOperation b) (next : IsOperation other)
    (turns : Nat) :
    deleteFrom b (turns + 1) (other ++ rest) =
      if other = b then deleteFrom b turns rest else other ++ deleteFrom b turns rest := by
  obtain ⟨opcode, value, read⟩ := operation
  obtain ⟨opcode', value', read'⟩ := next
  rw [deleteFrom]
  by_cases same : other = b
  · subst same
    rw [if_pos rfl, if_pos (List.isPrefixOf_iff_prefix.mpr (List.prefix_append _ _)), List.drop_left]
  · have different : ¬b.isPrefixOf (other ++ rest) = true := by
      intro matched
      obtain ⟨rest', whole⟩ := List.isPrefixOf_iff_prefix.mp matched
      -- both are the operation that is read there
      have reads := (getOp_append read rest').symm.trans ((congrArg getOp whole).trans (getOp_append read' rest))
      simp only [Option.some.injEq, Prod.mk.injEq] at reads
      obtain ⟨-, -, rfl⟩ := reads
      exact same (List.append_cancel_right whole).symm
    rw [if_neg same, if_neg different, getOp_append read' rest]
    dsimp only
    rw [List.length_append, Nat.add_sub_cancel, List.take_left]

theorem deleteFrom_none {b script : Script} (operation : IsOperation b) (unread : getOp script = none)
    (turns : Nat) : deleteFrom b turns script = script := by
  obtain ⟨opcode, value, read⟩ := operation
  cases turns with
  | zero => rfl
  | succ turns =>
    have different : ¬b.isPrefixOf script = true := by
      intro matched
      obtain ⟨rest, rfl⟩ := List.isPrefixOf_iff_prefix.mp matched
      rw [getOp_append read rest] at unread
      cases unread
    unfold deleteFrom
    rw [if_neg different, unread]

theorem deleteFrom_parts {b script : Script} {parts : List Script × Script} (operation : IsOperation b)
    (given : Parts script parts) {turns : Nat} (enough : script.length ≤ turns) :
    deleteFrom b turns script = (parts.1.filter (· ≠ b)).flatten ++ parts.2 := by
  obtain ⟨operations, tail⟩ := parts
  obtain ⟨whole, known, unread⟩ := given
  dsimp only at whole known unread ⊢
  induction operations generalizing script turns with
  | nil =>
    obtain rfl : tail = script := whole
    exact deleteFrom_none operation unread turns
  | cons other operations ih =>
    have next := known other List.mem_cons_self
    have positive := next.pos
    rw [List.flatten_cons, List.append_assoc] at whole
    subst whole
    rw [List.length_append] at enough
    obtain ⟨fewer, rfl⟩ : ∃ fewer, turns = fewer + 1 := ⟨turns - 1, by omega⟩
    have further := @ih _ fewer (by omega) rfl fun other inside => known other (List.mem_cons_of_mem _ inside)
    rw [deleteFrom_operation operation next, further, List.filter_cons]
    by_cases same : other = b
    · rw [if_pos same, if_neg (by simpa using same)]
    · rw [if_neg same, if_pos (by simpa using same), List.flatten_cons, List.append_assoc]

/-- One opcode without an operand. -/
theorem isOperation_opcode {byte : UInt8} (high : 78 < byte.toNat) : IsOperation [byte] :=
  ⟨byte.toNat, [], by unfold getOp; exact if_pos high⟩

/-- One push that `operator<<` writes. -/
theorem isOperation_push {value : Data} (short : value.length < 2 ^ 32) : IsOperation (pushData value) := by
  obtain ⟨opcode, -, read⟩ := getOp_pushData short []
  rw [List.append_nil] at read
  exact ⟨opcode, value, read⟩

theorem findAndDelete_parts {b script : Script} {parts : List Script × Script} (operation : IsOperation b)
    (given : Parts script parts) :
    findAndDelete b script = (parts.1.filter (· ≠ b)).flatten ++ parts.2 := by
  have nonempty : ¬b.isEmpty = true := by
    rw [List.isEmpty_iff]
    rintro rfl
    exact absurd operation.pos (lt_irrefl 0)
  unfold findAndDelete
  rw [if_neg nonempty]
  exact deleteFrom_parts operation given le_rfl

/-- **`findAndDelete` of an operation removes the operations that are that one, and nothing else.** -/
theorem findAndDelete_whole :
    (∀ byte : UInt8, 78 < byte.toNat → IsOperation [byte]) ∧
      (∀ value : Data, value.length < 2 ^ 32 → IsOperation (pushData value)) ∧
      (∀ script, Parts script (split script)) ∧
      ∀ b script, IsOperation b →
        findAndDelete b script = ((split script).1.filter (· ≠ b)).flatten ++ (split script).2 ∧
          (b ∉ (split script).1 → findAndDelete b script = script) ∧
          findAndDelete b (findAndDelete b script) = findAndDelete b script := by
  refine ⟨fun _ => isOperation_opcode, fun _ => isOperation_push, split_parts, fun b script operation => ?_⟩
  have parts := split_parts script
  have deleted := findAndDelete_parts operation parts
  have kept : Parts (findAndDelete b script) ((split script).1.filter (· ≠ b), (split script).2) :=
    ⟨deleted.symm, fun other inside => parts.operations other (List.mem_of_mem_filter inside), parts.unread⟩
  refine ⟨deleted, fun absent => ?_, ?_⟩
  · have all : (split script).1.filter (· ≠ b) = (split script).1 :=
      List.filter_eq_self.mpr fun other inside => by
        rw [decide_eq_true_eq]
        rintro rfl
        exact absent inside
    rw [deleted, all]
    exact parts.whole
  · rw [findAndDelete_parts operation kept, List.filter_filter]
    simp only [Bool.and_self]
    exact kept.whole

/-- Adjacent matches go, a match inside of a push stays, and so does the end that cannot be read. -/
theorem findAndDelete_whole_separators :
    findAndDelete [171] [171, 171, 81, 2, 171, 171, 171, 5, 171] = [81, 2, 171, 171, 5, 171] := by
  have separator := findAndDelete_whole.1 171 (by decide)
  rw [(findAndDelete_whole.2.2.2 _ _ separator).1]
  decide

end Script

end Libcoin
