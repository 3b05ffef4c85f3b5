/-
Whether the check of a proof of work stays within what it reads.

* `Hazard` are the things that must not happen. Each operation that could do one of them is a function that says so:
  `inputAt`, `advance`, `readInt`, `shiftOne`, `remainder` and `setCompactInto`.
* `AuxPow.checkSteps` is `AuxPow::Check` with these operations. `checkSteps_eq` says that it is `check`, where a
  coinbase without an input is the only hazard.
* `NamecoinChain.checkProofOfWork` is the check of a block, and `checkProofOfWork_safe_iff` says when it has a result.
-/

import Libcoin.Ledger.AuxPow
import Libcoin.Tree.Retarget
import Libcoin.Keys.BigNum

namespace Libcoin

/-- What must not happen. -/
inductive Hazard
  | emptyInputs
  | pastEnd
  | wideShift
  | badRemainder
  | pastBuffer
  deriving DecidableEq, Repr

/-! ### Operations that can go wrong -/

/-- `_inputs[i]`. -/
def inputAt (inputs : List Input) (i : Nat) : Except Hazard Input :=
  match inputs[i]? with
  | some input => .ok input
  | none => .error .emptyInputs

/-- An iterator into a script, moved on. -/
def advance (script : Script) (place n : Nat) : Except Hazard Nat :=
  if place + n ≤ script.length then .ok (place + n) else .error .pastEnd

/-- `memcpy` of four bytes of a script. -/
def readInt (script : Script) (place : Nat) : Except Hazard Nat :=
  if place + 4 ≤ script.length then .ok (littleEndian ((script.drop place).take 4)) else .error .pastEnd

/-- `1 << n`. -/
def shiftOne (n : Nat) : Except Hazard Int :=
  if n < 32 then .ok (((2 : Int) ^ n).bmod (2 ^ 32)) else .error .wideShift

/-- `rand % nSize`. -/
def remainder (rand : UInt32) (nSize : Int) : Except Hazard UInt32 :=
  if 0 < nSize then .ok (rand % UInt32.ofInt nSize) else .error .badRemainder

/-- The places of the buffer that `SetCompact` writes, for a number of bytes. -/
def compactWrites (nSize : Int) : List Int :=
  3 :: ((if 1 ≤ nSize then [4] else []) ++ (if 2 ≤ nSize then [5] else []) ++ if 3 ≤ nSize then [6] else [])

/-- `CBigNum::SetCompact`, whose buffer has the size `4 + nSize` as an `unsigned int`. -/
def setCompactInto (nCompact : Int) : Except Hazard Int :=
  let nSize := nCompact / 2 ^ 24 % 2 ^ 32
  if (compactWrites nSize).all fun place => decide (place < (4 + nSize) % 2 ^ 32) then .ok (setCompact nCompact)
  else .error .pastBuffer

/-- The number of bytes is one of the last four of an `unsigned int`. -/
def WrapsBuffer (nCompact : Int) : Prop := 2 ^ 32 - 4 ≤ nCompact / 2 ^ 24 % 2 ^ 32

instance (nCompact : Int) : Decidable (WrapsBuffer nCompact) := inferInstanceAs (Decidable (_ ≤ _))

theorem setCompactInto_eq (nCompact : Int) :
    setCompactInto nCompact = if WrapsBuffer nCompact then .error .pastBuffer else .ok (setCompact nCompact) := by
  obtain ⟨nSize, size⟩ : ∃ nSize, nCompact / 2 ^ 24 % 2 ^ 32 = nSize := ⟨_, rfl⟩
  have low : 0 ≤ nSize := size ▸ Int.emod_nonneg _ (by decide)
  have high : nSize < 2 ^ 32 := size ▸ Int.emod_lt_of_pos _ (by decide)
  have last : WrapsBuffer nCompact ↔ 2 ^ 32 - 4 ≤ nSize := by rw [WrapsBuffer, size]
  unfold setCompactInto
  dsimp only
  rw [size]
  by_cases wraps : WrapsBuffer nCompact
  · rw [last] at wraps
    have small : (4 + nSize) % 2 ^ 32 = nSize + 4 - 2 ^ 32 := by
      rw [← Int.sub_emod_right, Int.emod_eq_of_lt (by omega) (by omega)]
      omega
    rw [if_pos (last.mpr wraps), if_neg]
    intro all
    have first := of_decide_eq_true (List.all_eq_true.mp all 3 List.mem_cons_self)
    omega
  · rw [if_neg wraps, if_pos]
    rw [last] at wraps
    have whole : (4 + nSize) % 2 ^ 32 = 4 + nSize := Int.emod_eq_of_lt (by omega) (by omega)
    refine List.all_eq_true.mpr fun place member => decide_eq_true ?_
    rw [whole]
    unfold compactWrites at member
    simp only [List.mem_cons, List.mem_append] at member
    rcases member with rfl | (four | five) | six
    · omega
    · split at four
      · obtain rfl := List.mem_singleton.mp four
        omega
      · cases four
    · split at five
      · obtain rfl := List.mem_singleton.mp five
        omega
      · cases five
    · split at six
      · obtain rfl := List.mem_singleton.mp six
        omega
      · cases six

/-! ### The check of a coinbase -/

/-- A place that is found has the bytes after it. -/
theorem search_le {pattern script : Data} {place : Nat} (positive : 0 < pattern.length)
    (found : search pattern script = some place) : place + pattern.length ≤ script.length := by
  have within := (search_at found).length_le
  rw [List.length_drop] at within
  omega

theorem shiftOne_eq {n : Nat} (short : n ≤ 30) : shiftOne n = .ok (2 ^ n) := by
  have power : (2 : Int) ^ n ≤ 2 ^ 30 := by exact_mod_cast Nat.pow_le_pow_right (by decide) short
  have positive : (0 : Int) < 2 ^ n := by positivity
  unfold shiftOne
  rw [if_pos (by omega), Int.bmod_eq_of_le (by omega) (by omega)]

theorem ofInt_two_pow (n : Nat) : UInt32.ofInt (2 ^ n) = UInt32.ofNat (2 ^ n) := by
  have cast : ((2 : Int) ^ n) = ((2 ^ n : Nat) : Int) := by push_cast; rfl
  rw [cast]
  exact UInt32.toNat_inj.mp (by rw [AuxPow.toNat_ofInt, UInt32.toNat_ofNat']; omega)

namespace AuxPow

/-- The checks of the size and the nonce, from the place after the root. -/
def slotSteps (auxPow : AuxPow) (script : Script) (pc : Nat) (chainID : Int) : Except Hazard Bool :=
  if script.length - pc < 8 then .ok false
  else do
    let nSize ← readInt script pc
    let branch ← shiftOne auxPow.chainMerkleBranch.length
    if signed 4 nSize ≠ branch then return false
    let nNonce ← readInt script (pc + 4)
    let slot ← remainder (slotRand (UInt32.ofNat nNonce) chainID) (signed 4 nSize)
    return decide (UInt32.ofInt auxPow.chainIndex = slot)

/-- The checks of where the root is in the coinbase. -/
def placeSteps (script : Script) (pc : Nat) : Except Hazard Bool :=
  match search mergedMiningHeader script with
  | some pcHead => do
    let next ← advance script pcHead 1
    if (search mergedMiningHeader (script.drop next)).isSome then return false
    let after ← advance script pcHead mergedMiningHeader.length
    return decide (after = pc)
  | none => return decide (pc ≤ 20)

/-- The checks of the coinbase. -/
def coinbaseSteps (auxPow : AuxPow) (script : Script) (rootHash : Data) (chainID : Int) : Except Hazard Bool :=
  match search rootHash script with
  | none => return false
  | some pc => do
    let placed ← placeSteps script pc
    if !placed then return false
    let after ← advance script pc rootHash.length
    auxPow.slotSteps script after chainID

/-- `Check`. What it throws is caught, and then it is false. -/
def checkSteps (prim : Primitives) (auxPow : AuxPow) (hashAuxBlock : Uint256) (chainID : Int) :
    Except Hazard Bool :=
  if auxPow.index ≠ 0 then return false
  else if auxPow.parentBlock.version.tdiv 65536 = chainID then return false
  else if 30 < auxPow.chainMerkleBranch.length then return false
  else
    let rootHash := checkMerkleBranch prim hashAuxBlock auxPow.chainMerkleBranch auxPow.chainIndex
    if checkMerkleBranch prim (prim.txnHash auxPow.txn) auxPow.merkleBranch auxPow.index ≠
        auxPow.parentBlock.merkleRoot then return false
    else do
      let input ← inputAt auxPow.txn.inputs 0
      auxPow.coinbaseSteps input.signature (writeHash rootHash).reverse chainID

section Steps

variable {prim : Primitives} {auxPow : AuxPow} {script : Script} {chainID : Int}

/-- Eight bytes are read where there are eight bytes. -/
theorem slotSteps_eq {pc : Nat} (short : auxPow.chainMerkleBranch.length ≤ 30) :
    auxPow.slotSteps script pc chainID = .ok (auxPow.checkSlot (script.drop pc) chainID) := by
  unfold slotSteps checkSlot
  rw [List.length_drop]
  by_cases few : script.length - pc < 8
  · rw [if_pos few, decide_eq_false (by omega), Bool.false_and, Bool.false_and]
  · have size : readInt script pc = .ok (littleEndian ((script.drop pc).take 4)) := if_pos (by omega)
    have nonce : readInt script (pc + 4) = .ok (littleEndian (((script.drop pc).drop 4).take 4)) := by
      rw [List.drop_drop]
      exact if_pos (by omega)
    rw [if_neg few, size, Exec.ok_bind, shiftOne_eq short, Exec.ok_bind,
      decide_eq_true (show 8 ≤ script.length - pc by omega), Bool.true_and]
    by_cases same : signed 4 (littleEndian ((script.drop pc).take 4)) = 2 ^ auxPow.chainMerkleBranch.length
    · have slot : remainder (slotRand (UInt32.ofNat (littleEndian (((script.drop pc).drop 4).take 4))) chainID)
          (2 ^ auxPow.chainMerkleBranch.length) = .ok (slotRand (UInt32.ofNat (littleEndian
            (((script.drop pc).drop 4).take 4))) chainID % UInt32.ofNat (2 ^ auxPow.chainMerkleBranch.length)) := by
        unfold remainder
        rw [if_pos (by positivity), ofInt_two_pow]
      rw [if_neg (not_not.mpr same), nonce, same, decide_eq_true rfl, Bool.true_and]
      show (remainder _ _ >>= _) = _
      rw [slot]
      rfl
    · rw [if_pos same, decide_eq_false same]
      rfl

theorem placeSteps_eq (pc : Nat) : placeSteps script pc = .ok (checkPlace script pc) := by
  unfold placeSteps checkPlace
  cases found : search mergedMiningHeader script with
  | none => rfl
  | some pcHead =>
    have within : pcHead + 4 ≤ script.length := search_le (by decide) found
    have next : advance script pcHead 1 = .ok (pcHead + 1) := if_pos (by omega)
    have after : advance script pcHead mergedMiningHeader.length = .ok (pcHead + mergedMiningHeader.length) :=
      if_pos within
    dsimp only
    rw [next, Exec.ok_bind]
    cases search mergedMiningHeader (script.drop (pcHead + 1)) with
    | some again => rfl
    | none =>
      rw [after]
      rfl

theorem coinbaseSteps_eq {rootHash : Data} (positive : 0 < rootHash.length)
    (short : auxPow.chainMerkleBranch.length ≤ 30) :
    auxPow.coinbaseSteps script rootHash chainID = .ok (auxPow.checkCoinbase script rootHash chainID) := by
  unfold coinbaseSteps checkCoinbase
  cases found : search rootHash script with
  | none => rfl
  | some pc =>
    have after : advance script pc rootHash.length = .ok (pc + rootHash.length) := if_pos (search_le positive found)
    dsimp only
    rw [placeSteps_eq, Exec.ok_bind]
    cases checkPlace script pc with
    | false => rfl
    | true =>
      rw [after]
      exact slotSteps_eq short

/-- **A coinbase without an input is the only hazard of `Check`.** -/
theorem checkSteps_eq (hashAuxBlock : Uint256) :
    auxPow.checkSteps prim hashAuxBlock chainID =
      (auxPow.check prim hashAuxBlock chainID).elim (.error .emptyInputs) .ok := by
  unfold checkSteps check
  split
  · rfl
  · split
    · rfl
    · split
      · rfl
      · rename_i short
        dsimp only
        split
        · rfl
        · unfold inputAt
          cases auxPow.txn.inputs[0]? with
          | none => rfl
          | some input =>
            refine coinbaseSteps_eq ?_ (Nat.not_lt.mp short)
            rw [List.length_reverse, writeHash, littleBytes_length]
            decide

/-- The tests before `Check` looks at the coinbase. -/
def PassesTests (prim : Primitives) (auxPow : AuxPow) (chainID : Int) : Prop :=
  auxPow.index = 0 ∧ auxPow.parentBlock.version.tdiv 65536 ≠ chainID ∧ auxPow.chainMerkleBranch.length ≤ 30 ∧
    checkMerkleBranch prim (prim.txnHash auxPow.txn) auxPow.merkleBranch 0 = auxPow.parentBlock.merkleRoot

theorem check_eq_none (hashAuxBlock : Uint256) : auxPow.check prim hashAuxBlock chainID = none ↔
    auxPow.PassesTests prim chainID ∧ auxPow.txn.inputs = [] := by
  unfold check PassesTests
  by_cases first : auxPow.index = 0
  · rw [if_neg (not_not.mpr first), first, and_iff_right rfl]
    by_cases own : auxPow.parentBlock.version.tdiv 65536 = chainID
    · rw [if_pos own]
      exact iff_of_false nofun fun both => both.1.1 own
    · rw [if_neg own, and_iff_right own]
      by_cases short : auxPow.chainMerkleBranch.length ≤ 30
      · rw [if_neg (Nat.not_lt.mpr short), and_iff_right short]
        dsimp only
        by_cases root : checkMerkleBranch prim (prim.txnHash auxPow.txn) auxPow.merkleBranch 0 =
            auxPow.parentBlock.merkleRoot
        · rw [if_neg (not_not.mpr root), and_iff_right root]
          cases auxPow.txn.inputs with
          | nil => exact iff_of_true rfl rfl
          | cons input inputs => exact iff_of_false nofun nofun
        · rw [if_pos root]
          exact iff_of_false nofun fun both => root both.1
      · rw [if_pos (Nat.not_le.mp short)]
        exact iff_of_false nofun fun both => short both.1.1
  · rw [if_pos first]
    exact iff_of_false nofun fun both => first both.1.1

/-- `Check` has a result exactly where the coinbase has an input or is not looked at. -/
theorem checkSteps_ok (hashAuxBlock : Uint256) :
    (∃ accepted, auxPow.checkSteps prim hashAuxBlock chainID = .ok accepted) ↔
      (auxPow.PassesTests prim chainID → auxPow.txn.inputs ≠ []) := by
  have accepts := @check_eq_none prim auxPow chainID hashAuxBlock
  rw [checkSteps_eq]
  cases checked : auxPow.check prim hashAuxBlock chainID with
  | none =>
    obtain ⟨passes, empty⟩ := accepts.mp checked
    exact iff_of_false nofun fun all => all passes empty
  | some accepted =>
    refine iff_of_true ⟨accepted, rfl⟩ fun passes empty => ?_
    rw [accepts.mpr ⟨passes, empty⟩] at checked
    cases checked

end Steps

end AuxPow

/-! ### The check of a block -/

namespace NamecoinChain

/-- `checkProofOfWork`. -/
def checkProofOfWork (prim : Primitives) (block : FullBlock) : Except Hazard Bool := do
  let target ← setCompactInto (block.header.bits.bmod (2 ^ 32))
  if BlockTree.limit32 ≠ 0 ∧ (target ≤ 0 ∨ BlockTree.limit32 < target) then return false
  if hasAuxPow block.header.version then
    let checked ← block.auxPow.checkSteps prim (prim.headerHash block.header) (block.header.version.tdiv 65536)
    if !checked then return false
    return decide (prim.headerHash block.auxPow.parentBlock ≤ getuint256 target)
  else return decide (prim.headerHash block.header ≤ getuint256 target)

/-- The target is positive and within the limit. -/
def TargetInRange (bits : Int) : Prop :=
  0 < setCompact (bits.bmod (2 ^ 32)) ∧ setCompact (bits.bmod (2 ^ 32)) ≤ BlockTree.limit32

/-- The check of a block has a result exactly where the buffer of the target has room, and the coinbase of the parent
block has an input if it is looked at. -/
theorem checkProofOfWork_ok (prim : Primitives) (block : FullBlock) :
    (∃ accepted, checkProofOfWork prim block = .ok accepted) ↔
      ¬WrapsBuffer (block.header.bits.bmod (2 ^ 32)) ∧
        (TargetInRange block.header.bits → hasAuxPow block.header.version = true →
          block.auxPow.PassesTests prim (block.header.version.tdiv 65536) → block.auxPow.txn.inputs ≠ []) := by
  unfold checkProofOfWork TargetInRange
  rw [setCompactInto_eq]
  by_cases wraps : WrapsBuffer (block.header.bits.bmod (2 ^ 32))
  · rw [if_pos wraps]
    exact iff_of_false nofun fun both => both.1 wraps
  · rw [if_neg wraps, and_iff_right wraps, Exec.ok_bind]
    generalize setCompact (block.header.bits.bmod (2 ^ 32)) = target
    by_cases outside : BlockTree.limit32 ≠ 0 ∧ (target ≤ 0 ∨ BlockTree.limit32 < target)
    · rw [if_pos outside]
      exact iff_of_true ⟨false, rfl⟩ fun range => by omega
    · have range : 0 < target ∧ target ≤ BlockTree.limit32 := by
        have positive : BlockTree.limit32 ≠ 0 := by decide
        omega
      rw [if_neg outside, forall_prop_of_true range]
      by_cases aux : hasAuxPow block.header.version = true
      · rw [if_pos aux, forall_prop_of_true aux, ← AuxPow.checkSteps_ok (prim.headerHash block.header)]
        cases block.auxPow.checkSteps prim (prim.headerHash block.header) (block.header.version.tdiv 65536) with
        | error hazard => exact iff_of_false nofun nofun
        | ok checked => cases checked <;> exact iff_of_true ⟨_, rfl⟩ ⟨_, rfl⟩
      · rw [if_neg aux]
        exact iff_of_true ⟨_, rfl⟩ fun aux' => absurd aux' aux

/-- **The check of a block and `Check` have a result exactly where the buffer of the target has room, and the coinbase
of the parent block has an input if it is looked at**, whatever the block is that was read. -/
theorem checkProofOfWork_safe_iff (prim : Primitives) (block : FullBlock) :
    ((∃ accepted, checkProofOfWork prim block = .ok accepted) ↔
      ¬WrapsBuffer (block.header.bits.bmod (2 ^ 32)) ∧
        (TargetInRange block.header.bits → hasAuxPow block.header.version = true →
          block.auxPow.PassesTests prim (block.header.version.tdiv 65536) → block.auxPow.txn.inputs ≠ [])) ∧
      ∀ hashAuxBlock chainID, (∃ accepted, block.auxPow.checkSteps prim hashAuxBlock chainID = .ok accepted) ↔
        (block.auxPow.PassesTests prim chainID → block.auxPow.txn.inputs ≠ []) :=
  ⟨checkProofOfWork_ok prim block, fun hashAuxBlock _ => AuxPow.checkSteps_ok hashAuxBlock⟩

end NamecoinChain

namespace Small

/-- A block of the chain 1, merged with a block of another chain that has one transaction. -/
def mergedWith (txn : Transaction) (bits : Int) : FullBlock :=
  { minedOver false 0 with
    header := { noHeader with version := 0x10100, bits := bits }
    auxPow := { work 0 with
      txn := txn, index := 0, parentBlock := { noHeader with merkleRoot := pairing.txnHash txn } } }

theorem mergedWith_typed {txn : Transaction} {bits : Int} (typed : txn.Typed) (fits : FitsUnsigned 4 bits) :
    (mergedWith txn bits).Typed where
  header := { noHeader_typed with version := show FitsSigned 4 0x10100 by decide, bits := fits }
  few_transactions := show 1 ≤ maxVarint by decide
  transactions txn member := List.mem_singleton.mp member ▸ noTxn_typed
  auxPow _ :=
    { merkleTx := ⟨typed, Nat.zero_le _, show FitsSigned 4 0 by decide⟩
      chainMerkleBranch := Nat.zero_le _
      chainIndex := show FitsSigned 4 0 by decide
      parentBlock := { noHeader_typed with } }

/-- The block is read from what is written of it. -/
theorem mergedWith_read {txn : Transaction} {bits : Int} (typed : txn.Typed) (fits : FitsUnsigned 4 bits) :
    (minedOver false 0).read { bytes := (mergedWith txn bits).write, good := true } =
      some (mergedWith txn bits, { bytes := [], good := true }) := by
  have back := FullBlock.read_back (minedOver false 0) (mergedWith_typed typed fits) rfl []
  rw [List.append_nil] at back
  exact back

end Small

namespace NamecoinChain

open Libcoin.Small in
/-- A coinbase without inputs is read from the network, and the check takes the first input of it. Bits with a size that
wraps are read as well, and the target is written past its buffer. -/
theorem checkProofOfWork_unsafe :
    (minedOver false 0).read { bytes := (mergedWith noTxn 0x1d00ffff).write, good := true } =
        some (mergedWith noTxn 0x1d00ffff, { bytes := [], good := true }) ∧
      checkProofOfWork pairing (mergedWith noTxn 0x1d00ffff) = .error .emptyInputs ∧
      (mergedWith noTxn 0x1d00ffff).auxPow.checkSteps pairing 0 1 = .error .emptyInputs ∧
      (minedOver false 0).read { bytes := (mergedWith noTxn 0xfc000000).write, good := true } =
        some (mergedWith noTxn 0xfc000000, { bytes := [], good := true }) ∧
      checkProofOfWork pairing (mergedWith noTxn 0xfc000000) = .error .pastBuffer :=
  ⟨mergedWith_read noTxn_typed (by decide), by decide +kernel, by decide +kernel,
    mergedWith_read noTxn_typed (by decide), by decide +kernel⟩

end NamecoinChain

end Libcoin
