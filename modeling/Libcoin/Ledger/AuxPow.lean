/-
`AuxPow::Check`: the proof of work of a parent block that commits to a block in its coinbase.

* `search` is `std::search`, the first place of some bytes.
* `checkCoinbase` are the checks of the coinbase: where the root of the chain merkle tree is, and that the index
  in it is the one that the coinbase and the chain decide.
-/

import Libcoin.Ledger.Merkle
import Libcoin.Ledger.Serialization

namespace Libcoin

/-! ### Places -/

/-- `std::search`: the first place of the bytes. -/
def search (pattern : Data) : Data → Option Nat
  | [] => if pattern.isEmpty then some 0 else none
  | byte :: rest => if pattern.isPrefixOf (byte :: rest) then some 0 else (search pattern rest).map (· + 1)

/-- The bytes are at the place. -/
theorem search_at {pattern script : Data} {place : Nat} (found : search pattern script = some place) :
    pattern <+: script.drop place := by
  induction script generalizing place with
  | nil =>
    unfold search at found
    split at found
    · next empty =>
      rw [List.isEmpty_iff.mp empty]
      exact List.nil_prefix
    · cases found
  | cons byte rest ih =>
    unfold search at found
    split at found
    · next here =>
      obtain rfl := Option.some.inj found
      exact List.isPrefixOf_iff_prefix.mp here
    · obtain ⟨later, there, rfl⟩ := Option.map_eq_some_iff.mp found
      exact ih there

/-- Bytes that are somewhere are found. -/
theorem search_infix {pattern script : Data} (inside : pattern <:+: script) :
    ∃ place, search pattern script = some place := by
  induction script with
  | nil =>
    rw [List.infix_nil.mp inside]
    exact ⟨0, rfl⟩
  | cons byte rest ih =>
    unfold search
    by_cases here : pattern.isPrefixOf (byte :: rest) = true
    · exact ⟨0, if_pos here⟩
    · rw [if_neg here]
      rcases List.infix_cons_iff.mp inside with first | later
      · exact absurd (List.isPrefixOf_iff_prefix.mpr first) here
      · obtain ⟨place, there⟩ := ih later
        exact ⟨place + 1, by rw [there]; rfl⟩

namespace AuxPow

/-! ### The check -/

/-- `pchMergedMiningHeader`. -/
def mergedMiningHeader : Data := [0xfa, 0xbe, 0x6d, 0x6d]

/-- The pseudo-random number that decides the slot. -/
def slotRand (nonce : UInt32) (chainID : Int) : UInt32 :=
  (nonce * 1103515245 + 12345 + UInt32.ofInt chainID) * 1103515245 + 12345

/-- The checks of where the root is in the coinbase. -/
def checkPlace (script : Script) (pc : Nat) : Bool :=
  match search mergedMiningHeader script with
  | some pcHead =>
    (search mergedMiningHeader (script.drop (pcHead + 1))).isNone &&
      decide (pcHead + mergedMiningHeader.length = pc)
  | none => decide (pc ≤ 20)

/-- The checks of the size and the nonce that follow the root. -/
def checkSlot (auxPow : AuxPow) (after : Data) (chainID : Int) : Bool :=
  decide (8 ≤ after.length) &&
    decide (signed 4 (littleEndian (after.take 4)) = 2 ^ auxPow.chainMerkleBranch.length) &&
    decide (UInt32.ofInt auxPow.chainIndex =
      slotRand (UInt32.ofNat (littleEndian ((after.drop 4).take 4))) chainID %
        UInt32.ofNat (2 ^ auxPow.chainMerkleBranch.length))

/-- The checks of the coinbase. -/
def checkCoinbase (auxPow : AuxPow) (script : Script) (rootHash : Data) (chainID : Int) : Bool :=
  match search rootHash script with
  | none => false
  | some pc => checkPlace script pc && auxPow.checkSlot (script.drop (pc + rootHash.length)) chainID

/-- `Check`. A coinbase without an input is `none`. -/
def check (prim : Primitives) (auxPow : AuxPow) (hashAuxBlock : Uint256) (chainID : Int) : Option Bool :=
  if auxPow.index ≠ 0 then some false
  else if auxPow.parentBlock.version.tdiv 65536 = chainID then some false
  else if 30 < auxPow.chainMerkleBranch.length then some false
  else
    let rootHash := checkMerkleBranch prim hashAuxBlock auxPow.chainMerkleBranch auxPow.chainIndex
    if checkMerkleBranch prim (prim.txnHash auxPow.txn) auxPow.merkleBranch auxPow.index ≠
        auxPow.parentBlock.merkleRoot then some false
    else do
      let input ← auxPow.txn.inputs[0]?
      return auxPow.checkCoinbase input.signature (writeHash rootHash).reverse chainID

/-! ### One block for one coinbase -/

section Unique

variable {prim : Primitives} {auxPow auxPow' : AuxPow} {script : Script} {rootHash rootHash' : Data}
  {chainID : Int}

/-- In a coinbase with the header, the root is right after it. -/
theorem checkPlace_header {pcHead pc : Nat} (head : search mergedMiningHeader script = some pcHead)
    (passed : checkPlace script pc = true) : pc = pcHead + 4 := by
  unfold checkPlace at passed
  rw [head] at passed
  exact (of_decide_eq_true (Bool.and_eq_true_iff.mp passed).2).symm

theorem toNat_ofInt (n : Int) : (UInt32.ofInt n).toNat = (n % 2 ^ 32).toNat := by
  have nonnegative := Int.emod_nonneg n (show (2 : Int) ^ 32 ≠ 0 by omega)
  have below := Int.emod_lt_of_pos n (show (0 : Int) < 2 ^ 32 by omega)
  unfold UInt32.ofInt
  rw [UInt32.toNat_ofNat']
  omega

/-- A number that passes as an index is not negative. -/
theorem checkSlot_index {after : Data} (typed : FitsSigned 4 auxPow.chainIndex)
    (short : auxPow.chainMerkleBranch.length ≤ 30) (passed : auxPow.checkSlot after chainID = true) :
    0 ≤ auxPow.chainIndex := by
  have slot := of_decide_eq_true (Bool.and_eq_true_iff.mp passed).2
  have power : 2 ^ auxPow.chainMerkleBranch.length ≤ 2 ^ 30 := Nat.pow_le_pow_right (by decide) short
  have fits : 2 ^ auxPow.chainMerkleBranch.length < 2 ^ 32 := Nat.lt_of_le_of_lt power (by decide)
  have number := congrArg UInt32.toNat slot
  rw [toNat_ofInt, UInt32.toNat_mod, UInt32.toNat_ofNat', Nat.mod_eq_of_lt fits] at number
  have below := Nat.mod_lt (slotRand (UInt32.ofNat (littleEndian ((after.drop 4).take 4))) chainID).toNat
    (Nat.two_pow_pos auxPow.chainMerkleBranch.length)
  rw [← number] at below
  unfold FitsSigned at typed
  omega

/-- What follows the root decides the depth of the tree and the index. -/
theorem checkSlot_unique {after : Data} (typed : FitsSigned 4 auxPow.chainIndex)
    (typed' : FitsSigned 4 auxPow'.chainIndex) (passed : auxPow.checkSlot after chainID = true)
    (passed' : auxPow'.checkSlot after chainID = true) :
    auxPow.chainMerkleBranch.length = auxPow'.chainMerkleBranch.length ∧
      auxPow.chainIndex = auxPow'.chainIndex := by
  obtain ⟨first, slot⟩ := Bool.and_eq_true_iff.mp passed
  obtain ⟨first', slot'⟩ := Bool.and_eq_true_iff.mp passed'
  have size := of_decide_eq_true (Bool.and_eq_true_iff.mp first).2
  have size' := of_decide_eq_true (Bool.and_eq_true_iff.mp first').2
  have depth : auxPow.chainMerkleBranch.length = auxPow'.chainMerkleBranch.length := by
    have powers : 2 ^ auxPow.chainMerkleBranch.length = 2 ^ auxPow'.chainMerkleBranch.length := by
      exact_mod_cast size.symm.trans size'
    exact Nat.pow_right_injective le_rfl powers
  have slot := of_decide_eq_true slot
  rw [depth, ← of_decide_eq_true slot'] at slot
  have number := congrArg UInt32.toNat slot
  rw [toNat_ofInt, toNat_ofInt] at number
  unfold FitsSigned at typed typed'
  exact ⟨depth, by omega⟩

/-- What a check that passes has checked. -/
theorem check_eq_true {hash : Uint256} (passed : auxPow.check prim hash chainID = some true) :
    auxPow.chainMerkleBranch.length ≤ 30 ∧ ∃ input pc, auxPow.txn.inputs[0]? = some input ∧
      search (writeHash (checkMerkleBranch prim hash auxPow.chainMerkleBranch auxPow.chainIndex)).reverse
        input.signature = some pc ∧
      checkPlace input.signature pc = true ∧ auxPow.checkSlot (input.signature.drop (pc + 32)) chainID =
        true := by
  unfold check at passed
  split at passed
  · cases passed
  split at passed
  · cases passed
  split at passed
  · cases passed
  dsimp only at passed
  split at passed
  · cases passed
  obtain ⟨input, found, same⟩ := Option.bind_eq_some_iff.mp passed
  have passed := Option.some.inj same
  unfold checkCoinbase at passed
  split at passed
  · cases passed
  · next pc place =>
    obtain ⟨right, slot⟩ := Bool.and_eq_true_iff.mp passed
    rw [List.length_reverse, writeHash, littleBytes_length] at slot
    exact ⟨Nat.le_of_not_lt ‹_›, input, pc, found, place, right, slot⟩

/-- Bytes of one length at one place are the same. -/
theorem root_unique {root root' : Uint256} {place : Nat}
    (found : search (writeHash root).reverse script = some place)
    (found' : search (writeHash root').reverse script = some place) : root = root' := by
  have width (root : Uint256) : (writeHash root).reverse.length = 32 := by
    rw [List.length_reverse, writeHash, littleBytes_length]
  have one := List.prefix_iff_eq_take.mp (search_at found)
  have two := List.prefix_iff_eq_take.mp (search_at found')
  rw [width] at one two
  exact readHash_back.injOn trivial trivial (List.reverse_injective (one.trans two.symm))

/-- **With one coinbase that has the header of merged mining, two blocks that pass for one chain are the same**,
if the hashes of the pairs of their branches are told apart. -/
theorem check_unique (prim : Primitives) {auxPow auxPow' : AuxPow} (typed : FitsSigned 4 auxPow.chainIndex)
    (typed' : FitsSigned 4 auxPow'.chainIndex) (coinbase : auxPow.txn = auxPow'.txn)
    (header : ∃ input ∈ auxPow.txn.inputs[0]?, mergedMiningHeader <:+: input.signature) {hash hash' : Uint256}
    (chainID : Int)
    (apart : PairsApart prim (branchPairs prim hash auxPow.chainMerkleBranch auxPow.chainIndex)
      (branchPairs prim hash' auxPow'.chainMerkleBranch auxPow'.chainIndex))
    (passed : auxPow.check prim hash chainID = some true)
    (passed' : auxPow'.check prim hash' chainID = some true) :
    hash = hash' := by
  obtain ⟨short, input, pc, found, place, right, slot⟩ := check_eq_true passed
  obtain ⟨-, input', pc', found', place', right', slot'⟩ := check_eq_true passed'
  rw [← coinbase, found] at found'
  obtain rfl := Option.some.inj found'
  obtain ⟨other, first, inside⟩ := header
  obtain rfl := Option.some.inj (found.symm.trans first)
  -- both roots are right after the header
  obtain ⟨pcHead, head⟩ := search_infix inside
  obtain rfl := checkPlace_header head right
  obtain rfl := checkPlace_header head right'
  have roots := root_unique place place'
  obtain ⟨depth, index⟩ := checkSlot_unique typed typed' slot slot'
  have leaf := checkSlot_index typed short slot
  unfold checkMerkleBranch at roots
  rw [← index, if_neg (by omega), if_neg (by omega)] at roots
  rw [← index] at apart
  exact foldBranch_injective depth apart roots

end Unique

end AuxPow

namespace Small

/-- A proof of work for the block with hash 5 on the chain 1, next to that of another chain. -/
def minedFor (blockHash : Uint256) : AuxPow :=
  { work 1 with
    blockHash := blockHash, index := 0, chainMerkleBranch := [7], parentBlock := { noHeader with merkleRoot := 1 }
    txn := { noTxn with
      inputs := [{ prevout := { hash := 0, index := 0 }, sequence := 0
                   signature := [3, 1] ++ AuxPow.mergedMiningHeader ++
                     (writeHash (pairing.pairHash 7 5)).reverse ++
                     [2, 0, 0, 0, 0, 0, 0, 0] }] } }

end Small

namespace AuxPow

open Libcoin.Small in
/-- The proof of work passes for its block. -/
theorem check_unique_mined : (minedFor 0).check pairing 5 1 = some true ∧
    (minedFor 9).check pairing 5 1 = some true ∧
    (5 : Uint256) = 5 := by
  have passed : (minedFor 0).check pairing 5 1 = some true := by decide +kernel
  have passed' : (minedFor 9).check pairing 5 1 = some true := by decide +kernel
  refine ⟨passed, passed', ?_⟩
  refine @check_unique pairing (minedFor 0) (minedFor 9) (by decide) (by decide) rfl ?_ 5 5 1 ?_ passed passed'
  · exact ⟨_, rfl, [3, 1], _, rfl⟩
  · decide +kernel

end AuxPow

end Libcoin
