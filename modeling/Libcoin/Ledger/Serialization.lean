/-
What `operator<<` writes is what `operator>>` reads.

* `Typed` says that the numbers of an object are those that its members can have, and that its containers are not
  longer than the largest length that is read.
* `FullBlock` is a block with its members, of which the auxiliary proof of work is written only if the block
  adheres to it and the version says that it is there.
-/

import Libcoin.Library.ReadBack
import Libcoin.Ledger.Wire

namespace Libcoin

open Reader

/-- The largest length that is read. -/
def maxVarint : Nat := 0x02000000

/-! ### What members can have -/

/-- The values of an integer of so many bytes. -/
def FitsUnsigned (size : Nat) (n : Int) : Prop := 0 ≤ n ∧ n < 256 ^ size

def FitsSigned (size : Nat) (n : Int) : Prop := -(256 ^ size / 2) ≤ n ∧ n < 256 ^ size / 2

instance (size : Nat) (n : Int) : Decidable (FitsUnsigned size n) := inferInstanceAs (Decidable (_ ∧ _))

instance (size : Nat) (n : Int) : Decidable (FitsSigned size n) := inferInstanceAs (Decidable (_ ∧ _))

def Coin.Typed (coin : Coin) : Prop := coin.index < 256 ^ 4

def ScriptFits (script : Script) : Prop := script.length ≤ maxVarint

structure Input.Typed (input : Input) : Prop where
  prevout : input.prevout.Typed
  signature : ScriptFits input.signature
  sequence : input.sequence < 256 ^ 4

structure Output.Typed (output : Output) : Prop where
  value : FitsSigned 8 output.value
  script : ScriptFits output.script

structure Transaction.Typed (txn : Transaction) : Prop where
  version : FitsSigned 4 txn.version
  few_inputs : txn.inputs.length ≤ maxVarint
  inputs : ∀ input ∈ txn.inputs, input.Typed
  few_outputs : txn.outputs.length ≤ maxVarint
  outputs : ∀ output ∈ txn.outputs, output.Typed
  lockTime : FitsUnsigned 4 txn.lockTime

structure BlockHeader.Typed (header : BlockHeader) : Prop where
  version : FitsSigned 4 header.version
  time : FitsUnsigned 4 header.time
  bits : FitsUnsigned 4 header.bits
  nonce : FitsUnsigned 4 header.nonce

/-! ### Numbers -/

section Numbers

variable {size : Nat}

theorem readUnsigned_back {old : Int} : ReadsBack (FitsUnsigned size) (writeInt size)
    (readUnsigned size old) := by
  refine readOver_back.map (writeInt size) ?_ ?_ fun _ _ => rfl
  · rintro n ⟨positive, small⟩
    have below : n.toNat < 256 ^ size := by
      zify
      rwa [Int.toNat_of_nonneg positive]
    show ((littleEndian (littleBytes size (n % 256 ^ size).toNat) : Nat) : Int) = n
    rw [Int.emod_eq_of_lt positive small, littleEndian_littleBytes below, Int.toNat_of_nonneg positive]
  · intro n _
    rw [writeInt_length, writeInt_length]

/-- A number in two's complement is the number. -/
theorem signed_writeInt {n : Int} (fits : FitsSigned (size + 1) n) :
    signed (size + 1) (littleEndian (writeInt (size + 1) n)) = n := by
  obtain ⟨low, high⟩ := fits
  have power : (256 : Int) ^ (size + 1) = 256 ^ size * 256 := pow_succ _ _
  have positive : (0 : Int) < 256 ^ size := by positivity
  have above := Int.emod_nonneg n (show (256 : Int) ^ (size + 1) ≠ 0 by positivity)
  have below := Int.emod_lt_of_pos n (show (0 : Int) < 256 ^ (size + 1) by positivity)
  have fits : (n % 256 ^ (size + 1)).toNat < 256 ^ (size + 1) := by
    zify
    rwa [Int.toNat_of_nonneg above]
  unfold writeInt signed
  rw [littleEndian_littleBytes fits, Int.toNat_of_nonneg above]
  have half : ((n % 256 ^ (size + 1)).toNat < 256 ^ (size + 1) / 2) ↔
    n % 256 ^ (size + 1) < 256 ^ (size + 1) / 2 := by
    zify
    rw [Int.toNat_of_nonneg above]
  by_cases negative : n < 0
  · have turned : n % 256 ^ (size + 1) = n + 256 ^ (size + 1) := by
      rw [← Int.add_emod_right, Int.emod_eq_of_lt (by omega) (by omega)]
    rw [if_neg (by rw [half, turned]; omega), turned]
    omega
  · have same : n % 256 ^ (size + 1) = n := Int.emod_eq_of_lt (by omega) (by omega)
    rw [if_pos (by rw [half, same]; exact high), same]

theorem readSigned_back {old : Int} :
    ReadsBack (FitsSigned (size + 1)) (writeInt (size + 1)) (readSigned (size + 1) old) := by
  refine readOver_back.map (writeInt (size + 1)) (fun n fits => signed_writeInt fits) ?_ fun _ _ => rfl
  intro n _
  rw [writeInt_length, writeInt_length]

theorem readIndex_back : ReadsBack (FitsSigned 4) (writeInt 4) readIndex :=
  readFresh_back.map (writeInt 4) (fun _ fits => signed_writeInt fits) (fun _ _ =>
    writeInt_length 4 _) fun _ _ => rfl

end Numbers

theorem readHash_back : ReadsBack (fun _ => True) writeHash readHash := by
  refine readOver_back.map writeHash ?_ ?_ fun _ _ => rfl
  · intro hash _
    have fits : hash.val < 256 ^ 32 := hash.isLt.trans_eq (by norm_num)
    show Fin.ofNat _ (littleEndian (littleBytes 32 hash.val)) = hash
    rw [littleEndian_littleBytes fits]
    exact Fin.ext (Nat.mod_eq_of_lt hash.isLt)
  · intro hash _
    rw [writeHash, writeHash, littleBytes_length, littleBytes_length]

theorem readByte_back : ReadsBack (fun _ => True) writeByte readByte :=
  readOver_back.map writeByte (fun _ _ => rfl) (fun _ _ => rfl) fun _ _ => rfl

/-! ### Transactions -/

theorem readCoin_back : ReadsBack Coin.Typed writeCoin readCoin := by
  refine readOver_back.map writeCoin ?_ ?_ fun _ _ => rfl
  · rintro ⟨hash, index⟩ fits
    have width : (writeHash hash).length = 32 := littleBytes_length 32 _
    have fits' : hash.val < 256 ^ 32 := hash.isLt.trans_eq (by norm_num)
    unfold writeCoin
    dsimp only
    rw [List.take_left' width, List.drop_left' width, littleEndian_littleBytes fits]
    unfold writeHash
    rw [littleEndian_littleBytes fits']
    congr 1
    exact Fin.ext (Nat.mod_eq_of_lt hash.isLt)
  · intro coin _
    simp [writeCoin, writeHash]

theorem readScript_back : ReadsBack ScriptFits writeScript readScript :=
  readByte_back.vector.weaken fun _ fits => ⟨fits, fun _ _ => trivial⟩

theorem readInput_back : ReadsBack Input.Typed writeInput readInput := by
  refine (readCoin_back.pair (readScript_back.pair readUnsigned_back)).map
    (fun input => (input.prevout, input.signature, (input.sequence : Int))) ?_ ?_ ?_
  · rintro ⟨prevout, signature, sequence⟩ -
    rfl
  · rintro input ⟨prevout, signature, sequence⟩
    have small : (input.sequence : Int) < 256 ^ 4 := by exact_mod_cast sequence
    exact ⟨prevout, signature, Int.natCast_nonneg _, small⟩
  · rintro input ⟨prevout, signature, sequence⟩
    have number : littleBytes 4 input.sequence = writeInt 4 input.sequence := by
      rw [writeInt, Int.emod_eq_of_lt (Int.natCast_nonneg _) (by exact_mod_cast sequence), Int.toNat_natCast]
    unfold writeInput
    rw [number]

theorem readOutput_back : ReadsBack Output.Typed writeOutput readOutput :=
  (readSigned_back.pair readScript_back).map (fun output => (output.value, output.script)) (fun _ _ => rfl)
    (fun _ typed => ⟨typed.value, typed.script⟩) fun _ _ => rfl

theorem readTransaction_back : ReadsBack Transaction.Typed writeTransaction readTransaction :=
  (readSigned_back.pair (readInput_back.vector.pair (readOutput_back.vector.pair readUnsigned_back))).map
    (fun txn => (txn.version, txn.inputs, txn.outputs, txn.lockTime)) (fun _ _ => rfl)
    (fun _ typed => ⟨typed.version, ⟨typed.few_inputs, typed.inputs⟩, ⟨typed.few_outputs, typed.outputs⟩,
      typed.lockTime⟩)
    fun _ _ => rfl

theorem readHeader_back : ReadsBack BlockHeader.Typed writeHeader readHeader :=
  (readSigned_back.pair (readHash_back.pair (readHash_back.pair
    (readUnsigned_back.pair (readUnsigned_back.pair readUnsigned_back))))).map
    (fun header =>
      (header.version, header.prevBlock, header.merkleRoot, header.time, header.bits, header.nonce))
        (fun _ _ => rfl)
    (fun _ typed => ⟨typed.version, trivial, trivial, typed.time, typed.bits, typed.nonce⟩) fun _ _ => rfl

/-! ### Proofs of work -/

/-- The members of `MerkleTx` that are written. -/
structure MerkleTx where
  txn : Transaction
  blockHash : Uint256
  merkleBranch : List Uint256
  index : Int
  deriving DecidableEq, Repr

def writeMerkleTx (mtx : MerkleTx) : Data :=
  writeTransaction mtx.txn ++ (writeHash mtx.blockHash ++
    (writeVector writeHash mtx.merkleBranch ++ writeInt 4 mtx.index))

def readMerkleTx : Reader MerkleTx :=
  (fun read => { txn := read.1, blockHash := read.2.1, merkleBranch := read.2.2.1, index := read.2.2.2 }) <$>
    readTransaction.pair (readHash.pair ((readVector readHash).pair (readSigned 4 (-1))))

structure MerkleTx.Typed (mtx : MerkleTx) : Prop where
  txn : mtx.txn.Typed
  merkleBranch : mtx.merkleBranch.length ≤ maxVarint
  index : FitsSigned 4 mtx.index

theorem readMerkleTx_back : ReadsBack MerkleTx.Typed writeMerkleTx readMerkleTx :=
  (readTransaction_back.pair (readHash_back.pair (readHash_back.vector.pair readSigned_back))).map
    (fun mtx => (mtx.txn, mtx.blockHash, mtx.merkleBranch, mtx.index)) (fun _ _ => rfl)
    (fun _ typed => ⟨typed.txn, trivial, ⟨typed.merkleBranch, fun _ _ => trivial⟩, typed.index⟩) fun _ _ => rfl

/-- The base class of an auxiliary proof of work. -/
def AuxPow.merkleTx (auxPow : AuxPow) : MerkleTx :=
  { txn := auxPow.txn, blockHash := auxPow.blockHash, merkleBranch := auxPow.merkleBranch, index := auxPow.index }

/-- An auxiliary proof of work is written with its base class first. -/
theorem writeAuxPow_merkleTx (auxPow : AuxPow) :
    writeAuxPow auxPow = writeMerkleTx auxPow.merkleTx ++ (writeVector writeHash auxPow.chainMerkleBranch ++
      (writeInt 4 auxPow.chainIndex ++ writeHeader auxPow.parentBlock)) := by
  unfold writeAuxPow writeMerkleTx AuxPow.merkleTx
  simp only [List.append_assoc]

structure AuxPow.Typed (auxPow : AuxPow) : Prop where
  merkleTx : auxPow.merkleTx.Typed
  chainMerkleBranch : auxPow.chainMerkleBranch.length ≤ maxVarint
  chainIndex : FitsSigned 4 auxPow.chainIndex
  parentBlock : auxPow.parentBlock.Typed

theorem readAuxPow_back : ReadsBack AuxPow.Typed writeAuxPow readAuxPow :=
  (readTransaction_back.pair (readHash_back.pair (readHash_back.vector.pair (readSigned_back.pair
    (readHash_back.vector.pair (readIndex_back.pair readHeader_back)))))).map
    (fun auxPow => (auxPow.txn, auxPow.blockHash, auxPow.merkleBranch, auxPow.index, auxPow.chainMerkleBranch,
      auxPow.chainIndex, auxPow.parentBlock)) (fun _ _ => rfl)
    (fun _ typed => ⟨typed.merkleTx.txn, trivial, ⟨typed.merkleTx.merkleBranch, fun _ _ => trivial⟩,
      typed.merkleTx.index, ⟨typed.chainMerkleBranch, fun _ _ => trivial⟩, typed.chainIndex, typed.parentBlock⟩)
    fun _ _ => rfl

/-! ### Blocks -/

/-- The members of `Block` but for the merkle tree, which is in memory only. -/
structure FullBlock where
  header : BlockHeader
  auxPow : AuxPow
  transactions : List Transaction
  ignoreAuxPow : Bool
  deriving DecidableEq, Repr

namespace FullBlock

/-- `!b._ignore_aux_pow && b.getVersion() & BLOCK_VERSION_AUXPOW`, for a version. -/
def adheres (block : FullBlock) (version : Int) : Bool := !block.ignoreAuxPow && hasAuxPow version

/-- `operator<<`. -/
def write (block : FullBlock) : Data :=
  writeHeader block.header ++
    ((if block.adheres block.header.version then writeAuxPow block.auxPow else []) ++
      writeVector writeTransaction block.transactions)

/-- `operator>>` into a block. -/
def read (block : FullBlock) : Reader FullBlock := do
  let header ← readHeader
  let auxPow ← if block.adheres header.version then readAuxPow else pure block.auxPow
  let transactions ← readVector readTransaction
  return { header := header, auxPow := auxPow, transactions := transactions, ignoreAuxPow := block.ignoreAuxPow }

/-- The block with the serialization of its auxiliary proof of work. -/
def toWire (block : FullBlock) : WireBlock :=
  { block.header with
    transactions := block.transactions, auxPow := writeAuxPow block.auxPow, ignoreAuxPow := block.ignoreAuxPow }

theorem write_toWire (block : FullBlock) : block.toWire.write = block.write := rfl

/-- A block is read with its proof of work as it is with the serialization of it. -/
theorem read_toWire (block : FullBlock) : block.toWire.read = toWire <$> block.read := by
  unfold read WireBlock.read
  rw [map_bind]
  refine bind_congr fun header => ?_
  by_cases aux : (!block.ignoreAuxPow && hasAuxPow header.version) = true
  · have read : block.toWire.readAux header.version = writeAuxPow <$> readAuxPow := if_pos aux
    have adheres : block.adheres header.version = true := aux
    rw [read, adheres, if_pos rfl]
    simp only [map_bind, bind_map_left, map_pure]
    rfl
  · have read : block.toWire.readAux header.version = pure (writeAuxPow block.auxPow) := if_neg aux
    have adheres : ¬block.adheres header.version = true := aux
    rw [read, if_neg adheres]
    simp only [map_bind, pure_bind, map_pure]
    rfl

/-- A proof of work has a place in what is written. -/
def written (block : FullBlock) : Bool := block.adheres block.header.version

structure Typed (block : FullBlock) : Prop where
  header : block.header.Typed
  few_transactions : block.transactions.length ≤ maxVarint
  transactions : ∀ txn ∈ block.transactions, txn.Typed
  auxPow : block.written = true → block.auxPow.Typed

/-- The block, with another proof of work if its own is not written. -/
def overOld (block : FullBlock) (old : AuxPow) : FullBlock :=
  { block with auxPow := if block.written then block.auxPow else old }

/-- A block is read back into a block with the same setting, which keeps its proof of work if none was written. -/
theorem read_back (reader : FullBlock) {block : FullBlock} (typed : block.Typed)
    (same : reader.ignoreAuxPow = block.ignoreAuxPow) (rest : Data) :
    reader.read { bytes := block.write ++ rest, good := true } =
      some (block.overOld reader.auxPow, { bytes := rest, good := true }) := by
  have transactions := readTransaction_back.vector block.transactions
    ⟨typed.few_transactions, typed.transactions⟩ rest
  unfold read write
  rw [List.append_assoc, List.append_assoc]
  refine bind_eq_some.mpr ⟨block.header, _, readHeader_back block.header typed.header _, ?_⟩
  have setting : reader.adheres block.header.version = block.written := by
    unfold written adheres
    rw [same]
  rw [setting]
  unfold overOld
  cases written : block.written with
  | true =>
    refine bind_eq_some.mpr ⟨block.auxPow,
      { bytes := writeVector writeTransaction block.transactions ++ rest, good := true }, ?_,
      bind_eq_some.mpr ⟨block.transactions, { bytes := rest, good := true }, transactions, ?_⟩⟩
    · have adheres : block.adheres block.header.version = true := written
      rw [adheres]
      exact readAuxPow_back block.auxPow (typed.auxPow written) _
    · rw [same]
      rfl
  | false =>
    refine bind_eq_some.mpr ⟨reader.auxPow,
      { bytes := writeVector writeTransaction block.transactions ++ rest, good := true }, ?_,
      bind_eq_some.mpr ⟨block.transactions, { bytes := rest, good := true }, transactions, ?_⟩⟩
    · have adheres : block.adheres block.header.version = false := written
      rw [adheres]
      rfl
    · rw [same]
      rfl

/-- What is written of a block determines it, but for a proof of work that is not written. -/
theorem write_prefix_free {block block' : FullBlock} (typed : block.Typed) (typed' : block'.Typed)
    (same : block.ignoreAuxPow = block'.ignoreAuxPow) (before : block.write <+: block'.write) (old : AuxPow) :
    block.overOld old = block'.overOld old := by
  obtain ⟨rest, bytes⟩ := before
  have one := read_back { block with auxPow := old } typed rfl rest
  have two := read_back { block with auxPow := old } typed' same []
  rw [List.append_nil, ← bytes, one] at two
  exact (Prod.mk.inj (Option.some.inj two)).1

end FullBlock

/-! ### All classes -/

/-- An object is read back, with what follows it left; no object is written as another one, or as the beginning of
another one. -/
structure Faithful {A : Type} (typed : A → Prop) (write : A → Data) (read : Reader A) : Prop where
  back : ∀ a, typed a → ∀ rest, read { bytes := write a ++ rest, good := true } = some (a,
    { bytes := rest, good := true })
  injective : Set.InjOn write {a | typed a}
  prefix_free : ∀ a a', typed a → typed a' → write a <+: write a' → a = a'

theorem Reader.ReadsBack.faithful {A : Type} {typed : A → Prop} {write : A → Data} {read : Reader A}
    (back : ReadsBack typed write read) : Faithful typed write read :=
  ⟨back, back.injOn, fun _ _ fit fit' before => back.prefix_free fit fit' before⟩

/-- **What is written is read back.** -/
theorem serialization_back :
    Faithful Transaction.Typed writeTransaction readTransaction ∧
    Faithful BlockHeader.Typed writeHeader readHeader ∧
    Faithful MerkleTx.Typed writeMerkleTx readMerkleTx ∧
    Faithful AuxPow.Typed writeAuxPow readAuxPow ∧
    (∀ block reader : FullBlock, block.Typed → reader.ignoreAuxPow = block.ignoreAuxPow → ∀ rest,
      reader.read { bytes := block.write ++ rest, good := true } =
        some (block.overOld reader.auxPow, { bytes := rest, good := true })) ∧
    (∀ block block' : FullBlock, block.Typed → block'.Typed → block.ignoreAuxPow = block'.ignoreAuxPow →
      block.write <+: block'.write → ∀ old, block.overOld old = block'.overOld old) :=
  ⟨readTransaction_back.faithful, readHeader_back.faithful, readMerkleTx_back.faithful, readAuxPow_back.faithful,
    fun _ reader typed same rest => FullBlock.read_back reader typed same rest,
    fun _ _ typed typed' same before old => FullBlock.write_prefix_free typed typed' same before old⟩

namespace Small

/-- The null transaction and the null header. -/
def noTxn : Transaction := { version := 1, inputs := [], outputs := [], lockTime := 0 }

def noHeader : BlockHeader := { version := 1, prevBlock := 0, merkleRoot := 0, time := 0, bits := 0, nonce := 0 }

/-- A proof of work with an index in the chain merkle tree. -/
def work (chainIndex : Int) : AuxPow :=
  { txn := noTxn, blockHash := 0, merkleBranch := [], index := -1, chainMerkleBranch := [],
    chainIndex := chainIndex
    parentBlock := noHeader }

/-- A block that has a proof of work, and may ignore it. -/
def minedOver (ignore : Bool) (chainIndex : Int) : FullBlock :=
  { header := { noHeader with version := 0x100 }, auxPow := work chainIndex, transactions := [noTxn]
    ignoreAuxPow := ignore }

theorem noTxn_typed : noTxn.Typed where
  version := by decide
  few_inputs := by decide
  inputs := nofun
  few_outputs := by decide
  outputs := nofun
  lockTime := by decide

theorem noHeader_typed : noHeader.Typed := ⟨by decide, by decide, by decide, by decide⟩

theorem minedOver_typed (ignore : Bool) : (minedOver ignore 5).Typed where
  header := { noHeader_typed with version := show FitsSigned 4 0x100 by decide }
  few_transactions := show 1 ≤ maxVarint by decide
  transactions txn member := List.mem_singleton.mp member ▸ noTxn_typed
  auxPow _ :=
    { merkleTx := ⟨noTxn_typed, Nat.zero_le _, show FitsSigned 4 (-1) by decide⟩
      chainMerkleBranch := Nat.zero_le _
      chainIndex := show FitsSigned 4 5 by decide
      parentBlock := noHeader_typed }

/-- A transaction with an input and an output. -/
def paidTxn : Transaction :=
  { noTxn with inputs := [⟨⟨9, 1⟩, [1, 7], 0xffffffff⟩], outputs := [⟨50, [81]⟩] }

theorem paidTxn_typed : paidTxn.Typed :=
  { noTxn_typed with
    few_inputs := by decide
    inputs := fun _ member => List.mem_singleton.mp member ▸
      ⟨show 1 < 256 ^ 4 by decide, show 2 ≤ maxVarint by decide, by decide⟩
    few_outputs := by decide
    outputs := fun _ member => List.mem_singleton.mp member ▸ ⟨by decide, show 1 ≤ maxVarint by decide⟩ }

/-- A block of two transactions, over a block of a parent with branches. -/
def minedUnder : FullBlock :=
  { minedOver false 5 with
    auxPow := { work 5 with txn := paidTxn, merkleBranch := [3, 4], chainMerkleBranch := [6] }
    transactions := [noTxn, paidTxn] }

theorem minedUnder_typed : minedUnder.Typed :=
  { minedOver_typed false with
    few_transactions := show 2 ≤ maxVarint by decide
    transactions := by
      intro txn member
      rcases List.mem_pair.mp member with rfl | rfl
      · exact noTxn_typed
      · exact paidTxn_typed
    auxPow := fun _ =>
      { merkleTx := ⟨paidTxn_typed, show 2 ≤ maxVarint by decide, show FitsSigned 4 (-1) by decide⟩
        chainMerkleBranch := show 1 ≤ maxVarint by decide
        chainIndex := show FitsSigned 4 5 by decide
        parentBlock := noHeader_typed } }

end Small

open Libcoin.Small in
/-- A block that ignores its proof of work is read back without it, and is written as a block with another one. -/
theorem serialization_forgets :
    (minedOver true 5).Typed ∧ (minedOver true 0).ignoreAuxPow = (minedOver true 5).ignoreAuxPow ∧
      (minedOver true 0).read { bytes := (minedOver true 5).write ++ [], good := true } ≠
        some (minedOver true 5, { bytes := [], good := true }) ∧
      (minedOver true 5).write = (minedOver true 0).write ∧ minedOver true 5 ≠ minedOver true 0 := by
  refine ⟨minedOver_typed true, rfl, ?_, by decide +kernel, by decide⟩
  intro same
  rw [FullBlock.read_back (minedOver true 0) (minedOver_typed true) rfl] at same
  exact absurd (Prod.mk.inj (Option.some.inj same)).1 (by decide)

open Libcoin.Small in
/-- A block that adheres to its proof of work is read back with it. -/
theorem serialization_back_merged :
    (minedOver false 0).read { bytes := minedUnder.write ++ [7], good := true } =
      some (minedUnder, { bytes := [7], good := true }) :=
  serialization_back.2.2.2.2.1 minedUnder (minedOver false 0) minedUnder_typed rfl [7]

end Libcoin
