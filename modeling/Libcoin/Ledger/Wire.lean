/-
The bytes of transactions and blocks.

* `write...` and `read...` are `operator<<` and `operator>>` of the classes. A reader starts from the default
  object, whose members keep their values where the stream has ended.
* `WireBlock` is a block with the flag `_ignore_aux_pow`, and `WireBlock.getBlock` is the call of `getBlock` with
  it.
* `WireBlock.read_core`: what a block that adheres to the auxiliary proof of work reads after a block that does
  not is shorter than what was written.
-/

import Libcoin.Library.Codec
import Libcoin.Ledger.Detach

namespace Libcoin

/-! ### Numbers -/

/-- `const_binary` of an integer of so many bytes. -/
def writeInt (size : Nat) (n : Int) : Data := littleBytes size (n % 256 ^ size).toNat

/-- `binary<unsigned int>`. -/
def readUnsigned (size : Nat) (old : Int) : Reader Int :=
  (fun bytes => (littleEndian bytes : Int)) <$> readOver (writeInt size old)

/-- A number in two's complement. -/
def signed (size : Nat) (n : Nat) : Int := if n < 256 ^ size / 2 then n else n - 256 ^ size

/-- `binary<int>` and `binary<int64_t>`. -/
def readSigned (size : Nat) (old : Int) : Reader Int :=
  (fun bytes => signed size (littleEndian bytes)) <$> readOver (writeInt size old)

/-- `binary<int>` into a variable without a value. -/
def readIndex : Reader Int := (fun bytes => signed 4 (littleEndian bytes)) <$> readFresh 4

/-- `operator<<` for `uint256`. -/
def writeHash (hash : Uint256) : Data := littleBytes 32 hash.val

def readHash : Reader Uint256 := (fun bytes => Fin.ofNat _ (littleEndian bytes)) <$> readOver (writeHash 0)

def writeByte (byte : UInt8) : Data := [byte]

/-- `binary<unsigned char>`. -/
def readByte : Reader UInt8 := (fun bytes => bytes.headD 0) <$> readOver [0]

/-! ### Transactions -/

/-- `const_binary<Coin>`. -/
def writeCoin (coin : Coin) : Data := writeHash coin.hash ++ littleBytes 4 coin.index

def readCoin : Reader Coin :=
  (fun bytes => { hash := Fin.ofNat _ (littleEndian (bytes.take 32)), index := littleEndian (bytes.drop 32) }) <$>
    readOver (writeCoin Coin.null)

def writeScript (script : Script) : Data := writeVector writeByte script

def readScript : Reader Script := readVector readByte

def writeInput (input : Input) : Data :=
  writeCoin input.prevout ++ (writeScript input.signature ++ littleBytes 4 input.sequence)

def readInput : Reader Input :=
  (fun read => { prevout := read.1, signature := read.2.1, sequence := read.2.2.toNat }) <$>
    readCoin.pair (readScript.pair (readUnsigned 4 0xffffffff))

def writeOutput (output : Output) : Data := writeInt 8 output.value ++ writeScript output.script

def readOutput : Reader Output :=
  (fun read => { value := read.1, script := read.2 }) <$> (readSigned 8 (-1)).pair readScript

def writeTransaction (txn : Transaction) : Data :=
  writeInt 4 txn.version ++ (writeVector writeInput txn.inputs ++
    (writeVector writeOutput txn.outputs ++ writeInt 4 txn.lockTime))

def readTransaction : Reader Transaction :=
  (fun read => { version := read.1, inputs := read.2.1, outputs := read.2.2.1, lockTime := read.2.2.2 }) <$>
    (readSigned 4 1).pair ((readVector readInput).pair ((readVector readOutput).pair (readUnsigned 4 0)))

/-! ### Blocks -/

def writeHeader (header : BlockHeader) : Data :=
  writeInt 4 header.version ++ (writeHash header.prevBlock ++ (writeHash header.merkleRoot ++
    (writeInt 4 header.time ++ (writeInt 4 header.bits ++ writeInt 4 header.nonce))))

def readHeader : Reader BlockHeader :=
  (fun read =>
    { version := read.1, prevBlock := read.2.1, merkleRoot := read.2.2.1, time := read.2.2.2.1,
      bits := read.2.2.2.2.1
      nonce := read.2.2.2.2.2 }) <$>
    (readSigned 4 1).pair (readHash.pair (readHash.pair
      ((readUnsigned 4 0).pair ((readUnsigned 4 0).pair (readUnsigned 4 0)))))

/-- `AuxPow`, with the members of `MerkleTx`. -/
structure AuxPow where
  txn : Transaction
  blockHash : Uint256
  merkleBranch : List Uint256
  index : Int
  chainMerkleBranch : List Uint256
  chainIndex : Int
  parentBlock : BlockHeader
  deriving DecidableEq, Repr

def writeAuxPow (auxPow : AuxPow) : Data :=
  writeTransaction auxPow.txn ++ (writeHash auxPow.blockHash ++ (writeVector writeHash auxPow.merkleBranch ++
    (writeInt 4 auxPow.index ++ (writeVector writeHash auxPow.chainMerkleBranch ++
      (writeInt 4 auxPow.chainIndex ++ writeHeader auxPow.parentBlock)))))

/-- `operator>>` for `AuxPow`, whose constructor leaves `nChainIndex` as it is. -/
def readAuxPow : Reader AuxPow :=
  (fun read =>
    { txn := read.1, blockHash := read.2.1, merkleBranch := read.2.2.1, index := read.2.2.2.1
      chainMerkleBranch := read.2.2.2.2.1, chainIndex := read.2.2.2.2.2.1
      parentBlock := read.2.2.2.2.2.2 }) <$>
    readTransaction.pair (readHash.pair ((readVector readHash).pair ((readSigned 4 (-1)).pair
      ((readVector readHash).pair (readIndex.pair readHeader)))))

/-- A block with `_ignore_aux_pow`. -/
structure WireBlock extends Block where
  ignoreAuxPow : Bool
  deriving DecidableEq, Repr

namespace WireBlock

/-- The constructor, and `setNull`, which leaves the auxiliary proof of work as it is. -/
def setNull (block : WireBlock) : WireBlock :=
  { Block.null with auxPow := block.auxPow, ignoreAuxPow := true }

/-- `Block()`. -/
def new : WireBlock := { Block.null with ignoreAuxPow := true }

/-- `adhere_aux_pow`. -/
def adhereAuxPow (block : WireBlock) : WireBlock := { block with ignoreAuxPow := false }

/-- `BlockChain::getBlock` into a block, which starts with `setNull`. -/
def getBlock (db : Database) (env : Setting) (count : Int) (block : WireBlock) : WireBlock :=
  { db.getBlock env count with ignoreAuxPow := block.setNull.ignoreAuxPow }

/-- `operator<<`. -/
def write (block : WireBlock) : Data :=
  writeHeader block.toBlockHeader ++
    ((if !block.ignoreAuxPow && hasAuxPow block.version then block.auxPow else []) ++
      writeVector writeTransaction block.transactions)

/-- The auxiliary proof of work, if it is expected. -/
def readAux (block : WireBlock) (version : Int) : Reader Data :=
  if !block.ignoreAuxPow && hasAuxPow version then writeAuxPow <$> readAuxPow else pure block.auxPow

/-- `operator>>`. -/
def read (block : WireBlock) : Reader WireBlock := do
  let header ← readHeader
  let auxPow ← block.readAux header.version
  let transactions ← readVector readTransaction
  return { header with transactions := transactions, auxPow := auxPow, ignoreAuxPow := block.ignoreAuxPow }

end WireBlock

/-! ### What the readers consume -/

open Reader

theorem writeInt_length (size : Nat) (n : Int) : (writeInt size n).length = size := littleBytes_length _ _

theorem writeInt_zero (size : Nat) : writeInt size 0 = List.replicate size 0 := by
  have zeros := @littleBytes_add 0 0 size Nat.one_pos
  rw [Nat.zero_add] at zeros
  rw [writeInt, Int.zero_emod]
  exact zeros

theorem writeInt_littleEndian {size : Nat} {bytes : Data} (exactly : bytes.length = size) {n : Int}
    (same : n % 256 ^ size = littleEndian bytes) : writeInt size n = bytes := by
  rw [writeInt, same, Int.toNat_natCast, ← exactly]
  exact littleBytes_littleEndian bytes

section Numbers

variable {size : Nat} {old : Int}

theorem readUnsigned_same {s s' : Stream} {bytes : Data}
    (run : readOver (writeInt size old) s = some (bytes, s')) :
    writeInt size (littleEndian bytes) = id bytes := by
  have exactly := (readOver_length run).trans (writeInt_length size old)
  have fits := littleEndian_lt bytes
  rw [exactly] at fits
  exact writeInt_littleEndian exactly (Int.emod_eq_of_lt (Int.natCast_nonneg _) (by exact_mod_cast fits))

theorem readUnsigned_exact : Exact (writeInt size) (readUnsigned size old) :=
  (readOver_exact _).map fun _ _ _ run => readUnsigned_same run

theorem readUnsigned_short : Short (writeInt size) (readUnsigned size 0) := by
  refine Short.map (fun _ _ _ run => readUnsigned_same run) ?_
  rw [writeInt_zero]
  exact readOver_zeros

theorem readUnsigned_blank : Blank (writeInt size) (readUnsigned size 0) := by
  refine Blank.map (fun _ _ _ run => readUnsigned_same run) ?_
  rw [writeInt_zero]
  exact readOver_blank

theorem writeInt_signed {bytes : Data} (exactly : bytes.length = size) :
    writeInt size (signed size (littleEndian bytes)) = bytes := by
  have fits := littleEndian_lt bytes
  rw [exactly] at fits
  have fits : (littleEndian bytes : Int) < 256 ^ size := by exact_mod_cast fits
  refine writeInt_littleEndian exactly ?_
  unfold signed
  split
  · exact Int.emod_eq_of_lt (Int.natCast_nonneg _) fits
  · rw [Int.sub_emod_right]
    exact Int.emod_eq_of_lt (Int.natCast_nonneg _) fits

theorem readSigned_exact : Exact (writeInt size) (readSigned size old) :=
  (readOver_exact _).map fun _ _ _ run => writeInt_signed ((readOver_length run).trans (writeInt_length size old))

end Numbers

theorem readHash_exact : Exact writeHash readHash := by
  refine (readOver_exact _).map fun s bytes s' run => ?_
  have exactly := (readOver_length run).trans (littleBytes_length 32 _)
  have fits := littleEndian_lt bytes
  rw [exactly] at fits
  show littleBytes 32 (littleEndian bytes % 2 ^ 256) = bytes
  rw [Nat.mod_eq_of_lt (fits.trans_eq (by norm_num)), ← exactly]
  exact littleBytes_littleEndian bytes

theorem readByte_same {s s' : Stream} {bytes : Data} (run : readOver [0] s = some (bytes, s')) :
    writeByte (bytes.headD 0) = id bytes := by
  obtain ⟨byte, rfl⟩ := List.length_eq_one_iff.mp (readOver_length run)
  rfl

theorem readByte_whole : Whole writeByte readByte :=
    (readOver_exact _).whole.map fun _ _ _ run => readByte_same run

theorem readByte_short : Short writeByte readByte :=
  Short.map (fun _ _ _ run => readByte_same run) (@readOver_zeros 1)

theorem readByte_blank : Blank writeByte readByte :=
  Blank.map (fun _ _ _ run => readByte_same run) (@readOver_blank 1)

theorem readCoin_whole : Whole writeCoin readCoin := by
  refine (readOver_exact _).whole.map fun s bytes s' run => ?_
  have exactly : bytes.length = 36 := by
    rw [readOver_length run, writeCoin, writeHash, List.length_append, littleBytes_length, littleBytes_length]
  have first : (bytes.take 32).length = 32 := by
    rw [List.length_take]
    omega
  have second : (bytes.drop 32).length = 4 := by
    rw [List.length_drop]
    omega
  have fits := littleEndian_lt (bytes.take 32)
  rw [first] at fits
  have hash := littleBytes_littleEndian (bytes.take 32)
  have index := littleBytes_littleEndian (bytes.drop 32)
  rw [first] at hash
  rw [second] at index
  show littleBytes 32 (littleEndian (bytes.take 32) % 2 ^ 256) ++
    littleBytes 4 (littleEndian (bytes.drop 32)) = bytes
  rw [Nat.mod_eq_of_lt (fits.trans_eq (by norm_num)), hash, index, List.take_append_drop]

theorem readScript_whole : Whole writeScript readScript := readByte_whole.vector

theorem readScript_short : Short writeScript readScript :=
    Short.vector readByte_whole readByte_short readByte_blank

theorem readInput_whole : Whole writeInput readInput := by
  refine (readCoin_whole.pair (readScript_whole.pair readUnsigned_exact.whole)).map fun s read s' run => ?_
  obtain ⟨_, -, run⟩ := pair_eq_some.mp run
  obtain ⟨_, -, run⟩ := pair_eq_some.mp run
  obtain ⟨bytes, run, same⟩ := map_eq_some.mp run
  have number : writeInt 4 read.2.2 = littleBytes 4 read.2.2.toNat := by
    have fits := littleEndian_lt bytes
    rw [readOver_length run, writeInt_length] at fits
    rw [← same, writeInt, Int.emod_eq_of_lt (Int.natCast_nonneg _) (by exact_mod_cast fits)]
  show writeCoin _ ++ (writeScript _ ++ littleBytes 4 read.2.2.toNat) = writeCoin _ ++
    (writeScript _ ++ writeInt 4 _)
  rw [number]

theorem readOutput_needs : Needs readOutput := (readSigned_exact.whole.needs_pair readVector_needs).map

theorem readOutput_whole : Whole writeOutput readOutput :=
  (readSigned_exact.whole.pair readScript_whole).map fun _ _ _ _ => rfl

theorem readOutput_short : Short writeOutput readOutput :=
  Short.map (fun _ _ _ _ => rfl) (readSigned_exact.whole.short_pair readScript_short readVector_needs)

theorem readTransaction_needs : Needs readTransaction :=
  (readSigned_exact.whole.needs_pair (Needs.pair_left readVector_needs)).map

theorem readTransaction_whole : Whole writeTransaction readTransaction :=
  (readSigned_exact.whole.pair (readInput_whole.vector.pair
    (readOutput_whole.vector.pair readUnsigned_exact.whole))).map
    fun _ _ _ _ => rfl

theorem readTransaction_short : Short writeTransaction readTransaction := by
  have outputs : Short (writeVector writeOutput) (readVector readOutput) :=
    Short.vector readOutput_whole readOutput_short readOutput_needs.blank
  have rest := outputs.pair readOutput_whole.vector (@readUnsigned_short 4) readUnsigned_blank
  have rest := readInput_whole.vector.short_pair rest (Needs.pair_left readVector_needs)
  have all := (@readSigned_exact 4 1).whole.short_pair rest (Needs.pair_left readVector_needs)
  exact Short.map (fun _ _ _ _ => rfl) all

theorem readHeader_exact : Exact writeHeader readHeader :=
  (readSigned_exact.pair (readHash_exact.pair (readHash_exact.pair (readUnsigned_exact.pair
    (readUnsigned_exact.pair readUnsigned_exact))))).map fun _ _ _ _ => rfl

theorem writeHeader_length (header : BlockHeader) : (writeHeader header).length = 80 := by
  simp [writeHeader, writeHash, writeInt]

theorem readIndex_whole : Whole (writeInt 4) readIndex := by
  have read : Whole id (readFresh 4) := by
    intro s bytes s' run good
    obtain ⟨start, -, -, split⟩ := readFresh_eq_some run
    exact ⟨start, bytes, split, Under.refl _⟩
  exact read.map fun _ _ _ run => writeInt_signed (readFresh_eq_some run).2.2.1

theorem readAuxPow_whole : Whole writeAuxPow readAuxPow :=
  (readTransaction_whole.pair (readHash_exact.whole.pair
    (readHash_exact.whole.vector.pair (readSigned_exact.whole.pair
    (readHash_exact.whole.vector.pair (readIndex_whole.pair readHeader_exact.whole)))))).map fun _ _ _ _ => rfl

theorem writeAuxPow_pos (auxPow : AuxPow) : 0 < (writeAuxPow auxPow).length := by
  unfold writeAuxPow writeTransaction
  simp [writeInt]

/-- A list that is not empty is not written as zeros. -/
theorem core_writeVector_pos {A : Type} (write : A → Data) {values : List A} (some : values ≠ []) :
    0 < core (writeVector write values) := by
  have length := List.length_pos_iff.mpr some
  have front : 0 < core (writeVarint values.length) := by
    unfold writeVarint
    split_ifs with one two four
    · refine core_pos_of_head ?_ []
      intro zero
      have low := congrArg UInt8.toNat zero
      rw [UInt8.toNat_ofNat', Nat.mod_eq_of_lt (by omega)] at low
      have low : values.length = 0 := low
      omega
    · exact core_pos_of_head (by decide) _
    · exact core_pos_of_head (by decide) _
    · exact core_pos_of_head (by decide) _
  unfold writeVector
  rw [core_append]
  split <;> omega

namespace WireBlock

section Read

variable {sent block : WireBlock} {s s' : Stream}

/-- A reader that adheres to the auxiliary proof of work reads the header, the proof and the transactions. -/
theorem read_parts (run : new.adhereAuxPow.read s = some (block, s')) (aux : hasAuxPow block.version = true) :
    ∃ auxPow s₁ s₂, readHeader s = some (block.toBlockHeader, s₁) ∧ readAuxPow s₁ = some (auxPow, s₂) ∧
      readVector readTransaction s₂ = some (block.transactions, s') ∧ s₁.good = true ∧ s₂.good = true := by
  unfold read at run
  obtain ⟨header, s₁, first, run⟩ := bind_eq_some.mp run
  obtain ⟨auxPow, s₂, second, run⟩ := bind_eq_some.mp run
  obtain ⟨transactions, s₃, third, same⟩ := bind_eq_some.mp run
  obtain ⟨rfl, rfl⟩ := pure_eq_some.mp same
  have adheres : (!new.adhereAuxPow.ignoreAuxPow && hasAuxPow header.version) = true := aux
  unfold readAux at second
  rw [if_pos adheres] at second
  obtain ⟨auxPow, proof, rfl⟩ := map_eq_some.mp second
  have good₂ := readVector_needs _ _ _ third
  exact ⟨auxPow, s₁, s₂, first, proof, third, (readAuxPow_whole _ _ _ proof good₂).1, good₂⟩

/-- The header is read as it was written. -/
theorem read_header (run : new.adhereAuxPow.read { bytes := sent.write, good := true } = some (block, s'))
    (aux : hasAuxPow block.version = true) : writeHeader block.toBlockHeader =
      writeHeader sent.toBlockHeader := by
  obtain ⟨auxPow, s₁, s₂, first, -, -, good₁, -⟩ := read_parts run aux
  have split : sent.write = _ := (readHeader_exact _ _ _ first good₁).2
  unfold write at split
  refine (List.append_inj split ?_).1.symm
  rw [writeHeader_length, writeHeader_length]

/-- **What the reader takes for the transactions is shorter than the transactions that were sent**, because the
auxiliary proof of work was not sent and is read. -/
theorem read_core (quiet : sent.ignoreAuxPow = true)
    (run : new.adhereAuxPow.read { bytes := sent.write, good := true } = some (block, s'))
    (aux : hasAuxPow block.version = true) (some : block.transactions ≠ []) :
    core (writeVector writeTransaction block.transactions) <
      core (writeVector writeTransaction sent.transactions) := by
  obtain ⟨auxPow, s₁, s₂, first, proof, third, good₁, good₂⟩ := read_parts run aux
  have split₀ : sent.write = _ := (readHeader_exact _ _ _ first good₁).2
  obtain ⟨-, consumed, split₁, under⟩ := readAuxPow_whole _ _ _ proof good₂
  have least : core (writeVector writeTransaction block.transactions) ≤ core s₂.bytes := by
    cases good₃ : s'.good with
    | true =>
      obtain ⟨-, consumed, split, under⟩ := readTransaction_whole.vector _ _ _ third good₃
      refine under.core.trans ?_
      rw [split, core_append]
      split
      · exact le_rfl
      · exact (core_le_length _).trans (Nat.le_add_right _ _)
    | false =>
      exact Short.vector readTransaction_whole readTransaction_short readTransaction_needs.blank _ _ _ third good₂ good₃
  have most := core_writeVector_pos writeTransaction some
  -- the transactions that are read start later than those that were sent
  have rest : writeVector writeTransaction sent.transactions = consumed ++ s₂.bytes := by
    unfold write at split₀
    rw [quiet, if_neg (by simp), List.nil_append, split₁] at split₀
    refine (List.append_inj split₀ ?_).2
    rw [writeHeader_length, writeHeader_length]
  have long := (writeAuxPow_pos auxPow).trans_le under.length
  rw [rest, core_append, if_neg (by omega)]
  omega

end Read

end WireBlock

/-! ### Headers -/

theorem writeInt_inj {size : Nat} {n n' : Int} (same : writeInt size n = writeInt size n') :
    n % 256 ^ size = n' % 256 ^ size := by
  have low (n : Int) : (n % 256 ^ size).toNat < 256 ^ size := by
    have positive : (0 : Int) < 256 ^ size := by positivity
    have below := Int.emod_lt_of_pos n positive
    have above := Int.emod_nonneg n positive.ne'
    zify
    rwa [Int.toNat_of_nonneg above]
  have numbers := congrArg littleEndian same
  unfold writeInt at numbers
  rw [littleEndian_littleBytes (low n), littleEndian_littleBytes (low n')] at numbers
  have positive : (0 : Int) < 256 ^ size := by positivity
  rw [← Int.toNat_of_nonneg (Int.emod_nonneg n positive.ne'), numbers,
    Int.toNat_of_nonneg (Int.emod_nonneg n' positive.ne')]

theorem writeHash_injective : Function.Injective writeHash := by
  intro hash hash' same
  have fits (hash : Uint256) : hash.val < 256 ^ 32 := hash.isLt.trans_eq (by norm_num)
  have numbers := congrArg littleEndian same
  unfold writeHash at numbers
  rw [littleEndian_littleBytes (fits hash), littleEndian_littleBytes (fits hash')] at numbers
  exact Fin.ext numbers

/-- The bytes of a header tell the merkle root, and the lower bytes of the version. -/
theorem writeHeader_inj {header header' : BlockHeader} (same : writeHeader header = writeHeader header') :
    header.version % 256 ^ 4 = header'.version % 256 ^ 4 ∧ header.merkleRoot = header'.merkleRoot := by
  unfold writeHeader at same
  obtain ⟨version, same⟩ := List.append_inj same (by rw [writeInt_length, writeInt_length])
  obtain ⟨-, same⟩ := List.append_inj same (by rw [writeHash, writeHash, littleBytes_length, littleBytes_length])
  obtain ⟨root, -⟩ := List.append_inj same (by rw [writeHash, writeHash, littleBytes_length, littleBytes_length])
  exact ⟨writeInt_inj version, writeHash_injective root⟩

end Libcoin
