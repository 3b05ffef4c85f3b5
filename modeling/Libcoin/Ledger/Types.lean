/-
The data that the block chain is about: coins, transactions, blocks, and the rules of a chain.

* `Coin`, `Input`, `Output`, `Transaction`, `Block` are the classes of the same names, with the
  member functions that validation calls.
* `Chain` has the virtual functions of `Chain`, and its two checks. What the coin library computes
  from bytes (hashes, sizes, signatures, scripts) is in `Primitives`.
* `Unspent` is an element of the spendable coins, `Confirmation` the database index of a
  transaction.

Counts, heights and times are unbounded integers. Sums of values are the 64 bit sums of the source.
-/

import Libcoin.Tree.SparseTree
import Libcoin.Tree.BlockTree
import Mathlib.Data.Prod.Lex

namespace Libcoin

/-- A sum in `int64_t`. -/
def wrap64 (value : Int) : Int := value.bmod (2 ^ 64)

/-- A wrapped sum differs from the sum by a multiple of `2 ^ 64`. -/
theorem wrap64_spec (value : Int) :
    (∃ turns, wrap64 value = value - turns * 2 ^ 64) ∧ -2 ^ 63 ≤ wrap64 value ∧ wrap64 value < 2 ^ 63 := by
  unfold wrap64
  refine ⟨⟨value.bdiv (2 ^ 64), ?_⟩, ?_, ?_⟩
  · have split := Int.bmod_add_bdiv value (2 ^ 64)
    omega
  · exact Int.le_bmod (by decide)
  · exact Int.bmod_lt (by decide)

theorem wrap64_of_range {value : Int} (low : -2 ^ 63 ≤ value) (high : value < 2 ^ 63) :
    wrap64 value = value := by
  obtain ⟨⟨turns, same⟩, low', high'⟩ := wrap64_spec value
  omega

@[simp] theorem wrap64_wrap64 (a : Int) : wrap64 (wrap64 a) = wrap64 a := Int.bmod_bmod

theorem wrap64_add (a b : Int) : wrap64 (wrap64 a + b) = wrap64 (a + b) := Int.bmod_add_bmod

/-- A sum that is not negative does not grow by wrapping. -/
theorem wrap64_le {value : Int} (positive : 0 ≤ value) : wrap64 value ≤ value := by
  obtain ⟨⟨turns, same⟩, low, high⟩ := wrap64_spec value
  omega

/-- The values of `int64_t`. -/
def IsInt64 (value : Int) : Prop := -2 ^ 63 ≤ value ∧ value < 2 ^ 63

instance (value : Int) : Decidable (IsInt64 value) := inferInstanceAs (Decidable (_ ∧ _))

/-- A result of `int64_t` arithmetic, which must not overflow. -/
def int64 (value : Int) : Except Fault Int := if IsInt64 value then .ok value else .error .undefined

theorem int64_ok {value result : Int} : int64 value = .ok result ↔ IsInt64 value ∧ value = result := by
  unfold int64
  split
  · rename_i fits
    rw [Except.ok.injEq, and_iff_right fits]
  · rename_i outside
    exact iff_of_false nofun fun both => outside both.1

/-- Bytes. A script is its serialization. -/
abbrev Data := List UInt8

abbrev Script := Data

/-- The output with number `index` of the transaction with hash `hash`. -/
structure Coin where
  hash : Uint256
  index : Nat
  deriving DecidableEq, Repr

namespace Coin

def toPair (coin : Coin) : Uint256 ×ₗ Nat := toLex (coin.hash, coin.index)

theorem toPair_injective : Function.Injective toPair := by
  intro first second same
  have same : (first.hash, first.index) = (second.hash, second.index) := toLex.injective same
  cases first
  cases second
  exact congrArg (fun p : Uint256 × Nat => Coin.mk p.1 p.2) same

/-- `operator<`: first by hash, then by index. -/
instance : LinearOrder Coin := LinearOrder.lift' toPair toPair_injective

/-- The default coin, `setNull`. -/
def null : Coin := { hash := 0, index := 0xffffffff }

def isNull (coin : Coin) : Bool := decide (coin = null)

end Coin

structure Input where
  prevout : Coin
  signature : Script
  sequence : Nat
  deriving DecidableEq, Repr

/-- `Input::isFinal`. -/
def Input.isFinal (input : Input) : Bool := decide (input.sequence = 0xffffffff)

structure Output where
  value : Int
  script : Script
  deriving DecidableEq, Repr

def Output.isNull (output : Output) : Bool := decide (output.value = -1)

structure Transaction where
  version : Int
  inputs : List Input
  outputs : List Output
  lockTime : Int
  deriving DecidableEq, Repr

namespace Transaction

def isCoinBase (txn : Transaction) : Bool :=
  match txn.inputs with
  | [input] => input.prevout.isNull
  | _ => false

/-- `getValueOut`. -/
def getValueOut (txn : Transaction) : Int :=
  txn.outputs.foldl (fun valueOut output => wrap64 (valueOut + output.value)) 0

end Transaction

structure BlockHeader where
  version : Int
  prevBlock : Uint256
  merkleRoot : Uint256
  time : Int
  bits : Int
  nonce : Int
  deriving DecidableEq, Repr

/-- A block. Its auxiliary proof of work is the serialization. -/
structure Block extends BlockHeader where
  transactions : List Transaction
  auxPow : Data
  deriving DecidableEq, Repr

/-- `BlockHeader::setNull` and `Block::setNull`, the default block. -/
def Block.null : Block :=
  { version := 1, prevBlock := 0, merkleRoot := 0, time := 0, bits := 0, nonce := 0,
    transactions := [], auxPow := [] }

/-- `Confirmation`, without the transaction it is a subclass of. -/
structure Confirmation where
  cnf : Int
  count : Int
  deriving DecidableEq, Repr

def Confirmation.isCoinbase (conf : Confirmation) : Bool := decide (conf.cnf < 0)

/-- `Unspent`: an unspent output with its row number and its confirmation. -/
structure Unspent where
  key : Coin
  output : Output
  coin : Int
  count : Int
  cnf : Int
  deriving DecidableEq, Repr

/-- `is_valid`. -/
def Unspent.isValid (unspent : Unspent) : Bool :=
  !unspent.key.isNull && !unspent.output.isNull && decide (unspent.cnf ≠ 0)

/-- What the evaluation of the two name scripts of a transaction leaves. -/
structure NameScript where
  isNameScript : Bool
  isNameNew : Bool
  isFirstUpdate : Bool
  name : Data
  value : Data
  deriving DecidableEq, Repr

/-- The functions of the coin library that validation calls and that are not modelled here. -/
structure Primitives where
  /-- `Transaction::getHash`, `BlockHeader::getHash`, `AuxPow::getHash` and the hash of a pair in the
  merkle tree. -/
  txnHash : Transaction → Uint256
  headerHash : BlockHeader → Uint256
  auxPowHash : Data → Uint256
  pairHash : Uint256 → Uint256 → Uint256
  /-- `serialize_size` and `GetSigOpCount`. -/
  txnSize : Transaction → Int
  blockSize : Block → Int
  sigOpCount : Block → Int
  /-- `Transaction::verify(scripts, strictPayToScriptHash)`. -/
  verify : Transaction → List Script → Bool → Bool
  /-- `Script::getDropped`, and the name evaluator, with its flag to ignore the rules: on the script
  of an input, and on the scripts of an input and an output (`none` when it fails). -/
  getDropped : Script → Script
  evalInput : Bool → Script → NameScript
  evalOutput : Bool → Script → Script → Option NameScript
  /-- The value that the members `_input_count` and `_network_fee` of a `NameOperation` have before
  they are set. -/
  indeterminate : Int

/-- The virtual functions of `Chain` that validation calls. -/
structure Chain where
  subsidy : Int → Uint256 → Int
  maturity : Int → Int
  maxMoney : Int
  maxBlockSize : Int
  /-- `timeStamp(BIP0016)` and `timeStamp(BIP0030)`. -/
  timeStamp16 : Int
  timeStamp30 : Int
  checkPoints : Int → Uint256 → Bool
  totalBlocksEstimate : Int
  adhereAuxPow : Bool
  adhereNames : Bool
  enforceNameRules : Int → Bool
  networkFee : Int → Int
  expirationDepth : Int → Int
  duplicateTx : Int → Int
  /-- What `append` asks: the target of the next block after an iterator, and the rules about versions
  and time. -/
  checkProofOfWork : Block → Bool
  nextWorkRequired : BlockTree Uint256 → BlockRef Uint256 → Int
  proofOfWorkLimit : Int
  maxInterBlockTime : Int
  acceptQuorum : Nat
  acceptMajority : Nat
  enforceQuorum : Nat
  enforceMajority : Nat
  subsidy_nonneg : ∀ height prev, 0 ≤ subsidy height prev
  maxMoney_nonneg : 0 ≤ maxMoney
  maxMoney_le : maxMoney ≤ 10 ^ 18

/-- The two coinbase maturities of the repository: that of `Chain`, and that of `DogecoinChain`. -/
inductive Maturity
  | constant
  | dogecoin
  deriving DecidableEq, Repr

/-- `maturity(height)`. -/
def Maturity.at : Maturity → Int → Int
  | .constant, _ => 100
  | .dogecoin, height => if 145000 ≤ height then 60 * 4 else 30

namespace Chain

def range (chain : Chain) (value : Int) : Bool := decide (0 ≤ value ∧ value ≤ chain.maxMoney)

/-- The loop of `check(Transaction)` over the outputs. -/
def checkOutputs (chain : Chain) : List Output → Int → Except String Unit
  | [], _ => .ok ()
  | output :: outputs, valueOut =>
    if output.value < 0 then .error "txout.nValue negative"
    else if chain.maxMoney < output.value then .error "txout.nValue too high"
    else
      let valueOut := wrap64 (valueOut + output.value)
      if !chain.range valueOut then .error "txout total out of range"
      else checkOutputs chain outputs valueOut

/-- What `check(Transaction)` asks of the inputs. -/
def checkInputs (txn : Transaction) : Except String Unit :=
  if !(txn.inputs.map Input.prevout).Nodup then .error "Transaction has duplicate inputs!"
  else if txn.isCoinBase then
    let size := (txn.inputs.head?.map fun input => input.signature.length).getD 0
    if size < 2 ∨ 100 < size then .error "coinbase script size" else .ok ()
  else if txn.inputs.any fun input => input.prevout.isNull then .error "prevout is null"
  else .ok ()

/-- The body of `check(Transaction)`. -/
def checkTransactionBody (chain : Chain) (prim : Primitives) (txn : Transaction) :
    Except String Unit :=
  if txn.inputs.isEmpty then .error "vin empty"
  else if txn.outputs.isEmpty then .error "vout empty"
  else if chain.maxBlockSize < prim.txnSize txn then .error "size limits failed"
  else do
    chain.checkOutputs txn.outputs 0
    checkInputs txn

/-- `Chain::check(Transaction)`. -/
def checkTransaction (chain : Chain) (prim : Primitives) (txn : Transaction) : Except String Unit :=
  (chain.checkTransactionBody prim txn).mapError ("check(Transaction): " ++ ·)

end Chain

end Libcoin
