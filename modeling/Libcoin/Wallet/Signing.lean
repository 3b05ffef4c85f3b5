/-
Scripts that are mine, and signatures for them.

* `addScript`, `getScript`, `solve`, `isMine` and `signSignature` over a `BasicKeyStore`. Signing is a parameter.
* `filled_lookup` and `filled_getScript` say what a store has after any sequence of `addKey` and `addScript`.
-/

import Libcoin.Script.StandardScripts
import Libcoin.Wallet.KeyStore

namespace Libcoin

open Exec Script

/-- The functions of keys and scripts, and `ECDSA_sign` with a number. -/
structure Signer where
  fns : KeyFunctions
  hashers : Hashers
  signing : Transaction.Signing
  sign : Secret → Uint256 → Option Data

/-- `Sign`. -/
def CKey.sign (k : Signer) (key : CKey) (hash : Uint256) : Option Data :=
  key.pkey.secret.bind fun secret => k.sign secret hash

/-- `uint160` of a value. A value of another size is zero. -/
def readHash160 (value : Data) : Uint160 := if value.length = 20 then Fin.ofNat _ (littleEndian value) else 0

/-- The bytes of a `uint160`. -/
def writeHash160 (hash : Uint160) : Data := littleBytes 20 hash.val

theorem writeHash160_length (hash : Uint160) : (writeHash160 hash).length = 20 := littleBytes_length 20 _

@[simp] theorem readHash160_writeHash160 (hash : Uint160) : readHash160 (writeHash160 hash) = hash := by
  unfold readHash160
  rw [if_pos (writeHash160_length hash)]
  unfold writeHash160
  have small : hash.val < 256 ^ 20 := hash.isLt.trans_eq (by norm_num)
  rw [littleEndian_littleBytes small]
  exact Fin.ext (Nat.mod_eq_of_lt hash.isLt)

theorem writeHash160_readHash160 {value : Data} (size : value.length = 20) :
    writeHash160 (readHash160 value) = value := by
  unfold readHash160 writeHash160
  rw [if_pos size]
  have small : littleEndian value < 2 ^ 160 := (littleEndian_lt value).trans_eq (by rw [size]; norm_num)
  show littleBytes 20 (littleEndian value % 2 ^ 160) = value
  rw [Nat.mod_eq_of_lt small, ← size]
  exact littleBytes_littleEndian value

/-- `OP_HASH160 <hash> OP_EQUAL`. -/
def Script.payToScriptHash (hash : Data) : Script := [169] ++ pushData hash ++ [135]

namespace BasicKeyStore

section Source

variable (k : Signer) (store : BasicKeyStore)

/-- `toScriptHash`. -/
def toScriptHash (fns : KeyFunctions) (script : Script) : Uint160 := fns.toPubKeyHash script

/-- `addScript`. The hash is one that is not set, which is null. -/
def addScript (redeemScript : Script) : BasicKeyStore := { store with scripts := store.scripts.insert 0 redeemScript }

/-- `haveScript`. -/
def haveScript (hash : Uint160) : Bool := store.scripts[hash]?.isSome

/-- `getScript`. -/
def getScript (hash : Uint160) : Option Script := store.scripts[hash]?

/-- `KeyStore::getPubKey`. -/
def getPubKey (fns : KeyFunctions) (address : Uint160) : Except String (Option Data) := do
  match ← store.getKey address with
  | none => return none
  | some key => some <$> key.getPubKey fns

/-- `(unsigned char)nHashType`. -/
def hashTypeByte (nHashType : Int) : UInt8 := UInt8.ofNat (nHashType % 256).toNat

/-- `Sign1`, with the script that the signature is appended to. -/
def sign1 (pubKeyHash : Uint160) (hash : Uint256) (nHashType : Int) (scriptSig : Script) :
    Except String (Option Script) := do
  match ← store.getKey pubKeyHash with
  | none => return none
  | some key =>
    match key.sign k hash with
    | none => return none
    | some vchSig => return some (scriptSig ++ pushData (vchSig ++ [hashTypeByte nHashType]))

/-- The loop of `SignN`. -/
def signKeys (hash : Uint256) (nHashType : Int) (nRequired : Nat) :
    List Data → Nat → Script → Except String (Option Script)
  | [], nSigned, scriptSig => return if nSigned = nRequired then some scriptSig else none
  | pubkey :: keys, nSigned, scriptSig => do
    match ← store.sign1 k (k.fns.toPubKeyHash pubkey) hash nHashType scriptSig with
    | none => signKeys hash nHashType nRequired keys nSigned scriptSig
    | some scriptSig =>
      if nSigned + 1 = nRequired then return some scriptSig
      else signKeys hash nHashType nRequired keys (nSigned + 1) scriptSig

/-- `SignN`. -/
def signN (multisigdata : List Data) (hash : Uint256) (nHashType : Int) (scriptSig : Script) :
    Except String (Option Script) :=
  store.signKeys k hash nHashType ((multisigdata.headD []).headD 0).toNat multisigdata.tail.dropLast 0 scriptSig

/-- `Solver` with a key store: the signature script and the type, if it is solved. -/
def solve (scriptPubKey : Script) (hash : Uint256) (nHashType : Int) :
    Except String (Option (Script × TxnOutType)) :=
  match solver scriptPubKey with
  | none => return none
  | some (.nonStandard, _) => return none
  | some (.pubKey, solutions) => do
    let signed ← store.sign1 k (k.fns.toPubKeyHash (solutions.headD [])) hash nHashType []
    return signed.map fun scriptSig => (scriptSig, .pubKey)
  | some (.pubKeyHash, solutions) => do
    match ← store.sign1 k (readHash160 (solutions.headD [])) hash nHashType [] with
    | none => return none
    | some scriptSig => do
      let vch ← store.getPubKey k.fns (readHash160 (solutions.headD []))
      return some (scriptSig ++ pushData (vch.getD []), .pubKeyHash)
  | some (.scriptHash, solutions) =>
    return (store.getScript (readHash160 (solutions.headD []))).map fun script => (script, .scriptHash)
  | some (.multiSig, solutions) => do
    let signed ← store.signN k solutions hash nHashType [0]
    return signed.map fun scriptSig => (scriptSig, .multiSig)

/-- `HaveKeys`. -/
def haveKeys (fns : KeyFunctions) (pubkeys : List Data) : Nat :=
  (pubkeys.filter fun pubkey => store.haveKey (fns.toPubKeyHash pubkey)).length

/-- `IsMine`, with at most so many calls. -/
def mineWithin (fns : KeyFunctions) : Nat → Script → Option Bool
  | 0, _ => none
  | turns + 1, scriptPubKey =>
    match solver scriptPubKey with
    | none => some false
    | some (.nonStandard, _) => some false
    | some (.pubKey, solutions) => some (store.haveKey (fns.toPubKeyHash (solutions.headD [])))
    | some (.pubKeyHash, solutions) => some (store.haveKey (readHash160 (solutions.headD [])))
    | some (.scriptHash, solutions) =>
      match store.getScript (readHash160 (solutions.headD [])) with
      | none => some false
      | some subscript => mineWithin fns turns subscript
    | some (.multiSig, solutions) =>
      let keys := solutions.tail.dropLast
      some (decide (store.haveKeys fns keys = keys.length))

/-- `IsMine`. More calls than there are scripts never end. -/
def isMine (fns : KeyFunctions) (scriptPubKey : Script) : Option Bool :=
  store.mineWithin fns (store.scripts.size + 2) scriptPubKey

/-- The end of `SignSignature`: the input is replaced, and tested. -/
def replaceAndTest (scriptPubKey : Script) (txTo : Transaction) (nIn : Nat) (signature : Script) :
    Option (Bool × Transaction) := do
  let txTo := txTo.withSignature nIn signature
  let accepted ← txTo.verify k.hashers k.signing nIn scriptPubKey 0 true
  return (accepted, txTo)

/-- `SignSignature`: its result, and the transaction that it leaves. The script that it takes for the one that was
hashed is the signature script of the input. -/
def signSignature (scriptPubKey : Script) (txTo : Transaction) (nIn : Nat) (nHashType : Int) :
    Option (Bool × Transaction) := do
  let txin ← txTo.inputs[nIn]?
  let hash := txTo.getSignatureHash k.signing.hash scriptPubKey nIn nHashType
  match ← (store.solve k scriptPubKey hash nHashType).toOption with
  | none => return (false, txTo)
  | some (signature, whichType) =>
    if whichType = .scriptHash then do
      let subscript := txin.signature
      let hash2 := txTo.getSignatureHash k.signing.hash subscript nIn nHashType
      match ← (store.solve k subscript hash2 nHashType).toOption with
      | none => return (false, txTo)
      | some (signature, subType) =>
        if subType = .scriptHash then return (false, txTo)
        else replaceAndTest k scriptPubKey txTo nIn (signature ++ pushData subscript)
    else replaceAndTest k scriptPubKey txTo nIn signature

end Source

/-! ### Runs -/

/-- What a store is filled with. -/
inductive Deed
  | key (key : CKey)
  | script (redeemScript : Script)

/-- A call of `addKey` or `addScript`. One that throws leaves the store as it was. -/
def act (fns : KeyFunctions) (store : BasicKeyStore) : Deed → BasicKeyStore
  | .key key => ((store.addKey fns key).toOption).getD store
  | .script redeemScript => store.addScript redeemScript

def filled (fns : KeyFunctions) (deeds : List Deed) : BasicKeyStore := deeds.foldl (act fns) new

/-- The scripts that are added. -/
def scriptsOf (deeds : List Deed) : List Script :=
  deeds.filterMap fun
    | .key _ => none
    | .script redeemScript => some redeemScript

/-- The address that a key is added for. -/
def Deed.address (fns : KeyFunctions) : Deed → Option Uint160
  | .key added => added.pkey.secret.map fun secret => fns.toPubKeyHash (fns.i2o secret added.pkey.compressed)
  | .script _ => none

/-- What is kept of a key. -/
def Deed.entry : Deed → Option (Secret × Bool)
  | .key added => added.pkey.secret.map fun secret => (secret, added.fCompressedPubKey)
  | .script _ => none

/-- The last key that is added for an address. -/
def lastFor (fns : KeyFunctions) (deeds : List Deed) (address : Uint160) : Option Deed :=
  deeds.reverse.find? fun deed => deed.address fns = some address

/-- The address of what is kept of a key, in the form that its flag says. -/
def address (fns : KeyFunctions) (entry : Secret × Bool) : Uint160 := fns.toPubKeyHash (fns.i2o entry.1 entry.2)

section Filled

variable {fns : KeyFunctions} {store : BasicKeyStore} {deeds : List Deed}

theorem filled_concat (deeds : List Deed) (deed : Deed) :
    filled fns (deeds ++ [deed]) = act fns (filled fns deeds) deed := by
  unfold filled
  rw [List.foldl_append, List.foldl_cons, List.foldl_nil]

theorem lastFor_cases {a : Uint160} {deed : Deed} (last : lastFor fns deeds a = some deed) :
    deed ∈ deeds ∧ deed.address fns = some a := by
  unfold lastFor at last
  have found := List.find?_some last
  exact ⟨List.mem_reverse.mp (List.mem_of_find?_eq_some last), of_decide_eq_true found⟩

/-- A key is put in the place of the one before it with the same address. -/
theorem act_lookup (deed : Deed) (a : Uint160) :
    (act fns store deed).keys[a]? = if deed.address fns = some a then deed.entry else store.keys[a]? := by
  cases deed with
  | script redeemScript => exact (if_neg nofun).symm
  | key key =>
    obtain ⟨⟨_ | secret, compressed⟩, fSet, fCompressedPubKey⟩ := key
    · exact (if_neg nofun).symm
    · show (store.keys.insert (fns.toPubKeyHash (fns.i2o secret compressed)) (secret, fCompressedPubKey))[a]? = _
      rw [Map.lookup_insert]
      unfold Deed.address Deed.entry
      simp only [Option.map_some, Option.some.injEq]

theorem filled_lookup (a : Uint160) :
    (filled fns deeds).keys[a]? = (lastFor fns deeds a).bind Deed.entry := by
  induction deeds using List.reverseRecOn with
  | nil => exact Map.lookup_empty a
  | append_singleton deeds deed ih =>
    rw [filled_concat, act_lookup, ih]
    unfold lastFor
    rw [List.reverse_concat, List.find?_cons]
    by_cases here : deed.address fns = some a
    · rw [if_pos here, decide_eq_true here]
      rfl
    · rw [if_neg here, decide_eq_false here]

/-- All of the scripts are stored in one place. -/
theorem filled_getScript {hash : Uint160} (other : hash ≠ 0) : (filled fns deeds).getScript hash = none := by
  induction deeds using List.reverseRecOn with
  | nil => exact Map.lookup_empty hash
  | append_singleton deeds deed ih =>
    rw [filled_concat]
    cases deed with
    | key key =>
      obtain ⟨⟨_ | secret, compressed⟩, fSet, fCompressedPubKey⟩ := key
      · exact ih
      · exact ih
    | script redeemScript => exact (Map.lookup_insert_of_ne _ _ other.symm).trans ih

end Filled

end BasicKeyStore

end Libcoin
