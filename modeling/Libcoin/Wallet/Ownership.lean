/-
What is mine can be signed.

* `Able` is what signing and the hashes are assumed to do.
* `signs_pubKey`, `signs_pubKeyHash` and `signs_multiSig`: the signature script of each form that is mine is accepted.
* `mine_signs_iff`: every script of a form that is mine is signed if and only if every key is stored with the form of
  the public key that was hashed.
* `scripts_kept_iff`: the scripts that were added are found under their hashes if and only if there are none.
-/

import Libcoin.Wallet.Signing

namespace Libcoin

open Exec Script Evaluator TxEvaluator

namespace BasicKeyStore

/-- A signature is a sequence, which no public key begins like, of 20 to 72 bytes, and verifies under the key that is
stored with its form. `hash160` is `toPubKeyHash`. -/
structure Able (k : Signer) (store : BasicKeyStore) : Prop where
  hashed : ∀ value, k.hashers.hash160 value = writeHash160 (k.fns.toPubKeyHash value)
  keySize : ∀ secret compressed, (k.fns.i2o secret compressed).length = if compressed then 33 else 65
  keyTag : ∀ secret compressed, (k.fns.i2o secret compressed).head? ≠ some 0x30
  signed : ∀ (a : Uint160) (entry : Secret × Bool), store.keys[a]? = some entry → ∀ hash, ∃ sig,
    k.sign entry.1 hash = some sig ∧
    20 ≤ sig.length ∧ sig.length ≤ 72 ∧ sig.head? = some 0x30 ∧
      k.signing.keyVerify (k.fns.i2o entry.1 entry.2) hash sig = true

/-- The public keys that a script has in it. -/
def publicKeys (script : Script) : List Data :=
  match solver script with
  | some (.pubKey, solutions) => solutions
  | some (.multiSig, solutions) => solutions.tail.dropLast
  | _ => []

/-- No public key of a script has the hash of another one that is stored. -/
def NoCollision (fns : KeyFunctions) (store : BasicKeyStore) (script : Script) : Prop :=
  ∀ key ∈ publicKeys script, ∀ (a : Uint160) (entry : Secret × Bool), store.keys[a]? = some entry →
    address fns entry = fns.toPubKeyHash key →
    fns.i2o entry.1 entry.2 = key

/-- A script for the hash of another one is for a script that was added, and that is not one itself. -/
def Redeemable (fns : KeyFunctions) (added : List Script) (script : Script) : Prop :=
  script.isPayToScriptHash = true → ∃ redeemScript ∈ added, redeemScript.isPayToScriptHash = false ∧
    script = payToScriptHash (writeHash160 (toScriptHash fns redeemScript))

/-- What is mine can be signed, in every input of every transaction. -/
def Signs (k : Signer) (store : BasicKeyStore) (added : List Script) : Prop :=
  ∀ (script : Script) (txTo : Transaction) (nIn : Nat) (hashType : UInt8), nIn < txTo.inputs.length →
    Redeemable k.fns added script → NoCollision k.fns store script → store.isMine k.fns script = some true →
      ∃ signed, store.signSignature k script txTo nIn hashType.toNat = some (true, signed) ∧
        signed.verify k.hashers k.signing nIn script 0 true = some true

/-- The scripts that were added are found. -/
def Kept (fns : KeyFunctions) (store : BasicKeyStore) (added : List Script) : Prop :=
  ∀ redeemScript ∈ added, store.getScript (toScriptHash fns redeemScript) = some redeemScript

/-- Every key is stored for the address of the form that is stored with it. -/
def Faithful (fns : KeyFunctions) (store : BasicKeyStore) : Prop :=
  ∀ (a : Uint160) (entry : Secret × Bool), store.keys[a]? = some entry → address fns entry = a

/-- The flag of the last key for each address says the form of its public key, or both forms have one hash. -/
def Matched (fns : KeyFunctions) (deeds : List Deed) : Prop :=
  ∀ a deed, lastFor fns deeds a = some deed → deed.entry.map (address fns) = some a

theorem hashTypeByte_toNat (hashType : UInt8) : hashTypeByte hashType.toNat = hashType := by
  unfold hashTypeByte
  have small : ((hashType.toNat : Int) % 256).toNat = hashType.toNat := by
    have := hashType.toNat_lt
    omega
  rw [small, UInt8.ofNat_toNat]

section Matched

variable {fns : KeyFunctions} {deeds : List Deed}

theorem faithful_iff : Faithful fns (filled fns deeds) ↔ Matched fns deeds := by
  constructor
  · intro faithful a deed last
    have found := (lastFor_cases last).2
    obtain ⟨entry, stored⟩ : ∃ entry, deed.entry = some entry := by
      cases deed with
      | script redeemScript => cases found
      | key key =>
        obtain ⟨secret, secreted, -⟩ := Option.map_eq_some_iff.mp found
        exact ⟨_, Option.map_eq_some_iff.mpr ⟨secret, secreted, rfl⟩⟩
    have kept : (filled fns deeds).keys[a]? = some entry := by
      rw [filled_lookup, last]
      exact stored
    rw [stored, Option.map_some, faithful a entry kept]
  · intro matched a entry kept
    rw [filled_lookup] at kept
    obtain ⟨deed, last, stored⟩ := Option.bind_eq_some_iff.mp kept
    have form := matched a deed last
    rw [stored] at form
    exact Option.some.inj form

/-- A key with the flag of its form is stored so. -/
theorem matched_of_flags (flags : ∀ key, Deed.key key ∈ deeds → key.fCompressedPubKey = key.pkey.compressed) :
    Matched fns deeds := by
  intro a deed last
  obtain ⟨member, found⟩ := lastFor_cases last
  cases deed with
  | script redeemScript => cases found
  | key key =>
    obtain ⟨secret, secreted, same⟩ := Option.map_eq_some_iff.mp found
    show (key.pkey.secret.map _).map _ = _
    rw [secreted, flags key member, ← same]
    rfl

end Matched

/-! ### Signatures -/

section Signatures

variable {k : Signer} {store : BasicKeyStore} {a : Uint160} {entry : Secret × Bool} {hash : Uint256} {sig : Data}
  {script : Script} {txTo : Transaction} {nIn : Nat} {hashType : UInt8}

theorem getKey_stored (stored : store.keys[a]? = some entry) :
    store.getKey a = .ok (some (CKey.of entry.1 entry.2)) := by
  unfold getKey
  rw [stored]
  dsimp only
  rw [CKey.setSecret_ok entry.1 entry.2 rfl]
  rfl

theorem getPubKey_stored (stored : store.keys[a]? = some entry) :
    store.getPubKey k.fns a = .ok (some (k.fns.i2o entry.1 entry.2)) := by
  unfold getPubKey
  rw [getKey_stored stored]
  rfl

theorem sign1_stored (stored : store.keys[a]? = some entry) (signed : k.sign entry.1 hash = some sig)
    (type : Int) (scriptSig : Script) :
    store.sign1 k a hash type scriptSig = .ok (some (scriptSig ++ pushData (sig ++ [hashTypeByte type]))) := by
  have made : (CKey.of entry.1 entry.2).sign k hash = some sig := signed
  unfold sign1
  rw [getKey_stored stored, ok_bind]
  dsimp only
  rw [made]
  rfl

/-- A value that an input of a transaction takes for the signature of a script by a key. -/
structure SignedBy (k : Signer) (txTo : Transaction) (nIn : Nat) (script : Script) (key value : Data) : Prop where
  long : 20 < value.length
  short : value.length ≤ maxElementSize
  tag : value.head? = some 0x30
  accepted : Transaction.checkSig k.signing txTo nIn 0 value key script = true

/-- The key that is stored signs, after whatever was signed before. -/
theorem sign1_signedBy (able : Able k store) (stored : store.keys[a]? = some entry) :
    ∃ value, SignedBy k txTo nIn script (k.fns.i2o entry.1 entry.2) value ∧ ∀ scriptSig,
      store.sign1 k a (txTo.getSignatureHash k.signing.hash script nIn hashType.toNat) hashType.toNat scriptSig =
        .ok (some (scriptSig ++ pushData value)) := by
  obtain ⟨sig, signed, long, short, tag, verified⟩ :=
    able.signed a entry stored (txTo.getSignatureHash k.signing.hash script nIn hashType.toNat)
  have size : (sig ++ [hashType]).length = sig.length + 1 := List.length_append
  refine ⟨sig ++ [hashType], ⟨by omega, ?_, ?_, ?_⟩, fun scriptSig => ?_⟩
  · show _ ≤ 520
    omega
  · rw [List.head?_append, tag]
    rfl
  · unfold Transaction.checkSig
    rw [List.getLast?_concat, List.dropLast_concat]
    exact verified
  · rw [sign1_stored stored signed, hashTypeByte_toNat]

theorem SignedBy.pushed {key value : Data} (signed : SignedBy k txTo nIn script key value)
    (others : ∀ op ∈ ops script, ∀ instruction ∈ op, instruction.2.length ≤ 20 ∨ instruction.2.head? ≠ some 0x30) :
    findAndDelete (pushData value) script = script := by
  have short : value.length ≤ 520 := signed.short
  refine findAndDelete_eq (by omega) fun opcode member => ?_
  rcases others _ member (opcode, value) rfl with small | other
  · exact absurd signed.long (not_lt.mpr small)
  · exact other signed.tag

end Signatures

/-! ### The forms -/

section Forms

variable {k : Signer} {store : BasicKeyStore} {script : Script} {solutions : List Data} {txTo : Transaction}
  {nIn : Nat} {hashType : UInt8}

/-- The end of `SignSignature` for a signature script of pushes. -/
theorem signSignature_of_solve (valid : nIn < txTo.inputs.length) {signature : Script} {form : TxnOutType}
    (solved : store.solve k script (txTo.getSignatureHash k.signing.hash script nIn hashType.toNat) hashType.toNat =
      .ok (some (signature, form)))
    (plain : form ≠ .scriptHash) {accepted : Bool}
    (verified : Transaction.verifyScripts k.hashers (Transaction.checkSig k.signing txTo nIn 0) signature script true =
      some accepted) :
    ∃ signed, store.signSignature k script txTo nIn hashType.toNat = some (accepted, signed) ∧
      signed.verify k.hashers k.signing nIn script 0 true = some accepted := by
  have checked : (txTo.withSignature nIn signature).verify k.hashers k.signing nIn script 0 true = some accepted :=
    (Transaction.verify_withSignature valid script true signature).trans verified
  refine ⟨txTo.withSignature nIn signature, ?_, checked⟩
  unfold signSignature
  rw [List.getElem?_eq_getElem valid]
  dsimp only
  rw [solved]
  show (if form = .scriptHash then _ else replaceAndTest k script txTo nIn signature) = _
  rw [if_neg plain]
  unfold replaceAndTest
  dsimp only
  rw [checked]
  rfl

/-- A public key of a script whose hash is stored is stored itself. -/
theorem owned_key (faithful : Faithful k.fns store) (apart : NoCollision k.fns store script) {key : Data}
    (member : key ∈ publicKeys script) (mine : store.haveKey (k.fns.toPubKeyHash key) = true) :
    ∃ entry, store.keys[k.fns.toPubKeyHash key]? = some entry ∧ k.fns.i2o entry.1 entry.2 = key := by
  obtain ⟨entry, stored⟩ := Option.isSome_iff_exists.mp mine
  exact ⟨entry, stored, apart key member _ entry stored (faithful _ entry stored)⟩

theorem Able.keySize_le (able : Able k store) (secret : Secret) (compressed : Bool) :
    (k.fns.i2o secret compressed).length ≤ maxElementSize := by
  rw [able.keySize]
  cases compressed <;> decide

/-- A key. -/
theorem signs_pubKey (able : Able k store) (faithful : Faithful k.fns store) (apart : NoCollision k.fns store script)
    (solved : solver script = some (.pubKey, solutions))
    (mine : store.haveKey (k.fns.toPubKeyHash (solutions.headD [])) = true) :
    ∃ signature, store.solve k script (txTo.getSignatureHash k.signing.hash script nIn hashType.toNat) hashType.toNat =
        .ok (some (signature, .pubKey)) ∧
      Transaction.verifyScripts k.hashers (Transaction.checkSig k.signing txTo nIn 0) signature script true =
        some true := by
  obtain ⟨opcode, key, low, size, rfl, form⟩ := solver_pubKey solved
  have listed : key ∈ publicKeys script := by
    unfold publicKeys
    rw [solved]
    exact List.mem_singleton_self key
  obtain ⟨entry, stored, rfl⟩ := owned_key faithful apart listed mine
  obtain ⟨value, signed, signs⟩ := @sign1_signedBy k store _ entry script txTo nIn hashType able stored
  refine ⟨[value].flatMap pushData, ?_, ?_⟩
  · unfold solve
    rw [solved]
    dsimp only
    rw [List.headD_cons, signs, List.flatMap_singleton]
    rfl
  · refine Transaction.verifyScripts_pushes (by simpa using signed.short) (by simp) (by simp)
      (solver_template solved (by decide)).1 true ?_
    rw [List.reverse_singleton, result_pubKey form low (able.keySize_le _ _), signed.pushed, signed.accepted]
    rw [form]
    intro op member instruction inside
    simp only [List.mem_cons, List.not_mem_nil, or_false] at member
    rcases member with rfl | rfl
    · cases inside
      exact .inr (able.keyTag _ _)
    · cases inside
      exact .inl (Nat.zero_le 20)

/-- The hash of a key: what is signed is accepted if that is the hash of the form that is stored. -/
theorem signs_pubKeyHash (able : Able k store) {entry : Secret × Bool}
    (solved : solver script = some (.pubKeyHash, solutions))
    (stored : store.keys[readHash160 (solutions.headD [])]? = some entry) :
    ∃ signature, store.solve k script (txTo.getSignatureHash k.signing.hash script nIn hashType.toNat) hashType.toNat =
        .ok (some (signature, .pubKeyHash)) ∧
      Transaction.verifyScripts k.hashers (Transaction.checkSig k.signing txTo nIn 0) signature script true =
        some (decide (address k.fns entry = readHash160 (solutions.headD []))) := by
  obtain ⟨opcode, hash, low, size, rfl, form⟩ := solver_pubKeyHash solved
  rw [List.headD_cons] at stored ⊢
  obtain ⟨value, signed, signs⟩ := @sign1_signedBy k store _ entry script txTo nIn hashType able stored
  refine ⟨[value, k.fns.i2o entry.1 entry.2].flatMap pushData, ?_, ?_⟩
  · unfold solve
    rw [solved]
    dsimp only
    rw [List.headD_cons, signs, ok_bind]
    dsimp only
    rw [getPubKey_stored stored]
    simp only [List.flatMap_cons, List.flatMap_nil, List.append_nil]
    rfl
  · refine Transaction.verifyScripts_pushes ?_ (by simp) (by simp) (solver_template solved (by decide)).1 true ?_
    · simpa using ⟨signed.short, able.keySize_le entry.1 entry.2⟩
    · have small : hash.length ≤ maxElementSize := size.trans_le (by decide)
      have same : k.hashers.hash160 (k.fns.i2o entry.1 entry.2) = hash ↔ address k.fns entry = readHash160 hash := by
        rw [able.hashed]
        constructor
        · intro same
          rw [← same, readHash160_writeHash160]
          rfl
        · intro same
          rw [← writeHash160_readHash160 size, ← same]
          rfl
      show Transaction.result (run _ _ script (holding [k.fns.i2o entry.1 entry.2, value] 0)) = _
      rw [result_pubKeyHash form low small, signed.pushed, signed.accepted, Bool.and_true, decide_eq_decide.mpr same]
      rw [form]
      intro op member instruction inside
      simp only [List.mem_cons, List.not_mem_nil, or_false] at member
      rcases member with rfl | rfl | rfl | rfl | rfl <;> cases inside
      · exact .inl (Nat.zero_le 20)
      · exact .inl (Nat.zero_le 20)
      · exact .inl size.le
      · exact .inl (Nat.zero_le 20)
      · exact .inl (Nat.zero_le 20)

/-- So many keys as are required sign, in their order. -/
theorem signKeys_owned (able : Able k store) {keys : List Data}
    (owned : ∀ key ∈ keys, ∃ entry, store.keys[k.fns.toPubKeyHash key]? = some entry ∧ k.fns.i2o entry.1 entry.2 = key)
    {nRequired nSigned : Nat} (fewer : nSigned < nRequired) (enough : nRequired ≤ nSigned + keys.length)
    (scriptSig : Script) :
    ∃ values, List.Forall₂ (SignedBy k txTo nIn script) (keys.take (nRequired - nSigned)) values ∧
      store.signKeys k (txTo.getSignatureHash k.signing.hash script nIn hashType.toNat) hashType.toNat nRequired keys
        nSigned scriptSig = .ok (some (scriptSig ++ values.flatMap pushData)) := by
  induction keys generalizing nSigned scriptSig with
  | nil =>
    rw [List.length_nil] at enough
    omega
  | cons key keys ih =>
    obtain ⟨entry, stored, rfl⟩ := owned key List.mem_cons_self
    obtain ⟨value, signed, signs⟩ := @sign1_signedBy k store _ entry script txTo nIn hashType able stored
    obtain ⟨left, count⟩ : ∃ left, nRequired - nSigned = left + 1 := ⟨nRequired - nSigned - 1, by omega⟩
    rw [List.length_cons] at enough
    rw [count, List.take_succ_cons]
    unfold signKeys
    rw [signs, ok_bind]
    dsimp only
    by_cases last : nSigned + 1 = nRequired
    · rw [if_pos last]
      obtain rfl : left = 0 := by omega
      refine ⟨[value], .cons signed .nil, ?_⟩
      rw [List.flatMap_singleton]
      rfl
    · rw [if_neg last]
      obtain ⟨values, others, further⟩ := ih (fun key member => owned key (List.mem_cons_of_mem _ member))
        (show nSigned + 1 < nRequired by omega) (by omega) (scriptSig ++ pushData value)
      obtain rfl : left = nRequired - (nSigned + 1) := by omega
      refine ⟨value :: values, .cons signed others, ?_⟩
      rw [further, List.flatMap_cons, List.append_assoc]

theorem foldl_kept {values : List Data} (kept : ∀ value ∈ values, findAndDelete (pushData value) script = script) :
    values.foldl (fun scriptCode value => findAndDelete (pushData value) scriptCode) script = script := by
  induction values with
  | nil => rfl
  | cons value values ih =>
    rw [List.foldl_cons, kept value List.mem_cons_self]
    exact ih fun value member => kept value (List.mem_cons_of_mem _ member)

/-- So many of some keys. -/
theorem signs_multiSig (able : Able k store) (faithful : Faithful k.fns store)
    (apart : NoCollision k.fns store script) (solved : solver script = some (.multiSig, solutions))
    (mine : store.haveKeys k.fns solutions.tail.dropLast = solutions.tail.dropLast.length) :
    ∃ signature, store.solve k script (txTo.getSignatureHash k.signing.hash script nIn hashType.toNat) hashType.toNat =
        .ok (some (signature, .multiSig)) ∧
      Transaction.verifyScripts k.hashers (Transaction.checkSig k.signing txTo nIn 0) signature script true =
        some true := by
  obtain ⟨m, n, keys, positive, fewer, few, count, sizes, rfl, form⟩ := solver_multiSig solved
  have listed : publicKeys script = keys.map Prod.snd := by
    unfold publicKeys
    rw [solved]
    show (keys.map Prod.snd ++ [[UInt8.ofNat n]]).dropLast = _
    exact List.dropLast_concat
  have inner : ([UInt8.ofNat m] :: keys.map Prod.snd ++ [[UInt8.ofNat n]]).tail.dropLast = keys.map Prod.snd :=
    List.dropLast_concat
  rw [inner] at mine
  have owned : ∀ key ∈ keys.map Prod.snd, ∃ entry, store.keys[k.fns.toPubKeyHash key]? = some entry ∧
      k.fns.i2o entry.1 entry.2 = key := fun key member =>
    owned_key faithful apart (listed ▸ member) (List.length_filter_eq_length_iff.mp mine key member)
  have enough : (keys.map Prod.snd).length = n := by rw [List.length_map, count]
  obtain ⟨values, signed, signs⟩ := @signKeys_owned k store script txTo nIn hashType able _ owned m 0 positive
    (by omega) [0]
  rw [Nat.sub_zero] at signed
  have valued : values.length = m := by
    rw [← signed.length_eq, List.length_take, enough]
    omega
  refine ⟨([] :: values).flatMap pushData, ?_, ?_⟩
  · have required : (([UInt8.ofNat m] :: keys.map Prod.snd ++ [[UInt8.ofNat n]]).headD []).headD 0 =
        UInt8.ofNat m := rfl
    have byte : (UInt8.ofNat m).toNat = m := by
      rw [UInt8.toNat_ofNat']
      omega
    unfold solve
    rw [solved]
    dsimp only
    unfold signN
    rw [inner, required, byte, signs]
    rfl
  · -- no push of the script is a signature, and each key that was taken accepts its own
    have others : ∀ op ∈ ops script, ∀ instruction ∈ op,
        instruction.2.length ≤ 20 ∨ instruction.2.head? ≠ some 0x30 := by
      rw [form]
      intro op member instruction inside
      simp only [List.cons_append, List.mem_cons, List.mem_append, List.mem_map, List.not_mem_nil,
        or_false] at member
      rcases member with rfl | ⟨key, member, rfl⟩ | rfl | rfl
      · cases inside
        exact .inl (Nat.zero_le 20)
      · cases inside
        obtain ⟨entry, -, made⟩ := owned instruction.2 (List.mem_map_of_mem member)
        exact .inr (made ▸ able.keyTag entry.1 entry.2)
      · cases inside
        exact .inl (Nat.zero_le 20)
      · cases inside
        exact .inl (Nat.zero_le 20)
    obtain ⟨plain, accepted⟩ : (∀ value ∈ values,
          findAndDelete (pushData value) script = script ∧ value.length ≤ maxElementSize) ∧
        List.Forall₂ (fun value key => Transaction.checkSig k.signing txTo nIn 0 value key script = true) values
          ((keys.map Prod.snd).take m) :=
      (List.forall₂_and_left _ _).mp <| List.Forall₂.flip <| signed.imp fun key value signed =>
        ⟨⟨signed.pushed others, signed.short⟩, signed.accepted⟩
    have pushes : ∀ key ∈ keys, key.1 ≤ 78 ∧ key.2.length ≤ maxElementSize := fun key member => by
      obtain ⟨entry, -, made⟩ := owned key.2 (List.mem_map_of_mem member)
      exact ⟨(sizes key member).1, made ▸ able.keySize_le entry.1 entry.2⟩
    refine Transaction.verifyScripts_pushes ?_ ?_ (by simp) (solver_template solved (by decide)).1 true ?_
    · exact List.forall_mem_cons.mpr ⟨Nat.zero_le _, fun value member => (plain value member).2⟩
    · rw [List.length_cons]
      omega
    · have back : values.reverse.length = m := by rw [List.length_reverse, valued]
      rw [List.reverse_cons, result_multiSig positive fewer few count back pushes form,
        foldl_kept fun value member => (plain value (List.mem_reverse.mp member)).1, matchSigs_eq_greedy,
        greedy_iff.mpr ⟨_, ((keys.map Prod.snd).take_sublist m).reverse, List.forall₂_reverse_iff.mpr accepted⟩]

end Forms

/-! ### What is mine -/

section Mine

variable {k : Signer} {store : BasicKeyStore} {script : Script} {added : List Script}

/-- What is mine is of one of the forms, with the keys or the script that it asks for. -/
theorem mine_cases (mine : store.isMine k.fns script = some true) :
    (∃ solutions, solver script = some (.pubKey, solutions) ∧
      store.haveKey (k.fns.toPubKeyHash (solutions.headD [])) = true) ∨
    (∃ solutions, solver script = some (.pubKeyHash, solutions) ∧
      store.haveKey (readHash160 (solutions.headD [])) = true) ∨
    (∃ solutions, solver script = some (.multiSig, solutions) ∧
      store.haveKeys k.fns solutions.tail.dropLast = solutions.tail.dropLast.length) ∨
    ∃ solutions, solver script = some (.scriptHash, solutions) ∧
      store.getScript (readHash160 (solutions.headD [])) ≠ none := by
  unfold isMine mineWithin at mine
  cases solved : solver script with
  | none =>
    rw [solved] at mine
    cases mine
  | some found =>
    obtain ⟨form, solutions⟩ := found
    rw [solved] at mine
    cases form with
    | nonStandard => cases mine
    | pubKey => exact .inl ⟨solutions, rfl, Option.some.inj mine⟩
    | pubKeyHash => exact .inr (.inl ⟨solutions, rfl, Option.some.inj mine⟩)
    | multiSig => exact .inr (.inr (.inl ⟨solutions, rfl, of_decide_eq_true (Option.some.inj mine)⟩))
    | scriptHash =>
      refine .inr (.inr (.inr ⟨solutions, rfl, fun missing => ?_⟩))
      dsimp only at mine
      rw [missing] at mine
      cases mine

theorem payToScriptHash_hash {hash : Data} (size : hash.length = 20) :
    ((payToScriptHash hash).drop 2).take 20 = hash := by
  have pushed : pushData hash = 20 :: hash := by
    unfold pushData
    rw [if_pos (by omega), size]
    rfl
  unfold payToScriptHash
  rw [pushed]
  show (hash ++ [135]).take 20 = hash
  exact List.take_left' size

/-- Whatever scripts a store has, an output for the hash of one is not signed in an input without a signature script:
the signature script is taken for the script that was hashed. -/
theorem signSignature_scriptHash_unsigned (form : script.isPayToScriptHash = true) {txTo : Transaction} {nIn : Nat}
    {input : Input} (spending : txTo.inputs[nIn]? = some input) (unsigned : input.signature = []) (type : Int) :
    store.signSignature k script txTo nIn type = some (false, txTo) := by
  have solved : solver script = some (.scriptHash, [(script.drop 2).take 20]) := if_pos form
  have nothing (hash : Uint256) : store.solve k [] hash type = .ok none := rfl
  have first (hash : Uint256) : store.solve k script hash type =
      .ok ((store.getScript (readHash160 ((script.drop 2).take 20))).map fun script => (script, .scriptHash)) := by
    unfold solve
    rw [solved]
    rfl
  unfold signSignature
  rw [spending]
  dsimp only
  rw [first]
  cases store.getScript (readHash160 ((script.drop 2).take 20)) with
  | none => rfl
  | some redeemScript =>
    show (Except.toOption (store.solve k input.signature _ type)).bind _ = _
    rw [unsigned, nothing]
    rfl

/-- Where every key has its own form, and no script is found, what is mine is signed. -/
theorem signs_of_faithful (able : Able k store) (faithful : Faithful k.fns store)
    (lost : ∀ redeemScript ∈ added, store.getScript (toScriptHash k.fns redeemScript) = none) :
    Signs k store added := by
  intro script txTo nIn hashType valid redeemable apart mine
  rcases mine_cases mine with ⟨solutions, solved, mine⟩ | ⟨solutions, solved, mine⟩ | ⟨solutions, solved, mine⟩ |
    ⟨solutions, solved, found⟩
  · obtain ⟨signature, signs, accepted⟩ := signs_pubKey able faithful apart solved mine
    exact signSignature_of_solve valid signs (by decide) accepted
  · obtain ⟨entry, stored⟩ := Option.isSome_iff_exists.mp mine
    obtain ⟨signature, signs, accepted⟩ := signs_pubKeyHash able solved stored
    rw [decide_eq_true (faithful _ entry stored)] at accepted
    exact signSignature_of_solve valid signs (by decide) accepted
  · obtain ⟨signature, signs, accepted⟩ := signs_multiSig able faithful apart solved mine
    exact signSignature_of_solve valid signs (by decide) accepted
  · obtain ⟨form, rfl⟩ := solver_scriptHash solved
    obtain ⟨redeemScript, member, -, rfl⟩ := redeemable form
    rw [payToScriptHash_hash (writeHash160_length _), List.headD_cons, readHash160_writeHash160] at found
    exact absurd (lost redeemScript member) found

/-- A key under the address of another form is mine, and the signature of its hash is not accepted. -/
theorem faithful_of_signs (able : Able k store) (signs : Signs k store added) : Faithful k.fns store := by
  intro a entry stored
  have solved := solver_payToPubKeyHash (writeHash160_length a)
  have mine : store.isMine k.fns (payToPubKeyHash (writeHash160 a)) = some true := by
    unfold isMine mineWithin
    rw [solved]
    dsimp only
    rw [List.headD_cons, readHash160_writeHash160]
    unfold haveKey
    rw [stored]
    rfl
  have other : (payToPubKeyHash (writeHash160 a)).isPayToScriptHash = false :=
    (solver_template solved (by decide)).1
  have redeemable : Redeemable k.fns added (payToPubKeyHash (writeHash160 a)) := fun form => by
    rw [other] at form
    cases form
  have apart : NoCollision k.fns store (payToPubKeyHash (writeHash160 a)) := fun key member => by
    unfold publicKeys at member
    rw [solved] at member
    cases member
  let txTo : Transaction :=
    { version := 1
      inputs := [{ prevout := { hash := 0, index := 0 }, signature := [], sequence := 0 }]
      outputs := []
      lockTime := 0 }
  have valid : 0 < txTo.inputs.length := Nat.one_pos
  have stored' : store.keys[readHash160 ([writeHash160 a].headD [])]? = some entry := by
    rw [List.headD_cons, readHash160_writeHash160, stored]
  obtain ⟨signed, done, -⟩ := signs _ txTo 0 1 valid redeemable apart mine
  obtain ⟨signature, solves, tested⟩ := signs_pubKeyHash able solved stored'
  obtain ⟨signed', done', -⟩ := signSignature_of_solve valid solves (by decide) tested
  rw [done'] at done
  have same : address k.fns entry = readHash160 ([writeHash160 a].headD []) :=
    of_decide_eq_true (congrArg Prod.fst (Option.some.inj done))
  rw [same, List.headD_cons, readHash160_writeHash160]

end Mine

/-! ### Every run -/

section Runs

variable {k : Signer} {deeds : List Deed}

theorem mine_signs_iff (able : Able k (filled k.fns deeds))
    (proper : ∀ redeemScript ∈ scriptsOf deeds, toScriptHash k.fns redeemScript ≠ 0) :
    Signs k (filled k.fns deeds) (scriptsOf deeds) ↔ Matched k.fns deeds := by
  rw [← faithful_iff]
  exact ⟨faithful_of_signs able, fun faithful =>
    signs_of_faithful able faithful fun redeemScript member => filled_getScript (proper redeemScript member)⟩

theorem scripts_kept_iff {fns : KeyFunctions} (proper : ∀ redeemScript ∈ scriptsOf deeds,
    toScriptHash fns redeemScript ≠ 0) :
    Kept fns (filled fns deeds) (scriptsOf deeds) ↔ scriptsOf deeds = [] := by
  constructor
  · intro kept
    refine List.eq_nil_iff_forall_not_mem.mpr fun redeemScript member => ?_
    have found := kept redeemScript member
    rw [filled_getScript (proper redeemScript member)] at found
    cases found
  · intro none_ redeemScript member
    rw [none_] at member
    cases member

/-- **What is mine is signed and the scripts are kept if and only if every key was added with the flag of its form and
no script was added.** -/
theorem owned_exact (able : Able k (filled k.fns deeds))
    (proper : ∀ redeemScript ∈ scriptsOf deeds, toScriptHash k.fns redeemScript ≠ 0) :
    Signs k (filled k.fns deeds) (scriptsOf deeds) ∧ Kept k.fns (filled k.fns deeds) (scriptsOf deeds) ↔
      Matched k.fns deeds ∧ scriptsOf deeds = [] :=
  and_congr (mine_signs_iff able proper) (scripts_kept_iff proper)

end Runs

end BasicKeyStore

namespace Small

/-- A signature is the number of the key. -/
def signer : Signer where
  fns := keyFunctions
  hashers := { hashers with
    hash160 := fun value => writeHash160 (keyFunctions.toPubKeyHash value)
    hash160_length := fun _ => writeHash160_length _ }
  signing := { hash := digest, keyVerify := fun key _ sig => decide (sig.tail = key.tail.take 32) }
  sign secret _ := some (0x30 :: secret.1)

theorem signer_able (store : BasicKeyStore) : store.Able signer where
  hashed _ := rfl
  keySize secret compressed := by
    cases compressed
    · show (4 :: (secret.1 ++ secret.1)).length = 65
      rw [List.length_cons, List.length_append, secret.2]
    · show (2 :: secret.1).length = 33
      rw [List.length_cons, secret.2]
  keyTag secret compressed := by
    cases compressed
    · show some 4 ≠ some 48
      decide
    · show some 2 ≠ some 48
      decide
  signed a entry stored hash := by
    obtain ⟨secret, compressed⟩ := entry
    have size : (0x30 :: secret.1 : Data).length = 33 := by rw [List.length_cons, secret.2]
    refine ⟨0x30 :: secret.1, rfl, by omega, by omega, rfl, decide_eq_true ?_⟩
    cases compressed
    · exact (List.take_left' secret.2).symm
    · exact (List.take_of_length_le secret.2.le).symm

/-- A compressed key that was assigned: the flag is not. -/
def loadedKey : CKey :=
  { pkey := { secret := some (secretOf 1), compressed := true }, fSet := true, fCompressedPubKey := false }

end Small

namespace BasicKeyStore

open Libcoin.Small in
/-- A store with a script does not sign for its hash. -/
theorem signSignature_scriptHash_unsigned_added :
    let txTo : Transaction :=
      { version := 1, inputs := [{ prevout := { hash := 0, index := 0 }, signature := [], sequence := 0 }], outputs := []
        lockTime := 0 }
    (filled keyFunctions [.script [0x51]]).signSignature signer
      (payToScriptHash (writeHash160 (toScriptHash keyFunctions [0x51]))) txTo 0 1 = some (false, txTo) :=
  signSignature_scriptHash_unsigned (by decide +kernel) rfl rfl 1

open Libcoin.Small in
/-- A compressed key without its flag is mine and does not sign, and a script that was added is not found. -/
theorem owned_fails :
    (let store := filled keyFunctions [.key loadedKey]
    store.Able signer ∧ ¬Signs signer store []) ∧
      ¬Kept keyFunctions (filled keyFunctions [.script [0x51]]) [[0x51]] := by
  refine ⟨⟨signer_able _, fun signs => ?_⟩, fun kept => ?_⟩
  · have faithful := faithful_of_signs (signer_able _) signs
    have stored : (filled keyFunctions [.key loadedKey]).keys[keyFunctions.toPubKeyHash
        (keyFunctions.i2o (secretOf 1) true)]? = some (secretOf 1, false) := by
      rw [filled_lookup]
      rfl
    exact absurd (faithful _ _ stored) (by decide +kernel)
  · have found := kept [0x51] (List.mem_singleton_self _)
    rw [filled_getScript (by decide +kernel)] at found
    cases found

open Libcoin.Small in
/-- A key of each form. -/
theorem owned_exact_twoKeys :
    Signs signer (filled keyFunctions [.key (CKey.of (secretOf 1) true), .key (CKey.of (secretOf 2) false)]) [] ∧
      Kept keyFunctions (filled keyFunctions [.key (CKey.of (secretOf 1) true), .key (CKey.of (secretOf 2) false)])
        [] := by
  refine (@owned_exact signer [.key (CKey.of (secretOf 1) true), .key (CKey.of (secretOf 2) false)] (signer_able _)
    nofun).mpr ⟨matched_of_flags ?_, rfl⟩
  intro key member
  simp only [List.mem_cons, Deed.key.injEq, List.not_mem_nil, or_false] at member
  rcases member with rfl | rfl <;> rfl

end BasicKeyStore

end Libcoin
