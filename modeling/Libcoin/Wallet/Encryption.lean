/-
Encrypting the keys of a wallet.

* `Filled` is a store together with the keys that were added to it: for each address the last one.
* `Keeps` says that the store gives back what was added, and that it can be unlocked. `Encrypted` is the invariant
  behind it.
-/

import Libcoin.Library.Run
import Libcoin.Wallet.KeyStore

namespace Libcoin

open Exec
open Run (AlongStates AlongSteps)

namespace CryptoKeyStore

/-- A store, and the keys that were added to it. -/
structure Filled where
  store : CryptoKeyStore
  added : Map Uint160 (Secret × Bool)

/-- The calls that follow the encryption. -/
inductive Call
  | addKey (secret : Secret) (compressed : Bool)
  | lock
  | unlock

section Calls

variable (fns : KeyFunctions) (m : Data)

/-- A key is offered, and counts if it is added. -/
def Filled.offer (s : Filled) (secret : Secret) (compressed : Bool) : Filled :=
  match CryptoKeyStore.addKey fns (CKey.of secret compressed) s.store with
  | .ok true store =>
    { store := store, added := s.added.insert (fns.toPubKeyHash (fns.i2o secret compressed)) (secret, compressed) }
  | .ok false store => { s with store := store }
  | .error _ store => { s with store := store }

/-- One call. -/
def Filled.step (s : Filled) : Call → Filled
  | .addKey secret compressed => s.offer fns secret compressed
  | .lock => { s with store := final (CryptoKeyStore.lock s.store) }
  | .unlock => { s with store := final (CryptoKeyStore.unlock fns m s.store) }

/-- The store after the keys are added. -/
def fill (keys : List (Secret × Bool)) : Filled :=
  keys.foldl (fun s key => s.offer fns key.1 key.2) { store := new, added := ∅ }

/-- For every address the store gives the key that was added, and `Unlock` succeeds. -/
structure Keeps (s : Filled) : Prop where
  found : ∀ (address : Uint160) (entry : Secret × Bool), s.added[address]? = some entry →
    s.store.haveKey address = true ∧
    s.store.getPubKey fns address = .ok (some (fns.i2o entry.1 entry.2)) ∧
    (s.store.isLocked = false → s.store.getKey fns address CKey.new = .ok (some (CKey.of entry.1 entry.2)))
  unlocks : ∃ store, CryptoKeyStore.unlock fns m s.store = .ok true store

/-- No key of the store is compressed. -/
def AllPlain (s : Filled) : Prop :=
  ∀ (address : Uint160) (entry : Secret × Bool), s.added[address]? = some entry → entry.2 = false

/-- The call does not add a compressed key. -/
def Plain (s : Filled) (call : Call) : Prop :=
  ∀ secret compressed, call = .addKey secret compressed → s.store.isLocked = false → compressed = false

end Calls

section Encryption

variable {fns : KeyFunctions} {m : Data}

/-- What is stored once the keys are encrypted. -/
structure Encrypted (fns : KeyFunctions) (m : Data) (s : Filled) : Prop where
  crypted : s.store.fUseCrypto = true
  master : s.store.vMasterKey = [] ∨ s.store.vMasterKey = m
  entries : ∀ address : Uint160, s.store.mapCryptedKeys[address]? = s.added[address]?.map (cryptedEntry fns m)

namespace Encrypted

variable {s : Filled} (encrypted : Encrypted fns m s)

include encrypted

/-- An unlocked store has the master key. -/
theorem master_of_unlocked (unlocked : s.store.isLocked = false) : s.store.vMasterKey = m := by
  refine encrypted.master.resolve_left fun empty => ?_
  unfold isLocked at unlocked
  rw [encrypted.crypted, empty] at unlocked
  cases unlocked

theorem haveKey {address : Uint160} {entry : Secret × Bool} (stored : s.added[address]? = some entry) :
    s.store.haveKey address = true := by
  unfold CryptoKeyStore.haveKey
  rw [encrypted.crypted, encrypted.entries, stored]
  rfl

theorem getPubKey {address : Uint160} {entry : Secret × Bool} (stored : s.added[address]? = some entry) :
    s.store.getPubKey fns address = .ok (some (fns.i2o entry.1 entry.2)) := by
  unfold CryptoKeyStore.getPubKey
  rw [encrypted.crypted, encrypted.entries, stored]
  rfl

/-- The key is given back without its flag. -/
theorem getKey (size : m.length = 32) (inverts : ∀ iv
    (secret : Secret), fns.decrypt m iv (fns.encrypt m iv secret.1) =
    secret.1) (unlocked : s.store.isLocked = false) {address : Uint160} {entry : Secret × Bool}
    (stored : s.added[address]? = some entry) :
    s.store.getKey fns address CKey.new = .ok (some (CKey.of entry.1 false)) := by
  unfold CryptoKeyStore.getKey
  have decrypted : decryptSecret fns m (cryptedEntry fns m entry).2 (fns.hash (cryptedEntry fns m entry).1) =
      some entry.1.1 := by
    unfold decryptSecret
    rw [if_pos size]
    exact congrArg some (inverts _ _)
  rw [encrypted.crypted, encrypted.entries, stored, encrypted.master_of_unlocked unlocked, if_neg (by decide),
    Option.map_some]
  dsimp only
  rw [decrypted]
  dsimp only
  rw [CKey.setSecret_ok _ _ rfl]
  rfl

/-- The first entry is the one that is tried. -/
theorem unlocks (size : m.length = 32) (inverts : ∀ iv
    (secret : Secret), fns.decrypt m iv (fns.encrypt m iv secret.1) =
    secret.1) (plain : AllPlain s) :
    CryptoKeyStore.unlock fns m s.store = .ok true { s.store with vMasterKey := m } := by
  refine unlock_crypted encrypted.crypted ?_
  cases first : s.store.mapCryptedKeys.toList with
  | nil => rfl
  | cons head rest =>
    have member : (head.1, head.2) ∈ s.store.mapCryptedKeys.toList := by
      rw [first]
      exact List.mem_cons_self
    have stored := Map.mem_toList.mp member
    rw [encrypted.entries] at stored
    obtain ⟨entry, kept, same⟩ := Option.map_eq_some_iff.mp stored
    have form := plain _ _ kept
    have decrypted : decryptSecret fns m head.2.2 (fns.hash head.2.1) = some entry.1.1 := by
      unfold decryptSecret
      rw [if_pos size, ← same]
      exact congrArg some (inverts _ _)
    unfold CryptoKeyStore.unlocks
    dsimp only
    rw [decrypted]
    dsimp only
    rw [CKey.setSecret_ok _ _ rfl, ok_bind, CKey.getPubKey_of, ok_bind, ← same]
    show Except.ok (decide (fns.i2o entry.1 false = fns.i2o entry.1 entry.2)) = _
    rw [form, decide_eq_true rfl]

/-- **With keys that are not compressed** everything is kept. -/
theorem keeps (size : m.length = 32) (inverts : ∀ iv (secret : Secret), fns.decrypt m iv (fns.encrypt m iv secret.1) =
    secret.1) (plain : AllPlain s) : Keeps fns m s where
  found address entry stored := by
    refine ⟨encrypted.haveKey stored, encrypted.getPubKey stored, fun unlocked => ?_⟩
    rw [encrypted.getKey size inverts unlocked stored]
    show _ = Except.ok (some (CKey.of entry.1 entry.2))
    rw [plain address entry stored]
  unlocks := ⟨_, encrypted.unlocks size inverts plain⟩

end Encrypted

/-! ### Calls -/

section Steps

variable {s : Filled}

theorem offer_locked (encrypted : Encrypted fns m s) (locked : s.store.isLocked = true) (secret : Secret)
    (compressed : Bool) : s.offer fns secret compressed = s := by
  unfold Filled.offer
  rw [addKey_locked encrypted.crypted locked]

theorem offer_unlocked (size : m.length = 32) (encrypted : Encrypted fns m s) (unlocked : s.store.isLocked = false)
    (secret : Secret) (compressed : Bool) :
    s.offer fns secret compressed =
      { store :=
          { s.store with
            mapCryptedKeys := s.store.mapCryptedKeys.insert (fns.toPubKeyHash (fns.i2o secret compressed))
              (cryptedEntry fns m (secret, compressed)) }
        added := s.added.insert (fns.toPubKeyHash (fns.i2o secret compressed)) (secret, compressed) } := by
  have master := encrypted.master_of_unlocked unlocked
  unfold Filled.offer
  rw [addKey_unlocked encrypted.crypted unlocked (by rw [master]; exact size)]
  dsimp only
  rw [master]

/-- A key that is added to an unlocked store. -/
theorem Encrypted.offer (size : m.length = 32) (encrypted : Encrypted fns m s) (unlocked : s.store.isLocked = false)
    (secret : Secret) (compressed : Bool) : Encrypted fns m (s.offer fns secret compressed) := by
  rw [offer_unlocked size encrypted unlocked]
  refine ⟨encrypted.crypted, encrypted.master, fun address => ?_⟩
  dsimp only
  rw [Map.lookup_insert, Map.lookup_insert]
  by_cases same : fns.toPubKeyHash (fns.i2o secret compressed) = address
  · rw [if_pos same, if_pos same]
    rfl
  · rw [if_neg same, if_neg same]
    exact encrypted.entries address

theorem Encrypted.step (size : m.length = 32) (inverts : ∀ iv (secret : Secret),
    fns.decrypt m iv (fns.encrypt m iv secret.1) = secret.1) (encrypted : Encrypted fns m s) (plain : AllPlain s)
    (call : Call) : Encrypted fns m (s.step fns m call) := by
  cases call with
  | addKey secret compressed =>
    show Encrypted fns m (s.offer fns secret compressed)
    cases locked : s.store.isLocked with
    | true =>
      rw [offer_locked encrypted locked]
      exact encrypted
    | false => exact encrypted.offer size locked secret compressed
  | lock =>
    unfold Filled.step
    dsimp only
    rw [lock_crypted encrypted.crypted]
    exact ⟨encrypted.crypted, .inl rfl, encrypted.entries⟩
  | unlock =>
    unfold Filled.step
    dsimp only
    rw [encrypted.unlocks size inverts plain]
    exact ⟨encrypted.crypted, .inr rfl, encrypted.entries⟩

theorem AllPlain.step (size : m.length = 32) (encrypted : Encrypted fns m s) (plain : AllPlain s) {call : Call}
    (calls : Plain s call) : AllPlain (s.step fns m call) := by
  cases call with
  | addKey secret compressed =>
    show AllPlain (s.offer fns secret compressed)
    cases locked : s.store.isLocked with
    | true =>
      rw [offer_locked encrypted locked]
      exact plain
    | false =>
      rw [offer_unlocked size encrypted locked]
      intro address entry stored
      rcases Map.lookup_of_insert stored with ⟨-, rfl⟩ | old
      · exact calls secret compressed rfl locked
      · exact plain address entry old
  | lock => exact plain
  | unlock => exact plain

/-- A compressed key that is added is not given back. -/
theorem not_keeps_compressed (size : m.length = 32) (inverts : ∀ iv (secret : Secret),
    fns.decrypt m iv (fns.encrypt m iv secret.1) = secret.1) (encrypted : Encrypted fns m s)
    (unlocked : s.store.isLocked = false) (secret : Secret) :
    ¬Keeps fns m (s.step fns m (.addKey secret true)) := by
  intro keeps
  have after : Encrypted fns m (s.offer fns secret true) := encrypted.offer size unlocked secret true
  have stays : (s.offer fns secret true).store.isLocked = false := by
    rw [offer_unlocked size encrypted unlocked]
    exact unlocked
  have stored : (s.offer fns secret true).added[fns.toPubKeyHash (fns.i2o secret true)]? = some (secret, true) := by
    rw [offer_unlocked size encrypted unlocked]
    exact Map.lookup_insert_self _ _ _
  have wanted := (keeps.found _ _ stored).2.2 stays
  have given := after.getKey size inverts stays stored
  have flags := congrArg (Option.map CKey.fCompressedPubKey) (Except.ok.inj (wanted.symm.trans given))
  cases flags

/-- **A run** keeps the keys exactly when it adds no compressed one. -/
theorem keeps_run (size : m.length = 32) (inverts : ∀ iv (secret : Secret),
    fns.decrypt m iv (fns.encrypt m iv secret.1) = secret.1) (encrypted : Encrypted fns m s) (plain : AllPlain s)
    (calls : List Call) :
    AlongStates (Filled.step fns m) (Keeps fns m) s calls ↔ AlongSteps (Filled.step fns m) Plain s calls := by
  induction calls generalizing s with
  | nil => exact iff_of_true (encrypted.keeps size inverts plain) trivial
  | cons call calls ih =>
    have now := encrypted.keeps size inverts plain
    by_cases fits : Plain s call
    · have rest := ih (encrypted.step size inverts plain call) (plain.step size encrypted fits)
      exact ⟨fun along => ⟨fits, rest.mp along.2⟩, fun along => ⟨now, rest.mpr along.2⟩⟩
    · refine iff_of_false (fun along => ?_) fun along => fits along.1
      unfold Plain at fits
      push Not at fits
      obtain ⟨secret, compressed, rfl, unlocked, flag⟩ := fits
      obtain rfl : compressed = true := Bool.eq_true_of_not_eq_false flag
      exact not_keeps_compressed size inverts encrypted unlocked secret along.2.first

end Steps

/-! ### The encryption -/

/-- The entries that the loop writes. -/
def plainEntry (fns : KeyFunctions) (m : Data) (entry : Uint160 × (Secret × Bool)) : Uint160 × (Data × Data) :=
  (fns.toPubKeyHash (fns.i2o entry.2.1 false), cryptedEntry fns m (entry.2.1, false))

theorem encryptLoop_eq (size : m.length = 32) (entries : List (Uint160 × (Secret × Bool))) {key : CKey}
    (plain : key.fCompressedPubKey = false) {store : CryptoKeyStore} (crypted : store.fUseCrypto = true) :
    encryptLoop fns m entries key store = .ok true
      { store with mapCryptedKeys := Map.insertAll (entries.map (plainEntry fns m)) store.mapCryptedKeys } := by
  induction entries generalizing key store with
  | nil => rfl
  | cons entry entries ih =>
    have encrypts (iv : Uint256) : encryptSecret fns m entry.2.1.1 iv = some (fns.encrypt m iv entry.2.1.1) :=
      if_pos size
    unfold encryptLoop
    rw [CKey.setSecret_ok entry.2.1 false plain, bind_ofExcept_ok, CKey.getPubKey_of, bind_ofExcept_ok,
      CKey.getSecret_of, bind_ofExcept_ok]
    dsimp only
    rw [encrypts]
    dsimp only
    rw [bind_of_ok (addCryptedKey_crypted crypted _ _), if_neg (by decide)]
    exact ih rfl crypted

/-- A store that is not encrypted has the keys that were added. -/
structure Filled.Plainly (fns : KeyFunctions) (s : Filled) : Prop where
  plain : s.store.fUseCrypto = false
  empty : s.store.mapCryptedKeys = ∅
  master : s.store.vMasterKey = []
  keys : s.store.keys = s.added
  addresses : ∀ (address : Uint160) (entry : Secret × Bool), s.added[address]? = some entry →
    address = fns.toPubKeyHash (fns.i2o entry.1 entry.2)

theorem Filled.Plainly.offer {s : Filled} (start : s.Plainly fns) (secret : Secret) (compressed : Bool) :
    (s.offer fns secret compressed).Plainly fns := by
  unfold Filled.offer
  rw [addKey_plain start.plain]
  refine ⟨start.plain, start.empty, start.master, ?_, fun address entry stored => ?_⟩
  · dsimp only
    rw [start.keys]
  · rcases Map.lookup_of_insert stored with ⟨same, rfl⟩ | old
    · exact same
    · exact start.addresses address entry old

theorem fill_plainly (keys : List (Secret × Bool)) : (fill fns keys).Plainly fns := by
  have extend (keys : List (Secret × Bool)) (s : Filled) (start : s.Plainly fns) :
      (keys.foldl (fun s key => s.offer fns key.1 key.2) s).Plainly fns := by
    induction keys generalizing s with
    | nil => exact start
    | cons key keys ih => exact ih _ (start.offer key.1 key.2)
  refine extend keys _ ⟨rfl, rfl, rfl, rfl, fun address entry stored => ?_⟩
  cases (Map.lookup_empty address).symm.trans stored

section Start

variable {s : Filled}

/-- The store after the encryption. -/
def encryptedStore (fns : KeyFunctions) (m : Data) (s : Filled) : CryptoKeyStore :=
  { s.store with
    keys := ∅, mapCryptedKeys := Map.insertAll (s.added.toList.map (plainEntry fns m)) ∅, fUseCrypto := true }

theorem encryptKeys_eq (size : m.length = 32) (start : s.Plainly fns) :
    encryptKeys fns m s.store = .ok true (encryptedStore fns m s) := by
  unfold encryptKeys
  rw [bind_get, if_neg (by rw [start.plain, start.empty]; decide)]
  show ((do
    let done ← encryptLoop fns m s.store.keys.toList CKey.new
    if !done then return false
    else do
      modify fun store => { store with keys := ∅ }
      return true : EStateM String CryptoKeyStore Bool)) { s.store with fUseCrypto := true } = _
  rw [bind_of_ok (encryptLoop_eq size _ rfl rfl), start.keys, start.empty]
  rfl

/-- Keys that are not compressed are stored under their own addresses. -/
theorem encrypted_start (start : s.Plainly fns) (plain : AllPlain s) :
    Encrypted fns m { store := encryptedStore fns m s, added := s.added } := by
  refine ⟨rfl, .inl start.master, fun address => ?_⟩
  have own : s.added.toList.map (plainEntry fns m) = s.added.toList.map fun entry =>
    (entry.1, cryptedEntry fns m entry.2) := by
    refine List.map_congr_left fun entry member => ?_
    have stored := Map.mem_toList.mp member
    have form := plain _ _ stored
    have address := start.addresses _ _ stored
    unfold plainEntry
    rw [address, ← form]
  show (Map.insertAll (s.added.toList.map (plainEntry fns m)) ∅ : Map Uint160 (Data × Data))[address]? = _
  rw [own]
  cases stored : s.added[address]? with
  | none =>
    rw [Map.lookup_insertAll_of_notMem, Map.lookup_empty]
    · rfl
    · intro member
      rw [List.map_map] at member
      have found := Map.mem_toList_fst.mp member
      rw [stored] at found
      cases found
  | some entry =>
    refine Map.lookup_insertAll_of_mem _ _ ?_ (List.mem_map.mpr ⟨(address, entry), Map.mem_toList.mpr stored, rfl⟩)
    rw [List.map_map]
    exact (List.pairwise_map.mpr (Map.toList_sorted s.added)).imp ne_of_lt

/-- **A compressed key** that was there before is lost. -/
theorem not_keeps_start (forms : ∀ secret other, fns.i2o secret true ≠ fns.i2o other false)
    (compressed : ¬AllPlain s) :
    ¬Keeps fns m { store := encryptedStore fns m s, added := s.added } := by
  intro keeps
  unfold AllPlain at compressed
  push Not at compressed
  obtain ⟨address, entry, stored, flag⟩ := compressed
  have wanted := (keeps.found address entry stored).2.1
  have given : (encryptedStore fns m s).getPubKey fns address =
      .ok ((encryptedStore fns m s).mapCryptedKeys[address]?.map Prod.fst) := rfl
  obtain ⟨crypted, found, form⟩ := Option.map_eq_some_iff.mp (Except.ok.inj (given.symm.trans wanted))
  rcases Map.lookup_of_insertAll found with member | nothing
  · obtain ⟨other, -, same⟩ := List.mem_map.mp member
    rw [← congrArg (fun pair : Uint160 × (Data × Data) => pair.2.1) same, Bool.eq_true_of_not_eq_false flag] at form
    exact forms entry.1 other.2.1 form.symm
  · rw [Map.lookup_empty] at nothing
    cases nothing

end Start

/-- **Which keys an encrypted store keeps**: those that are not compressed. -/
theorem keeps_exact (size : m.length = 32)
    (inverts : ∀ iv (secret : Secret), fns.decrypt m iv (fns.encrypt m iv secret.1) = secret.1)
    (forms : ∀ secret other, fns.i2o secret true ≠ fns.i2o other false) (keys : List (Secret × Bool))
    (calls : List Call) :
    ∃ store, encryptKeys fns m (fill fns keys).store = .ok true store ∧
      (AlongStates (Filled.step fns m) (Keeps fns m) { store := store, added := (fill fns keys).added } calls ↔
        AllPlain (fill fns keys) ∧
          AlongSteps (Filled.step fns m) Plain { store := store, added := (fill fns keys).added } calls) := by
  have start : (fill fns keys).Plainly fns := fill_plainly keys
  refine ⟨_, encryptKeys_eq size start, ?_⟩
  by_cases plain : AllPlain (fill fns keys)
  · rw [and_iff_right plain]
    exact keeps_run size inverts (encrypted_start start plain) plain calls
  · exact iff_of_false (fun along => not_keeps_start forms plain along.first) fun both => plain both.1

end Encryption

end CryptoKeyStore

namespace Small

def masterKey : Data := List.replicate 32 7

theorem keyFunctions_inverts (iv : Uint256) (secret : Secret) :
    keyFunctions.decrypt masterKey iv (keyFunctions.encrypt masterKey iv secret.1) = secret.1 := by
  show (secret.1.map _).map _ = _
  rw [List.map_map]
  refine List.map_id'' (fun byte => ?_) secret.1
  show (byte ^^^ _) ^^^ _ = byte
  rw [UInt8.xor_assoc, UInt8.xor_self, UInt8.xor_zero]

end Small

namespace CryptoKeyStore

open Libcoin.Small in
/-- A key from before and one from after. -/
theorem keeps_exact_two :
    ∃ store, encryptKeys keyFunctions masterKey (fill keyFunctions [(secretOf 1, false)]).store = .ok true store ∧
      (AlongStates (Filled.step keyFunctions masterKey) (Keeps keyFunctions masterKey)
          { store := store, added := (fill keyFunctions [(secretOf 1, false)]).added }
          [.unlock, .addKey (secretOf 2) false, .lock, .unlock] ↔
        AllPlain (fill keyFunctions [(secretOf 1, false)]) ∧
          AlongSteps (Filled.step keyFunctions masterKey) Plain
            { store := store, added := (fill keyFunctions [(secretOf 1, false)]).added }
            [.unlock, .addKey (secretOf 2) false, .lock, .unlock]) :=
  keeps_exact rfl keyFunctions_inverts (fun _ _ => nofun) _ _

open Libcoin.Small in
/-- A compressed key is not found after the encryption, and one that is added afterwards stays locked. -/
theorem keeps_not_compressed :
    (∃ store, encryptKeys keyFunctions masterKey (fill keyFunctions [(secretOf 1, true)]).store = .ok true store ∧
      ¬AlongStates (Filled.step keyFunctions masterKey) (Keeps keyFunctions masterKey)
        { store := store, added := (fill keyFunctions [(secretOf 1, true)]).added } [.unlock]) ∧
    ∃ store, encryptKeys keyFunctions masterKey (fill keyFunctions []).store = .ok true store ∧
      ¬AlongStates (Filled.step keyFunctions masterKey) (Keeps keyFunctions masterKey)
        { store := store, added := (fill keyFunctions []).added } [.unlock, .addKey (secretOf 1) true, .lock] := by
  refine ⟨⟨_, encryptKeys_eq rfl (fill_plainly _), fun along => ?_⟩, _, encryptKeys_eq rfl (fill_plainly _),
    fun along => ?_⟩
  · have found := (along.2.first.found _ (secretOf 1, true) (Map.lookup_insert_self ∅ _ _)).1
    exact absurd found (by decide +kernel)
  · obtain ⟨store, unlocked⟩ := along.final.unlocks
    have refused : succeeds (unlock keyFunctions masterKey (Run.final (Filled.step keyFunctions masterKey)
        { store := encryptedStore keyFunctions masterKey (fill keyFunctions [])
          added := (fill keyFunctions []).added } [.unlock, .addKey (secretOf 1) true, .lock]).store)
        (fun done _ => !done) = true := by
      decide +kernel
    obtain ⟨done, store', run, locked⟩ := of_succeeds refused
    rw [run] at unlocked
    cases unlocked
    cases locked

end CryptoKeyStore

end Libcoin
