/-
The key pool of a wallet, and the holders of its keys.

* `Generator` gives the numbers of new keys, one after the other, and says which writes to the wallet file succeed.
* `PoolState` is a wallet with any number of `CReserveKey`s. It also says which key each of them was handed, and which
  keys were kept.
* `Sound` is the invariant: live indices, in the pool or reserved, have records with different keys, none of which was
  kept. `topUpLoop_sound` shows that a refill keeps it, unless it writes to an index that is reserved.
-/

import Libcoin.Library.Run
import Libcoin.Wallet.Encryption
import Mathlib.Data.Finset.Max
import Mathlib.Logic.Relation

namespace Libcoin

open Exec
open Run (AlongStates AlongSteps)

/-- What a `Wallet` has of the key pool: its keys, the records and their indices, and how many numbers were drawn. -/
structure Wallet where
  store : CryptoKeyStore
  fFileBacked : Bool
  pool : Map Int Data
  setKeyPool : Finset Int
  vchDefaultKey : Data
  drawn : Nat

/-- The members of `CReserveKey`. -/
structure CReserveKey where
  nIndex : Int
  vchPubKey : Data

/-- The numbers of new keys in turn, and for each whether its key (`WriteKey`, `WriteCryptedKey`) and its record in the
pool (`WritePool`) are written. -/
structure Generator where
  secret : Nat → Secret
  saved : Nat → Bool
  written : Nat → Bool

namespace Wallet

variable (fns : KeyFunctions) (random : Generator)

/-- `generateNewKey`, with the next number. -/
def generateNewKey : EStateM String Wallet Data := fun w =>
  match CryptoKeyStore.generateNewKey fns (random.secret w.drawn) w.store with
  | .ok vchPubKey store =>
    let after := { w with store := store, drawn := w.drawn + 1 }
    if w.fFileBacked && !random.saved w.drawn then .error "CKeyStore::GenerateNewKey() : AddKey failed" after
    else .ok vchPubKey after
  | .error err store => .error err { w with store := store, drawn := w.drawn + 1 }

/-- The index after the last one of the pool. -/
def nEnd (w : Wallet) : Int :=
  if nonempty : w.setKeyPool.Nonempty then w.setKeyPool.max' nonempty + 1 else 1

/-- The loop of `TopUpKeyPool`, at most as many times as the pool is large. -/
def topUpLoop : Nat → EStateM String Wallet PUnit
  | 0 => return
  | fuel + 1 => do
    let w ← get
    if w.setKeyPool.card < 100 + 1 then do
      let vchPubKey ← generateNewKey fns random
      if !random.written w.drawn then throw "TopUpKeyPool() : writing generated key failed"
      else do
        modify fun after =>
          { after with pool := after.pool.insert w.nEnd vchPubKey, setKeyPool := insert w.nEnd after.setKeyPool }
        topUpLoop fuel
    else return

/-- `TopUpKeyPool`. -/
def topUpKeyPool : EStateM String Wallet Bool := do
  let w ← get
  if w.store.isLocked then return false
  else do
    topUpLoop fns random (100 + 1)
    return true

/-- `ReserveKeyFromKeyPool`. The index is set even if the call throws. -/
def reserveKeyFromKeyPool (w : Wallet) : Wallet × Int × Except String Data :=
  match if w.store.isLocked then EStateM.Result.ok false w else topUpKeyPool fns random w with
  | .error err w => (w, -1, .error err)
  | .ok _ w =>
    if nonempty : w.setKeyPool.Nonempty then
      let nIndex := w.setKeyPool.min' nonempty
      let w := { w with setKeyPool := w.setKeyPool.erase nIndex }
      match w.pool[nIndex]? with
      | none => (w, nIndex, .error "ReserveKeyFromKeyPool() : read failed")
      | some vchPubKey =>
        if !w.store.haveKey (fns.toPubKeyHash vchPubKey) then
          (w, nIndex, .error "ReserveKeyFromKeyPool() : unknown key in key pool")
        else if vchPubKey.isEmpty then (w, nIndex, .error "!keypool.vchPubKey.empty()")
        else (w, nIndex, .ok vchPubKey)
    else (w, -1, .ok [])

/-- `KeepKey`. -/
def keepKey (w : Wallet) (nIndex : Int) : Wallet :=
  if w.fFileBacked then { w with pool := w.pool.erase nIndex } else w

/-- `ReturnKey`. -/
def returnKey (w : Wallet) (nIndex : Int) : Wallet := { w with setKeyPool := insert nIndex w.setKeyPool }

/-- `GetKeyFromPool`: the key, and whether it is another one than the default key. -/
def getKeyFromPool (w : Wallet) (fAllowReuse : Bool) : Wallet × Except String (Option (Data × Bool)) :=
  let (w, nIndex, reserved) := reserveKeyFromKeyPool fns random w
  match reserved with
  | .error err => (w, .error err)
  | .ok vchPubKey =>
    if nIndex = -1 then
      if fAllowReuse && !w.vchDefaultKey.isEmpty then (w, .ok (some (w.vchDefaultKey, false)))
      else if w.store.isLocked then (w, .ok none)
      else
        match generateNewKey fns random w with
        | .ok vchPubKey w => (w, .ok (some (vchPubKey, true)))
        | .error err w => (w, .error err)
    else (w.keepKey nIndex, .ok (some (vchPubKey, true)))

end Wallet

namespace CReserveKey

/-- `CReserveKey(pwallet)`. -/
def new : CReserveKey := { nIndex := -1, vchPubKey := [] }

/-- `GetReservedKey`. -/
def getReservedKey (fns : KeyFunctions) (random : Generator) (key : CReserveKey) (w : Wallet) :
    CReserveKey × Wallet × Except String Data :=
  let asserted (key : CReserveKey) : Except String Data :=
    if key.vchPubKey.isEmpty then .error "!vchPubKey.empty()" else .ok key.vchPubKey
  if key.nIndex = -1 then
    let (w, nIndex, reserved) := w.reserveKeyFromKeyPool fns random
    match reserved with
    | .error err => ({ key with nIndex := nIndex }, w, .error err)
    | .ok vchPubKey =>
      let key := { nIndex := nIndex, vchPubKey := if nIndex ≠ -1 then vchPubKey else w.vchDefaultKey }
      (key, w, asserted key)
  else (key, w, asserted key)

/-- `KeepKey`. -/
def keepKey (key : CReserveKey) (w : Wallet) : CReserveKey × Wallet :=
  (new, if key.nIndex ≠ -1 then w.keepKey key.nIndex else w)

/-- `ReturnKey`, and the destructor. -/
def returnKey (key : CReserveKey) (w : Wallet) : CReserveKey × Wallet :=
  (new, if key.nIndex ≠ -1 then w.returnKey key.nIndex else w)

end CReserveKey

/-! ### Holders -/

/-- A wallet and its holders, the keys that these were handed, and the keys that were kept. A key of the pool comes
with `true`, and the default key with `false`. -/
structure PoolState where
  wallet : Wallet
  holders : Nat → CReserveKey
  handed : Nat → Option (Data × Bool)
  kept : List (Data × Bool)

/-- The calls, the ones of a holder with its number. -/
inductive PoolCall
  | topUpKeyPool
  | getReservedKey (holder : Nat)
  | keepKey (holder : Nat)
  | returnKey (holder : Nat)
  | getKeyFromPool (fAllowReuse : Bool)
  | lock
  | unlock (vMasterKey : Data)

namespace PoolState

/-- A wallet without holders. -/
def start (w : Wallet) : PoolState :=
  { wallet := w, holders := fun _ => CReserveKey.new, handed := fun _ => none, kept := [] }

section Calls

variable (fns : KeyFunctions) (random : Generator)

/-- A holder takes the result of a call. -/
def hold (s : PoolState) (holder : Nat) (result : CReserveKey × Wallet) (handed : Option (Data × Bool)) : PoolState :=
  { s with
    wallet := result.2, holders := Function.update s.holders holder result.1
    handed := Function.update s.handed holder handed }

/-- What a holder has been handed after `GetReservedKey`: a holder with an index gets its key again. -/
def given (s : PoolState) (holder : Nat) (result : CReserveKey × Wallet × Except String Data) :
    Option (Data × Bool) :=
  if (s.holders holder).nIndex ≠ -1 then s.handed holder
  else
    match result.2.2 with
    | .ok vchPubKey => some (vchPubKey, decide (result.1.nIndex ≠ -1))
    | .error _ => s.handed holder

/-- One call. -/
def step (s : PoolState) : PoolCall → PoolState
  | .topUpKeyPool => { s with wallet := final (s.wallet.topUpKeyPool fns random) }
  | .getReservedKey holder =>
    let result := (s.holders holder).getReservedKey fns random s.wallet
    s.hold holder (result.1, result.2.1) (s.given holder result)
  | .keepKey holder =>
    { s.hold holder ((s.holders holder).keepKey s.wallet) none with kept := (s.handed holder).toList ++ s.kept }
  | .returnKey holder => s.hold holder ((s.holders holder).returnKey s.wallet) none
  | .getKeyFromPool fAllowReuse =>
    let result := s.wallet.getKeyFromPool fns random fAllowReuse
    { s with
      wallet := result.1
      kept := (match result.2 with | .ok given => given.toList | .error _ => []) ++ s.kept }
  | .lock => { s with wallet := { s.wallet with store := final (CryptoKeyStore.lock s.wallet.store) } }
  | .unlock vMasterKey =>
    { s with wallet := { s.wallet with store := final (CryptoKeyStore.unlock fns vMasterKey s.wallet.store) } }

end Calls

/-- The index is reserved by a holder. -/
def Reserved (s : PoolState) (nIndex : Int) : Prop := ∃ holder, (s.holders holder).nIndex = nIndex ∧ nIndex ≠ -1

/-- The keys of the pool that were kept. -/
def keptKeys (s : PoolState) : List Data := (s.kept.filter Prod.snd).map Prod.fst

/-- What holds of a key pool: its records are there, no index of it is reserved, and no key of it is kept twice. A key
without an index is the default key. -/
structure Integrity (s : PoolState) : Prop where
  recorded : ∀ nIndex ∈ s.wallet.setKeyPool, s.wallet.pool[nIndex]?.isSome
  apart : ∀ nIndex ∈ s.wallet.setKeyPool, ¬s.Reserved nIndex
  once : s.keptKeys.Nodup
  default : ∀ holder vchPubKey, s.handed holder = some (vchPubKey, false) → vchPubKey = s.wallet.vchDefaultKey

/-- The call refills the pool. -/
def Refills (s : PoolState) : PoolCall → Prop
  | .topUpKeyPool => s.wallet.store.isLocked = false
  | .getReservedKey holder => s.wallet.store.isLocked = false ∧ (s.holders holder).nIndex = -1
  | .getKeyFromPool _ => s.wallet.store.isLocked = false
  | _ => False

/-- A refill writes to no index that is reserved. -/
def Spares (s : PoolState) (call : PoolCall) : Prop :=
  s.Refills call → ∀ nIndex, s.Reserved nIndex →
    ¬(s.wallet.nEnd ≤ nIndex ∧ nIndex < s.wallet.nEnd + (100 + 1 - (s.wallet.setKeyPool.card : Int)))

end PoolState

/-! ### Refills -/

section Refills

variable {fns : KeyFunctions} {random : Generator} {bound : Nat} {w after : Wallet} {reserved : Int → Prop}
  {kept : List Data}

/-- The public key of a number that is drawn. -/
def drawnKey (fns : KeyFunctions) (random : Generator) (n : Nat) : Data := fns.i2o (random.secret n) true

namespace Wallet

/-- A number is drawn, and its key goes to the index after the last one if that is not reserved. -/
def Adds (fns : KeyFunctions) (random : Generator) (reserved : Int → Prop) (w after : Wallet) : Prop :=
  ∃ store, after = { w with store := store, drawn := w.drawn + 1 } ∨
    ¬reserved w.nEnd ∧
      after =
        { w with
          store := store, drawn := w.drawn + 1, pool := w.pool.insert w.nEnd (drawnKey fns random w.drawn)
          setKeyPool := insert w.nEnd w.setKeyPool }

/-- The wallet after any number of such steps. -/
abbrev Refilled (fns : KeyFunctions) (random : Generator) (reserved : Int → Prop) : Wallet → Wallet → Prop :=
  Relation.ReflTransGen (Adds fns random reserved)

theorem Adds.drawn (step : Adds fns random reserved w after) : after.drawn = w.drawn + 1 := by
  obtain ⟨store, rfl | ⟨-, rfl⟩⟩ := step
  · rfl
  · rfl

/-- What `generateNewKey` gives and what it changes. -/
theorem generateNewKey_cases (w : Wallet) :
    ∃ store, generateNewKey fns random w =
        .ok (drawnKey fns random w.drawn) { w with store := store, drawn := w.drawn + 1 } ∨
      ∃ err, generateNewKey fns random w = .error err { w with store := store, drawn := w.drawn + 1 } := by
  unfold generateNewKey
  cases run : CryptoKeyStore.generateNewKey fns (random.secret w.drawn) w.store with
  | error err store => exact ⟨store, .inr ⟨err, rfl⟩⟩
  | ok vchPubKey store =>
    dsimp only
    split
    · exact ⟨store, .inr ⟨_, rfl⟩⟩
    refine ⟨store, .inl ?_⟩
    unfold CryptoKeyStore.generateNewKey at run
    obtain ⟨added, mid, -, run⟩ := bind_ok.mp run
    cases added with
    | false => cases throw_ok.mp run
    | true =>
      cases run
      rfl

theorem lt_nEnd (w : Wallet) : ∀ nIndex ∈ w.setKeyPool, nIndex < w.nEnd := by
  intro nIndex member
  unfold nEnd
  rw [dif_pos ⟨nIndex, member⟩]
  have most := Finset.le_max' _ nIndex member
  omega

theorem nEnd_insert (w : Wallet) (store : CryptoKeyStore) (drawn : Nat) (pool : Map Int Data) :
    nEnd { w with store := store, drawn := drawn, pool := pool, setKeyPool := insert w.nEnd w.setKeyPool } =
      w.nEnd + 1 := by
  have nonempty : (insert w.nEnd w.setKeyPool).Nonempty := Finset.insert_nonempty _ _
  have most : (insert w.nEnd w.setKeyPool).max' nonempty = w.nEnd := by
    refine le_antisymm (Finset.max'_le _ _ _ fun nIndex member =>
      ?_) (Finset.le_max' _ _ (Finset.mem_insert_self _ _))
    rcases Finset.mem_insert.mp member with rfl | old
    · exact le_rfl
    · exact (lt_nEnd w nIndex old).le
  show (if nonempty : (insert w.nEnd w.setKeyPool).Nonempty then (insert w.nEnd w.setKeyPool).max' nonempty + 1 else 1) =
    _
  rw [dif_pos nonempty, most]

/-- **The loop** writes to the indices after the last one, as many as are missing. -/
theorem topUpLoop_refilled (fuel : Nat) (w : Wallet)
    (spares : ∀ nIndex, reserved nIndex →
      ¬(w.nEnd ≤ nIndex ∧ nIndex < w.nEnd + (100 + 1 - (w.setKeyPool.card : Int)))) :
    Refilled fns random reserved w (final (topUpLoop fns random fuel w)) := by
  induction fuel generalizing w with
  | zero => exact .refl
  | succ fuel ih =>
    unfold topUpLoop
    rw [bind_get]
    by_cases small : w.setKeyPool.card < 100 + 1
    · rw [if_pos small]
      obtain ⟨store, run | ⟨err, run⟩⟩ := @generateNewKey_cases fns random w
      · rw [bind_of_ok run]
        split
        · exact .single ⟨store, .inl rfl⟩
        rw [bind_modify]
        have free : ¬reserved w.nEnd := fun taken => spares _ taken ⟨le_rfl, by omega⟩
        refine .head ⟨store, .inr ⟨free, rfl⟩⟩ (ih _ fun nIndex taken => ?_)
        have apart := spares nIndex taken
        have card : (insert w.nEnd w.setKeyPool).card = w.setKeyPool.card + 1 :=
          Finset.card_insert_of_notMem fun member => lt_irrefl _ (lt_nEnd w _ member)
        rw [nEnd_insert]
        dsimp only
        rw [card]
        push_cast
        omega
      · rw [bind_of_error run]
        exact .single ⟨store, .inl rfl⟩
    · rw [if_neg small]
      exact .refl

/-- What `KeepKey` leaves alone. -/
theorem keepKey_frame (w : Wallet) (nIndex : Int) :
    (w.keepKey nIndex).setKeyPool = w.setKeyPool ∧ (w.keepKey nIndex).drawn = w.drawn ∧
      (w.keepKey nIndex).vchDefaultKey = w.vchDefaultKey ∧
      ∀ other : Int, other ≠ nIndex → (w.keepKey nIndex).pool[other]? = w.pool[other]? := by
  unfold keepKey
  split
  · exact ⟨rfl, rfl, rfl, fun other different => Map.lookup_erase_of_ne _ different.symm⟩
  · exact ⟨rfl, rfl, rfl, fun _ _ => rfl⟩

theorem lookup_of_keepKey {nIndex other : Int} {vchPubKey : Data}
    (found : (w.keepKey nIndex).pool[other]? = some vchPubKey) : w.pool[other]? = some vchPubKey := by
  unfold keepKey at found
  split at found
  · exact (Map.lookup_of_erase found).2
  · exact found

/-- What a call of `ReserveKeyFromKeyPool` finds. -/
def refilled (fns : KeyFunctions) (random : Generator) (w : Wallet) : Wallet :=
  if w.store.isLocked then w else final (topUpKeyPool fns random w)

theorem topUpKeyPool_unlocked (unlocked : w.store.isLocked = false) :
    final (topUpKeyPool fns random w) = final (topUpLoop fns random (100 + 1) w) := by
  unfold topUpKeyPool
  rw [bind_get, if_neg (by rw [unlocked]; decide)]
  cases run : topUpLoop fns random (100 + 1) w with
  | ok done after =>
    rw [bind_of_ok run]
    rfl
  | error err after =>
    rw [bind_of_error run]
    rfl

theorem topUpKeyPool_locked (locked : w.store.isLocked = true) : final (topUpKeyPool fns random w) = w := by
  unfold topUpKeyPool
  rw [bind_get, if_pos locked]
  rfl

theorem refilled_of (spares : w.store.isLocked = false → ∀ nIndex, reserved nIndex →
    ¬(w.nEnd ≤ nIndex ∧ nIndex < w.nEnd + (100 + 1 - (w.setKeyPool.card : Int)))) :
    Refilled fns random reserved w (refilled fns random w) := by
  unfold refilled
  cases locked : w.store.isLocked with
  | true => exact .refl
  | false =>
    rw [if_neg (by decide), topUpKeyPool_unlocked locked]
    exact topUpLoop_refilled _ w (spares locked)

/-- **`ReserveKeyFromKeyPool`** takes an index out of the pool, or none. -/
theorem reserve_cases (w : Wallet) :
    ((reserveKeyFromKeyPool fns random w).1 = refilled fns random w ∧ (reserveKeyFromKeyPool fns random w).2.1 = -1) ∨
      ∃ nIndex ∈ (refilled fns random w).setKeyPool,
        (reserveKeyFromKeyPool fns random w).1 =
          { refilled fns random w with setKeyPool := (refilled fns random w).setKeyPool.erase nIndex } ∧
        (reserveKeyFromKeyPool fns random w).2.1 = nIndex ∧
        ∀ vchPubKey, (reserveKeyFromKeyPool fns random w).2.2 = .ok vchPubKey →
          (refilled fns random w).pool[nIndex]? = some vchPubKey := by
  have same : refilled fns random w =
      final (if w.store.isLocked then EStateM.Result.ok false w else topUpKeyPool fns random w) := by
    unfold refilled
    cases w.store.isLocked <;> rfl
  unfold reserveKeyFromKeyPool
  rw [same]
  cases (if w.store.isLocked then EStateM.Result.ok false w else topUpKeyPool fns random w) with
  | error err after => exact .inl ⟨rfl, rfl⟩
  | ok done after =>
    dsimp only [final]
    split
    · rename_i nonempty
      refine .inr ⟨_, Finset.min'_mem _ nonempty, ?_⟩
      split
      · exact ⟨rfl, rfl, nofun⟩
      · rename_i vchPubKey stored
        split
        · exact ⟨rfl, rfl, nofun⟩
        split
        · exact ⟨rfl, rfl, nofun⟩
        · refine ⟨rfl, rfl, fun other given => ?_⟩
          rw [← Except.ok.inj given]
          exact stored
    · exact .inl ⟨rfl, rfl⟩

theorem Refilled.drawn_le (steps : Refilled fns random reserved w after) : w.drawn ≤ after.drawn := by
  induction steps with
  | refl => exact le_rfl
  | tail _ step ih =>
    rw [step.drawn]
    exact ih.trans (Nat.le_succ _)

theorem drawn_le_refilled (fns : KeyFunctions) (random : Generator) (w : Wallet) :
    w.drawn ≤ (refilled fns random w).drawn := by
  have steps : Refilled fns random (fun _ => False) w (refilled fns random w) := refilled_of fun _ _ => False.elim
  exact steps.drawn_le

theorem reserve_drawn (fns : KeyFunctions) (random : Generator) (w : Wallet) :
    (reserveKeyFromKeyPool fns random w).1.drawn = (refilled fns random w).drawn := by
  rcases reserve_cases w with ⟨same, -⟩ | ⟨nIndex, -, same, -⟩
  · rw [same]
  · rw [same]

/-- At least as many numbers are drawn as for a refill. -/
theorem getKeyFromPool_drawn (fns : KeyFunctions) (random : Generator) (w : Wallet) (fAllowReuse : Bool) :
    (refilled fns random w).drawn ≤ (getKeyFromPool fns random w fAllowReuse).1.drawn := by
  rw [← reserve_drawn]
  unfold getKeyFromPool
  obtain ⟨after, nIndex, reserved⟩ := reserveKeyFromKeyPool fns random w
  cases reserved with
  | error err => exact le_rfl
  | ok vchPubKey =>
    dsimp only
    split
    · split
      · exact le_rfl
      split
      · exact le_rfl
      · obtain ⟨store, run | ⟨err, run⟩⟩ := @generateNewKey_cases fns random after
        · rw [run]
          exact Nat.le_succ _
        · rw [run]
          exact Nat.le_succ _
    · exact (after.keepKey_frame nIndex).2.1.ge

end Wallet

/-! ### The invariant -/

/-- An index in the pool or reserved is live. Live indices have records, with different keys, and none of these was
kept or will be drawn. -/
structure Wallet.Sound (fns : KeyFunctions) (random : Generator) (bound : Nat) (w : Wallet)
    (reserved : Int → Prop) (kept : List Data) :
    Prop where
  positive : ∀ nIndex, nIndex ∈ w.setKeyPool ∨ reserved nIndex → 0 < nIndex
  recorded : ∀ nIndex, nIndex ∈ w.setKeyPool ∨ reserved nIndex → w.pool[nIndex]?.isSome
  apart : ∀ nIndex ∈ w.setKeyPool, ¬reserved nIndex
  distinct : ∀ one other vchPubKey, one ∈ w.setKeyPool ∨ reserved one → other ∈ w.setKeyPool ∨ reserved other →
    w.pool[one]? = some vchPubKey → w.pool[other]? = some vchPubKey → one = other
  unkept : ∀ nIndex vchPubKey, nIndex ∈ w.setKeyPool ∨ reserved nIndex → w.pool[nIndex]? = some vchPubKey →
    vchPubKey ∉ kept
  once : kept.Nodup
  undrawn : ∀ n, w.drawn ≤ n → n < bound →
    drawnKey fns random n ∉ kept ∧ ∀ nIndex : Int, w.pool[nIndex]? ≠ some (drawnKey fns random n)

namespace Wallet.Sound

variable (sound : Wallet.Sound fns random bound w reserved kept)

include sound

theorem nEnd_pos : 0 < w.nEnd := by
  unfold Wallet.nEnd
  split
  · rename_i nonempty
    have positive := sound.positive _ (.inl (Finset.max'_mem _ nonempty))
    omega
  · exact Int.one_pos

/-- The keys of a wallet do not matter. -/
theorem store (other : CryptoKeyStore) {drawn : Nat} (later : w.drawn ≤ drawn) :
    Wallet.Sound fns random bound { w with store := other, drawn := drawn } reserved kept :=
  ⟨sound.positive, sound.recorded, sound.apart, sound.distinct, sound.unkept, sound.once,
    fun n more => sound.undrawn n (later.trans more)⟩

/-- **A key that is added** is a new one, under an index that is not live. -/
theorem adds (fresh : Set.InjOn (drawnKey fns random) (Set.Iio bound))
    (step : Wallet.Adds fns random reserved w after)
    (within : after.drawn ≤ bound) : Wallet.Sound fns random bound after reserved kept := by
  obtain ⟨store, rfl | ⟨free, rfl⟩⟩ := step
  · exact sound.store store (Nat.le_succ _)
  · have lookup (nIndex : Int) : (w.pool.insert w.nEnd (drawnKey fns random w.drawn))[nIndex]? =
        if w.nEnd = nIndex then some (drawnKey fns random w.drawn) else w.pool[nIndex]? := Map.lookup_insert _ _ _ _
    have live : ∀ nIndex, nIndex ∈ insert w.nEnd w.setKeyPool ∨ reserved nIndex → w.nEnd ≠ nIndex →
        nIndex ∈ w.setKeyPool ∨ reserved nIndex := by
      rintro nIndex (member | taken) different
      · exact .inl ((Finset.mem_insert.mp member).resolve_left (Ne.symm different))
      · exact .inr taken
    have now := sound.undrawn w.drawn le_rfl within
    refine ⟨fun nIndex alive => ?_, fun nIndex alive => ?_, fun nIndex member taken => ?_,
      fun one other vchPubKey first second left right => ?_, fun nIndex vchPubKey alive stored => ?_, sound.once,
      fun n more small => ⟨(sound.undrawn n (Nat.le_of_succ_le more) small).1, fun nIndex stored => ?_⟩⟩
    · by_cases here : w.nEnd = nIndex
      · exact here ▸ sound.nEnd_pos
      · exact sound.positive nIndex (live nIndex alive here)
    · dsimp only
      rw [lookup]
      split
      · rfl
      · rename_i elsewhere
        exact sound.recorded nIndex (live nIndex alive elsewhere)
    · rcases Finset.mem_insert.mp member with rfl | old
      · exact free taken
      · exact sound.apart nIndex old taken
    · dsimp only at left right
      rw [lookup] at left right
      by_cases here : w.nEnd = one <;> by_cases there : w.nEnd = other
      · exact here.symm.trans there
      · rw [if_pos here] at left
        rw [if_neg there, ← left] at right
        exact absurd right (now.2 other)
      · rw [if_pos there] at right
        rw [if_neg here, ← right] at left
        exact absurd left (now.2 one)
      · rw [if_neg here] at left
        rw [if_neg there] at right
        exact sound.distinct one other vchPubKey (live one first here) (live other second there) left right
    · dsimp only at stored
      rw [lookup] at stored
      by_cases here : w.nEnd = nIndex
      · rw [if_pos here] at stored
        rw [← Option.some.inj stored]
        exact now.1
      · rw [if_neg here] at stored
        exact sound.unkept nIndex vchPubKey (live nIndex alive here) stored
    · dsimp only at stored
      rw [lookup] at stored
      split at stored
      · have same : w.drawn = n := fresh within small (Option.some.inj stored)
        dsimp only at more
        omega
      · exact (sound.undrawn n (Nat.le_of_succ_le more) small).2 nIndex stored

theorem refilled (fresh : Set.InjOn (drawnKey fns random) (Set.Iio bound))
    (steps : Wallet.Refilled fns random reserved w after) (within : after.drawn ≤ bound) :
    Wallet.Sound fns random bound after reserved kept := by
  induction steps with
  | refl => exact sound
  | tail _ step ih =>
    have before := step.drawn
    exact (ih (by omega)).adds fresh step within

/-- Fewer indices are live. -/
theorem less {pool : Finset Int} {fewer : Int → Prop} (sub : ∀ nIndex, nIndex ∈ pool ∨ fewer nIndex →
    nIndex ∈ w.setKeyPool ∨ reserved nIndex) (apart : ∀ nIndex ∈ pool, ¬fewer nIndex) :
    Wallet.Sound fns random bound { w with setKeyPool := pool } fewer kept :=
  ⟨fun nIndex alive => sound.positive nIndex (sub nIndex alive),
    fun nIndex alive => sound.recorded nIndex (sub nIndex alive), apart,
    fun one other vchPubKey first second => sound.distinct one other vchPubKey (sub one first) (sub other second),
    fun nIndex vchPubKey alive => sound.unkept nIndex vchPubKey (sub nIndex alive), sound.once, sound.undrawn⟩

/-- A record may go with an index that is live no longer. -/
theorem drop {nIndex : Int} {fewer : Int → Prop} (sub : ∀ other, fewer other → reserved other)
    (gone : ∀ other, other ∈ w.setKeyPool ∨ fewer other → other ≠ nIndex) :
    Wallet.Sound fns random bound (w.keepKey nIndex) fewer kept := by
  obtain ⟨pool, drawn, -, frame⟩ := w.keepKey_frame nIndex
  have alive : ∀ other, other ∈ (w.keepKey nIndex).setKeyPool ∨ fewer other → other ∈ w.setKeyPool ∨
    reserved other := by
    rw [pool]
    exact fun other => Or.imp_right (sub other)
  refine ⟨fun other live => sound.positive other (alive other live), fun other live => ?_,
    fun other member taken => sound.apart other (pool ▸ member) (sub other taken),
    fun one other key first second left right => sound.distinct one other key (alive one first) (alive other second)
      (Wallet.lookup_of_keepKey left) (Wallet.lookup_of_keepKey right),
    fun other key live found => sound.unkept other key (alive other live) (Wallet.lookup_of_keepKey found),
      sound.once,
    fun n more small => ?_⟩
  · rw [frame other (gone other (pool ▸ live))]
    exact sound.recorded other (alive other live)
  · obtain ⟨notKept, notStored⟩ := sound.undrawn n (drawn ▸ more) small
    exact ⟨notKept, fun other found => notStored other (Wallet.lookup_of_keepKey found)⟩

/-- The key of an index is kept, which is live no longer. -/
theorem keep {nIndex : Int} {vchPubKey : Data} (live : nIndex ∈ w.setKeyPool ∨ reserved nIndex)
    (stored : w.pool[nIndex]? = some vchPubKey) {fewer : Int → Prop} (sub : ∀ other, fewer other → reserved other)
    (gone : ∀ other, other ∈ w.setKeyPool ∨ fewer other → other ≠ nIndex) :
    Wallet.Sound fns random bound (w.keepKey nIndex) fewer (vchPubKey :: kept) := by
  have dropped := sound.drop sub gone
  obtain ⟨pool, drawn, -⟩ := w.keepKey_frame nIndex
  refine ⟨dropped.positive, dropped.recorded, dropped.apart, dropped.distinct, fun other key alive found => ?_,
    List.nodup_cons.mpr ⟨sound.unkept nIndex vchPubKey live stored, sound.once⟩,
    fun n more small => ⟨?_, (dropped.undrawn n more small).2⟩⟩
  · refine List.not_mem_cons_of_ne_of_not_mem ?_ (dropped.unkept other key alive found)
    rintro rfl
    rw [pool] at alive
    exact gone other alive
      (sound.distinct other nIndex key (alive.imp_right (sub other)) live (Wallet.lookup_of_keepKey found) stored)
  · refine List.not_mem_cons_of_ne_of_not_mem ?_ (dropped.undrawn n more small).1
    rintro rfl
    exact (sound.undrawn n (drawn ▸ more) small).2 nIndex stored

/-- A key that is drawn is kept at once. -/
theorem keepDrawn (fresh : Set.InjOn (drawnKey fns random) (Set.Iio bound)) (within : w.drawn < bound)
    (other : CryptoKeyStore) :
    Wallet.Sound fns random bound { w with store := other, drawn := w.drawn + 1 } reserved
      (drawnKey fns random w.drawn :: kept) := by
  have now := sound.undrawn w.drawn le_rfl within
  refine ⟨sound.positive, sound.recorded, sound.apart, sound.distinct, fun nIndex vchPubKey live stored => ?_,
    List.nodup_cons.mpr ⟨now.1, sound.once⟩, fun n more small =>
      ⟨?_, (sound.undrawn n (Nat.le_of_succ_le more) small).2⟩⟩
  · refine List.not_mem_cons_of_ne_of_not_mem ?_ (sound.unkept nIndex vchPubKey live stored)
    rintro rfl
    exact now.2 nIndex stored
  · refine List.not_mem_cons_of_ne_of_not_mem (fun same => ?_) (sound.undrawn n (Nat.le_of_succ_le more) small).1
    have equal : n = w.drawn := fresh small within same
    dsimp only at more
    omega

end Wallet.Sound

/-- What a refill leaves alone. -/
theorem Wallet.Refilled.frame (steps : Wallet.Refilled fns random reserved w after) :
    after.vchDefaultKey = w.vchDefaultKey ∧ ∀ nIndex :
      Int, reserved nIndex → after.pool[nIndex]? = w.pool[nIndex]? := by
  induction steps with
  | refl => exact ⟨rfl, fun _ _ => rfl⟩
  | tail _ step ih =>
    obtain ⟨store, rfl | ⟨free, rfl⟩⟩ := step
    · exact ih
    · refine ⟨ih.1, fun nIndex taken => ?_⟩
      dsimp only
      rw [Map.lookup_insert_of_ne _ _ (by rintro rfl; exact free taken)]
      exact ih.2 nIndex taken

end Refills

/-! ### Runs -/

namespace PoolState

variable {fns : KeyFunctions} {random : Generator} {bound : Nat} {s : PoolState} {w : Wallet}

/-- The invariant of a wallet with its holders. -/
structure Inv (fns : KeyFunctions) (random : Generator) (bound : Nat) (s : PoolState) : Prop where
  sound : Wallet.Sound fns random bound s.wallet s.Reserved s.keptKeys
  single : ∀ one other, (s.holders one).nIndex ≠ -1 → (s.holders one).nIndex = (s.holders other).nIndex → one = other
  handed : ∀ holder vchPubKey, s.handed holder = some (vchPubKey, true) →
    (s.holders holder).nIndex ≠ -1 ∧ s.wallet.pool[(s.holders holder).nIndex]? = some vchPubKey
  default : ∀ holder vchPubKey, s.handed holder = some (vchPubKey, false) → vchPubKey = s.wallet.vchDefaultKey

theorem Inv.integrity (inv : Inv fns random bound s) : s.Integrity :=
  ⟨fun nIndex member => inv.sound.recorded nIndex (.inl member), inv.sound.apart, inv.sound.once, inv.default⟩

section Hold

variable {holder other : Nat} {result : CReserveKey × Wallet} {given : Option (Data × Bool)} {nIndex : Int}

theorem holders_hold_self : (s.hold holder result given).holders holder = result.1 := Function.update_self _ _ _

theorem holders_hold_of_ne (different : other ≠ holder) :
    (s.hold holder result given).holders other = s.holders other :=
  Function.update_of_ne different _ _

theorem handed_hold_self : (s.hold holder result given).handed holder = given := Function.update_self _ _ _

theorem handed_hold_of_ne (different : other ≠ holder) : (s.hold holder result given).handed other = s.handed other :=
  Function.update_of_ne different _ _

/-- What is reserved after a call of one holder: its index, and those of the others. -/
theorem reserved_hold :
    (s.hold holder result given).Reserved nIndex ↔
      nIndex ≠ -1 ∧ (result.1.nIndex = nIndex ∨ ∃ other, other ≠ holder ∧ (s.holders other).nIndex = nIndex) := by
  constructor
  · rintro ⟨other, same, taken⟩
    refine ⟨taken, ?_⟩
    by_cases here : other = holder
    · subst here
      rw [holders_hold_self] at same
      exact .inl same
    · rw [holders_hold_of_ne here] at same
      exact .inr ⟨other, here, same⟩
  · rintro ⟨taken, same | ⟨other, different, same⟩⟩
    · exact ⟨holder, by rw [holders_hold_self]; exact same, taken⟩
    · exact ⟨other, by rw [holders_hold_of_ne different]; exact same, taken⟩

/-- **A holder without an index** gets one, or stays as it is. -/
theorem Inv.take (inv : Inv fns random bound s) (fresh : Set.InjOn (drawnKey fns random) (Set.Iio bound))
    (steps : Wallet.Refilled fns random s.Reserved s.wallet w) (within : w.drawn ≤ bound)
    (idle : (s.holders holder).nIndex = -1)
    {pool : Finset Int} {key : CReserveKey} (now : key.nIndex = -1 ∧ pool = w.setKeyPool ∨
      key.nIndex ∈ w.setKeyPool ∧ pool = w.setKeyPool.erase key.nIndex)
    (given_pool : ∀ vchPubKey, given = some (vchPubKey, true) →
      key.nIndex ≠ -1 ∧ w.pool[key.nIndex]? = some vchPubKey)
    (given_default : ∀ vchPubKey, given = some (vchPubKey, false) → vchPubKey = s.wallet.vchDefaultKey) :
    Inv fns random bound (s.hold holder (key, { w with setKeyPool := pool }) given) := by
  have grown := inv.sound.refilled fresh steps within
  obtain ⟨same_default, frame⟩ := steps.frame
  have others : ∀ other, other ≠ holder → (s.holders other).nIndex ≠ -1 → s.Reserved (s.holders other).nIndex :=
    fun other _ taken => ⟨other, rfl, taken⟩
  have before : ∀ nIndex, (s.hold holder (key, { w with setKeyPool := pool }) given).Reserved nIndex →
      key.nIndex = nIndex ∧ nIndex ≠ -1 ∨ s.Reserved nIndex := by
    intro nIndex taken
    obtain ⟨different, same | ⟨other, -, same⟩⟩ := reserved_hold.mp taken
    · exact .inl ⟨same, different⟩
    · exact .inr ⟨other, same, different⟩
  refine ⟨grown.less (fun nIndex alive => ?_) fun nIndex member taken => ?_, fun one other taken same => ?_,
    fun other vchPubKey handed => ?_, fun other vchPubKey handed => ?_⟩
  · rcases alive with member | taken
    · rcases now with ⟨-, rfl⟩ | ⟨-, rfl⟩
      · exact .inl member
      · exact .inl (Finset.mem_of_mem_erase member)
    · rcases before nIndex taken with ⟨rfl, different⟩ | old
      · rcases now with ⟨none, -⟩ | ⟨member, -⟩
        · exact absurd none different
        · exact .inl member
      · exact .inr old
  · rcases before nIndex taken with ⟨rfl, different⟩ | old
    · rcases now with ⟨none, -⟩ | ⟨-, rfl⟩
      · exact different none
      · exact Finset.notMem_erase _ _ member
    · rcases now with ⟨-, rfl⟩ | ⟨-, rfl⟩
      · exact grown.apart nIndex member old
      · exact grown.apart nIndex (Finset.mem_of_mem_erase member) old
  · by_cases here : one = holder <;> by_cases there : other = holder
    · exact here.trans there.symm
    · subst here
      rw [holders_hold_self] at taken same
      rw [holders_hold_of_ne there] at same
      rcases now with ⟨none, -⟩ | ⟨member, -⟩
      · exact absurd none taken
      · dsimp only at taken same
        exact absurd ⟨other, same.symm, taken⟩ (grown.apart _ member)
    · subst there
      rw [holders_hold_of_ne here] at taken same
      rw [holders_hold_self] at same
      rcases now with ⟨none, -⟩ | ⟨member, -⟩
      · exact absurd (same.trans none) taken
      · dsimp only at same
        exact absurd ⟨one, same, same ▸ taken⟩ (grown.apart _ member)
    · rw [holders_hold_of_ne here] at taken same
      rw [holders_hold_of_ne there] at same
      exact inv.single one other taken same
  · by_cases here : other = holder
    · subst here
      rw [handed_hold_self] at handed
      rw [holders_hold_self]
      exact given_pool vchPubKey handed
    · rw [handed_hold_of_ne here] at handed
      rw [holders_hold_of_ne here]
      obtain ⟨taken, stored⟩ := inv.handed other vchPubKey handed
      exact ⟨taken, (frame _ (others other here taken)).trans stored⟩
  · show vchPubKey = w.vchDefaultKey
    rw [same_default]
    by_cases here : other = holder
    · subst here
      rw [handed_hold_self] at handed
      exact given_default vchPubKey handed
    · rw [handed_hold_of_ne here] at handed
      exact inv.default other vchPubKey handed

/-- What is reserved once a holder has given up its index. -/
theorem reserved_release (inv : Inv fns random bound s)
    (taken : (s.hold holder (CReserveKey.new, w) given).Reserved nIndex) :
    s.Reserved nIndex ∧ nIndex ≠ (s.holders holder).nIndex := by
  obtain ⟨different, same | ⟨other, apart, same⟩⟩ := reserved_hold.mp taken
  · exact absurd same.symm different
  · refine ⟨⟨other, same, different⟩, fun equal => apart ?_⟩
    exact inv.single other holder (by rw [same]; exact different) (by rw [same, equal])

/-- **A holder gives up its index.** -/
theorem Inv.release (inv : Inv fns random bound s) {kept : List (Data × Bool)}
    (sound : Wallet.Sound fns random bound w (s.hold holder (CReserveKey.new, w) none).Reserved
      ((kept.filter Prod.snd).map Prod.fst))
    (frame : ∀ nIndex : Int, nIndex ≠ (s.holders holder).nIndex → w.pool[nIndex]? = s.wallet.pool[nIndex]?)
    (same : w.vchDefaultKey = s.wallet.vchDefaultKey) :
    Inv fns random bound { s.hold holder (CReserveKey.new, w) none with kept := kept } := by
  have idle : ((s.hold holder (CReserveKey.new, w) none).holders holder).nIndex = -1 :=
    congrArg CReserveKey.nIndex holders_hold_self
  have others {other : Nat} (different : other ≠ holder) :
      (s.hold holder (CReserveKey.new, w) none).holders other = s.holders other := holders_hold_of_ne different
  refine ⟨sound, fun one other taken equal => ?_, fun other vchPubKey handed => ?_, fun other vchPubKey handed => ?_⟩
  · dsimp only at taken equal
    have here : one ≠ holder := by
      rintro rfl
      exact taken idle
    have there : other ≠ holder := by
      rintro rfl
      exact taken (equal.trans idle)
    rw [others here] at taken equal
    rw [others there] at equal
    exact inv.single one other taken equal
  · dsimp only at handed ⊢
    by_cases here : other = holder
    · subst here
      rw [handed_hold_self] at handed
      cases handed
    · rw [handed_hold_of_ne here] at handed
      rw [others here]
      obtain ⟨taken, stored⟩ := inv.handed other vchPubKey handed
      refine ⟨taken, (frame _ fun equal => here ?_).trans stored⟩
      exact inv.single other holder taken equal
  · dsimp only at handed ⊢
    by_cases here : other = holder
    · subst here
      rw [handed_hold_self] at handed
      cases handed
    · rw [handed_hold_of_ne here] at handed
      exact (inv.default other vchPubKey handed).trans same.symm

/-- A key that is returned goes back to the pool. -/
theorem Inv.returnKey (inv : Inv fns random bound s) (holder : Nat) :
    Inv fns random bound (s.step fns random (.returnKey holder)) := by
  have kept : ∀ result given, (s.hold holder result given).kept = s.kept := fun _ _ => rfl
  show Inv fns random bound { s.hold holder ((s.holders holder).returnKey s.wallet) none with kept := s.kept }
  unfold CReserveKey.returnKey
  by_cases idle : (s.holders holder).nIndex = -1
  · rw [if_neg (not_not.mpr idle)]
    refine inv.release ?_ (fun _ _ => rfl) rfl
    exact inv.sound.less (fun nIndex => Or.imp_right fun taken => (reserved_release inv taken).1)
      fun nIndex member taken => inv.sound.apart nIndex member (reserved_release inv taken).1
  · rw [if_pos idle]
    refine inv.release ?_ (fun _ _ => rfl) rfl
    refine inv.sound.less (fun nIndex alive => ?_) fun nIndex member taken => ?_
    · rcases alive with member | taken
      · rcases Finset.mem_insert.mp member with rfl | old
        · exact .inr ⟨holder, rfl, idle⟩
        · exact .inl old
      · exact .inr (reserved_release inv taken).1
    · obtain ⟨old, apart⟩ := reserved_release inv taken
      rcases Finset.mem_insert.mp member with rfl | inside
      · exact apart rfl
      · exact inv.sound.apart nIndex inside old

/-- A key that is kept is one that was not kept before. -/
theorem Inv.keepKey (inv : Inv fns random bound s) (holder : Nat) :
    Inv fns random bound (s.step fns random (.keepKey holder)) := by
  show Inv fns random bound
    { s.hold holder ((s.holders holder).keepKey s.wallet) none with kept := (s.handed holder).toList ++ s.kept }
  unfold CReserveKey.keepKey
  have taken (w : Wallet) : ∀ nIndex, (s.hold holder (CReserveKey.new, w) none).Reserved nIndex → s.Reserved nIndex :=
    fun nIndex taken => (reserved_release inv taken).1
  by_cases idle : (s.holders holder).nIndex = -1
  · rw [if_neg (not_not.mpr idle)]
    refine inv.release ?_ (fun _ _ => rfl) rfl
    have plain : (((s.handed holder).toList ++ s.kept).filter Prod.snd).map Prod.fst = s.keptKeys := by
      cases handed : s.handed holder with
      | none => rfl
      | some given =>
        obtain ⟨vchPubKey, isPool⟩ := given
        cases isPool with
        | true => exact absurd idle (inv.handed holder vchPubKey handed).1
        | false => rfl
    rw [plain]
    exact inv.sound.less (fun nIndex => Or.imp_right (taken _ nIndex))
      fun nIndex member reserved => inv.sound.apart nIndex member (taken _ nIndex reserved)
  · rw [if_pos idle]
    have gone : ∀ nIndex, nIndex ∈ s.wallet.setKeyPool ∨
        (s.hold holder (CReserveKey.new, s.wallet.keepKey (s.holders holder).nIndex) none).Reserved nIndex →
        nIndex ≠ (s.holders holder).nIndex := by
      rintro nIndex (member | reserved) rfl
      · exact inv.sound.apart _ member ⟨holder, rfl, idle⟩
      · exact (reserved_release inv reserved).2 rfl
    refine inv.release ?_ (fun nIndex different => ?_) ?_
    · cases handed : s.handed holder with
      | none => exact inv.sound.drop (taken _) gone
      | some given =>
        obtain ⟨vchPubKey, isPool⟩ := given
        cases isPool with
        | true =>
          exact inv.sound.keep (.inr ⟨holder, rfl, idle⟩) (inv.handed holder vchPubKey handed).2 (taken _) gone
        | false => exact inv.sound.drop (taken _) gone
    · exact (s.wallet.keepKey_frame _).2.2.2 nIndex different
    · exact (s.wallet.keepKey_frame _).2.2.1

end Hold

/-- Another wallet, with the same holders. -/
theorem Inv.refill (inv : Inv fns random bound s) (fresh : Set.InjOn (drawnKey fns random) (Set.Iio bound))
    (steps : Wallet.Refilled fns random s.Reserved s.wallet w) (within : w.drawn ≤ bound) :
    Inv fns random bound { s with wallet := w } := by
  obtain ⟨same, frame⟩ := steps.frame
  refine ⟨inv.sound.refilled fresh steps within, inv.single, fun holder vchPubKey handed => ?_,
    fun holder vchPubKey handed => (inv.default holder vchPubKey handed).trans same.symm⟩
  obtain ⟨taken, stored⟩ := inv.handed holder vchPubKey handed
  exact ⟨taken, (frame _ ⟨holder, rfl, taken⟩).trans stored⟩

theorem Inv.withStore (inv : Inv fns random bound s) (store : CryptoKeyStore) :
    Inv fns random bound { s with wallet := { s.wallet with store := store } } :=
  ⟨inv.sound.store store le_rfl, inv.single, inv.handed, inv.default⟩

theorem asserted_ok {err : String} {one other : Data}
    (asserted : (if one.isEmpty then Except.error err else Except.ok one) = Except.ok other) : one = other := by
  split at asserted
  · cases asserted
  · exact Except.ok.inj asserted

/-- What a holder without an index is given: the key of its new index, or the default key. -/
theorem getReservedKey_cases {key : CReserveKey} (idle : key.nIndex = -1) (w : Wallet) :
    (key.getReservedKey fns random w).1.nIndex = (w.reserveKeyFromKeyPool fns random).2.1 ∧
      (key.getReservedKey fns random w).2.1 = (w.reserveKeyFromKeyPool fns random).1 ∧
      ∀ vchPubKey, (key.getReservedKey fns random w).2.2 = .ok vchPubKey →
        ((w.reserveKeyFromKeyPool fns random).2.1 ≠ -1 →
          (w.reserveKeyFromKeyPool fns random).2.2 = .ok vchPubKey) ∧
        ((w.reserveKeyFromKeyPool fns random).2.1 = -1 →
          vchPubKey = (w.reserveKeyFromKeyPool fns random).1.vchDefaultKey) := by
  unfold CReserveKey.getReservedKey
  dsimp only
  rw [if_pos idle]
  obtain ⟨after, nIndex, reserved⟩ := w.reserveKeyFromKeyPool fns random
  cases reserved with
  | error err => exact ⟨rfl, rfl, nofun⟩
  | ok reservedKey =>
    refine ⟨rfl, rfl, fun vchPubKey asserted => ?_⟩
    rw [← asserted_ok asserted]
    exact ⟨fun index => congrArg Except.ok (if_pos index).symm, fun none => if_neg (not_not.mpr none)⟩

theorem given_ok (s : PoolState) {holder : Nat} (idle : (s.holders holder).nIndex = -1) (key : CReserveKey)
    (w : Wallet)
    (vchPubKey : Data) :
    s.given holder (key, w, .ok vchPubKey) = some (vchPubKey, decide (key.nIndex ≠ -1)) :=
  if_neg (not_not.mpr idle)

theorem given_error (s : PoolState) {holder : Nat} (idle : (s.holders holder).nIndex = -1) (key : CReserveKey)
    (w : Wallet) (err : String) : s.given holder (key, w, .error err) = s.handed holder :=
  if_neg (not_not.mpr idle)

/-- A holder asks for a key. -/
theorem Inv.getReservedKey (inv : Inv fns random bound s) (fresh : Set.InjOn (drawnKey fns random) (Set.Iio bound))
    (holder : Nat) (spares : s.Spares (.getReservedKey holder))
    (within : (s.step fns random (.getReservedKey holder)).wallet.drawn ≤ bound) :
    Inv fns random bound (s.step fns random (.getReservedKey holder)) := by
  show Inv fns random bound (s.hold holder (((s.holders holder).getReservedKey fns random s.wallet).1,
    ((s.holders holder).getReservedKey fns random s.wallet).2.1)
    (s.given holder ((s.holders holder).getReservedKey fns random s.wallet)))
  by_cases idle : (s.holders holder).nIndex = -1
  · have steps : Wallet.Refilled fns random s.Reserved s.wallet (Wallet.refilled fns random s.wallet) :=
      Wallet.refilled_of fun unlocked => spares ⟨unlocked, idle⟩
    obtain ⟨index, rest, keys⟩ := @getReservedKey_cases fns random _ idle s.wallet
    have few : (Wallet.refilled fns random s.wallet).drawn ≤ bound := by
      have drawn := Wallet.reserve_drawn fns random s.wallet
      rw [← rest] at drawn
      exact drawn ▸ within
    have positive := (inv.sound.refilled fresh steps few).positive
    generalize (s.holders holder).getReservedKey fns random s.wallet = result at index rest keys
    obtain ⟨key, after, got⟩ := result
    dsimp only at index rest keys
    -- what the holder had before is no key of the pool
    have before : ∀ vchPubKey, s.handed holder ≠ some (vchPubKey, true) :=
      fun vchPubKey handed => (inv.handed holder vchPubKey handed).1 idle
    rcases @Wallet.reserve_cases fns random s.wallet with
      ⟨same, none⟩ | ⟨nIndex, member, same, found, stored⟩
    · rw [same] at rest keys
      rw [none] at index
      subst rest
      refine inv.take fresh steps few idle (.inl ⟨index, rfl⟩) (fun vchPubKey handed => ?_) fun vchPubKey handed => ?_
      · cases got with
        | error err =>
          rw [given_error s idle] at handed
          exact absurd handed (before vchPubKey)
        | ok got =>
          rw [given_ok s idle, index] at handed
          cases handed
      · cases got with
        | error err =>
          rw [given_error s idle] at handed
          exact inv.default holder vchPubKey handed
        | ok got =>
          rw [given_ok s idle] at handed
          obtain ⟨rfl, -⟩ := Prod.mk.inj (Option.some.inj handed)
          rw [(keys got rfl).2 none]
          exact steps.frame.1
    · have taken : nIndex ≠ -1 := by
        have large := positive nIndex (.inl member)
        omega
      rw [found] at index keys
      rw [same] at rest
      subst rest
      refine inv.take fresh steps few idle (.inr ⟨index ▸ member, by rw [index]⟩) (fun vchPubKey handed => ?_)
        fun vchPubKey handed => ?_
      · cases got with
        | error err =>
          rw [given_error s idle] at handed
          exact absurd handed (before vchPubKey)
        | ok got =>
          rw [given_ok s idle] at handed
          obtain ⟨rfl, -⟩ := Prod.mk.inj (Option.some.inj handed)
          rw [index]
          exact ⟨taken, stored got ((keys got rfl).1 taken)⟩
      · cases got with
        | error err =>
          rw [given_error s idle] at handed
          exact inv.default holder vchPubKey handed
        | ok got =>
          rw [given_ok s idle, index, decide_eq_true taken] at handed
          cases handed
  · have given : s.given holder ((s.holders holder).getReservedKey fns random s.wallet) = s.handed holder :=
      if_pos idle
    have still : ((s.holders holder).getReservedKey fns random s.wallet).1 = s.holders holder ∧
        ((s.holders holder).getReservedKey fns random s.wallet).2.1 = s.wallet := by
      unfold CReserveKey.getReservedKey
      dsimp only
      rw [if_neg idle]
      exact ⟨rfl, rfl⟩
    have same : s.hold holder (s.holders holder, s.wallet) (s.handed holder) = s := by
      unfold hold
      rw [Function.update_eq_self, Function.update_eq_self]
    rw [given, still.1, still.2, same]
    exact inv

/-- A key that is taken out of the pool and kept at once. -/
theorem Inv.getKeyFromPool (inv : Inv fns random bound s) (fresh : Set.InjOn (drawnKey fns random) (Set.Iio bound))
    (fAllowReuse : Bool) (spares : s.Spares (.getKeyFromPool fAllowReuse))
    (within : (s.step fns random (.getKeyFromPool fAllowReuse)).wallet.drawn ≤ bound) :
    Inv fns random bound (s.step fns random (.getKeyFromPool fAllowReuse)) := by
  have steps : Wallet.Refilled fns random s.Reserved s.wallet (Wallet.refilled fns random s.wallet) :=
    Wallet.refilled_of spares
  have full := inv.refill fresh steps ((Wallet.getKeyFromPool_drawn fns random s.wallet fAllowReuse).trans within)
  change (s.wallet.getKeyFromPool fns random fAllowReuse).1.drawn ≤ bound at within
  show Inv fns random bound
    { s with
      wallet := (s.wallet.getKeyFromPool fns random fAllowReuse).1
      kept := (match (s.wallet.getKeyFromPool fns random fAllowReuse).2 with
        | .ok given => given.toList
        | .error _ => []) ++ s.kept }
  unfold Wallet.getKeyFromPool at within ⊢
  have cases := @Wallet.reserve_cases fns random s.wallet
  generalize s.wallet.reserveKeyFromKeyPool fns random = result at cases within
  obtain ⟨after, nIndex, reserved⟩ := result
  dsimp only at cases within ⊢
  generalize Wallet.refilled fns random s.wallet = w at full cases
  rcases cases with ⟨rfl, rfl⟩ | ⟨nIndex, member, rfl, rfl, stored⟩
  · cases reserved with
    | error err => exact full
    | ok vchPubKey =>
      dsimp only at within ⊢
      rw [if_pos rfl] at within ⊢
      by_cases reuse : (fAllowReuse && !after.vchDefaultKey.isEmpty) = true
      · rw [if_pos reuse]
        exact ⟨full.sound, full.single, full.handed, full.default⟩
      rw [if_neg reuse] at within ⊢
      by_cases locked : after.store.isLocked = true
      · rw [if_pos locked]
        exact full
      rw [if_neg locked] at within ⊢
      obtain ⟨store, run | ⟨err, run⟩⟩ := @Wallet.generateNewKey_cases fns random after
      · rw [run] at within ⊢
        exact ⟨full.sound.keepDrawn fresh within store, full.single, full.handed, full.default⟩
      · rw [run]
        exact ⟨full.sound.store store (Nat.le_succ _), full.single, full.handed, full.default⟩
  · have live : nIndex ≠ -1 := by
      have large := full.sound.positive nIndex (.inl member)
      omega
    have sub : ∀ other, other ∈ w.setKeyPool.erase nIndex ∨ s.Reserved other →
        other ∈ w.setKeyPool ∨ s.Reserved other := fun other => Or.imp_left Finset.mem_of_mem_erase
    have gone : ∀ other, other ∈ w.setKeyPool.erase nIndex ∨ s.Reserved other → other ≠ nIndex := by
      rintro other (inside | taken) rfl
      · exact Finset.notMem_erase _ _ inside
      · exact full.sound.apart other member taken
    have less := full.sound.less sub fun other inside => full.sound.apart other (Finset.mem_of_mem_erase inside)
    cases reserved with
    | error err => exact ⟨less, full.single, full.handed, full.default⟩
    | ok vchPubKey =>
      dsimp only
      rw [if_neg live]
      have taken : Wallet.Sound fns random bound { w with setKeyPool := w.setKeyPool.erase nIndex }
          (fun other => s.Reserved other ∨ other = nIndex) s.keptKeys := by
        refine full.sound.less (fun other alive => ?_) fun other inside => ?_
        · rcases alive with inside | old | rfl
          · exact .inl (Finset.mem_of_mem_erase inside)
          · exact .inr old
          · exact .inl member
        · rintro (old | rfl)
          · exact full.sound.apart other (Finset.mem_of_mem_erase inside) old
          · exact Finset.notMem_erase _ _ inside
      obtain ⟨-, -, same, frame⟩ := Wallet.keepKey_frame { w with setKeyPool := w.setKeyPool.erase nIndex } nIndex
      refine ⟨taken.keep (.inr (.inr rfl)) (stored vchPubKey rfl) (fun _ => .inl) gone, full.single,
        fun holder key handed => ?_, fun holder key handed => (full.default holder key handed).trans same.symm⟩
      obtain ⟨index, found⟩ := full.handed holder key handed
      refine ⟨index, (frame _ ?_).trans found⟩
      exact gone _ (.inr ⟨holder, rfl, index⟩)

/-- One call keeps the invariant. -/
theorem Inv.step (inv : Inv fns random bound s) (fresh : Set.InjOn (drawnKey fns random) (Set.Iio bound))
    {call : PoolCall} (spares : s.Spares call) (within : (s.step fns random call).wallet.drawn ≤ bound) :
    Inv fns random bound (s.step fns random call) := by
  cases call with
  | topUpKeyPool =>
    refine inv.refill fresh ?_ within
    cases locked : s.wallet.store.isLocked with
    | true => rw [Wallet.topUpKeyPool_locked locked]
    | false =>
      rw [Wallet.topUpKeyPool_unlocked locked]
      exact Wallet.topUpLoop_refilled _ _ (spares locked)
  | getReservedKey holder => exact inv.getReservedKey fresh holder spares within
  | keepKey holder => exact inv.keepKey holder
  | returnKey holder => exact inv.returnKey holder
  | getKeyFromPool fAllowReuse => exact inv.getKeyFromPool fresh fAllowReuse spares within
  | lock => exact inv.withStore _
  | unlock vMasterKey => exact inv.withStore _

/-- Numbers are only drawn. -/
theorem drawn_le_step (s : PoolState) (call : PoolCall) : s.wallet.drawn ≤ (s.step fns random call).wallet.drawn := by
  cases call with
  | topUpKeyPool =>
    show s.wallet.drawn ≤ (final (s.wallet.topUpKeyPool fns random)).drawn
    cases locked : s.wallet.store.isLocked with
    | true => rw [Wallet.topUpKeyPool_locked locked]
    | false =>
      have steps : Wallet.Refilled fns random (fun _ =>
        False) s.wallet (final (s.wallet.topUpKeyPool fns random)) := by
        rw [Wallet.topUpKeyPool_unlocked locked]
        exact Wallet.topUpLoop_refilled _ _ fun _ => False.elim
      exact steps.drawn_le
  | getReservedKey holder =>
    show s.wallet.drawn ≤ ((s.holders holder).getReservedKey fns random s.wallet).2.1.drawn
    by_cases idle : (s.holders holder).nIndex = -1
    · rw [(getReservedKey_cases idle s.wallet).2.1, Wallet.reserve_drawn]
      exact Wallet.drawn_le_refilled _ _ _
    · unfold CReserveKey.getReservedKey
      dsimp only
      rw [if_neg idle]
  | keepKey holder =>
    show s.wallet.drawn ≤ ((s.holders holder).keepKey s.wallet).2.drawn
    unfold CReserveKey.keepKey
    split
    · exact (s.wallet.keepKey_frame _).2.1.ge
    · exact le_rfl
  | returnKey holder =>
    show s.wallet.drawn ≤ ((s.holders holder).returnKey s.wallet).2.drawn
    unfold CReserveKey.returnKey
    split <;> exact le_rfl
  | getKeyFromPool fAllowReuse =>
    exact (Wallet.drawn_le_refilled _ _ _).trans (Wallet.getKeyFromPool_drawn _ _ _ _)
  | lock => exact le_rfl
  | unlock vMasterKey => exact le_rfl

theorem drawn_le_final (s : PoolState) (calls : List PoolCall) :
    s.wallet.drawn ≤ (Run.final (step fns random) s calls).wallet.drawn := by
  induction calls generalizing s with
  | nil => exact le_rfl
  | cons call calls ih => exact (drawn_le_step s call).trans (ih _)

/-- A run keeps the invariant. -/
theorem Inv.run (inv : Inv fns random bound s) (fresh : Set.InjOn (drawnKey fns random) (Set.Iio bound))
    {calls : List PoolCall} (spares : AlongSteps (PoolState.step fns random) Spares s calls)
    (within : (Run.final (PoolState.step fns random) s calls).wallet.drawn ≤ bound) :
    AlongStates (PoolState.step fns random) Integrity s calls := by
  induction calls generalizing s with
  | nil => exact inv.integrity
  | cons call calls ih =>
    have next := inv.step fresh spares.1 ((drawn_le_final _ calls).trans within)
    exact ⟨inv.integrity, ih next spares.2 within⟩

end PoolState

/-- A wallet as it is loaded: its indices are those of its records, and their keys are different ones. -/
structure Wallet.Loaded (fns : KeyFunctions) (random : Generator) (bound : Nat) (w : Wallet) : Prop where
  indices : ∀ nIndex : Int, nIndex ∈ w.setKeyPool ↔ w.pool[nIndex]?.isSome
  positive : ∀ nIndex ∈ w.setKeyPool, 0 < nIndex
  distinct : ∀ (one other : Int) (vchPubKey : Data), w.pool[one]? = some vchPubKey → w.pool[other]? = some vchPubKey →
    one = other
  undrawn : ∀ n, w.drawn ≤ n → n < bound → ∀ nIndex : Int, w.pool[nIndex]? ≠ some (drawnKey fns random n)

namespace PoolState

variable {fns : KeyFunctions} {random : Generator} {bound : Nat} {w : Wallet}

theorem inv_start (loaded : w.Loaded fns random bound) : Inv fns random bound (start w) := by
  have idle : ∀ nIndex, ¬(start w).Reserved nIndex := by
    rintro nIndex ⟨holder, same, taken⟩
    exact taken same.symm
  have alive : ∀ nIndex, nIndex ∈ w.setKeyPool ∨ (start w).Reserved nIndex → nIndex ∈ w.setKeyPool :=
    fun nIndex live => live.resolve_right (idle nIndex)
  refine ⟨⟨fun nIndex live => loaded.positive nIndex (alive nIndex live),
    fun nIndex live => (loaded.indices nIndex).mp (alive nIndex live), fun nIndex _ => idle nIndex,
    fun one other vchPubKey _ _ => loaded.distinct one other vchPubKey, fun _ _ _ _ => List.not_mem_nil,
      List.nodup_nil,
    fun n more small => ⟨List.not_mem_nil, loaded.undrawn n more small⟩⟩, fun one other taken =>
      absurd rfl taken, nofun, nofun⟩

/-- **The integrity of the key pool**, in every run in which no refill writes to an index that is reserved. The
numbers that are drawn in the run give different keys. -/
theorem poolIntegrity (calls : List PoolCall)
    (fresh : Set.InjOn (drawnKey fns random) (Set.Iio (Run.final (step fns random) (start w) calls).wallet.drawn))
    (loaded : w.Loaded fns random (Run.final (step fns random) (start w) calls).wallet.drawn)
    (spares : AlongSteps (step fns random) Spares (start w) calls) :
    AlongStates (step fns random) Integrity (start w) calls :=
  (inv_start loaded).run fresh spares le_rfl

end PoolState

namespace Small

/-- A generator that counts. -/
def counting : Generator where
  secret n := ⟨littleBytes 32 (n + 1), littleBytes_length _ _⟩
  saved _ := true
  written _ := true

/-- A store with an uncompressed key, with which it can be unlocked, and the first key of the generator. -/
def lockedStore : CryptoKeyStore :=
  { CryptoKeyStore.new with
    fUseCrypto := true
    mapCryptedKeys :=
      Map.insertAll ([(secretOf 0, false), (counting.secret 0, true)].map fun key =>
        (keyFunctions.toPubKeyHash (keyFunctions.i2o key.1 key.2),
          CryptoKeyStore.cryptedEntry keyFunctions masterKey key)) ∅ }

/-- A wallet with one key in its pool. -/
def lockedWallet : Wallet where
  store := lockedStore
  fFileBacked := true
  pool := (∅ : Map Int Data).insert 1 (drawnKey keyFunctions counting 0)
  setKeyPool := {1}
  vchDefaultKey := [4]
  drawn := 1

/-- A wallet without keys. -/
def newWallet : Wallet where
  store := CryptoKeyStore.new
  fFileBacked := true
  pool := ∅
  setKeyPool := ∅
  vchDefaultKey := []
  drawn := 0

end Small

namespace PoolState

open Libcoin.Small

theorem drawnKey_counting_injOn : Set.InjOn (drawnKey keyFunctions counting) (Set.Iio 102) := by
  intro one small other less same
  have bytes : littleBytes 32 (one + 1) = littleBytes 32 (other + 1) := (List.cons.inj same).2
  have fits {n : Nat} (few : n < 102) : n + 1 < 256 ^ 32 := (Nat.succ_lt_succ few).trans (by norm_num)
  have equal := congrArg littleEndian bytes
  rw [littleEndian_littleBytes (fits small), littleEndian_littleBytes (fits less)] at equal
  exact Nat.succ.inj equal

/-- Two keys of a new wallet are reserved, one is returned before a refill, and the other one is kept. -/
theorem poolIntegrity_newWallet :
    AlongStates (step keyFunctions counting) Integrity (start newWallet)
      [.getReservedKey 0, .getReservedKey 1, .returnKey 0, .topUpKeyPool, .keepKey 1] := by
  let first := (start newWallet).step keyFunctions counting (.getReservedKey 0)
  let second := first.step keyFunctions counting (.getReservedKey 1)
  let third := second.step keyFunctions counting (.returnKey 0)
  have drawn : (Run.final (step keyFunctions counting) (start newWallet)
      [.getReservedKey 0, .getReservedKey 1, .returnKey 0, .topUpKeyPool, .keepKey 1]).wallet.drawn = 102 := by
    decide +kernel
  have indices : (first.holders 0).nIndex = 1 ∧ first.wallet.nEnd = 102 ∧ (third.holders 0).nIndex = -1 ∧
      (third.holders 1).nIndex = 2 ∧ third.wallet.nEnd = 103 := by
    decide +kernel
  obtain ⟨one, after, none, two, later⟩ := indices
  refine poolIntegrity _ ?_ ⟨?_, fun nIndex member => ?_, ?_, ?_⟩
    ⟨?_, ?_, fun refills => refills.elim, ?_, fun refills => refills.elim, trivial⟩
  · rw [drawn]
    exact drawnKey_counting_injOn
  · intro nIndex
    rw [show newWallet.pool = ∅ from rfl, Map.lookup_empty]
    exact ⟨nofun, nofun⟩
  · cases member
  · intro one other vchPubKey stored
    cases (Map.lookup_empty one).symm.trans stored
  · intro n _ _ nIndex stored
    cases (Map.lookup_empty nIndex).symm.trans stored
  · rintro - nIndex ⟨holder, same, taken⟩
    exact absurd same.symm taken
  · -- the index of the first holder is below the end
    rintro - nIndex ⟨holder, same, taken⟩ ⟨least, -⟩
    have same : (first.holders holder).nIndex = nIndex := same
    have least : first.wallet.nEnd ≤ nIndex := least
    by_cases own : holder = 0
    · subst own
      omega
    · rw [show first.holders holder = CReserveKey.new from Function.update_of_ne own ..] at same
      exact taken same.symm
  · rintro - nIndex ⟨holder, same, taken⟩ ⟨least, -⟩
    have same : (third.holders holder).nIndex = nIndex := same
    have least : third.wallet.nEnd ≤ nIndex := least
    by_cases own : holder = 0
    · subst own
      omega
    by_cases other : holder = 1
    · subst other
      omega
    · have idle : third.holders holder = CReserveKey.new :=
        (Function.update_of_ne own ..).trans ((Function.update_of_ne other ..).trans (Function.update_of_ne own ..))
      rw [idle] at same
      exact taken same.symm

/-- Two holders keep the default key when the pool is empty, and a refill of a pool that ran empty begins with the
index that is reserved. -/
theorem not_poolIntegrity :
    ¬((Run.final (step keyFunctions counting) (start lockedWallet)
        [.getReservedKey 0, .getReservedKey 1, .getReservedKey 2, .keepKey 1, .keepKey 2]).kept.map Prod.fst).Nodup ∧
      ¬AlongStates (step keyFunctions counting) Integrity (start lockedWallet)
        [.getReservedKey 0, .unlock masterKey, .topUpKeyPool] := by
  refine ⟨by decide +kernel, fun along => ?_⟩
  refine along.final.apart 1 ?_ ⟨0, ?_, by decide⟩
  · decide +kernel
  · decide +kernel

end PoolState

end Libcoin
