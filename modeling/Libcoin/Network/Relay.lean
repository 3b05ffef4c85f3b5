/-
The relay of inventories to a peer.

* `Peer` has what is queued for a peer, what it is known to have, and what was pushed into its send buffer.
* `Flushes` is what the loops of `trickle` and `broadcast` do: they announce inventories that were unknown, each of
  them once, and these become known.
* `trickle` erases what it went through by a list of indices, whose counter stands still at a known entry. None of them
  is above its own place in the list (`trickleLoop_indices`), so each erasure is in range and nothing is left.
-/

import Libcoin.BlockChain.Requests
import Libcoin.Library.Exec

namespace Libcoin

open Exec

/-- What `PushMessage` writes to the send buffer. -/
inductive PeerMessage (Endpoint : Type)
  | addr (vAddr : List Endpoint)
  | inv (vInv : List Inventory)

/-- The inventories that a message announces. -/
def PeerMessage.invs {Endpoint : Type} : PeerMessage Endpoint → List Inventory
  | .addr _ => []
  | .inv vInv => vInv

/-- How many entries a message has. -/
def PeerMessage.size {Endpoint : Type} : PeerMessage Endpoint → Nat
  | .addr vAddr => vAddr.length
  | .inv vInv => vInv.length

structure Peer (Endpoint : Type) where
  endpointBuffer : List Endpoint
  knownEndpoints : Finset Endpoint
  knownInventory : Finset Inventory
  vInventoryToSend : List Inventory
  send : List (PeerMessage Endpoint)

/-- `vector::erase` at an index, which must be in range. -/
def eraseAt {A : Type} (queue : List A) (r : Nat) : Except Fault (List A) :=
  if r < queue.length then .ok (queue.eraseIdx r) else .error .undefined

namespace Peer

variable {Endpoint : Type}

section Source

variable [DecidableEq Endpoint]

/-- A peer that was constructed. -/
def fresh : Peer Endpoint :=
  { endpointBuffer := [], knownEndpoints := ∅, knownInventory := ∅, vInventoryToSend := [], send := [] }

def pushMessage (message : PeerMessage Endpoint) (peer : Peer Endpoint) : Peer Endpoint :=
  { peer with send := peer.send ++ [message] }

/-- The receiver rejects messages larger than 1000. -/
def pushFull {A : Type} (message : List A → PeerMessage Endpoint) (entries : List A) (peer : Peer Endpoint) :
    List A × Peer Endpoint :=
  if 1000 ≤ entries.length then ([], peer.pushMessage (message entries)) else (entries, peer)

def pushRest {A : Type} (message : List A → PeerMessage Endpoint) (entries : List A) (peer : Peer Endpoint) :
    Peer Endpoint :=
  if entries.isEmpty then peer else peer.pushMessage (message entries)

/-- The loop of `trickle` over the endpoints, and what comes after it. -/
def addrLoop : List Endpoint → List Endpoint → Peer Endpoint → Peer Endpoint
  | [], vAddr, peer => pushRest .addr vAddr { peer with endpointBuffer := [] }
  | addr :: addrs, vAddr, peer =>
    if addr ∈ peer.knownEndpoints then addrLoop addrs vAddr peer
    else
      let next := pushFull .addr (vAddr ++ [addr]) { peer with knownEndpoints := insert addr peer.knownEndpoints }
      addrLoop addrs next.1 next.2

/-- An inventory goes into the set and into the message, if it wasn't already contained in the set. -/
def announce (inv : Inventory) (vInv : List Inventory) (peer : Peer Endpoint) : List Inventory × Peer Endpoint :=
  if inv ∈ peer.knownInventory then (vInv, peer)
  else pushFull .inv (vInv ++ [inv]) { peer with knownInventory := insert inv peer.knownInventory }

/-- The loop of `trickle` over the inventories, with its counter and the indices to be erased. -/
def trickleLoop : List Inventory → Nat → List Nat → List Inventory → Peer Endpoint → List Nat × Peer Endpoint
  | [], _, sent, vInv, peer => (sent, pushRest .inv vInv peer)
  | inv :: invs, i, sent, vInv, peer =>
    if inv ∈ peer.knownInventory then trickleLoop invs i (sent ++ [i]) vInv peer
    else
      let next := announce inv vInv peer
      trickleLoop invs (i + 1) (sent ++ [i]) next.1 next.2

def trickle (peer : Peer Endpoint) : Except Fault (Peer Endpoint) := do
  let peer := addrLoop peer.endpointBuffer [] peer
  let done := trickleLoop peer.vInventoryToSend 0 [] [] peer
  let vInventoryToSend ← done.1.reverse.foldlM eraseAt done.2.vInventoryToSend
  return { done.2 with vInventoryToSend := vInventoryToSend }

variable (hash : Uint256 → Uint256)

/-- `fTrickleWait`: a specific quarter of the transactions, by their hashes, is sent to all peers immediately. -/
def fTrickleWait (hashSalt : Uint256) (inv : Inventory) : Bool := decide (hash (inv.hash ^^^ hashSalt) &&& 3 ≠ 0)

/-- The loop of `broadcast`, and what comes after it. The salt is drawn with `RAND_bytes` when it is zero. -/
def broadcastLoop (draw : Nat → Uint256) :
    List Inventory → Nat → Uint256 → List Inventory → List Inventory → Peer Endpoint → Peer Endpoint
  | [], _, _, vInvWait, vInv, peer => pushRest .inv vInv { peer with vInventoryToSend := vInvWait }
  | inv :: invs, k, hashSalt, vInvWait, vInv, peer =>
    if inv ∈ peer.knownInventory then broadcastLoop draw invs (k + 1) hashSalt vInvWait vInv peer
    else
      let hashSalt := if inv.type = .txn ∧ hashSalt = 0 then draw k else hashSalt
      if inv.type = .txn ∧ fTrickleWait hash hashSalt inv then
        broadcastLoop draw invs (k + 1) hashSalt (vInvWait ++ [inv]) vInv peer
      else
        let next := announce inv vInv peer
        broadcastLoop draw invs (k + 1) hashSalt vInvWait next.1 next.2

/-- `broadcast`. All peers share the salt. -/
def broadcast (hashSalt : Uint256) (draw : Nat → Uint256) (peer : Peer Endpoint) : Peer Endpoint :=
  broadcastLoop hash draw peer.vInventoryToSend 0 hashSalt [] [] peer

def addInventoryKnown (inv : Inventory) (peer : Peer Endpoint) : Peer Endpoint :=
  { peer with knownInventory := insert inv peer.knownInventory }

/-- `push` of an inventory. Flushing the send buffer does not change what was pushed into it. -/
def push (inv : Inventory) (force : Bool) (peer : Peer Endpoint) : Peer Endpoint :=
  if force ∨ inv ∉ peer.knownInventory then { peer with vInventoryToSend := peer.vInventoryToSend ++ [inv] }
  else peer

def addAddressKnown (addr : Endpoint) (peer : Peer Endpoint) : Peer Endpoint :=
  { peer with knownEndpoints := insert addr peer.knownEndpoints }

/-- `PushAddress`, of an endpoint that is valid. -/
def pushAddress (addr : Endpoint) (peer : Peer Endpoint) : Peer Endpoint :=
  if addr ∉ peer.knownEndpoints then { peer with endpointBuffer := peer.endpointBuffer ++ [addr] } else peer

end Source

/-! ### Runs -/

inductive Action (Endpoint : Type)
  | push (inv : Inventory) (force : Bool)
  | addInventoryKnown (inv : Inventory)
  | trickle
  | broadcast (hashSalt : Uint256) (draw : Nat → Uint256)
  | addAddressKnown (addr : Endpoint)
  | pushAddress (addr : Endpoint)

section Steps

variable [DecidableEq Endpoint] (hash : Uint256 → Uint256)

def step (peer : Peer Endpoint) : Action Endpoint → Except Fault (Peer Endpoint)
  | .push inv force => .ok (peer.push inv force)
  | .addInventoryKnown inv => .ok (peer.addInventoryKnown inv)
  | .trickle => peer.trickle
  | .broadcast hashSalt draw => .ok (peer.broadcast hash hashSalt draw)
  | .addAddressKnown addr => .ok (peer.addAddressKnown addr)
  | .pushAddress addr => .ok (peer.pushAddress addr)

def run (peer : Peer Endpoint) (actions : List (Action Endpoint)) : Except Fault (Peer Endpoint) :=
  actions.foldlM (step hash) peer

end Steps

/-- What was announced, in one message after the other. -/
def announced (peer : Peer Endpoint) : List Inventory := peer.send.flatMap PeerMessage.invs

/-- No message has more than 1000 entries. -/
def Bounded (peer : Peer Endpoint) : Prop := ∀ message ∈ peer.send, message.size ≤ 1000

/-- The inventories that the peer made known, and those that are pushed. -/
def Action.told : Action Endpoint → List Inventory
  | .addInventoryKnown inv => [inv]
  | _ => []

def Action.pushed : Action Endpoint → List Inventory
  | .push inv _ => [inv]
  | _ => []

/-- `new` was announced or waits in the message that is being filled, and `told` was made known. -/
structure Flushes (told new vInv : List Inventory) (peer : Peer Endpoint) (vInv' : List Inventory)
    (peer' : Peer Endpoint) : Prop where
  announced : peer'.announced ++ vInv' = peer.announced ++ vInv ++ new
  nodup : new.Nodup
  unknown : ∀ inv ∈ new, inv ∉ peer.knownInventory
  known : ∀ inv, inv ∈ peer'.knownInventory ↔ inv ∈ peer.knownInventory ∨ inv ∈ new ∨ inv ∈ told
  bounded : peer.Bounded → vInv.length < 1000 → peer'.Bounded ∧ vInv'.length < 1000

variable {peer peer' peer'' : Peer Endpoint} {told told' new new' vInv vInv' vInv'' : List Inventory}

theorem Flushes.mono (flushes : Flushes told new vInv peer vInv' peer') {inv : Inventory}
    (known : inv ∈ peer.knownInventory) : inv ∈ peer'.knownInventory :=
  (flushes.known inv).mpr (.inl known)

/-- What is announced later was still unknown, so it is not what was announced before. -/
theorem Flushes.trans (first : Flushes told new vInv peer vInv' peer')
    (second : Flushes told' new' vInv' peer' vInv'' peer'') :
    Flushes (told ++ told') (new ++ new') vInv peer vInv'' peer'' where
  announced := by rw [second.announced, first.announced, List.append_assoc]
  nodup := by
    rw [List.nodup_append]
    refine ⟨first.nodup, second.nodup, ?_⟩
    rintro inv early other late rfl
    exact second.unknown inv late ((first.known inv).mpr (.inr (.inl early)))
  unknown := by
    intro inv member
    rcases List.mem_append.mp member with early | late
    · exact first.unknown inv early
    · exact fun known => second.unknown inv late (first.mono known)
  known := by
    intro inv
    rw [second.known, first.known, List.mem_append, List.mem_append]
    tauto
  bounded := fun small short => (first.bounded small short).elim second.bounded

/-- What does not matter for the inventories may have changed before. -/
theorem Flushes.of_same {other : Peer Endpoint} (flushes : Flushes told new vInv other vInv' peer')
    (send : other.send = peer.send) (known : other.knownInventory = peer.knownInventory) :
    Flushes told new vInv peer vInv' peer' where
  announced := by rw [flushes.announced, Peer.announced, send, Peer.announced]
  nodup := flushes.nodup
  unknown := known ▸ flushes.unknown
  known := known ▸ flushes.known
  bounded := by
    intro small
    refine flushes.bounded ?_
    unfold Bounded
    rwa [send]

theorem Flushes.refl : Flushes [] [] vInv peer vInv peer where
  announced := (List.append_nil _).symm
  nodup := List.nodup_nil
  unknown := List.forall_mem_nil _
  known := by simp
  bounded := And.intro

/-! ### The loops -/

theorem announced_pushMessage (message : PeerMessage Endpoint) :
    (peer.pushMessage message).announced = peer.announced ++ message.invs := by
  simp [announced, pushMessage]

theorem Bounded.pushMessage (small : peer.Bounded) {message : PeerMessage Endpoint} (short : message.size ≤ 1000) :
    (peer.pushMessage message).Bounded := by
  intro other member
  rcases List.mem_append.mp member with early | last
  · exact small other early
  · rwa [List.mem_singleton.mp last]

theorem announce_flushes (vInv : List Inventory) {inv : Inventory} (unknown : inv ∉ peer.knownInventory) :
    Flushes [] [inv] vInv peer (announce inv vInv peer).1 (announce inv vInv peer).2 := by
  unfold announce
  rw [if_neg unknown]
  have known (other : Inventory) : other ∈ insert inv peer.knownInventory ↔
      other ∈ peer.knownInventory ∨ other ∈ [inv] ∨ other ∈ [] := by
    simp [or_comm]
  have single : ∀ other ∈ [inv], other ∉ peer.knownInventory := by simpa using unknown
  unfold pushFull
  split
  · refine ⟨?_, List.nodup_singleton inv, single, known, ?_⟩
    · rw [announced_pushMessage, List.append_nil, List.append_assoc]
      rfl
    · intro small short
      have length : (vInv ++ [inv]).length = vInv.length + 1 := List.length_append
      refine ⟨Bounded.pushMessage small ?_, show 0 < 1000 by decide⟩
      show (vInv ++ [inv]).length ≤ 1000
      omega
  · rename_i short
    refine ⟨(List.append_assoc _ _ _).symm, List.nodup_singleton inv, single, known, ?_⟩
    exact fun small _ => ⟨small, not_le.mp short⟩

theorem pushRest_flushes : Flushes [] [] vInv peer [] (pushRest .inv vInv peer) := by
  unfold pushRest
  split
  · rename_i empty
    rw [List.isEmpty_iff.mp empty]
    exact Flushes.refl
  · refine ⟨?_, List.nodup_nil, List.forall_mem_nil _, by simp [Peer.pushMessage], ?_⟩
    · rw [announced_pushMessage, List.append_nil, List.append_nil]
      rfl
    · exact fun small short => ⟨small.pushMessage short.le, by decide⟩

/-- The endpoints have messages of their own. -/
theorem addrLoop_flushes [DecidableEq Endpoint] (addrs vAddr : List Endpoint) (short : vAddr.length < 1000) (peer : Peer Endpoint) :
    Flushes [] [] [] peer [] (addrLoop addrs vAddr peer) ∧
      (addrLoop addrs vAddr peer).vInventoryToSend = peer.vInventoryToSend := by
  have pushed {peer : Peer Endpoint} (vAddr : List Endpoint) (fits : vAddr.length ≤ 1000) :
      Flushes [] [] [] peer [] (peer.pushMessage (.addr vAddr)) := by
    refine ⟨?_, List.nodup_nil, List.forall_mem_nil _, by simp [Peer.pushMessage], ?_⟩
    · rw [announced_pushMessage]
      rfl
    · exact fun small short => ⟨small.pushMessage fits, short⟩
  induction addrs generalizing vAddr peer with
  | nil =>
    unfold addrLoop pushRest
    split
    · exact ⟨Flushes.refl.of_same rfl rfl, rfl⟩
    · exact ⟨(pushed vAddr short.le).of_same rfl rfl, rfl⟩
  | cons addr addrs ih =>
    unfold addrLoop
    split
    · exact ih vAddr short peer
    · have length : (vAddr ++ [addr]).length = vAddr.length + 1 := List.length_append
      dsimp only
      unfold pushFull
      split
      · obtain ⟨rest, queue⟩ := ih [] (show 0 < 1000 by decide) _
        exact ⟨((pushed (vAddr ++ [addr]) (by omega)).trans rest).of_same rfl rfl, queue⟩
      · rename_i still
        obtain ⟨rest, queue⟩ := ih (vAddr ++ [addr]) (by omega) _
        exact ⟨rest.of_same rfl rfl, queue⟩

theorem pushFull_queue {A : Type} (message : List A → PeerMessage Endpoint) (entries : List A) :
    (pushFull message entries peer).2.vInventoryToSend = peer.vInventoryToSend := by
  unfold pushFull
  split <;> rfl

theorem announce_queue (inv : Inventory) :
    (announce inv vInv peer).2.vInventoryToSend = peer.vInventoryToSend := by
  unfold announce
  split
  · rfl
  · exact pushFull_queue _ _

theorem pushRest_queue {A : Type} (message : List A → PeerMessage Endpoint) (entries : List A) :
    (pushRest message entries peer).vInventoryToSend = peer.vInventoryToSend := by
  unfold pushRest
  split <;> rfl

/-- An index that is to be erased is not above its place in the list of them. -/
def InPlace (sent : List Nat) : Prop := ∀ k r : Nat, sent[k]? = some r → r ≤ k

theorem InPlace.append {sent : List Nat} (inPlace : InPlace sent) {i : Nat} (below : i ≤ sent.length) :
    InPlace (sent ++ [i]) := by
  intro k r found
  rw [List.getElem?_append] at found
  split at found
  · exact inPlace k r found
  · rw [List.getElem?_singleton] at found
    split at found
    · cases found
      omega
    · cases found

/-- The loop keeps an index for each entry, also where its counter stands still. -/
theorem trickleLoop_indices (invs : List Inventory) {i : Nat} {sent : List Nat} (vInv : List Inventory)
    (peer : Peer Endpoint) (below : i ≤ sent.length) (inPlace : InPlace sent) :
    (trickleLoop invs i sent vInv peer).1.length = sent.length + invs.length ∧
      InPlace (trickleLoop invs i sent vInv peer).1 := by
  induction invs generalizing i sent vInv peer with
  | nil => exact ⟨rfl, inPlace⟩
  | cons inv invs ih =>
    have length : (sent ++ [i]).length = sent.length + 1 := List.length_append
    unfold trickleLoop
    rw [List.length_cons]
    dsimp only
    split
    · obtain ⟨count, inPlace'⟩ := ih vInv peer (by omega : i ≤ (sent ++ [i]).length) (inPlace.append below)
      exact ⟨by omega, inPlace'⟩
    · obtain ⟨count, inPlace'⟩ := ih (announce inv vInv peer).1 (announce inv vInv peer).2
        (by omega : i + 1 ≤ (sent ++ [i]).length) (inPlace.append below)
      exact ⟨by omega, inPlace'⟩

/-- Erasing from the back, each index is in range of what is left. -/
theorem eraseAll_eq_nil {A : Type} {sent : List Nat} (inPlace : InPlace sent) {queue : List A}
    (length : queue.length = sent.length) : sent.reverse.foldlM eraseAt queue = .ok [] := by
  induction sent using List.reverseRecOn generalizing queue with
  | nil =>
    rw [List.length_eq_zero_iff.mp length]
    rfl
  | append_singleton sent r ih =>
    have last : r ≤ sent.length := inPlace sent.length r (by simp)
    have before : InPlace sent := by
      intro k r' found
      have inside : k < sent.length := (List.getElem?_eq_some_iff.mp found).1
      exact inPlace k r' (by rw [List.getElem?_append_left inside, found])
    rw [List.length_append, List.length_singleton] at length
    have inRange : r < queue.length := by omega
    rw [List.reverse_append, List.reverse_singleton, List.singleton_append, List.foldlM_cons, eraseAt, if_pos inRange,
      ok_bind]
    refine ih before ?_
    rw [List.length_eraseIdx_of_lt inRange]
    omega

/-- Whatever the loop went through is known. -/
theorem trickleLoop_flushes (invs : List Inventory) (i : Nat) (sent : List Nat) (vInv : List Inventory)
    (peer : Peer Endpoint) :
    (∃ new, Flushes [] new vInv peer [] (trickleLoop invs i sent vInv peer).2) ∧
      (∀ inv ∈ invs, inv ∈ (trickleLoop invs i sent vInv peer).2.knownInventory) ∧
      (trickleLoop invs i sent vInv peer).2.vInventoryToSend = peer.vInventoryToSend := by
  induction invs generalizing i sent vInv peer with
  | nil => exact ⟨⟨[], pushRest_flushes⟩, List.forall_mem_nil _, pushRest_queue _ _⟩
  | cons inv invs ih =>
    unfold trickleLoop
    rw [List.forall_mem_cons]
    split
    · rename_i known
      obtain ⟨⟨new, flushes⟩, all, queue⟩ := ih i (sent ++ [i]) vInv peer
      exact ⟨⟨new, flushes⟩, ⟨flushes.mono known, all⟩, queue⟩
    · rename_i unknown
      have first := announce_flushes vInv unknown
      obtain ⟨⟨new, flushes⟩, all, queue⟩ :=
        ih (i + 1) (sent ++ [i]) (announce inv vInv peer).1 (announce inv vInv peer).2
      have added : inv ∈ (announce inv vInv peer).2.knownInventory :=
        (first.known inv).mpr (.inr (.inl List.mem_cons_self))
      exact ⟨⟨[inv] ++ new, first.trans flushes⟩, ⟨flushes.mono added, all⟩, queue.trans (announce_queue inv)⟩

/-- `trickle` has a result, with nothing left in the queue, and all that was in it is known. -/
theorem trickle_flushes [DecidableEq Endpoint] (peer : Peer Endpoint) :
    ∃ peer' new, peer.trickle = .ok peer' ∧ Flushes [] new [] peer [] peer' ∧ peer'.vInventoryToSend = [] ∧
      ∀ inv ∈ peer.vInventoryToSend, inv ∈ peer'.knownInventory := by
  obtain ⟨first, same⟩ := addrLoop_flushes peer.endpointBuffer [] (show 0 < 1000 by decide) peer
  obtain ⟨⟨new, second⟩, all, queue⟩ := trickleLoop_flushes peer.vInventoryToSend 0 [] []
    (addrLoop peer.endpointBuffer [] peer)
  obtain ⟨length, inPlace⟩ := trickleLoop_indices peer.vInventoryToSend []
    (addrLoop peer.endpointBuffer [] peer) (le_refl [].length) (by simp [InPlace])
  have erased : (trickleLoop peer.vInventoryToSend 0 [] [] (addrLoop peer.endpointBuffer [] peer)).1.reverse.foldlM
      eraseAt peer.vInventoryToSend = .ok [] :=
    eraseAll_eq_nil inPlace (by rw [length]; simp)
  have flushes := first.trans second
  refine ⟨{ (trickleLoop peer.vInventoryToSend 0 [] [] (addrLoop peer.endpointBuffer [] peer)).2 with
    vInventoryToSend := [] }, new, ?_,
    ⟨flushes.announced, flushes.nodup, flushes.unknown, flushes.known, flushes.bounded⟩, rfl, all⟩
  unfold trickle
  simp only [same, queue, erased, ok_bind]
  rfl

section Broadcast

variable (hash : Uint256 → Uint256) (draw : Nat → Uint256)

/-- What the loop went through is known or was put back, and only transactions are put back. -/
theorem broadcastLoop_flushes (invs : List Inventory) (k : Nat) (hashSalt : Uint256) (vInvWait vInv : List Inventory)
    (peer : Peer Endpoint) :
    (∃ new, Flushes [] new vInv peer [] (broadcastLoop hash draw invs k hashSalt vInvWait vInv peer)) ∧
      (∀ inv ∈ invs, inv ∈ (broadcastLoop hash draw invs k hashSalt vInvWait vInv peer).vInventoryToSend ∨
        inv ∈ (broadcastLoop hash draw invs k hashSalt vInvWait vInv peer).knownInventory) ∧
      ∃ more, (broadcastLoop hash draw invs k hashSalt vInvWait vInv peer).vInventoryToSend = vInvWait ++ more ∧
        ∀ inv ∈ more, inv.type = .txn := by
  induction invs generalizing k hashSalt vInvWait vInv peer with
  | nil =>
    refine ⟨⟨[], pushRest_flushes.of_same rfl rfl⟩, List.forall_mem_nil _, [], ?_, List.forall_mem_nil _⟩
    exact (pushRest_queue _ _).trans (List.append_nil _).symm
  | cons inv invs ih =>
    unfold broadcastLoop
    rw [List.forall_mem_cons]
    split
    · rename_i known
      obtain ⟨⟨new, flushes⟩, all, more⟩ := ih (k + 1) hashSalt vInvWait vInv peer
      exact ⟨⟨new, flushes⟩, ⟨.inr (flushes.mono known), all⟩, more⟩
    · rename_i unknown
      dsimp only
      generalize (if inv.type = .txn ∧ hashSalt = 0 then draw k else hashSalt) = hashSalt'
      split
      · rename_i waits
        obtain ⟨⟨new, flushes⟩, all, more, queue, txns⟩ := ih (k + 1) hashSalt' (vInvWait ++ [inv]) vInv peer
        refine ⟨⟨new, flushes⟩, ⟨.inl ?_, all⟩, inv :: more, ?_, List.forall_mem_cons.mpr ⟨waits.1, txns⟩⟩
        · rw [queue]
          simp
        · rw [queue, List.append_assoc, List.singleton_append]
      · have first := announce_flushes vInv unknown
        obtain ⟨⟨new, flushes⟩, all, more⟩ := ih (k + 1) hashSalt' vInvWait (announce inv vInv peer).1
          (announce inv vInv peer).2
        have added : inv ∈ (announce inv vInv peer).2.knownInventory :=
          (first.known inv).mpr (.inr (.inl List.mem_cons_self))
        exact ⟨⟨[inv] ++ new, first.trans flushes⟩, ⟨.inr (flushes.mono added), all⟩, more⟩

theorem broadcast_txns (hashSalt : Uint256) :
    ∀ inv ∈ (peer.broadcast hash hashSalt draw).vInventoryToSend, inv.type = .txn := by
  obtain ⟨-, -, more, queue, txns⟩ := broadcastLoop_flushes hash draw peer.vInventoryToSend 0 hashSalt [] [] peer
  unfold broadcast
  rw [queue]
  exact txns

end Broadcast

/-! ### Runs -/

/-- What was queued or is pushed by an action waits or is known after it. -/
def Kept (pushed : List Inventory) (peer peer' : Peer Endpoint) : Prop :=
  ∀ inv, inv ∈ peer.vInventoryToSend ∨ inv ∈ pushed → inv ∈ peer'.vInventoryToSend ∨ inv ∈ peer'.knownInventory

/-- A step has a result. It announces what was unknown, and loses nothing. -/
theorem step_flushes [DecidableEq Endpoint] (hash : Uint256 → Uint256) (peer : Peer Endpoint)
    (action : Action Endpoint) :
    ∃ peer' new, peer.step hash action = .ok peer' ∧ Flushes action.told new [] peer [] peer' ∧
      Kept action.pushed peer peer' := by
  cases action with
  | push inv force =>
    refine ⟨_, [], rfl, ?_⟩
    unfold push
    split
    · refine ⟨Flushes.refl.of_same rfl rfl, ?_⟩
      intro other
      simp only [Action.pushed, List.mem_append]
      exact .inl
    · rename_i skipped
      refine ⟨Flushes.refl, ?_⟩
      rintro other (waiting | pushed)
      · exact .inl waiting
      · rw [not_or, not_not, ← List.mem_singleton.mp pushed] at skipped
        exact .inr skipped.2
  | addInventoryKnown inv =>
    refine ⟨_, [], rfl, ⟨(List.append_nil _).symm, List.nodup_nil, List.forall_mem_nil _, ?_, And.intro⟩, ?_⟩
    · intro other
      simp [addInventoryKnown, Action.told, or_comm]
    · exact fun other waiting => .inl (waiting.resolve_right List.not_mem_nil)
  | trickle =>
    obtain ⟨peer', new, done, flushes, -, all⟩ := peer.trickle_flushes
    exact ⟨peer', new, done, flushes, fun inv waiting => .inr (all inv (waiting.resolve_right List.not_mem_nil))⟩
  | broadcast hashSalt draw =>
    obtain ⟨⟨new, flushes⟩, all, -⟩ := broadcastLoop_flushes hash draw peer.vInventoryToSend 0 hashSalt [] [] peer
    exact ⟨_, new, rfl, flushes, fun inv waiting => all inv (waiting.resolve_right List.not_mem_nil)⟩
  | addAddressKnown addr =>
    exact ⟨_, [], rfl, Flushes.refl.of_same rfl rfl, fun inv waiting => .inl (waiting.resolve_right List.not_mem_nil)⟩
  | pushAddress addr =>
    refine ⟨_, [], rfl, ?_⟩
    unfold pushAddress
    split
    · exact ⟨Flushes.refl.of_same rfl rfl, fun inv waiting => .inl (waiting.resolve_right List.not_mem_nil)⟩
    · exact ⟨Flushes.refl, fun inv waiting => .inl (waiting.resolve_right List.not_mem_nil)⟩

theorem run_flushes [DecidableEq Endpoint] (hash : Uint256 → Uint256) (peer : Peer Endpoint)
    (actions : List (Action Endpoint)) :
    ∃ peer' new, peer.run hash actions = .ok peer' ∧ Flushes (actions.flatMap Action.told) new [] peer [] peer' ∧
      Kept (actions.flatMap Action.pushed) peer peer' := by
  induction actions generalizing peer with
  | nil => exact ⟨peer, [], rfl, Flushes.refl, fun inv waiting => .inl (waiting.resolve_right List.not_mem_nil)⟩
  | cons action actions ih =>
    obtain ⟨mid, early, done, first, kept⟩ := peer.step_flushes hash action
    obtain ⟨peer', late, run, rest, kept'⟩ := ih mid
    refine ⟨peer', early ++ late, ?_, first.trans rest, ?_⟩
    · rw [Peer.run, List.foldlM_cons, done, ok_bind]
      exact run
    · intro inv present
      rw [List.flatMap_cons, List.mem_append, ← or_assoc] at present
      rcases present with now | later
      · rcases kept inv now with waiting | known
        · exact kept' inv (.inl waiting)
        · exact .inr (rest.mono known)
      · exact kept' inv (.inr later)

theorem run_append [DecidableEq Endpoint] (hash : Uint256 → Uint256) (peer : Peer Endpoint)
    (before after : List (Action Endpoint)) :
    peer.run hash (before ++ after) = peer.run hash before >>= fun mid => mid.run hash after :=
  List.foldlM_append

/-- Every run on a new peer is defined. What was ever pushed is waiting or known, and what is known was announced or made
known by the peer. Nothing is announced twice, nor after the peer made it known. A message has at most 1000 entries, and
what is left to be sent is nothing after `trickle` and transactions after `broadcast`. -/
theorem relay_exact [DecidableEq Endpoint] (hash : Uint256 → Uint256) (actions : List (Action Endpoint)) :
    ∃ peer, fresh.run hash actions = .ok peer ∧
      (∀ inv force, .push inv force ∈ actions → inv ∈ peer.vInventoryToSend ∨ inv ∈ peer.knownInventory) ∧
      (∀ inv ∈ peer.knownInventory, inv ∈ peer.announced ∨ .addInventoryKnown inv ∈ actions) ∧
      peer.announced.Nodup ∧
      (∀ message ∈ peer.send, message.size ≤ 1000) ∧
      (∀ before after, actions = before ++ after →
        ∃ earlier new, fresh.run hash before = .ok earlier ∧ peer.announced = earlier.announced ++ new ∧
          ∀ inv, .addInventoryKnown inv ∈ before → inv ∉ new) ∧
      (∀ before, actions = before ++ [.trickle] → peer.vInventoryToSend = []) ∧
      (∀ before hashSalt draw, actions = before ++ [.broadcast hashSalt draw] →
        ∀ inv ∈ peer.vInventoryToSend, inv.type = .txn) := by
  obtain ⟨peer, new, run, flushes, kept⟩ := run_flushes hash (fresh : Peer Endpoint) actions
  have all : peer.announced = new := by simpa [announced, fresh] using flushes.announced
  -- a run that ends with an action ends with what the action leaves
  have last {before : List (Action Endpoint)} {action : Action Endpoint} (split : actions = before ++ [action]) :
      ∃ mid : Peer Endpoint, mid.step hash action = .ok peer := by
    rw [split, run_append] at run
    obtain ⟨mid, -, rest⟩ := bind_eq_ok.mp run
    rw [Peer.run, List.foldlM_cons] at rest
    obtain ⟨after, done, same⟩ := bind_eq_ok.mp rest
    cases same
    exact ⟨mid, done⟩
  refine ⟨peer, run, ?_, ?_, all ▸ flushes.nodup, ?_, ?_, ?_, ?_⟩
  · intro inv force pushed
    exact kept inv (.inr (List.mem_flatMap.mpr ⟨_, pushed, List.mem_singleton_self inv⟩))
  · intro inv known
    rcases (flushes.known inv).mp known with before | announced | told
    · exact absurd before (Finset.notMem_empty inv)
    · exact .inl (all ▸ announced)
    · obtain ⟨action, member, told⟩ := List.mem_flatMap.mp told
      cases action with
      | addInventoryKnown other =>
        rw [List.mem_singleton.mp told]
        exact .inr member
      | push | trickle | broadcast | addAddressKnown | pushAddress => cases told
  · exact (flushes.bounded (List.forall_mem_nil _) (by decide)).1
  · intro before after split
    obtain ⟨earlier, early, ran, first, -⟩ := run_flushes hash (fresh : Peer Endpoint) before
    obtain ⟨peer', late, ran', second, -⟩ := run_flushes hash earlier after
    rw [split, run_append, ran, ok_bind, ran'] at run
    cases run
    refine ⟨earlier, late, ran, by simpa using second.announced, ?_⟩
    intro inv told again
    refine second.unknown inv again ((first.known inv).mpr (.inr (.inr ?_)))
    exact List.mem_flatMap.mpr ⟨_, told, List.mem_singleton_self inv⟩
  · intro before split
    obtain ⟨mid, done⟩ := last split
    obtain ⟨peer', -, done', -, empty, -⟩ := mid.trickle_flushes
    cases done.symm.trans done'
    exact empty
  · intro before hashSalt draw split
    obtain ⟨mid, done⟩ := last split
    cases done
    exact broadcast_txns hash draw hashSalt

end Peer

end Libcoin
