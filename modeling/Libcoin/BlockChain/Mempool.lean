/-
The claims and the coins of the chain.

* `Consistent`: every input of a claim refers to an output of another claim or to a coin in `Unspents`, and
  no two claims spend the same coin.
* `Spares` is what is asked of an append: each coin that a staying claim spends is spared, by the blocks that
  are attached and detached and by the purge. `reclaim_refers` is the induction over the loop that claims what
  was detached again.
-/

import Libcoin.Pool.Tables
import Libcoin.BlockChain.Moves
import Libcoin.Ledger.Stock
import Libcoin.Pool.Families

namespace Libcoin

open Exec
open BlockTree (Reached Changes)
open Run (AlongStates AlongSteps)

namespace Claims

/-! ### The coins that claims spend -/

/-- What a claim spends is marked as spent, and no other claim spends it. -/
structure Apart (claims : Claims) : Prop where
  marked : ∀ (hash : Uint256) (claim : Claim), claims.confirmations[hash]? = some claim →
    ∀ input ∈ claim.txn.inputs, input.prevout ∈ claims.spents
  apart : ∀ (first second : Uint256) (claim other : Claim), claims.confirmations[first]? = some claim →
    claims.confirmations[second]? = some other → first ≠ second →
      ∀ input ∈ claim.txn.inputs, ∀ input' ∈ other.txn.inputs, input.prevout ≠ input'.prevout

theorem apart_empty : Apart empty :=
  ⟨fun hash claim found => by simp [empty] at found, fun first second claim other found =>
    by simp [empty] at found⟩

theorem Apart.erase {claims : Claims} (apart : Apart claims) (hash : Uint256) : Apart (claims.erase hash) := by
  constructor
  · intro other claim found input member
    obtain ⟨different, found⟩ := lookup_of_erase found
    have marked := apart.marked other claim found input member
    cases erased : claims.confirmations[hash]? with
    | none =>
      rw [erase_absent erased]
      exact marked
    | some gone =>
      rw [erase_pooled erased]
      refine mem_foldl_erase.mpr ⟨marked, fun again => ?_⟩
      obtain ⟨input', member', same⟩ := List.mem_map.mp again
      exact apart.apart hash other gone claim erased found different input' member' input member same
  · intro first second claim other found found'
    exact apart.apart first second claim other (lookup_of_erase found).2 (lookup_of_erase found').2

theorem Apart.foldl_erase {claims : Claims} (apart : Apart claims) (hashes : List Uint256) :
    Apart (hashes.foldl Claims.erase claims) := by
  induction hashes generalizing claims with
  | nil => exact apart
  | cons hash hashes ih => exact ih (apart.erase hash)

theorem Apart.insert {prim : Primitives} {claims : Claims} (apart : Apart claims) {now : Int}
    {txn : Transaction} {fee ts : Int} (fresh : claims.haveHash (prim.txnHash txn) = false)
    (unspent : ∀ input ∈ txn.inputs, input.prevout ∉ claims.spents) :
    Apart (claims.insert prim now txn (txn.inputs.map Input.prevout).toFinset fee ts) := by
  have new : ∀ input ∈ txn.inputs, ∀ (hash : Uint256) (claim : Claim), claims.confirmations[hash]? = some claim →
      ∀ input' ∈ claim.txn.inputs, input.prevout ≠ input'.prevout := by
    intro input member hash claim found input' member' same
    refine unspent input member ?_
    rw [same]
    exact apart.marked hash claim found input' member'
  constructor
  · intro hash claim found input member
    rcases lookup_of_insert fresh found with ⟨rfl, rfl⟩ | ⟨-, old⟩
    · rw [newClaim_txn] at member
      refine Finset.mem_union_right _ (List.mem_toFinset.mpr ?_)
      exact List.mem_map_of_mem member
    · exact Finset.mem_union_left _ (apart.marked hash claim old input member)
  · intro first second claim other found found' different input member input' member'
    rcases lookup_of_insert fresh found with ⟨rfl, rfl⟩ | ⟨-, old⟩
    · rcases lookup_of_insert fresh found' with ⟨rfl, rfl⟩ | ⟨-, old'⟩
      · exact absurd rfl different
      · rw [newClaim_txn] at member
        exact new input member second other old' input' member'
    · rcases lookup_of_insert fresh found' with ⟨rfl, rfl⟩ | ⟨-, old'⟩
      · rw [newClaim_txn] at member'
        exact (new input' member' first claim old input member).symm
      · exact apart.apart first second claim other old old' different input member input' member'

/-! ### What is erased -/

theorem lookup_foldl_erase {hashes : List Uint256} {claims : Claims} {hash : Uint256} :
    (hashes.foldl Claims.erase claims).confirmations[hash]? =
      if hash ∈ hashes then none else claims.confirmations[hash]? := by
  induction hashes generalizing claims with
  | nil => simp
  | cons first hashes ih =>
    rw [List.foldl_cons, ih, lookup_erase]
    by_cases later : hash ∈ hashes
    · rw [if_pos later, if_pos (List.mem_cons_of_mem _ later)]
    · rw [if_neg later]
      by_cases same : first = hash
      · rw [if_pos same, if_pos (same ▸ List.mem_cons_self)]
      · rw [if_neg same, if_neg fun member => (List.mem_cons.mp member).elim (fun equal => same equal.symm) later]

theorem lookup_purge {claims : Claims} {before : Int} {hash : Uint256} {claim : Claim} :
    (claims.purge before).confirmations[hash]? = some claim ↔
      claims.confirmations[hash]? = some claim ∧ before ≤ claim.timestamp := by
  have condemned : hash ∈ claims.deathRow before ↔
      ∃ claim, claims.confirmations[hash]? = some claim ∧ claim.timestamp < before := by
    constructor
    · intro member
      obtain ⟨⟨_, other⟩, inside, rfl⟩ := List.mem_map.mp member
      obtain ⟨found, old⟩ := List.mem_filter.mp inside
      exact ⟨other, Map.mem_toList.mp found, of_decide_eq_true old⟩
    · rintro ⟨other, found, old⟩
      exact List.mem_map.mpr ⟨(hash, other), List.mem_filter.mpr ⟨Map.mem_toList.mpr found,
        decide_eq_true old⟩, rfl⟩
  unfold purge
  rw [lookup_foldl_erase]
  cases found : claims.confirmations[hash]? with
  | none => simp
  | some other =>
    simp only [condemned, found, Option.some.injEq, exists_eq_left']
    by_cases old : other.timestamp < before
    · rw [if_pos old]
      refine iff_of_false nofun ?_
      rintro ⟨rfl, young⟩
      omega
    · rw [if_neg old, Option.some.injEq]
      refine ⟨?_, And.left⟩
      rintro rfl
      exact ⟨rfl, not_lt.mp old⟩

end Claims

namespace BlockChain

section Mempool

variable {cfg : Config} {clock : Clock} {s s' : BlockChain}

/-- An input of a claim refers to an output of another claim, or to a coin in `Unspents`. -/
def Refers (s : BlockChain) (hash : Uint256) (input : Input) : Prop :=
  (input.prevout.hash ≠ hash ∧ ∃ parent : Claim, s.claims.confirmations[input.prevout.hash]? = some parent ∧
      input.prevout.index < parent.txn.outputs.length) ∨
    s.ledger.stock.HasRow input.prevout

/-- Every input of a claim refers to an output of another claim or to a coin, and no two claims spend the same
coin. -/
structure Consistent (s : BlockChain) : Prop where
  refers : ∀ (hash : Uint256) (claim : Claim), s.claims.confirmations[hash]? = some claim →
    ∀ input ∈ claim.txn.inputs, Refers s hash input
  apart : ∀ (first second : Uint256) (claim other : Claim), s.claims.confirmations[first]? = some claim →
    s.claims.confirmations[second]? = some other → first ≠ second →
      ∀ input ∈ claim.txn.inputs, ∀ input' ∈ other.txn.inputs, input.prevout ≠ input'.prevout

/-! ### A claim -/

/-- The coin of a claim that is accepted is an output of another claim, or has its row. -/
theorem claimedCoin_refers (sound : s.ledger.stock.Sound cfg.validationDepth) {input : Input} {coin : Unspent}
    (found : claimedCoin cfg s input = .ok coin) :
    (∃ parent : Claim, s.claims.confirmations[input.prevout.hash]? = some parent ∧
        input.prevout.index < parent.txn.outputs.length) ∨ s.ledger.stock.HasRow input.prevout := by
  unfold claimedCoin at found
  dsimp only at found
  split at found
  · rename_i pooled
    unfold Claims.prev at pooled
    cases stored : s.claims.confirmations[input.prevout.hash]? with
    | none =>
      rw [stored] at pooled
      cases pooled
    | some parent =>
      rw [stored] at pooled
      refine .inl ⟨parent, rfl, not_le.mp fun outside => ?_⟩
      simp only [List.getElem?_eq_none outside] at pooled
      cases pooled
  · split at found
    · cases row : s.ledger.db.findUnspent input.prevout with
      | none =>
        rw [row] at found
        cases found
      | some entry =>
        obtain ⟨stored, named⟩ := Table.first_eq_some row
        exact .inr ⟨_, _, stored, of_decide_eq_true named⟩
    · rename_i trie
      cases stored : s.ledger.spendables[input.prevout]? with
      | none =>
        rw [stored] at found
        cases found
      | some unspent =>
        obtain ⟨row, there, named⟩ := sound.stored trie _ _ stored
        exact .inr ⟨_, row, there, named⟩

/-- A claim that is accepted refers to what there is. -/
theorem Claimable.refers {txn : Transaction} {spents : Finset Coin} {fee : Int}
    (claimable : Claimable cfg s txn spents fee) (sound : s.ledger.stock.Sound cfg.validationDepth)
    {input : Input} (member : input ∈ txn.inputs) : Refers s (cfg.prim.txnHash txn) input := by
  obtain ⟨coin, found⟩ := claimable.found input member
  rcases claimedCoin_refers sound found with ⟨parent, pooled, inside⟩ | there
  · refine .inl ⟨fun same => ?_, parent, pooled, inside⟩
    have fresh := claimable.fresh
    unfold Claims.haveHash at fresh
    rw [← same, pooled] at fresh
    cases fresh
  · exact .inr there

theorem lookup_claimed {txn : Transaction} {spents : Finset Coin} {fee : Int} {hash : Uint256} {claim : Claim}
    (pooled : s.claims.confirmations[hash]? = some claim) :
    (claimed cfg clock s txn spents fee).claims.confirmations[hash]? = some claim := by
  show (s.claims.insert cfg.prim clock.now txn spents fee 0).confirmations[hash]? = some claim
  rw [Claims.lookup_insert]
  split
  · rename_i same
    rw [same, pooled, Option.getD_some]
  · exact pooled

theorem lookup_claimed_own {txn : Transaction} {spents : Finset Coin} {fee : Int}
    (fresh : s.claims.haveHash (cfg.prim.txnHash txn) = false) :
    (claimed cfg clock s txn spents fee).claims.confirmations[cfg.prim.txnHash txn]? =
      some (Claims.newClaim cfg.prim clock.now s.claims txn fee 0) := by
  show (s.claims.insert cfg.prim clock.now txn spents fee 0).confirmations[cfg.prim.txnHash txn]? = _
  rw [Claims.lookup_insert, if_pos rfl, Claims.lookup_of_not_have fresh, Option.getD_none]

theorem Refers.claimed {hash : Uint256} {input : Input} (refers : Refers s hash input) {txn : Transaction}
    {spents : Finset Coin} {fee : Int} : Refers (claimed cfg clock s txn spents fee) hash input := by
  rcases refers with ⟨apart, parent, pooled, inside⟩ | there
  · exact .inl ⟨apart, parent, lookup_claimed pooled, inside⟩
  · exact .inr there

/-! ### The loop that claims again -/

/-- A coin is an output of a transaction of the list that `try_claim` accepts when its turn comes. -/
def Awaited (cfg : Config) (clock : Clock) (s : BlockChain) (txns : List Transaction) (coin : Coin) : Prop :=
  ∃ before txn after, txns = before ++ txn :: after ∧ cfg.prim.txnHash txn = coin.hash ∧
    coin.index < txn.outputs.length ∧ ∃ result,
      tryClaim cfg clock (reclaim cfg clock s before) txn false = .ok result

/-- The claims refer to what there is, or to what is still to be claimed. -/
def Waits (cfg : Config) (clock : Clock) (s : BlockChain) (txns : List Transaction) : Prop :=
  ∀ (hash : Uint256) (claim : Claim), s.claims.confirmations[hash]? = some claim →
    ∀ input ∈ claim.txn.inputs, Refers s hash input ∨ Awaited cfg clock s txns input.prevout

/-- One turn of the loop. -/
theorem Waits.turn {txn : Transaction} {txns : List Transaction} (waits : Waits cfg clock s (txn :: txns))
    (sound : s.ledger.stock.Sound cfg.validationDepth) :
    Waits cfg clock (afterClaim cfg clock false s txn) txns := by
  -- what is awaited is the first transaction, or a later one
  have awaited : ∀ coin, Awaited cfg clock s (txn :: txns) coin →
      (cfg.prim.txnHash txn = coin.hash ∧ coin.index < txn.outputs.length ∧
          ∃ result, tryClaim cfg clock s txn false = .ok result) ∨
        Awaited cfg clock (afterClaim cfg clock false s txn) txns coin := by
    rintro coin ⟨before, other, after, split, named, inside, accepted⟩
    cases before with
    | nil =>
      obtain ⟨rfl, rfl⟩ := List.cons.inj split
      exact .inl ⟨named, inside, accepted⟩
    | cons first before =>
      obtain ⟨rfl, rfl⟩ := List.cons.inj split
      exact .inr ⟨before, other, after, rfl, named, inside, accepted⟩
  cases tried : tryClaim cfg clock s txn false with
  | error fault =>
    have same : afterClaim cfg clock false s txn = s := by
      unfold afterClaim
      rw [tried]
    rw [same] at awaited ⊢
    intro hash claim pooled input member
    rcases waits hash claim pooled input member with refers | later
    · exact .inl refers
    · rcases awaited _ later with ⟨-, -, result, accepted⟩ | later
      · rw [tried] at accepted
        cases accepted
      · exact .inr later
  | ok result =>
    obtain ⟨spents, fee⟩ := result
    have claimable := tryClaim_ok tried
    have same : afterClaim cfg clock false s txn = claimed cfg clock s txn spents fee := by
      unfold afterClaim
      rw [tried]
    rw [same] at awaited ⊢
    intro hash claim pooled input member
    rcases Claims.lookup_of_insert claimable.fresh pooled with ⟨rfl, rfl⟩ | ⟨apart, old⟩
    · rw [Claims.newClaim_txn] at member
      exact .inl (claimable.refers sound member).claimed
    · rcases waits hash claim old input member with refers | later
      · exact .inl refers.claimed
      · rcases awaited _ later with ⟨named, inside, -⟩ | later
        · refine .inl (.inl ⟨?_, _, named ▸ lookup_claimed_own claimable.fresh, ?_⟩)
          · rw [← named]
            exact apart.symm
          · rwa [Claims.newClaim_txn]
        · exact .inr later

/-- **The loop claims what is waited for.** -/
theorem Waits.reclaim {txns : List Transaction} (waits : Waits cfg clock s txns)
    (sound : s.ledger.stock.Sound cfg.validationDepth) :
    Waits cfg clock (reclaim cfg clock s txns) [] := by
  induction txns generalizing s with
  | nil => exact waits
  | cons txn txns ih =>
    have same : (afterClaim cfg clock false s txn).ledger = s.ledger := by
      unfold afterClaim
      split <;> rfl
    refine ih (waits.turn sound) ?_
    rwa [same]

theorem Waits.refers (waits : Waits cfg clock s []) {hash : Uint256} {claim : Claim}
    (pooled : s.claims.confirmations[hash]? = some claim) {input : Input} (member : input ∈ claim.txn.inputs) :
    Refers s hash input := by
  rcases waits hash claim pooled input member with refers | ⟨before, txn, after, split, -⟩
  · exact refers
  · simp at split

/-! ### What is left of the claims -/

/-- The claims that are left are those that are neither confirmed nor too old. -/
theorem lookup_cleared {confirmed : Hashes} {hash : Uint256} {claim : Claim} :
    (cleared clock confirmed s).claims.confirmations[hash]? = some claim ↔
      s.claims.confirmations[hash]? = some claim ∧ ¬confirmed[hash]?.isSome = true ∧
        clock.now - 24 * 60 * 60 ≤ claim.timestamp := by
  show (Claims.purge ((confirmed.toList.map Prod.fst).foldl Claims.erase s.claims) _).confirmations[hash]? = _ ↔ _
  rw [Claims.lookup_purge, Claims.lookup_foldl_erase, ← Map.mem_toList_fst]
  by_cases gone : hash ∈ confirmed.toList.map Prod.fst
  · rw [if_pos gone]
    exact iff_of_false (fun kept => nomatch kept.1) fun kept => kept.2.1 gone
  · rw [if_neg gone]
    exact ⟨fun kept => ⟨kept.1, gone, kept.2⟩, fun kept => ⟨kept.1, kept.2.2⟩⟩

/-! ### The loops of a reorganisation -/

/-- The transactions, without the coinbases, of the blocks with these hashes. -/
def txnsOf (s : BlockChain) (hashes : List Uint256) : List Transaction :=
  hashes.flatMap fun hash => (s.branches.getD hash Block.null).transactions.tail

theorem detachBlocks_undone {hashes : List Uint256} {unconfirmed unconfirmed' : Txns} {old : Int → Prop}
    (run : detachBlocks cfg clock hashes unconfirmed s = .ok unconfirmed' s')
    (sound : s.ledger.stock.Sound cfg.validationDepth)
    (undoable : s.ledger.stock.Undoable cfg.validationDepth old)
    (counted : ∀ (cnf : Int) row, s.ledger.db.confirmations.rows[cnf]? = some row → ∀ hash ∈ hashes, ∀ blk,
      s.tree.blkOf hash = .ok blk → blk.count = row.count → old cnf) :
    s.ledger.stock.Undone cfg.validationDepth old s'.ledger.stock := by
  induction hashes generalizing s unconfirmed with
  | nil =>
    obtain ⟨-, rfl⟩ := pure_ok.mp run
    exact .refl sound undoable
  | cons hash hashes ih =>
    obtain ⟨known, blk, block, ledger, found, detached, run⟩ := detachBlocks_cons_ok run
    obtain ⟨-, rfl, -⟩ := detach_ok detached
    have one : s.ledger.stock.Undone (s.setting cfg clock).validationDepth old
        (rollbackBlock (s.setting cfg clock) blk.count s.ledger).stock :=
      rollbackBlock_undone sound undoable fun cnf row stored same =>
        counted cnf row stored hash List.mem_cons_self blk found same.symm
    refine one.trans (ih run one.sound one.undoable fun cnf row stored other later => ?_)
    exact counted cnf row (one.confirmations cnf row stored) other (List.mem_cons_of_mem _ later)

theorem attachBlocks_leaves {news : List Uint256} {blk blk' : Option Blk} {unconfirmed unconfirmed' : Txns}
    {confirmed confirmed' : Hashes}
    (run : attachBlocks cfg clock news blk unconfirmed confirmed s = .ok (blk', unconfirmed', confirmed') s')
    (sound : s.ledger.stock.Sound cfg.validationDepth)
    (found : ∀ hash ∈ news, ∃ blk, s.tree.blkOf hash = .ok blk ∧ blk.hash = hash) :
    s.ledger.stock.Leaves cfg.validationDepth (spentBy (s.txnsOf news)) s'.ledger.stock ∧
      (∀ txn ∈ s.txnsOf news, ∀ i < txn.outputs.length,
        { hash := cfg.prim.txnHash txn, index := i } ∉ spentBy (s.txnsOf news) →
          s'.ledger.stock.HasRow { hash := cfg.prim.txnHash txn, index := i }) ∧
      ∀ hash, confirmed'[hash]?.isSome = true ↔
        (∃ txn ∈ s.txnsOf news, cfg.prim.txnHash txn = hash) ∨ confirmed[hash]?.isSome = true := by
  induction news generalizing s blk unconfirmed confirmed with
  | nil =>
    obtain ⟨same, rfl⟩ := pure_ok.mp run
    obtain ⟨-, -, rfl⟩ : blk = blk' ∧ unconfirmed = unconfirmed' ∧ confirmed = confirmed' := by simpa using same
    exact ⟨sound.leaves, nofun, fun hash => by simp [txnsOf]⟩
  | cons hash news ih =>
    unfold attachBlocks at run
    obtain ⟨⟨one, known, done⟩, mid, first, run⟩ := bind_ok.mp run
    obtain ⟨found_one, branches, ledger, rfl, same, attached⟩ := attachBlock_ok first
    obtain ⟨blk', found_blk, named⟩ := found hash List.mem_cons_self
    obtain rfl := Except.ok.inj (found_one.symm.trans found_blk)
    rw [named] at attached
    have sound : s.ledger.stock.Sound (s.setting cfg clock).validationDepth := sound
    obtain ⟨block, issued, hashes⟩ := attach_leaves sound attached
    have hashes : ∀ other, done[other]?.isSome = true ↔
        (∃ txn ∈ (s.branches.getD hash Block.null).transactions.tail, cfg.prim.txnHash txn = other) ∨
          confirmed[other]?.isSome = true := hashes
    have later : ({ s with branches := branches, ledger := ledger } : BlockChain).txnsOf news =
      s.txnsOf news := by
      unfold txnsOf
      simp only [same]
    obtain ⟨rest, others, hashes'⟩ := ih run block.sound fun other later =>
      found other (List.mem_cons_of_mem _ later)
    rw [later] at rest others hashes'
    have split : s.txnsOf (hash :: news) = (s.branches.getD hash Block.null).transactions.tail ++
      s.txnsOf news := rfl
    have spends : spentBy (s.txnsOf (hash :: news)) =
        spentBy (s.branches.getD hash Block.null).transactions.tail ++ spentBy (s.txnsOf news) := by
      rw [split]
      exact List.flatMap_append
    rw [spends, split]
    refine ⟨block.trans rest, fun txn member i inside unspent => ?_, fun other => ?_⟩
    · rw [List.mem_append, not_or] at unspent
      rcases List.mem_append.mp member with here | after
      · exact rest.rows _ unspent.2 (issued txn here i inside unspent.1)
      · exact others txn after i inside unspent.2
    · rw [hashes' other, hashes other]
      constructor
      · rintro (⟨txn, later, same⟩ | ⟨txn, here, same⟩ | before)
        · exact .inl ⟨txn, List.mem_append_right _ later, same⟩
        · exact .inl ⟨txn, List.mem_append_left _ here, same⟩
        · exact .inr before
      · rintro (⟨txn, member, same⟩ | before)
        · rcases List.mem_append.mp member with here | later
          · exact .inr (.inl ⟨txn, here, same⟩)
          · exact .inl ⟨txn, later, same⟩
        · exact .inr (.inr before)

/-! ### An append that spares the claims -/

/-- A claim that is left when the transactions are confirmed and old claims are purged. -/
structure Stays (cfg : Config) (clock : Clock) (s : BlockChain) (txns : List Transaction) (hash : Uint256)
    (claim : Claim) : Prop where
  pooled : s.claims.confirmations[hash]? = some claim
  waiting : ∀ txn ∈ txns, cfg.prim.txnHash txn ≠ hash
  young : clock.now - 24 * 60 * 60 ≤ claim.timestamp

/-- A confirmation of a block that leaves the trunk. -/
def Detached (s : BlockChain) (tree : BlockTree Uint256) (changes : Changes Uint256) (cnf : Int) : Prop :=
  ∃ row, s.ledger.db.confirmations.rows[cnf]? = some row ∧
    ∃ hash ∈ changes.deleted, ∃ blk, tree.blkOf hash = .ok blk ∧ blk.count = row.count

/-- What a claim can refer to after the transactions were confirmed and the `old` confirmations rolled back: an
output of a claim that stays, an output of one of the transactions, a coin, or what is claimed `again`. -/
inductive Spared (cfg : Config) (clock : Clock) (s : BlockChain) (txns : List Transaction) (old : Int → Prop)
    (again : Coin → Prop) (hash : Uint256) (coin : Coin) : Prop
  | pooled (parent : Claim) (apart : coin.hash ≠ hash) (stays : Stays cfg clock s txns coin.hash parent)
    (inside : coin.index < parent.txn.outputs.length)
  | confirmed (txn : Transaction) (member : txn ∈ txns) (named : cfg.prim.txnHash txn = coin.hash)
    (inside : coin.index < txn.outputs.length) (unspent : coin ∉ spentBy txns)
  | stored (id : Int) (row : UnspentRow) (there : s.ledger.db.unspents.rows[id]? = some row)
    (named : row.key = coin)
    (stays : ¬old row.cnf) (unspent : coin ∉ spentBy txns)
  | claimed (again : again coin)

/-- What is asked of an append that comes to its end: it spares what staying claims spend, and what it detaches
can be undone. -/
structure Spares (cfg : Config) (clock : Clock) (s : BlockChain) (block : Block) : Prop where
  undoable : ∀ {prev prevHeight invalidTree tree changes},
    Accepted cfg s block prev prevHeight invalidTree tree changes → changes.deleted ≠ [] →
      s.ledger.stock.Undoable cfg.validationDepth (Detached s tree changes)
  spared : ∀ {prev prevHeight invalidTree tree changes unconfirmed confirmed s'},
    Accepted cfg s block prev prevHeight invalidTree tree changes →
      Settles cfg clock s block unconfirmed confirmed s' →
        ∀ hash claim,
          Stays cfg clock s ((grown cfg block invalidTree tree s).txnsOf changes.inserted.reverse) hash claim →
            ∀ input ∈ claim.txn.inputs,
              Spared cfg clock s ((grown cfg block invalidTree tree s).txnsOf changes.inserted.reverse)
                (Detached s tree changes)
                (Awaited cfg clock (cleared clock confirmed s')
                  (unconfirmed.toList.map Prod.snd)) hash input.prevout

/-- What every call keeps. -/
structure Tended (cfg : Config) (s : BlockChain) : Prop where
  reached : ∃ known, Reached known s.tree
  sound : s.ledger.stock.Sound cfg.validationDepth
  apart : s.claims.Apart
  refers : ∀ (hash : Uint256) (claim : Claim), s.claims.confirmations[hash]? = some claim →
    ∀ input ∈ claim.txn.inputs, Refers s hash input

theorem Tended.consistent (tended : Tended cfg s) : Consistent s := ⟨tended.refers, tended.apart.apart⟩

/-- The claims that are left after the blocks were attached refer to what there is, or is claimed again. -/
theorem Spares.waits {block : Block} (spares : Spares cfg clock s block) (tended : Tended cfg s)
    {prev : BlockRef Uint256} {prevHeight : Int} {invalidTree tree : BlockTree Uint256}
    {changes : Changes Uint256} {unconfirmed : Txns} {confirmed : Hashes} {s₁ s₂ : BlockChain}
    (accepted : Accepted cfg s block prev prevHeight invalidTree tree changes) (moved : changes.inserted ≠ [])
    (done : reorganize cfg clock block prevHeight changes (grown cfg block invalidTree tree s) =
      .ok (unconfirmed, confirmed) s₁)
    (told : notify cfg (cfg.prim.headerHash block.toBlockHeader) changes.inserted s₁ = .ok () s₂) :
    s₂.ledger.stock.Sound cfg.validationDepth ∧
      Waits cfg clock (cleared clock confirmed s₂) (unconfirmed.toList.map Prod.snd) := by
  obtain ⟨known, reached⟩ := tended.reached
  obtain ⟨fresh, connected, -⟩ := accepted.offered reached
  obtain ⟨low, above, news, shift⟩ := exists_shift reached fresh connected accepted.grown moved
  have settles : Settles cfg clock s block unconfirmed confirmed s₂ :=
    ⟨_, _, _, _, _, _, accepted, moved, done, told⟩
  obtain ⟨known, mid, blk, s₃, locator, detached, attached, rfl⟩ := reorganize_ok done
  -- the blocks that leave the trunk
  have undone : mid.ledger.stock.Sound cfg.validationDepth ∧
      ∀ (coin : Int) row, s.ledger.db.unspents.rows[coin]? = some row → ¬Detached s tree changes row.cnf →
        mid.ledger.db.unspents.rows[coin]? = some row := by
    by_cases nothing : changes.deleted = []
    · rw [nothing] at detached
      obtain ⟨-, rfl⟩ := pure_ok.mp detached
      exact ⟨tended.sound, fun _ _ there _ => there⟩
    · have undone := detachBlocks_undone detached tended.sound (spares.undoable accepted nothing)
        fun cnf row stored hash member blk found same => ⟨row, stored, hash, member, blk, found, same⟩
      exact ⟨undone.sound, undone.rows⟩
  -- the blocks that enter it
  have same_tree : mid.tree = tree := (detachBlocks_keeps ignores_tree.toIgnores _ _).ok detached
  have same_txns : mid.txnsOf changes.inserted.reverse =
      (grown cfg block invalidTree tree s).txnsOf changes.inserted.reverse := by
    refine List.flatMap_congr fun hash member => ?_
    obtain ⟨-, outside⟩ := shift.find_inserted (List.mem_reverse.mp member)
    rw [Map.getD_lookup, Map.getD_lookup,
      detachBlocks_branches detached (fun _ => shift.find_deleted) outside]
  obtain ⟨leaves, issued, hashes⟩ := attachBlocks_leaves attached undone.1 fun hash member => by
    rw [same_tree]
    exact (shift.find_inserted (List.mem_reverse.mp member)).1
  rw [same_txns] at leaves issued hashes
  have same : s₂.ledger = _ := (notify_keeps (fun _ _ => rfl) (fun _ _ => rfl) _ _).ok told
  have ledger : s₂.ledger = (purgeBlocks cfg prevHeight (blk.elim 0 Blk.count) s₃).ledger := same
  have purged : s₂.ledger.stock.Sound cfg.validationDepth ∧ s₂.ledger.db.unspents = s₃.ledger.db.unspents := by
    rw [ledger]
    unfold purgeBlocks
    split
    · exact ⟨leaves.sound.filter _ _, rfl⟩
    · exact ⟨leaves.sound, rfl⟩
  have rows : ∀ coin, s₃.ledger.stock.HasRow coin → s₂.ledger.stock.HasRow coin := by
    rintro coin ⟨id, row, there, named⟩
    refine ⟨id, row, ?_, named⟩
    show s₂.ledger.db.unspents.rows[id]? = some row
    rwa [purged.2]
  have pool : s₂.claims = s.claims := settles.claims
  refine ⟨purged.1, fun hash claim found input member => ?_⟩
  rw [lookup_cleared, hashes, pool] at found
  obtain ⟨pooled, unconfirmed, young⟩ := found
  have stays : Stays cfg clock s ((grown cfg block invalidTree tree s).txnsOf changes.inserted.reverse) hash claim :=
    ⟨pooled, fun txn inside same => unconfirmed (.inl ⟨txn, inside, same⟩), young⟩
  rcases spares.spared accepted settles hash claim stays input member with
    ⟨parent, apart, stays, inside⟩ | ⟨txn, inserted, named, inside, unspent⟩ | ⟨id, row, there, named, kept,
      unspent⟩ | again
  · refine .inl (.inl ⟨apart, parent, ?_, inside⟩)
    rw [lookup_cleared, hashes, pool]
    refine ⟨stays.pooled, ?_, stays.young⟩
    rintro (⟨txn, inside, same⟩ | before)
    · exact stays.waiting txn inside same
    · simp at before
  · refine .inl (.inr (rows _ ?_))
    have coin : input.prevout = { hash := cfg.prim.txnHash txn, index := input.prevout.index } := by
      rw [named]
    rw [coin] at unspent ⊢
    exact issued txn inserted _ inside unspent
  · refine .inl (.inr (rows _ (leaves.rows _ unspent ⟨id, row, ?_, named⟩)))
    exact undone.2 id row there kept
  · exact .inr again

/-- A call of `claim` or of `append`. -/
inductive Request
  | claim (clock : Clock) (txn : Transaction) (verify : Bool)
  | append (clock : Clock) (block : Block)

/-- What a call leaves that succeeds. -/
def success : EStateM.Result Fault BlockChain Unit → Option BlockChain
  | .ok _ s => some s
  | .error _ _ => none

/-- A request is served: a claim that is accepted or refused, or an append that succeeds. -/
def serve (cfg : Config) (now : Option BlockChain) : Request → Option BlockChain
  | .claim clock txn verify => now.bind fun s => outcome (claim cfg clock txn verify s)
  | .append clock block => now.bind fun s => success (append cfg clock block s)

/-- What is asked of a request. -/
def RequestMeets (cfg : Config) (s : BlockChain) : Request → Prop
  | .claim _ _ _ => True
  | .append clock block => Spares cfg clock s block

/-- A claim keeps the claims consistent. -/
theorem Tended.afterClaim (tended : Tended cfg s) (verify : Bool) (txn : Transaction) :
    Tended cfg (afterClaim cfg clock verify s txn) := by
  unfold BlockChain.afterClaim
  cases tried : tryClaim cfg clock s txn verify with
  | error fault => exact tended
  | ok result =>
    obtain ⟨spents, fee⟩ := result
    have claimable := tryClaim_ok tried
    refine ⟨tended.reached, tended.sound, ?_, fun hash claim found input member => ?_⟩
    · show Claims.Apart (s.claims.insert cfg.prim clock.now txn spents fee 0)
      rw [claimable.spents_eq]
      exact tended.apart.insert claimable.fresh claimable.unspent
    · rcases Claims.lookup_of_insert claimable.fresh found with ⟨rfl, rfl⟩ | ⟨-, old⟩
      · rw [Claims.newClaim_txn] at member
        exact (claimable.refers tended.sound member).claimed
      · exact (tended.refers hash claim old input member).claimed

theorem reclaim_apart (apart : s.claims.Apart) (txns : List Transaction) :
    (reclaim cfg clock s txns).claims.Apart := by
  induction txns generalizing s with
  | nil => exact apart
  | cons txn txns ih =>
    refine ih ?_
    unfold BlockChain.afterClaim
    cases tried : tryClaim cfg clock s txn false with
    | error fault => exact apart
    | ok result =>
      have claimable := tryClaim_ok tried
      show Claims.Apart (s.claims.insert cfg.prim clock.now txn result.1 result.2 0)
      rw [claimable.spents_eq]
      exact apart.insert claimable.fresh claimable.unspent

/-- An append that spares the claims keeps them consistent. -/
theorem Tended.append (tended : Tended cfg s) {block : Block} (spares : Spares cfg clock s block) {done : Unit}
    (run : append cfg clock block s = .ok done s') : Tended cfg s' := by
  have ends : Outcome cfg clock s block (.ok done s') := by
    rw [← run]
    exact append_outcome block
  obtain ⟨known, reached⟩ := tended.reached
  cases ends with
  | branched accepted branch =>
    obtain ⟨fresh, connected, -⟩ := accepted.offered reached
    exact ⟨⟨_, .insert reached fresh connected accepted.grown⟩, tended.sound, tended.apart, tended.refers⟩
  | @committed prev prevHeight invalidTree tree changes unconfirmed confirmed s₁ s₂ accepted moved reorganized told =>
    obtain ⟨sound, waits⟩ := spares.waits tended accepted moved reorganized told
    obtain ⟨fresh, connected, -⟩ := accepted.offered reached
    have same_tree : (settle cfg clock unconfirmed confirmed s₂).tree = tree := committed_tree reorganized told
    have same_ledger : (settle cfg clock unconfirmed confirmed s₂).ledger = s₂.ledger :=
      settle_keeps (fun _ _ => rfl) (fun _ _ => rfl) _ _ _
    have pool : s₂.claims = s.claims := Settles.claims ⟨_, _, _, _, _, _, accepted, moved, reorganized, told⟩
    have cleared_apart : (cleared clock confirmed s₂).claims.Apart := by
      refine Claims.Apart.foldl_erase (Claims.Apart.foldl_erase ?_ _) _
      rw [pool]
      exact tended.apart
    refine ⟨⟨refOf cfg block prev.hash :: known, ?_⟩, ?_, reclaim_apart cleared_apart _,
      fun hash claim found input member => (waits.reclaim sound).refers found member⟩
    · rw [same_tree]
      exact .insert reached fresh connected accepted.grown
    · rwa [same_ledger]

/-- A chain without claims, as the constructor leaves it: the tree was assigned, and the tries are those of the
tables. -/
structure Opened (cfg : Config) (s : BlockChain) : Prop where
  assigned : ∃ refs, BlockTree.Linked refs ∧ BlockTree.empty.assign refs = .ok s.tree
  sound : s.ledger.stock.Sound cfg.validationDepth
  unclaimed : s.claims = Claims.empty

theorem Opened.tended (opened : Opened cfg s) : Tended cfg s := by
  obtain ⟨⟨refs, linked, assigned⟩, sound, unclaimed⟩ := opened
  refine ⟨⟨_, .assign linked assigned⟩, sound, ?_, ?_⟩
  · rw [unclaimed]
    exact Claims.apart_empty
  · rw [unclaimed]
    intro hash claim found
    simp [Claims.empty] at found

theorem outcome_final {result : EStateM.Result Fault BlockChain Unit} (done : outcome result = some s) :
    s = final result := by
  cases result with
  | ok a s => exact (Option.some.inj done).symm
  | error fault s =>
    cases fault with
    | undefined => cases done
    | reject what => exact (Option.some.inj done).symm
    | error what => exact (Option.some.inj done).symm

theorem Tended.serve (tended : Tended cfg s) {request : Request} (met : RequestMeets cfg s request)
    (done : serve cfg (some s) request = some s') : Tended cfg s' := by
  cases request with
  | claim clock txn verify =>
    have last : final (claim cfg clock txn verify s) = BlockChain.afterClaim cfg clock verify s txn :=
      final_claim txn verify
    rw [outcome_final done, last]
    exact tended.afterClaim verify txn
  | append clock block =>
    have done : success (BlockChain.append cfg clock block s) = some s' := done
    cases run : BlockChain.append cfg clock block s with
    | error fault s₁ =>
      rw [run] at done
      cases done
    | ok a s₁ =>
      rw [run] at done
      obtain rfl := Option.some.inj done
      exact tended.append met run

/-- **The claims are consistent with the chain** after every call of a run whose appends spare them. -/
theorem claims_consistent {requests : List Request} (opened : Opened cfg s)
    (along : AlongSteps (serve cfg) (fun now request => ∀ s ∈ now,
      RequestMeets cfg s request) (some s) requests) :
    AlongStates (serve cfg) (fun now => ∀ s ∈ now, Consistent s) (some s) requests := by
  have given : ∀ now : Option BlockChain, (∀ s ∈ now, Tended cfg s) → ∀ s ∈ now, Consistent s :=
    fun now tended s is => (tended s is).consistent
  have kept : ∀ (now : Option BlockChain) request, (∀ s ∈ now, Tended cfg s) →
      (∀ s ∈ now, RequestMeets cfg s request) → ∀ s' ∈ BlockChain.serve cfg now request, Tended cfg s' := by
    intro now request tended met s' done
    cases now with
    | none => cases request <;> cases done
    | some s => exact (tended s rfl).serve (met s rfl) done
  refine AlongStates.of_inv given kept ?_ along
  rintro s' ⟨⟩
  exact opened.tended

/-- A block on the tip detaches nothing, and spares the claims if its transactions do. -/
theorem Tended.spares_tip (tended : Tended cfg s) {block : Block} {tip : BlockRef Uint256}
    (best : s.tree.trunk.getLast? = some tip) (onto : block.prevBlock = tip.hash)
    (spared : ∀ hash claim, Stays cfg clock s block.transactions.tail hash claim → ∀ input ∈ claim.txn.inputs,
      ∀ old again, (∀ cnf, ¬old cnf) →
        Spared cfg clock s block.transactions.tail old again hash input.prevout) : Spares cfg clock s block := by
  obtain ⟨known, reached⟩ := tended.reached
  constructor
  · intro prev prevHeight invalidTree tree changes accepted detaches
    obtain ⟨-, -, before⟩ := accepted.offered reached
    rcases accepted.tip_changes reached best (before.trans onto) with rfl | rfl
    · exact absurd rfl detaches
    · exact absurd rfl detaches
  · intro prev prevHeight invalidTree tree changes unconfirmed confirmed s' accepted settles hash claim stays input member
    obtain ⟨-, -, before⟩ := accepted.offered reached
    obtain ⟨_, _, _, _, changes', _, accepted', moved, -, -⟩ := settles
    obtain ⟨-, -, -, -, rfl⟩ := accepted'.unique accepted
    rcases accepted.tip_changes reached best (before.trans onto) with rfl | rfl
    · exact absurd rfl moved
    · have txns : (grown cfg block invalidTree tree s).txnsOf
          ({ deleted := [], inserted := [cfg.prim.headerHash block.toBlockHeader] } :
            Changes Uint256).inserted.reverse =
            block.transactions.tail := by
        unfold txnsOf
        rw [List.reverse_singleton, List.flatMap_singleton, Map.getD_lookup]
        exact congrArg (fun found : Option Block => (found.getD Block.null).transactions.tail)
          (Map.lookup_insert_self _ _ _)
      rw [txns] at stays ⊢
      refine spared hash claim stays input member _ _ ?_
      rintro cnf ⟨row, -, hash, gone, -⟩
      cases gone

/-- A new chain is opened without claims. -/
theorem create_opened {genesis : Block} {unspentIndex : Bool} {purgeDepth : Int}
    (trie : cfg.validationDepth ≠ 0 → unspentIndex = false)
    (run : create cfg clock genesis unspentIndex purgeDepth = .ok s) : Opened cfg s := by
  have assigned := create_assigned run
  obtain ⟨tree, start, blk, ledger, locator, result, -, -, -, -, -, -, attached, rfl⟩ := create_ok run
  exact ⟨assigned, (attach_leaves (sound_empty trie) attached).1.sound, rfl⟩

end Mempool

open Libcoin.Small in
/-- A block spends the coin of a claim: the claim stays, and its coin is gone. -/
theorem claims_dangle : ∃ s, created 1 0 = .ok s ∧ Opened (config 1 0) s ∧
    ¬ AlongStates (serve (config 1 0)) (fun now => ∀ s ∈ now, Consistent s) (some s)
      [.claim clock (spend 10 [(1, 0)] [45]) true,
        .append clock (mined 2 1 [coinbase 2 [50], spend 11 [(1, 0)] [50]])] := by
  have run : (do
      let s ← (created 1 0).toOption
      let s ← Run.final (serve (config 1 0)) (some s)
        [.claim clock (spend 10 [(1, 0)] [45]) true,
          .append clock (mined 2 1 [coinbase 2 [50], spend 11 [(1, 0)] [50]])]
      return (s.claims.confirmations.toList.map fun entry => (entry.1, entry.2.txn.inputs.map Input.prevout),
        s.ledger.db.unspents.rows.toList.map fun entry => entry.2.key)) =
        some ([(10, [{ hash := 1, index := 0 }])], [{ hash := 11, index := 0 }, { hash := 2, index := 0 }]) := by
    decide +kernel
  obtain ⟨s, done, run⟩ := Option.bind_eq_some_iff.mp run
  obtain ⟨s', last, run⟩ := Option.bind_eq_some_iff.mp run
  obtain ⟨claims, rows⟩ := Prod.mk.inj (Option.some.inj run)
  have created := toOption_eq_some.mp done
  refine ⟨s, created, create_opened (by decide) created, fun along => ?_⟩
  have consistent : Consistent s' := along.final s' last
  -- the claim is still there, with its input
  have pooled : (10, [{ hash := 1, index := 0 }]) ∈
      s'.claims.confirmations.toList.map fun entry => (entry.1, entry.2.txn.inputs.map Input.prevout) := by
    rw [claims]
    exact List.mem_cons_self
  obtain ⟨⟨hash, claim⟩, inside, same⟩ := List.mem_map.mp pooled
  obtain ⟨rfl, inputs⟩ := Prod.mk.inj same
  obtain ⟨input, others, listed, named, -⟩ := List.map_eq_cons_iff.mp inputs
  have member : input ∈ claim.txn.inputs := by
    rw [listed]
    exact List.mem_cons_self
  rcases consistent.refers 10 claim (Map.mem_toList.mp inside) input member with
    ⟨-, parent, stored, -⟩ | ⟨id, row, stored, key⟩
  · have listed : (input.prevout.hash, parent.txn.inputs.map Input.prevout) ∈
        s'.claims.confirmations.toList.map fun entry => (entry.1, entry.2.txn.inputs.map Input.prevout) :=
      List.mem_map.mpr ⟨_, Map.mem_toList.mpr stored, rfl⟩
    rw [claims, named, List.mem_singleton] at listed
    exact absurd (Prod.mk.inj listed).1 (by decide)
  · have listed : row.key ∈ s'.ledger.db.unspents.rows.toList.map fun entry => entry.2.key :=
      List.mem_map.mpr ⟨_, Map.mem_toList.mpr stored, rfl⟩
    rw [rows, key, named] at listed
    exact absurd listed (by decide)

open Libcoin.Small in
/-- A block confirms a claim that another claim spends. -/
theorem claims_confirmed : ∃ s, created 1 0 = .ok s ∧
    AlongStates (serve (config 1 0)) (fun now => ∀ s ∈ now, Consistent s) (some s)
      [.claim clock (spend 10 [(1, 0)] [45]) true, .claim clock (spend 11 [(10, 0)] [44]) true,
        .append clock (mined 2 1 [coinbase 2 [50], spend 10 [(1, 0)] [45]])] := by
  have run : (do
      let s ← (created 1 0).toOption
      let s₁ ← serve (config 1 0) (some s) (.claim clock (spend 10 [(1, 0)] [45]) true)
      let s₂ ← serve (config 1 0) (some s₁) (.claim clock (spend 11 [(10, 0)] [44]) true)
      return (s₂.tree.trunk.getLast?.map BlockRef.hash,
        s₂.claims.confirmations.toList.map fun entry => (entry.1, entry.2.txn.inputs.map Input.prevout))) =
        some (some 1, [(10, [{ hash := 1, index := 0 }]), (11, [{ hash := 10, index := 0 }])]) := by
    decide +kernel
  obtain ⟨s, done, run⟩ := Option.bind_eq_some_iff.mp run
  obtain ⟨s₁, first, run⟩ := Option.bind_eq_some_iff.mp run
  obtain ⟨s₂, second, run⟩ := Option.bind_eq_some_iff.mp run
  obtain ⟨best, claims⟩ := Prod.mk.inj (Option.some.inj run)
  obtain ⟨tip, best, named⟩ := Option.map_eq_some_iff.mp best
  have created := toOption_eq_some.mp done
  have opened : Opened (config 1 0) s := create_opened (by decide) created
  have met : ∀ s txn, RequestMeets (config 1 0) s (.claim clock txn true) := fun _ _ => trivial
  have tended : Tended (config 1 0) s₂ := (opened.tended.serve (met _ _) first).serve (met _ _) second
  have spares : Spares (config 1 0) clock s₂ (mined 2 1 [coinbase 2 [50], spend 10 [(1, 0)] [45]]) := by
    refine tended.spares_tip best (by rw [named]; decide) fun hash claim stays input member old again never => ?_
    have listed : (hash, claim.txn.inputs.map Input.prevout) ∈
        s₂.claims.confirmations.toList.map fun entry => (entry.1, entry.2.txn.inputs.map Input.prevout) :=
      List.mem_map.mpr ⟨_, Map.mem_toList.mpr stays.pooled, rfl⟩
    rw [claims] at listed
    rcases List.mem_cons.mp listed with same | later
    · exact absurd (Prod.mk.inj same).1.symm (stays.waiting (spend 10 [(1, 0)] [45]) (by decide))
    · have spent := List.mem_map_of_mem (f := Input.prevout) member
      rw [(Prod.mk.inj (List.mem_singleton.mp later)).2, List.mem_singleton] at spent
      rw [spent]
      exact .confirmed (spend 10 [(1, 0)] [45]) (by decide) (by decide) (by decide) (by decide)
  refine ⟨s, created, claims_consistent opened ⟨fun _ _ => met _ _, fun _ _ => met _ _, ?_, trivial⟩⟩
  rw [first, second]
  rintro _ ⟨⟩
  exact spares

end BlockChain

end Libcoin
