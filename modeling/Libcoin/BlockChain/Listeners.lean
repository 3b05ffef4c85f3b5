/-
What the listeners see of a block that the trunk takes.

* `attachBlocks_block`: a block that is attached has a coinbase.
* `reorganize_ok` takes a successful reorganisation apart; the blocks it attached are gone from the
  blocks of branches.
-/

import Libcoin.BlockChain.Flow

namespace Libcoin

open Exec

namespace BlockChain

section Calls

variable {cfg : Config} {clock : Clock} {s s' : BlockChain}

/-! ### Claims -/

theorem tryClaim_not_coinbase {txn : Transaction} {verify : Bool} {result : Finset Coin × Int}
    (run : tryClaim cfg clock s txn verify = .ok result) : txn.isCoinBase = false := by
  unfold tryClaim at run
  split at run
  · cases run
  · split at run
    · cases run
    · exact Bool.eq_false_of_not_eq_true ‹_›

/-- The calls that claims make are about transactions that are no coinbase. -/
theorem reclaim_calls (txns : List Transaction) (s : BlockChain) :
    ∃ made, (reclaim cfg clock s txns).calls = s.calls ++ made ∧
      (∀ call ∈ made, call.listener ∈ cfg.listeners ∧ call.txn.isCoinBase = false) := by
  induction txns generalizing s with
  | nil => exact ⟨[], (List.append_nil _).symm, nofun⟩
  | cons txn txns ih =>
    unfold reclaim at ih ⊢
    rw [List.foldl_cons, afterClaim]
    cases tried : tryClaim cfg clock s txn false with
    | error fault => exact ih s
    | ok result =>
      obtain ⟨spents, fee⟩ := result
      obtain ⟨made, total, allowed⟩ := ih (claimed cfg clock s txn spents fee)
      refine ⟨_, total.trans (List.append_assoc _ _ _), fun call member => ?_⟩
      rcases List.mem_append.mp member with first | later
      · obtain ⟨listener, subscribed, rfl⟩ := List.mem_map.mp first
        exact ⟨subscribed, tryClaim_not_coinbase tried⟩
      · exact allowed call later

theorem settle_calls (unconfirmed : Txns) (confirmed : Hashes) (s : BlockChain) :
    ∃ made, (settle cfg clock unconfirmed confirmed s).calls = s.calls ++ made ∧
      (∀ call ∈ made, call.listener ∈ cfg.listeners ∧ call.txn.isCoinBase = false) :=
  reclaim_calls _ _

/-! ### Blocks that are attached -/

/-- Every block that is attached has a coinbase. -/
theorem attachBlocks_coinbase {hashes : List Uint256} {blk blk' : Option Blk}
    {unconfirmed unconfirmed' : Txns} {confirmed confirmed' : Hashes}
    (run : attachBlocks cfg clock hashes blk unconfirmed confirmed s =
      .ok (blk', unconfirmed', confirmed') s') {hash : Uint256} (member : hash ∈ hashes) {at_ : Blk}
    (found : s.tree.blkOf hash = .ok at_) :
    ∃ coinbase txns, (s.branches.getD at_.hash Block.null).transactions = coinbase :: txns ∧
      coinbase.isCoinBase = true := by
  induction hashes generalizing s blk unconfirmed confirmed with
  | nil => cases member
  | cons first hashes ih =>
    unfold attachBlocks at run
    obtain ⟨⟨one, known, done⟩, mid, first_run, run⟩ := bind_ok.mp run
    obtain ⟨found_first, branches, ledger, rfl, same, attached⟩ := attachBlock_ok first_run
    rcases List.mem_cons.mp member with rfl | later
    · obtain rfl := Except.ok.inj (found_first.symm.trans found)
      obtain ⟨coinbase, txns, one, fees, two, transactions, -, -, -, -, subsidy, -⟩ := attach_ok attached
      obtain ⟨cnf, input, three, four, five, is, -⟩ := postSubsidy_ok subsidy
      exact ⟨coinbase, txns, transactions, is⟩
    · have rest := ih run later found
      rw [← same at_.hash]
      exact rest

/-! ### An append that moves the trunk -/

/-- An append that commits and extends or reorganises the trunk, with the changes of the tree, and the
blocks that `_branches` has once the deleted blocks are detached. -/
structure Extends (cfg : Config) (clock : Clock) (s : BlockChain) (block : Block)
    (changes : BlockTree.Changes Uint256) (blockOf : Uint256 → Block) (s' : BlockChain) : Prop where
  done : append cfg clock block s = .ok () s'
  moved : changes.inserted ≠ []
  detached : ∃ prev prevHeight invalidTree tree unconfirmed mid,
    Accepted cfg s block prev prevHeight invalidTree tree changes ∧
      detachBlocks cfg clock changes.deleted ∅ (grown cfg block invalidTree tree s) = .ok unconfirmed mid ∧
      ∀ hash, blockOf hash = mid.branches.getD hash Block.null

/-- The calls that are due: each listener, for each transaction of each block that is attached. -/
def callsDue (cfg : Config) (changes : BlockTree.Changes Uint256) (blockOf : Uint256 → Block)
    (t : BlockTree Uint256) : List Call :=
  changes.inserted.flatMap fun hash => callsFor cfg (blockOf hash) (t.heights.getD hash 0)

/-- The calls that `append` has made. -/
def callsMade (s s' : BlockChain) : List Call := s'.calls.drop s.calls.length

variable {block : Block} {changes : BlockTree.Changes Uint256} {blockOf : Uint256 → Block}

/-- Every append that changes the trunk is such an append. -/
theorem Extends.of_trunk (done : append cfg clock block s = .ok () s')
    (changed : s'.tree.trunk ≠ s.tree.trunk) :
    ∃ changes blockOf, Extends cfg clock s block changes blockOf s' := by
  have ends : Outcome cfg clock s block (append cfg clock block s) := append_outcome block
  rw [done] at ends
  cases ends with
  | branched accepted branch =>
    rcases insert_trunk accepted.grown with ⟨-, same, -⟩ | ⟨low, rest, inserted, -⟩
    · exact absurd same changed
    · rw [branch] at inserted
      cases inserted
  | committed accepted moved reorganized told =>
    obtain ⟨known, mid, blk, s₃, locator, detached, -⟩ := reorganize_ok reorganized
    exact ⟨_, _, done, moved, _, _, _, _, known, mid, accepted, detached, fun _ => rfl⟩

/-- The parts of such an append. -/
theorem Extends.parts (extends_ : Extends cfg clock s block changes blockOf s') :
    ∃ prev prevHeight invalidTree tree unconfirmed confirmed s₁ s₂,
      Accepted cfg s block prev prevHeight invalidTree tree changes ∧
      reorganize cfg clock block prevHeight changes (grown cfg block invalidTree tree s) =
        .ok (unconfirmed, confirmed) s₁ ∧
      notify cfg (cfg.prim.headerHash block.toBlockHeader) changes.inserted s₁ = .ok () s₂ ∧
      settle cfg clock unconfirmed confirmed s₂ = s' ∧
      ∃ known mid, detachBlocks cfg clock changes.deleted ∅ (grown cfg block invalidTree tree s) =
        .ok known mid ∧ ∀ hash, blockOf hash = mid.branches.getD hash Block.null := by
  obtain ⟨prev, prevHeight, invalidTree, tree, known, mid, accepted, detached, blockOf_eq⟩ := extends_.detached
  have ends : Outcome cfg clock s block (append cfg clock block s) := append_outcome block
  rw [extends_.done] at ends
  cases ends with
  | branched accepted' branch =>
    obtain ⟨-, -, -, -, rfl⟩ := accepted.unique accepted'
    exact absurd branch extends_.moved
  | committed accepted' moved done told =>
    obtain ⟨rfl, rfl, rfl, rfl, rfl⟩ := accepted.unique accepted'
    exact ⟨_, _, _, _, _, _, _, _, accepted, done, told, rfl, known, mid, detached, blockOf_eq⟩

/-- All the calls that are made are about claims. -/
theorem Extends.calls (extends_ : Extends cfg clock s block changes blockOf s') :
    ∀ call ∈ callsMade s s', call.listener ∈ cfg.listeners ∧ call.txn.isCoinBase = false := by
  obtain ⟨prev, prevHeight, invalidTree, tree, unconfirmed, confirmed, s₁, s₂, accepted, done, told, rfl, -⟩ :=
    extends_.parts
  obtain ⟨low, rest, first, split, height⟩ := (insert_trunk accepted.grown).resolve_left fun stays =>
    extends_.moved (by rw [stays.1])
  have same_tree : s₁.tree = tree := (reorganize_keeps ignores_tree _ _ _).ok done
  have same_calls : s₁.calls = (grown cfg block invalidTree tree s).calls :=
    (reorganize_keeps ignores_calls _ _ _).ok done
  obtain ⟨known, mid, blk, s₃, locator, -, -, last⟩ := reorganize_ok done
  -- the block was erased from the map, which gives the null block for it
  have gone : s₁.branches.getD (refOf cfg block prev.hash).hash Block.null = Block.null := by
    rw [last, Map.getD_lookup]
    show ((Map.eraseAll changes.inserted s₃.branches)[(refOf cfg block prev.hash).hash]?).getD _ = _
    rw [Map.lookup_eraseAll, if_pos (by rw [first]; exact List.mem_cons_self)]
    rfl
  have found := heightAt_tip split height
  rw [← same_tree] at found
  obtain ⟨branches, told'⟩ : ∃ branches,
      notify cfg (refOf cfg block prev.hash).hash changes.inserted s₁ = _ := notify_run found changes.inserted
  have quiet : s₂.calls = s.calls := by
    rw [← (EStateM.Result.ok.inj (told'.symm.trans told)).2]
    show s₁.calls ++ changes.inserted.flatMap _ = s.calls
    rw [gone, same_calls]
    simp [callsFor, Block.null, grown]
  obtain ⟨made, total, allowed⟩ : ∃ made, (settle cfg clock unconfirmed confirmed s₂).calls = s₂.calls ++ made ∧
      ∀ call ∈ made, call.listener ∈ cfg.listeners ∧ call.txn.isCoinBase = false := settle_calls _ _ s₂
  rw [quiet] at total
  intro call member
  unfold callsMade at member
  rw [total, List.drop_left] at member
  exact allowed call member

/-- The block that was offered is attached with a coinbase. -/
theorem Extends.coinbase (extends_ : Extends cfg clock s block changes blockOf s') :
    ∃ hash ∈ changes.inserted, ∃ coinbase txns,
      (blockOf hash).transactions = coinbase :: txns ∧ coinbase.isCoinBase = true := by
  obtain ⟨prev, prevHeight, invalidTree, tree, unconfirmed, confirmed, s₁, s₂, accepted, done, -, -, known, mid,
    detached, blockOf_eq⟩ := extends_.parts
  obtain ⟨low, rest, first, split, height⟩ := (insert_trunk accepted.grown).resolve_left fun stays =>
    extends_.moved (by rw [stays.1])
  obtain ⟨known', mid', blk, s₃, locator, detached', attached, -⟩ := reorganize_ok done
  obtain ⟨rfl, rfl⟩ := EStateM.Result.ok.inj (detached.symm.trans detached')
  have same_tree : mid.tree = tree := (detachBlocks_keeps ignores_tree.toIgnores _ _).ok detached
  have found := blkOf_tip split height
  rw [← same_tree] at found
  have inserted : (refOf cfg block prev.hash).hash ∈ changes.inserted := by
    rw [first]
    exact List.mem_cons_self
  refine ⟨_, inserted, ?_⟩
  rw [blockOf_eq]
  exact attachBlocks_coinbase attached (List.mem_reverse.mpr inserted) found

/-- **Listeners are told about the blocks of the trunk only if there are none.** -/
theorem listeners_called_iff (extends_ : Extends cfg clock s block changes blockOf s') :
    (callsMade s s').Perm (callsDue cfg changes blockOf s'.tree) ↔ cfg.listeners = [] := by
  constructor
  · intro perm
    by_contra some_listener
    obtain ⟨listener, subscribed⟩ := List.exists_mem_of_ne_nil _ some_listener
    obtain ⟨hash, inserted, coinbase, txns, transactions, is_coinbase⟩ := extends_.coinbase
    have due : (⟨listener, coinbase, s'.tree.heights.getD hash 0⟩ : Call) ∈
        callsDue cfg changes blockOf s'.tree := by
      refine List.mem_flatMap.mpr ⟨hash, inserted, List.mem_flatMap.mpr ⟨coinbase, ?_, ?_⟩⟩
      · rw [transactions]
        exact List.mem_cons_self
      · exact List.mem_map.mpr ⟨listener, subscribed, rfl⟩
    have not_coinbase := (extends_.calls _ (perm.mem_iff.mpr due)).2
    rw [is_coinbase] at not_coinbase
    cases not_coinbase
  · intro nobody
    have none_due : callsDue cfg changes blockOf s'.tree = [] := by
      simp [callsDue, callsFor, nobody]
    have none_made : callsMade s s' = [] := by
      refine List.eq_nil_iff_forall_not_mem.mpr fun call made => ?_
      have subscribed := (extends_.calls call made).1
      rw [nobody] at subscribed
      cases subscribed
    rw [none_due, none_made]

end Calls

open Libcoin.Small in
/-- A block on the genesis block: the append that commits it makes no call. -/
theorem created_append : ∃ s s', created 1 0 = .ok s ∧
    append (config 1 0) clock (mined 2 1 [coinbase 2 [50]]) s = .ok () s' ∧
    s'.tree.trunk ≠ s.tree.trunk ∧ s'.calls = [] := by
  have run : (do
      let s ← (created 1 0).toOption
      match append (config 1 0) clock (mined 2 1 [coinbase 2 [50]]) s with
      | .ok _ s' => some (s.tree.trunk.length, s'.tree.trunk.length, s'.calls)
      | .error _ _ => none) = some (1, 2, []) := by decide +kernel
  obtain ⟨s, created, run⟩ := Option.bind_eq_some_iff.mp run
  cases done : append (config 1 0) clock (mined 2 1 [coinbase 2 [50]]) s with
  | error fault s' =>
    rw [done] at run
    cases run
  | ok done_ s' =>
    rw [done] at run
    obtain ⟨before, run⟩ := Prod.mk.inj (Option.some.inj run)
    obtain ⟨after, quiet⟩ := Prod.mk.inj run
    refine ⟨s, s', toOption_eq_some.mp created, done, fun same => ?_, quiet⟩
    rw [same, before] at after
    cases after

open Libcoin.Small in
theorem listeners_not_called : ∃ s s' changes blockOf, created 1 0 = .ok s ∧
    Extends (config 1 0) clock s (mined 2 1 [coinbase 2 [50]]) changes blockOf s' ∧
    ¬ (callsMade s s').Perm (callsDue (config 1 0) changes blockOf s'.tree) := by
  obtain ⟨s, s', created, done, changed, quiet⟩ := created_append
  obtain ⟨changes, blockOf, extends_⟩ := Extends.of_trunk done changed
  refine ⟨s, s', changes, blockOf, created, extends_, fun perm => ?_⟩
  have none_made : callsMade s s' = [] := by
    unfold callsMade
    rw [quiet, List.drop_nil]
  obtain ⟨hash, inserted, coinbase, txns, transactions, -⟩ := extends_.coinbase
  have due : (⟨0, coinbase, s'.tree.heights.getD hash 0⟩ : Call) ∈
      callsDue (config 1 0) changes blockOf s'.tree := by
    refine List.mem_flatMap.mpr ⟨hash, inserted, List.mem_flatMap.mpr ⟨coinbase, ?_, ?_⟩⟩
    · rw [transactions]
      exact List.mem_cons_self
    · exact List.mem_singleton_self _
  rw [← perm.mem_iff, none_made] at due
  cases due

open Libcoin.Small in
theorem listeners_called_iff_small : ∃ s s' changes blockOf,
    Extends (config 1 0) clock s (mined 2 1 [coinbase 2 [50]]) changes blockOf s' ∧
    ((callsMade s s').Perm (callsDue (config 1 0) changes blockOf s'.tree) ↔
      (config 1 0).listeners = []) := by
  obtain ⟨s, s', -, done, changed, -⟩ := created_append
  obtain ⟨changes, blockOf, extends_⟩ := Extends.of_trunk done changed
  exact ⟨s, s', changes, blockOf, extends_, listeners_called_iff extends_⟩

end BlockChain

end Libcoin
