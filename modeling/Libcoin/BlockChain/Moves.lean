/-
How a call of `append` moves the trunk.

* `Shift` is what the two loops of a reorganisation meet: the blocks that leave the trunk and those that
  enter it, with their counts in the new tree.
* `Commits` asks that only an append on the tip fails inside of the database transaction. `Ended` lists
  the ways in which such a call ends, and `Ended.reached` says that the tree stays one that insertions
  reach.
-/

import Libcoin.BlockChain.Runs
import Libcoin.Tree.PopBack

namespace Libcoin

open Exec
open BlockTree (Represents Reached Moved Changes)

namespace BlockChain

variable {cfg : Config} {clock : Clock} {s s' : BlockChain}

/-! ### Looking a block up -/

section Lookup

variable {t : BlockTree Uint256} {known : List (BlockRef Uint256)} {b : BlockRef Uint256}

/-- A known block is found, at its depth. -/
theorem blkOf_known (rep : Represents known t) (grown : Grown known) (member : b ∈ known) :
    ∃ blk, t.blkOf b.hash = .ok blk ∧ blk.hash = b.hash ∧ blk.count = depth known b.hash + 1 := by
  have above : 0 ≤ depth known b.hash := Represents.depth_nonneg grown member
  have height : ∃ h : Int, t.heightOf b.hash = .ok h ∧ (h.natAbs : Int) = depth known b.hash := by
    by_cases on : b ∈ t.trunk
    · exact ⟨_, rep.heightOf_trunk on, by omega⟩
    · exact ⟨_, rep.heightOf_branch member on, by omega⟩
  obtain ⟨h, height, same⟩ := height
  refine ⟨{ hash := b.hash, time := b.time, height := h
            prevHash := (t.back b).toOption.elim 0 BlockRef.hash }, ?_, rfl, ?_⟩
  · unfold BlockTree.blkOf
    rw [rep.find_known grown member]
    show (t.heightOf b.hash >>= _) = _
    rw [height]
    rfl
  · unfold Blk.count
    dsimp only
    omega

/-- The depth of a block of the trunk is its index. -/
theorem depth_trunk (rep : Represents known t) (grown : Grown known) {low high : List (BlockRef Uint256)}
    (split : t.trunk = low ++ b :: high) : depth known b.hash = low.length := by
  have inside : b ∈ t.trunk := by
    rw [split]
    exact List.mem_append_right _ List.mem_cons_self
  have index := rep.indexed grown low b high split
  rw [rep.onTrunk b inside] at index
  exact Option.some.inj index

end Lookup

/-! ### Blocks that are detached -/

/-- Only the blocks that are detached are stored anew. -/
theorem detachBlocks_branches {hashes : List Uint256} {unconfirmed unconfirmed' : Txns}
    (run : detachBlocks cfg clock hashes unconfirmed s = .ok unconfirmed' s')
    (found : ∀ hash ∈ hashes, ∃ blk, s.tree.blkOf hash = .ok blk ∧ blk.hash = hash) {other : Uint256}
    (apart : other ∉ hashes) : s'.branches[other]? = s.branches[other]? := by
  induction hashes generalizing s unconfirmed with
  | nil =>
    obtain ⟨-, rfl⟩ := pure_ok.mp run
    rfl
  | cons hash hashes ih =>
    obtain ⟨known, blk, block, ledger, found_blk, detached, run⟩ := detachBlocks_cons_ok run
    obtain ⟨blk', found_blk', named⟩ := found hash List.mem_cons_self
    obtain rfl := Except.ok.inj (found_blk.symm.trans found_blk')
    rw [List.mem_cons, not_or] at apart
    obtain ⟨different, later⟩ := apart
    have rest := ih run (fun other later => found other (List.mem_cons_of_mem _ later)) later
    rw [rest, named]
    exact Map.lookup_insert_of_ne _ _ (Ne.symm different)

/-! ### A block that the trunk takes -/

/-- The trunk moves from `low ++ above` to `low ++ news`, and all these blocks are found at their heights in
the tree after it. -/
structure Shift (t t' : BlockTree Uint256) (changes : Changes Uint256)
    (low above news : List (BlockRef Uint256)) : Prop where
  old : t.trunk = low ++ above
  new : t'.trunk = low ++ news
  deleted : changes.deleted = hashes above
  inserted : changes.inserted.reverse = hashes news
  apart : ∀ b ∈ news, b.hash ∉ hashes above
  detached : ∀ before b after, above = before ++ b :: after →
    ∃ blk, t'.blkOf b.hash = .ok blk ∧ blk.hash = b.hash ∧ blk.count = (low.length + before.length + 1 : Nat)
  attached : ∀ before b after, news = before ++ b :: after →
    ∃ blk, t'.blkOf b.hash = .ok blk ∧ blk.hash = b.hash ∧ blk.count = (low.length + before.length + 1 : Nat)

theorem exists_shift {t t' : BlockTree Uint256} {known : List (BlockRef Uint256)} {ref : BlockRef Uint256}
    {changes : Changes Uint256} (reached : Reached known t) (fresh : ref.hash ∉ hashes known)
    (connected : ref.prev ∈ hashes known) (done : t.insert ref = .ok (t', changes))
    (moved : changes.inserted ≠ []) : ∃ low above news, Shift t t' changes low above news := by
  obtain ⟨grown, rep, -⟩ := reached.kept
  obtain ⟨grown', rep', -⟩ := (Reached.insert reached fresh connected done).kept
  obtain ⟨t'', changes', done', -, how, -⟩ := BlockTree.insert_spec rep grown fresh connected
  obtain ⟨rfl, rfl⟩ := Prod.mk.inj (Except.ok.inj (done'.symm.trans done))
  cases how with
  | nothing same => exact absurd rfl moved
  | best low above up old new forked apart =>
    refine ⟨low, above, up.reverse ++ [ref], old, new, rfl, ?_, apart, ?_, ?_⟩
    · simp [hashes, TreeElem.hash]
    · intro before b after split
      have there : t.trunk = (low ++ before) ++ b :: after := by rw [old, split, List.append_assoc]
      have inside : b ∈ t.trunk := by
        rw [there]
        exact List.mem_append_right _ List.mem_cons_self
      have member := rep.trunk_known inside
      obtain ⟨blk, found, named, counted⟩ := blkOf_known rep' grown' (List.mem_cons_of_mem ref member)
      have different : TreeElem.hash ref ≠ b.hash := by
        intro same
        exact fresh (List.mem_map.mpr ⟨b, member, same.symm⟩)
      refine ⟨blk, found, named, ?_⟩
      rw [counted, depth_cons_of_ne different, depth_trunk rep grown there, List.length_append]
      omega
    · intro before b after split
      have there : t''.trunk = (low ++ before) ++ b :: after := by rw [new, split, List.append_assoc]
      have inside : b ∈ t''.trunk := by
        rw [there]
        exact List.mem_append_right _ List.mem_cons_self
      obtain ⟨blk, found, named, counted⟩ := blkOf_known rep' grown' (rep'.trunk_known inside)
      refine ⟨blk, found, named, ?_⟩
      rw [counted, depth_trunk rep' grown' there, List.length_append]
      omega

section Shift

variable {t t' : BlockTree Uint256} {changes : Changes Uint256} {low above news : List (BlockRef Uint256)}

theorem Shift.split_deleted (shift : Shift t t' changes low above news) {hash : Uint256}
    (member : hash ∈ changes.deleted) :
    ∃ before b after, above = before ++ b :: after ∧ b.hash = hash := by
  rw [shift.deleted] at member
  obtain ⟨b, inside, rfl⟩ := List.mem_map.mp member
  obtain ⟨before, after, split⟩ := List.append_of_mem inside
  exact ⟨before, b, after, split, rfl⟩

theorem Shift.find_deleted (shift : Shift t t' changes low above news) {hash : Uint256}
    (member : hash ∈ changes.deleted) : ∃ blk, t'.blkOf hash = .ok blk ∧ blk.hash = hash := by
  obtain ⟨before, b, after, split, rfl⟩ := shift.split_deleted member
  obtain ⟨blk, found, named, -⟩ := shift.detached before b after split
  exact ⟨blk, found, named⟩

theorem Shift.find_inserted (shift : Shift t t' changes low above news) {hash : Uint256}
    (member : hash ∈ changes.inserted) :
    (∃ blk, t'.blkOf hash = .ok blk ∧ blk.hash = hash) ∧ hash ∉ changes.deleted := by
  have inside : hash ∈ hashes news := by
    rw [← shift.inserted]
    exact List.mem_reverse.mpr member
  obtain ⟨b, entering, rfl⟩ := List.mem_map.mp inside
  obtain ⟨before, after, split⟩ := List.append_of_mem entering
  obtain ⟨blk, found, named, -⟩ := shift.attached before b after split
  refine ⟨⟨blk, found, named⟩, ?_⟩
  rw [shift.deleted]
  exact shift.apart b entering

/-- A block that enters the trunk is the new one, or was on a branch. -/
theorem Shift.entering {known : List (BlockRef Uint256)} {ref : BlockRef Uint256}
    (shift : Shift t t' changes low above news) (grown : Grown (ref :: known))
    (rep : Represents (ref :: known) t')
    {b : BlockRef Uint256} (member : b ∈ news) : b = ref ∨ b ∈ known ∧ b ∉ t.trunk := by
  have on : b ∈ t'.trunk := by
    rw [shift.new]
    exact List.mem_append_right _ member
  refine (List.mem_cons.mp (rep.trunk_known on)).imp_right fun old => ⟨old, fun inside => ?_⟩
  rw [shift.old] at inside
  rcases List.mem_append.mp inside with low | high
  · have distinct := rep.trunk_hashes_nodup grown
    rw [shift.new, hashes_append] at distinct
    exact List.disjoint_of_nodup_append distinct (List.mem_map_of_mem low) (List.mem_map_of_mem member)
  · exact shift.apart b member (List.mem_map_of_mem high)

/-- A block that is not in the new trunk has left it, or was on a branch. -/
theorem Shift.outside (shift : Shift t t' changes low above news) {b : BlockRef Uint256}
    (off : b ∉ t'.trunk) : b.hash ∈ changes.deleted ∨ b ∉ t.trunk := by
  by_cases on : b ∈ t.trunk
  · refine .inl ?_
    rw [shift.old] at on
    rw [shift.new] at off
    rw [shift.deleted]
    refine List.mem_map_of_mem ((List.mem_append.mp on).resolve_left fun low => ?_)
    exact off (List.mem_append_left _ low)
  · exact .inr on

end Shift

/-! ### The ends of a call -/

/-- A block that is accepted is new, on a known one. -/
theorem Accepted.offered {block : Block} {prev : BlockRef Uint256} {prevHeight : Int}
    {invalidTree tree : BlockTree Uint256} {changes : Changes Uint256}
    (accepted : Accepted cfg s block prev prevHeight invalidTree tree changes)
    {known : List (BlockRef Uint256)} (reached : Reached known s.tree) :
    (refOf cfg block prev.hash).hash ∉ hashes known ∧ (refOf cfg block prev.hash).prev ∈ hashes known ∧
      prev.hash = block.prevBlock := by
  obtain ⟨grown, rep, -⟩ := reached.kept
  obtain ⟨unknown, connected, -⟩ := accepted.found
  have fresh : (refOf cfg block prev.hash).hash ∉ hashes known := by
    intro inside
    obtain ⟨b, member, same⟩ := List.mem_map.mp inside
    have found := rep.find_known grown member
    rw [show b.hash = cfg.prim.headerHash block.toBlockHeader from same, unknown] at found
    cases found
  by_cases inside : block.prevBlock ∈ hashes known
  · obtain ⟨b, member, same⟩ := List.mem_map.mp inside
    have found := rep.find_known grown member
    rw [show b.hash = block.prevBlock from same, connected] at found
    obtain rfl : prev = b := Option.some.inj (Except.ok.inj found)
    exact ⟨fresh, List.mem_map_of_mem member, same⟩
  · rw [rep.find_unknown inside] at connected
    cases connected

theorem Accepted.trunk_branch {block : Block} {prev : BlockRef Uint256} {prevHeight : Int}
    {invalidTree tree : BlockTree Uint256} {changes : Changes Uint256}
    (accepted : Accepted cfg s block prev prevHeight invalidTree tree changes) (branch : changes.inserted = []) :
    tree.trunk = s.tree.trunk := by
  rcases insert_trunk accepted.grown with ⟨-, trunk, -⟩ | ⟨low, rest, inserted, -⟩
  · exact trunk
  · rw [branch] at inserted
    cases inserted

theorem linked_genesis (ref : BlockRef Uint256) : BlockTree.Linked [ref] :=
  ⟨List.cons_ne_nil _ _, List.isChain_singleton _, List.nodup_singleton _⟩

/-- The tree of a new chain is assigned. -/
theorem create_assigned {genesis : Block} {unspentIndex : Bool} {purgeDepth : Int}
    (run : create cfg clock genesis unspentIndex purgeDepth = .ok s) :
    ∃ refs, BlockTree.Linked refs ∧ BlockTree.empty.assign refs = .ok s.tree := by
  obtain ⟨tree, start, blk, ledger, locator, result, assigned, -, -, -, -, -, -, rfl⟩ := create_ok run
  exact ⟨_, linked_genesis _, assigned⟩

/-- A block on the tip either goes on a branch or is all that the trunk takes. -/
theorem Accepted.tip_changes {block : Block} {prev : BlockRef Uint256} {prevHeight : Int}
    {invalidTree tree : BlockTree Uint256} {changes : Changes Uint256}
    (accepted : Accepted cfg s block prev prevHeight invalidTree tree changes)
    {known : List (BlockRef Uint256)} (reached : Reached known s.tree) {tip : BlockRef Uint256}
    (best : s.tree.trunk.getLast? = some tip) (onto : prev.hash = tip.hash) :
    changes = { deleted := [], inserted := [] } ∨
      changes = { deleted := [], inserted := [cfg.prim.headerHash block.toBlockHeader] } := by
  obtain ⟨grown, rep, -⟩ := reached.kept
  have onto_prev : tip.hash = (refOf cfg block prev.hash).prev := onto.symm
  by_cases heavier : BlockTree.workOf s.tree.trunk <
      BlockTree.workOf (lineage known tip.hash) + (refOf cfg block prev.hash).work
  · have done := BlockTree.insert_tip rep grown best onto_prev heavier
    exact .inr (Prod.mk.inj (Except.ok.inj (accepted.grown.symm.trans done))).2
  · have member : tip ∈ known := rep.trunk_known (List.mem_of_getLast? best)
    have done := BlockTree.insert_lighter rep grown member onto_prev (not_lt.mp heavier)
    exact .inl (Prod.mk.inj (Except.ok.inj (accepted.grown.symm.trans done))).2

/-- Where the trunk does more than grow by the offered block, what is done inside of the database transaction
does not throw. -/
def Commits (cfg : Config) (s : BlockChain) (call : Clock × Block) : Prop :=
  ∀ prev prevHeight invalidTree tree changes,
    Accepted cfg s call.2 prev prevHeight invalidTree tree changes → changes.inserted ≠ [] →
      (∀ tip, s.tree.trunk.getLast? = some tip → prev.hash ≠ tip.hash) →
      ∃ result s', reorganize cfg call.1 call.2 prevHeight changes (grown cfg call.2 invalidTree tree s) =
        .ok result s'

/-- A call that returns commits. -/
theorem commits_of_append {call : Clock × Block}
    (returns : succeeds (append cfg call.1 call.2 s) (fun _ _ => true) = true) : Commits cfg s call := by
  intro prev prevHeight invalidTree tree changes accepted moved apart
  have ends : Outcome cfg call.1 s call.2 (append cfg call.1 call.2 s) := append_outcome call.2
  obtain ⟨_, s', ran, -⟩ := of_succeeds returns
  rw [ran] at ends
  cases ends with
  | branched accepted' branch =>
    obtain ⟨-, -, -, -, rfl⟩ := accepted.unique accepted'
    exact absurd branch moved
  | committed accepted' moved' done told =>
    obtain ⟨rfl, rfl, rfl, rfl, rfl⟩ := accepted.unique accepted'
    exact ⟨_, _, done⟩

/-- The ends of a call that returns or throws, and fails inside of the database transaction only on the tip. -/
inductive Ended (cfg : Config) (clock : Clock) (s : BlockChain) (block : Block) : BlockChain → Prop
  | refused (invalidTree : BlockTree Uint256) : Ended cfg clock s block { s with invalidTree := invalidTree }
  | forbidden {prev prevHeight invalidTree tree changes}
    (accepted : Accepted cfg s block prev prevHeight invalidTree tree changes)
    (branch : changes.inserted = []) (early : prevHeight < cfg.chain.totalBlocksEstimate) :
    Ended cfg clock s block { s with invalidTree := invalidTree, tree := tree }
  | branched {prev prevHeight invalidTree tree changes}
    (accepted : Accepted cfg s block prev prevHeight invalidTree tree changes)
    (branch : changes.inserted = []) : Ended cfg clock s block (grown cfg block invalidTree tree s)
  | committed {prev prevHeight invalidTree tree changes unconfirmed confirmed s₁ s₂}
    (accepted : Accepted cfg s block prev prevHeight invalidTree tree changes)
    (moved : changes.inserted ≠ [])
    (done : reorganize cfg clock block prevHeight changes (grown cfg block invalidTree tree s) =
      .ok (unconfirmed, confirmed) s₁)
    (told : notify cfg (cfg.prim.headerHash block.toBlockHeader) changes.inserted s₁ = .ok () s₂) :
    Ended cfg clock s block (settle cfg clock unconfirmed confirmed s₂)
  | undone {prev prevHeight invalidTree tree changes fault s₁ tip}
    (accepted : Accepted cfg s block prev prevHeight invalidTree tree changes)
    (moved : changes.inserted ≠ []) (best : s.tree.trunk.getLast? = some tip) (onto : prev.hash = tip.hash)
    (failed : reorganize cfg clock block prevHeight changes (grown cfg block invalidTree tree s) =
      .error fault s₁) :
    Ended cfg clock s block
      { s₁ with
        tree := s.tree
        ledger := { s₁.ledger with db := s.ledger.db, spendables := s.ledger.spendables } }

theorem committed_tree {block : Block} {prevHeight : Int} {changes : Changes Uint256} {unconfirmed : Txns}
    {confirmed : Hashes} {hash : Uint256} {s₁ s₂ : BlockChain}
    (done : reorganize cfg clock block prevHeight changes s = .ok (unconfirmed, confirmed) s₁)
    (told : notify cfg hash changes.inserted s₁ = .ok () s₂) :
    (settle cfg clock unconfirmed confirmed s₂).tree = s.tree := by
  have one : s₁.tree = s.tree := (reorganize_keeps ignores_tree _ _ _).ok done
  have two : s₂.tree = s₁.tree := (notify_keeps (fun _ _ => rfl) (fun _ _ => rfl) _ _).ok told
  have last : (settle cfg clock unconfirmed confirmed s₂).tree = s₂.tree :=
    settle_keeps (fun _ _ => rfl) (fun _ _ => rfl) _ _ _
  rw [last, two, one]

/-- A failed append that only extended the trunk takes its block off again, and no other fails. -/
theorem Commits.popped {block : Block} (commits : Commits cfg s (clock, block))
    {known : List (BlockRef Uint256)} (reached : Reached known s.tree) {prev : BlockRef Uint256}
    {prevHeight : Int} {invalidTree tree : BlockTree Uint256} {changes : Changes Uint256} {fault : Fault}
    {s₁ : BlockChain} (accepted : Accepted cfg s block prev prevHeight invalidTree tree changes)
    (moved : changes.inserted ≠ [])
    (failed : reorganize cfg clock block prevHeight changes (grown cfg block invalidTree tree s) =
      .error fault s₁) :
    tree.popBack = .ok s.tree ∧ ∃ tip, s.tree.trunk.getLast? = some tip ∧ prev.hash = tip.hash := by
  obtain ⟨fresh, connected, -⟩ := accepted.offered reached
  have onto : ∃ tip, s.tree.trunk.getLast? = some tip ∧ prev.hash = tip.hash := by
    by_contra other
    obtain ⟨result, s', done⟩ := commits _ _ _ _ _ accepted moved fun tip best same => other ⟨tip, best, same⟩
    rw [failed] at done
    cases done
  exact ⟨(BlockTree.popBack_insert_iff reached fresh connected accepted.grown moved).mpr onto, onto⟩

theorem Commits.ended {call : Clock × Block} (commits : Commits cfg s call)
    (reached : ∃ known, Reached known s.tree) (done : outcome (append cfg call.1 call.2 s) = some s') :
    Ended cfg call.1 s call.2 s' := by
  obtain ⟨known, reached⟩ := reached
  obtain ⟨clock, block⟩ := call
  have ends : Outcome cfg clock s block (append cfg clock block s) := append_outcome block
  dsimp only at done
  generalize append cfg clock block s = result at ends done
  cases ends with
  | refused invalidTree fault =>
    have same : s' = { s with invalidTree := invalidTree } := by cases fault <;> cases done <;> rfl
    rw [same]
    exact .refused invalidTree
  | @forbidden prev prevHeight invalidTree tree changes accepted branch early fault =>
    have same : s' = { s with invalidTree := invalidTree, tree := tree } := by
      cases fault <;> cases done <;> rfl
    rw [same]
    exact .forbidden accepted branch early
  | branched accepted branch =>
    obtain rfl := Option.some.inj done
    exact .branched accepted branch
  | committed accepted moved reorganized told =>
    obtain rfl := Option.some.inj done
    exact .committed accepted moved reorganized told
  | undone accepted moved defined failed popped_eq =>
    obtain ⟨back, tip, best, onto⟩ := commits.popped reached accepted moved failed
    obtain rfl := Except.ok.inj (popped_eq.symm.trans back)
    obtain rfl := Option.some.inj done
    exact .undone accepted moved best onto failed
  | stuck accepted moved defined failed popped_eq =>
    obtain ⟨back, -⟩ := commits.popped reached accepted moved failed
    rw [popped_eq] at back
    cases back
  | undefined accepted moved failed => cases done

/-- The tree stays one that insertions reach. -/
theorem Ended.reached {block : Block} (ends : Ended cfg clock s block s')
    (reached : ∃ known, Reached known s.tree) : ∃ known, Reached known s'.tree := by
  obtain ⟨known, reached⟩ := reached
  cases ends with
  | refused => exact ⟨known, reached⟩
  | forbidden accepted branch =>
    obtain ⟨fresh, connected, -⟩ := accepted.offered reached
    exact ⟨_, .insert reached fresh connected accepted.grown⟩
  | branched accepted branch =>
    obtain ⟨fresh, connected, -⟩ := accepted.offered reached
    exact ⟨_, .insert reached fresh connected accepted.grown⟩
  | @committed prev prevHeight invalidTree tree changes unconfirmed confirmed s₁ s₂ accepted moved done told =>
    obtain ⟨fresh, connected, -⟩ := accepted.offered reached
    refine ⟨refOf cfg block prev.hash :: known, ?_⟩
    have same : (settle cfg clock unconfirmed confirmed s₂).tree = tree := committed_tree done told
    rw [same]
    exact .insert reached fresh connected accepted.grown
  | undone => exact ⟨known, reached⟩

end BlockChain

end Libcoin
