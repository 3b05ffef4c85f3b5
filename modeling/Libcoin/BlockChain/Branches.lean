/-
The blocks that are not in the trunk have their data.

`Preserves (Holds hash block)`: nothing but the end of `reorganize` takes a block out of the blocks of
branches, and only detaching its own hash replaces it.
-/

import Libcoin.BlockChain.Moves

namespace Libcoin

open Exec
open BlockTree (Represents Reached Changes)
open Run (AlongStates AlongSteps)

namespace BlockChain

section Branches

variable {cfg : Config} {clock : Clock} {s s' : BlockChain}

/-! ### Stored blocks stay -/

def Holds (hash : Uint256) (block : Block) (s : BlockChain) : Prop := s.branches[hash]? = some block

variable {hash : Uint256} {block : Block}

theorem holds_of_keeps {A : Type} {x : ChainM A} (keeps : Keeps BlockChain.branches x) :
    Preserves (Holds hash block) x :=
  keeps.preserves fun s s' same holds => by
    unfold Holds
    rw [same]
    exact holds

theorem branchBlock_holds (other : Uint256) : Preserves (Holds hash block) (branchBlock other) := by
  intro s holds
  unfold branchBlock
  show Holds hash block (final (EStateM.Result.ok _ _))
  cases found : s.branches[other]? with
  | some stored => exact holds
  | none =>
    show (s.branches.insert other Block.null)[hash]? = some block
    rw [Map.lookup_insert_of_ne]
    · exact holds
    · rintro rfl
      unfold Holds at holds
      rw [found] at holds
      cases holds

theorem attachBlocks_holds (hashes : List Uint256) (blk : Option Blk) (unconfirmed : Txns)
    (confirmed : Hashes) :
    Preserves (Holds hash block) (attachBlocks cfg clock hashes blk unconfirmed confirmed) := by
  induction hashes generalizing blk unconfirmed confirmed with
  | nil => exact preserves_pure _
  | cons other hashes ih =>
    refine preserves_bind ?_ fun _ => ih _ _ _
    refine preserves_bind (holds_of_keeps (readTree_keeps _)) fun at_ => ?_
    refine preserves_bind (branchBlock_holds at_.hash) fun stored => ?_
    refine preserves_bind (holds_of_keeps keeps_get) fun now => ?_
    exact preserves_bind (holds_of_keeps (onLedger_keeps (fun _ _ => rfl) _)) fun _ => preserves_pure _

theorem notify_holds (other : Uint256) (hashes : List Uint256) :
    Preserves (Holds hash block) (notify cfg other hashes) := by
  induction hashes with
  | nil => exact preserves_pure _
  | cons _ hashes ih =>
    refine preserves_bind (holds_of_keeps (readTree_keeps _)) fun height => ?_
    refine preserves_bind (branchBlock_holds other) fun stored => ?_
    refine preserves_bind (preserves_modify fun s holds => ?_) fun _ => ih
    rw [foldl_callListeners]
    exact holds

/-- A reorganisation that detaches nothing, however it ends. -/
theorem reorganize_holds {offered : Block} {prevHeight : Int} {inserted : List Uint256}
    (apart : hash ∉ inserted) :
    Preserves (Holds hash block)
      (reorganize cfg clock offered prevHeight { deleted := [], inserted := inserted }) := by
  refine preserves_bind (preserves_pure _) fun unconfirmed => ?_
  refine preserves_bind (attachBlocks_holds _ _ _ _) fun result => ?_
  refine preserves_bind (preserves_modify fun s holds => ?_) fun _ => ?_
  · unfold purgeBlocks
    split
    · exact holds
    · exact holds
  refine preserves_bind (holds_of_keeps (enforceVersion_keeps _ _)) fun _ => ?_
  refine preserves_bind (preserves_modify fun s holds => ?_) fun _ => ?_
  · show (Map.eraseAll inserted s.branches)[hash]? = some block
    rw [Map.lookup_eraseAll, if_neg apart]
    exact holds
  refine preserves_bind (holds_of_keeps ?_) fun _ => preserves_pure _
  exact keeps_bind (readTree_keeps _) fun _ => keeps_modify fun _ => rfl

/-! ### Blocks that are read back -/

/-- The tables give back the blocks of a list, each once those before it are rolled back. -/
def ReadsBack (env : Setting) (t : BlockTree Uint256) : List Uint256 → Ledger → Prop
  | [], _ => True
  | hash :: hashes, s => ∀ blk, t.blkOf hash = .ok blk →
      env.prim.headerHash (s.db.getBlock env blk.count).toBlockHeader = hash ∧
        ReadsBack env t hashes (rollbackBlock env blk.count s)

/-- What is asked of the data of a block. -/
def HasData (cfg : Config) (branches : Map Uint256 Block) (hash : Uint256) : Prop :=
  ∃ block, branches[hash]? = some block ∧ cfg.prim.headerHash block.toBlockHeader = hash ∧
    block.transactions ≠ []

/-- The blocks that are detached have their data. -/
theorem detachBlocks_data {hashes : List Uint256} {unconfirmed unconfirmed' : Txns}
    (run : detachBlocks cfg clock hashes unconfirmed s = .ok unconfirmed' s')
    (found : ∀ hash ∈ hashes, ∃ blk, s.tree.blkOf hash = .ok blk ∧ blk.hash = hash)
    (reads : ReadsBack (s.setting cfg clock) s.tree hashes s.ledger) :
    ∀ hash ∈ hashes, HasData cfg s'.branches hash := by
  induction hashes generalizing s unconfirmed with
  | nil => nofun
  | cons hash hashes ih =>
    obtain ⟨known, blk, block, ledger, found_blk, detached, more⟩ := detachBlocks_cons_ok run
    obtain ⟨blk', found_blk', named⟩ := found hash List.mem_cons_self
    obtain rfl := Except.ok.inj (found_blk.symm.trans found_blk')
    obtain ⟨rfl, rfl, coinbase, txns, transactions, -⟩ := detach_ok detached
    obtain ⟨own, rest⟩ := reads blk found_blk
    have later_found : ∀ other ∈ hashes, ∃ blk, s.tree.blkOf other = .ok blk ∧ blk.hash = other :=
      fun other later => found other (List.mem_cons_of_mem _ later)
    intro other member
    by_cases later : other ∈ hashes
    · exact ih more later_found rest other later
    · obtain rfl : other = hash := (List.mem_cons.mp member).resolve_right later
      refine ⟨_, (detachBlocks_branches more later_found later).trans ?_, own, ?_⟩
      · rw [named]
        exact Map.lookup_insert_self _ _ _
      · rw [transactions]
        exact List.cons_ne_nil _ _

/-! ### Runs -/

/-- Every known block that is not in the trunk has its data. -/
def Stored (cfg : Config) (s : BlockChain) : Prop :=
  ∀ (hash : Uint256) (height : Int), s.tree.heights[hash]? = some height → hash ∉ hashes s.tree.trunk →
    HasData cfg s.branches hash

/-- The blocks that the trunk would take are stored when it takes them. -/
def Attachable (cfg : Config) (s : BlockChain) : Prop :=
  ∀ clock block prev prevHeight invalidTree tree changes unconfirmed mid,
    Accepted cfg s block prev prevHeight invalidTree tree changes →
      detachBlocks cfg clock changes.deleted ∅ (grown cfg block invalidTree tree s) = .ok unconfirmed mid →
      ∀ hash ∈ changes.inserted, ∃ stored, mid.branches[hash]? = some stored ∧
        cfg.prim.headerHash stored.toBlockHeader = hash ∧
        (hash ≠ cfg.prim.headerHash block.toBlockHeader → stored.transactions ≠ [])

/-- What every call keeps. -/
def Complete (cfg : Config) (s : BlockChain) : Prop :=
  ∃ known, Reached known s.tree ∧ ∀ b ∈ known, b ∉ s.tree.trunk → HasData cfg s.branches b.hash

/-- What is asked of a call: a block that starts a branch is not below the last checkpoint and has a
transaction, only an append on the tip fails inside of the database transaction, and the tables give back
every block that is detached. -/
structure BranchesMeet (cfg : Config) (s : BlockChain) (call : Clock × Block) : Prop where
  allowed : ∀ prev prevHeight invalidTree tree changes,
    Accepted cfg s call.2 prev prevHeight invalidTree tree changes → changes.inserted = [] →
      cfg.chain.totalBlocksEstimate ≤ prevHeight ∧ call.2.transactions ≠ []
  commits : Commits cfg s call
  readable : ∀ prev prevHeight invalidTree tree changes,
    Accepted cfg s call.2 prev prevHeight invalidTree tree changes →
      ReadsBack ((grown cfg call.2 invalidTree tree s).setting cfg call.1) tree changes.deleted s.ledger

theorem Complete.stored (complete : Complete cfg s) : Stored cfg s := by
  obtain ⟨known, reached, data⟩ := complete
  obtain ⟨-, rep, -⟩ := reached.kept
  intro hash height found off
  have member : hash ∈ hashes known := by
    by_contra unknown
    rw [rep.unknown hash unknown] at found
    cases found
  obtain ⟨b, inside, rfl⟩ := List.mem_map.mp member
  exact data b inside fun on => off (List.mem_map_of_mem on)

theorem HasData.insert {branches : Map Uint256 Block} (data : HasData cfg branches hash) {other : Uint256}
    (different : hash ≠ other) (block : Block) : HasData cfg (branches.insert other block) hash := by
  obtain ⟨stored, found, named, some⟩ := data
  exact ⟨stored, (Map.lookup_insert_of_ne _ _ (Ne.symm different)).trans found, named, some⟩

/-- A block that was known before has another hash than the one that is offered. -/
theorem Accepted.different {prev : BlockRef Uint256} {prevHeight : Int} {invalidTree tree : BlockTree Uint256}
    {changes : Changes Uint256} (accepted : Accepted cfg s block prev prevHeight invalidTree tree changes)
    {known : List (BlockRef Uint256)} (reached : Reached known s.tree) {b : BlockRef Uint256}
    (member : b ∈ known) :
    b.hash ≠ cfg.prim.headerHash block.toBlockHeader := fun same =>
  (accepted.offered reached).1 (List.mem_map.mpr ⟨b, member, same⟩)

/-- Every block that the trunk takes is stored, also after the first loop. -/
theorem Complete.attachable (complete : Complete cfg s) : Attachable cfg s := by
  obtain ⟨known, reached, data⟩ := complete
  intro clock block prev prevHeight invalidTree tree changes unconfirmed mid accepted detached hash inserted
  obtain ⟨fresh, connected, -⟩ := accepted.offered reached
  have moved : changes.inserted ≠ [] := List.ne_nil_of_mem inserted
  obtain ⟨low, above, news, shift⟩ := exists_shift reached fresh connected accepted.grown moved
  obtain ⟨grown', rep', -⟩ := (Reached.insert reached fresh connected accepted.grown).kept
  rw [← List.mem_reverse, shift.inserted] at inserted
  obtain ⟨b, member, rfl⟩ := List.mem_map.mp inserted
  have outside : b.hash ∉ changes.deleted := by
    rw [shift.deleted]
    exact shift.apart b member
  have stays : mid.branches[b.hash]? = (s.branches.insert
    (cfg.prim.headerHash block.toBlockHeader) block)[b.hash]? :=
    detachBlocks_branches (s := grown cfg block invalidTree tree s) detached (fun _ => shift.find_deleted) outside
  rcases shift.entering grown' rep' member with rfl | ⟨old, off⟩
  · refine ⟨block, stays.trans (Map.lookup_insert_self _ _ _), rfl, fun other => absurd rfl other⟩
  · obtain ⟨stored, found, named, some⟩ :=
      (data b old off).insert (accepted.different reached old) block
    exact ⟨stored, stays.trans found, named, fun _ => some⟩

/-- A block that starts a branch is stored. -/
theorem Complete.branched (complete : Complete cfg s) {prev : BlockRef Uint256} {prevHeight : Int}
    {invalidTree tree : BlockTree Uint256} {changes : Changes Uint256}
    (accepted : Accepted cfg s block prev prevHeight invalidTree tree changes) (branch : changes.inserted = [])
    (some : block.transactions ≠ []) : Complete cfg (grown cfg block invalidTree tree s) := by
  obtain ⟨known, reached, data⟩ := complete
  obtain ⟨fresh, connected, -⟩ := accepted.offered reached
  refine ⟨_, .insert reached fresh connected accepted.grown, fun b member off => ?_⟩
  rcases List.mem_cons.mp member with rfl | old
  · exact ⟨block, Map.lookup_insert_self _ _ _, rfl, some⟩
  · have off : b ∉ tree.trunk := off
    rw [accepted.trunk_branch branch] at off
    exact (data b old off).insert (accepted.different reached old) block

/-- After a commit the blocks that left the trunk are stored, and those on branches still are. -/
theorem Complete.committed (complete : Complete cfg s) {prev : BlockRef Uint256} {prevHeight : Int}
    {invalidTree tree : BlockTree Uint256} {changes : Changes Uint256} {unconfirmed : Txns} {confirmed : Hashes}
    {s₁ s₂ : BlockChain} (accepted : Accepted cfg s block prev prevHeight invalidTree tree changes)
    (moved : changes.inserted ≠ [])
    (reads : ReadsBack ((grown cfg block invalidTree tree s).setting cfg clock) tree changes.deleted s.ledger)
    (done : reorganize cfg clock block prevHeight changes (grown cfg block invalidTree tree s) =
      .ok (unconfirmed, confirmed) s₁)
    (told : notify cfg (cfg.prim.headerHash block.toBlockHeader) changes.inserted s₁ = .ok () s₂) :
    Complete cfg (settle cfg clock unconfirmed confirmed s₂) := by
  obtain ⟨known, reached, data⟩ := complete
  obtain ⟨fresh, connected, -⟩ := accepted.offered reached
  obtain ⟨low, above, news, shift⟩ := exists_shift reached fresh connected accepted.grown moved
  have same_tree : (settle cfg clock unconfirmed confirmed s₂).tree = tree := committed_tree done told
  refine ⟨refOf cfg block prev.hash :: known, ?_, fun b member off => ?_⟩
  · rw [same_tree]
    exact .insert reached fresh connected accepted.grown
  rw [same_tree] at off
  have not_inserted : b.hash ∉ changes.inserted := by
    intro inserted
    rw [← List.mem_reverse, shift.inserted] at inserted
    obtain ⟨c, inside, same⟩ := List.mem_map.mp inserted
    obtain ⟨grown', rep', -⟩ := (Reached.insert reached fresh connected accepted.grown).kept
    have on : c ∈ tree.trunk := by
      rw [shift.new]
      exact List.mem_append_right _ inside
    exact off (grown'.eq_of_hash (rep'.trunk_known on) member same ▸ on)
  have old : b ∈ known := by
    refine (List.mem_cons.mp member).resolve_left fun same => ?_
    obtain ⟨low', rest, first, -⟩ := (insert_trunk accepted.grown).resolve_left fun stays =>
      moved (by rw [stays.1])
    exact not_inserted (by rw [first, same]; exact List.mem_cons_self)
  obtain ⟨unconfirmed', mid, blk, s₃, locator, detached, attached, rfl⟩ := reorganize_ok done
  have found : ∀ hash ∈ changes.deleted, ∃ blk, tree.blkOf hash = .ok blk ∧ blk.hash = hash :=
    fun _ => shift.find_deleted
  have after_detach : HasData cfg mid.branches b.hash := by
    by_cases deleted : b.hash ∈ changes.deleted
    · exact detachBlocks_data (s := grown cfg block invalidTree tree s) detached found reads _ deleted
    · have off_old := (shift.outside off).resolve_left deleted
      obtain ⟨stored, here, rest⟩ := (data b old off_old).insert (accepted.different reached old) block
      exact ⟨stored, (detachBlocks_branches (s := grown cfg block invalidTree tree s) detached found deleted).trans here,
        rest⟩
  obtain ⟨stored, here, rest⟩ := after_detach
  have attached_holds : Holds b.hash stored s₃ := (attachBlocks_holds _ _ _ _).ok here attached
  have told_holds : Holds b.hash stored s₂ := by
    refine (notify_holds _ _).ok ?_ told
    show (Map.eraseAll changes.inserted s₃.branches)[b.hash]? = some stored
    rw [Map.lookup_eraseAll, if_neg not_inserted]
    exact attached_holds
  have settled : (settle cfg clock unconfirmed confirmed s₂).branches = s₂.branches :=
    settle_keeps (fun _ _ => rfl) (fun _ _ => rfl) _ _ _
  rw [settled]
  exact ⟨stored, told_holds, rest⟩

theorem Complete.append (complete : Complete cfg s) {call : Clock × Block} (met : BranchesMeet cfg s call)
    (done : outcome (append cfg call.1 call.2 s) = some s') : Complete cfg s' := by
  obtain ⟨known, reached, data⟩ := id complete
  have ends := met.commits.ended ⟨known, reached⟩ done
  cases ends with
  | refused => exact ⟨known, reached, data⟩
  | forbidden accepted branch early =>
    have allowed := (met.allowed _ _ _ _ _ accepted branch).1
    exact absurd early (not_lt.mpr allowed)
  | branched accepted branch => exact complete.branched accepted branch (met.allowed _ _ _ _ _ accepted branch).2
  | committed accepted moved reorganized told =>
    exact complete.committed accepted moved (met.readable _ _ _ _ _ accepted) reorganized told
  | @undone prev prevHeight invalidTree tree changes fault s₁ tip accepted moved best onto failed =>
    obtain rfl := (accepted.tip_changes reached best onto).resolve_left fun none_ => moved (by rw [none_])
    refine ⟨known, reached, fun b member off => ?_⟩
    have different := accepted.different reached member
    obtain ⟨stored, here, rest⟩ := (data b member off).insert different call.2
    have apart : b.hash ∉ [cfg.prim.headerHash call.2.toBlockHeader] := by
      rw [List.mem_singleton]
      exact different
    have before : Holds b.hash stored (grown cfg call.2 invalidTree tree s) := here
    have kept : Holds b.hash stored s₁ := (reorganize_holds apart).error before failed
    exact ⟨stored, kept, rest⟩

/-- A block on the tip meets what is asked where no checkpoint forbids it. -/
theorem meets_tip_branches {known : List (BlockRef Uint256)} (reached : Reached known s.tree)
    (unguarded : cfg.chain.totalBlocksEstimate ≤ 0) {call : Clock × Block} (filled : call.2.transactions ≠ [])
    {tip : BlockRef Uint256} (best : s.tree.trunk.getLast? = some tip) (onto : call.2.prevBlock = tip.hash) :
    BranchesMeet cfg s call where
  allowed _ _ _ _ _ accepted _ := ⟨unguarded.trans accepted.found.2.2, filled⟩
  commits _ _ _ _ _ accepted _ apart :=
    absurd ((accepted.offered reached).2.2.trans onto) (apart tip best)
  readable _ _ _ _ _ accepted := by
    rcases accepted.tip_changes reached best ((accepted.offered reached).2.2.trans onto) with rfl | rfl
    · exact trivial
    · exact trivial

/-- So does a block on a branch, which leaves the trunk. -/
theorem meets_branch {known : List (BlockRef Uint256)} (reached : Reached known s.tree)
    (unguarded : cfg.chain.totalBlocksEstimate ≤ 0) {call : Clock × Block} (filled : call.2.transactions ≠ [])
    {tree : BlockTree Uint256}
    (light : s.tree.insert (refOf cfg call.2 call.2.prevBlock) = .ok (tree, { deleted := [], inserted := [] })) :
    BranchesMeet cfg s call := by
  have quiet {prev prevHeight invalidTree tree changes}
      (accepted : Accepted cfg s call.2 prev prevHeight invalidTree tree changes) :
      changes = { deleted := [], inserted := [] } := by
    have grown := accepted.grown
    rw [(accepted.offered reached).2.2, light] at grown
    exact (Prod.mk.inj (Except.ok.inj grown)).2.symm
  refine ⟨fun _ _ _ _ _ accepted _ => ⟨unguarded.trans accepted.found.2.2, filled⟩,
    fun _ _ _ _ _ accepted moved => ?_, fun _ _ _ _ _ accepted => ?_⟩
  · obtain rfl := quiet accepted
    exact absurd rfl moved
  · obtain rfl := quiet accepted
    trivial

/-- **The blocks that are not in the trunk have their data** in every state of a run whose calls meet the
condition, and no block that is missing is attached. -/
theorem branches_stored {calls : List (Clock × Block)} (loaded : ∃ refs, BlockTree.Linked refs ∧
      BlockTree.empty.assign refs = .ok s.tree)
    (along : AlongSteps (offer cfg) (fun now call => ∀ s ∈ now, BranchesMeet cfg s call) (some s) calls) :
    AlongStates (offer cfg) (fun now => ∀ s ∈ now, Stored cfg s ∧ Attachable cfg s) (some s) calls := by
  obtain ⟨refs, linked, assigned⟩ := loaded
  obtain ⟨t, assigned', -, trunk⟩ := BlockTree.assign_represents linked
  obtain rfl := Except.ok.inj (assigned.symm.trans assigned')
  have start : Complete cfg s := by
    refine ⟨_, .assign linked assigned, fun b member off => ?_⟩
    rw [trunk] at off
    exact absurd (List.mem_reverse.mp member) off
  exact offers_run (fun _ complete => ⟨complete.stored, complete.attachable⟩)
    (fun _ _ _ complete met done => complete.append met done) start along

end Branches

end BlockChain

/-! ### The small chain below a checkpoint -/

namespace Small

/-- The small chain with a last checkpoint at height 10. -/
def guarded : Config :=
  { config 1 0 with chain := { (config 1 0).chain with totalBlocksEstimate := 10 } }

def createdGuarded : Except Fault BlockChain :=
  BlockChain.create guarded clock (mined 1 0 [coinbase 1 [50]]) true 0

end Small

namespace BlockChain

open Libcoin.Small in
/-- A block that starts a branch below the checkpoint is refused, and stays in the tree without its data. -/
theorem branches_missing : ∃ s, createdGuarded = .ok s ∧
    ¬ AlongStates (offer guarded) (fun now => ∀ s ∈ now, Stored guarded s ∧ Attachable guarded s) (some s)
      [(clock, mined 2 1 [coinbase 2 [50]]), (clock, mined 3 1 [coinbase 3 [50]])] := by
  have run : (do
      let s ← createdGuarded.toOption
      let s ← Run.final (offer guarded) (some s)
        [(clock, mined 2 1 [coinbase 2 [50]]), (clock, mined 3 1 [coinbase 3 [50]])]
      return (s.tree.heights[(3 : Uint256)]?, decide ((3 : Uint256) ∈ hashes s.tree.trunk),
        s.branches[(3 : Uint256)]?)) = some (some (-1), false, none) := by decide +kernel
  obtain ⟨s, done, run⟩ := Option.bind_eq_some_iff.mp run
  obtain ⟨s', last, run⟩ := Option.bind_eq_some_iff.mp run
  obtain ⟨height, run⟩ := Prod.mk.inj (Option.some.inj run)
  obtain ⟨off, missing⟩ := Prod.mk.inj run
  refine ⟨s, toOption_eq_some.mp done, fun along => ?_⟩
  obtain ⟨block, stored, -⟩ := (along.final s' last).1 3 (-1) height (of_decide_eq_false off)
  rw [missing] at stored
  cases stored

open Libcoin.Small in
/-- Two blocks on the genesis block, the second of them on a branch. -/
theorem branches_stored_tip : ∃ s, created 1 0 = .ok s ∧
    AlongStates (offer (config 1 0)) (fun now => ∀ s ∈ now, Stored (config 1 0) s ∧ Attachable (config 1 0) s)
      (some s) [(clock, mined 2 1 [coinbase 2 [50]]), (clock, mined 3 1 [coinbase 3 [50]])] := by
  have run : (do
      let s ← (created 1 0).toOption
      let s' ← offer (config 1 0) (some s) (clock, mined 2 1 [coinbase 2 [50]])
      let grown ← (s'.tree.insert (refOf (config 1 0) (mined 3 1 [coinbase 3 [50]]) 1)).toOption
      return (s.tree.trunk.getLast?.map BlockRef.hash, grown.2)) =
        some (some 1, { deleted := [], inserted := [] }) := by decide +kernel
  obtain ⟨s, done, run⟩ := Option.bind_eq_some_iff.mp run
  obtain ⟨s', next, run⟩ := Option.bind_eq_some_iff.mp run
  obtain ⟨⟨tree, changes⟩, grown, run⟩ := Option.bind_eq_some_iff.mp run
  obtain ⟨first, quiet⟩ := Prod.mk.inj (Option.some.inj run)
  obtain rfl : changes = { deleted := [], inserted := [] } := quiet
  obtain ⟨tip, best, named⟩ := Option.map_eq_some_iff.mp first
  have created := toOption_eq_some.mp done
  obtain ⟨refs, linked, assigned⟩ := create_assigned created
  have reached : Reached refs.reverse s.tree := .assign linked assigned
  have one : BranchesMeet (config 1 0) s (clock, mined 2 1 [coinbase 2 [50]]) :=
    meets_tip_branches reached (by decide) (by decide) best (by rw [named]; decide)
  obtain ⟨known, reached'⟩ := (one.commits.ended ⟨_, reached⟩ next).reached ⟨_, reached⟩
  have two : BranchesMeet (config 1 0) s' (clock, mined 3 1 [coinbase 3 [50]]) :=
    meets_branch reached' (by decide) (by decide) (toOption_eq_some.mp grown)
  refine ⟨s, created, branches_stored ⟨refs, linked, assigned⟩ ⟨?_, ?_, trivial⟩⟩
  · rintro _ ⟨⟩
    exact one
  · rw [next]
    rintro _ ⟨⟩
    exact two

end BlockChain

end Libcoin
