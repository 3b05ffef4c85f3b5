/-
The trunk of the tree and the table of blocks.

* `Rows hashes blocks`: the table has one row for each hash, numbered from 1 on.
* `detachBlocks_blocks` and `attachBlocks_rows` say what the two loops of a reorganisation do to the
  table: the counts of the deleted blocks are erased, and those of the inserted ones appended.
-/

import Libcoin.BlockChain.Moves
import Libcoin.Ledger.Frame

namespace Libcoin

open Exec
open BlockTree (Represents Reached Moved Changes)
open Run (AlongStates AlongSteps)

namespace BlockChain

section Trunk

variable {cfg : Config} {clock : Clock} {s s' : BlockChain}

/-! ### The table of blocks -/

/-- The table has one row for each hash, in their order, with the counts from 1 on. -/
def Rows (hashes : List Uint256) (blocks : Map Int BlockRow) : Prop :=
  ∀ count : Int, (blocks[count]?).map BlockRow.hash = if 1 ≤ count then hashes[(count - 1).toNat]? else none

section Rows

variable {hashes : List Uint256} {blocks : Map Int BlockRow}

theorem Rows.toList (rows : Rows hashes blocks) : blocks.toList.map (fun row => row.2.hash) = hashes :=
  Map.toList_numbered rows

theorem Rows.free (rows : Rows hashes blocks) : blocks[(hashes.length + 1 : Int)]? = none := by
  have none_there := rows (hashes.length + 1)
  rw [if_pos (by omega), show ((hashes.length : Int) + 1 - 1).toNat = hashes.length by omega,
    List.getElem?_eq_none le_rfl] at none_there
  exact Option.map_eq_none_iff.mp none_there

theorem Rows.append (rows : Rows hashes blocks) (row : BlockRow) :
    Rows (hashes ++ [row.hash]) (blocks.insert (hashes.length + 1 : Int) row) := by
  intro count
  rw [Map.lookup_insert]
  split_ifs with here positive positive
  · rw [show (count - 1).toNat = hashes.length by omega, List.getElem?_concat_length]
    rfl
  · omega
  · rw [rows count, if_pos positive, List.getElem?_append]
    split_ifs with low
    · rfl
    · rw [List.getElem?_eq_none (by omega), List.getElem?_eq_none]
      rw [List.length_singleton]
      omega
  · rw [rows count, if_neg positive]

/-- The rows above some length are erased. -/
theorem Rows.take {above : List Uint256} (rows : Rows (hashes ++ above) blocks) :
    Rows hashes
      (Map.eraseAll ((List.range above.length).map fun (i : Nat) =>
        ((hashes.length + i + 1 : Nat) : Int)) blocks) := by
  intro count
  rw [Map.lookup_eraseAll]
  split_ifs with gone positive positive
  · obtain ⟨i, -, rfl⟩ := List.mem_map.mp gone
    rw [List.getElem?_eq_none (by omega)]
    rfl
  · rfl
  · rw [rows count, if_pos positive, List.getElem?_append]
    split_ifs with low
    · rfl
    · rw [List.getElem?_eq_none (by omega : hashes.length ≤ (count - 1).toNat), List.getElem?_eq_none]
      by_contra inside
      refine gone (List.mem_map.mpr ⟨(count - 1).toNat - hashes.length, List.mem_range.mpr ?_, ?_⟩)
      · exact not_le.mp inside
      · omega
  · rw [rows count, if_neg positive]

end Rows

/-! ### The loops of a reorganisation -/

theorem rollbackBlock_blocks (env : Setting) (count : Int) (s : Ledger) :
    (rollbackBlock env count s).blocks = s.blocks.erase count := by
  have each : ∀ (cnfs : List Int) (s : Ledger),
      (cnfs.foldl (fun s cnf => rollbackConfirmation env cnf s) s).blocks = s.blocks := by
    intro cnfs
    induction cnfs with
    | nil => exact fun _ => rfl
    | cons cnf cnfs ih =>
      intro s
      refine (ih _).trans ?_
      unfold rollbackConfirmation Database.rollbackConfirmation Ledger.blocks
      dsimp only
      split_ifs <;> rfl
  exact congrArg (fun blocks : Map Int BlockRow => blocks.erase count) (each _ s)

/-- The rows of the blocks that are detached are erased. -/
theorem detachBlocks_blocks {hashes : List Uint256} {unconfirmed unconfirmed' : Txns} {count : Uint256 → Int}
    (run : detachBlocks cfg clock hashes unconfirmed s = .ok unconfirmed' s')
    (found : ∀ hash ∈ hashes, ∃ blk, s.tree.blkOf hash = .ok blk ∧ blk.count = count hash) :
    s'.ledger.blocks = Map.eraseAll (hashes.map count) s.ledger.blocks := by
  induction hashes generalizing s unconfirmed with
  | nil =>
    obtain ⟨-, rfl⟩ := pure_ok.mp run
    rfl
  | cons hash hashes ih =>
    obtain ⟨known, blk, block, ledger, found_blk, detached, run⟩ := detachBlocks_cons_ok run
    obtain ⟨blk', found_blk', counted⟩ := found hash List.mem_cons_self
    obtain rfl := Except.ok.inj (found_blk.symm.trans found_blk')
    obtain ⟨-, rfl, -⟩ := detach_ok detached
    have rest := ih run fun other later => found other (List.mem_cons_of_mem _ later)
    rw [rest]
    show Map.eraseAll _ (rollbackBlock _ _ _).blocks = _
    rw [rollbackBlock_blocks, counted]
    rfl

/-- The rows of the blocks that are attached are appended, with the hashes of the stored blocks. -/
theorem attachBlocks_rows {news : List Uint256} {hashes : List Uint256} {blk blk' : Option Blk}
    {unconfirmed unconfirmed' : Txns} {confirmed confirmed' : Hashes}
    (run : attachBlocks cfg clock news blk unconfirmed confirmed s =
      .ok (blk', unconfirmed', confirmed') s')
    (rows : Rows hashes s.ledger.blocks)
    (found : ∀ done hash rest, news = done ++ hash :: rest →
      ∃ blk, s.tree.blkOf hash = .ok blk ∧ blk.hash = hash ∧ blk.count = (hashes.length + done.length + 1 : Nat))
    (stored : ∀ hash ∈ news,
      cfg.prim.headerHash (s.branches.getD hash Block.null).toBlockHeader = hash) :
    Rows (hashes ++ news) s'.ledger.blocks := by
  induction news generalizing s hashes blk unconfirmed confirmed with
  | nil =>
    obtain ⟨-, rfl⟩ := pure_ok.mp run
    rwa [List.append_nil]
  | cons hash news ih =>
    unfold attachBlocks at run
    obtain ⟨⟨one, known, done⟩, mid, first, run⟩ := bind_ok.mp run
    obtain ⟨found_one, branches, ledger, rfl, same, attached⟩ := attachBlock_ok first
    obtain ⟨blk', found_blk, named, counted⟩ := found [] hash news rfl
    obtain rfl := Except.ok.inj (found_one.symm.trans found_blk)
    have own := stored hash List.mem_cons_self
    have there : one.count = (hashes.length + 1 : Int) := by
      rw [counted, List.length_nil]
      omega
    have free : s.ledger.blocks[one.count]? = none := by
      rw [there]
      exact rows.free
    have row := attach_blocks attached free
    rw [named, there] at row
    have next := rows.append
      { (s.branches.getD hash Block.null).toBlockHeader with
        hash := cfg.prim.headerHash (s.branches.getD hash Block.null).toBlockHeader }
    rw [show (BlockRow.mk _ _).hash = hash from own] at next
    have rest :=
      @ih { s with branches := branches, ledger := ledger } (hashes ++ [hash]) (some one) known done run
      (by
        show Rows _ ledger.blocks
        rw [row]
        exact next)
      (fun before other after split => by
        obtain ⟨blk, found_blk, named, counted⟩ := found (hash :: before) other after (by rw [split]; rfl)
        refine ⟨blk, found_blk, named, ?_⟩
        rw [counted, List.length_cons, List.length_append, List.length_singleton]
        congr 1
        omega)
      (fun other later => by
        rw [same]
        exact stored other (List.mem_cons_of_mem _ later))
    rwa [List.append_assoc] at rest

/-! ### A block that the trunk takes -/

section Shift

variable {t : BlockTree Uint256} {changes : Changes Uint256} {low above news : List (BlockRef Uint256)}

/-- A reorganisation that succeeds leaves the rows of the new trunk. -/
theorem Shift.rows (shift : Shift t s.tree changes low above news)
    {block : Block} {prevHeight : Int} {unconfirmed : Txns} {confirmed : Hashes}
    (run : reorganize cfg clock block prevHeight changes s = .ok (unconfirmed, confirmed) s')
    (rows : Rows (hashes t.trunk) s.ledger.blocks)
    (stored : ∀ hash ∈ changes.inserted,
      cfg.prim.headerHash (s.branches.getD hash Block.null).toBlockHeader = hash) :
    Rows (hashes s.tree.trunk) s'.ledger.blocks := by
  obtain ⟨known, mid, blk, s₁, locator, detached, attached, rfl⟩ := reorganize_ok run
  have same_tree : mid.tree = s.tree := (detachBlocks_keeps ignores_tree.toIgnores _ _).ok detached
  -- the counts that the first loop erases
  let count : Uint256 → Int := fun hash => (s.tree.blkOf hash).toOption.elim 0 Blk.count
  have counted : ∀ before b after, above = before ++ b :: after →
      count b.hash = (low.length + before.length + 1 : Nat) := by
    intro before b after split
    obtain ⟨blk, found, -, at_⟩ := shift.detached before b after split
    show (s.tree.blkOf b.hash).toOption.elim 0 Blk.count = _
    rw [found]
    exact at_
  have erased : mid.ledger.blocks = Map.eraseAll (changes.deleted.map count) s.ledger.blocks := by
    refine detachBlocks_blocks detached fun hash member => ?_
    obtain ⟨before, b, after, split, rfl⟩ := shift.split_deleted member
    obtain ⟨blk, found, -, at_⟩ := shift.detached before b after split
    exact ⟨blk, found, by rw [at_, counted before b after split]⟩
  have lower : Rows (hashes low) mid.ledger.blocks := by
    have taken : Rows (hashes low ++ hashes above) s.ledger.blocks := by
      have whole : hashes low ++ hashes above = hashes t.trunk := by rw [shift.old, hashes_append]
      rwa [whole]
    rw [erased, shift.deleted]
    refine Eq.mp (congrArg (fun counts => Rows (hashes low) (Map.eraseAll counts s.ledger.blocks)) ?_) taken.take
    refine List.ext_getElem (by simp) fun i one two => ?_
    have inside : i < above.length := by simpa using two
    have split : above = above.take i ++ above[i] :: above.drop (i + 1) := by
      rw [List.cons_getElem_drop_succ, List.take_append_drop]
    have at_ := counted _ _ _ split
    rw [List.getElem_map, List.getElem_map, List.getElem_map, List.getElem_range]
    show ((_ + i + 1 : Nat) : Int) = count above[i].hash
    rw [at_, List.length_take, List.length_map]
    omega
  have upper := attachBlocks_rows attached lower
    (fun before hash after split => by
      rw [shift.inserted] at split
      obtain ⟨before', rest, split', rfl, tail⟩ := List.map_eq_append_iff.mp split
      obtain ⟨b, after', rfl, rfl, rfl⟩ := List.map_eq_cons_iff.mp tail
      rw [same_tree, List.length_map, List.length_map]
      exact shift.attached before' b after' split')
    (fun hash member => by
      have inserted : hash ∈ changes.inserted := List.mem_reverse.mp member
      rw [shift.inserted] at member
      obtain ⟨b, inside, rfl⟩ := List.mem_map.mp member
      have outside : b.hash ∉ changes.deleted := by
        rw [shift.deleted]
        exact shift.apart b inside
      have same : mid.branches[b.hash]? = s.branches[b.hash]? :=
        detachBlocks_branches detached (fun _ => shift.find_deleted) outside
      have own := stored b.hash inserted
      rw [Map.getD_lookup] at own ⊢
      show cfg.prim.headerHash ((mid.branches[b.hash]?).getD Block.null).toBlockHeader = b.hash
      rw [same]
      exact own)
  rw [shift.new, hashes_append, ← shift.inserted]
  have purged : (purgeBlocks cfg prevHeight (blk.elim 0 Blk.count) s₁).ledger.blocks = s₁.ledger.blocks := by
    unfold purgeBlocks
    split <;> rfl
  show Rows _ (purgeBlocks cfg prevHeight (blk.elim 0 Blk.count) s₁).ledger.blocks
  rw [purged]
  exact upper

end Shift

/-! ### Runs -/

/-- The rows of `Blocks`, by count, are the trunk. -/
def Aligned (s : BlockChain) : Prop :=
  s.ledger.db.blocks.toList.map (fun row => row.2.hash) = hashes s.tree.trunk

/-- The tree was assigned from the table of blocks. -/
def Loaded (s : BlockChain) : Prop :=
  ∃ refs, BlockTree.Linked refs ∧ BlockTree.empty.assign refs = .ok s.tree ∧ Rows (hashes refs) s.ledger.blocks

/-- What every call keeps. -/
structure InStep (s : BlockChain) : Prop where
  reached : ∃ known, Reached known s.tree
  rows : Rows (hashes s.tree.trunk) s.ledger.blocks

/-- What is asked of a call: every block that the trunk takes is stored under its hash, and where the trunk
does more than grow by the offered block, what is done inside of the database transaction does not throw. -/
structure TrunkMeets (cfg : Config) (s : BlockChain) (call : Clock × Block) : Prop where
  stored : ∀ {prev prevHeight invalidTree tree changes},
    Accepted cfg s call.2 prev prevHeight invalidTree tree changes → ∀ hash ∈ changes.inserted,
      cfg.prim.headerHash ((grown cfg call.2 invalidTree tree s).branches.getD hash Block.null).toBlockHeader =
        hash
  commits : Commits cfg s call

theorem Loaded.inStep (loaded : Loaded s) : InStep s := by
  obtain ⟨refs, linked, assigned, rows⟩ := loaded
  obtain ⟨t, assigned', -, trunk⟩ := BlockTree.assign_represents linked
  obtain rfl := Except.ok.inj (assigned.symm.trans assigned')
  refine ⟨⟨_, .assign linked assigned⟩, ?_⟩
  rw [trunk]
  exact rows

theorem InStep.aligned (inStep : InStep s) : Aligned s := inStep.rows.toList

/-- Every call keeps the trunk and the table in step. -/
theorem InStep.append (inStep : InStep s) {call : Clock × Block} (met : TrunkMeets cfg s call)
    (done : outcome (append cfg call.1 call.2 s) = some s') : InStep s' := by
  obtain ⟨reached, rows⟩ := inStep
  have ends := met.commits.ended reached done
  refine ⟨ends.reached reached, ?_⟩
  cases ends with
  | refused => exact rows
  | forbidden accepted branch =>
    rw [← accepted.trunk_branch branch] at rows
    exact rows
  | branched accepted branch =>
    rw [← accepted.trunk_branch branch] at rows
    exact rows
  | @committed prev prevHeight invalidTree tree changes unconfirmed confirmed s₁ s₂ accepted moved reorganized told =>
    obtain ⟨known, reached⟩ := reached
    obtain ⟨fresh, connected, -⟩ := accepted.offered reached
    obtain ⟨low, above, news, shift⟩ := exists_shift reached fresh connected accepted.grown moved
    have after : Rows (hashes tree.trunk) s₁.ledger.blocks :=
      Shift.rows (s := grown cfg call.2 invalidTree tree s) shift reorganized rows (met.stored accepted)
    have same_tree : (settle cfg call.1 unconfirmed confirmed s₂).tree = tree := committed_tree reorganized told
    have ledger_two : s₂.ledger = s₁.ledger := (notify_keeps (fun _ _ => rfl) (fun _ _ => rfl) _ _).ok told
    have ledger_last : (settle cfg call.1 unconfirmed confirmed s₂).ledger = s₂.ledger :=
      settle_keeps (fun _ _ => rfl) (fun _ _ => rfl) _ _ _
    rw [same_tree, ledger_last, ledger_two]
    exact after
  | undone => exact rows

/-- **The trunk and the table of blocks agree** after every call of a run in which reorganisations do not fail. -/
theorem trunk_rows {calls : List (Clock × Block)} (loaded : Loaded s)
    (along : AlongSteps (offer cfg) (fun now call => ∀ s ∈ now, TrunkMeets cfg s call) (some s) calls) :
    AlongStates (offer cfg) (fun now => ∀ s ∈ now, Aligned s) (some s) calls :=
  offers_run (fun _ inStep => inStep.aligned) (fun _ _ _ inStep met done => inStep.append met done) loaded.inStep
    along

/-- A block on the tip meets what is asked. -/
theorem InStep.meets_tip (inStep : InStep s) {call : Clock × Block} {tip : BlockRef Uint256}
    (best : s.tree.trunk.getLast? = some tip) (onto : call.2.prevBlock = tip.hash) : TrunkMeets cfg s call := by
  obtain ⟨⟨known, reached⟩, -⟩ := inStep
  refine ⟨fun {prev prevHeight invalidTree tree changes} accepted hash member => ?_,
    fun prev prevHeight invalidTree tree changes accepted moved apart => ?_⟩
  · obtain ⟨-, -, before⟩ := accepted.offered reached
    rcases accepted.tip_changes reached best (before.trans onto) with rfl | rfl
    · cases member
    · obtain rfl := List.mem_singleton.mp member
      rw [Map.getD_lookup]
      show cfg.prim.headerHash (((s.branches.insert _ call.2)[cfg.prim.headerHash _]?).getD Block.null).toBlockHeader = _
      rw [Map.lookup_insert_self]
      rfl
  · obtain ⟨-, -, before⟩ := accepted.offered reached
    exact absurd (before.trans onto) (apart tip best)

/-- A call returns, and the blocks that the trunk takes are stored. -/
def takes (cfg : Config) (s : BlockChain) (call : Clock × Block) : Bool :=
  succeeds (append cfg call.1 call.2 s) (fun _ _ => true) &&
    (s.tree.insert (refOf cfg call.2 call.2.prevBlock)).toOption.all fun grown => grown.2.inserted.all fun hash =>
      decide (cfg.prim.headerHash ((s.branches.insert (cfg.prim.headerHash call.2.toBlockHeader) call.2).getD hash
        Block.null).toBlockHeader = hash)

/-- Such a call meets what is asked. -/
theorem InStep.meets_takes (inStep : InStep s) {call : Clock × Block} (passed : takes cfg s call = true) :
    TrunkMeets cfg s call := by
  obtain ⟨⟨known, reached⟩, -⟩ := inStep
  obtain ⟨returns, stored⟩ := (Bool.and_eq_true _ _).mp passed
  refine ⟨fun {prev prevHeight invalidTree tree changes} accepted hash member => ?_, commits_of_append returns⟩
  rw [← (accepted.offered reached).2.2, accepted.grown] at stored
  exact of_decide_eq_true (List.all_eq_true.mp stored hash member)

/-- A run whose calls are all taken leaves the trunk and the table in step. -/
theorem taken_inStep {cfg : Config} {s last : BlockChain} {calls : List (Clock × Block)} (loaded : Loaded s)
    (taken : AlongSteps (offer cfg) (fun now call => ∀ s ∈ now, takes cfg s call = true) (some s) calls)
    (run : Run.final (offer cfg) (some s) calls = some last) : InStep last :=
  (offers_run (fun _ inStep => inStep) (fun _ _ _ inStep passed done => inStep.append (inStep.meets_takes passed) done)
    loaded.inStep taken).final last run

/-- A new chain has the row of its genesis block. -/
theorem create_loaded {genesis : Block} {unspentIndex : Bool} {purgeDepth : Int}
    (run : create cfg clock genesis unspentIndex purgeDepth = .ok s) : Loaded s := by
  obtain ⟨tree, start, blk, ledger, locator, result, assigned, -, -, -, branches, found, attached, rfl⟩ :=
    create_ok run
  let ref := refOf cfg genesis genesis.prevBlock
  have linked : BlockTree.Linked [ref] := linked_genesis ref
  obtain ⟨t, assigned', rep, trunk⟩ := BlockTree.assign_represents linked
  obtain rfl := Except.ok.inj (assigned.symm.trans assigned')
  have inside : ref ∈ [ref].reverse := List.mem_singleton_self _
  obtain ⟨blk', found', named, counted⟩ := blkOf_known rep linked.grown inside
  obtain rfl := Except.ok.inj (found.symm.trans found')
  rw [depth_trunk rep linked.grown (show tree.trunk = [] ++ [ref] from trunk)] at counted
  refine ⟨[ref], linked, assigned, ?_⟩
  have none_yet : Rows [] (∅ : Map Int BlockRow) := by
    intro count
    simp
  have stored : start.branches.getD blk.hash Block.null = genesis := by
    rw [named, branches, Map.getD_lookup]
    exact congrArg (fun found : Option Block => found.getD Block.null) (Map.lookup_insert_self _ _ _)
  have row := attach_blocks attached rfl
  have first := none_yet.append
    { genesis.toBlockHeader with hash := cfg.prim.headerHash genesis.toBlockHeader }
  show Rows [ref.hash] ledger.blocks
  rw [row, stored, counted]
  exact first

end Trunk

open Libcoin.Small in
/-- The second of two blocks with the same work is built upon, and its successor pays too much: the table keeps
the first, the tree the second. -/
theorem trunk_rows_apart : ∃ s, created 1 0 = .ok s ∧
    ¬ AlongStates (offer (config 1 0)) (fun now => ∀ s ∈ now, Aligned s) (some s)
      [(clock, mined 2 1 [coinbase 2 [50]]), (clock, mined 3 1 [coinbase 3 [50]]),
        (clock, mined 4 3 [coinbase 4 [51]])] := by
  have run : (do
      let s ← (created 1 0).toOption
      let s ← Run.final (offer (config 1 0)) (some s)
        [(clock, mined 2 1 [coinbase 2 [50]]), (clock, mined 3 1 [coinbase 3 [50]]),
          (clock, mined 4 3 [coinbase 4 [51]])]
      return (s.ledger.db.blocks.toList.map (fun row => row.2.hash), hashes s.tree.trunk)) =
        some ([1, 2], [1, 3]) := by decide +kernel
  obtain ⟨s, done, run⟩ := Option.bind_eq_some_iff.mp run
  obtain ⟨s', last, run⟩ := Option.bind_eq_some_iff.mp run
  obtain ⟨rows, trunk⟩ := Prod.mk.inj (Option.some.inj run)
  refine ⟨s, toOption_eq_some.mp done, fun along => ?_⟩
  have aligned : Aligned s' := along.final s' last
  unfold Aligned at aligned
  rw [rows, trunk] at aligned
  exact absurd aligned (by decide)

open Libcoin.Small in
/-- A block that pays too much is rolled back, the next one is taken, and then a branch that outweighs it. -/
theorem trunk_rows_undone : ∃ s, created 1 0 = .ok s ∧
    AlongStates (offer (config 1 0)) (fun now => ∀ s ∈ now, Aligned s) (some s)
      [(clock, mined 2 1 [coinbase 2 [51]]), (clock, mined 3 1 [coinbase 3 [50]]),
        (clock, mined 4 1 [coinbase 4 [50]]), (clock, mined 5 4 [coinbase 5 [50]])] := by
  have run : (do
      let s ← (created 1 0).toOption
      let s₁ ← offer (config 1 0) (some s) (clock, mined 2 1 [coinbase 2 [51]])
      let s₂ ← offer (config 1 0) (some s₁) (clock, mined 3 1 [coinbase 3 [50]])
      let s₃ ← offer (config 1 0) (some s₂) (clock, mined 4 1 [coinbase 4 [50]])
      return (s.tree.trunk.getLast?.map BlockRef.hash,
        takes (config 1 0) s₁ (clock, mined 3 1 [coinbase 3 [50]]),
        takes (config 1 0) s₂ (clock, mined 4 1 [coinbase 4 [50]]),
        takes (config 1 0) s₃ (clock, mined 5 4 [coinbase 5 [50]]))) = some (some 1, true, true, true) := by
    decide +kernel
  obtain ⟨s, done, run⟩ := Option.bind_eq_some_iff.mp run
  obtain ⟨s₁, undone, run⟩ := Option.bind_eq_some_iff.mp run
  obtain ⟨s₂, next, run⟩ := Option.bind_eq_some_iff.mp run
  obtain ⟨s₃, branch, run⟩ := Option.bind_eq_some_iff.mp run
  obtain ⟨first, run⟩ := Prod.mk.inj (Option.some.inj run)
  obtain ⟨second, run⟩ := Prod.mk.inj run
  obtain ⟨third, fourth⟩ := Prod.mk.inj run
  obtain ⟨tip, best, named⟩ := Option.map_eq_some_iff.mp first
  have created := toOption_eq_some.mp done
  have loaded := create_loaded created
  have one : TrunkMeets (config 1 0) s (clock, mined 2 1 [coinbase 2 [51]]) :=
    loaded.inStep.meets_tip best (by rw [named]; decide)
  have inStep₁ := loaded.inStep.append one undone
  have two := inStep₁.meets_takes second
  have inStep₂ := inStep₁.append two next
  have three := inStep₂.meets_takes third
  have four := (inStep₂.append three branch).meets_takes fourth
  refine ⟨s, created, trunk_rows loaded ⟨?_, ?_, ?_, ?_, trivial⟩⟩
  · rintro _ ⟨⟩
    exact one
  · rw [undone]
    rintro _ ⟨⟩
    exact two
  · rw [undone, next]
    rintro _ ⟨⟩
    exact three
  · rw [undone, next, branch]
    rintro _ ⟨⟩
    exact four

end BlockChain

end Libcoin
