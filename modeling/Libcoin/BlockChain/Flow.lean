/-
What `append` can do.

* `failIf_ok`, `ask_ok`, `readTree_ok` and `onLedger_ok` take the primitive steps apart.
* `accept_keeps`, `reorganize_keeps` and their companions say which members each part leaves alone, also
  when it throws.
* `Outcome` lists the ways in which `append` ends, with the block chain each leaves, and
  `append_outcome` is the case distinction. What holds after every call follows from it.
-/

import Libcoin.BlockChain.Append
import Libcoin.Ledger.Steps

namespace Libcoin

open Exec

section Primitive

variable {s s' : BlockChain} {A : Type}

theorem failIf_ok {bad : Bool} {fault : Fault} {done : Unit} :
    failIf bad fault s = .ok done s' ↔ bad = false ∧ s = s' := guard_ok

theorem ask_ok {x : Except Fault A} {a : A} : ask x s = .ok a s' ↔ x = .ok a ∧ s = s' := by
  cases x with
  | error fault => simp [ask, throw_ok]
  | ok b => simp [ask, pure_ok]

theorem readTree_ok {call : BlockTree Uint256 → Except Fault A} {a : A} :
    readTree call s = .ok a s' ↔ call s.tree = .ok a ∧ s = s' := by
  unfold readTree
  rw [bind_ok]
  constructor
  · rintro ⟨now, mid, read, asked⟩
    obtain ⟨rfl, rfl⟩ := get_ok.mp read
    exact ask_ok.mp asked
  · exact fun same => ⟨s, s, get_ok.mpr ⟨rfl, rfl⟩, ask_ok.mpr same⟩

theorem onLedger_ok {part : LedgerM A} {a : A} :
    onLedger part s = .ok a s' ↔ ∃ ledger, part s.ledger = .ok a ledger ∧ { s with ledger := ledger } = s' := by
  unfold onLedger
  cases part s.ledger with
  | ok b ledger => simp only [EStateM.Result.ok.injEq]; grind
  | error fault ledger => simp

end Primitive

namespace BlockChain

/-! ### Members that stay -/

section Keeps

variable {cfg : Config} {clock : Clock} {A V : Type} {view : BlockChain → V}

theorem failIf_keeps (bad : Bool) (fault : Fault) : Keeps view (failIf bad fault) :=
  keeps_ite (keeps_throw fault) (keeps_pure ())

theorem ask_keeps (x : Except Fault A) : Keeps view (ask x) := by
  cases x with
  | ok a => exact keeps_pure a
  | error fault => exact keeps_throw fault

theorem readTree_keeps (call : BlockTree Uint256 → Except Fault A) : Keeps view (readTree call) :=
  keeps_bind keeps_get fun s => ask_keeps (call s.tree)

/-- A view that does not look at the ledger. -/
theorem onLedger_keeps (same : ∀ s ledger, view { s with ledger := ledger } = view s) (part : LedgerM A) :
    Keeps view (onLedger part) := by
  intro s
  unfold onLedger
  cases part s.ledger with
  | ok a ledger => exact same s ledger
  | error fault ledger => exact same s ledger

theorem branchBlock_keeps (same : ∀ s branches, view { s with branches := branches } = view s)
    (hash : Uint256) : Keeps view (branchBlock hash) := by
  refine keeps_modifyGet fun s => ?_
  cases s.branches[hash]? with
  | some block => rfl
  | none => exact same s _

/-- A view that does not look at the tree of invalid blocks. -/
theorem recordInvalid_keeps (same : ∀ s tree, view { s with invalidTree := tree } = view s) (block : Block) :
    Keeps view (recordInvalid cfg block) :=
  keeps_bind keeps_get fun _ => keeps_bind (ask_keeps _) fun _ =>
    keeps_ite (keeps_bind (ask_keeps _) fun _ => keeps_modify fun s => same s _) (keeps_pure ())

theorem checkTarget_keeps (block : Block) (prev : BlockRef Uint256) :
    Keeps view (checkTarget cfg block prev) :=
  keeps_bind keeps_get fun _ =>
    keeps_ite (keeps_bind (failIf_keeps _ _) fun _ => failIf_keeps _ _) (keeps_pure ())

theorem accept_keeps (same : ∀ s tree, view { s with invalidTree := tree } = view s) (block : Block) :
    Keeps view (accept cfg block) := by
  refine keeps_bind (failIf_keeps _ _) fun _ => keeps_bind (readTree_keeps _) fun known => ?_
  refine keeps_bind (failIf_keeps _ _) fun _ => keeps_bind keeps_get fun now => ?_
  refine keeps_bind (ask_keeps _) fun invalid => keeps_bind (failIf_keeps _ _) fun _ => ?_
  refine keeps_bind (recordInvalid_keeps same block) fun _ => keeps_bind (readTree_keeps _) fun prev => ?_
  refine keeps_bind (readTree_keeps _) fun version => keeps_bind (failIf_keeps _ _) fun _ => ?_
  cases prev with
  | none => exact keeps_throw _
  | some prev =>
    refine keeps_bind (checkTarget_keeps block prev) fun _ => keeps_bind (readTree_keeps _) fun median => ?_
    exact keeps_bind (failIf_keeps _ _) fun _ => keeps_bind (readTree_keeps _) fun height => keeps_pure _

/-- A view that looks neither at the ledger nor at the blocks of branches. -/
structure Ignores (view : BlockChain → V) : Prop where
  ledger : ∀ s ledger, view { s with ledger := ledger } = view s
  branches : ∀ s branches, view { s with branches := branches } = view s

theorem detachBlock_keeps (ignores : Ignores view) (hash : Uint256) (unconfirmed : Txns) :
    Keeps view (detachBlock cfg clock hash unconfirmed) := by
  refine keeps_bind (readTree_keeps _) fun blk => keeps_bind keeps_get fun now => ?_
  refine keeps_bind (onLedger_keeps ignores.ledger _) fun result => ?_
  exact keeps_bind (keeps_modify fun s => ignores.branches s _) fun _ => keeps_pure _

theorem detachBlocks_keeps (ignores : Ignores view) (hashes : List Uint256) (unconfirmed : Txns) :
    Keeps view (detachBlocks cfg clock hashes unconfirmed) := by
  induction hashes generalizing unconfirmed with
  | nil => exact keeps_pure _
  | cons hash hashes ih => exact keeps_bind (detachBlock_keeps ignores hash unconfirmed) fun known => ih known

theorem attachBlock_keeps (ignores : Ignores view) (hash : Uint256) (unconfirmed : Txns)
    (confirmed : Hashes) : Keeps view (attachBlock cfg clock hash unconfirmed confirmed) := by
  refine keeps_bind (readTree_keeps _) fun blk => ?_
  refine keeps_bind (branchBlock_keeps ignores.branches blk.hash) fun block => ?_
  refine keeps_bind keeps_get fun now => ?_
  exact keeps_bind (onLedger_keeps ignores.ledger _) fun _ => keeps_pure _

theorem attachBlocks_keeps (ignores : Ignores view) (hashes : List Uint256) (blk : Option Blk)
    (unconfirmed : Txns) (confirmed : Hashes) :
    Keeps view (attachBlocks cfg clock hashes blk unconfirmed confirmed) := by
  induction hashes generalizing blk unconfirmed confirmed with
  | nil => exact keeps_pure _
  | cons hash hashes ih =>
    exact keeps_bind (attachBlock_keeps ignores hash unconfirmed confirmed) fun _ => ih _ _ _

theorem enforceVersion_keeps (block : Block) (prevHeight : Int) :
    Keeps view (enforceVersion cfg block prevHeight) := by
  refine keeps_bind (readTree_keeps _) fun version => keeps_ite ?_ (keeps_pure ())
  exact keeps_bind (ask_keeps _) fun height => failIf_keeps _ _

/-- A view that looks at the trees, the claims and the calls at most. -/
structure IgnoresChain (view : BlockChain → V) : Prop extends Ignores view where
  purgeDepth : ∀ s depth, view { s with purgeDepth := depth } = view s
  bestLocator : ∀ s locator, view { s with bestLocator := locator } = view s

theorem purgeBlocks_keeps (ignores : IgnoresChain view) (prevHeight count : Int) (s : BlockChain) :
    view (purgeBlocks cfg prevHeight count s) = view s := by
  unfold purgeBlocks
  split
  · rw [← ignores.ledger s { s.ledger with db := s.ledger.db.purge s.purgeDepth }]
    exact ignores.purgeDepth { s with ledger := { s.ledger with db := s.ledger.db.purge s.purgeDepth } } _
  · rfl

theorem updateBestLocator_keeps (ignores : IgnoresChain view) : Keeps view (updateBestLocator cfg) :=
  keeps_bind (readTree_keeps _) fun _ => keeps_modify fun s => ignores.bestLocator s _

theorem reorganize_keeps (ignores : IgnoresChain view) (block : Block) (prevHeight : Int)
    (changes : BlockTree.Changes Uint256) :
    Keeps view (reorganize cfg clock block prevHeight changes) := by
  refine keeps_bind (detachBlocks_keeps ignores.toIgnores _ _) fun unconfirmed => ?_
  refine keeps_bind (attachBlocks_keeps ignores.toIgnores _ _ _ _) fun result => ?_
  refine keeps_bind (keeps_modify fun s => purgeBlocks_keeps ignores _ _ s) fun _ => ?_
  refine keeps_bind (enforceVersion_keeps block prevHeight) fun _ => ?_
  refine keeps_bind (keeps_modify fun s => ignores.branches s _) fun _ => ?_
  exact keeps_bind (updateBestLocator_keeps ignores) fun _ => keeps_pure _

/-- A view that looks neither at the blocks of branches nor at the calls. -/
theorem notify_keeps (branches : ∀ s branches, view { s with branches := branches } = view s)
    (calls : ∀ s calls, view { s with calls := calls } = view s) (hash : Uint256) (hashes : List Uint256) :
    Keeps view (notify cfg hash hashes) := by
  induction hashes with
  | nil => exact keeps_pure _
  | cons other hashes ih =>
    refine keeps_bind (readTree_keeps _) fun height => ?_
    refine keeps_bind (branchBlock_keeps branches hash) fun block => ?_
    refine keeps_bind (keeps_modify fun s => ?_) fun _ => ih
    induction block.transactions generalizing s with
    | nil => rfl
    | cons txn txns more => exact (more _).trans (calls s _)

/-- A view that looks neither at the claims nor at the calls. -/
theorem settle_keeps (claims : ∀ s claims, view { s with claims := claims } = view s)
    (calls : ∀ s calls, view { s with calls := calls } = view s) (unconfirmed : Txns) (confirmed : Hashes)
    (s : BlockChain) : view (settle cfg clock unconfirmed confirmed s) = view s := by
  have loop : ∀ txns (s : BlockChain), view (reclaim cfg clock s txns) = view s := by
    intro txns
    induction txns with
    | nil => exact fun _ => rfl
    | cons txn txns ih =>
      intro s
      refine (ih (afterClaim cfg clock false s txn)).trans ?_
      unfold afterClaim
      cases tryClaim cfg clock s txn false with
      | error fault => rfl
      | ok result =>
        exact (calls { s with claims := s.claims.insert cfg.prim clock.now txn result.1 result.2 0 } _).trans
          (claims s _)
  exact (loop _ _).trans (claims s _)

theorem ignores_tree : IgnoresChain BlockChain.tree :=
    ⟨⟨fun _ _ => rfl, fun _ _ => rfl⟩, fun _ _ => rfl, fun _ _ => rfl⟩

theorem ignores_claims : IgnoresChain BlockChain.claims :=
    ⟨⟨fun _ _ => rfl, fun _ _ => rfl⟩, fun _ _ => rfl, fun _ _ => rfl⟩

theorem ignores_calls : IgnoresChain BlockChain.calls :=
    ⟨⟨fun _ _ => rfl, fun _ _ => rfl⟩, fun _ _ => rfl, fun _ _ => rfl⟩

end Keeps

/-! ### The ends of `append` -/

section Outcome

variable (cfg : Config) (clock : Clock)

/-- The block chain when `append` enters `try`. -/
def grown (block : Block) (invalidTree tree : BlockTree Uint256) (s : BlockChain) : BlockChain :=
  { s with
    invalidTree := invalidTree
    tree := tree
    branches := s.branches.insert (cfg.prim.headerHash block.toBlockHeader) block }

/-- A block that is accepted, and what the tree makes of it. -/
structure Accepted (s : BlockChain) (block : Block) (prev : BlockRef Uint256) (prevHeight : Int)
    (invalidTree tree : BlockTree Uint256) (changes : BlockTree.Changes Uint256) : Prop where
  accepted : accept cfg block s = .ok (prev, prevHeight) { s with invalidTree := invalidTree }
  grown : s.tree.insert (refOf cfg block prev.hash) = .ok (tree, changes)

/-- The ends of a call of `append`. -/
inductive Outcome (s : BlockChain) (block : Block) : EStateM.Result Fault BlockChain Unit → Prop
  /-- The block is refused before the tree is changed. -/
  | refused (invalidTree : BlockTree Uint256) (fault : Fault) :
    Outcome s block (.error fault { s with invalidTree := invalidTree })
  /-- The block starts a branch below the last checkpoint. -/
  | forbidden {prev prevHeight invalidTree tree changes}
    (accepted : Accepted cfg s block prev prevHeight invalidTree tree changes)
    (branch : changes.inserted = []) (early : prevHeight < cfg.chain.totalBlocksEstimate) (fault : Fault) :
    Outcome s block (.error fault { s with invalidTree := invalidTree, tree := tree })
  /-- The block goes on a branch. -/
  | branched {prev prevHeight invalidTree tree changes}
    (accepted : Accepted cfg s block prev prevHeight invalidTree tree changes)
    (branch : changes.inserted = []) :
    Outcome s block (.ok () (grown cfg block invalidTree tree s))
  /-- The trunk takes the block. -/
  | committed {prev prevHeight invalidTree tree changes unconfirmed confirmed s₁ s₂}
    (accepted : Accepted cfg s block prev prevHeight invalidTree tree changes)
    (moved : changes.inserted ≠ [])
    (done : reorganize cfg clock block prevHeight changes (grown cfg block invalidTree tree s) =
      .ok (unconfirmed, confirmed) s₁)
    (told : notify cfg (cfg.prim.headerHash block.toBlockHeader) changes.inserted s₁ = .ok () s₂) :
    Outcome s block (.ok () (settle cfg clock unconfirmed confirmed s₂))
  /-- The transaction of the database is rolled back. -/
  | undone {prev prevHeight invalidTree tree changes fault s₁ popped} {what : String}
    (accepted : Accepted cfg s block prev prevHeight invalidTree tree changes)
    (moved : changes.inserted ≠ []) (defined : fault ≠ .undefined)
    (failed : reorganize cfg clock block prevHeight changes (grown cfg block invalidTree tree s) =
      .error fault s₁)
    (popped_eq : tree.popBack = .ok popped) :
    Outcome s block (.error (.error what)
      { s₁ with
        tree := popped
        ledger := { s₁.ledger with db := s.ledger.db, spendables := s.ledger.spendables } })
  /-- The tree cannot be rolled back. -/
  | stuck {prev prevHeight invalidTree tree changes fault s₁} {other : Fault}
    (accepted : Accepted cfg s block prev prevHeight invalidTree tree changes)
    (moved : changes.inserted ≠ []) (defined : fault ≠ .undefined)
    (failed : reorganize cfg clock block prevHeight changes (grown cfg block invalidTree tree s) =
      .error fault s₁)
    (popped_eq : tree.popBack = .error other) :
    Outcome s block (.error other { s₁ with ledger := { s₁.ledger with db := s.ledger.db } })
  /-- The loops run into behaviour that is not defined. -/
  | undefined {prev prevHeight invalidTree tree changes s₁}
    (accepted : Accepted cfg s block prev prevHeight invalidTree tree changes)
    (moved : changes.inserted ≠ [])
    (failed : reorganize cfg clock block prevHeight changes (grown cfg block invalidTree tree s) =
      .error .undefined s₁) :
    Outcome s block (.error .undefined s₁)

/-- An insertion either leaves the trunk, or ends it with the new block. -/
theorem insert_trunk {t t' : BlockTree Uint256} {ref : BlockRef Uint256} {changes : BlockTree.Changes Uint256}
    (done : t.insert ref = .ok (t', changes)) :
    (changes = { deleted := [], inserted := [] } ∧ t'.trunk = t.trunk ∧ t'.accWork = t.accWork) ∨
      ∃ low rest, changes.inserted = ref.hash :: rest ∧ t'.trunk = low ++ [ref] ∧
        t'.heights[ref.hash]? = some (low.length : Int) := by
  unfold BlockTree.insert at done
  obtain ⟨found, -, done⟩ := bind_eq_ok.mp done
  cases found with
  | none => cases done
  | some blk =>
    obtain ⟨work, -, done⟩ := bind_eq_ok.mp done
    obtain ⟨tipWork, -, done⟩ := bind_eq_ok.mp done
    dsimp only at done
    split at done
    · obtain ⟨⟨inserted, root⟩, -, done⟩ := bind_eq_ok.mp done
      obtain ⟨above, -, done⟩ := bind_eq_ok.mp done
      obtain ⟨⟨moved, deleted⟩, -, done⟩ := bind_eq_ok.mp done
      obtain ⟨h, -, done⟩ := bind_eq_ok.mp done
      obtain ⟨rfl, rfl⟩ := Prod.mk.inj (Except.ok.inj done)
      exact .inr ⟨_, inserted, rfl, rfl, Map.lookup_insert_self _ _ _⟩
    · obtain ⟨h, -, done⟩ := bind_eq_ok.mp done
      obtain ⟨rfl, rfl⟩ := Prod.mk.inj (Except.ok.inj done)
      exact .inl ⟨rfl, rfl, rfl⟩

/-- The block that ends the trunk is found there. -/
theorem find_tip {t : BlockTree Uint256} {ref : BlockRef Uint256} {low : List (BlockRef Uint256)}
    (split : t.trunk = low ++ [ref]) (height : t.heights[ref.hash]? = some (low.length : Int)) :
    t.find ref.hash = .ok (some ref) := by
  unfold SparseTree.find
  rw [height]
  have at_tip : t.trunkAt (low.length : Int) = .ok ref := by
    unfold SparseTree.trunkAt
    rw [if_neg (by omega), Int.toNat_natCast, split, List.getElem?_concat_length]
  show (if (low.length : Int) < 0 then _ else _) = _
  rw [if_neg (by omega), at_tip]
  rfl

theorem heightOf_tip {t : BlockTree Uint256} {ref : BlockRef Uint256} {low : List (BlockRef Uint256)}
    (height : t.heights[ref.hash]? = some (low.length : Int)) : t.heightOf ref.hash = .ok low.length := by
  unfold SparseTree.heightOf
  rw [height]

/-! ### The case distinction -/

variable {cfg clock} {s s' : BlockChain}

theorem heightAt_tip {t : BlockTree Uint256} {ref : BlockRef Uint256} {low : List (BlockRef Uint256)}
    (split : t.trunk = low ++ [ref]) (height : t.heights[ref.hash]? = some (low.length : Int)) :
    t.heightAt ref.hash = .ok low.length := by
  unfold BlockTree.heightAt
  rw [find_tip split height]
  exact heightOf_tip height

theorem blkOf_tip {t : BlockTree Uint256} {ref : BlockRef Uint256} {low : List (BlockRef Uint256)}
    (split : t.trunk = low ++ [ref]) (height : t.heights[ref.hash]? = some (low.length : Int)) :
    t.blkOf ref.hash = .ok { hash := ref.hash, time := ref.time, height := low.length
                             prevHash := (t.back ref).toOption.elim 0 BlockRef.hash } := by
  unfold BlockTree.blkOf
  rw [find_tip split height]
  show (t.heightOf ref.hash >>= _) = _
  rw [heightOf_tip height]
  rfl

/-- A block that is accepted is not known, and the block before it is. -/
theorem Accepted.found {block : Block} {prev : BlockRef Uint256} {prevHeight : Int}
    {invalidTree tree : BlockTree Uint256} {changes : BlockTree.Changes Uint256}
    (accepted : Accepted cfg s block prev prevHeight invalidTree tree changes) :
    s.tree.find (cfg.prim.headerHash block.toBlockHeader) = .ok none ∧
      s.tree.find block.prevBlock = .ok (some prev) ∧ 0 ≤ prevHeight := by
  have run := accepted.accepted
  unfold accept at run
  obtain ⟨_, _, first, run⟩ := bind_ok.mp run
  obtain ⟨-, rfl⟩ := failIf_ok.mp first
  obtain ⟨known, _, look, run⟩ := bind_ok.mp run
  obtain ⟨found, rfl⟩ := readTree_ok.mp look
  obtain ⟨_, _, fresh, run⟩ := bind_ok.mp run
  obtain ⟨fresh, rfl⟩ := failIf_ok.mp fresh
  rw [bind_get] at run
  obtain ⟨invalid, _, asked, run⟩ := bind_ok.mp run
  obtain ⟨-, rfl⟩ := ask_ok.mp asked
  obtain ⟨_, _, valid, run⟩ := bind_ok.mp run
  obtain ⟨-, rfl⟩ := failIf_ok.mp valid
  obtain ⟨_, mid, recorded, run⟩ := bind_ok.mp run
  have same : mid.tree = _ := (recordInvalid_keeps (fun _ _ => rfl) block).ok recorded
  obtain ⟨before, _, look, run⟩ := bind_ok.mp run
  obtain ⟨connected, rfl⟩ := readTree_ok.mp look
  obtain ⟨version, _, look, run⟩ := bind_ok.mp run
  obtain ⟨-, rfl⟩ := readTree_ok.mp look
  obtain ⟨_, _, recent, run⟩ := bind_ok.mp run
  obtain ⟨-, rfl⟩ := failIf_ok.mp recent
  rw [same] at connected
  cases before with
  | none => exact (throw_ok.mp run).elim
  | some before =>
    obtain ⟨_, _, -, run⟩ := bind_ok.mp run
    obtain ⟨_, _, -, run⟩ := bind_ok.mp run
    obtain ⟨_, _, -, run⟩ := bind_ok.mp run
    obtain ⟨_, _, -, run⟩ := bind_ok.mp run
    obtain ⟨rfl, rfl⟩ := Prod.mk.inj (pure_ok.mp run).1
    refine ⟨?_, connected, Int.natCast_nonneg _⟩
    rw [found]
    cases known with
    | none => rfl
    | some _ => cases fresh

theorem Accepted.unique {block : Block} {prev prev' : BlockRef Uint256} {prevHeight prevHeight' : Int}
    {invalidTree invalidTree' tree tree' : BlockTree Uint256} {changes changes' : BlockTree.Changes Uint256}
    (first : Accepted cfg s block prev prevHeight invalidTree tree changes)
    (second : Accepted cfg s block prev' prevHeight' invalidTree' tree' changes') :
    prev' = prev ∧ prevHeight' = prevHeight ∧ invalidTree' = invalidTree ∧ tree' = tree ∧ changes' = changes := by
  obtain ⟨one, two⟩ := EStateM.Result.ok.inj (second.accepted.symm.trans first.accepted)
  obtain ⟨rfl, rfl⟩ := Prod.mk.inj one
  obtain ⟨rfl, rfl⟩ := Prod.mk.inj (Except.ok.inj (second.grown.symm.trans first.grown))
  exact ⟨rfl, rfl, congrArg BlockChain.invalidTree two, rfl, rfl⟩

/-- Looking a block up leaves the rest alone, and the block is the one that is stored. -/
theorem branchBlock_run (hash : Uint256) (s : BlockChain) :
    ∃ branches, branchBlock hash s = .ok (s.branches.getD hash Block.null) { s with branches := branches } ∧
      ∀ other, branches.getD other Block.null = s.branches.getD other Block.null := by
  unfold branchBlock
  show ∃ branches, EStateM.Result.ok _ _ = _ ∧ _
  cases stored : s.branches[hash]? with
  | some block =>
    refine ⟨s.branches, ?_, fun _ => rfl⟩
    rw [Map.getD_lookup, stored]
    rfl
  | none =>
    refine ⟨s.branches.insert hash Block.null, ?_, fun other => ?_⟩
    · rw [Map.getD_lookup, stored]
      rfl
    · rw [Map.getD_lookup, Map.getD_lookup, Map.lookup_insert]
      split_ifs with same
      · rw [← same, stored]
        rfl
      · rfl

/-- The blocks of branches stay as they are seen through `branchBlock`. -/
theorem attachBlock_ok {hash : Uint256} {unconfirmed unconfirmed' : Txns} {confirmed confirmed' : Hashes}
    {blk : Blk}
    (run : attachBlock cfg clock hash unconfirmed confirmed s = .ok (blk, unconfirmed', confirmed') s') :
    s.tree.blkOf hash = .ok blk ∧
      (∃ branches ledger, s' = { s with branches := branches, ledger := ledger } ∧
        (∀ other, branches.getD other Block.null = s.branches.getD other Block.null) ∧
        attach (s.setting cfg clock) blk (s.branches.getD blk.hash Block.null) unconfirmed confirmed
          s.ledger = .ok (unconfirmed', confirmed') ledger) := by
  unfold attachBlock at run
  obtain ⟨blk', mid, look, run⟩ := bind_ok.mp run
  obtain ⟨found, rfl⟩ := readTree_ok.mp look
  obtain ⟨branches, looked, same⟩ := branchBlock_run blk'.hash s
  rw [bind_of_ok looked, bind_get] at run
  obtain ⟨⟨known, done⟩, mid, part, run⟩ := bind_ok.mp run
  obtain ⟨ledger, attached, rfl⟩ := onLedger_ok.mp part
  obtain ⟨equal, rfl⟩ := pure_ok.mp run
  obtain ⟨rfl, rfl, rfl⟩ := equal
  exact ⟨found, branches, ledger, rfl, same, attached⟩

theorem detach_ok {env : Setting} {blk : Blk} {unconfirmed unconfirmed' : Txns} {block : Block} {s s' : Ledger}
    (run : detach env blk unconfirmed s = .ok (block, unconfirmed') s') :
    block = s.db.getBlock env blk.count ∧ s' = rollbackBlock env blk.count s ∧
      ∃ coinbase txns, block.transactions = coinbase :: txns ∧
        unconfirmed' =
          txns.foldl (fun known txn => known.insert (env.prim.txnHash txn) txn) unconfirmed := by
  unfold detach at run
  rw [bind_get, bind_modify] at run
  cases transactions : (s.db.getBlock env blk.count).transactions with
  | nil =>
    rw [transactions] at run
    exact (throw_ok.mp run).elim
  | cons coinbase txns =>
    rw [transactions] at run
    obtain ⟨same, rfl⟩ := pure_ok.mp run
    obtain ⟨rfl, rfl⟩ := Prod.mk.inj same
    exact ⟨rfl, rfl, coinbase, txns, transactions, rfl⟩

theorem detachBlock_ok {hash : Uint256} {unconfirmed unconfirmed' : Txns}
    (run : detachBlock cfg clock hash unconfirmed s = .ok unconfirmed' s') :
    ∃ blk block ledger, s.tree.blkOf hash = .ok blk ∧
      detach (s.setting cfg clock) blk unconfirmed s.ledger = .ok (block, unconfirmed') ledger ∧
      s' = { s with branches := s.branches.insert blk.hash block, ledger := ledger } := by
  unfold detachBlock at run
  obtain ⟨blk, _, look, run⟩ := bind_ok.mp run
  obtain ⟨found, rfl⟩ := readTree_ok.mp look
  rw [bind_get] at run
  obtain ⟨⟨block, known⟩, mid, part, run⟩ := bind_ok.mp run
  obtain ⟨ledger, detached, rfl⟩ := onLedger_ok.mp part
  dsimp only at run
  rw [bind_modify] at run
  obtain ⟨rfl, rfl⟩ := pure_ok.mp run
  exact ⟨blk, block, ledger, found, detached, rfl⟩

/-- The first block is detached, and then the others. -/
theorem detachBlocks_cons_ok {hash : Uint256} {hashes : List Uint256} {unconfirmed unconfirmed' : Txns}
    (run : detachBlocks cfg clock (hash :: hashes) unconfirmed s = .ok unconfirmed' s') :
    ∃ known blk block ledger, s.tree.blkOf hash = .ok blk ∧
      detach (s.setting cfg clock) blk unconfirmed s.ledger = .ok (block, known) ledger ∧
      detachBlocks cfg clock hashes known { s with branches := s.branches.insert blk.hash block, ledger := ledger } =
        .ok unconfirmed' s' := by
  unfold detachBlocks at run
  obtain ⟨known, mid, first, run⟩ := bind_ok.mp run
  obtain ⟨blk, block, ledger, found, detached, rfl⟩ := detachBlock_ok first
  exact ⟨known, blk, block, ledger, found, detached, run⟩

theorem enforceVersion_ok {block : Block} {prevHeight : Int} {done : Unit}
    (run : enforceVersion cfg block prevHeight s = .ok done s') : s' = s := by
  have same : Keeps id (enforceVersion cfg block prevHeight) := enforceVersion_keeps block prevHeight
  exact same.ok run

theorem updateBestLocator_ok {done : Unit} (run : updateBestLocator cfg s = .ok done s') :
    ∃ locator, s' = { s with bestLocator := locator } := by
  unfold updateBestLocator at run
  obtain ⟨hashes, mid, look, run⟩ := bind_ok.mp run
  obtain ⟨-, rfl⟩ := readTree_ok.mp look
  exact ⟨_, (modify_ok.mp run).symm⟩

/-- A reorganisation that succeeds detaches, attaches, purges, and forgets the blocks it has attached. -/
theorem reorganize_ok {block : Block} {prevHeight : Int} {changes : BlockTree.Changes Uint256}
    {unconfirmed : Txns} {confirmed : Hashes}
    (run : reorganize cfg clock block prevHeight changes s = .ok (unconfirmed, confirmed) s') :
    ∃ known mid blk s₁ locator,
      detachBlocks cfg clock changes.deleted ∅ s = .ok known mid ∧
      attachBlocks cfg clock changes.inserted.reverse none known ∅ mid =
        .ok (blk, unconfirmed, confirmed) s₁ ∧
      s' = { purgeBlocks cfg prevHeight (blk.elim 0 Blk.count) s₁ with
        branches := Map.eraseAll changes.inserted s₁.branches
        bestLocator := locator } := by
  unfold reorganize at run
  obtain ⟨known, mid, detached, run⟩ := bind_ok.mp run
  obtain ⟨⟨blk, left, done⟩, s₁, attached, run⟩ := bind_ok.mp run
  dsimp only at run
  rw [bind_modify] at run
  obtain ⟨_, s₂, enforced, run⟩ := bind_ok.mp run
  obtain rfl := enforceVersion_ok enforced
  rw [bind_modify] at run
  obtain ⟨_, s₃, located, run⟩ := bind_ok.mp run
  obtain ⟨locator, rfl⟩ := updateBestLocator_ok located
  obtain ⟨same, rfl⟩ := pure_ok.mp run
  obtain ⟨rfl, rfl⟩ := Prod.mk.inj same
  refine ⟨known, mid, blk, s₁, locator, detached, attached, ?_⟩
  unfold purgeBlocks
  split <;> rfl

/-- The calls about the transactions of a block. -/
def callsFor (cfg : Config) (block : Block) (height : Int) : List Call :=
  block.transactions.flatMap fun txn => cfg.listeners.map fun listener => ⟨listener, txn, height⟩

theorem foldl_callListeners (txns : List Transaction) (height : Int) (s : BlockChain) :
    txns.foldl (fun s txn => s.callListeners cfg txn height) s =
      { s with
        calls := s.calls ++ txns.flatMap fun txn => cfg.listeners.map fun listener =>
          ⟨listener, txn, height⟩ } := by
  induction txns generalizing s with
  | nil => rw [List.foldl_nil, List.flatMap_nil, List.append_nil]
  | cons txn txns ih =>
    rw [List.foldl_cons, ih, List.flatMap_cons, ← List.append_assoc]
    rfl

/-- `notify` repeats the calls about one block, once for each hash. -/
theorem notify_run {hash : Uint256} {height : Int} (found : s.tree.heightAt hash = .ok height)
    (hashes : List Uint256) :
    ∃ branches, notify cfg hash hashes s =
      .ok () { s with
        branches := branches
        calls := s.calls ++
          hashes.flatMap fun _ => callsFor cfg (s.branches.getD hash Block.null) height } := by
  induction hashes generalizing s with
  | nil =>
    refine ⟨s.branches, ?_⟩
    rw [List.flatMap_nil, List.append_nil]
    rfl
  | cons other hashes ih =>
    obtain ⟨branches, looked, same⟩ := branchBlock_run hash s
    have next := @ih { s with
      branches := branches
      calls := s.calls ++ callsFor cfg (s.branches.getD hash Block.null) height } found
    obtain ⟨branches', rest⟩ := next
    refine ⟨branches', ?_⟩
    unfold notify
    rw [bind_of_ok (readTree_ok.mpr ⟨found, rfl⟩), bind_of_ok looked, bind_modify, foldl_callListeners]
    refine rest.trans ?_
    simp only [same, List.flatMap_cons, List.append_assoc, callsFor]

/-- `accept` changes the tree of invalid blocks at most. -/
theorem accept_final (block : Block) (s : BlockChain) :
    ∃ invalidTree, final (accept cfg block s) = { s with invalidTree := invalidTree } := by
  let rest : BlockChain → BlockChain := fun s => { s with invalidTree := BlockTree.empty }
  have same : rest (final (accept cfg block s)) = rest s := accept_keeps (fun _ _ => rfl) block s
  refine ⟨(final (accept cfg block s)).invalidTree, ?_⟩
  generalize final (accept cfg block s) = s' at same
  cases s
  cases s'
  simp only [rest, BlockChain.mk.injEq] at same ⊢
  tauto

/-- The tree that a failed reorganisation is rolled back from is the one after the insertion. -/
theorem reorganize_tree {block : Block} {prevHeight : Int} {changes : BlockTree.Changes Uint256} :
    (final (reorganize cfg clock block prevHeight changes s)).tree = s.tree :=
  reorganize_keeps ignores_tree block prevHeight changes s

theorem rollback_ok {A : Type} {before : Ledger} {what : String} {popped : BlockTree Uint256}
    (done : s.tree.popBack = .ok popped) :
    rollback (A := A) before what s =
      .error (.error ("append(Block): " ++ what))
        { s with
          tree := popped
          ledger := { s.ledger with db := before.db, spendables := before.spendables } } := by
  unfold rollback
  rw [bind_modify, bind_get, bind_of_ok (ask_ok.mpr ⟨done, rfl⟩)]
  rfl

theorem rollback_stuck {A : Type} {before : Ledger} {what : String} {fault : Fault}
    (failed : s.tree.popBack = .error fault) :
    rollback (A := A) before what s = .error fault { s with ledger := { s.ledger with db := before.db } } := by
  unfold rollback
  rw [bind_modify, bind_get]
  refine bind_of_error ?_
  show ask s.tree.popBack _ = _
  rw [failed]
  rfl

/-- The end of `append` for a block that the trunk takes. -/
theorem extend_outcome {block : Block} {prev : BlockRef Uint256} {prevHeight : Int}
    {invalidTree tree : BlockTree Uint256} {changes : BlockTree.Changes Uint256}
    (accepted : Accepted cfg s block prev prevHeight invalidTree tree changes)
    (moved : changes.inserted ≠ []) :
    Outcome cfg clock s block
      (extend cfg clock block prevHeight changes (grown cfg block invalidTree tree s)) := by
  obtain ⟨low, rest, -, split, height⟩ := (insert_trunk accepted.grown).resolve_left fun stays =>
    moved (by rw [stays.1])
  have same : (final (reorganize cfg clock block prevHeight changes
      (grown cfg block invalidTree tree s))).tree = tree := reorganize_tree
  unfold extend
  cases done : reorganize cfg clock block prevHeight changes (grown cfg block invalidTree tree s) with
  | ok result s₁ =>
    rw [done] at same
    have kept : s₁.tree = tree := same
    have committed : commit cfg clock block prevHeight changes (grown cfg block invalidTree tree s) =
        .ok result s₁ := by
      unfold commit
      rw [done]
    rw [bind_of_ok committed]
    obtain ⟨unconfirmed, confirmed⟩ := result
    have found := heightAt_tip split height
    rw [← kept] at found
    obtain ⟨branches, told⟩ : ∃ branches,
        notify cfg (refOf cfg block prev.hash).hash changes.inserted s₁ = _ := notify_run found changes.inserted
    change Outcome cfg clock s block
      ((notify cfg (refOf cfg block prev.hash).hash changes.inserted >>= fun _ => _) s₁)
    rw [bind_of_ok told]
    exact .committed accepted moved done told
  | error fault s₁ =>
    rw [done] at same
    have kept : s₁.tree = tree := same
    -- both exceptions end in the same `catch`
    have caught : ∀ what, fault ≠ .undefined →
        commit cfg clock block prevHeight changes (grown cfg block invalidTree tree s) =
          rollback s.ledger what s₁ →
        Outcome cfg clock s block
          ((commit cfg clock block prevHeight changes >>= fun result => do
            notify cfg (cfg.prim.headerHash block.toBlockHeader) changes.inserted
            modify fun s => settle cfg clock result.1 result.2 s) (grown cfg block invalidTree tree s)) := by
      intro what defined rolled
      cases popped : tree.popBack with
      | ok back =>
        rw [bind_of_error (rolled.trans (rollback_ok (by rw [kept]; exact popped)))]
        exact .undone accepted moved defined done popped
      | error other =>
        rw [bind_of_error (rolled.trans (rollback_stuck (by rw [kept]; exact popped)))]
        exact .stuck accepted moved defined done popped
    cases fault with
    | error what =>
      refine caught what (by simp) ?_
      unfold commit
      rw [done]
      rfl
    | reject what =>
      refine caught what (by simp) ?_
      unfold commit
      rw [done]
      rfl
    | undefined =>
      have lost : commit cfg clock block prevHeight changes (grown cfg block invalidTree tree s) =
          .error .undefined s₁ := by
        unfold commit
        rw [done]
      rw [bind_of_error lost]
      exact .undefined accepted moved done

/-- Every call of `append` ends in one of these ways. -/
theorem append_outcome (block : Block) : Outcome cfg clock s block (append cfg clock block s) := by
  unfold append
  obtain ⟨invalidTree, last⟩ : ∃ invalidTree, final (accept cfg block s) =
    { s with invalidTree := invalidTree } :=
    accept_final block s
  cases accepted : accept cfg block s with
  | error fault s₁ =>
    rw [accepted] at last
    obtain rfl : s₁ = _ := last
    rw [bind_of_error accepted]
    exact .refused invalidTree fault
  | ok result s₁ =>
    rw [accepted] at last
    obtain rfl : s₁ = _ := last
    obtain ⟨prev, prevHeight⟩ := result
    rw [bind_of_ok accepted]
    dsimp only
    cases insertion : s.tree.insert (refOf cfg block prev.hash) with
    | error fault =>
      have failed : growTree (refOf cfg block prev.hash) { s with invalidTree := invalidTree } =
          .error fault { s with invalidTree := invalidTree } := by
        unfold growTree
        rw [bind_get]
        refine bind_of_error ?_
        show ask (s.tree.insert _) _ = _
        rw [insertion]
        rfl
      rw [bind_of_error failed]
      exact .refused invalidTree fault
    | ok result =>
      obtain ⟨tree, changes⟩ := result
      have grew : growTree (refOf cfg block prev.hash) { s with invalidTree := invalidTree } =
          .ok changes { s with invalidTree := invalidTree, tree := tree } := by
        unfold growTree
        rw [bind_get, bind_of_ok (ask_ok.mpr ⟨insertion, rfl⟩)]
        rfl
      rw [bind_of_ok grew]
      have known : Accepted cfg s block prev prevHeight invalidTree tree changes := ⟨accepted, insertion⟩
      by_cases branch : changes.inserted = []
      · by_cases early : prevHeight < cfg.chain.totalBlocksEstimate
        · rw [branch, decide_eq_true early]
          exact .forbidden known branch early _
        · rw [branch, decide_eq_false early]
          exact .branched known branch
      · have moves : changes.inserted.isEmpty = false := List.isEmpty_eq_false_iff.mpr branch
        rw [moves, Bool.and_false]
        exact extend_outcome known branch

end Outcome

end BlockChain

end Libcoin
