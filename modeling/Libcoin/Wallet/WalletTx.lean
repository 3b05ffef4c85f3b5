/-
The transactions of a wallet, and whether one of them is confirmed.

* `CWalletTx` is a transaction with the block that it is in, the transactions that it depends on, and which of its
  outputs are spent. `TxWallet` has them by their hashes; `isMine` is `::IsMine` with the keys of the wallet.
* `isConfirmed` is `IsConfirmed`: a depth of at least 1 is enough, and otherwise `supported` goes through the
  transactions that it depends on.

A transaction is found in `mapPrev` under the hash of the transaction that is asked about, whatever its own hash.
-/

import Libcoin.BlockChain.Depths
import Libcoin.BlockChain.Runs

namespace Libcoin

open Exec
open BlockTree (Represents Reached)

/-- `MerkleTx` as a transaction of the wallet, with the hash of its block and the branch in it. -/
structure TxWallet.MerkleTx extends Transaction where
  blockHash : Uint256
  merkleBranch : List Uint256 := []
  index : Int := -1
  deriving DecidableEq, Repr

/-- `CWalletTx`. A debit or a credit is cached when it was asked for. -/
structure CWalletTx extends TxWallet.MerkleTx where
  vtxPrev : List TxWallet.MerkleTx
  fFromMe : Bool := false
  vfSpent : List Bool
  debitCached : Option Int
  creditCached : Option Int := none
  availableCreditCached : Option Int := none
  deriving DecidableEq, Repr

/-- What a `Wallet` has of its transactions, and which scripts it can redeem. -/
structure TxWallet where
  mapWallet : Map Uint256 CWalletTx
  isMine : Script → Bool

/-- `MoneyRange`. -/
def moneyRange (value : Int) : Bool := decide (0 ≤ value ∧ value ≤ 21000000 * 100000000)

namespace TxWallet

/-- `GetDebit` of an input. -/
def getDebitIn (w : TxWallet) (txin : Input) : Int :=
  match w.mapWallet[txin.prevout.hash]? with
  | none => 0
  | some prev =>
    match prev.outputs[txin.prevout.index]? with
    | none => 0
    | some output => if w.isMine output.script then output.value else 0

/-- `GetDebit`. -/
def getDebit (w : TxWallet) (tx : Transaction) : Except Fault Int :=
  tx.inputs.foldlM (fun debit txin =>
    let debit := wrap64 (debit + w.getDebitIn txin)
    if moneyRange debit then .ok debit else .error (.error "Wallet::GetDebit() : value out of range")) 0

/-- `IsFromMe`. -/
def isFromMe (w : TxWallet) (tx : Transaction) : Except Fault Bool := do
  let debit ← w.getDebit tx
  return decide (0 < debit)

end TxWallet

namespace CWalletTx

/-- `GetDebit` of a transaction of the wallet. -/
def getDebit (w : TxWallet) (tx : CWalletTx) : Except Fault Int :=
  if tx.inputs.isEmpty then .ok 0
  else
    match tx.debitCached with
    | some debit => .ok debit
    | none => w.getDebit tx.toTransaction

/-- `IsFromMe` of a transaction of the wallet. -/
def isFromMe (w : TxWallet) (tx : CWalletTx) : Except Fault Bool := do
  let debit ← tx.getDebit w
  return decide (0 < debit)

/-- `IsSpent`. -/
def isSpent (tx : CWalletTx) (nOut : Nat) : Bool := tx.vfSpent.getD nOut false

end CWalletTx

namespace TxWallet

section Source

variable (cfg : Config) (clock : Clock) (s : BlockChain) (w : TxWallet)

/-- `isFinal`, at the present height and time. -/
def isFinal (tx : Transaction) : Bool := (s.setting cfg clock).isFinal tx 0 0

/-- `mapPrev` once it is filled. -/
def mapPrev (tx : CWalletTx) : Map Uint256 TxWallet.MerkleTx :=
  tx.vtxPrev.foldl (fun prevs mtx => prevs.insert (cfg.prim.txnHash tx.toTransaction) mtx) ∅

/-- The loop over the work queue, with at most so many turns. -/
def confirmQueue (prevs : Map Uint256 TxWallet.MerkleTx) : Nat → List TxWallet.MerkleTx → Except Fault Bool
  | _, [] => .ok true
  | 0, _ :: _ => .error .undefined
  | turns + 1, ptx :: queue =>
    if !isFinal cfg clock s ptx.toTransaction then .ok false
    else do
      let depth ← s.getDepthInMainChain ptx.blockHash
      if 1 ≤ depth then confirmQueue prevs turns queue
      else do
        let mine ← w.isFromMe ptx.toTransaction
        if !mine then return false
        else
          match ptx.inputs.mapM fun txin => prevs[txin.prevout.hash]? with
          | none => return false
          | some added => confirmQueue prevs turns (queue ++ added)

/-- `IsConfirmed` from the test of `IsFromMe` on. After the transaction itself the queue has copies of one other
transaction in it, which either is enough or comes back with every turn. -/
def supported (tx : CWalletTx) : Except Fault Bool := do
  let mine ← w.isFromMe tx.toTransaction
  if !mine then return false
  else confirmQueue cfg clock s w (mapPrev cfg tx) (tx.inputs.length + 1) [tx.toMerkleTx]

/-- `IsConfirmed`. -/
def isConfirmed (tx : CWalletTx) : Except Fault Bool :=
  if !isFinal cfg clock s tx.toTransaction then .ok false
  else do
    let depth ← s.getDepthInMainChain tx.blockHash
    if 1 ≤ depth then return true
    else supported cfg clock s w tx

/-- `IsConfirmed` of a transaction whose block is not in the trunk, with no regard to depths of it. -/
def Unanchored (tx : CWalletTx) : Prop :=
  isConfirmed cfg clock s w tx =
    if isFinal cfg clock s tx.toTransaction then supported cfg clock s w tx else .ok false

end Source

section Confirmed

variable {cfg : Config} {clock : Clock} {s : BlockChain} {w : TxWallet} {tx : CWalletTx} {depth : Int}

theorem isConfirmed_of_depth (final : isFinal cfg clock s tx.toTransaction = true)
    (deep : s.getDepthInMainChain tx.blockHash = .ok depth) :
    isConfirmed cfg clock s w tx = if 1 ≤ depth then .ok true else supported cfg clock s w tx := by
  unfold isConfirmed
  rw [deep]
  simp [final, bind, Except.bind, pure, Except.pure]

theorem isConfirmed_of_not_final (not_final : isFinal cfg clock s tx.toTransaction = false) :
    isConfirmed cfg clock s w tx = .ok false := by
  simp [isConfirmed, not_final]

/-- The shortcut is taken for some transaction exactly if the depth is at least 1. A transaction without inputs is
not from me. -/
theorem unanchored_iff (cfg : Config) (clock : Clock) {hash : Uint256} (deep : s.getDepthInMainChain hash = .ok depth) :
    (∀ (w : TxWallet) (tx : CWalletTx), tx.blockHash = hash → Unanchored cfg clock s w tx) ↔ depth < 1 := by
  constructor
  · intro unanchored
    by_contra enough
    let tx : CWalletTx :=
      { version := 1, inputs := [], outputs := [], lockTime := 0, blockHash := hash, vtxPrev := [], vfSpent := []
        debitCached := none }
    have final : isFinal cfg clock s tx.toTransaction = true := rfl
    have slow := unanchored { mapWallet := ∅, isMine := fun _ => false } tx rfl
    unfold Unanchored at slow
    rw [isConfirmed_of_depth final deep, if_pos (not_lt.mp enough), if_pos final] at slow
    cases slow
  · rintro shallow w tx rfl
    unfold Unanchored
    by_cases final : isFinal cfg clock s tx.toTransaction = true
    · rw [isConfirmed_of_depth final deep, if_neg (not_le.mpr shallow), if_pos final]
    · rw [isConfirmed_of_not_final (Bool.not_eq_true _ ▸ final), if_neg final]

end Confirmed

end TxWallet

/-! ### The trunk -/

namespace BlockChain

/-- The depth of a block of the trunk, and 0 for every other hash. -/
structure DepthOnTrunk (s : BlockChain) (hash : Uint256) : Prop where
  trunk : ∀ (h : Nat) (b : BlockRef Uint256), s.tree.trunk[h]? = some b → b.hash = hash →
    s.getDepthInMainChain hash = .ok (s.tree.height - h + 1)
  other : hash ∉ hashes s.tree.trunk → s.getDepthInMainChain hash = .ok 0

variable {s : BlockChain} {known : List (BlockRef Uint256)}

/-- The only known block with its hash is on the trunk if the hash is. -/
theorem mem_trunk_iff (reached : Reached known s.tree) {b : BlockRef Uint256} (member : b ∈ known) :
    b.hash ∈ hashes s.tree.trunk ↔ b ∈ s.tree.trunk := by
  obtain ⟨grown, rep, -⟩ := reached.kept
  refine ⟨fun inside => ?_, fun on => List.mem_map_of_mem on⟩
  obtain ⟨other, on, same⟩ := List.mem_map.mp inside
  exact grown.eq_of_hash (rep.trunk_known on) member same ▸ on

/-- A hash is that of a block of the trunk or of a branch, or it is not known. -/
theorem hash_cases (s : BlockChain) (known : List (BlockRef Uint256)) (hash : Uint256) :
    (∃ b ∈ s.tree.trunk, b.hash = hash) ∨ (∃ b ∈ known, b ∉ s.tree.trunk ∧ b.hash = hash) ∨ hash ∉ hashes known := by
  by_cases isKnown : hash ∈ hashes known
  · obtain ⟨b, member, same⟩ := List.mem_map.mp isKnown
    by_cases on : b ∈ s.tree.trunk
    · exact .inl ⟨b, on, same⟩
    · exact .inr (.inl ⟨b, member, on, same⟩)
  · exact .inr (.inr isKnown)

theorem isInMainChain_iff (reached : Reached known s.tree) (hash : Uint256) :
    s.isInMainChain hash = .ok (decide (hash ∈ hashes s.tree.trunk)) ↔ hash ∈ hashes known := by
  obtain ⟨grown, rep, -⟩ := reached.kept
  by_cases isKnown : hash ∈ hashes known
  · obtain ⟨b, member, same⟩ := List.mem_map.mp isKnown
    obtain rfl : b.hash = hash := same
    rw [isInMainChain_known rep grown member, decide_eq_decide.mpr (mem_trunk_iff reached member)]
    exact iff_of_true rfl isKnown
  · rw [isInMainChain_unknown rep isKnown]
    exact iff_of_false nofun isKnown

/-- What holds of a block of a branch with some hash, if there is such a block. -/
theorem branch_iff {b : BlockRef Uint256} (member : b ∈ known) (off : b ∉ s.tree.trunk) (P : Prop) :
    (∀ other ∈ known, other.hash = b.hash → other ∉ s.tree.trunk → P) ↔ P :=
  ⟨fun all => all b member rfl off, fun holds _ _ _ _ => holds⟩

theorem depthOnTrunk_iff (reached : Reached known s.tree) (hash : Uint256) :
    s.DepthOnTrunk hash ↔
      ∀ b ∈ known, b.hash = hash → b ∉ s.tree.trunk → depth known hash = s.tree.height + 1 := by
  obtain ⟨grown, rep, -⟩ := reached.kept
  rcases hash_cases s known hash with ⟨b, on, rfl⟩ | ⟨b, member, off, rfl⟩ | unknown
  · refine iff_of_true ⟨fun h other found same => ?_, fun off => ?_⟩ fun other member same off => ?_
    · rw [← same]
      exact getDepth_trunk rep grown found
    · exact absurd (List.mem_map_of_mem on) off
    · exact absurd (grown.eq_of_hash member (rep.trunk_known on) same ▸ on) off
  · have outside : b.hash ∉ hashes s.tree.trunk := fun inside => off ((mem_trunk_iff reached member).mp inside)
    have deep := getDepth_branch rep grown member off
    rw [branch_iff member off]
    refine ⟨fun right => ?_, fun next => ⟨fun h other found same => ?_, fun _ => ?_⟩⟩
    · have zero := Except.ok.inj (deep.symm.trans (right.other outside))
      omega
    · exact absurd (List.mem_map.mpr ⟨other, List.mem_of_getElem? found, same⟩) outside
    · rw [deep, next]
      congr 1
      omega
  · refine iff_of_true ⟨fun h other found same => ?_, fun _ => getDepth_unknown rep unknown⟩ fun other member same => ?_
    · exact absurd (List.mem_map.mpr ⟨other, rep.trunk_known (List.mem_of_getElem? found), same⟩) unknown
    · exact absurd (List.mem_map.mpr ⟨other, member, same⟩) unknown

theorem unanchored_off_trunk_iff (cfg : Config) (clock : Clock) (reached : Reached known s.tree) (hash : Uint256) :
    (hash ∉ hashes s.tree.trunk → ∀ (w : TxWallet) (tx : CWalletTx), tx.blockHash = hash →
        TxWallet.Unanchored cfg clock s w tx) ↔
      ∀ b ∈ known, b.hash = hash → b ∉ s.tree.trunk → s.tree.height < depth known hash := by
  obtain ⟨grown, rep, -⟩ := reached.kept
  rcases hash_cases s known hash with ⟨b, on, rfl⟩ | ⟨b, member, off, rfl⟩ | unknown
  · refine iff_of_true (fun off => absurd (List.mem_map_of_mem on) off) fun other member same off => ?_
    exact absurd (grown.eq_of_hash member (rep.trunk_known on) same ▸ on) off
  · have outside : b.hash ∉ hashes s.tree.trunk := fun inside => off ((mem_trunk_iff reached member).mp inside)
    rw [branch_iff member off, forall_prop_of_true outside,
      TxWallet.unanchored_iff cfg clock (getDepth_branch rep grown member off)]
    omega
  · refine iff_of_true (fun _ => ?_) fun other member same => ?_
    · exact (TxWallet.unanchored_iff cfg clock (getDepth_unknown rep unknown)).mpr Int.one_pos
    · exact absurd (List.mem_map.mpr ⟨other, member, same⟩) unknown

/-- **When a depth follows the trunk**: `isInMainChain` is right exactly for hashes that are known; the
others exactly if no block of a branch has the hash, unless it is above the best one. -/
theorem mainChain_exact (cfg : Config) (clock : Clock) (reached : Reached known s.tree) (hash : Uint256) :
    (s.isInMainChain hash = .ok (decide (hash ∈ hashes s.tree.trunk)) ↔ hash ∈ hashes known) ∧
      (s.DepthOnTrunk hash ↔
        ∀ b ∈ known, b.hash = hash → b ∉ s.tree.trunk → depth known hash = s.tree.height + 1) ∧
      ((hash ∉ hashes s.tree.trunk → ∀ (w : TxWallet) (tx : CWalletTx), tx.blockHash = hash →
          TxWallet.Unanchored cfg clock s w tx) ↔
        ∀ b ∈ known, b.hash = hash → b ∉ s.tree.trunk → s.tree.height < depth known hash) :=
  ⟨isInMainChain_iff reached hash, depthOnTrunk_iff reached hash, unanchored_off_trunk_iff cfg clock reached hash⟩

open Libcoin.Small BlockTree in
/-- A fork of the genesis block, with the first block on a branch. -/
theorem mainChain_exact_fork : ∃ s : BlockChain, Reached [topRef, rightRef, leftRef, genesisRef] s.tree ∧
    (s.isInMainChain leftRef.hash = .ok (decide (leftRef.hash ∈ hashes s.tree.trunk)) ↔
      leftRef.hash ∈ hashes [topRef, rightRef, leftRef, genesisRef]) ∧
    (s.DepthOnTrunk leftRef.hash ↔ ∀ b ∈ [topRef, rightRef, leftRef, genesisRef], b.hash = leftRef.hash →
      b ∉ s.tree.trunk → depth [topRef, rightRef, leftRef, genesisRef] leftRef.hash = s.tree.height + 1) ∧
    ((leftRef.hash ∉ hashes s.tree.trunk → ∀ (w : TxWallet) (tx : CWalletTx), tx.blockHash = leftRef.hash →
        TxWallet.Unanchored (config 1 0) clock s w tx) ↔
      ∀ b ∈ [topRef, rightRef, leftRef, genesisRef], b.hash = leftRef.hash → b ∉ s.tree.trunk →
        s.tree.height < depth [topRef, rightRef, leftRef, genesisRef] leftRef.hash) := by
  obtain ⟨t, reached, -⟩ := reached_fork
  obtain ⟨s, -⟩ : ∃ s, (created 1 0).toOption = some s := Option.isSome_iff_exists.mp (by decide +kernel)
  exact ⟨{ s with tree := t }, reached, mainChain_exact (config 1 0) clock reached leftRef.hash⟩

end BlockChain

namespace Small

/-- Block 2, which the blocks 3 and 4 take out of the trunk. -/
def overtaken : List (Clock × Block) :=
  [(clock, mined 2 1 [coinbase 2 [50]]), (clock, mined 3 1 [coinbase 3 [50]]), (clock, mined 4 3 [coinbase 4 [50]])]

end Small

namespace BlockChain

open Libcoin.Small

theorem overtaken_run : ∃ s, Run.final (offer (config 1 0)) (created 1 0).toOption overtaken = some s ∧
    hashes s.tree.trunk = [1, 3, 4] ∧ s.getDepthInMainChain 2 = .ok 2 ∧ s.isInMainChain 9 = .error .undefined := by
  have run : (Run.final (offer (config 1 0)) (created 1 0).toOption overtaken).map (fun s =>
      (hashes s.tree.trunk, s.getDepthInMainChain 2, s.isInMainChain 9)) =
        some ([1, 3, 4], .ok 2, .error .undefined) := by decide +kernel
  obtain ⟨s, ran, run⟩ := Option.map_eq_some_iff.mp run
  obtain ⟨trunk, run⟩ := Prod.mk.inj run
  obtain ⟨deep, dangling⟩ := Prod.mk.inj run
  exact ⟨s, ran, trunk, deep, dangling⟩

/-- Block 2 is still two blocks deep, and a payment in it is confirmed. Block 9 is not known. -/
theorem mainChain_not_exact : ∃ s, Run.final (offer (config 1 0)) (created 1 0).toOption overtaken = some s ∧
    ¬s.DepthOnTrunk 2 ∧ s.isInMainChain 9 ≠ .ok (decide ((9 : Uint256) ∈ hashes s.tree.trunk)) ∧
    2 ∉ hashes s.tree.trunk ∧
    ∀ (w : TxWallet) (tx : CWalletTx), tx.blockHash = 2 →
      TxWallet.isFinal (config 1 0) clock s tx.toTransaction = true →
      TxWallet.isConfirmed (config 1 0) clock s w tx = .ok true := by
  obtain ⟨s, ran, trunk, deep, dangling⟩ := overtaken_run
  have off : 2 ∉ hashes s.tree.trunk := by
    rw [trunk]
    decide
  refine ⟨s, ran, fun right => ?_, ?_, off, fun w tx same final => ?_⟩
  · cases deep.symm.trans (right.other off)
  · rw [dangling]
    exact nofun
  · rw [TxWallet.isConfirmed_of_depth final (same ▸ deep)]
    rfl

end BlockChain

end Libcoin
