/-
What `IsConfirmed` makes of the transactions that a payment depends on.

* `Trusted` is what it is for: a depth of at least 1, or a payment from me all of whose ancestors are found among the
  supporting transactions and are sound in the same way (`Asked`, `Sound`).
* `mapPrev` has one entry at most, under the hash of the payment. `supported_false`: as long as the payment does not
  spend itself, no ancestor is found there.
-/

import Libcoin.Wallet.WalletTx
import Libcoin.BlockChain.Moves
import Mathlib.Logic.Relation

namespace Libcoin

open Exec
open BlockTree (Reached)

namespace TxWallet

section Ancestors

variable (cfg : Config) (clock : Clock) (s : BlockChain) (w : TxWallet) (tx : CWalletTx)

/-- The block with this hash is at least one block deep. -/
def Deep (blockHash : Uint256) : Prop := ∃ depth, s.getDepthInMainChain blockHash = .ok depth ∧ 1 ≤ depth

/-- The transaction is final, and deep or from me. -/
def Sound (mtx : TxWallet.MerkleTx) : Prop :=
  isFinal cfg clock s mtx.toTransaction = true ∧ (Deep s mtx.blockHash ∨ w.isFromMe mtx.toTransaction = .ok true)

/-- The supporting transaction with a hash, the last one if there are several. -/
def findPrev (hash : Uint256) : Option TxWallet.MerkleTx :=
  tx.vtxPrev.reverse.find? fun mtx => decide (cfg.prim.txnHash mtx.toTransaction = hash)

/-- A hash that is come to from the inputs of the payment, on through supporting transactions that are not deep. -/
inductive Asked : Uint256 → Prop
  | payment (txin : Input) (member : txin ∈ tx.inputs) : Asked txin.prevout.hash
  | ancestor (hash : Uint256) (asked : Asked hash) (mtx : TxWallet.MerkleTx) (found : findPrev cfg tx hash = some mtx)
      (shallow : ¬Deep s mtx.blockHash) (txin : Input) (member : txin ∈ mtx.inputs) : Asked txin.prevout.hash

/-- The payment is from me, and every ancestor that is come to is found and sound. -/
def Supported : Prop :=
  w.isFromMe tx.toTransaction = .ok true ∧
    ∀ hash, Asked cfg s tx hash → ∃ mtx, findPrev cfg tx hash = some mtx ∧ Sound cfg clock s w mtx

/-- What a confirmed transaction should be. -/
def Trusted : Prop :=
  isFinal cfg clock s tx.toTransaction = true ∧ (Deep s tx.blockHash ∨ Supported cfg clock s w tx)

/-- One of the payment and its supporting transactions has the first hash, and an input from the second one. -/
def Needs (hash other : Uint256) : Prop :=
  ∃ mtx ∈ tx.toMerkleTx :: tx.vtxPrev, cfg.prim.txnHash mtx.toTransaction = hash ∧
    ∃ txin ∈ mtx.inputs, txin.prevout.hash = other

/-- No transaction depends on itself. -/
def Acyclic : Prop := ∀ hash, ¬Relation.TransGen (Needs cfg tx) hash hash

end Ancestors

section Answers

variable {cfg : Config} {clock : Clock} {s : BlockChain} {w : TxWallet} {tx : CWalletTx}
  {known : List (BlockRef Uint256)}

/-- `mapPrev` has no other key than the hash of the payment. -/
theorem mapPrev_other {hash : Uint256} (other : cfg.prim.txnHash tx.toTransaction ≠ hash) :
    (mapPrev cfg tx)[hash]? = none := by
  unfold mapPrev
  suffices kept : ∀ (mtxs : List TxWallet.MerkleTx) (prevs : Map Uint256 TxWallet.MerkleTx), prevs[hash]? = none →
      (mtxs.foldl (fun prevs mtx => prevs.insert (cfg.prim.txnHash tx.toTransaction) mtx) prevs)[hash]? = none from
    kept tx.vtxPrev ∅ (Map.lookup_empty hash)
  intro mtxs
  induction mtxs with
  | nil => exact fun prevs absent => absent
  | cons mtx mtxs ih => exact fun prevs absent => ih _ ((Map.lookup_insert_of_ne prevs mtx other).trans absent)

theorem inputs_of_isFromMe {tx : Transaction} (mine : w.isFromMe tx = .ok true) : tx.inputs ≠ [] := by
  intro empty
  have debit : w.getDebit tx = .ok 0 := by
    unfold getDebit
    rw [empty]
    rfl
  unfold isFromMe at mine
  rw [debit] at mine
  cases mine

/-- **An ancestor is never found**, unless the payment spends itself. -/
theorem supported_false (acyclic : Acyclic cfg tx) (final : isFinal cfg clock s tx.toTransaction = true) {depth : Int}
    (deep : s.getDepthInMainChain tx.blockHash = .ok depth) (shallow : depth < 1)
    (mine : w.isFromMe tx.toTransaction = .ok true) : supported cfg clock s w tx = .ok false := by
  have missing (txin : Input) (member : txin ∈ tx.inputs) : (mapPrev cfg tx)[txin.prevout.hash]? = none := by
    refine mapPrev_other fun same => ?_
    exact acyclic _ (.single ⟨tx.toMerkleTx, List.mem_cons_self, same ▸ rfl, txin, member, rfl⟩)
  have stuck : tx.inputs.mapM (fun txin => (mapPrev cfg tx)[txin.prevout.hash]?) = none := by
    have some := inputs_of_isFromMe mine
    cases inputs : tx.inputs with
    | nil => exact absurd inputs some
    | cons txin rest =>
      rw [List.mapM_cons, missing txin (inputs ▸ List.mem_cons_self)]
      rfl
  unfold supported
  rw [mine, ok_bind, if_neg (by simp), confirmQueue, if_neg (by simp [final]), deep, ok_bind,
    if_neg (not_le.mpr shallow), mine, ok_bind, if_neg (by simp), stuck]
  rfl

/-- A payment whose block is not deep is never confirmed by its ancestors. -/
theorem supported_ne_true (acyclic : Acyclic cfg tx) (final : isFinal cfg clock s tx.toTransaction = true) {depth : Int}
    (deep : s.getDepthInMainChain tx.blockHash = .ok depth) (shallow : depth < 1) :
    supported cfg clock s w tx ≠ .ok true := by
  intro confirmed
  cases asked : w.isFromMe tx.toTransaction with
  | error fault =>
    unfold supported at confirmed
    rw [asked, error_bind] at confirmed
    cases confirmed
  | ok mine =>
    cases mine with
    | false =>
      unfold supported at confirmed
      rw [asked, ok_bind] at confirmed
      cases confirmed
    | true =>
      rw [supported_false acyclic final deep shallow asked] at confirmed
      cases confirmed

/-- **`IsConfirmed` is right exactly where the ancestors do not matter**: the payment is not final, or it is deep, or
its ancestors do not support it. -/
theorem isConfirmed_iff_trusted (clock : Clock) (w : TxWallet) (reached : Reached known s.tree)
    (acyclic : Acyclic cfg tx) :
    (isConfirmed cfg clock s w tx = .ok true ↔ Trusted cfg clock s w tx) ↔
      (isFinal cfg clock s tx.toTransaction = true → Deep s tx.blockHash ∨ ¬Supported cfg clock s w tx) := by
  obtain ⟨grown, rep, -⟩ := reached.kept
  obtain ⟨depth, deep⟩ := BlockChain.exists_getDepth rep grown tx.blockHash
  have deep_iff : Deep s tx.blockHash ↔ 1 ≤ depth :=
    ⟨fun ⟨_, same, enough⟩ => Except.ok.inj (deep.symm.trans same) ▸ enough, fun enough => ⟨depth, deep, enough⟩⟩
  unfold Trusted
  rw [deep_iff]
  by_cases final : isFinal cfg clock s tx.toTransaction = true
  · rw [isConfirmed_of_depth final deep, and_iff_right final, forall_prop_of_true final]
    by_cases enough : 1 ≤ depth
    · rw [if_pos enough]
      exact iff_of_true (iff_of_true rfl (.inl enough)) (.inl enough)
    · have never := supported_ne_true acyclic final deep (not_le.mp enough) (w := w)
      rw [if_neg enough, or_iff_right enough, or_iff_right enough, iff_false_left never]
  · rw [isConfirmed_of_not_final (eq_false_of_ne_true final)]
    exact iff_of_true (iff_of_false nofun fun both => final both.1) fun holds => absurd holds final

end Answers

end TxWallet

namespace Small

/-- The payment 7 to me, with the block it is in. -/
def paidToMe (blockHash : Uint256) : TxWallet.MerkleTx := { spend 7 [] [5] with blockHash := blockHash }

/-- The payment 8 from me, which is in no block, with what it depends on. -/
def paidByMe (blockHash : Uint256) : CWalletTx :=
  { spend 8 [(7, 0)] [5] with blockHash := 0, vtxPrev := [paidToMe blockHash], vfSpent := [], debitCached := none }

/-- A wallet that has the first payment. -/
def myWallet : TxWallet :=
  { mapWallet := (∅ : Map Uint256 CWalletTx).insert 7
      { toMerkleTx := paidToMe 1, vtxPrev := [], vfSpent := [], debitCached := none }
    isMine := fun _ => true }

theorem created_reached {s : BlockChain} (run : created 1 0 = .ok s) : ∃ known, Reached known s.tree := by
  obtain ⟨refs, linked, assigned⟩ := BlockChain.create_assigned run
  exact ⟨_, .assign linked assigned⟩

/-- The payments and the genesis block, as the chain sees them. -/
theorem created_payments : ∃ s, created 1 0 = .ok s ∧ s.getDepthInMainChain 1 = .ok 1 ∧
    TxWallet.isFinal (config 1 0) clock s (paidByMe 1).toTransaction = true ∧
    TxWallet.isFinal (config 1 0) clock s (paidToMe 1).toTransaction = true ∧
    myWallet.isFromMe (paidByMe 1).toTransaction = .ok true ∧
    TxWallet.isConfirmed (config 1 0) clock s myWallet (paidByMe 1) = .ok false := by
  have run : (created 1 0).toOption.map (fun s =>
      (s.getDepthInMainChain 1,
        TxWallet.isFinal (config 1 0) clock s (paidByMe 1).toTransaction,
        TxWallet.isFinal (config 1 0) clock s (paidToMe 1).toTransaction,
        myWallet.isFromMe (paidByMe 1).toTransaction,
        TxWallet.isConfirmed (config 1 0) clock s myWallet (paidByMe 1))) =
          some (.ok 1, true, true, .ok true, .ok false) := by decide +kernel
  obtain ⟨s, made, run⟩ := Option.map_eq_some_iff.mp run
  simp only [Prod.mk.injEq] at run
  exact ⟨s, toOption_eq_some.mp made, run⟩

theorem needs_paidByMe {blockHash hash other : Uint256}
    (needs : TxWallet.Needs (config 1 0) (paidByMe blockHash) hash other) : hash = 8 ∧ other = 7 := by
  obtain ⟨mtx, member, rfl, txin, inside, rfl⟩ := needs
  rcases List.mem_cons.mp member with rfl | member
  · obtain rfl := List.mem_singleton.mp inside
    exact ⟨rfl, rfl⟩
  · obtain rfl := List.mem_singleton.mp member
    cases inside

theorem paidByMe_acyclic (blockHash : Uint256) : TxWallet.Acyclic (config 1 0) (paidByMe blockHash) := by
  intro hash cycle
  obtain ⟨other, needs, back⟩ := Relation.TransGen.head'_iff.mp cycle
  obtain ⟨rfl, rfl⟩ := needs_paidByMe needs
  rcases back.cases_head with same | ⟨next, again, -⟩
  · exact absurd same (by decide)
  · exact absurd (needs_paidByMe again).1 (by decide)

end Small

namespace TxWallet

open Libcoin.Small

/-- A payment from me of what was paid to me in no block: the ancestor is come to, and does not support it. -/
theorem isConfirmed_iff_trusted_deep : ∃ s, created 1 0 = .ok s ∧
    Asked (config 1 0) s (paidByMe 0) 7 ∧ findPrev (config 1 0) (paidByMe 0) 7 = some (paidToMe 0) ∧
    (isConfirmed (config 1 0) clock s myWallet (paidByMe 0) = .ok true ↔
      Trusted (config 1 0) clock s myWallet (paidByMe 0)) := by
  have run : (created 1 0).toOption.map (fun s => s.getDepthInMainChain 0) = some (.ok 0) := by decide +kernel
  obtain ⟨s, made, shallow⟩ := Option.map_eq_some_iff.mp run
  have run := toOption_eq_some.mp made
  obtain ⟨known, reached⟩ := created_reached run
  have asked : Asked (config 1 0) s (paidByMe 0) 7 :=
    .payment { prevout := ⟨7, 0⟩, signature := [], sequence := 0xffffffff } (List.mem_singleton.mpr rfl)
  have found : findPrev (config 1 0) (paidByMe 0) 7 = some (paidToMe 0) := by decide
  refine ⟨s, run, asked, found, ?_⟩
  refine (isConfirmed_iff_trusted clock myWallet reached (paidByMe_acyclic 0)).mpr fun _ => .inr ?_
  rintro ⟨-, sound⟩
  obtain ⟨mtx, same, -, deep | mine⟩ := sound 7 asked
  · obtain rfl := Option.some.inj (found.symm.trans same)
    obtain ⟨depth, at_depth, enough⟩ := deep
    obtain rfl := Except.ok.inj (shallow.symm.trans at_depth)
    exact absurd enough (by decide)
  · obtain rfl := Option.some.inj (found.symm.trans same)
    exact inputs_of_isFromMe mine rfl

/-- A payment from me of what the genesis block paid to me is not confirmed. -/
theorem isConfirmed_not_trusted : ∃ s, created 1 0 = .ok s ∧ Acyclic (config 1 0) (paidByMe 1) ∧
    ¬(isConfirmed (config 1 0) clock s myWallet (paidByMe 1) = .ok true ↔
      Trusted (config 1 0) clock s myWallet (paidByMe 1)) := by
  obtain ⟨s, run, deep, final, final', mine, refused⟩ := created_payments
  refine ⟨s, run, paidByMe_acyclic 1, fun right => ?_⟩
  have found : findPrev (config 1 0) (paidByMe 1) 7 = some (paidToMe 1) := by decide
  have asked (hash : Uint256) (ancestor : Asked (config 1 0) s (paidByMe 1) hash) : hash = 7 := by
    cases ancestor with
    | payment txin member =>
      obtain rfl := List.mem_singleton.mp member
      rfl
    | ancestor hash ancestor mtx inside shallow txin member =>
      obtain rfl : mtx = paidToMe 1 := List.mem_singleton.mp (List.mem_of_find?_eq_some inside)
      exact absurd ⟨1, deep, le_refl 1⟩ shallow
  have trusted : Trusted (config 1 0) clock s myWallet (paidByMe 1) := by
    refine ⟨final, .inr ⟨mine, fun hash ancestor => ?_⟩⟩
    rw [asked hash ancestor]
    exact ⟨paidToMe 1, found, final', .inl ⟨1, deep, le_refl 1⟩⟩
  cases refused.symm.trans (right.mpr trusted)

end TxWallet

end Libcoin
