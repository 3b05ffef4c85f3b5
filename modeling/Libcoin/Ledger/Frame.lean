/-
The parts of the ledger that the functions of `attach` leave alone, also when they throw.

A `view` of the ledger is kept by a function when it is kept by the primitive steps that the function
takes: statements on the blocks, the confirmations, the unspents, the spendings and the names
(`KeepsBlocks` and its companions), and changes of the tries (`KeepsSpendables`, `KeepsImmature`). Each
function has one lemma, with the steps that it takes as hypotheses.
-/

import Libcoin.Ledger.Steps

namespace Libcoin

open Exec

variable {env : Setting} {V : Type} {view : Ledger → V}

/-! ### Primitive steps -/

theorem query_keeps {statement : Database → Option (Int × Database)}
    (same : ∀ (s : Ledger) rowid db, statement s.db = some (rowid, db) →
      view { s with db := db, lastRowid := rowid } = view s) : Keeps view (query statement) := by
  refine keeps_modifyGet fun s => ?_
  unfold Ledger.afterQuery
  cases result : statement s.db with
  | none => rfl
  | some entry => exact same s entry.1 entry.2 result

/-- A statement that always inserts. -/
theorem insert_keeps {rowid : Database → Int} {change : Database → Database}
    (same : ∀ (s : Ledger) id, view { s with db := change s.db, lastRowid := id } = view s) :
    Keeps view (query fun db => some (rowid db, change db)) := by
  refine query_keeps fun s id db result => ?_
  obtain ⟨-, rfl⟩ := Prod.mk.inj (Option.some.inj result)
  exact same s id

/-- A statement that inserts unless a row is in the way. -/
theorem insertUnless_keeps {conflict : Database → Bool} {rowid : Database → Int}
    {change : Database → Database}
    (same : ∀ (s : Ledger) id, view { s with db := change s.db, lastRowid := id } = view s) :
    Keeps view (query fun db => if conflict db then none else some (rowid db, change db)) := by
  refine query_keeps fun s id db result => ?_
  split at result
  · cases result
  · obtain ⟨-, rfl⟩ := Prod.mk.inj (Option.some.inj result)
    exact same s id

structure KeepsBlocks (view : Ledger → V) : Prop where
  block : ∀ count row, Keeps view (query (Database.insertBlock count row))
  auxProofOfWork : ∀ row, Keeps view (query (Database.insertAuxProofOfWork row))

structure KeepsConfirmations (view : Ledger → V) : Prop where
  next : ∀ row, Keeps view (query (Database.insertConfirmation row))
  at_ : ∀ cnf row, Keeps view (query (Database.insertConfirmationAt cnf row))

structure KeepsUnspents (view : Ledger → V) : Prop where
  insert : ∀ row, Keeps view (query (Database.insertUnspent row))
  replace : ∀ row, Keeps view (query (Database.replaceUnspent row))
  delete : ∀ coin, Keeps view (execute (Database.deleteUnspent coin))

def KeepsSpendings (view : Ledger → V) : Prop :=
  ∀ coin row, Keeps view (query (Database.insertSpending coin row))

def KeepsNames (view : Ledger → V) : Prop := ∀ row, Keeps view (query (Database.insertName row))

def KeepsSpendables (view : Ledger → V) : Prop :=
  ∀ (s : Ledger) tree, view { s with spendables := tree } = view s

def KeepsImmature (view : Ledger → V) : Prop :=
  ∀ (s : Ledger) tree, view { s with immatureCoinbases := tree } = view s

theorem throwIf_keeps (bad : Bool) (fault : Fault) : Keeps view (throwIf bad fault) :=
  keeps_ite (keeps_throw fault) (keeps_pure ())

theorem liftExcept_keeps {A : Type} (x : Except Fault A) : Keeps view (liftExcept x) := by
  cases x with
  | error fault => exact keeps_throw fault
  | ok a => exact keeps_pure a

/-! ### Coins -/

theorem lookupUnspent_keeps (input : Input) (iconf : Confirmation) :
    Keeps view (lookupUnspent env input iconf) := by
  refine keeps_bind keeps_get fun s => ?_
  cases s.db.findUnspent input.prevout with
  | none => exact keeps_throw _
  | some entry =>
    exact keeps_bind (throwIf_keeps _ _) fun _ => keeps_bind (throwIf_keeps _ _) fun _ => keeps_pure _

theorem takeSpendable_keeps (spendables : KeepsSpendables view) (input : Input) :
    Keeps view (takeSpendable input) := by
  refine keeps_bind keeps_get fun s => ?_
  cases s.spendables[input.prevout]? with
  | none => exact keeps_throw _
  | some coin =>
    exact keeps_bind (keeps_modify fun t => spendables t _) fun _ => keeps_pure coin

theorem recordSpending_keeps (spendings : KeepsSpendings view) (coin : Unspent) (input : Input)
    (iidx : Int) (iconf : Confirmation) : Keeps view (recordSpending env coin input iidx iconf) :=
  keeps_ite (keeps_bind (spendings _ _) fun _ => keeps_pure ()) (keeps_pure ())

theorem redeem_keeps (unspents : KeepsUnspents view) (spendings : KeepsSpendings view)
    (spendables : KeepsSpendables view) (input : Input) (iidx : Int) (iconf : Confirmation) :
    Keeps view (redeem env input iidx iconf) := by
  have found : Keeps view (findCoin env input iconf) :=
    keeps_ite (lookupUnspent_keeps input iconf) (takeSpendable_keeps spendables input)
  refine keeps_bind found fun coin => ?_
  refine keeps_bind (throwIf_keeps _ _) fun _ => ?_
  refine keeps_bind (recordSpending_keeps spendings _ _ _ _) fun _ => ?_
  exact keeps_bind (unspents.delete _) fun _ => keeps_pure coin

theorem addUnspent_keeps (spendables : KeepsSpendables view) (unspent : Unspent)
    (coinbase unique : Bool) (immature : coinbase = true → KeepsImmature view) :
    Keeps view (addUnspent unspent coinbase unique) := by
  cases coinbase with
  | false => exact keeps_modify fun s => spendables s _
  | true =>
    exact keeps_bind keeps_get fun _ => keeps_bind (throwIf_keeps _ _) fun _ =>
      keeps_bind (throwIf_keeps _ _) fun _ => keeps_modify fun s => immature rfl s _

theorem issue_keeps (unspents : KeepsUnspents view) (spendables : KeepsSpendables view)
    (output : Output) (hash : Uint256) (outIdx : Nat) (conf : Confirmation) (unique : Bool)
    (immature : conf.isCoinbase = true → KeepsImmature view) :
    Keeps view (issue env output hash outIdx conf unique) := by
  refine keeps_ite (keeps_ite (unspents.insert _) (unspents.replace _)) ?_
  exact keeps_bind (unspents.insert _) fun coin =>
    keeps_bind (addUnspent_keeps spendables _ _ unique immature) fun _ => keeps_pure coin

theorem foldl_promote_keeps (spendables : KeepsSpendables view) (immature : KeepsImmature view)
    (unspents : List Unspent) (s : Ledger) : view (unspents.foldl promote s) = view s := by
  induction unspents generalizing s with
  | nil => rfl
  | cons unspent unspents ih =>
    have added := spendables s (s.spendables.insertNew unspent.key unspent)
    have removed := immature { s with spendables := s.spendables.insertNew unspent.key unspent }
      (s.immatureCoinbases.erase unspent.key)
    exact (ih _).trans (removed.trans added)

theorem maturateNext_keeps (spendables : KeepsSpendables view) (immature : KeepsImmature view)
    (blk : Blk) : Keeps view (maturateNext env blk) :=
  keeps_ite (keeps_ite (keeps_pure _)
    (keeps_modify fun s => foldl_promote_keeps spendables immature _ s)) (keeps_pure _)

/-! ### Transactions -/

theorem nameInput_keeps (op : NameOperation) (coin : Unspent) :
    Keeps view (nameInput env op coin) :=
  keeps_ite (keeps_bind (liftExcept_keeps _) fun _ => keeps_bind keeps_get fun _ => keeps_pure _)
    (keeps_pure op)

theorem redeemAll_keeps (unspents : KeepsUnspents view) (spendings : KeepsSpendings view)
    (spendables : KeepsSpendables view) (conf : Confirmation) (inputs : List Input) (idx : Nat)
    (valueIn : Int) (op : NameOperation) (scripts : List Script) :
    Keeps view (redeemAll env conf inputs idx valueIn op scripts) := by
  induction inputs generalizing idx valueIn op scripts with
  | nil => exact keeps_pure _
  | cons input inputs ih =>
    exact keeps_bind (redeem_keeps unspents spendings spendables input idx conf) fun coin =>
      keeps_bind (nameInput_keeps op coin) fun op => ih _ _ op _

theorem updateName_keeps (names : KeepsNames view) (op : NameOperation) (coin count : Int) :
    Keeps view (updateName env op coin count) := by
  have insert : ∀ row, Keeps view (do let _ ← query (Database.insertName row)) := fun row =>
    keeps_bind (names row) fun _ => keeps_pure _
  refine keeps_bind keeps_get fun s => keeps_ite ?_ ?_
  · exact keeps_bind (throwIf_keeps _ _) fun _ => keeps_bind (throwIf_keeps _ _) fun _ => insert _
  · exact keeps_bind (throwIf_keeps _ _) fun _ => insert _

theorem nameOutput_keeps (names : KeepsNames view) (version : Int) (op : NameOperation)
    (output : Output) (coin count : Int) : Keeps view (nameOutput env version op output coin count) := by
  refine keeps_ite (keeps_bind (liftExcept_keeps _) fun result => keeps_ite ?_ (keeps_pure _))
    (keeps_pure op)
  exact keeps_bind (throwIf_keeps _ _) fun _ =>
    keeps_bind (updateName_keeps names _ coin count) fun _ => keeps_pure _

theorem issueAll_keeps (unspents : KeepsUnspents view) (names : KeepsNames view)
    (spendables : KeepsSpendables view) (version : Int) (hash : Uint256) (conf : Confirmation)
    (outputs : List Output) (idx : Nat) (op : NameOperation)
    (immature : conf.isCoinbase = true → KeepsImmature view) :
    Keeps view (issueAll env version hash conf outputs idx op) := by
  induction outputs generalizing idx op with
  | nil => exact keeps_pure op
  | cons output outputs ih =>
    exact keeps_bind (issue_keeps unspents spendables output hash idx conf true immature) fun coin =>
      keeps_bind (nameOutput_keeps names version op output coin _) fun op => ih _ op

theorem confirm_keeps (confirmations : KeepsConfirmations view) (txn : Transaction) (count idx : Int) :
    Keeps view (confirm env txn count idx) := keeps_ite (confirmations.next _) (keeps_pure _)

theorem addFee_keeps (txn : Transaction) (valueIn fees minFee : Int) :
    Keeps view (addFee env txn valueIn fees minFee) :=
  keeps_bind (throwIf_keeps _ _) fun _ => keeps_bind (throwIf_keeps _ _) fun _ =>
    keeps_bind (throwIf_keeps _ _) fun _ => keeps_pure _

theorem checkNameFees_keeps (op : NameOperation) (count : Int) :
    Keeps view (checkNameFees env op count) := keeps_ite (liftExcept_keeps _) (keeps_pure ())

theorem insertBlockHeader_keeps (blocks : KeepsBlocks view) (count : Int) (block : Block) :
    Keeps view (insertBlockHeader env count block) :=
  keeps_bind (blocks.block _ _) fun _ =>
    keeps_ite (keeps_bind (blocks.auxProofOfWork _) fun _ => keeps_pure _) (keeps_pure _)

/-! ### The coinbase -/

theorem confirmCoinbase_keeps (confirmations : KeepsConfirmations view) (txn : Transaction)
    (count : Int) : Keeps view (confirmCoinbase env txn count) :=
  keeps_ite (confirmations.at_ _ _) (keeps_pure _)

theorem recordCoinbase_keeps (spendings : KeepsSpendings view) (count valueIn : Int) (input : Input) :
    Keeps view (recordCoinbase env count valueIn input) :=
  keeps_ite (keeps_bind (spendings _ _) fun _ => keeps_pure _) (keeps_pure _)

theorem issueCoinbase_keeps (unspents : KeepsUnspents view) (spendables : KeepsSpendables view)
    (hash : Uint256) (conf : Confirmation) (unique : Bool) (outputs : List Output) (idx : Nat)
    (immature : conf.isCoinbase = true → KeepsImmature view) :
    Keeps view (issueCoinbase env hash conf unique outputs idx) := by
  induction outputs generalizing idx with
  | nil => exact keeps_pure _
  | cons output outputs ih =>
    exact keeps_bind (issue_keeps unspents spendables output hash idx conf unique immature) fun _ => ih _

/-- A view that no step on the coins changes is kept by a whole coinbase. -/
theorem postSubsidy_keeps (confirmations : KeepsConfirmations view) (unspents : KeepsUnspents view)
    (spendings : KeepsSpendings view) (spendables : KeepsSpendables view)
    (immature : KeepsImmature view) (txn : Transaction) (blk : Blk) (fees : Int) :
    Keeps view (postSubsidy env txn blk fees) := by
  refine keeps_bind (throwIf_keeps _ _) fun _ => ?_
  refine keeps_bind (confirmCoinbase_keeps confirmations _ _) fun cnf => ?_
  refine keeps_bind (throwIf_keeps _ _) fun _ => ?_
  have rest : ∀ conf, Keeps view (do
      issueCoinbase env (env.prim.txnHash txn) conf (decide (env.chain.timeStamp30 < blk.time))
        txn.outputs 0
      maturateNext env blk) := fun conf =>
    keeps_bind (issueCoinbase_keeps unspents spendables _ _ _ _ _ fun _ => immature) fun _ =>
      maturateNext_keeps spendables immature blk
  cases txn.inputs with
  | nil => exact keeps_bind (keeps_throw _) fun (_ : Unit) => rest _
  | cons input inputs => exact keeps_bind (recordCoinbase_keeps spendings _ _ _) fun _ => rest _

/-- A view that does not look at what was handed to the verifier. -/
def KeepsPending (view : Ledger → V) : Prop :=
  ∀ (s : Ledger) pending, view { s with pending := pending } = view s

theorem postTransaction_keeps (confirmations : KeepsConfirmations view) (unspents : KeepsUnspents view)
    (spendings : KeepsSpendings view) (names : KeepsNames view) (spendables : KeepsSpendables view)
    (immature : KeepsImmature view) (pending : KeepsPending view) (txn : Transaction) (fees minFee : Int)
    (blk : Blk) (idx : Int) (verify : Bool) :
    Keeps view (postTransaction env txn fees minFee blk idx verify) := by
  refine keeps_adaptExcept (keeps_bind (confirm_keeps confirmations _ _ _) fun cnf => ?_)
  refine keeps_bind (redeemAll_keeps unspents spendings spendables _ _ _ _ _ _) fun result => ?_
  refine keeps_bind (keeps_ite (keeps_modify fun s => pending s _) (keeps_pure _)) fun _ => ?_
  refine keeps_bind (addFee_keeps _ _ _ _) fun fees => ?_
  refine keeps_bind (issueAll_keeps unspents names spendables _ _ _ _ _ _ fun _ => immature) fun op => ?_
  exact keeps_bind (checkNameFees_keeps _ _) fun _ => keeps_pure _

theorem postAll_keeps (confirmations : KeepsConfirmations view) (unspents : KeepsUnspents view)
    (spendings : KeepsSpendings view) (names : KeepsNames view) (spendables : KeepsSpendables view)
    (immature : KeepsImmature view) (pending : KeepsPending view) (blk : Blk) (txns : List Transaction)
    (idx fees : Int) (verify : Bool) (unconfirmed : Txns) (confirmed : Hashes) :
    Keeps view (postAll env blk txns idx fees verify unconfirmed confirmed) := by
  induction txns generalizing idx fees verify unconfirmed confirmed with
  | nil => exact keeps_pure _
  | cons txn txns ih =>
    refine keeps_bind ?_ fun fees => ih _ _ _ _ _
    exact postTransaction_keeps confirmations unspents spendings names spendables immature pending _ _ _ _ _ _

/-! ### The table of blocks -/

/-- The table of blocks changes with the headers alone. -/
def Ledger.blocks (s : Ledger) : Map Int BlockRow := s.db.blocks

theorem blocks_confirmations : KeepsConfirmations Ledger.blocks where
  next _ := insert_keeps fun _ _ => rfl
  at_ _ _ := insertUnless_keeps fun _ _ => rfl

theorem blocks_unspents : KeepsUnspents Ledger.blocks where
  insert _ := insertUnless_keeps fun _ _ => rfl
  replace _ := insert_keeps fun _ _ => rfl
  delete _ := keeps_modify fun _ => rfl

theorem blocks_spendings : KeepsSpendings Ledger.blocks := fun _ _ => insertUnless_keeps fun _ _ => rfl

theorem blocks_names : KeepsNames Ledger.blocks := fun _ => insertUnless_keeps fun _ _ => rfl

/-- The row of a block is inserted, unless one is in the way. -/
theorem insertBlockHeader_blocks {s s' : Ledger} {count : Int} {block : Block} {done : Unit}
    (run : insertBlockHeader env count block s = .ok done s') (free : s.blocks[count]? = none) :
    s'.blocks = s.blocks.insert count
      { block.toBlockHeader with hash := env.prim.headerHash block.toBlockHeader } := by
  unfold insertBlockHeader at run
  obtain ⟨rowid, mid, inserted, run⟩ := bind_ok.mp run
  have first : mid.blocks = s.blocks.insert count
      { block.toBlockHeader with hash := env.prim.headerHash block.toBlockHeader } := by
    have here : s.db.blocks.contains count = false := Map.contains_of_absent free
    have done := query_ok.mp inserted
    unfold Ledger.afterQuery Database.insertBlock at done
    rw [here] at done
    obtain ⟨-, rfl⟩ := Prod.mk.inj done
    rfl
  rw [← first]
  have aux : Keeps Ledger.blocks (query (Database.insertAuxProofOfWork
      { count := count, hash := env.prim.auxPowHash block.auxPow, auxPow := block.auxPow })) :=
    insert_keeps fun _ _ => rfl
  have rest : Keeps Ledger.blocks (if env.chain.adhereAuxPow && hasAuxPow block.version then do
      let _ ← query (Database.insertAuxProofOfWork
        { count := count, hash := env.prim.auxPowHash block.auxPow, auxPow := block.auxPow })
      else pure ()) := keeps_ite (keeps_bind aux fun _ => keeps_pure _) (keeps_pure _)
  exact rest.ok run

/-- A block that is attached has its row. -/
theorem attach_blocks {s s' : Ledger} {blk : Blk} {block : Block} {unconfirmed : Txns}
    {confirmed : Hashes} {result : Txns × Hashes}
    (run : attach env blk block unconfirmed confirmed s = .ok result s') (free : s.blocks[blk.count]? = none) :
    s'.blocks = s.blocks.insert blk.count
      { block.toBlockHeader with hash := env.prim.headerHash block.toBlockHeader } := by
  obtain ⟨unconfirmed', confirmed'⟩ := result
  obtain ⟨coinbase, txns, one, fees, two, -, -, -, header, posted, subsidy, -⟩ := attach_ok run
  have first := insertBlockHeader_blocks header free
  have second : two.blocks = one.blocks :=
    (postAll_keeps blocks_confirmations blocks_unspents blocks_spendings blocks_names (fun _ _ => rfl)
      (fun _ _ => rfl) (fun _ _ => rfl) _ _ _ _ _ _ _).ok posted
  have third : s'.blocks = two.blocks :=
    (postSubsidy_keeps blocks_confirmations blocks_unspents blocks_spendings (fun _ _ => rfl)
      (fun _ _ => rfl) _ _ _).ok subsidy
  rw [third, second, first]
  rfl

/-! ### The verifier -/

/-- A part of the ledger that is neither in the database nor in a trie. -/
theorem pending_blocks : KeepsBlocks Ledger.pending where
  block _ _ := insertUnless_keeps fun _ _ => rfl
  auxProofOfWork _ := insert_keeps fun _ _ => rfl

theorem pending_confirmations : KeepsConfirmations Ledger.pending where
  next _ := insert_keeps fun _ _ => rfl
  at_ _ _ := insertUnless_keeps fun _ _ => rfl

theorem pending_unspents : KeepsUnspents Ledger.pending where
  insert _ := insertUnless_keeps fun _ _ => rfl
  replace _ := insert_keeps fun _ _ => rfl
  delete _ := keeps_modify fun _ => rfl

theorem pending_spendings : KeepsSpendings Ledger.pending := fun _ _ => insertUnless_keeps fun _ _ => rfl

theorem pending_names : KeepsNames Ledger.pending := fun _ => insertUnless_keeps fun _ _ => rfl

theorem pending_spendables : KeepsSpendables Ledger.pending := fun _ _ => rfl

theorem pending_immature : KeepsImmature Ledger.pending := fun _ _ => rfl

end Libcoin
