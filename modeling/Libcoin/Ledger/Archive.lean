/-
What the tables keep of the blocks that were attached.

* `Stock.inputs` and `Stock.outputs` are what the tables have of inputs and outputs, each with the number of its
  confirmation. A coin that is spent moves from one table to the other, and no output is lost.
* `Files` is what one part of `attach` adds to them, and `redeem_files`, `issue_files` and their companions say so
  of each part. A block that is not stored can only lose outputs.
-/

import Libcoin.Ledger.Confirmations
import Libcoin.Ledger.Stock

namespace Libcoin

open Exec Map

namespace Stock

/-- The inputs in `Spendings`: the number of the confirmation, the index, and the input. -/
def inputs (c : Stock) : Multiset (Int × Int × Input) :=
  (entries c.spendings).map fun entry =>
    (entry.2.icnf, entry.2.iidx,
      { prevout := entry.2.key, signature := entry.2.signature, sequence := entry.2.sequence })

/-- The outputs in `Unspents` and `Spendings`: the number of the confirmation, the index, and the output. -/
def outputs (c : Stock) : Multiset (Int × Nat × Output) :=
  ((entries c.unspents.rows).map fun entry => (entry.2.cnf, entry.2.key.index, entry.2.output)) +
    (entries c.spendings).map fun entry => (entry.2.ocnf, entry.2.key.index, entry.2.output)

/-- The coins of the trie are those of their rows. -/
def Held (validationDepth : Int) (c : Stock) : Prop :=
  validationDepth ≠ 0 → ∀ (key : Coin) unspent, c.spendables[key]? = some unspent →
    unspent.key = key ∧ c.unspents.rows[unspent.coin]? = some unspent.row

/-- What a part of `attach` adds: the inputs `ins` and the outputs `outs`. `stored` says whether the block is
stored, and `issued` which coins are new. -/
structure Files (validationDepth : Int) (stored : Prop) (ins : Multiset (Int × Int × Input))
    (outs : Multiset (Int × Nat × Output)) (issued : Coin → Prop) (c c' : Stock) : Prop where
  sound : Sound validationDepth c'
  held : Held validationDepth c'
  inputs : c'.inputs = c.inputs + ins
  outputs : c'.outputs ≤ c.outputs + outs
  exactly : stored → c'.outputs = c.outputs + outs
  rows : ∀ key, c'.HasRow key → c.HasRow key ∨ issued key
  recorded : ∀ (coin : Int) row, c'.spendings[coin]? = some row → c.spendings[coin]? = some row ∨
    (0 < coin ∨ coin = row.icnf) ∧ ∃ entry ∈ ins, row.icnf = entry.1

variable {validationDepth : Int} {stored : Prop} {c d e : Stock} {ins ins' : Multiset (Int × Int × Input)}
  {outs outs' : Multiset (Int × Nat × Output)} {issued issued' : Coin → Prop}

theorem Files.trans (first : Files validationDepth stored ins outs issued c d)
    (second : Files validationDepth stored ins' outs' issued' d e) :
    Files validationDepth stored (ins + ins') (outs + outs') (fun key => issued key ∨ issued' key) c e where
  sound := second.sound
  held := second.held
  inputs := by rw [second.inputs, first.inputs, add_assoc]
  outputs := by
    rw [← add_assoc]
    exact second.outputs.trans (add_le_add_left first.outputs _)
  exactly := fun kept => by rw [second.exactly kept, first.exactly kept, add_assoc]
  rows key there := by
    rcases second.rows key there with before | new
    · exact (first.rows key before).imp_right .inl
    · exact .inr (.inr new)
  recorded coin row there := by
    rcases second.recorded coin row there with before | ⟨number, entry, member, same⟩
    · rcases first.recorded coin row before with before | ⟨number, entry, member, same⟩
      · exact .inl before
      · exact .inr ⟨number, entry, Multiset.mem_add.mpr (.inl member), same⟩
    · exact .inr ⟨number, entry, Multiset.mem_add.mpr (.inr member), same⟩

theorem Files.refl (sound : Sound validationDepth c) (held : Held validationDepth c) :
    Files validationDepth stored 0 0 (fun _ => False) c c where
  sound := sound
  held := held
  inputs := (add_zero _).symm
  outputs := (add_zero _).ge
  exactly := fun _ => (add_zero _).symm
  rows _ there := .inl there
  recorded _ _ there := .inl there

/-- Fewer coins are new than is said. -/
theorem Files.weaken (files : Files validationDepth stored ins outs issued c d)
    (weaker : ∀ key, issued key → issued' key) : Files validationDepth stored ins outs issued' c d :=
  { files with rows := fun key there => (files.rows key there).imp_right (weaker key) }

/-! ### The changes of the tables -/

theorem outputs_take {coin : Int} {row : UnspentRow} (there : c.unspents.rows[coin]? = some row) :
    c.outputs = (row.cnf, row.key.index, row.output) ::ₘ
      ({ c with unspents := c.unspents.delete coin } : Stock).outputs := by
  unfold outputs
  rw [entries_erase there, Multiset.map_cons, Multiset.cons_add]
  rfl

theorem outputs_record {coin : Int} {spending : Spending} (fresh : c.spendings[coin]? = none) :
    ({ c with spendings := c.spendings.insert coin spending } : Stock).outputs =
      (spending.ocnf, spending.key.index, spending.output) ::ₘ c.outputs := by
  unfold outputs
  rw [entries_insert fresh, Multiset.map_cons, Multiset.add_cons]

theorem inputs_record {coin : Int} {spending : Spending} (fresh : c.spendings[coin]? = none) :
    ({ c with spendings := c.spendings.insert coin spending } : Stock).inputs =
      (spending.icnf, spending.iidx,
        { prevout := spending.key, signature := spending.signature,
          sequence := spending.sequence }) ::ₘ c.inputs := by
  unfold inputs
  rw [entries_insert fresh, Multiset.map_cons]

theorem outputs_put (row : UnspentRow) :
    ({ c with unspents := c.unspents.insertAuto row } : Stock).outputs =
      (row.cnf, row.key.index, row.output) ::ₘ c.outputs := by
  unfold outputs
  show ((entries (c.unspents.rows.insert c.unspents.nextId row)).map _) + _ = _
  rw [entries_insert c.unspents.nextId_fresh, Multiset.map_cons, Multiset.cons_add]

end Stock

open Stock

variable {env : Setting} {s s' : Ledger}

/-! ### One coin -/

/-- The row of `Spendings` that `redeem` records. -/
def spendingRow (coin : Unspent) (input : Input) (iidx : Int) (iconf : Confirmation) : Spending :=
  { ocnf := coin.cnf, key := input.prevout, output := coin.output, signature := input.signature
    sequence := input.sequence, iidx := iidx, icnf := iconf.cnf }

/-- A coin is redeemed with its row. -/
theorem redeem_stock (sound : Sound env.validationDepth s.stock) (held : Held env.validationDepth s.stock)
    {input : Input} {iidx : Int} {iconf : Confirmation} {coin : Unspent}
    (run : redeem env input iidx iconf s = .ok coin s') :
    s.stock.unspents.rows[coin.coin]? = some coin.row ∧ coin.key = input.prevout ∧
      s'.stock =
        { s.stock with
          unspents := s.stock.unspents.delete coin.coin
          spendings :=
            if env.purgeDepth ≤ iconf.count then
              s.stock.spendings.insert coin.coin (spendingRow coin input iidx iconf)
            else s.stock.spendings
          spendables :=
            if env.validationDepth = 0 then s.stock.spendables else s.stock.spendables.erase input.prevout } := by
  have after {s : Ledger} (sound : ∀ spending, s.db.spendings[coin.coin]? = some spending → False) :
      (s.spend env coin input iidx iconf).stock =
        { s.stock with
          unspents := s.stock.unspents.delete coin.coin
          spendings :=
            if env.purgeDepth ≤ iconf.count then
              s.stock.spendings.insert coin.coin (spendingRow coin input iidx iconf)
            else s.stock.spendings } := by
    have fresh : s.db.spendings.contains coin.coin = false :=
      Map.contains_of_absent (Option.eq_none_iff_forall_ne_some.mpr sound)
    unfold Ledger.spend Ledger.recorded
    by_cases deep : env.purgeDepth ≤ iconf.count
    · unfold Ledger.afterQuery Database.insertSpending
      rw [if_pos deep, if_pos deep, if_neg (by rw [fresh]; decide)]
      rfl
    · rw [if_neg deep, if_neg deep]
      rfl
  by_cases database : env.validationDepth = 0
  · obtain ⟨id, row, found, -, -, -, rfl, rfl⟩ := (redeem_database_ok database).mp run
    obtain ⟨there, named⟩ := Table.first_eq_some found
    rw [if_pos database]
    refine ⟨there, of_decide_eq_true named, after fun spending spent => ?_⟩
    have there : s.stock.unspents.rows[id]? = some row := there
    rw [(sound.spent id spending spent).1] at there
    cases there
  · obtain ⟨found, -, rfl⟩ := (redeem_trie_ok database).mp run
    obtain ⟨named, there⟩ := held database _ _ found
    rw [if_neg database]
    refine ⟨there, named, after fun spending spent => ?_⟩
    rw [(sound.spent _ spending spent).1] at there
    cases there

theorem redeem_files (sound : Sound env.validationDepth s.stock) (held : Held env.validationDepth s.stock)
    {input : Input} {iidx : Int} {iconf : Confirmation} {coin : Unspent}
    (run : redeem env input iidx iconf s = .ok coin s') :
    Files env.validationDepth (env.purgeDepth ≤ iconf.count)
      (if env.purgeDepth ≤ iconf.count then {(iconf.cnf, iidx, input)} else 0) 0 (fun _ =>
        False) s.stock s'.stock ∧
      s'.stock.confirmations = s.stock.confirmations := by
  obtain ⟨there, named, after⟩ := redeem_stock sound held run
  have sound' := (redeem_leaves sound run).sound
  have unspent : s.stock.spendings[coin.coin]? = none := by
    cases spent : s.stock.spendings[coin.coin]? with
    | none => rfl
    | some spending =>
      rw [(sound.spent _ spending spent).1] at there
      cases there
  have left := outputs_take there
  have others (key : Coin) (known : s'.stock.HasRow key) : s.stock.HasRow key := by
    obtain ⟨other, row, stored, same⟩ := known
    rw [after] at stored
    exact ⟨other, row, (Map.lookup_of_erase stored).2, same⟩
  have held' : Held env.validationDepth s'.stock := by
    intro trie key unspent found
    rw [after] at found ⊢
    dsimp only at found ⊢
    rw [if_neg trie] at found
    obtain ⟨different, old⟩ := Map.lookup_of_erase found
    obtain ⟨named', there'⟩ := held trie key unspent old
    refine ⟨named', ?_⟩
    show (s.stock.unspents.rows.erase coin.coin)[unspent.coin]? = _
    rw [Map.lookup_erase_of_ne, there']
    intro same
    -- the coin with this number has the key that was erased
    rw [← same, there] at there'
    have keys := congrArg UnspentRow.key (Option.some.inj there')
    exact different (named'.symm.trans (keys.symm.trans named))
  refine ⟨?_, by rw [after]⟩
  by_cases deep : env.purgeDepth ≤ iconf.count
  · rw [if_pos deep] at after ⊢
    have exactly : s'.stock.outputs = s.stock.outputs := by
      rw [after, left]
      refine (outputs_record (c := { s.stock with unspents := s.stock.unspents.delete coin.coin }) unspent).trans ?_
      rw [show (spendingRow coin input iidx iconf).key = coin.row.key from named.symm]
      rfl
    refine ⟨sound', held', ?_, by rw [exactly, add_zero], fun _ => by rw [exactly, add_zero],
      fun key known => .inl (others key known), fun other spending recorded => ?_⟩
    · rw [after, add_comm]
      exact inputs_record unspent
    · rw [after] at recorded
      rcases Map.lookup_of_insert recorded with ⟨rfl, rfl⟩ | old
      · exact .inr ⟨.inl (sound.numbered _ _ there).1, _, Multiset.mem_singleton_self _, rfl⟩
      · exact .inl old
  · rw [if_neg deep] at after ⊢
    refine ⟨sound', held', ?_, ?_, fun stored => absurd stored deep, fun key known => .inl (others key known),
      fun other spending recorded => ?_⟩
    · rw [after, add_zero]
      rfl
    · rw [after, add_zero, left]
      exact Multiset.le_cons_self _ _
    · rw [after] at recorded
      exact .inl recorded

/-- The row of a coin that is new is inserted. -/
theorem issue_stock (sound : Sound env.validationDepth s.stock) {output : Output} {hash : Uint256} {outIdx : Nat}
    {conf : Confirmation} {unique : Bool} {coin : Int} (fresh : ¬s.stock.HasRow { hash := hash, index := outIdx })
    (run : issue env output hash outIdx conf unique s = .ok coin s') :
    ∃ spendables : Map Coin Unspent,
      s'.stock = { s.stock with
        unspents := s.stock.unspents.insertAuto (issueRow output hash outIdx conf)
        spendables := spendables } ∧
      (env.validationDepth ≠ 0 → ∀ (key : Coin) unspent, spendables[key]? = some unspent →
        key = (issueRow output hash outIdx conf).key ∧
            unspent = (issueRow output hash outIdx conf).unspent s.stock.unspents.nextId ∨
          s.stock.spendables[key]? = some unspent) := by
  by_cases database : env.validationDepth = 0
  · refine ⟨s.stock.spendables, ?_, fun trie => absurd database trie⟩
    have inserted := congrArg Prod.snd ((issue_database_ok database).mp run)
    rw [show s' = _ from inserted.symm]
    cases unique with
    | true =>
      rcases insertUnspent_stock (issueRow output hash outIdx conf) s with ⟨-, there⟩ | same
      · exact absurd there fresh
      · rw [if_pos rfl, same]
    | false =>
      obtain ⟨drop, others, same⟩ := replaceUnspent_stock (issueRow output hash outIdx conf) s
      rw [if_neg (by decide), same]
      -- no other row has the key of the coin
      have kept : (s.stock.unspents.insertAuto (issueRow output hash outIdx conf)).rows.filter
          (fun key row => !drop key row) = (s.stock.unspents.insertAuto
            (issueRow output hash outIdx conf)).rows := by
        ext key : 1
        rw [Map.lookup_filter]
        cases found : (s.stock.unspents.insertAuto (issueRow output hash outIdx conf)).rows[key]? with
        | none => rfl
        | some row =>
          have kept : drop key row = false := by
            by_contra dropped
            obtain ⟨other, named⟩ := others key row (Bool.of_not_eq_false dropped)
            rcases Map.lookup_of_insert found with ⟨same, -⟩ | old
            · exact other same
            · exact fresh ⟨key, row, old, named⟩
          simp [kept]
      unfold Table.deleteWhere
      rw [kept]
  · obtain ⟨spendables, after, added⟩ := issue_stock_trie database (sound.unindexed database) run
    exact ⟨spendables, after, fun _ => added⟩

theorem issue_files (sound : Sound env.validationDepth s.stock) (held : Held env.validationDepth s.stock)
    {output : Output} {hash : Uint256} {outIdx : Nat} {conf : Confirmation} {unique : Bool} {coin : Int}
    (stored : Prop)
    (fresh : ¬s.stock.HasRow { hash := hash, index := outIdx })
    (run : issue env output hash outIdx conf unique s = .ok coin s') :
    Files env.validationDepth stored 0 {(conf.cnf, outIdx, output)} (· = { hash := hash, index := outIdx })
      s.stock s'.stock ∧ s'.stock.confirmations = s.stock.confirmations := by
  obtain ⟨spendables, after, added⟩ := issue_stock sound fresh run
  have sound' := (issue_leaves sound run).1.sound
  have outputs : s'.stock.outputs = s.stock.outputs + {(conf.cnf, outIdx, output)} := by
    rw [after, add_comm]
    exact outputs_put (issueRow output hash outIdx conf)
  refine ⟨⟨sound', ?_, ?_, outputs.le, fun _ => outputs, ?_, ?_⟩, by rw [after]⟩
  · intro trie key unspent found
    rw [after] at found ⊢
    show _ ∧ (s.stock.unspents.rows.insert s.stock.unspents.nextId _)[unspent.coin]? = _
    rcases added trie key unspent found with ⟨rfl, rfl⟩ | old
    · exact ⟨rfl, Map.lookup_insert_self _ _ _⟩
    · obtain ⟨named, there⟩ := held trie key unspent old
      exact ⟨named, Table.lookup_insertAuto _ there⟩
  · rw [after, add_zero]
    rfl
  · rintro key ⟨other, row, found, named⟩
    rw [after] at found
    rcases Map.lookup_of_insert found with ⟨-, rfl⟩ | old
    · exact .inr named.symm
    · exact .inl ⟨other, row, old, named⟩
  · intro other spending recorded
    rw [after] at recorded
    exact .inl recorded

/-! ### Transactions -/

/-- The inputs of a transaction, with the number of its confirmation. -/
def filedInputs (cnf : Int) (inputs : List Input) (idx : Nat) : List (Int × Int × Input) :=
  (inputs.zipIdx idx).map fun entry => (cnf, (entry.2 : Int), entry.1)

/-- The outputs of a transaction, with the number of its confirmation. -/
def filedOutputs (cnf : Int) (outputs : List Output) (idx : Nat) : List (Int × Nat × Output) :=
  (outputs.zipIdx idx).map fun entry => (cnf, entry.2, entry.1)

/-- What is stored if the block is. -/
def ifStored (env : Setting) (count : Int) {A : Type} (values : List A) : Multiset A :=
  if env.purgeDepth ≤ count then values else 0

theorem redeemAll_files {conf : Confirmation} {inputs : List Input} {idx : Nat} {valueIn : Int}
    {op : NameOperation} {scripts : List Script} {result : Int × NameOperation × List Script}
    (sound : Sound env.validationDepth s.stock) (held : Held env.validationDepth s.stock)
    (run : redeemAll env conf inputs idx valueIn op scripts s = .ok result s') :
    Files env.validationDepth (env.purgeDepth ≤ conf.count)
      (ifStored env conf.count (filedInputs conf.cnf inputs idx)) 0
      (fun _ => False) s.stock s'.stock := by
  induction inputs generalizing idx valueIn op scripts s with
  | nil =>
    obtain ⟨-, rfl⟩ := pure_ok.mp run
    have none : ifStored env conf.count (filedInputs conf.cnf [] idx) = 0 := by
      unfold ifStored
      split <;> rfl
    rw [none]
    exact Files.refl sound held
  | cons input inputs ih =>
    unfold redeemAll at run
    obtain ⟨coin, one, redeemed, run⟩ := bind_ok.mp run
    obtain ⟨op', two, named, run⟩ := bind_ok.mp run
    have first := (redeem_files sound held redeemed).1
    have same : two.stock = one.stock := (nameInput_keeps _ _).ok named
    rw [← same] at first
    have rest := ih first.sound first.held run
    have all : ifStored env conf.count (filedInputs conf.cnf (input :: inputs) idx) =
        (if env.purgeDepth ≤ conf.count then {(conf.cnf, (idx : Int), input)} else 0) +
          ifStored env conf.count (filedInputs conf.cnf inputs (idx + 1)) := by
      unfold ifStored
      split <;> rfl
    rw [all]
    exact (first.trans rest).weaken fun key either => either.elim id id

theorem issueAll_files {version : Int} {hash : Uint256} {conf : Confirmation} {outputs : List Output}
    {idx : Nat} {op op' : NameOperation} (stored : Prop) (sound : Sound env.validationDepth s.stock)
    (held : Held env.validationDepth s.stock)
    (fresh : ∀ i, idx ≤ i → ¬s.stock.HasRow { hash := hash, index := i })
    (run : issueAll env version hash conf outputs idx op s = .ok op' s') :
    Files env.validationDepth stored 0 (filedOutputs conf.cnf outputs idx : List _)
      (·.hash = hash) s.stock s'.stock := by
  induction outputs generalizing idx op s with
  | nil =>
    obtain ⟨-, rfl⟩ := pure_ok.mp run
    exact (Files.refl sound held).weaken fun key never => never.elim
  | cons output outputs ih =>
    unfold issueAll at run
    obtain ⟨coin, one, issued, run⟩ := bind_ok.mp run
    obtain ⟨op'', two, named, run⟩ := bind_ok.mp run
    have first := (issue_files sound held stored (fresh idx le_rfl) issued).1
    have same : two.stock = one.stock := (nameOutput_keeps stock_names _ _ _ _ _).ok named
    rw [← same] at first
    have rest := ih first.sound first.held (fun i above there => ?_) run
    · exact (first.trans rest).weaken fun key either => either.elim (fun same => by rw [same]) id
    · rcases first.rows _ there with old | new
      · exact fresh i (by omega) old
      · injection new with _ same
        omega

/-- Confirmations are no coins. -/
theorem Stock.Files.confirm {c : Stock} {validationDepth : Int} {stored : Prop}
    {confirmations : Table ConfirmationRow} (held : Held validationDepth c)
    (sound : Sound validationDepth { c with confirmations := confirmations }) :
    Files validationDepth stored 0 0 (fun _ => False) c { c with confirmations := confirmations } where
  sound := sound
  held := held
  inputs := (add_zero _).symm
  outputs := (add_zero _).ge
  exactly := fun _ => (add_zero _).symm
  rows _ there := .inl there
  recorded _ _ there := .inl there

/-- The number of the confirmation of a transaction. -/
def confirmationNumber (env : Setting) (count next : Int) : Int :=
  if env.purgeDepth ≤ count then next else locktimeThreshold

theorem confirm_files {txn : Transaction} {count idx cnf : Int} {stored : Prop}
    (sound : Sound env.validationDepth s.stock) (held : Held env.validationDepth s.stock)
    (run : confirm env txn count idx s = .ok cnf s') :
    cnf = confirmationNumber env count s.confirmations.nextId ∧
      Files env.validationDepth stored 0 0 (fun _ => False) s.stock s'.stock := by
  have leaves := (confirm_leaves sound run).sound
  have numbered := confirm_confirmations run
  unfold confirm at run
  unfold confirmationNumber
  split_ifs at run numbered ⊢
  · rw [query_ok] at run
    obtain ⟨-, rfl⟩ := Prod.mk.inj run
    exact ⟨numbered.1, Files.confirm held leaves⟩
  · obtain ⟨-, rfl⟩ := pure_ok.mp run
    exact ⟨numbered.1, (Files.refl sound held)⟩

theorem postTransaction_files {txn : Transaction} {fees minFee fees' : Int} {blk : Blk} {idx : Int}
    {verify : Bool}
    (sound : Sound env.validationDepth s.stock) (held : Held env.validationDepth s.stock)
    (fresh : ∀ i, ¬s.stock.HasRow { hash := env.prim.txnHash txn, index := i })
    (run : postTransaction env txn fees minFee blk idx verify s = .ok fees' s') :
    Files env.validationDepth (env.purgeDepth ≤ blk.count)
      (ifStored env blk.count
        (filedInputs (confirmationNumber env blk.count s.confirmations.nextId) txn.inputs 0))
      (filedOutputs (confirmationNumber env blk.count s.confirmations.nextId) txn.outputs 0 : List _)
      (·.hash = env.prim.txnHash txn) s.stock s'.stock := by
  obtain ⟨cnf, one, ignoreRules, valueIn, op, scripts, two, op', confirmed, redeemed, -, -, -, issued⟩ :=
    postTransaction_ok run
  obtain ⟨rfl, first⟩ := confirm_files sound held confirmed
  have second := redeemAll_files first.sound first.held redeemed
  have both := first.trans second
  rw [← pushed_stock verify _ two] at both
  have third := issueAll_files (env.purgeDepth ≤ blk.count) both.sound both.held (fun i _ there => ?_) issued
  · have all := both.trans third
    rw [zero_add, zero_add, zero_add, add_zero] at all
    exact all.weaken fun key either => either.elim (fun never => (never.elim id id).elim) id
  · rcases both.rows _ there with old | never
    · exact fresh i old
    · exact never.elim id id

/-- Transactions with the numbers of their confirmations. -/
def numbered (env : Setting) (count : Int) : List Transaction → Int → List (Int × Transaction)
  | [], _ => []
  | txn :: txns, next => (confirmationNumber env count next, txn) :: numbered env count txns (next + 1)

def allInputs (txns : List (Int × Transaction)) : List (Int × Int × Input) :=
  txns.flatMap fun entry => filedInputs entry.1 entry.2.inputs 0

def allOutputs (txns : List (Int × Transaction)) : List (Int × Nat × Output) :=
  txns.flatMap fun entry => filedOutputs entry.1 entry.2.outputs 0

theorem numbered_unstored {count : Int} (unstored : ¬env.purgeDepth ≤ count) (txns : List Transaction)
    (next next' : Int) :
    numbered env count txns next = numbered env count txns next' := by
  induction txns generalizing next next' with
  | nil => rfl
  | cons txn txns ih =>
    unfold numbered confirmationNumber
    rw [if_neg unstored, if_neg unstored, ih]

/-- The numbers from `next` on are given, or none. -/
theorem mem_numbered {count : Int} {txns : List Transaction} {next : Int} {entry : Int × Transaction}
    (member : entry ∈ numbered env count txns next) : entry.2 ∈ txns ∧
      if env.purgeDepth ≤ count then next ≤ entry.1 ∧ entry.1 < next + txns.length
      else entry.1 = locktimeThreshold := by
  induction txns generalizing next with
  | nil => cases member
  | cons txn txns ih =>
    rw [List.length_cons]
    rcases List.mem_cons.mp member with rfl | member
    · refine ⟨List.mem_cons_self, ?_⟩
      unfold confirmationNumber
      split_ifs
      · push_cast
        omega
      · rfl
    · obtain ⟨known, number⟩ := ih member
      refine ⟨List.mem_cons_of_mem _ known, ?_⟩
      split_ifs at number ⊢
      · push_cast
        omega
      · exact number

theorem mem_allInputs {txns : List (Int × Transaction)} {entry : Int × Int × Input}
    (member : entry ∈ allInputs txns) :
    ∃ txn ∈ txns, entry.1 = txn.1 := by
  obtain ⟨txn, known, filed⟩ := List.mem_flatMap.mp member
  obtain ⟨_, -, rfl⟩ := List.mem_map.mp filed
  exact ⟨txn, known, rfl⟩

theorem mem_allOutputs {txns : List (Int × Transaction)} {entry : Int × Nat × Output}
    (member : entry ∈ allOutputs txns) :
    ∃ txn ∈ txns, entry.1 = txn.1 := by
  obtain ⟨txn, known, filed⟩ := List.mem_flatMap.mp member
  obtain ⟨_, -, rfl⟩ := List.mem_map.mp filed
  exact ⟨txn, known, rfl⟩

theorem mem_ifStored {A : Type} {count : Int} {values : List A} {value : A}
    (member : value ∈ ifStored env count values) : env.purgeDepth ≤ count ∧ value ∈ values := by
  unfold ifStored at member
  split_ifs at member with stored
  · exact ⟨stored, Multiset.mem_coe.mp member⟩
  · cases member

theorem ifStored_append {A : Type} (count : Int) (xs ys : List A) :
    ifStored env count (xs ++ ys) = ifStored env count xs + ifStored env count ys := by
  unfold ifStored
  split
  · exact (Multiset.coe_add xs ys).symm
  · exact (add_zero 0).symm

theorem postAll_files {blk : Blk} {txns : List Transaction} {idx fees : Int} {verify : Bool} {unconfirmed : Txns}
    {confirmed : Hashes} {result : Int × Txns × Hashes} (sound : Sound env.validationDepth s.stock)
    (held : Held env.validationDepth s.stock) (apart : (txns.map env.prim.txnHash).Nodup)
    (fresh : ∀ txn ∈ txns, ∀ i, ¬s.stock.HasRow { hash := env.prim.txnHash txn, index := i })
    (run : postAll env blk txns idx fees verify unconfirmed confirmed s = .ok result s') :
    Files env.validationDepth (env.purgeDepth ≤ blk.count)
      (ifStored env blk.count (allInputs (numbered env blk.count txns s.confirmations.nextId)))
      (allOutputs (numbered env blk.count txns s.confirmations.nextId) : List _)
      (fun key => ∃ txn ∈ txns, key.hash = env.prim.txnHash txn) s.stock s'.stock := by
  induction txns generalizing idx fees verify unconfirmed confirmed s with
  | nil =>
    obtain ⟨-, rfl⟩ := pure_ok.mp run
    have none : ifStored env blk.count (allInputs (numbered env blk.count [] s.confirmations.nextId)) = 0 := by
      unfold ifStored
      split <;> rfl
    rw [none]
    exact (Files.refl sound held).weaken fun key never => never.elim
  | cons txn txns ih =>
    unfold postAll at run
    obtain ⟨fees', mid, posted, run⟩ := bind_ok.mp run
    rw [List.map_cons, List.nodup_cons] at apart
    have first := postTransaction_files sound held (fresh txn List.mem_cons_self) posted
    have rest := ih first.sound first.held apart.2 (fun other member i there => ?_) run
    · have next : numbered env blk.count txns mid.confirmations.nextId =
          numbered env blk.count txns (s.confirmations.nextId + 1) := by
        have confirmed := postTransaction_confirmations posted
        split_ifs at confirmed with stored
        · rw [confirmed, Table.nextId_insertAuto]
        · exact numbered_unstored stored txns _ _
      rw [next] at rest
      have all := first.trans rest
      rw [← ifStored_append] at all
      refine all.weaken fun key either => either.elim (fun same =>
        ⟨txn, List.mem_cons_self, same⟩) fun later => ?_
      obtain ⟨other, member, same⟩ := later
      exact ⟨other, List.mem_cons_of_mem _ member, same⟩
    · rcases first.rows _ there with old | new
      · exact fresh other (List.mem_cons_of_mem _ member) i old
      · exact apart.1 (List.mem_map.mpr ⟨other, member, new⟩)

/-! ### The coinbase -/

theorem issueCoinbase_files {hash : Uint256} {conf : Confirmation} {unique : Bool} {outputs : List Output}
    {idx : Nat} {done : Unit} (stored : Prop) (sound : Sound env.validationDepth s.stock)
    (held : Held env.validationDepth s.stock)
    (fresh : ∀ i, idx ≤ i → ¬s.stock.HasRow { hash := hash, index := i })
    (run : issueCoinbase env hash conf unique outputs idx s = .ok done s') :
    Files env.validationDepth stored 0 (filedOutputs conf.cnf outputs idx : List _)
      (·.hash = hash) s.stock s'.stock := by
  induction outputs generalizing idx s with
  | nil =>
    obtain ⟨-, rfl⟩ := pure_ok.mp run
    exact (Files.refl sound held).weaken fun key never => never.elim
  | cons output outputs ih =>
    unfold issueCoinbase at run
    obtain ⟨coin, one, issued, run⟩ := bind_ok.mp run
    have first := (issue_files sound held stored (fresh idx le_rfl) issued).1
    have rest := ih first.sound first.held (fun i above there => ?_) run
    · exact (first.trans rest).weaken fun key either => either.elim (fun same => by rw [same]) id
    · rcases first.rows _ there with old | new
      · exact fresh i (by omega) old
      · injection new with _ same
        omega

/-- The coin that stands for the input of a coinbase. -/
def coinbaseOutput (valueIn : Int) : Int × Nat × Output :=
  (0, Coin.null.index, { value := valueIn, script := [] })

theorem recordCoinbase_files {count valueIn : Int} {input : Input} {done : Unit} (positive : 0 < count)
    (sound : Sound env.validationDepth s.stock) (held : Held env.validationDepth s.stock)
    (null : input.prevout.isNull = true) (free : s.stock.spendings[-count]? = none)
    (run : recordCoinbase env count valueIn input s = .ok done s') :
    Files env.validationDepth (env.purgeDepth ≤ count) (ifStored env count (filedInputs (-count) [input] 0))
      (ifStored env count [coinbaseOutput valueIn]) (fun _ => False) s.stock s'.stock := by
  have leaves := (recordCoinbase_leaves positive sound run).sound
  have same := recordCoinbase_stock run
  unfold ifStored
  by_cases stored : env.purgeDepth ≤ count
  · rw [if_pos ⟨stored, free⟩] at same
    rw [same] at leaves ⊢
    rw [if_pos stored, if_pos stored]
    refine ⟨leaves, held, ?_, ?_, fun _ => ?_, fun key there => .inl there, fun coin row recorded => ?_⟩
    · refine (inputs_record free).trans ?_
      rw [← of_decide_eq_true null, ← Multiset.singleton_add, add_comm]
      rfl
    · exact ((outputs_record free).trans (Multiset.singleton_add _ _).symm).le.trans (add_comm _ _).le
    · exact ((outputs_record free).trans (Multiset.singleton_add _ _).symm).trans (add_comm _ _)
    · rcases Map.lookup_of_insert recorded with ⟨rfl, rfl⟩ | old
      · exact .inr ⟨.inr rfl, _, Multiset.mem_coe.mpr List.mem_cons_self, rfl⟩
      · exact .inl old
  · rw [if_neg fun there => stored there.1] at same
    rw [same, if_neg stored, if_neg stored]
    exact Files.refl sound held

theorem maturateNext_files {blk : Blk} {done : Unit} (stored : Prop) (sound : Sound env.validationDepth s.stock)
    (held : Held env.validationDepth s.stock) (run : maturateNext env blk s = .ok done s') :
    Files env.validationDepth stored 0 0 (fun _ => False) s.stock s'.stock := by
  have leaves := (maturateNext_leaves sound run).sound
  obtain ⟨spendables, after, added⟩ := maturateNext_stock run
  rw [after] at leaves ⊢
  refine ⟨leaves, fun trie key unspent found => ?_, (add_zero _).symm, (add_zero _).ge, fun _ =>
    (add_zero _).symm,
    fun _ there => .inl there, fun _ _ there => .inl there⟩
  rcases added key unspent found with there | old
  · exact there
  · exact held trie key unspent old

theorem confirmCoinbase_files {txn : Transaction} {count cnf : Int} (stored : Prop) (positive : 0 < count)
    (sound : Sound env.validationDepth s.stock) (held : Held env.validationDepth s.stock)
    (free : s.confirmations.rows[-count]? = none) (run : confirmCoinbase env txn count s = .ok cnf s') :
    cnf = -count ∧ Files env.validationDepth stored 0 0 (fun _ => False) s.stock s'.stock := by
  have leaves := (confirmCoinbase_leaves positive sound run).sound
  refine ⟨(confirmCoinbase_confirmations free run).1, ?_⟩
  have same := confirmCoinbase_stock run
  split at same
  · rw [same] at leaves ⊢
    exact Files.confirm held leaves
  · rw [same]
    exact Files.refl sound held

theorem postSubsidy_files {txn : Transaction} {blk : Blk} {fees : Int} {done : Unit}
    (sound : Sound env.validationDepth s.stock) (held : Held env.validationDepth s.stock)
    (fresh : ∀ i, ¬s.stock.HasRow { hash := env.prim.txnHash txn, index := i })
    (free : s.stock.confirmations.rows[-blk.count]? = none) (unspent : s.stock.spendings[-blk.count]? = none)
    (run : postSubsidy env txn blk fees s = .ok done s') :
    ∃ valueIn, Files env.validationDepth (env.purgeDepth ≤ blk.count)
      (ifStored env blk.count (filedInputs (-blk.count) txn.inputs 0))
      (ifStored env blk.count [coinbaseOutput valueIn] + (filedOutputs (-blk.count) txn.outputs 0 : List _))
      (·.hash = env.prim.txnHash txn) s.stock s'.stock := by
  obtain ⟨cnf, input, one, two, three, -, inputs, null, confirmed, -, recorded, issued, matured⟩ :=
    postSubsidy_ok run
  obtain ⟨rfl, first⟩ := confirmCoinbase_files
    (env.purgeDepth ≤ blk.count) blk.count_pos sound held free confirmed
  have unspent : one.stock.spendings[-blk.count]? = none := by
    cases there : one.stock.spendings[-blk.count]? with
    | none => rfl
    | some row =>
      rcases first.recorded _ row there with old | ⟨-, entry, never, -⟩
      · rw [unspent] at old
        cases old
      · cases never
  have second := recordCoinbase_files blk.count_pos first.sound first.held null unspent recorded
  have both := first.trans second
  have third := issueCoinbase_files (env.purgeDepth ≤ blk.count) both.sound both.held (fun i _ there => ?_) issued
  · have fourth := maturateNext_files (env.purgeDepth ≤ blk.count) third.sound third.held matured
    have all := (both.trans third).trans fourth
    rw [zero_add, zero_add, add_zero, add_zero, add_zero, ← inputs] at all
    exact ⟨_, all.weaken fun key either =>
      either.elim (fun either => either.elim (fun never => (never.elim id id).elim) id) False.elim⟩
  · rcases both.rows _ there with old | never
    · exact fresh i old
    · exact never.elim id id

/-! ### Blocks -/

/-- The transactions of a block with the numbers of their confirmations, the coinbase last. -/
def numberedBlock (env : Setting) (count : Int) (coinbase : Transaction) (txns : List Transaction) (next : Int) :
    List (Int × Transaction) :=
  numbered env count txns next ++ [(-count, coinbase)]

theorem mem_numberedBlock {count : Int} {coinbase : Transaction} {txns : List Transaction} {next : Int}
    {entry : Int × Transaction} (member : entry ∈ numberedBlock env count coinbase txns next) :
    entry.1 = -count ∨
      if env.purgeDepth ≤ count then next ≤ entry.1 ∧
        entry.1 < next + txns.length else entry.1 = locktimeThreshold := by
  rcases List.mem_append.mp member with member | member
  · exact .inr (mem_numbered member).2
  · rw [List.mem_singleton.mp member]
    exact .inl rfl

/-- The numbers of a block that is stored differ. -/
theorem numberedBlock_nodup {count : Int} (stored : env.purgeDepth ≤ count) (positive : 0 < count)
    (coinbase : Transaction) (txns : List Transaction) {next : Int} (above : 0 < next) :
    ((numberedBlock env count coinbase txns next).map Prod.fst).Nodup := by
  have given (txns : List Transaction) (next : Int) : ((numbered env count txns next).map Prod.fst).Nodup := by
    induction txns generalizing next with
    | nil => exact List.nodup_nil
    | cons txn txns ih =>
      refine List.nodup_cons.mpr ⟨fun member => ?_, ih (next + 1)⟩
      obtain ⟨entry, member, same⟩ := List.mem_map.mp member
      have later := (mem_numbered member).2
      have same : entry.1 = confirmationNumber env count next := same
      unfold confirmationNumber at same
      rw [if_pos stored] at later same
      omega
  unfold numberedBlock
  rw [List.map_append]
  refine (given txns next).append (List.nodup_singleton _) fun cnf known coinbase => ?_
  obtain ⟨entry, member, rfl⟩ := List.mem_map.mp known
  have later := (mem_numbered member).2
  have coinbase : entry.1 = -count := List.mem_singleton.mp coinbase
  rw [if_pos stored] at later
  omega

/-- **What a block adds to the tables.** -/
theorem attach_files {blk : Blk} {block : Block} {unconfirmed : Txns} {confirmed : Hashes}
    {result : Txns × Hashes}
    (sound : Sound env.validationDepth s.stock) (held : Held env.validationDepth s.stock)
    (apart : (block.transactions.map env.prim.txnHash).Nodup)
    (fresh : ∀ txn ∈ block.transactions, ∀ i, ¬s.stock.HasRow { hash := env.prim.txnHash txn, index := i })
    (free : s.stock.confirmations.rows[-blk.count]? = none) (unspent : s.stock.spendings[-blk.count]? = none)
    (run : attach env blk block unconfirmed confirmed s = .ok result s') :
    ∃ coinbase txns valueIn, block.transactions = coinbase :: txns ∧
      Files env.validationDepth (env.purgeDepth ≤ blk.count)
        (ifStored env blk.count (allInputs (numberedBlock env blk.count coinbase txns s.confirmations.nextId)))
        (ifStored env blk.count [coinbaseOutput valueIn] +
          (allOutputs (numberedBlock env blk.count coinbase txns s.confirmations.nextId) : List _))
        (fun key => ∃ txn ∈ block.transactions, key.hash = env.prim.txnHash txn) s.stock s'.stock := by
  obtain ⟨coinbase, txns, one, fees, two, transactions, -, -, header, posted, subsidy, -⟩ := attach_ok run
  have same : one.stock = s.stock := by
    rw [(insertBlockHeader_keeps stock_blocks _ _).ok header]
    rfl
  have numbers : one.confirmations = s.confirmations := congrArg Stock.confirmations same
  have positive := blk.count_pos
  rw [← same] at sound held fresh free unspent
  rw [transactions] at apart fresh ⊢
  rw [List.map_cons, List.nodup_cons] at apart
  have first := postAll_files sound held apart.2 (fun txn member =>
    fresh txn (List.mem_cons_of_mem _ member)) posted
  have start : 0 ≤ one.confirmations.seq := sound.start.2
  have unspent : two.stock.spendings[-blk.count]? = none := by
    cases there : two.stock.spendings[-blk.count]? with
    | none => rfl
    | some row =>
      rcases first.recorded _ row there with old | ⟨number, entry, member, known⟩
      · rw [unspent] at old
        cases old
      · obtain ⟨stored, member⟩ := mem_ifStored member
        obtain ⟨txn, member, tagged⟩ := mem_allInputs member
        have number' := (mem_numbered member).2
        rw [if_pos stored] at number'
        have next := one.confirmations.seq_lt_nextId
        omega
  have fresh (i : Nat) : ¬two.stock.HasRow { hash := env.prim.txnHash coinbase, index := i } := by
    intro there
    rcases first.rows _ there with old | ⟨txn, member, same⟩
    · exact fresh coinbase List.mem_cons_self i old
    · exact apart.1 (List.mem_map.mpr ⟨txn, member, same.symm⟩)
  obtain ⟨valueIn, second⟩ := postSubsidy_files first.sound first.held fresh (postAll_free start free posted)
    unspent subsidy
  have all := first.trans second
  rw [← ifStored_append, add_left_comm, same, numbers] at all
  refine ⟨coinbase, txns, valueIn, rfl, ?_⟩
  unfold numberedBlock allInputs allOutputs
  rw [List.flatMap_append, List.flatMap_append, ← Multiset.coe_add, List.flatMap_singleton,
    List.flatMap_singleton]
  exact all.weaken fun key either => either.elim
    (fun ⟨txn, member, same⟩ => ⟨txn, List.mem_cons_of_mem _ member, same⟩)
    fun same => ⟨coinbase, List.mem_cons_self, same⟩

end Libcoin
