/-
The tables of the database, the statements that validation runs on them, and the state that a
statement changes.

* `Database` has the tables. A statement that inserts gives the number of the new row and the
  database it leaves, and `none` when a primary key or the unique index of `Unspents` forbids the row.
* `Ledger` is what `attach` and `detach` change: the database, the two tries of spendable coins,
  and the verifications that were asked for.
* `query` runs a statement. One that fails changes nothing and, as the source does not ask for the
  result code, reports the last row number like one that succeeds.
-/

import Libcoin.Library.Table
import Libcoin.Ledger.Types

namespace Libcoin

/-- A row of `Blocks`, without its number. -/
structure BlockRow extends BlockHeader where
  hash : Uint256
  deriving DecidableEq, Repr

structure ConfirmationRow where
  version : Int
  lockTime : Int
  count : Int
  idx : Int
  deriving DecidableEq, Repr

structure UnspentRow where
  key : Coin
  output : Output
  count : Int
  cnf : Int
  deriving DecidableEq, Repr

/-- A row of `Spendings`. The coinbase has the null coin as `key`. -/
structure Spending where
  ocnf : Int
  key : Coin
  output : Output
  signature : Script
  sequence : Nat
  iidx : Int
  icnf : Int
  deriving DecidableEq, Repr

structure AuxRow where
  count : Int
  hash : Uint256
  auxPow : Data
  deriving DecidableEq, Repr

structure NameRow where
  coin : Int
  count : Int
  name : Data
  value : Data
  deriving DecidableEq, Repr

/-- The tables, and whether the index `UnspentIndex` exists. `AuxProofOfWorks` and `Names` have row
numbers of their own. -/
structure Database where
  blocks : Map Int BlockRow
  confirmations : Table ConfirmationRow
  unspents : Table UnspentRow
  spendings : Map Int Spending
  auxProofOfWorks : Table AuxRow
  names : Table NameRow
  unspentIndex : Bool

/-- A row of `Unspents` as the class that queries return. -/
def UnspentRow.unspent (row : UnspentRow) (coin : Int) : Unspent :=
  { key := row.key, output := row.output, coin := coin, count := row.count, cnf := row.cnf }

/-- The row of an element of the tries. -/
def Unspent.row (unspent : Unspent) : UnspentRow :=
  { key := unspent.key, output := unspent.output, count := unspent.count, cnf := unspent.cnf }

@[simp] theorem Unspent.row_unspent (unspent : Unspent) : unspent.row.unspent unspent.coin = unspent :=
  rfl

namespace Database

/-- The tables as they are created. -/
def empty (unspentIndex : Bool) : Database :=
  { blocks := ∅, confirmations := Table.empty, unspents := Table.empty, spendings := ∅,
    auxProofOfWorks := Table.empty, names := Table.empty, unspentIndex := unspentIndex }

/-! ### Insertions -/

def insertBlock (count : Int) (row : BlockRow) (db : Database) : Option (Int × Database) :=
  if db.blocks.contains count then none
  else some (count, { db with blocks := db.blocks.insert count row })

def insertAuxProofOfWork (row : AuxRow) (db : Database) : Option (Int × Database) :=
  some (db.auxProofOfWorks.nextId,
    { db with auxProofOfWorks := db.auxProofOfWorks.insertNext row })

def insertConfirmation (row : ConfirmationRow) (db : Database) : Option (Int × Database) :=
  some (db.confirmations.nextId, { db with confirmations := db.confirmations.insertAuto row })

/-- The insertion of a confirmation with its number. -/
def insertConfirmationAt (cnf : Int) (row : ConfirmationRow) (db : Database) :
    Option (Int × Database) :=
  if db.confirmations.rows.contains cnf then none
  else some (cnf, { db with confirmations := db.confirmations.insertAt cnf row })

/-- `SELECT ... FROM Unspents WHERE hash = ? AND idx = ?`. -/
def findUnspent (db : Database) (key : Coin) : Option (Int × UnspentRow) :=
  db.unspents.first fun _ row => decide (row.key = key)

/-- `INSERT INTO Unspents`. -/
def insertUnspent (row : UnspentRow) (db : Database) : Option (Int × Database) :=
  if db.unspentIndex && (db.findUnspent row.key).isSome then none
  else some (db.unspents.nextId, { db with unspents := db.unspents.insertAuto row })

/-- `INSERT OR REPLACE INTO Unspents`: the row that the unique index forbids is deleted. -/
def replaceUnspent (row : UnspentRow) (db : Database) : Option (Int × Database) :=
  let unspents := db.unspents.insertAuto row
  let replaced :=
    if db.unspentIndex then
      unspents.deleteWhere fun coin other =>
        decide (coin ≠ db.unspents.nextId) && decide (other.key = row.key)
    else unspents
  some (db.unspents.nextId, { db with unspents := replaced })

def insertSpending (coin : Int) (row : Spending) (db : Database) : Option (Int × Database) :=
  if db.spendings.contains coin then none
  else some (coin, { db with spendings := db.spendings.insert coin row })

def insertName (row : NameRow) (db : Database) : Option (Int × Database) :=
  if (db.names.first fun _ other => decide (other.coin = row.coin)).isSome then none
  else some (db.names.nextId, { db with names := db.names.insertNext row })

/-! ### Queries -/

/-- `SELECT count FROM Names WHERE name = ? ORDER BY count DESC LIMIT 1`, and the same query with
`name is null`, as an empty name is stored. A query without a row gives 0. -/
def latestNameCount (db : Database) (name : Data) : Int :=
  ((db.names.select fun _ row => decide (row.name = name)).map fun entry => entry.2.count).max?.getD 0

/-- `SELECT name FROM Names WHERE coin=?`. -/
def getCoinName (db : Database) (coin : Int) : Data :=
  ((db.names.first fun _ row => decide (row.coin = coin)).map fun entry => entry.2.name).getD []

/-- `SELECT MIN(count) From Confirmations`. -/
def getDeepestDepth (db : Database) : Int :=
  (db.confirmations.rows.toList.map fun entry => entry.2.count).min?.getD 0

/-- The deepest count is that of no row above another. -/
theorem getDeepestDepth_le (db : Database) {cnf : Int} {row : ConfirmationRow}
    (found : db.confirmations.rows[cnf]? = some row) : db.getDeepestDepth ≤ row.count := by
  have member : row.count ∈ db.confirmations.rows.toList.map fun entry => entry.2.count :=
    List.mem_map.mpr ⟨(cnf, row), Map.mem_toList.mpr found, rfl⟩
  unfold getDeepestDepth
  cases least : (db.confirmations.rows.toList.map fun entry => entry.2.count).min? with
  | none =>
    rw [List.min?_eq_none_iff] at least
    rw [least] at member
    cases member
  | some count => exact (List.le_min?_iff least).mp le_rfl _ member

end Database

/-- One transaction handed to the verifier, with the scripts of the coins it spends. -/
structure Verification where
  scripts : List Script
  txn : Transaction
  strictPayToScriptHash : Bool
  deriving DecidableEq, Repr

/-- What `attach` and `detach` change: the members `_spendables`, `_immature_coinbases` and
`_verifier`, the database, and the number of the row inserted last. -/
structure Ledger where
  db : Database
  lastRowid : Int
  spendables : Map Coin Unspent
  immatureCoinbases : Map Coin Unspent
  pending : List Verification

/-- A part of the source that changes the ledger and can throw. -/
abbrev LedgerM := EStateM Fault Ledger

namespace Ledger

/-- A ledger on fresh tables. -/
def empty (unspentIndex : Bool) : Ledger :=
  { db := Database.empty unspentIndex, lastRowid := 0, spendables := ∅, immatureCoinbases := ∅,
    pending := [] }

/-- The ledger that a statement leaves. -/
def afterQuery (s : Ledger) (statement : Database → Option (Int × Database)) : Int × Ledger :=
  match statement s.db with
  | none => (s.lastRowid, s)
  | some (rowid, db) => (rowid, { s with db := db, lastRowid := rowid })

end Ledger

/-- `query` for an insertion: the row number it reports. -/
def query (statement : Database → Option (Int × Database)) : LedgerM Int :=
  modifyGet fun s => s.afterQuery statement

/-- `query` for a deletion. -/
def execute (statement : Database → Database) : LedgerM Unit :=
  modify fun s => { s with db := statement s.db }

/-- `if (bad) throw fault`. -/
def throwIf (bad : Bool) (fault : Fault) : LedgerM Unit :=
  if bad then throw fault else pure ()

/-- A call that does not change the ledger. -/
def liftExcept {A : Type} : Except Fault A → LedgerM A
  | .ok a => pure a
  | .error fault => throw fault

end Libcoin
