/-
What `check(Transaction)` makes sure of.

* `RepositoryChain` are the seven chains of the repository with their `max_money`; the greatest is near `2 ^ 60`.
* `Chain.additions` are the sums that the loop over the outputs forms, before they are stored in an `int64_t`. A value
  is compared with `max_money` before it is added, and the sum after it, so none of them overflows
  (`additions_range`).
-/

import Libcoin.Ledger.Subsidies
import Libcoin.Ledger.Supply

namespace Libcoin

/-! ### The chains -/

def DogecoinChain.max_money : Int := 1000000000000000000

def DogetestChain.max_money : Int := 1000000000000000000

/-- The chains of the repository. -/
inductive RepositoryChain
  | bitcoin
  | testNet3
  | namecoin
  | litecoin
  | terracoin
  | dogecoin
  | dogetest
  deriving DecidableEq, Repr

namespace RepositoryChain

def max_money : RepositoryChain → Int
  | bitcoin | testNet3 | namecoin | litecoin => Chain.max_money
  | terracoin => TerracoinChain.max_money
  | dogecoin => DogecoinChain.max_money
  | dogetest => DogetestChain.max_money

/-- `Chain::max_block_size`, which all of them inherit. -/
def max_block_size : RepositoryChain → Int := fun _ => 1000000

theorem max_money_bounds (name : RepositoryChain) : 0 ≤ name.max_money ∧ name.max_money ≤ 10 ^ 18 := by
  cases name <;> decide

/-- The chain with its own limits. What else is virtual in `Chain` is that of another one. -/
def chain (name : RepositoryChain) (others : Chain) : Chain :=
  { others with
    maxMoney := name.max_money
    maxBlockSize := name.max_block_size
    maxMoney_nonneg := name.max_money_bounds.1
    maxMoney_le := name.max_money_bounds.2 }

end RepositoryChain

/-! ### The running sum -/

namespace Chain

/-- The sums `nValueOut + output.value()` of the loop over the outputs, up to the one that throws. -/
def additions (chain : Chain) : List Output → Int → List Int
  | [], _ => []
  | output :: outputs, valueOut =>
    if output.value < 0 then []
    else if chain.maxMoney < output.value then []
    else
      (valueOut + output.value) ::
        if !chain.range (wrap64 (valueOut + output.value)) then []
        else additions chain outputs (wrap64 (valueOut + output.value))

variable (chain : Chain)

/-- Before each addition the sum and the value are in the range of money, so they are far from the limits. -/
theorem additions_range (outputs : List Output) {start : Int} (inRange : chain.range start = true) :
    ∀ sum ∈ chain.additions outputs start, IsInt64 sum := by
  induction outputs generalizing start with
  | nil => exact List.forall_mem_nil _
  | cons output outputs ih =>
    have from0 : 0 ≤ start ∧ start ≤ chain.maxMoney := of_decide_eq_true inRange
    have below := chain.maxMoney_le
    unfold additions
    split
    · exact List.forall_mem_nil _
    · split
      · exact List.forall_mem_nil _
      · rename_i positive small
        have fits : IsInt64 (start + output.value) := ⟨by omega, by omega⟩
        rw [List.forall_mem_cons]
        refine ⟨fits, ?_⟩
        split
        · exact List.forall_mem_nil _
        · rename_i still
          exact ih (by simpa using still)

theorem checkOutputs_small {outputs : List Output} {start : Int} (checked : chain.checkOutputs outputs start = .ok ()) :
    ∀ output ∈ outputs, output.value ≤ chain.maxMoney := by
  induction outputs generalizing start with
  | nil => exact List.forall_mem_nil _
  | cons output outputs ih =>
    unfold checkOutputs at checked
    split at checked
    · cases checked
    · split at checked
      · cases checked
      · rename_i small
        dsimp only at checked
        split at checked
        · cases checked
        · exact List.forall_mem_cons.mpr ⟨not_lt.mp small, ih checked⟩

/-- The inputs of a transaction that passes. -/
theorem checkInputs_ok {txn : Transaction} (checked : checkInputs txn = .ok ()) :
    (txn.inputs.map Input.prevout).Nodup ∧
      ((∃ input, txn.inputs = [input] ∧ input.prevout.isNull = true ∧
          2 ≤ input.signature.length ∧ input.signature.length ≤ 100) ∨
        ∀ input ∈ txn.inputs, input.prevout.isNull = false) := by
  unfold checkInputs at checked
  split at checked
  · cases checked
  · rename_i distinct
    refine ⟨by simpa using distinct, ?_⟩
    split at checked
    · rename_i coinbase
      left
      unfold Transaction.isCoinBase at coinbase
      split at coinbase
      · rename_i input one
        simp only [one, List.head?_cons, Option.map_some, Option.getD_some] at checked
        split at checked
        · cases checked
        · exact ⟨input, one, coinbase, by omega, by omega⟩
      · cases coinbase
    · split at checked
      · cases checked
      · rename_i known
        right
        simpa using known

end Chain

/-- For every chain and every transaction the running sum stays an `int64_t`, and what the check accepts has values and a sum
in the range of money, no coin twice, and the inputs of a coinbase or no null one. -/
theorem checkTransaction_exact (name : RepositoryChain) (others : Chain) (prim : Primitives) (txn : Transaction) :
    (∀ sum ∈ (name.chain others).additions txn.outputs 0, IsInt64 sum) ∧
      ((name.chain others).checkTransaction prim txn = .ok () →
        (∀ output ∈ txn.outputs, 0 ≤ output.value ∧ output.value ≤ name.max_money) ∧
        (0 ≤ txn.valueOut ∧ txn.valueOut ≤ name.max_money) ∧
        txn.getValueOut = txn.valueOut ∧
        (txn.inputs.map Input.prevout).Nodup ∧
        ((∃ input, txn.inputs = [input] ∧ input.prevout.isNull = true ∧
            2 ≤ input.signature.length ∧ input.signature.length ≤ 100) ∨
          ∀ input ∈ txn.inputs, input.prevout.isNull = false)) := by
  have zero : (name.chain others).range 0 = true := decide_eq_true ⟨le_refl 0, name.max_money_bounds.1⟩
  refine ⟨Chain.additions_range _ _ zero, ?_⟩
  intro checked
  obtain ⟨-, -, outputs, inputs⟩ := checkTransaction_ok checked
  obtain ⟨positive, exactSum, most⟩ := checkTransaction_valueOut checked
  have small := Chain.checkOutputs_small _ outputs
  have sum : 0 ≤ txn.valueOut := by
    unfold Transaction.valueOut
    apply List.sum_nonneg
    intro value paid
    obtain ⟨output, member, rfl⟩ := List.mem_map.mp paid
    exact positive output member
  exact ⟨fun output member => ⟨positive output member, small output member⟩, ⟨sum, most⟩, exactSum,
    Chain.checkInputs_ok inputs⟩

namespace Small

/-- A coinbase with as much as there can be of dogecoin. -/
def generous : Transaction :=
  { version := 1
    inputs := [{ prevout := Coin.null, signature := [1, 2], sequence := 0 }]
    outputs := [{ value := 10 ^ 18 - 1, script := [] }, { value := 1, script := [] }]
    lockTime := 0 }

end Small

theorem checkTransaction_exact_generous :
    (RepositoryChain.dogecoin.chain (Small.chain 1)).checkTransaction Small.prim Small.generous = .ok () ∧
      Small.generous.getValueOut = Small.generous.valueOut := by
  have accepted :
      (RepositoryChain.dogecoin.chain (Small.chain 1)).checkTransaction Small.prim Small.generous = .ok () := by decide
  exact ⟨accepted, ((checkTransaction_exact .dogecoin (Small.chain 1) Small.prim Small.generous).2 accepted).2.2.1⟩

end Libcoin
