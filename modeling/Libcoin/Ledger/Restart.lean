/-
Restarting in trie mode: the constructor fills the tries from the table of unspents, by comparing the
count of each row with one bound.

* `Coins.load` is that part of the constructor.
* `load_sorted`: on distinct keys it sorts the rows by the bound. The incremental tries sort them by
  `matured` (`attachAll_books`), so the two are equal if and only if the two rules agree on the rows.
* `matured_constant` and `matured_dogecoin` work out the incremental rule, and `misplaced` says where it
  differs from the bound.
-/

import Libcoin.Ledger.Tries

namespace Libcoin

open Exec

namespace Coins

/-- The elements of the rows that satisfy a condition, under their keys. -/
def entries (c : Coins) (cond : UnspentRow → Bool) : List (Coin × Unspent) :=
  (c.unspents.select fun _ row => cond row).map fun entry => (entry.2.key, entry.2.unspent entry.1)

/-- The part of the constructor that fills the tries: `SELECT ... WHERE count >= -?` and
`SELECT ... WHERE count < -?`. -/
def load (bound : Int) (c : Coins) : Coins :=
  { c with
    spendables := Map.insertNewAll (c.entries fun row => decide (-bound ≤ row.count)) ∅
    immatureCoinbases := Map.insertNewAll (c.entries fun row => decide (row.count < -bound)) ∅ }

theorem mem_entries {c : Coins} {cond : UnspentRow → Bool} {key : Coin} {u : Unspent} :
    (key, u) ∈ c.entries cond ↔ u.key = key ∧ c.Holds u ∧ cond u.row = true := by
  unfold entries
  rw [List.mem_map]
  constructor
  · rintro ⟨⟨coin, row⟩, selected, same⟩
    obtain ⟨rfl, rfl⟩ := Prod.mk.inj same
    obtain ⟨held, holds⟩ := Table.mem_select.mp selected
    exact ⟨rfl, held, holds⟩
  · rintro ⟨rfl, held, holds⟩
    exact ⟨(u.coin, u.row), Table.mem_select.mpr ⟨held, holds⟩, rfl⟩

/-- On distinct keys the trie has exactly the rows that satisfy the condition. -/
theorem lookup_entries {c : Coins} (distinct : ∀ u v, c.Holds u → c.Holds v → u.key = v.key → u = v)
    (cond : UnspentRow → Bool) (key : Coin) (u : Unspent) :
    (Map.insertNewAll (c.entries cond) (∅ : Map Coin Unspent))[key]? = some u ↔
      u.key = key ∧ c.Holds u ∧ cond u.row = true := by
  rw [← mem_entries]
  refine Map.lookup_insertNewAll_empty fun first second one two => ?_
  obtain ⟨keyFirst, heldFirst, -⟩ := mem_entries.mp one
  obtain ⟨keySecond, heldSecond, -⟩ := mem_entries.mp two
  exact distinct first second heldFirst heldSecond (keyFirst.trans keySecond.symm)

theorem load_sorted {mature : Unspent → Bool} {c : Coins} (sorted : c.Sorted mature) (bound : Int) :
    (c.load bound).Sorted fun u => decide (-bound ≤ u.count) := by
  refine ⟨⟨sorted.unindexed, sorted.distinct, fun key u => ?_⟩, fun key u => ?_⟩
  · exact lookup_entries sorted.distinct _ key u
  · rw [decide_eq_false_iff_not, not_le]
    exact (lookup_entries sorted.distinct _ key u).trans (by rw [decide_eq_true_eq]; rfl)

end Coins

/-- `_tree.count() - _chain.maturity(_tree.height()) + 1` after `n` blocks. -/
def loadBound (maturity : Int → Int) (n : Int) : Int := n - maturity (n - 1) + 1

/-! ### Which counts are mature -/

theorem matured_constant (n : Nat) {count : Int} (negative : count < 0) :
    matured (Maturity.at .constant) n count = true ↔ 2 ≤ -count ∧ -count ≤ n - 99 := by
  have constant : ∀ height, Maturity.at .constant height = 100 := fun _ => rfl
  rw [matured_const constant (by decide) n negative]
  omega

/-- Up to the switch the window moves as with a maturity of 30. Then it starts again further back, and
for a while it passes over coinbases that are mature already. -/
theorem matured_dogecoin (n : Nat) {count : Int} (negative : count < 0) :
    matured (Maturity.at .dogecoin) n count = true ↔
      2 ≤ -count ∧ (-count ≤ n - 29 ∧ -count ≤ 144971 ∨ -count ≤ n - 239) := by
  induction n with
  | zero =>
    show decide (0 < count) = true ↔ _
    rw [decide_eq_true_eq]
    omega
  | succ n ih =>
    rw [matured_succ, Bool.or_eq_true, ih, decide_eq_true_eq]
    have now : Maturity.at .dogecoin n = if (145000 : Int) ≤ n then 240 else 30 := rfl
    rw [now]
    push_cast
    split <;> omega

/-- The counts that a restart sorts otherwise, after `n` blocks: that of the genesis coinbase once it
should be mature, those of transactions in very short chains, and those of the coinbases that had
matured when the maturity was raised. -/
def Maturity.misplaced (kind : Maturity) (n count : Int) : Prop :=
  count = -1 ∧ kind.at (n - 1) ≤ n ∨ 0 < count ∧ count < kind.at (n - 1) - n - 1 ∨
    kind = .dogecoin ∧ 145001 ≤ n ∧ n - 239 < -count ∧ -count ≤ 144971

instance (kind : Maturity) (n count : Int) : Decidable (kind.misplaced n count) :=
  inferInstanceAs (Decidable (_ ∨ _ ∨ _))

theorem misplaced_iff (kind : Maturity) {n : Nat} {count : Int} (started : 0 < n)
    (counted : count ≠ 0 ∧ -(n : Int) ≤ count ∧ count ≤ n) :
    matured kind.at n count = decide (-loadBound kind.at n ≤ count) ↔ ¬ kind.misplaced n count := by
  unfold loadBound Maturity.misplaced
  rcases lt_or_gt_of_ne counted.1 with negative | positive
  · rw [Bool.eq_iff_iff, decide_eq_true_eq]
    cases kind with
    | constant =>
      rw [matured_constant n negative]
      show (_ ↔ -((n : Int) - 100 + 1) ≤ count) ↔ ¬(count = -1 ∧ (100 : Int) ≤ n ∨
        0 < count ∧ count < 100 - n - 1 ∨ Maturity.constant = .dogecoin ∧ _)
      simp only [reduceCtorEq, false_and, or_false]
      omega
    | dogecoin =>
      rw [matured_dogecoin n negative]
      have now : Maturity.at .dogecoin (n - 1) = if (145000 : Int) ≤ n - 1 then 240 else 30 := rfl
      rw [now]
      simp only [true_and]
      split <;> omega
  · rw [matured_of_pos _ _ positive, eq_comm, decide_eq_true_eq]
    cases kind with
    | constant =>
      show -((n : Int) - 100 + 1) ≤ count ↔ ¬(count = -1 ∧ (100 : Int) ≤ n ∨
        0 < count ∧ count < 100 - n - 1 ∨ Maturity.constant = .dogecoin ∧ _)
      simp only [reduceCtorEq, false_and, or_false]
      omega
    | dogecoin =>
      have now : Maturity.at .dogecoin (n - 1) = if (145000 : Int) ≤ n - 1 then 240 else 30 := rfl
      rw [now]
      simp only [true_and]
      split <;> omega

theorem Maturity.at_pos (kind : Maturity) (height : Int) : 1 ≤ kind.at height := by
  cases kind with
  | constant => show (1 : Int) ≤ 100; decide
  | dogecoin =>
    show (1 : Int) ≤ if 145000 ≤ height then 60 * 4 else 30
    split <;> omega

/-! ### Restarting -/

section Restart

variable {chain : Chain} {prim : Primitives} {validationDepth : Int} {s : Ledger}

/-- A restart after a run of blocks finds the tries that the run has left if and only if the bound
sorts each row as the run did. -/
theorem load_iff_matured (trie : 0 < validationDepth) (positive : ∀ height, 1 ≤ chain.maturity height)
    {offers : List Offer} (heights : Follow 0 offers) (fresh : NoReissue [] (runEvents prim offers))
    (run : attachAll chain prim validationDepth offers (Ledger.empty false) = .ok () s) (bound : Int) :
    (s.coins.load bound).spendables = s.coins.spendables ∧
        (s.coins.load bound).immatureCoinbases = s.coins.immatureCoinbases ↔
      ∀ u, s.coins.Holds u → matured chain.maturity offers.length u.count = decide (-bound ≤ u.count) := by
  have books := attachAll_books trie positive (books_empty chain.maturity) heights fresh run
  rw [Nat.zero_add] at books
  exact books.accounts.sorted.eq_iff (Coins.load_sorted books.accounts.sorted bound) rfl

/-- A restart after a run that issues no key again finds the tries that the run has left if and only
if the table has no misplaced row. -/
theorem load_iff (kind : Maturity) (rule : chain.maturity = kind.at) (trie : 0 < validationDepth)
    {offers : List Offer} (heights : Follow 0 offers) (fresh : NoReissue [] (runEvents prim offers))
    (run : attachAll chain prim validationDepth offers (Ledger.empty false) = .ok () s) :
    (s.coins.load (loadBound chain.maturity offers.length)).spendables = s.coins.spendables ∧
        (s.coins.load (loadBound chain.maturity offers.length)).immatureCoinbases =
          s.coins.immatureCoinbases ↔
      ∀ (coin : Int) row, s.coins.unspents.rows[coin]? = some row →
        ¬ kind.misplaced offers.length row.count := by
  have positive : ∀ height, 1 ≤ chain.maturity height := fun height => rule ▸ kind.at_pos height
  have books := attachAll_books trie positive (books_empty chain.maturity) heights fresh run
  rw [Nat.zero_add] at books
  rw [load_iff_matured trie positive heights fresh run, rule]
  have each : ∀ u, s.coins.Holds u →
      (matured kind.at offers.length u.count = decide (-loadBound kind.at offers.length ≤ u.count) ↔
        ¬ kind.misplaced offers.length u.count) := by
    intro u held
    have counted : Counted offers.length u := books.accounts.rows u held
    unfold Counted at counted
    exact misplaced_iff kind (by omega) counted
  constructor
  · intro same coin row stored
    exact (each (row.unspent coin) stored).mp (same (row.unspent coin) stored)
  · intro none u held
    exact (each u held).mpr (none u.coin u.row held)

end Restart

namespace Small

/-- `n` blocks that pay one output each. -/
def coinbases (n : Nat) : List Offer :=
  (List.range n).map fun height => offer (height + 1) height [coinbase (1000 + height) [50]]

/-- The coin of the genesis. -/
def genesisCoin : Coin := { hash := 1000, index := 0 }

end Small

open Libcoin.Small

/-- Three blocks after the genesis nothing is misplaced. -/
theorem load_short : ∃ s,
    attachAll (chain 100) prim 1 (coinbases 3) (Ledger.empty false) = .ok () s ∧
    (s.coins.load (loadBound (chain 100).maturity 3)).spendables = s.coins.spendables := by
  have run : succeeds (attachAll (chain 100) prim 1 (coinbases 3) (Ledger.empty false))
      (fun _ s => s.coins.unspents.rows.toList.all fun entry =>
        decide (¬ Maturity.constant.misplaced 3 entry.2.count)) = true := by decide +kernel
  obtain ⟨_, s, attached, placed⟩ := of_succeeds run
  have none : ∀ (coin : Int) row, s.coins.unspents.rows[coin]? = some row →
      ¬ Maturity.constant.misplaced (coinbases 3).length row.count := fun coin row stored =>
    of_decide_eq_true (List.all_eq_true.mp placed (coin, row) (Map.mem_toList.mpr stored))
  exact ⟨s, attached, ((load_iff .constant rfl (by decide) (by decide +kernel) (by decide +kernel)
    attached).mpr none).1⟩

/-- After a hundred blocks a restart makes the coinbase of the genesis spendable, which the run has
not. -/
theorem load_genesis : ∃ s,
    attachAll (chain 100) prim 1 (coinbases 100) (Ledger.empty false) = .ok () s ∧
    (s.coins.load (loadBound (chain 100).maturity 100)).spendables ≠ s.coins.spendables := by
  have run : succeeds (attachAll (chain 100) prim 1 (coinbases 100) (Ledger.empty false))
      (fun _ s => (s.coins.load (loadBound (chain 100).maturity 100)).spendables[genesisCoin]?.isSome &&
        s.coins.spendables[genesisCoin]?.isNone) = true := by decide +kernel
  obtain ⟨_, s, attached, apart⟩ := of_succeeds run
  rw [Bool.and_eq_true] at apart
  refine ⟨s, attached, fun same => ?_⟩
  rw [same, Option.isSome_iff_ne_none] at apart
  exact apart.1 (Option.isNone_iff_eq_none.mp apart.2)

end Libcoin
