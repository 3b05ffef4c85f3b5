/-
Tables of a relational store whose rows are numbered: rows by number in an ordered map, and the
highest number that an automatic insertion has given out.

* `insertAuto` takes the next number, which no row has (`nextId_fresh`).
* `first` is the row that a query without an order meets first: the lowest number of those that
  satisfy its condition.
* `deleteWhere` and `select` are the bulk operations.
-/

import Libcoin.Library.OrderedMap
import Mathlib.Data.List.Basic

namespace Libcoin

/-- Numbered rows, and the sequence of the automatic numbers. -/
structure Table (Row : Type) where
  rows : Map Int Row
  seq : Int

namespace Table

variable {Row : Type}

def empty : Table Row := { rows := ∅, seq := 0 }

/-- The next automatic number: above every row, and above every number given out. -/
def nextId (t : Table Row) : Int := t.rows.keys.foldl max t.seq + 1

theorem foldl_max_ge (keys : List Int) (start : Int) :
    start ≤ keys.foldl max start ∧ ∀ key ∈ keys, key ≤ keys.foldl max start := by
  induction keys generalizing start with
  | nil => simp
  | cons key keys ih =>
    obtain ⟨above, all⟩ := ih (max start key)
    rw [List.foldl_cons]
    refine ⟨(le_max_left _ _).trans above, fun other member => ?_⟩
    rcases List.mem_cons.mp member with rfl | member
    · exact (le_max_right _ _).trans above
    · exact all other member

theorem seq_lt_nextId (t : Table Row) : t.seq < t.nextId := by
  have above := (foldl_max_ge t.rows.keys t.seq).1
  unfold nextId
  omega

theorem key_lt_nextId (t : Table Row) {key : Int} {row : Row} (stored : t.rows[key]? = some row) :
    key < t.nextId := by
  have member : key ∈ t.rows.keys := by
    rw [Std.ExtTreeMap.mem_keys, ← Std.ExtTreeMap.isSome_getElem?_iff_mem, stored]
    rfl
  have above := (foldl_max_ge t.rows.keys t.seq).2 key member
  unfold nextId
  omega

theorem nextId_fresh (t : Table Row) : t.rows[t.nextId]? = none := by
  cases found : t.rows[t.nextId]? with
  | none => rfl
  | some row => exact absurd (t.key_lt_nextId found) (lt_irrefl _)

/-- `INSERT` without a number. -/
def insertAuto (t : Table Row) (row : Row) : Table Row :=
  { rows := t.rows.insert t.nextId row, seq := t.nextId }

/-- The rows that were there stay. -/
theorem lookup_insertAuto {t : Table Row} {key : Int} {old : Row} (row : Row) (stored : t.rows[key]? = some old) :
    (t.insertAuto row).rows[key]? = some old :=
  Map.lookup_insert_of_absent row t.nextId_fresh stored

/-- `INSERT` into a table that does not remember the numbers it has given out. -/
def insertNext (t : Table Row) (row : Row) : Table Row :=
  { t with rows := t.rows.insert t.nextId row }

/-- `INSERT` with a number that no row has. -/
def insertAt (t : Table Row) (key : Int) (row : Row) : Table Row :=
  { rows := t.rows.insert key row, seq := max t.seq key }

/-- `DELETE` of the row with a number. -/
def delete (t : Table Row) (key : Int) : Table Row := { t with rows := t.rows.erase key }

/-- `DELETE FROM ... WHERE`. -/
def deleteWhere (t : Table Row) (cond : Int → Row → Bool) : Table Row :=
  { t with rows := t.rows.filter fun key row => !cond key row }

/-- `SELECT ... WHERE` without an order: by increasing number. -/
def select (t : Table Row) (cond : Int → Row → Bool) : List (Int × Row) :=
  t.rows.toList.filter fun entry => cond entry.1 entry.2

/-- The first row of such a query. -/
def first (t : Table Row) (cond : Int → Row → Bool) : Option (Int × Row) :=
  (t.select cond).head?

theorem mem_select {t : Table Row} {cond : Int → Row → Bool} {key : Int} {row : Row} :
    (key, row) ∈ t.select cond ↔ t.rows[key]? = some row ∧ cond key row = true := by
  unfold select
  rw [List.mem_filter, Map.mem_toList]

theorem first_eq_some {t : Table Row} {cond : Int → Row → Bool} {key : Int} {row : Row}
    (found : t.first cond = some (key, row)) : t.rows[key]? = some row ∧ cond key row = true :=
  mem_select.mp (List.mem_of_head? found)

theorem first_eq_none {t : Table Row} {cond : Int → Row → Bool} :
    t.first cond = none ↔ ∀ key row, t.rows[key]? = some row → cond key row = false := by
  unfold first
  rw [List.head?_eq_none_iff, List.eq_nil_iff_forall_not_mem]
  constructor
  · intro nothing key row stored
    by_contra holds
    exact nothing (key, row) (mem_select.mpr ⟨stored, by simpa using holds⟩)
  · rintro never ⟨key, row⟩ member
    obtain ⟨stored, holds⟩ := mem_select.mp member
    rw [never key row stored] at holds
    cases holds

/-- When one row satisfies the condition, the query finds it. -/
theorem first_eq_of_unique {t : Table Row} {cond : Int → Row → Bool} {key : Int} {row : Row}
    (stored : t.rows[key]? = some row) (holds : cond key row = true)
    (unique : ∀ other row', t.rows[other]? = some row' → cond other row' = true → other = key) :
    t.first cond = some (key, row) := by
  cases found : t.first cond with
  | none =>
    rw [first_eq_none.mp found key row stored] at holds
    cases holds
  | some entry =>
    obtain ⟨other, row'⟩ := entry
    obtain ⟨stored', holds'⟩ := first_eq_some found
    obtain rfl := unique other row' stored' holds'
    rw [Option.some.inj (stored.symm.trans stored')]

end Table

end Libcoin
