/-
Ordered maps, as a tree-shaped associative container with a total order on its keys behaves:
lookups after every update, extensional equality, iteration in key order, and sums over the
stored values.

* `Map K V` is `Std.ExtTreeMap` at the comparison of a linear order, so that two maps with the same
  lookups are equal.
* `adjustAll` updates a list of keys one after the other; on distinct keys it is one pointwise
  update (`lookup_adjustAll`). `insertAll` and `eraseAll` are the loops that write and that remove.
* `total` sums a measure of the stored values; it changes by the measure of the value that an
  update adds or removes.
-/

import Mathlib.Order.Std
import Mathlib.Order.Defs.LinearOrder
import Mathlib.Algebra.BigOperators.Group.List.Basic
import Mathlib.Algebra.Order.BigOperators.Group.List
import Mathlib.Algebra.Ring.Int.Defs
import Mathlib.Data.List.Perm.Basic
import Std.Data.ExtTreeMap

namespace Libcoin

/-- An ordered map: keys in a linear order, at most one value a key. -/
abbrev Map (K V : Type) [LinearOrder K] := Std.ExtTreeMap K V compare

instance (priority := 2000) Map.transCmp {K : Type} [LinearOrder K] : Std.TransCmp (compare : K → K → Ordering) :=
  inferInstance

namespace Map

variable {K V : Type} [LinearOrder K]

/-! ### Lookups -/

@[ext] theorem ext_lookup {first second : Map K V} (same : ∀ key : K, first[key]? = second[key]?) :
    first = second :=
  Std.ExtTreeMap.ext_getElem? same

@[simp] theorem lookup_empty (key : K) : (∅ : Map K V)[key]? = none :=
  Std.ExtTreeMap.getElem?_empty

theorem lookup_insert (m : Map K V) (key other : K) (value : V) :
    (m.insert key value)[other]? = if key = other then some value else m[other]? := by
  rw [Std.ExtTreeMap.getElem?_insert]
  simp

theorem isSome_insert {m : Map K V} {other : K} (key : K) (value : V) (there : m[other]?.isSome = true) :
    (m.insert key value)[other]?.isSome = true := by
  rw [lookup_insert]
  split
  · rfl
  · exact there

@[simp] theorem lookup_insert_self (m : Map K V) (key : K) (value : V) :
    (m.insert key value)[key]? = some value := by
  rw [lookup_insert, if_pos rfl]

theorem lookup_insert_of_ne (m : Map K V) {key other : K} (value : V) (different : key ≠ other) :
    (m.insert key value)[other]? = m[other]? := by
  rw [lookup_insert, if_neg different]

/-- What is stored is found after the insertion of a key that was not. -/
theorem lookup_insert_of_absent {m : Map K V} {key other : K} {found : V} (value : V) (absent : m[key]? = none)
    (stored : m[other]? = some found) : (m.insert key value)[other]? = some found := by
  refine (lookup_insert_of_ne m value ?_).trans stored
  rintro rfl
  rw [absent] at stored
  cases stored

theorem lookup_erase (m : Map K V) (key other : K) :
    (m.erase key)[other]? = if key = other then none else m[other]? := by
  rw [Std.ExtTreeMap.getElem?_erase]
  simp

@[simp] theorem lookup_erase_self (m : Map K V) (key : K) : (m.erase key)[key]? = none := by
  rw [lookup_erase, if_pos rfl]

theorem lookup_erase_of_ne (m : Map K V) {key other : K} (different : key ≠ other) :
    (m.erase key)[other]? = m[other]? := by
  rw [lookup_erase, if_neg different]

/-- What is found after a removal was there. -/
theorem lookup_of_erase {m : Map K V} {key other : K} {value : V}
    (stored : (m.erase key)[other]? = some value) : other ≠ key ∧ m[other]? = some value := by
  rw [lookup_erase] at stored
  split at stored
  · cases stored
  · exact ⟨fun same => ‹¬ _› same.symm, stored⟩

theorem lookup_filter (m : Map K V) (keep : K → V → Bool) (key : K) :
    (m.filter keep)[key]? = m[key]?.filter (keep key) :=
  Std.ExtTreeMap.getElem?_filter'

theorem lookup_filter_eq_some (m : Map K V) (keep : K → V → Bool) (key : K) (value : V) :
    (m.filter keep)[key]? = some value ↔ m[key]? = some value ∧ keep key value = true := by
  rw [lookup_filter, Option.filter_eq_some_iff]

theorem contains_of_absent {m : Map K V} {key : K} (absent : m[key]? = none) : m.contains key = false := by
  rw [Std.ExtTreeMap.contains_eq_isSome_getElem?, absent, Option.isSome_none]

theorem contains_of_stored {m : Map K V} {key : K} {value : V} (stored : m[key]? = some value) :
    m.contains key = true := by
  rw [Std.ExtTreeMap.contains_eq_isSome_getElem?, stored, Option.isSome_some]

/-- The value of a key, or a default, in terms of the lookup. -/
theorem getD_lookup (m : Map K V) (key : K) (default : V) :
    m.getD key default = (m[key]?).getD default :=
  Std.ExtTreeMap.getD_eq_getD_getElem?

/-- What is found after an insertion is new or was there. -/
theorem lookup_of_insert {m : Map K V} {key other : K} {value found : V}
    (stored : (m.insert key value)[other]? = some found) :
    other = key ∧ found = value ∨ m[other]? = some found := by
  rw [lookup_insert] at stored
  split at stored
  · exact .inl ⟨Eq.symm ‹_›, (Option.some.inj stored).symm⟩
  · exact .inr stored

/-- Insertion that leaves a stored key alone, as `std::map::insert` does. -/
def insertNew (m : Map K V) (key : K) (value : V) : Map K V :=
  if m[key]?.isSome then m else m.insert key value

theorem lookup_insertNew (m : Map K V) (key other : K) (value : V) :
    (m.insertNew key value)[other]? =
      if key = other then some ((m[key]?).getD value) else m[other]? := by
  unfold insertNew
  by_cases stored : m[key]?.isSome
  · obtain ⟨old, found⟩ := Option.isSome_iff_exists.mp stored
    rw [if_pos stored, found]
    by_cases same : key = other
    · rw [if_pos same, ← same, found, Option.getD_some]
    · rw [if_neg same]
  · have missing : m[key]? = none := Option.not_isSome_iff_eq_none.mp stored
    rw [if_neg stored, lookup_insert, missing, Option.getD_none]

theorem isSome_insertNew_self (m : Map K V) (key : K) (value : V) : (m.insertNew key value)[key]?.isSome = true := by
  rw [lookup_insertNew, if_pos rfl]
  rfl

theorem isSome_insertNew {m : Map K V} {other : K} (key : K) (value : V) (there : m[other]?.isSome = true) :
    (m.insertNew key value)[other]?.isSome = true := by
  rw [lookup_insertNew]
  split
  · rfl
  · exact there

theorem lookup_of_insertNew {m : Map K V} {key other : K} {value found : V}
    (stored : (m.insertNew key value)[other]? = some found) :
    other = key ∧ found = value ∨ m[other]? = some found := by
  rw [lookup_insertNew] at stored
  split at stored
  · rename_i same
    subst same
    cases present : m[key]? with
    | none =>
      rw [present, Option.getD_none] at stored
      exact .inl ⟨rfl, (Option.some.inj stored).symm⟩
    | some old =>
      rw [present, Option.getD_some] at stored
      exact .inr stored
  · exact .inr stored

theorem insertNew_of_fresh {m : Map K V} {key : K} (fresh : m[key]? = none) (value : V) :
    m.insertNew key value = m.insert key value := by
  unfold insertNew
  rw [fresh, if_neg (by simp)]

/-- Removing what a fresh insertion added gives the map back. -/
theorem erase_insert_of_fresh {m : Map K V} {key : K} (fresh : m[key]? = none) (value : V) :
    (m.insert key value).erase key = m := by
  ext other : 1
  rw [lookup_erase, lookup_insert]
  by_cases same : key = other
  · rw [if_pos same, ← same, fresh]
  · rw [if_neg same, if_neg same]

/-! ### Iteration -/

theorem mem_toList {m : Map K V} {key : K} {value : V} :
    (key, value) ∈ m.toList ↔ m[key]? = some value :=
  Std.ExtTreeMap.mem_toList_iff_getElem?_eq_some

theorem mem_toList_fst {m : Map K V} {key : K} : key ∈ m.toList.map Prod.fst ↔ m[key]?.isSome = true := by
  rw [Option.isSome_iff_exists]
  constructor
  · intro member
    obtain ⟨⟨_, value⟩, inside, rfl⟩ := List.mem_map.mp member
    exact ⟨value, mem_toList.mp inside⟩
  · rintro ⟨value, found⟩
    exact List.mem_map.mpr ⟨(key, value), mem_toList.mpr found, rfl⟩

theorem toList_nodup (m : Map K V) : m.toList.Nodup := by
  have distinct := Std.ExtTreeMap.distinct_keys_toList (t := m)
  refine distinct.imp fun apart same => apart ?_
  rw [same]
  exact Std.LawfulEqCmp.compare_eq_iff_eq.mpr rfl

/-- The keys in the order in which iteration meets them are strictly increasing. -/
theorem toList_sorted (m : Map K V) : m.toList.Pairwise (fun a b => a.1 < b.1) := by
  have ordered := Std.ExtTreeMap.ordered_keys_toList (t := m)
  exact ordered.imp fun below => compare_lt_iff_lt.mp below

/-- The values of a map whose keys number a list from 1 on come in the order of the list. -/
theorem toList_numbered {V A : Type} {m : Map Int V} {value : V → A} {xs : List A}
    (numbered : ∀ key : Int, (m[key]?).map value = if 1 ≤ key then xs[(key - 1).toNat]? else none) :
    m.toList.map (fun entry => value entry.2) = xs := by
  let entries := m.toList.map fun entry => (entry.1, value entry.2)
  let given := (List.range xs.length).pmap
    (fun i (low : i < xs.length) => ((i : Int) + 1, xs[i])) fun i inside => List.mem_range.mp inside
  have sorted : entries.Pairwise fun a b => a.1 < b.1 :=
    List.pairwise_map.mpr ((toList_sorted m).imp fun less => less)
  have given_sorted : given.Pairwise fun a b => a.1 < b.1 := by
    refine List.Pairwise.pmap List.pairwise_lt_range _ fun i _ j _ less => ?_
    dsimp only
    omega
  have same : ∀ entry, entry ∈ entries ↔ entry ∈ given := by
    intro entry
    obtain ⟨key, x⟩ := entry
    have stored : (key, x) ∈ entries ↔ (m[key]?).map value = some x := by
      rw [Option.map_eq_some_iff, List.mem_map]
      constructor
      · rintro ⟨entry, inside, equal⟩
        obtain ⟨rfl, rfl⟩ := Prod.mk.inj equal
        exact ⟨entry.2, mem_toList.mp inside, rfl⟩
      · rintro ⟨v, found, rfl⟩
        exact ⟨(key, v), mem_toList.mpr found, rfl⟩
    rw [stored, numbered, List.mem_pmap]
    constructor
    · intro found
      split_ifs at found with positive
      obtain ⟨low, rfl⟩ := List.getElem?_eq_some_iff.mp found
      refine ⟨_, List.mem_range.mpr low, ?_⟩
      rw [Int.toNat_of_nonneg (by omega)]
      exact congrArg (·, _) (by omega)
    · rintro ⟨i, inside, equal⟩
      obtain ⟨rfl, rfl⟩ := Prod.mk.inj equal
      rw [if_pos (by omega), show ((i : Int) + 1 - 1).toNat = i by omega]
      exact List.getElem?_eq_getElem _
  have equal : entries = given := by
    have less_ne : ∀ {a b : Int × A}, a.1 < b.1 → a ≠ b := by
      rintro a b less rfl
      omega
    have perm := (List.perm_ext_iff_of_nodup (sorted.imp less_ne) (given_sorted.imp less_ne)).mpr same
    refine perm.eq_of_pairwise (fun a b _ _ one two => ?_) sorted given_sorted
    omega
  calc m.toList.map (fun entry => value entry.2) = entries.map Prod.snd := by
        rw [List.map_map]
        rfl
    _ = given.map Prod.snd := by rw [equal]
    _ = xs := by
        refine List.ext_getElem (by simp [given]) fun i _ _ => ?_
        simp [given]

/-! ### Updating a list of keys -/

/-- `m[key] = change(m[key])` for every key of a list in turn; a missing key counts as `default`,
which is what indexing a `std::map` inserts. -/
def adjustAll (default : V) (change : V → V) (keys : List K) (m : Map K V) : Map K V :=
  keys.foldl (fun acc key => acc.insert key (change (acc.getD key default))) m

@[simp] theorem adjustAll_nil (default : V) (change : V → V) (m : Map K V) :
    adjustAll default change [] m = m := rfl

theorem adjustAll_cons (default : V) (change : V → V) (key : K) (keys : List K) (m : Map K V) :
    adjustAll default change (key :: keys) m =
      adjustAll default change keys (m.insert key (change (m.getD key default))) := rfl

/-- On distinct keys the updates do not see each other. -/
theorem lookup_adjustAll (default : V) (change : V → V) (keys : List K) (m : Map K V)
    (distinct : keys.Nodup) (other : K) :
    (adjustAll default change keys m)[other]? =
      if other ∈ keys then some (change (m.getD other default)) else m[other]? := by
  induction keys generalizing m with
  | nil => simp
  | cons key keys ih =>
    obtain ⟨notLater, distinct⟩ := List.nodup_cons.mp distinct
    rw [adjustAll_cons, ih _ distinct]
    by_cases later : other ∈ keys
    · have different : key ≠ other := fun same => notLater (same ▸ later)
      rw [if_pos later, if_pos (List.mem_cons_of_mem _ later), getD_lookup,
        lookup_insert_of_ne _ _ different, ← getD_lookup]
    · rw [if_neg later]
      by_cases same : other = key
      · subst same
        rw [if_pos List.mem_cons_self, lookup_insert_self]
      · have notIn : other ∉ key :: keys := by
          simp only [List.mem_cons, not_or]
          exact ⟨same, later⟩
        rw [if_neg notIn, lookup_insert_of_ne _ _ (Ne.symm same)]

/-- A stored value is changed exactly when its key is in the list. -/
theorem lookup_adjustAll_stored (default : V) (change : V → V) (keys : List K) (m : Map K V)
    (distinct : keys.Nodup) {key : K} {value : V} (found : m[key]? = some value) :
    (adjustAll default change keys m)[key]? =
      some (if key ∈ keys then change value else value) := by
  rw [lookup_adjustAll _ _ _ _ distinct, getD_lookup, found, Option.getD_some]
  by_cases inside : key ∈ keys
  · rw [if_pos inside, if_pos inside]
  · rw [if_neg inside, if_neg inside]

/-- `m[key] = value` for every entry of a list in turn. -/
def insertAll (entries : List (K × V)) (m : Map K V) : Map K V :=
  entries.foldl (fun acc entry => acc.insert entry.1 entry.2) m

theorem lookup_insertAll_of_notMem (entries : List (K × V)) (m : Map K V) {key : K}
    (absent : key ∉ entries.map Prod.fst) : (insertAll entries m)[key]? = m[key]? := by
  induction entries generalizing m with
  | nil => rfl
  | cons entry entries ih =>
    rw [List.map_cons, List.mem_cons, not_or] at absent
    show (insertAll entries (m.insert entry.1 entry.2))[key]? = _
    rw [ih _ absent.2, lookup_insert_of_ne _ _ (Ne.symm absent.1)]

theorem lookup_insertAll_of_mem (entries : List (K × V)) (m : Map K V) {key : K} {value : V}
    (distinct : (entries.map Prod.fst).Nodup) (member : (key, value) ∈ entries) :
    (insertAll entries m)[key]? = some value := by
  induction entries generalizing m with
  | nil => cases member
  | cons entry entries ih =>
    obtain ⟨notLater, distinct⟩ := List.nodup_cons.mp distinct
    show (insertAll entries (m.insert entry.1 entry.2))[key]? = _
    rcases List.mem_cons.mp member with rfl | later
    · rw [lookup_insertAll_of_notMem _ _ notLater, lookup_insert_self]
    · exact ih _ distinct later

theorem lookup_of_insertAll {entries : List (K × V)} {m : Map K V} {key : K} {value : V}
    (stored : (insertAll entries m)[key]? = some value) : (key, value) ∈ entries ∨ m[key]? = some value := by
  induction entries generalizing m with
  | nil => exact .inr stored
  | cons entry entries ih =>
    rcases ih stored with later | first
    · exact .inl (List.mem_cons_of_mem _ later)
    · rcases lookup_of_insert first with ⟨rfl, rfl⟩ | old
      · exact .inl List.mem_cons_self
      · exact .inr old

/-- `m.insert(entry)` for every entry of a list in turn: stored keys are left alone. -/
def insertNewAll (entries : List (K × V)) (m : Map K V) : Map K V :=
  entries.foldl (fun acc entry => acc.insertNew entry.1 entry.2) m

theorem lookup_insertNewAll_stored (entries : List (K × V)) {m : Map K V} {key : K} {value : V}
    (stored : m[key]? = some value) : (insertNewAll entries m)[key]? = some value := by
  induction entries generalizing m with
  | nil => exact stored
  | cons entry entries ih =>
    refine ih ?_
    rw [lookup_insertNew]
    by_cases same : entry.1 = key
    · rw [if_pos same, same, stored, Option.getD_some]
    · rw [if_neg same, stored]

theorem lookup_of_insertNewAll {entries : List (K × V)} {m : Map K V} {key : K} {value : V}
    (stored : (insertNewAll entries m)[key]? = some value) : (key, value) ∈ entries ∨ m[key]? = some value := by
  induction entries generalizing m with
  | nil => exact .inr stored
  | cons entry entries ih =>
    rcases ih stored with later | first
    · exact .inl (List.mem_cons_of_mem _ later)
    · rcases lookup_of_insertNew first with ⟨rfl, rfl⟩ | old
      · exact .inl List.mem_cons_self
      · exact .inr old

theorem lookup_insertNewAll_missing (entries : List (K × V)) {m : Map K V} {key : K}
    (missing : m[key]? = none) :
    (∀ value, (insertNewAll entries m)[key]? = some value → (key, value) ∈ entries) ∧
      (∀ value, (key, value) ∈ entries → (insertNewAll entries m)[key]?.isSome) := by
  induction entries generalizing m with
  | nil =>
    refine ⟨fun value found => ?_, fun value member => by cases member⟩
    rw [show insertNewAll [] m = m from rfl, missing] at found
    cases found
  | cons entry entries ih =>
    show (∀ value, (insertNewAll entries (m.insertNew entry.1 entry.2))[key]? = some value → _) ∧
      ∀ value, _ → (insertNewAll entries (m.insertNew entry.1 entry.2))[key]?.isSome
    by_cases same : entry.1 = key
    · have stored : (m.insertNew entry.1 entry.2)[key]? = some entry.2 := by
        rw [lookup_insertNew, if_pos same, same, missing, Option.getD_none]
      rw [lookup_insertNewAll_stored entries stored]
      refine ⟨fun value equal => ?_, fun _ _ => rfl⟩
      rw [← Option.some.inj equal, ← same]
      exact List.mem_cons_self
    · have still : (m.insertNew entry.1 entry.2)[key]? = none := by
        rw [lookup_insertNew, if_neg same, missing]
      obtain ⟨sound, complete⟩ := ih still
      refine ⟨fun value found => List.mem_cons_of_mem _ (sound value found), fun value member => ?_⟩
      rcases List.mem_cons.mp member with equal | later
      · exact absurd (congrArg Prod.fst equal).symm same
      · exact complete value later

/-- Where a list has one value a key, the map that is filled from it has that value. -/
theorem lookup_insertNewAll_empty {entries : List (K × V)} {key : K} {value : V}
    (functional : ∀ first second, (key, first) ∈ entries → (key, second) ∈ entries → first = second) :
    (insertNewAll entries ∅)[key]? = some value ↔ (key, value) ∈ entries := by
  obtain ⟨sound, complete⟩ := lookup_insertNewAll_missing entries (lookup_empty (V := V) key)
  constructor
  · exact sound value
  · intro member
    obtain ⟨found, stored⟩ := Option.isSome_iff_exists.mp (complete value member)
    rw [stored, functional found value (sound found stored) member]

/-- `m.erase(key)` for every key of a list in turn. -/
def eraseAll (keys : List K) (m : Map K V) : Map K V :=
  keys.foldl (fun acc key => acc.erase key) m

theorem lookup_eraseAll (keys : List K) (m : Map K V) (other : K) :
    (eraseAll keys m)[other]? = if other ∈ keys then none else m[other]? := by
  induction keys generalizing m with
  | nil => simp [eraseAll]
  | cons key keys ih =>
    show (eraseAll keys (m.erase key))[other]? = _
    rw [ih, lookup_erase]
    by_cases later : other ∈ keys
    · rw [if_pos later, if_pos (List.mem_cons_of_mem _ later)]
    · rw [if_neg later]
      by_cases same : key = other
      · rw [if_pos same, if_pos (same ▸ List.mem_cons_self)]
      · rw [if_neg same, if_neg fun member =>
          (List.mem_cons.mp member).elim (fun equal => same equal.symm) later]

/-! ### Sums over the stored values -/

/-- The sum of a measure over the stored values. -/
def total (measure : V → Int) (m : Map K V) : Int :=
  (m.toList.map fun entry => measure entry.2).sum

@[simp] theorem total_empty (measure : V → Int) : total measure (∅ : Map K V) = 0 := by
  have nothing : (∅ : Map K V).toList = [] := Std.ExtTreeMap.toList_eq_nil_iff.mpr rfl
  unfold total
  rw [nothing]
  rfl

/-- A fresh key adds its entry to the iteration. -/
theorem toList_insert_perm {m : Map K V} {key : K} (fresh : m[key]? = none) (value : V) :
    (m.insert key value).toList.Perm ((key, value) :: m.toList) := by
  have notIn : (key, value) ∉ m.toList := fun member => by
    rw [mem_toList, fresh] at member
    cases member
  refine (List.perm_ext_iff_of_nodup (toList_nodup _)
    (List.nodup_cons.mpr ⟨notIn, toList_nodup _⟩)).mpr ?_
  rintro ⟨other, stored⟩
  rw [mem_toList, lookup_insert, List.mem_cons, mem_toList]
  by_cases same : key = other
  · subst same
    rw [if_pos rfl, fresh]
    simp [eq_comm]
  · rw [if_neg same]
    constructor
    · exact Or.inr
    · rintro (equal | found)
      · exact absurd (Prod.mk.inj equal).1.symm same
      · exact found

theorem total_insert {m : Map K V} {key : K} (fresh : m[key]? = none) (measure : V → Int)
    (value : V) : total measure (m.insert key value) = measure value + total measure m := by
  unfold total
  rw [((toList_insert_perm fresh value).map _).sum_eq, List.map_cons, List.sum_cons]

theorem total_erase {m : Map K V} {key : K} {value : V} (found : m[key]? = some value)
    (measure : V → Int) : total measure (m.erase key) = total measure m - measure value := by
  have restored : (m.erase key).insert key value = m := by
    ext other : 1
    rw [lookup_insert, lookup_erase]
    by_cases same : key = other
    · rw [if_pos same, ← same, found]
    · rw [if_neg same, if_neg same]
  have added := total_insert (lookup_erase_self m key) measure value
  rw [restored] at added
  omega

theorem total_filter_le (measure : V → Int) (m : Map K V) (keep : K → V → Bool)
    (nonneg : ∀ (key : K) (value : V), m[key]? = some value → 0 ≤ measure value) :
    total measure (m.filter keep) ≤ total measure m := by
  unfold total
  rw [Std.ExtTreeMap.toList_filter]
  refine List.Sublist.sum_le_sum (List.filter_sublist.map _) ?_
  intro amount member
  obtain ⟨⟨key, value⟩, inside, rfl⟩ := List.mem_map.mp member
  exact nonneg key value (mem_toList.mp inside)

/-- A sum over distinct keys is at most the sum over all values, if none is negative. -/
theorem sum_le_total {measure : V → Int} {m : Map K V}
    (nonneg : ∀ (key : K) (value : V), m[key]? = some value → 0 ≤ measure value) {keys : List K}
    (distinct : keys.Nodup) : (keys.map fun key => m[key]?.elim 0 measure).sum ≤ total measure m := by
  have stored : (keys.map fun key => m[key]?.elim 0 measure).sum =
      ((keys.filter fun key => m[key]?.isSome).map fun key => m[key]?.elim 0 measure).sum := by
    clear distinct
    induction keys with
    | nil => rfl
    | cons key keys ih =>
      rw [List.filter_cons, List.map_cons, List.sum_cons, ih]
      cases found : m[key]? with
      | none => simp
      | some value => simp [found]
  have all : total measure m = ((m.toList.map Prod.fst).map fun key => m[key]?.elim 0 measure).sum := by
    unfold total
    rw [List.map_map]
    refine congrArg List.sum (List.map_congr_left fun entry member => ?_)
    have found := mem_toList.mp member
    show measure entry.2 = m[entry.1]?.elim 0 measure
    rw [found]
    rfl
  have inside : (keys.filter fun key => m[key]?.isSome).Subperm (m.toList.map Prod.fst) := by
    refine List.subperm_of_subset (distinct.filter _) fun key member => ?_
    obtain ⟨value, found⟩ := Option.isSome_iff_exists.mp (List.mem_filter.mp member).2
    exact List.mem_map.mpr ⟨(key, value), mem_toList.mpr found, rfl⟩
  obtain ⟨sorted, perm, sublist⟩ := inside
  rw [stored, all, ← (perm.map _).sum_eq]
  refine List.Sublist.sum_le_sum (sublist.map _) ?_
  intro amount member
  obtain ⟨key, -, rfl⟩ := List.mem_map.mp member
  cases found : m[key]? with
  | none => exact le_rfl
  | some value => exact nonneg key value found

end Map

end Libcoin
