/-
The neighbours of a key that is not stored: `operator+` and `operator-` of the iterator that `find` gives.

* `Node.down` is the loop of the operators: to one side as long as there is a branch. `down_right` and `down_left`
  are its ends, the least and the greatest element.
* `neighbours_exact` is about every trie that calls lead to. At the genitor `operator-` gives the path to the end node,
  which is not `end()`.

The descent can stop at a branch although the key is above all or below all of its elements: the key leaves the edge to
a child somewhere in the middle.
-/

import Libcoin.Trie.Adjacency

namespace Libcoin

open HighBit

variable {E Key Hash : Type}

/-- Where the operators lead: to a path, or to the path of the genitor and its end node. -/
inductive Neighbour (E Key Hash : Type)
  | path (iterator : Iterator E Key Hash)
  | endNode

namespace Neighbour

/-- The element of a leaf. There is none at the end node. -/
def elem? : Neighbour E Key Hash → Option E
  | path iterator => iterator.elem?
  | endNode => none

end Neighbour

/-- The loop of the operators. -/
def Node.down (side : Side) : Node E Key Hash → Iterator E Key Hash
  | leaf elem => .inside [] (leaf elem)
  | branch left right _ _ hash =>
    match side with
    | .left => (left.down side).under left right hash .left
    | .right => (right.down side).under left right hash .right

namespace Iterator

/-- A path that goes on from the end of some steps. -/
def after (steps : List (Step E Key Hash)) : Iterator E Key Hash → Iterator E Key Hash
  | genitor => genitor
  | inside more back => inside (steps ++ more) back

end Iterator

namespace MerkleTrie

/-- `operator+`. An iterator to the genitor comes from a trie with a root. -/
def plus (trie : MerkleTrie E Key Hash) : Option (Iterator E Key Hash) → Option (Neighbour E Key Hash)
  | none => none
  | some .genitor => trie.root.map fun root => .path (root.down .right)
  | some (.inside steps (.leaf elem)) => some (.path (.inside steps (.leaf elem)))
  | some (.inside steps (.branch left right _ _ hash)) =>
    some (.path (((left.down .right).under left right hash .left).after steps))

/-- `operator-`. -/
def minus : Option (Iterator E Key Hash) → Option (Neighbour E Key Hash)
  | none => none
  | some .genitor => some .endNode
  | some (.inside steps (.leaf elem)) => some (.path (.inside steps (.leaf elem)))
  | some (.inside steps (.branch left right _ _ hash)) =>
    some (.path (((right.down .left).under left right hash .right).after steps))

end MerkleTrie

variable {bits : BitElem E Key Hash} {key : Key} {node left right : Node E Key Hash} {own : Key} {depth : Nat}
  {hash : Hash} {front : List (HashType × Hash)} {steps : List (Step E Key Hash)} {elem : E}

/-! ### The loop -/

/-- To the right is the least element. -/
theorem Node.down_right (ordered : node.Ordered bits) :
    ∃ steps elem, node.down .right = .inside steps (.leaf elem) ∧ elem ∈ node.elems ∧
      ∀ other ∈ node.elems, bits.num elem ≤ bits.num other := by
  induction node with
  | leaf elem => exact ⟨[], elem, rfl, by simp [elems], by simp [elems]⟩
  | branch left right own depth hash _ ih =>
    obtain ⟨steps, elem, down, member, least⟩ := ih ordered.2.1
    refine ⟨{ left, right, hash, side := .right } :: steps, elem, ?_, ?_, fun other inside => ?_⟩
    · simp only [Node.down, down, Iterator.under]
    · exact List.mem_append_right _ member
    · rcases List.mem_append.mp inside with above | below
      · exact (ordered.2.2.1 other above elem member).1.le
      · exact least other below

/-- To the left is the greatest element. -/
theorem Node.down_left (ordered : node.Ordered bits) :
    ∃ steps elem, node.down .left = .inside steps (.leaf elem) ∧ elem ∈ node.elems ∧
      ∀ other ∈ node.elems, bits.num other ≤ bits.num elem := by
  induction node with
  | leaf elem => exact ⟨[], elem, rfl, by simp [elems], by simp [elems]⟩
  | branch left right own depth hash ih _ =>
    obtain ⟨steps, elem, down, member, greatest⟩ := ih ordered.1
    refine ⟨{ left, right, hash, side := .left } :: steps, elem, ?_, ?_, fun other inside => ?_⟩
    · simp only [Node.down, down, Iterator.under]
    · exact List.mem_append_left _ member
    · rcases List.mem_append.mp inside with above | below
      · exact greatest other above
      · exact (ordered.2.2.1 elem member other below).1.le

/-! ### The branch where the descent stops -/

/-- The stored element with the least key that is greater. -/
def IsNext (bits : BitElem E Key Hash) (elems : List E) (key : Key) (elem : E) : Prop :=
  elem ∈ elems ∧ bits.number key < bits.num elem ∧
    ∀ other ∈ elems, bits.number key < bits.num other → bits.num elem ≤ bits.num other

/-- The stored element with the greatest key that is smaller. -/
def IsPrevious (bits : BitElem E Key Hash) (elems : List E) (key : Key) (elem : E) : Prop :=
  elem ∈ elems ∧ bits.num elem < bits.number key ∧
    ∀ other ∈ elems, bits.num other < bits.number key → bits.num other ≤ bits.num elem

/-- The key is above the right child of a branch and below the left one. -/
def Between (bits : BitElem E Key Hash) (key : Key) (left right : Node E Key Hash) : Prop :=
  (∀ below ∈ right.elems, bits.num below < bits.number key) ∧ ∀ above ∈ left.elems, bits.number key < bits.num above

/-- The key is not that of an element. -/
def Absent (bits : BitElem E Key Hash) (elems : List E) (key : Key) : Prop := ∀ elem ∈ elems, bits.key elem ≠ key

theorem Absent.num_ne {elems : List E} (absent : Absent bits elems key) (member : elem ∈ elems) :
    bits.num elem ≠ bits.number key :=
  fun same => absent elem member (bits.number_injective same)

namespace Descends

/-- What is between the two children of a branch is in one of them. -/
theorem mem_or_mem (descends : Descends bits.toElem node front (.branch left right own depth hash))
    (ordered : node.Ordered bits) {low high other : E} (low_mem : low ∈ right.elems) (high_mem : high ∈ left.elems)
    (member : other ∈ node.elems) (above : bits.num low ≤ bits.num other) (below : bits.num other ≤ bits.num high) :
    other ∈ left.elems ∨ other ∈ right.elems :=
  List.mem_append.mp (descends.convex ordered (List.mem_append_right _ low_mem) (List.mem_append_left _ high_mem)
    member above below)

theorem next_iff (descends : Descends bits.toElem node front (.branch left right own depth hash))
    (ordered : node.Ordered bits) (absent : Absent bits node.elems key) (member : elem ∈ left.elems)
    (least : ∀ other ∈ left.elems, bits.num elem ≤ bits.num other) :
    IsNext bits node.elems key elem ↔ Between bits key left right := by
  obtain ⟨-, -, parted, -⟩ := descends.ordered ordered
  have inside : elem ∈ node.elems := descends.mem (List.mem_append_left _ member)
  constructor
  · rintro ⟨-, greater, next⟩
    refine ⟨fun below below_mem => ?_, fun above above_mem => greater.trans_le (least above above_mem)⟩
    have stored : below ∈ node.elems := descends.mem (List.mem_append_right _ below_mem)
    refine lt_of_le_of_ne (not_lt.mp fun beyond => ?_) (absent.num_ne stored)
    exact absurd (next below stored beyond) (parted elem member below below_mem).1.not_ge
  · rintro ⟨low, high⟩
    refine ⟨inside, high elem member, fun other other_mem greater => not_lt.mp fun smaller => ?_⟩
    obtain ⟨below, below_mem⟩ := right.exists_elem
    have reached : bits.num below ≤ bits.num other := ((low below below_mem).trans greater).le
    rcases descends.mem_or_mem ordered below_mem member other_mem reached smaller.le with in_left | in_right
    · exact absurd smaller (least other in_left).not_gt
    · exact absurd greater (low other in_right).not_gt

theorem previous_iff (descends : Descends bits.toElem node front (.branch left right own depth hash))
    (ordered : node.Ordered bits) (absent : Absent bits node.elems key) (member : elem ∈ right.elems)
    (greatest : ∀ other ∈ right.elems, bits.num other ≤ bits.num elem) :
    IsPrevious bits node.elems key elem ↔ Between bits key left right := by
  obtain ⟨-, -, parted, -⟩ := descends.ordered ordered
  have inside : elem ∈ node.elems := descends.mem (List.mem_append_right _ member)
  constructor
  · rintro ⟨-, smaller, previous⟩
    refine ⟨fun below below_mem => (greatest below below_mem).trans_lt smaller, fun above above_mem => ?_⟩
    have stored : above ∈ node.elems := descends.mem (List.mem_append_left _ above_mem)
    refine lt_of_le_of_ne (not_lt.mp fun under => ?_) (absent.num_ne stored).symm
    exact absurd (previous above stored under) (parted above above_mem elem member).1.not_ge
  · rintro ⟨low, high⟩
    refine ⟨inside, low elem member, fun other other_mem smaller => not_lt.mp fun greater => ?_⟩
    obtain ⟨above, above_mem⟩ := left.exists_elem
    have under : bits.num other ≤ bits.num above := (smaller.trans (high above above_mem)).le
    rcases descends.mem_or_mem ordered member above_mem other_mem greater.le under with in_left | in_right
    · exact absurd smaller (high other in_left).not_gt
    · exact absurd greater (greatest other in_right).not_gt

end Descends

/-- A key between two elements of a node is under it. -/
theorem Node.Ordered.descends_of_between (ordered : node.Ordered bits) {low high : E} (low_mem : low ∈ node.elems)
    (high_mem : high ∈ node.elems) (above : bits.num low ≤ bits.number key) (below : bits.number key ≤ bits.num high) :
    node.descends bits.toElem key = true :=
  descends_iff.mpr (close_trans (ordered.covers low_mem)
    (distance_le_of_between above below (ordered.close low_mem high_mem)))

namespace Reaches

theorem to_descends {back : Node E Key Hash} (reaches : Reaches bits.toElem key node steps back) :
    ∃ front, Descends bits.toElem node front back := by
  induction reaches with
  | here same => exact ⟨[], .here _⟩
  | stop not_left not_right => exact ⟨[], .here _⟩
  | left enters reaches ih =>
    obtain ⟨front, descends⟩ := ih
    exact ⟨_, descends.left⟩
  | right not_left enters reaches ih =>
    obtain ⟨front, descends⟩ := ih
    exact ⟨_, descends.right⟩

/-- The descent stops at a branch if the key is under neither child. -/
theorem under_neither (reaches : Reaches bits.toElem key node steps (.branch left right own depth hash)) :
    left.descends bits.toElem key = false ∧ right.descends bits.toElem key = false := by
  generalize target : Node.branch left right own depth hash = back at reaches
  induction reaches with
  | here same => cases target
  | stop not_left not_right =>
    cases target
    exact ⟨not_left, not_right⟩
  | left enters reaches ih => exact ih target
  | right not_left enters reaches ih => exact ih target

end Reaches

/-- The descent for a key between the two children of a branch, and under neither of them, ends at this branch. -/
theorem Descends.reaches (descends : Descends bits.toElem node front (.branch left right own depth hash))
    (ordered : node.Ordered bits) (between : Between bits key left right)
    (not_left : left.descends bits.toElem key = false) (not_right : right.descends bits.toElem key = false) :
    ∃ steps, Reaches bits.toElem key node steps (.branch left right own depth hash) := by
  obtain ⟨low, low_mem⟩ := right.exists_elem
  obtain ⟨high, high_mem⟩ := left.exists_elem
  have low_inside : low ∈ (Node.branch left right own depth hash).elems := List.mem_append_right _ low_mem
  have high_inside : high ∈ (Node.branch left right own depth hash).elems := List.mem_append_left _ high_mem
  have above := (between.1 low low_mem).le
  have below := (between.2 high high_mem).le
  have stop : Reaches bits.toElem key (.branch left right own depth hash) [] (.branch left right own depth hash) :=
    .stop not_left not_right
  generalize Node.branch left right own depth hash = back at descends low_inside high_inside stop
  induction descends with
  | here => exact ⟨[], stop⟩
  | left descends ih =>
    obtain ⟨steps, reaches⟩ := ih ordered.1 low_inside high_inside stop
    have enters := ordered.1.descends_of_between (descends.mem low_inside) (descends.mem high_inside) above below
    exact ⟨_, .left enters reaches⟩
  | right descends ih =>
    obtain ⟨steps, reaches⟩ := ih ordered.2.1 low_inside high_inside stop
    have enters := ordered.2.1.descends_of_between (descends.mem low_inside) (descends.mem high_inside) above below
    have not_left := Bool.eq_false_iff.mpr fun other => absurd enters (Bool.eq_false_iff.mp (ordered.not_both other))
    exact ⟨_, .right not_left enters reaches⟩

namespace MerkleTrie

/-- There is a branch with the key between its two children and under neither of them. -/
def HasGap (bits : BitElem E Key Hash) (trie : MerkleTrie E Key Hash) (key : Key) : Prop :=
  ∃ root ∈ trie.root, ∃ front left right own depth hash,
    Descends bits.toElem root front (.branch left right own depth hash) ∧ Between bits key left right ∧
      left.descends bits.toElem key = false ∧ right.descends bits.toElem key = false

/-- The key is below all elements, and not under the root. -/
def Precedes (bits : BitElem E Key Hash) (trie : MerkleTrie E Key Hash) (key : Key) : Prop :=
  ∃ root ∈ trie.root, root.descends bits.toElem key = false ∧ ∀ elem ∈ root.elems, bits.number key < bits.num elem

variable {trie : MerkleTrie E Key Hash} {root : Node E Key Hash}

/-- At the genitor `operator+` leads to the least of all elements. -/
theorem plus_genitor_iff (is_root : trie.root = some root) (ordered : root.Ordered bits) :
    (∀ next ∈ trie.plus (some .genitor), ∃ elem, next.elem? = some elem ∧ IsNext bits root.elems key elem) ↔
      ∀ elem ∈ root.elems, bits.number key < bits.num elem := by
  obtain ⟨steps, least, down, member, least_le⟩ := Node.down_right ordered
  simp only [plus, is_root, down, Option.map_some, Option.mem_some_iff, forall_eq', Neighbour.elem?, Iterator.elem?,
    Option.some.injEq, exists_eq_left']
  constructor
  · rintro ⟨-, greater, -⟩ other other_mem
    exact greater.trans_le (least_le other other_mem)
  · intro below
    exact ⟨member, below least member, fun other other_mem _ => least_le other other_mem⟩

/-- At a branch it leads to the least element of the left child. -/
theorem plus_branch_iff (ordered : root.Ordered bits) (absent : Absent bits root.elems key)
    (descends : Descends bits.toElem root front (.branch left right own depth hash)) :
    (∀ next ∈ trie.plus (some (.inside steps (.branch left right own depth hash))),
        ∃ elem, next.elem? = some elem ∧ IsNext bits root.elems key elem) ↔ Between bits key left right := by
  obtain ⟨left_ordered, -, -, -⟩ := descends.ordered ordered
  obtain ⟨more, least, down, member, least_le⟩ := Node.down_right left_ordered
  simp only [plus, down, Iterator.under, Iterator.after, Option.mem_some_iff, forall_eq', Neighbour.elem?,
    Iterator.elem?, Option.some.injEq, exists_eq_left']
  exact descends.next_iff ordered absent member least_le

/-- `operator-` leads to the greatest element of the right child. -/
theorem minus_branch_iff (ordered : root.Ordered bits) (absent : Absent bits root.elems key)
    (descends : Descends bits.toElem root front (.branch left right own depth hash)) :
    (∀ previous ∈ minus (some (.inside steps (.branch left right own depth hash))),
        ∃ elem, previous.elem? = some elem ∧ IsPrevious bits root.elems key elem) ↔ Between bits key left right := by
  obtain ⟨-, right_ordered, -, -⟩ := descends.ordered ordered
  obtain ⟨more, greatest, down, member, le_greatest⟩ := Node.down_left right_ordered
  simp only [minus, down, Iterator.under, Iterator.after, Option.mem_some_iff, forall_eq', Neighbour.elem?,
    Iterator.elem?, Option.some.injEq, exists_eq_left']
  exact descends.previous_iff ordered absent member le_greatest

/-- The branch with the gap is the one where the descent stops. -/
theorem hasGap_iff (is_root : trie.root = some root) (ordered : root.Ordered bits)
    (reaches : Reaches bits.toElem key root steps (.branch left right own depth hash)) :
    trie.HasGap bits key ↔ Between bits key left right := by
  constructor
  · rintro ⟨root', same, front, left', right', own', depth', hash', descends, between, not_left, not_right⟩
    obtain rfl : root = root' := Option.some.inj (is_root.symm.trans same)
    obtain ⟨steps', reaches'⟩ := descends.reaches ordered between not_left not_right
    have back := Option.some.inj (reaches.find.symm.trans reaches'.find)
    cases back
    exact between
  · intro between
    obtain ⟨front, descends⟩ := reaches.to_descends
    exact ⟨root, is_root, front, left, right, own, depth, hash, descends, between, reaches.under_neither⟩

/-- There is no gap for a key that is not under the root. -/
theorem not_hasGap (is_root : trie.root = some root) (ordered : root.Ordered bits)
    (outside : root.descends bits.toElem key = false) : ¬trie.HasGap bits key := by
  rintro ⟨root', same, front, left, right, own, depth, hash, descends, between, -, -⟩
  obtain rfl : root = root' := Option.some.inj (is_root.symm.trans same)
  obtain ⟨low, low_mem⟩ := right.exists_elem
  obtain ⟨high, high_mem⟩ := left.exists_elem
  have inside := ordered.descends_of_between (descends.mem (List.mem_append_right _ low_mem))
    (descends.mem (List.mem_append_left _ high_mem)) (between.1 low low_mem).le (between.2 high high_mem).le
  exact absurd inside (Bool.eq_false_iff.mp outside)

theorem precedes_iff (is_root : trie.root = some root) : trie.Precedes bits key ↔
    root.descends bits.toElem key = false ∧ ∀ elem ∈ root.elems, bits.number key < bits.num elem := by
  unfold Precedes
  rw [is_root]
  simp

/-- **When the neighbours are right**: both exactly if there is no element, or the key is between the two children of
a branch and under neither of them; and the greater one also for a key below all elements that is not under the root. -/
theorem neighbours_exact (calls : List (TrieOp E Key))
    (absent : Absent bits (empty.run bits.toElem calls).2.elems key) :
    let trie := (empty.run bits.toElem calls).2
    let found := trie.find bits.toElem key
    ((∀ next ∈ trie.plus found, ∃ elem, next.elem? = some elem ∧ IsNext bits trie.elems key elem) ↔
        trie.elems = [] ∨ trie.HasGap bits key ∨ trie.Precedes bits key) ∧
      ((∀ previous ∈ minus found, ∃ elem, previous.elem? = some elem ∧ IsPrevious bits trie.elems key elem) ↔
        trie.elems = [] ∨ trie.HasGap bits key) := by
  intro trie found
  have ordered : trie.Ordered bits := ordered_empty.run calls
  change Absent bits trie.elems key at absent
  cases is_root : trie.root with
  | none =>
    have found_none : found = none := by simp [found, find, is_root]
    have no_elems : trie.elems = [] := by simp [MerkleTrie.elems, is_root, Node.elemsOf]
    rw [found_none, no_elems]
    simp [plus, minus]
  | some root =>
    have root_ordered : root.Ordered bits := ordered root is_root
    have elems : trie.elems = root.elems := by simp [MerkleTrie.elems, is_root, Node.elemsOf]
    have some_elem : root.elems ≠ [] := List.ne_nil_of_mem root.exists_elem.choose_spec
    rw [elems] at absent
    rw [elems, precedes_iff is_root]
    cases enters : root.descends bits.toElem key with
    | false =>
      have found_genitor : found = some .genitor := by simp [found, find, is_root, enters]
      rw [found_genitor, plus_genitor_iff is_root root_ordered]
      simp [minus, Neighbour.elem?, some_elem, not_hasGap is_root root_ordered enters]
    | true =>
      obtain ⟨steps, back, reaches⟩ := Reaches.exists_of_descends enters
      have found_inside : found = some (.inside steps back) := by simp [found, find, is_root, enters, reaches.find]
      cases back with
      | leaf elem =>
        obtain ⟨member, same⟩ := reaches.mem
        exact absurd same (absent elem member)
      | branch left right own depth hash =>
        obtain ⟨front, descends⟩ := reaches.to_descends
        rw [found_inside, plus_branch_iff root_ordered absent descends,
          minus_branch_iff root_ordered absent descends, hasGap_iff is_root root_ordered reaches]
        simp [some_elem]

open Libcoin.Small Spendables

/-- The coins 0, 4 and 5. -/
def threeCoins : List (TrieOp Spendable CoinKey) := (fourCoins.drop 1).take 3

/-- Coin 2 is between the two children of the root. -/
theorem neighbours_exact_three :
    let trie := (empty.run symbolic.toElem threeCoins).2
    let found := trie.find symbolic.toElem (symbolic.key (coinAt 2))
    ((∀ next ∈ trie.plus found, ∃ elem, next.elem? = some elem ∧
          IsNext symbolic trie.elems (symbolic.key (coinAt 2)) elem) ↔
        trie.elems = [] ∨ trie.HasGap symbolic (symbolic.key (coinAt 2)) ∨
          trie.Precedes symbolic (symbolic.key (coinAt 2))) ∧
      ((∀ previous ∈ minus found, ∃ elem, previous.elem? = some elem ∧
          IsPrevious symbolic trie.elems (symbolic.key (coinAt 2)) elem) ↔
        trie.elems = [] ∨ trie.HasGap symbolic (symbolic.key (coinAt 2))) :=
  neighbours_exact threeCoins (by unfold Absent; decide)

/-- For coin 6, the greater neighbour is coin 4 and the smaller one is coin 0. -/
theorem neighbours_not_exact :
    let trie := (empty.run symbolic.toElem threeCoins).2
    let found := trie.find symbolic.toElem (symbolic.key (coinAt 6))
    Absent symbolic trie.elems (symbolic.key (coinAt 6)) ∧
      (¬∀ next ∈ trie.plus found, ∃ elem, next.elem? = some elem ∧
        IsNext symbolic trie.elems (symbolic.key (coinAt 6)) elem) ∧
      ¬∀ previous ∈ minus found, ∃ elem, previous.elem? = some elem ∧
        IsPrevious symbolic trie.elems (symbolic.key (coinAt 6)) elem := by
  intro trie found
  have four : (trie.plus found).bind Neighbour.elem? = some (coinAt 4) := by decide
  have zero : (minus found).bind Neighbour.elem? = some (coinAt 0) := by decide
  refine ⟨by unfold Absent; decide, fun exact => ?_, fun exact => ?_⟩
  · obtain ⟨next, member, is⟩ := Option.bind_eq_some_iff.mp four
    obtain ⟨elem, same, -, greater, -⟩ := exact next member
    obtain rfl := Option.some.inj (is.symm.trans same)
    exact absurd greater (by decide)
  · obtain ⟨previous, member, is⟩ := Option.bind_eq_some_iff.mp zero
    obtain ⟨elem, same, -, -, greatest⟩ := exact previous member
    obtain rfl := Option.some.inj (is.symm.trans same)
    exact absurd (greatest (coinAt 5) (by decide) (by decide)) (by decide)

end MerkleTrie

end Libcoin
