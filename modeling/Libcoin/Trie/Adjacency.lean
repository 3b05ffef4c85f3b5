/-
Proofs of adjacency: `Branch::consecutive`.

* `Passes` are the entries beside the path to an element, and `Descends` those down to a node. The two paths of
  different elements part at a branch (`Passes.parts`).
* `Passes.straight_right` and `Passes.straight_left`: a path keeps to one side exactly when it leads to the greatest
  or the least element.
-/

import Libcoin.Trie.Membership
import Mathlib.Data.List.Nodup

namespace Libcoin

variable {E Key Hash : Type}

namespace Branch

/-- The place at which two branches part, or the size of the shorter one. -/
def fork [DecidableEq Hash] : Branch Hash → Branch Hash → Nat
  | low :: lower, up :: upper => if low ≠ up then 0 else fork lower upper + 1
  | _, _ => 0

/-- A loop of `consecutive` over a number of entries from the place `j` on. `none` is a read beyond the end. -/
def keepsTo (branch : Branch Hash) (kind : HashType) : Nat → Nat → Option Bool
  | 0, _ => some true
  | count + 1, j => do
    let entry ← branch[j]?
    if entry.1 = .leaf then return true
    else if entry.1 ≠ kind then return false
    else keepsTo branch kind count (j + 1)

/-- `consecutive`. Both loops go up to the size of the lower branch. -/
def consecutive [DecidableEq Hash] (lower upper : Branch Hash) : Option Bool :=
  let i := fork lower upper
  if i = min lower.length upper.length then some false
  else do
    let low ← lower[i]?
    if low.1 ≠ .left then return false
    else
      let lowKeeps ← keepsTo lower .right (lower.length - (i + 1)) (i + 1)
      if !lowKeeps then return false
      else
        let up ← upper[i]?
        if up.1 ≠ .right then return false
        else keepsTo upper .left (lower.length - (i + 1)) (i + 1)

/-- All entries before the leaf are of one kind. -/
def Straight (kind : HashType) (entries : List (HashType × Hash)) : Prop :=
  ∀ entry ∈ entries, entry.1 = kind ∨ entry.1 = .leaf

instance (kind : HashType) (entries : List (HashType × Hash)) : Decidable (Straight kind entries) :=
  inferInstanceAs (Decidable (∀ entry ∈ entries, _))

theorem straight_cons {kind : HashType} {entry : HashType × Hash} {entries : List (HashType × Hash)} :
    Straight kind (entry :: entries) ↔ (entry.1 = kind ∨ entry.1 = .leaf) ∧ Straight kind entries :=
  List.forall_mem_cons

theorem drop_succ {branch entries : Branch Hash} {entry : HashType × Hash} {j : Nat}
    (rest : branch.drop j = entry :: entries) : branch.drop (j + 1) = entries := by
  rw [← List.drop_drop, rest]
  rfl

/-- A loop goes on after an entry that is no leaf. -/
theorem keepsTo_inner {kind : HashType} {branch : Branch Hash} {entry : HashType × Hash}
    {entries : List (HashType × Hash)} {j : Nat} (rest : branch.drop j = entry :: entries) (inner : entry.1 ≠ .leaf)
    (count : Nat) (loop : keepsTo branch kind count (j + 1) = some (decide (Straight kind (entries.take count)))) :
    keepsTo branch kind (count + 1) j = some (decide (Straight kind ((entry :: entries).take (count + 1)))) := by
  have read : branch[j]? = some entry := by
    rw [← List.head?_drop, rest]
    rfl
  unfold keepsTo
  rw [read]
  show (if entry.1 = .leaf then some true else if entry.1 ≠ kind then some false
    else keepsTo branch kind count (j + 1)) = _
  rw [if_neg inner, loop]
  by_cases same : entry.1 = kind
  · rw [if_neg (not_not.mpr same)]
    congr 1
    rw [decide_eq_decide, List.take_succ_cons, straight_cons, and_iff_right (.inl same)]
  · rw [if_pos same, decide_eq_false]
    intro straight
    exact same ((straight_cons.mp straight).1.resolve_right inner)

theorem fork_append [DecidableEq Hash] (front : Branch Hash) {low up : HashType × Hash} (different : low ≠ up)
    (lower upper : Branch Hash) : fork (front ++ low :: lower) (front ++ up :: upper) = front.length := by
  induction front with
  | nil => exact if_pos different
  | cons entry front ih =>
    show (if entry ≠ entry then 0 else fork (front ++ low :: lower) (front ++ up :: upper) + 1) = _
    rw [if_neg (not_not.mpr rfl), ih]
    rfl

theorem fork_self [DecidableEq Hash] (branch : Branch Hash) : fork branch branch = branch.length := by
  induction branch with
  | nil => rfl
  | cons entry branch ih =>
    show (if entry ≠ entry then 0 else fork branch branch + 1) = _
    rw [if_neg (not_not.mpr rfl), ih]
    rfl

end Branch

open Branch

/-! ### Paths -/

/-- The entries beside the path from a node to an element, its leaf last. -/
inductive Passes (ops : Elem E Key Hash) : Node E Key Hash → E → List (HashType × Hash) → Prop
  | here (elem : E) : Passes ops (.leaf elem) elem [(.leaf, ops.hash elem)]
  | left {left right : Node E Key Hash} {own : Key} {depth : Nat} {hash : Hash} {elem : E}
    {entries : List (HashType × Hash)} (passes : Passes ops left elem entries) :
    Passes ops (.branch left right own depth hash) elem ((.right, right.hash ops) :: entries)
  | right {left right : Node E Key Hash} {own : Key} {depth : Nat} {hash : Hash} {elem : E}
    {entries : List (HashType × Hash)} (passes : Passes ops right elem entries) :
    Passes ops (.branch left right own depth hash) elem ((.left, left.hash ops) :: entries)

/-- The entries beside the path from a node to one below it. -/
inductive Descends (ops : Elem E Key Hash) : Node E Key Hash → List (HashType × Hash) → Node E Key Hash → Prop
  | here (node : Node E Key Hash) : Descends ops node [] node
  | left {left right below : Node E Key Hash} {own : Key} {depth : Nat} {hash : Hash}
    {front : List (HashType × Hash)} (descends : Descends ops left front below) :
    Descends ops (.branch left right own depth hash) ((.right, right.hash ops) :: front) below
  | right {left right below : Node E Key Hash} {own : Key} {depth : Nat} {hash : Hash}
    {front : List (HashType × Hash)} (descends : Descends ops right front below) :
    Descends ops (.branch left right own depth hash) ((.left, left.hash ops) :: front) below

variable {bits : BitElem E Key Hash} {node : Node E Key Hash} {elem other : E}
  {entries others : List (HashType × Hash)}

namespace Passes

theorem mem {ops : Elem E Key Hash} (passes : Passes ops node elem entries) : elem ∈ node.elems := by
  induction passes with
  | here elem => exact List.mem_singleton_self elem
  | left passes ih => exact List.mem_append_left _ ih
  | right passes ih => exact List.mem_append_right _ ih

/-- A path that goes on within another one is the same. -/
theorem elem_eq_of_prefix {ops : Elem E Key Hash} (passes : Passes ops node elem entries)
    (longer : Passes ops node other (entries ++ others)) : elem = other := by
  induction passes generalizing other with
  | here elem => cases longer; rfl
  | left passes ih => cases longer with | left longer => exact ih longer
  | right passes ih => cases longer with | right longer => exact ih longer

theorem unique (ordered : node.Ordered bits) (passes : Passes bits.toElem node elem entries)
    (second : Passes bits.toElem node elem others) : entries = others := by
  induction passes generalizing others with
  | here elem =>
    cases second
    rfl
  | left passes ih =>
    cases second with
    | left second => rw [ih ordered.1 second]
    | right second => exact absurd (ordered.2.2.1 _ passes.mem _ second.mem).1 (lt_irrefl _)
  | right passes ih =>
    cases second with
    | left second => exact absurd (ordered.2.2.1 _ second.mem _ passes.mem).1 (lt_irrefl _)
    | right second => rw [ih ordered.2.1 second]

/-- The path of the descent for a key. -/
theorem of_reaches {ops : Elem E Key Hash} {key : Key} {steps : List (Step E Key Hash)}
    (reaches : Reaches ops key node steps (.leaf elem)) :
    Passes ops node elem (steps.map (Iterator.entry ops) ++ [(.leaf, ops.hash elem)]) := by
  generalize target : Node.leaf elem = back at reaches
  induction reaches with
  | here same =>
    cases target
    exact .here elem
  | stop => cases target
  | left enters reaches ih => exact (ih target).left
  | right not_left enters reaches ih => exact (ih target).right

/-- What a loop over the entries of a path finds. It ends with the leaf, so nothing beyond it is read. -/
theorem keepsTo_eq {ops : Elem E Key Hash} (passes : Passes ops node elem entries) (kind : HashType)
    (branch : Branch Hash) (count j : Nat) (rest : branch.drop j = entries) :
    keepsTo branch kind count j = some (decide (Straight kind (entries.take count))) := by
  induction passes generalizing count j with
  | here elem =>
    cases count with
    | zero => rfl
    | succ count =>
      have read : branch[j]? = some (.leaf, ops.hash elem) := by
        rw [← List.head?_drop, rest]
        rfl
      unfold keepsTo
      rw [read]
      show some true = _
      rw [List.take_of_length_le (by exact Nat.le_add_left 1 count), decide_eq_true]
      exact List.forall_mem_singleton.mpr (.inr rfl)
  | left passes ih =>
    cases count with
    | zero => rfl
    | succ count =>
      exact keepsTo_inner rest (fun leaf => by cases leaf) count (ih count (j + 1) (drop_succ rest))
  | right passes ih =>
    cases count with
    | zero => rfl
    | succ count =>
      exact keepsTo_inner rest (fun leaf => by cases leaf) count (ih count (j + 1) (drop_succ rest))

/-- **The path to the greatest element** passes right children only. -/
theorem straight_right (ordered : node.Ordered bits) (passes : Passes bits.toElem node elem entries) :
    Straight .right entries ↔ ∀ other ∈ node.elems, bits.num other ≤ bits.num elem := by
  induction passes with
  | here elem =>
    refine iff_of_true (List.forall_mem_singleton.mpr (.inr rfl)) fun other member => ?_
    rw [List.mem_singleton.mp member]
  | left passes ih =>
    rw [straight_cons, and_iff_right (.inl rfl), ih ordered.1]
    refine ⟨fun most other member => ?_, fun most other member => most other (List.mem_append_left _ member)⟩
    rcases List.mem_append.mp member with inside | below
    · exact most other inside
    · exact (ordered.2.2.1 _ passes.mem other below).1.le
  | right passes ih =>
    refine iff_of_false (fun straight => ?_) fun most => ?_
    · rcases (straight_cons.mp straight).1 with kind | kind <;> cases kind
    · rename_i left _ _ _ _ _ _
      obtain ⟨above, member⟩ := left.exists_elem
      exact absurd (most above (List.mem_append_left _ member)) (ordered.2.2.1 above member _ passes.mem).1.not_ge

/-- **The path to the least element** passes left children only. -/
theorem straight_left (ordered : node.Ordered bits) (passes : Passes bits.toElem node elem entries) :
    Straight .left entries ↔ ∀ other ∈ node.elems, bits.num elem ≤ bits.num other := by
  induction passes with
  | here elem =>
    refine iff_of_true (List.forall_mem_singleton.mpr (.inr rfl)) fun other member => ?_
    rw [List.mem_singleton.mp member]
  | right passes ih =>
    rw [straight_cons, and_iff_right (.inl rfl), ih ordered.2.1]
    refine ⟨fun least other member => ?_, fun least other member => least other (List.mem_append_right _ member)⟩
    rcases List.mem_append.mp member with above | inside
    · exact (ordered.2.2.1 other above _ passes.mem).1.le
    · exact least other inside
  | left passes ih =>
    refine iff_of_false (fun straight => ?_) fun least => ?_
    · rcases (straight_cons.mp straight).1 with kind | kind <;> cases kind
    · rename_i right _ _ _ _ _
      obtain ⟨below, member⟩ := right.exists_elem
      exact absurd (least below (List.mem_append_right _ member)) (ordered.2.2.1 _ passes.mem below member).1.not_ge

/-- Every node has a least element. -/
theorem exists_least (ops : Elem E Key Hash) (node : Node E Key Hash) :
    ∃ elem entries, Passes ops node elem entries ∧ Straight .left entries := by
  induction node with
  | leaf elem => exact ⟨elem, _, .here elem, List.forall_mem_singleton.mpr (.inr rfl)⟩
  | branch left right own depth hash left_ih right_ih =>
    obtain ⟨elem, entries, passes, straight⟩ := right_ih
    exact ⟨elem, _, passes.right, straight_cons.mpr ⟨.inl rfl, straight⟩⟩

/-- A path that keeps to the least element for a while agrees with the path to it. -/
theorem take_eq_of_straight {ops : Elem E Key Hash} (passes : Passes ops node elem entries) {count : Nat}
    (straight : Straight .left (entries.take count)) (least : Passes ops node other others)
    (whole : Straight .left others) : entries.take count = others.take count := by
  induction passes generalizing count others with
  | here elem =>
    cases least
    rfl
  | left passes ih =>
    cases count with
    | zero => rfl
    | succ count => rcases (straight_cons.mp straight).1 with kind | kind <;> cases kind
  | right passes ih =>
    cases count with
    | zero => rfl
    | succ count =>
      cases least with
      | left least => rcases (straight_cons.mp whole).1 with kind | kind <;> cases kind
      | right least =>
        rw [List.take_succ_cons, List.take_succ_cons,
          ih (straight_cons.mp straight).2 least (straight_cons.mp whole).2]

end Passes

namespace Descends

variable {ops : Elem E Key Hash} {below : Node E Key Hash} {front : List (HashType × Hash)}

/-- The paths through a node. -/
theorem passes_iff (descends : Descends ops node front below) :
    Passes ops node elem (front ++ entries) ↔ Passes ops below elem entries := by
  induction descends with
  | here => rfl
  | left descends ih =>
    refine ⟨fun passes => ?_, fun passes => (ih.mpr passes).left⟩
    cases passes with
    | left passes => exact ih.mp passes
  | right descends ih =>
    refine ⟨fun passes => ?_, fun passes => (ih.mpr passes).right⟩
    cases passes with
    | right passes => exact ih.mp passes

theorem mem (descends : Descends ops node front below) (member : elem ∈ below.elems) : elem ∈ node.elems := by
  induction descends with
  | here => exact member
  | left descends ih => exact List.mem_append_left _ (ih member)
  | right descends ih => exact List.mem_append_right _ (ih member)

theorem ordered (descends : Descends bits.toElem node front below) (start : node.Ordered bits) :
    below.Ordered bits := by
  induction descends with
  | here => exact start
  | left descends ih => exact ih start.1
  | right descends ih => exact ih start.2.1

/-- What lies between two elements of a node is one of its elements. -/
theorem convex (descends : Descends bits.toElem node front below) (ordered : node.Ordered bits) {least most : E}
    (least_mem : least ∈ below.elems) (most_mem : most ∈ below.elems) (member : elem ∈ node.elems)
    (above : bits.num least ≤ bits.num elem) (under : bits.num elem ≤ bits.num most) : elem ∈ below.elems := by
  induction descends with
  | here => exact member
  | left descends ih =>
    refine ih ordered.1 least_mem most_mem ((List.mem_append.mp member).resolve_right fun right => ?_)
    exact absurd above (ordered.2.2.1 least (descends.mem least_mem) elem right).1.not_ge
  | right descends ih =>
    refine ih ordered.2.1 least_mem most_mem ((List.mem_append.mp member).resolve_left fun left => ?_)
    exact absurd under (ordered.2.2.1 elem left most (descends.mem most_mem)).1.not_ge

end Descends

namespace Passes

/-- **Two paths part** at a branch, one to each side. -/
theorem parts {ops : Elem E Key Hash} (passes : Passes ops node elem entries) (second : Passes ops node other others)
    (different : elem ≠ other) :
    ∃ front left right own depth hash one two, Descends ops node front (.branch left right own depth hash) ∧
      (Passes ops right elem one ∧ Passes ops left other two ∧ entries = front ++ (.left, left.hash ops) :: one ∧
          others = front ++ (.right, right.hash ops) :: two ∨
        Passes ops left elem one ∧ Passes ops right other two ∧ entries = front ++ (.right, right.hash ops) :: one ∧
          others = front ++ (.left, left.hash ops) :: two) := by
  induction passes generalizing others with
  | here elem =>
    cases second
    exact absurd rfl different
  | left passes ih =>
    cases second with
    | left second =>
      obtain ⟨front, left, right, own, depth, hash, one, two, descends, ends⟩ := ih second different
      refine ⟨_ :: front, left, right, own, depth, hash, one, two, descends.left, ends.imp ?_ ?_⟩
      · exact fun ⟨first, last, low, up⟩ => ⟨first, last, congrArg _ low, congrArg _ up⟩
      · exact fun ⟨first, last, low, up⟩ => ⟨first, last, congrArg _ low, congrArg _ up⟩
    | right second => exact ⟨[], _, _, _, _, _, _, _, .here _, .inr ⟨passes, second, rfl, rfl⟩⟩
  | right passes ih =>
    cases second with
    | left second => exact ⟨[], _, _, _, _, _, _, _, .here _, .inl ⟨passes, second, rfl, rfl⟩⟩
    | right second =>
      obtain ⟨front, left, right, own, depth, hash, one, two, descends, ends⟩ := ih second different
      refine ⟨_ :: front, left, right, own, depth, hash, one, two, descends.right, ends.imp ?_ ?_⟩
      · exact fun ⟨first, last, low, up⟩ => ⟨first, last, congrArg _ low, congrArg _ up⟩
      · exact fun ⟨first, last, low, up⟩ => ⟨first, last, congrArg _ low, congrArg _ up⟩

end Passes

/-! ### Answers -/

namespace Branch

variable {ops : Elem E Key Hash} {left right : Node E Key Hash} {front one two : Branch Hash} {first second : Hash}

theorem drop_append_cons (front : Branch Hash) (entry : HashType × Hash) (rest : Branch Hash) :
    (front ++ entry :: rest).drop (front.length + 1) = rest := by
  rw [List.drop_append, List.drop_of_length_le (Nat.le_succ _), Nat.add_sub_cancel_left]
  rfl

theorem getElem?_append_cons (front : Branch Hash) (entry : HashType × Hash) (rest : Branch Hash) :
    (front ++ entry :: rest)[front.length]? = some entry := by
  rw [List.getElem?_append_right le_rfl, Nat.sub_self]
  rfl

theorem parting_ne_min (front : Branch Hash) (low up : HashType × Hash) (one two : Branch Hash) :
    front.length ≠ min (front ++ low :: one).length (front ++ up :: two).length := by
  rw [List.length_append, List.length_append, List.length_cons, List.length_cons]
  omega

/-- The lower branch parts to the lower side. -/
theorem consecutive_ascending [DecidableEq Hash] (lower : Passes ops right elem one)
    (upper : Passes ops left other two) :
    consecutive (front ++ (.left, first) :: one) (front ++ (.right, second) :: two) =
      some (decide (Straight .right one) && decide (Straight .left (two.take one.length))) := by
  have different : ((.left, first) : HashType × Hash) ≠ (.right, second) := fun same => by cases same
  have size : (front ++ (.left, first) :: one : Branch Hash).length - (front.length + 1) = one.length := by
    rw [List.length_append, List.length_cons]
    omega
  unfold consecutive
  rw [fork_append front different, if_neg (parting_ne_min _ _ _ _ _), getElem?_append_cons, size,
    lower.keepsTo_eq .right _ _ _ (drop_append_cons _ _ _), List.take_length]
  show (if !decide (Straight .right one) then some false
    else do
      let up ← (front ++ (.right, second) :: two)[front.length]?
      if up.1 ≠ .right then some false
      else keepsTo (front ++ (.right, second) :: two) .left one.length (front.length + 1)) = _
  cases decide (Straight .right one) with
  | false => rfl
  | true =>
    rw [getElem?_append_cons]
    exact upper.keepsTo_eq .left _ _ _ (drop_append_cons _ _ _)

/-- The lower branch parts to the upper side. -/
theorem consecutive_descending [DecidableEq Hash] :
    consecutive (front ++ (.right, first) :: one) (front ++ (.left, second) :: two) = some false := by
  have different : ((.right, first) : HashType × Hash) ≠ (.left, second) := fun same => by cases same
  unfold consecutive
  rw [fork_append front different, if_neg (parting_ne_min _ _ _ _ _), getElem?_append_cons]
  rfl

theorem consecutive_self [DecidableEq Hash] (branch : Branch Hash) : consecutive branch branch = some false := by
  unfold consecutive
  rw [fork_self, min_self, if_pos rfl]

end Branch

/-- The second element comes right after the first one in the order of the keys. -/
def Successor (bits : BitElem E Key Hash) (elems : List E) (lo up : E) : Prop :=
  up ∈ elems ∧ bits.num lo < bits.num up ∧ ∀ e ∈ elems, ¬(bits.num lo < bits.num e ∧ bits.num e < bits.num up)

theorem Successor.eq {elems : List E} {lo up up' : E} (nodup : (elems.map bits.num).Nodup)
    (next : Successor bits elems lo up) (next' : Successor bits elems lo up') : up = up' := by
  refine List.inj_on_of_nodup_map nodup next.1 next'.1 (le_antisymm ?_ ?_)
  · exact not_lt.mp fun less => next.2.2 up' next'.1 ⟨next'.2.1, less⟩
  · exact not_lt.mp fun less => next'.2.2 up next.1 ⟨next.2.1, less⟩

section Parting

variable {left right : Node E Key Hash} {own : Key} {depth : Nat} {hash : Hash} {front : List (HashType × Hash)}
  {lo up : E} {one two : List (HashType × Hash)}

/-- **At the node where the paths part** the lower element is the greatest of its side, and the upper one the least.
-/
theorem successor_iff (ordered : node.Ordered bits)
    (descends : Descends bits.toElem node front (.branch left right own depth hash)) (lo_right : lo ∈ right.elems)
    (up_left : up ∈ left.elems) :
    Successor bits node.elems lo up ↔
      (∀ e ∈ right.elems, bits.num e ≤ bits.num lo) ∧ ∀ e ∈ left.elems, bits.num up ≤ bits.num e := by
  obtain ⟨-, -, parted, -⟩ := descends.ordered ordered
  have from_left {e : E} (member : e ∈ left.elems) : e ∈ node.elems := descends.mem (List.mem_append_left _ member)
  have from_right {e : E} (member : e ∈ right.elems) : e ∈ node.elems := descends.mem (List.mem_append_right _ member)
  constructor
  · rintro ⟨-, -, between⟩
    refine ⟨fun e member => not_lt.mp fun above => ?_, fun e member => not_lt.mp fun under => ?_⟩
    · exact between e (from_right member) ⟨above, (parted up up_left e member).1⟩
    · exact between e (from_left member) ⟨(parted e member lo lo_right).1, under⟩
  · rintro ⟨most, least⟩
    refine ⟨from_left up_left, (parted up up_left lo lo_right).1, ?_⟩
    rintro e member ⟨above, under⟩
    have inside := descends.convex ordered (List.mem_append_right _ lo_right) (List.mem_append_left _ up_left) member
      above.le under.le
    rcases List.mem_append.mp inside with e_left | e_right
    · exact (least e e_left).not_gt under
    · exact (most e e_right).not_gt above

/-- The answer for paths that part upwards. -/
theorem ascending_exact (ordered : node.Ordered bits)
    (descends : Descends bits.toElem node front (.branch left right own depth hash))
    (lower : Passes bits.toElem right lo one) (upper : Passes bits.toElem left up two) :
    ((Straight .right one ∧ Straight .left (two.take one.length)) ↔ Successor bits node.elems lo up) ↔
      ∀ next entries, Successor bits node.elems lo next → Passes bits.toElem node next entries → next = up ∨
        entries.take (front ++ (HashType.left, left.hash bits.toElem) :: one).length ≠
          (front ++ (HashType.right, right.hash bits.toElem) :: two).take
            (front ++ (HashType.left, left.hash bits.toElem) :: one).length := by
  obtain ⟨left_ordered, right_ordered, parted, -⟩ := descends.ordered ordered
  have size : (front ++ (HashType.left, left.hash bits.toElem) :: one).length = front.length + (one.length + 1) := by
    rw [List.length_append, List.length_cons]
  have cut (rest : List (HashType × Hash)) :
      (front ++ (HashType.right, right.hash bits.toElem) :: rest).take (front.length + (one.length + 1)) =
        front ++ (HashType.right, right.hash bits.toElem) :: rest.take one.length := by
    rw [List.take_length_add_append, List.take_succ_cons]
  rw [size, cut, successor_iff ordered descends lower.mem upper.mem, ← lower.straight_right right_ordered,
    ← upper.straight_left left_ordered]
  constructor
  · -- the successor has no path that agrees with this one, as the answer would be wrong
    intro exact_answer next entries successor passes
    by_contra alike
    push Not at alike
    obtain ⟨other, same⟩ := alike
    obtain ⟨rest, read, passed, agrees⟩ : ∃ rest, entries = front ++ (.right, right.hash bits.toElem) :: rest ∧
        Passes bits.toElem left next rest ∧ rest.take one.length = two.take one.length := by
      have whole := List.take_append_drop (front.length + (one.length + 1)) entries
      rw [same, List.append_assoc, List.cons_append] at whole
      rw [← whole] at passes same
      have below := descends.passes_iff.mp passes
      cases below with
      | left below =>
        refine ⟨_, whole.symm, below, ?_⟩
        rw [cut] at same
        exact (List.cons.inj (List.append_cancel_left same)).2
    obtain ⟨most, least⟩ := (successor_iff ordered descends lower.mem passed.mem).mp successor
    have straight := (passed.straight_left left_ordered).mpr least
    have answered := exact_answer.mp ⟨(lower.straight_right right_ordered).mpr most, fun entry member =>
      straight entry (List.mem_of_mem_take (agrees ▸ member))⟩
    refine other (successor.eq ordered.nodup ((successor_iff ordered descends lower.mem upper.mem).mpr ⟨most, ?_⟩))
    exact (upper.straight_left left_ordered).mp answered.2
  · intro apart
    refine ⟨fun answered => ⟨answered.1, ?_⟩,
      fun both => ⟨both.1, fun entry member => both.2 entry (List.mem_of_mem_take member)⟩⟩
    obtain ⟨next, entries, passes, straight⟩ := Passes.exists_least bits.toElem left
    have successor := (successor_iff ordered descends lower.mem passes.mem).mpr
      ⟨(lower.straight_right right_ordered).mp answered.1, (passes.straight_left left_ordered).mp straight⟩
    rcases apart next _ successor (descends.passes_iff.mpr passes.left) with rfl | different
    · exact (upper.straight_left left_ordered).mpr ((passes.straight_left left_ordered).mp straight)
    · refine absurd ?_ different
      rw [cut, upper.take_eq_of_straight answered.2 passes straight]

end Parting

/-- **The answer** for two paths of a node, under one first entry. -/
theorem consecutive_node [DecidableEq Hash] (ordered : node.Ordered bits) (root : HashType × Hash) {lo up : E}
    {low high : List (HashType × Hash)} (lower : Passes bits.toElem node lo low)
    (upper : Passes bits.toElem node up high) :
    ∃ answer, consecutive (root :: low) (root :: high) = some answer ∧
      ((answer = true ↔ Successor bits node.elems lo up) ↔
        ∀ next entries, Successor bits node.elems lo next → Passes bits.toElem node next entries →
          next = up ∨ entries.take low.length ≠ high.take low.length) := by
  by_cases same : lo = up
  · subst same
    obtain rfl : low = high := lower.unique ordered upper
    refine ⟨false, consecutive_self _, ?_⟩
    refine iff_of_true (iff_of_false Bool.false_ne_true fun successor => lt_irrefl _ successor.2.1) ?_
    intro next entries successor passes
    refine .inr fun alike => ?_
    rw [List.take_length] at alike
    rw [← List.take_append_drop low.length entries, alike] at passes
    rw [lower.elem_eq_of_prefix passes] at successor
    exact lt_irrefl _ successor.2.1
  · obtain ⟨front, left, right, own, depth, hash, one, two, descends,
      ⟨first, second, rfl, rfl⟩ | ⟨first, second, rfl, rfl⟩⟩ :=
      lower.parts upper same
    · refine ⟨_, @consecutive_ascending _ _ _ _ _ _ _ _ (root :: front) _ _ _ _ _ first second, ?_⟩
      rw [Bool.and_eq_true, decide_eq_true_iff, decide_eq_true_iff]
      exact ascending_exact ordered descends first second
    · refine ⟨false, @consecutive_descending _ (root :: front) _ _ _ _ _, ?_⟩
      have parted := (descends.ordered ordered).2.2.1
      refine iff_of_true (iff_of_false Bool.false_ne_true fun successor => ?_) fun next entries successor passes => ?_
      · exact (parted lo first.mem up second.mem).1.not_gt successor.2.1
      · -- a path that goes on with this one leads to the lower side
        refine .inr fun alike => ?_
        have size : (front ++ (HashType.right, right.hash bits.toElem) :: one).length =
            front.length + (one.length + 1) := by
          rw [List.length_append, List.length_cons]
        rw [size, List.take_length_add_append, List.take_succ_cons] at alike
        rw [← List.take_append_drop (front.length + (one.length + 1)) entries, alike, List.append_assoc,
          List.cons_append] at passes
        have below := descends.passes_iff.mp passes
        cases below with
        | right below => exact (parted lo first.mem next below.mem).1.not_gt successor.2.1

namespace MerkleTrie

/-- `find(key).branch()`. -/
def branchOf (ops : Elem E Key Hash) (trie : MerkleTrie E Key Hash) (key : Key) : Option (Branch Hash) :=
  (trie.find ops key).map (Iterator.branch ops)

theorem Ordered.branchOf_eq (on : Bool) {root : Node E Key Hash} (ordered : root.Ordered bits)
    (member : elem ∈ root.elems) :
    ∃ entries, Passes bits.toElem root elem entries ∧
      branchOf bits.toElem { root := some root, authenticated := on } (bits.key elem) =
        some ((.root, root.hash bits.toElem) :: entries) := by
  have enters := ordered.descends member
  obtain ⟨steps, back, reaches⟩ := Reaches.exists_of_descends enters
  cases reaches.of_mem ordered member
  refine ⟨_, Passes.of_reaches reaches, ?_⟩
  unfold branchOf find
  dsimp only
  rw [if_pos enters, reaches.find, ← reaches.rootHash]
  rfl

/-- **When `consecutive` is right** about two stored elements: exactly when the branch of the upper one is apart from
the branch of the successor, unless it is that one, within the length of the lower branch. Nothing beyond the end of a
branch is read. -/
theorem consecutive_exact [DecidableEq Hash] (calls : List (TrieOp E Key)) {lo up : E}
    (lo_mem : lo ∈ (empty.run bits.toElem calls).2.elems) (up_mem : up ∈ (empty.run bits.toElem calls).2.elems) :
    ∃ lower upper answer, (empty.run bits.toElem calls).2.branchOf bits.toElem (bits.key lo) = some lower ∧
      (empty.run bits.toElem calls).2.branchOf bits.toElem (bits.key up) = some upper ∧
      Branch.consecutive lower upper = some answer ∧
      ((answer = true ↔ Successor bits (empty.run bits.toElem calls).2.elems lo up) ↔
        ∀ next beyond, Successor bits (empty.run bits.toElem calls).2.elems lo next →
          (empty.run bits.toElem calls).2.branchOf bits.toElem (bits.key next) = some beyond →
          next = up ∨ beyond.take lower.length ≠ upper.take lower.length) := by
  have ordered : (empty.run bits.toElem calls).2.Ordered bits := ordered_empty.run calls
  generalize (empty.run bits.toElem calls).2 = trie at lo_mem up_mem ordered
  obtain ⟨root, on⟩ := trie
  cases root with
  | none => exact absurd lo_mem List.not_mem_nil
  | some root =>
    have root_ordered := ordered root rfl
    obtain ⟨low, lower, low_eq⟩ := Ordered.branchOf_eq on root_ordered lo_mem
    obtain ⟨high, upper, high_eq⟩ := Ordered.branchOf_eq on root_ordered up_mem
    obtain ⟨answer, answered, correct⟩ := consecutive_node root_ordered (.root, root.hash bits.toElem) lower upper
    refine ⟨_, _, answer, low_eq, high_eq, answered, correct.trans ⟨fun apart next beyond successor found => ?_,
      fun apart next entries successor passes => ?_⟩⟩
    · obtain ⟨entries, passes, same⟩ := Ordered.branchOf_eq on root_ordered successor.1
      obtain rfl := Option.some.inj (same.symm.trans found)
      refine (apart next entries successor passes).imp_right fun different alike => different ?_
      rw [List.length_cons, List.take_succ_cons, List.take_succ_cons] at alike
      exact (List.cons.inj alike).2
    · obtain ⟨entries', passes', found⟩ := Ordered.branchOf_eq on root_ordered successor.1
      obtain rfl := passes.unique root_ordered passes'
      refine (apart next _ successor found).imp_right fun different alike => different ?_
      rw [List.length_cons, List.take_succ_cons, List.take_succ_cons, alike]

end MerkleTrie

namespace Small

/-- An output of the transaction with hash 1. -/
def coinAt (index : Fin 8) : Spendable :=
  ⟨{ key := { hash := 1, index }, output := { value := 5, script := [] }, coin := index + 1, count := 1
     cnf := 1 }, by
    have := index.isLt
    show (index : Nat) < 2 ^ 32
    omega⟩

/-- Four coins, three of them above the first bit. -/
def fourCoins : List (TrieOp Spendable CoinKey) :=
  [.authenticated true, .insert (coinAt 0), .insert (coinAt 4), .insert (coinAt 5), .insert (coinAt 6)]

end Small

namespace MerkleTrie

open Libcoin.Small Spendables

/-- The coin after the first one. -/
theorem consecutive_exact_four :
    ∃ lower upper answer,
      (empty.run symbolic.toElem fourCoins).2.branchOf symbolic.toElem (symbolic.key (coinAt 0)) = some lower ∧
      (empty.run symbolic.toElem fourCoins).2.branchOf symbolic.toElem (symbolic.key (coinAt 4)) = some upper ∧
      Branch.consecutive lower upper = some answer ∧
      ((answer = true ↔ Successor symbolic (empty.run symbolic.toElem fourCoins).2.elems (coinAt 0) (coinAt 4)) ↔
        ∀ next beyond, Successor symbolic (empty.run symbolic.toElem fourCoins).2.elems (coinAt 0) next →
          (empty.run symbolic.toElem fourCoins).2.branchOf symbolic.toElem (symbolic.key next) = some beyond →
          next = coinAt 4 ∨ beyond.take lower.length ≠ upper.take lower.length) :=
  consecutive_exact fourCoins (by decide) (by decide)

/-- The coins 0 and 5 are consecutive by their branches, and coin 4 is between them. -/
theorem consecutive_not_exact :
    (do
      let lower ← (empty.run symbolic.toElem fourCoins).2.branchOf symbolic.toElem (symbolic.key (coinAt 0))
      let upper ← (empty.run symbolic.toElem fourCoins).2.branchOf symbolic.toElem (symbolic.key (coinAt 5))
      Branch.consecutive lower upper) = some true ∧
    ¬Successor symbolic (empty.run symbolic.toElem fourCoins).2.elems (coinAt 0) (coinAt 5) := by
  refine ⟨by decide, fun successor => ?_⟩
  exact successor.2.2 (coinAt 4) (by decide) ⟨by decide, by decide⟩

end MerkleTrie

end Libcoin
