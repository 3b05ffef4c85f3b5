/-
`BlockTree::insert` keeps the representation, and puts the heaviest path on the trunk.

* `forward_toBranch`, `cut_append` and `foldl_pushTrunk` compute the loops of a reorganisation.
* `insert_heavier` and `insert_lighter` compute `insert`, on a new best block and on any other.
* `insert_represents`: the new tree holds the old blocks and the new one.
* `Heaviest` is what the choice of the trunk maintains.
-/

import Libcoin.Tree.Represents

namespace Libcoin

namespace BlockTree

open Exec

variable {Hash : Type} [LinearOrder Hash]

/-! ### The loops of a reorganisation -/

/-- Every block of the trunk has its index as height. -/
def Indexed (t : BlockTree Hash) : Prop :=
  ∀ low b high, t.trunk = low ++ b :: high → t.heights[b.hash]? = some (low.length : Int)

theorem Represents.indexed {known : List (BlockRef Hash)} {t : BlockTree Hash}
    (rep : Represents known t) (grown : Grown known) : Indexed t := by
  intro low b high split
  obtain ⟨tip, -, path⟩ := rep.trunk
  rw [split, List.reverse_append, List.reverse_cons, List.append_assoc, List.singleton_append]
    at path
  have below : lineage known b.hash = b :: low.reverse := grown.lineage_below _ path.symm
  rw [rep.onTrunk b (by simp [split]), depth, below, List.length_cons, List.length_reverse]
  congr 1
  omega

theorem advance_trunk {t : BlockTree Hash} (indexed : Indexed t) {low high : List (BlockRef Hash)}
    {b : BlockRef Hash} (split : t.trunk = low ++ b :: high) : t.advance b 1 = .ok high.head? := by
  have height : t.heightOf b.hash = .ok (low.length : Int) := by
    rw [SparseTree.heightOf, indexed low b high split]
  have long : (t.trunk.length : Int) = low.length + (high.length + 1) := by
    rw [split, List.length_append, List.length_cons]
    push_cast
    rfl
  unfold SparseTree.advance
  rw [if_pos (by omega)]
  show t.heightOf b.hash >>= _ = _
  rw [height, ok_bind, if_neg (by omega)]
  cases high with
  | nil =>
    rw [List.length_nil] at long
    rw [if_pos (by omega)]
    rfl
  | cons c high =>
    rw [List.length_cons] at long
    have next : t.trunk[low.length + 1]? = some c := by
      rw [split, List.getElem?_append_right (by omega), Nat.add_sub_cancel_left]
      rfl
    have index : ((low.length : Int) + 1).toNat = low.length + 1 := by omega
    rw [if_neg (by omega), SparseTree.trunkAt, if_neg (by omega), index, next]
    rfl

/-- The blocks of the trunk above the fork are copied to the branches. -/
theorem forward_toBranch (high : List (BlockRef Hash)) (turns : Nat) (t : BlockTree Hash)
    (low : List (BlockRef Hash)) (met : List Hash) (enough : high.length ≤ turns)
    (indexed : Indexed t) (split : t.trunk = low ++ high) :
    forward toBranch turns t high.head? met =
      .ok ({ t with branches := t.branches.insertAll (high.map fun b => (b.hash, b)) },
        met ++ hashes high) := by
  induction high generalizing turns t low met with
  | nil =>
    simp only [List.head?_nil, hashes, List.map_nil, List.append_nil]
    cases turns <;> rfl
  | cons b high ih =>
    obtain ⟨turns, rfl⟩ := Nat.exists_eq_add_of_le' (Nat.lt_of_lt_of_le (Nat.succ_pos _) enough)
    have indexed' : Indexed (toBranch t b) := indexed
    have split' : (toBranch t b).trunk = low ++ b :: high := split
    have shifted : (toBranch t b).trunk = (low ++ [b]) ++ high := by
      rw [split', List.append_assoc, List.singleton_append]
    rw [List.length_cons] at enough
    rw [List.head?_cons, forward]
    show (toBranch t b).advance b 1 >>= _ = _
    rw [advance_trunk indexed' split', ok_bind, ih turns _ _ _ (by omega) indexed' shifted, hashes, hashes,
      List.map_cons,
      List.append_assoc, List.singleton_append]
    rfl

theorem Represents.tipWork {known : List (BlockRef Hash)} {t : BlockTree Hash}
    (rep : Represents known t) : t.workAt (t.accWork.length - 1) = .ok (workOf t.trunk) := by
  obtain ⟨low, last, split⟩ := List.eq_nil_or_concat' t.trunk |>.resolve_left rep.trunk_ne_nil
  have long : ((runningWork 0 (low ++ [last])).length : Int) - 1 = low.length := by
    rw [runningWork_length, List.length_append, List.length_singleton]
    omega
  have at_tip := runningWork_getElem? 0 low [] last
  rw [workAt, rep.accWork, split, long, if_neg (by omega), Int.toNat_natCast, at_tip, workOf_append,
    workOf_cons, workOf_nil, zero_add, add_zero]

section Update

variable [Zero Hash]

theorem cut_append {t : BlockTree Hash} {low high : List (BlockRef Hash)}
    (split : t.trunk = low ++ high) (acc : t.accWork = runningWork 0 t.trunk) :
    t.cut low.length = { t with trunk := low, accWork := runningWork 0 low } := by
  have long : low.length ≤ t.trunk.length := by
    rw [split, List.length_append]
    omega
  unfold cut
  rw [resize_of_le _ long, resize_of_le _ (by rw [acc, runningWork_length]; exact long), acc, split,
    List.take_left, runningWork_append, List.take_left' (runningWork_length 0 low)]

/-- The blocks of the branch are moved onto the trunk. -/
theorem foldl_pushTrunk (sign : Int) (ups : List (BlockRef Hash)) (t : BlockTree Hash)
    (stored : ∀ b ∈ ups, t.branches[b.hash]? = some b) (distinct : (hashes ups).Nodup) :
    (hashes ups).foldl (pushTrunk sign) t =
      { trunk := t.trunk ++ ups
        heights := t.heights.adjustAll 0 (· * sign) (hashes ups)
        branches := t.branches.eraseAll (hashes ups)
        accWork := t.accWork ++ runningWork (t.accWork.getLastD 0) ups } := by
  induction ups generalizing t with
  | nil =>
    simp only [hashes, List.map_nil, List.foldl_nil, List.append_nil, runningWork]
    rfl
  | cons b ups ih =>
    obtain ⟨notLater, distinct⟩ := List.nodup_cons.mp distinct
    have here : t.branches.getD b.hash default = b := by
      rw [Map.getD_lookup, stored b List.mem_cons_self, Option.getD_some]
    have pushed : pushTrunk sign t b.hash =
        { trunk := t.trunk ++ [b]
          heights := t.heights.insert b.hash (t.heights.getD b.hash 0 * sign)
          branches := t.branches.erase b.hash
          accWork := t.accWork ++ [t.accWork.getLastD 0 + b.work] } := by
      unfold pushTrunk
      rw [here]
    have kept : ∀ c ∈ ups, (pushTrunk sign t b.hash).branches[c.hash]? = some c := by
      intro c later
      have different : b.hash ≠ c.hash := fun same =>
        notLater (List.mem_map.mpr ⟨c, later, same.symm⟩)
      rw [pushed, Map.lookup_erase_of_ne _ different]
      exact stored c (List.mem_cons_of_mem _ later)
    show (hashes ups).foldl (pushTrunk sign) (pushTrunk sign t b.hash) = _
    rw [ih _ kept distinct, pushed]
    simp only [List.getLastD_concat, List.append_assoc, List.singleton_append]
    rfl

/-! ### What `insert` computes -/

/-- The tree after a reorganisation from `low ++ root :: high` to `low ++ root :: ups`, with the new
block `ref` on top. -/
def reorganizedTo (t : BlockTree Hash) (low high ups : List (BlockRef Hash))
    (ref : BlockRef Hash) : BlockTree Hash :=
  { trunk := low ++ ups ++ [ref]
    heights := (((t.heights.adjustAll 0 (· * -1) (hashes high)).adjustAll 0 (· * -1)
      (hashes ups)).insert ref.hash (low.length + ups.length : Nat))
    branches := (t.branches.insertAll (high.map fun b => (b.hash, b))).eraseAll (hashes ups)
    accWork := runningWork 0 (low ++ ups ++ [ref]) }

section Insert

variable {known : List (BlockRef Hash)} {t : BlockTree Hash} {ref base root : BlockRef Hash}
  {up low high : List (BlockRef Hash)}

theorem insert_heavier (rep : Represents known t) (grown : Grown known)
    (fork : Represents.Fork known t base up root low high) (onto : base.hash = ref.prev)
    (heavier : workOf t.trunk < workOf (lineage known base.hash) + ref.work) :
    t.insert ref = .ok (reorganizedTo t (low ++ [root]) high up.reverse ref,
      { deleted := hashes high, inserted := ref.hash :: hashes up }) := by
  have indexed := rep.indexed grown
  have shifted : t.trunk = (low ++ [root]) ++ high := by
    rw [fork.split, List.append_assoc, List.singleton_append]
  have height : t.heightOf root.hash = .ok (low.length : Int) := by
    rw [SparseTree.heightOf, indexed low root high fork.split]
  -- the loop over the trunk does not touch the branch that moves onto it
  have stored : ∀ b ∈ up.reverse,
      (t.branches.insertAll (high.map fun b => (b.hash, b)))[b.hash]? = some b := by
    intro b inside
    rw [List.mem_reverse] at inside
    have absent : b.hash ∉ (high.map fun c => (c.hash, c)).map Prod.fst := by
      rw [List.map_map]
      intro above
      obtain ⟨c, inHigh, same⟩ := List.mem_map.mp above
      exact fork.apart rep grown inside (fork.high_mem inHigh) same.symm
    rw [Map.lookup_insertAll_of_notMem _ _ absent]
    exact (rep.branches b.hash b).mpr ⟨fork.up_known inside, fork.off b inside, rfl⟩
  have reversed : (hashes up).reverse = hashes up.reverse := by
    rw [hashes, hashes, List.map_reverse]
  have total : workOf (low ++ [root] ++ up.reverse) = workOf (lineage known base.hash) := by
    rw [fork.path, workOf_append, workOf_append, workOf_append, workOf_cons, workOf_reverse,
      workOf_cons, workOf_reverse, workOf_nil]
    omega
  have cutLow : (low ++ [root]).length = (low.length : Int).toNat + 1 := by
    rw [List.length_append, List.length_singleton, Int.toNat_natCast]
  have long : high.length ≤ t.trunk.length + 1 := by
    rw [fork.split, List.length_append, List.length_cons]
    omega
  have acc_eq : (runningWork 0 (low ++ [root])).getLastD 0 = workOf (low ++ [root]) :=
    runningWork_getLastD (by simp)
  have acc_total : runningWork 0 (low ++ [root]) ++
      runningWork (workOf (low ++ [root])) up.reverse ++
        [workOf (lineage known base.hash) + ref.work] =
      runningWork 0 (low ++ [root] ++ up.reverse ++ [ref]) := by
    rw [runningWork_snoc 0 (low ++ [root] ++ up.reverse), runningWork_append 0 (low ++ [root]),
      total, zero_add, zero_add]
  unfold insert
  rw [← onto, rep.find_known grown fork.member, ok_bind]
  show t.accumulatedWork base >>= _ = _
  rw [rep.accumulatedWork_known grown fork.member, ok_bind, rep.tipWork, ok_bind, if_pos heavier,
    rep.collect_branch grown up _ (rep.fuel_enough fork) base [] fork, ok_bind]
  show t.advance root 1 >>= _ = _
  rw [advance_trunk indexed fork.split, ok_bind,
    forward_toBranch high _ t _ [] long indexed shifted, ok_bind]
  have stays : ({ t with branches := t.branches.insertAll (high.map fun b => (b.hash, b)) } :
      BlockTree Hash).heightOf root.hash = .ok (low.length : Int) := height
  have lowered := cut_append (t := { t with
    branches := t.branches.insertAll (high.map fun b => (b.hash, b)) }) shifted rep.accWork
  show SparseTree.heightOf _ root.hash >>= _ = _
  rw [stays, ok_bind, ← cutLow, lowered]
  simp only [List.nil_append, reversed]
  rw [foldl_pushTrunk (-1) up.reverse _ stored (reversed ▸ List.nodup_reverse.mpr (fork.up_distinct grown))]
  simp only [acc_eq, acc_total, reorganizedTo, List.length_append]
  rfl

theorem insert_lighter (rep : Represents known t) (grown : Grown known) (member : base ∈ known)
    (onto : base.hash = ref.prev)
    (lighter : workOf (lineage known base.hash) + ref.work ≤ workOf t.trunk) :
    t.insert ref = .ok ({ t with
      branches := t.branches.insert ref.hash ref
      heights := t.heights.insert ref.hash (-depth known base.hash - 1) },
      { deleted := [], inserted := [] }) := by
  have nonneg := Represents.depth_nonneg grown member
  have height : ∃ h, t.heightOf base.hash = .ok h ∧ (h.natAbs : Int) = depth known base.hash := by
    by_cases on : base ∈ t.trunk
    · exact ⟨_, rep.heightOf_trunk on, Int.natAbs_of_nonneg nonneg⟩
    · exact ⟨_, rep.heightOf_branch member on, by rw [Int.natAbs_neg]; omega⟩
  obtain ⟨h, found, size⟩ := height
  unfold insert
  rw [← onto, rep.find_known grown member, ok_bind]
  show t.accumulatedWork base >>= _ = _
  rw [rep.accumulatedWork_known grown member, ok_bind, rep.tipWork, ok_bind,
    if_neg (not_lt.mpr lighter), found, ok_bind, size]
  rfl

end Insert

end Update

/-! ### The new representation -/

section Representation

variable {known : List (BlockRef Hash)} {t : BlockTree Hash} {ref base root : BlockRef Hash}
  {up low high : List (BlockRef Hash)}

theorem Represents.Fork.mem_reorganizedTo (fork : Represents.Fork known t base up root low high)
    (rep : Represents known t) (grown : Grown known) (ref b : BlockRef Hash) :
    b ∈ (reorganizedTo t (low ++ [root]) high up.reverse ref).trunk ↔
      (b ∈ t.trunk ∧ b ∉ high) ∨ b ∈ up ∨ b = ref := by
  show b ∈ low ++ [root] ++ up.reverse ++ [ref] ↔ _
  rw [fork.split_root, List.mem_append, List.mem_append, List.mem_append (t := high), or_assoc,
    List.mem_singleton (b := ref), List.mem_reverse]
  constructor
  · rintro (inLow | others)
    · exact Or.inl ⟨Or.inl inLow, fork.low_apart rep grown inLow⟩
    · exact Or.inr others
  · rintro (⟨inLow | inHigh, apart⟩ | others)
    · exact Or.inl inLow
    · exact absurd inHigh apart
    · exact Or.inr others

/-- The sign of a height is changed once for every block that changes sides. -/
theorem Represents.Fork.heights_reorganizedTo
    (fork : Represents.Fork known t base up root low high) (rep : Represents known t)
    (grown : Grown known) (fresh : ref.hash ∉ hashes known) {b : BlockRef Hash}
    (member : b ∈ known) {h : Int} (found : t.heights[b.hash]? = some h) :
    (reorganizedTo t (low ++ [root]) high up.reverse ref).heights[b.hash]? =
      some (if b ∈ high ∨ b ∈ up then -h else h) := by
  have up_distinct : (hashes up.reverse).Nodup := by
    rw [hashes, List.map_reverse, List.nodup_reverse]
    exact fork.up_distinct grown
  have different : ref.hash ≠ b.hash := fun same =>
    fresh (List.mem_map.mpr ⟨b, member, same.symm⟩)
  have first := Map.lookup_adjustAll_stored 0 (· * -1) (hashes high) t.heights
    (fork.high_distinct rep grown) found
  have second := Map.lookup_adjustAll_stored 0 (· * -1) (hashes up.reverse) _ up_distinct first
  have inHigh_iff : b.hash ∈ hashes high ↔ b ∈ high :=
    grown.mem_hashes_of_sub (fun c inside => fork.high_known rep inside) member
  have inUp_iff : b.hash ∈ hashes up.reverse ↔ b ∈ up := by
    have swapped : b ∈ up.reverse ↔ b ∈ up := List.mem_reverse
    rw [← swapped]
    exact grown.mem_hashes_of_sub
      (fun c inside => fork.up_known (List.mem_reverse.mp inside)) member
  simp only [inHigh_iff, inUp_iff] at second
  unfold reorganizedTo
  rw [Map.lookup_insert_of_ne _ _ different, second]
  by_cases inUp : b ∈ up
  · have notHigh : b ∉ high := fun inHigh => fork.off b inUp (fork.high_mem inHigh)
    rw [if_pos inUp, if_neg notHigh, if_pos (Or.inr inUp), mul_neg_one]
  · rw [if_neg inUp]
    by_cases inHigh : b ∈ high
    · rw [if_pos inHigh, if_pos (Or.inl inHigh), mul_neg_one]
    · rw [if_neg inHigh, if_neg (not_or.mpr ⟨inHigh, inUp⟩)]

/-- The blocks above the fork replace those of the branch among the branch blocks. -/
theorem Represents.Fork.branches_reorganizedTo
    (fork : Represents.Fork known t base up root low high) (rep : Represents known t)
    (grown : Grown known) (h : Hash) (b : BlockRef Hash) :
    (reorganizedTo t (low ++ [root]) high up.reverse ref).branches[h]? = some b ↔
      b ∈ known ∧ ((b ∉ t.trunk ∧ b ∉ up) ∨ b ∈ high) ∧ b.hash = h := by
  have entries : (high.map fun c => (c.hash, c)).map Prod.fst = hashes high := by
    rw [List.map_map]
    rfl
  unfold reorganizedTo
  rw [Map.lookup_eraseAll]
  by_cases inUp : h ∈ hashes up.reverse
  · obtain ⟨c, inside, rfl⟩ := List.mem_map.mp inUp
    rw [List.mem_reverse] at inside
    rw [if_pos inUp]
    refine iff_of_false (Option.some_ne_none b).symm ?_
    rintro ⟨member, sides, same⟩
    obtain rfl := grown.eq_of_hash member (fork.up_known inside) same
    rcases sides with ⟨-, notUp⟩ | inHigh
    · exact notUp inside
    · exact fork.off b inside (fork.high_mem inHigh)
  · have notUp : b.hash = h → b ∉ up := fun same inside =>
      inUp (List.mem_map.mpr ⟨b, List.mem_reverse.mpr inside, same⟩)
    rw [if_neg inUp]
    by_cases inHigh : h ∈ hashes high
    · obtain ⟨c, inside, rfl⟩ := List.mem_map.mp inHigh
      have stored : (c.hash, c) ∈ high.map fun c => (c.hash, c) :=
        List.mem_map.mpr ⟨c, inside, rfl⟩
      rw [show TreeElem.hash c = c.hash from rfl,
        Map.lookup_insertAll_of_mem _ _ (entries ▸ fork.high_distinct rep grown) stored]
      constructor
      · intro same
        obtain rfl := Option.some.inj same
        exact ⟨fork.high_known rep inside, Or.inr inside, rfl⟩
      · rintro ⟨member, -, same⟩
        rw [grown.eq_of_hash member (fork.high_known rep inside) same]
    · rw [Map.lookup_insertAll_of_notMem _ _ (entries ▸ inHigh), rep.branches h b]
      constructor
      · rintro ⟨member, off, same⟩
        exact ⟨member, Or.inl ⟨off, notUp same⟩, same⟩
      · rintro ⟨member, ⟨off, -⟩ | inside, same⟩
        · exact ⟨member, off, same⟩
        · exact absurd (List.mem_map.mpr ⟨b, inside, same⟩) inHigh

theorem represents_reorganizedTo (rep : Represents known t) (grown : Grown known)
    (fork : Represents.Fork known t base up root low high) (onto : base.hash = ref.prev)
    (fresh : ref.hash ∉ hashes known) :
    Represents (ref :: known) (reorganizedTo t (low ++ [root]) high up.reverse ref) := by
  have different : ∀ b ∈ known, ref.hash ≠ b.hash := fun b member same =>
    fresh (List.mem_map.mpr ⟨b, member, same.symm⟩)
  have same_depth : ∀ b ∈ known, depth (ref :: known) b.hash = depth known b.hash :=
    fun b member => depth_cons_of_ne (different b member) known
  have trunk_iff := fork.mem_reorganizedTo rep grown ref
  have new_path : lineage (ref :: known) ref.hash = ref :: lineage known base.hash := by
    rw [onto]
    exact lineage_cons_self ref known
  refine ⟨⟨ref.hash, mem_hashes_cons.mpr (Or.inl rfl), ?_⟩, ?_, ?_, ?_, ?_, rfl⟩
  · unfold reorganizedTo
    rw [new_path, fork.path]
    simp
  · intro b member
    rcases (trunk_iff b).mp member with ⟨onTrunk, notHigh⟩ | inUp | rfl
    · have notUp : b ∉ up := fun inUp => fork.off b inUp onTrunk
      have known_b := rep.trunk_known onTrunk
      rw [fork.heights_reorganizedTo rep grown fresh known_b (rep.onTrunk b onTrunk),
        same_depth b known_b, if_neg (not_or.mpr ⟨notHigh, notUp⟩)]
    · have known_b := fork.up_known inUp
      have off := fork.off b inUp
      rw [fork.heights_reorganizedTo rep grown fresh known_b (rep.onBranch b known_b off),
        same_depth b known_b, if_pos (Or.inr inUp), neg_neg]
    · unfold reorganizedTo
      rw [Map.lookup_insert_self, depth, new_path, fork.path]
      simp only [List.length_append, List.length_cons, List.length_reverse, List.length_nil]
      congr 1
      omega
  · intro b member off
    have off' := (trunk_iff b).not.mp off
    rw [not_or, not_or, not_and_not_right] at off'
    obtain ⟨onTrunk, notUp, notRef⟩ := off'
    have known_b := (List.mem_cons.mp member).resolve_left notRef
    rw [same_depth b known_b]
    by_cases on : b ∈ t.trunk
    · rw [fork.heights_reorganizedTo rep grown fresh known_b (rep.onTrunk b on),
        if_pos (Or.inl (onTrunk on))]
    · have notHigh : b ∉ high := fun inHigh => on (fork.high_mem inHigh)
      rw [fork.heights_reorganizedTo rep grown fresh known_b (rep.onBranch b known_b on),
        if_neg (not_or.mpr ⟨notHigh, notUp⟩)]
  · intro h unknown
    rw [mem_hashes_cons, not_or] at unknown
    have absent : ∀ part : List (BlockRef Hash), (∀ b ∈ part, b ∈ known) → h ∉ hashes part := by
      intro part sub inside
      obtain ⟨b, inPart, same⟩ := List.mem_map.mp inside
      exact unknown.2 (List.mem_map.mpr ⟨b, sub b inPart, same⟩)
    have notHigh := absent high fun b inside => fork.high_known rep inside
    have notUp := absent up.reverse fun b inside => fork.up_known (List.mem_reverse.mp inside)
    have notRef : ref.hash ≠ h := Ne.symm unknown.1
    have up_distinct : (hashes up.reverse).Nodup := by
      rw [hashes, List.map_reverse, List.nodup_reverse]
      exact fork.up_distinct grown
    unfold reorganizedTo
    rw [Map.lookup_insert_of_ne _ _ notRef, Map.lookup_adjustAll _ _ _ _ up_distinct,
      if_neg notUp, Map.lookup_adjustAll _ _ _ _ (fork.high_distinct rep grown), if_neg notHigh,
      rep.unknown h unknown.2]
  · intro h b
    rw [fork.branches_reorganizedTo rep grown h b, trunk_iff b, List.mem_cons]
    constructor
    · rintro ⟨member, sides, same⟩
      have notRef : b ≠ ref := fun equal => different b member (equal ▸ rfl)
      refine ⟨Or.inr member, ?_, same⟩
      rintro (⟨on, notHigh⟩ | inUp | equal)
      · rcases sides with ⟨off, -⟩ | inHigh
        · exact off on
        · exact notHigh inHigh
      · rcases sides with ⟨-, notUp⟩ | inHigh
        · exact notUp inUp
        · exact fork.off b inUp (fork.high_mem inHigh)
      · exact notRef equal
    · rintro ⟨member, off, same⟩
      rw [not_or, not_or, not_and_not_right] at off
      obtain ⟨onTrunk, notUp, notRef⟩ := off
      refine ⟨member.resolve_left notRef, ?_, same⟩
      by_cases on : b ∈ t.trunk
      · exact Or.inr (onTrunk on)
      · exact Or.inl ⟨on, notUp⟩

theorem represents_lighter (rep : Represents known t) (onto : base.hash = ref.prev)
    (fresh : ref.hash ∉ hashes known) :
    Represents (ref :: known) { t with
      branches := t.branches.insert ref.hash ref
      heights := t.heights.insert ref.hash (-depth known base.hash - 1) } := by
  have different : ∀ b ∈ known, ref.hash ≠ b.hash := fun b member same =>
    fresh (List.mem_map.mpr ⟨b, member, same.symm⟩)
  have same_depth : ∀ b ∈ known, depth (ref :: known) b.hash = depth known b.hash :=
    fun b member => depth_cons_of_ne (different b member) known
  have ref_off : ref ∉ t.trunk := fun on => different ref (rep.trunk_known on) rfl
  have deeper : depth (ref :: known) ref.hash = depth known base.hash + 1 := by
    have path : lineage (ref :: known) ref.hash = ref :: lineage known base.hash := by
      rw [onto]
      exact lineage_cons_self ref known
    rw [depth, depth, path, List.length_cons]
    omega
  refine ⟨?_, ?_, ?_, ?_, ?_, rep.accWork⟩
  · obtain ⟨tip, isKnown, path⟩ := rep.trunk
    have notRef : TreeElem.hash ref ≠ tip := by
      rintro rfl
      exact fresh isKnown
    exact ⟨tip, mem_hashes_cons.mpr (Or.inr isKnown),
      path.trans (lineage_cons_of_ne notRef known).symm⟩
  · intro b on
    have known_b := rep.trunk_known on
    rw [same_depth b known_b, ← rep.onTrunk b on]
    exact Map.lookup_insert_of_ne _ _ (different b known_b)
  · intro b member off
    rcases List.mem_cons.mp member with rfl | known_b
    · rw [deeper]
      show (Std.ExtTreeMap.insert _ _ _)[b.hash]? = _
      rw [Map.lookup_insert_self, neg_add, sub_eq_add_neg]
    · rw [same_depth b known_b, ← rep.onBranch b known_b off]
      exact Map.lookup_insert_of_ne _ _ (different b known_b)
  · intro h unknown
    rw [mem_hashes_cons, not_or] at unknown
    rw [← rep.unknown h unknown.2]
    exact Map.lookup_insert_of_ne _ _ (Ne.symm unknown.1)
  · intro h b
    show (Std.ExtTreeMap.insert _ _ _)[h]? = _ ↔ b ∈ ref :: known ∧ b ∉ t.trunk ∧ b.hash = h
    rw [Map.lookup_insert, List.mem_cons]
    by_cases same : ref.hash = h
    · subst same
      rw [if_pos rfl]
      constructor
      · intro equal
        obtain rfl := Option.some.inj equal
        exact ⟨Or.inl rfl, ref_off, rfl⟩
      · rintro ⟨rfl | member, -, same⟩
        · rfl
        · exact absurd same.symm (different b member)
    · rw [if_neg same, rep.branches h b]
      constructor
      · rintro ⟨member, rest⟩
        exact ⟨Or.inr member, rest⟩
      · rintro ⟨rfl | member, rest⟩
        · exact absurd rest.2 same
        · exact ⟨member, rest⟩

end Representation

/-! ### One insertion -/

/-- No known block has more accumulated work than the best one. -/
def Heaviest (known : List (BlockRef Hash)) (t : BlockTree Hash) : Prop :=
  ∀ b ∈ known, workOf (lineage known b.hash) ≤ workOf t.trunk

/-- What `insert` does to the trunk and tells of it: nothing, or a move from `low ++ above` to
`low ++ news`. -/
inductive Moved (t t' : BlockTree Hash) (ref : BlockRef Hash) : Changes Hash → Prop
  | nothing (same : t'.trunk = t.trunk) : Moved t t' ref { deleted := [], inserted := [] }
  | best (low above up : List (BlockRef Hash)) (old : t.trunk = low ++ above)
      (new : t'.trunk = low ++ (up.reverse ++ [ref])) (forked : low ≠ [])
      (apart : ∀ b ∈ up.reverse ++ [ref], b.hash ∉ hashes above) :
      Moved t t' ref { deleted := hashes above, inserted := ref.hash :: hashes up }

theorem insert_spec [Zero Hash] {known : List (BlockRef Hash)} {t : BlockTree Hash}
    {ref : BlockRef Hash} (rep : Represents known t) (grown : Grown known)
    (fresh : ref.hash ∉ hashes known) (connected : ref.prev ∈ hashes known) :
    ∃ t' changes, t.insert ref = .ok (t', changes) ∧ Represents (ref :: known) t' ∧
      Moved t t' ref changes ∧
      ((changes.inserted = [] ∧ t'.trunk = t.trunk ∧
          workOf (lineage (ref :: known) ref.hash) ≤ workOf t.trunk) ∨
        (changes.inserted ≠ [] ∧ t'.trunk.getLast? = some ref ∧
          workOf t'.trunk = workOf (lineage (ref :: known) ref.hash) ∧
          workOf t.trunk < workOf t'.trunk)) := by
  obtain ⟨base, member, onto⟩ := List.mem_map.mp connected
  have onto : base.hash = ref.prev := onto
  have path : lineage (ref :: known) ref.hash = ref :: lineage known base.hash := by
    rw [onto]
    exact lineage_cons_self ref known
  by_cases heavier : workOf t.trunk < workOf (lineage known base.hash) + ref.work
  · obtain ⟨up, root, low, high, fork⟩ := rep.exists_fork grown member
    have rep' := represents_reorganizedTo rep grown fork onto fresh
    have last : (reorganizedTo t (low ++ [root]) high up.reverse ref).trunk.getLast? = some ref :=
      List.getLast?_concat
    have work : workOf (reorganizedTo t (low ++ [root]) high up.reverse ref).trunk =
        workOf (lineage (ref :: known) ref.hash) := by
      obtain ⟨tip, found, -, trunk⟩ := rep'.best_eq
      obtain rfl : ref = tip := Option.some.inj (last.symm.trans found)
      rw [trunk, workOf_reverse]
    refine ⟨_, _, insert_heavier rep grown fork onto heavier, rep', ?_, Or.inr ⟨?_, last, work, ?_⟩⟩
    · refine .best (low ++ [root]) high up fork.split_root ?_ (by simp) ?_
      · show low ++ [root] ++ up.reverse ++ [ref] = _
        rw [List.append_assoc (low ++ [root])]
      · intro b inside above
        obtain ⟨c, inHigh, same⟩ := List.mem_map.mp above
        rcases List.mem_append.mp inside with inUp | isRef
        · exact fork.apart rep grown (List.mem_reverse.mp inUp) (fork.high_mem inHigh) same.symm
        · obtain rfl := List.mem_singleton.mp isRef
          exact fresh (List.mem_map.mpr ⟨c, fork.high_known rep inHigh, same⟩)
    · exact List.cons_ne_nil _ _
    · rw [work, path, workOf_cons]
      omega
  · refine ⟨_, _, insert_lighter rep grown member onto (not_lt.mp heavier),
      represents_lighter rep onto fresh, .nothing rfl, Or.inl ⟨rfl, rfl, ?_⟩⟩
    rw [path, workOf_cons]
    omega

/-- The best block stays the heaviest. -/
theorem heaviest_insert [Zero Hash] {known : List (BlockRef Hash)} {t t' : BlockTree Hash}
    {ref : BlockRef Hash} {changes : Changes Hash} (rep : Represents known t) (grown : Grown known)
    (fresh : ref.hash ∉ hashes known) (connected : ref.prev ∈ hashes known)
    (heaviest : Heaviest known t) (done : t.insert ref = .ok (t', changes)) :
    Heaviest (ref :: known) t' := by
  obtain ⟨t'', changes', done', -, -, grows⟩ := insert_spec rep grown fresh connected
  obtain ⟨rfl, rfl⟩ := Prod.mk.inj (Except.ok.inj (done'.symm.trans done))
  have older : ∀ b ∈ known, lineage (ref :: known) b.hash = lineage known b.hash := fun b member =>
    lineage_cons_of_ne (fun same => fresh (List.mem_map.mpr ⟨b, member, same.symm⟩)) known
  intro b member
  rcases grows with ⟨-, same, lighter⟩ | ⟨-, -, work, more⟩
  · rw [same]
    rcases List.mem_cons.mp member with rfl | known_b
    · exact lighter
    · rw [older b known_b]
      exact heaviest b known_b
  · rcases List.mem_cons.mp member with rfl | known_b
    · exact le_of_eq work.symm
    · rw [older b known_b]
      exact (heaviest b known_b).trans (le_of_lt more)

end BlockTree

end Libcoin
