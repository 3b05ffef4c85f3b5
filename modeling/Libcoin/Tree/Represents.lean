/-
When a block tree represents a list of known blocks, and what its member functions compute then.

* `Represents known t`: the trunk is a path of `known`, the heights are the depths with a sign that
  tells the trunk from the branches, the branch map holds the rest, and the accumulated work is the
  running sum along the trunk.
* `find_known`, `back_branch`, `accumulatedWork_known` and `collect_branch` give the walks over the
  tree as paths of `known`.
* `forward_toBranch` and `foldl_pushTrunk` are the two loops that move blocks between the trunk and
  the branches.
-/

import Libcoin.Tree.BlockTree
import Libcoin.Tree.Lineage

namespace Libcoin

namespace BlockTree

open Exec

variable {Hash : Type}

/-! ### Work along a path -/

/-- The sum of the works of some blocks. -/
def workOf (blocks : List (BlockRef Hash)) : Int := (blocks.map BlockRef.work).sum

/-- The running sums of the works of some blocks, starting from `sum`. -/
def runningWork : Int → List (BlockRef Hash) → List Int
  | _, [] => []
  | sum, ref :: rest => (sum + ref.work) :: runningWork (sum + ref.work) rest

@[simp] theorem workOf_nil : workOf ([] : List (BlockRef Hash)) = 0 := rfl

@[simp] theorem workOf_cons (ref : BlockRef Hash) (rest : List (BlockRef Hash)) :
    workOf (ref :: rest) = ref.work + workOf rest := by
  simp [workOf]

theorem workOf_append (first second : List (BlockRef Hash)) :
    workOf (first ++ second) = workOf first + workOf second := by
  simp [workOf]

theorem workOf_reverse (blocks : List (BlockRef Hash)) : workOf blocks.reverse = workOf blocks := by
  unfold workOf
  rw [List.map_reverse, List.sum_reverse]

theorem workOf_nonneg (blocks : List (BlockRef Hash)) : 0 ≤ workOf blocks := by
  induction blocks with
  | nil => exact le_refl 0
  | cons ref rest ih =>
    have here := ref.work_nonneg
    rw [workOf_cons]
    omega

@[simp] theorem runningWork_length (sum : Int) (blocks : List (BlockRef Hash)) :
    (runningWork sum blocks).length = blocks.length := by
  induction blocks generalizing sum with
  | nil => rfl
  | cons ref rest ih => rw [runningWork, List.length_cons, List.length_cons, ih]

theorem runningWork_append (sum : Int) (low high : List (BlockRef Hash)) :
    runningWork sum (low ++ high) = runningWork sum low ++ runningWork (sum + workOf low) high := by
  induction low generalizing sum with
  | nil => simp [runningWork]
  | cons ref rest ih =>
    rw [List.cons_append, runningWork, runningWork, ih, workOf_cons, List.cons_append, add_assoc]

theorem runningWork_snoc (sum : Int) (blocks : List (BlockRef Hash)) (ref : BlockRef Hash) :
    runningWork sum (blocks ++ [ref]) =
      runningWork sum blocks ++ [sum + workOf blocks + ref.work] := by
  rw [runningWork_append]
  rfl

/-- The running sum at an index is the sum up to and with that index. -/
theorem runningWork_getElem? (sum : Int) (low high : List (BlockRef Hash)) (ref : BlockRef Hash) :
    (runningWork sum (low ++ ref :: high))[low.length]? = some (sum + workOf low + ref.work) := by
  rw [runningWork_append, List.getElem?_append_right (by rw [runningWork_length]),
    runningWork_length, Nat.sub_self]
  rfl

theorem runningWork_getLastD {blocks : List (BlockRef Hash)} (some : blocks ≠ []) :
    (runningWork 0 blocks).getLastD 0 = workOf blocks := by
  obtain ⟨low, ref, rfl⟩ := List.eq_nil_or_concat' blocks |>.resolve_left some
  rw [runningWork_snoc, workOf_append, List.getLastD_concat]
  simp

theorem pushWork_eq (acc : List Int) (blocks : List (BlockRef Hash)) :
    pushWork acc blocks = acc ++ runningWork (acc.getLastD 0) blocks := by
  induction blocks generalizing acc with
  | nil => rw [pushWork, runningWork, List.append_nil]
  | cons ref rest ih =>
    rw [pushWork, ih, runningWork, List.getLastD_concat, List.append_assoc, List.singleton_append]

/-! ### The representation -/

variable [LinearOrder Hash]

/-- The tree holds exactly the known blocks, its trunk being one of their paths. -/
structure Represents (known : List (BlockRef Hash)) (t : BlockTree Hash) : Prop where
  trunk : ∃ tip ∈ hashes known, t.trunk.reverse = lineage known tip
  onTrunk : ∀ b ∈ t.trunk, t.heights[b.hash]? = some (depth known b.hash)
  onBranch : ∀ b ∈ known, b ∉ t.trunk → t.heights[b.hash]? = some (-depth known b.hash)
  unknown : ∀ h ∉ hashes known, t.heights[h]? = none
  branches : ∀ (h : Hash) (b : BlockRef Hash),
    t.branches[h]? = some b ↔ b ∈ known ∧ b ∉ t.trunk ∧ b.hash = h
  accWork : t.accWork = runningWork 0 t.trunk

namespace Represents

variable {known : List (BlockRef Hash)} {t : BlockTree Hash}

theorem trunk_known (rep : Represents known t) {b : BlockRef Hash} (member : b ∈ t.trunk) :
    b ∈ known := by
  obtain ⟨tip, -, path⟩ := rep.trunk
  exact mem_of_mem_lineage (path ▸ List.mem_reverse.mpr member)

theorem trunk_ne_nil (rep : Represents known t) : t.trunk ≠ [] := by
  obtain ⟨tip, isKnown, path⟩ := rep.trunk
  intro nothing
  rw [nothing, List.reverse_nil] at path
  exact lineage_eq_nil.mp path.symm isKnown

theorem trunk_hashes_nodup (rep : Represents known t) (grown : Grown known) :
    (hashes t.trunk).Nodup := by
  obtain ⟨tip, -, path⟩ := rep.trunk
  have distinct := grown.lineage_hashes_nodup tip
  rw [← path, hashes, List.map_reverse, List.nodup_reverse] at distinct
  exact distinct

/-- The trunk below a block of the trunk is the path of that block, upside down. -/
theorem trunk_split (rep : Represents known t) (grown : Grown known) {b : BlockRef Hash}
    (member : b ∈ t.trunk) :
    ∃ low high, t.trunk = low ++ b :: high ∧ lineage known b.hash = b :: low.reverse := by
  obtain ⟨tip, -, path⟩ := rep.trunk
  obtain ⟨low, high, split⟩ := List.append_of_mem member
  refine ⟨low, high, split, ?_⟩
  rw [split, List.reverse_append, List.reverse_cons, List.append_assoc, List.singleton_append]
    at path
  exact grown.lineage_below _ path.symm

theorem depth_nonneg (grown : Grown known) {b : BlockRef Hash} (member : b ∈ known) :
    0 ≤ depth known b.hash := by
  obtain ⟨below, path⟩ := grown.exists_lineage member
  have path : lineage known b.hash = b :: below := path
  rw [depth, path, List.length_cons]
  omega

/-- The genesis ends every path, so it lies on the trunk. -/
theorem exists_below (rep : Represents known t) (grown : Grown known) {b : BlockRef Hash}
    (member : b ∈ known) (off : b ∉ t.trunk) :
    ∃ p below, lineage known b.hash = b :: p :: below ∧ p ∈ known := by
  obtain ⟨tip, isKnown, path⟩ := rep.trunk
  have known_b : b.hash ∈ hashes known := List.mem_map_of_mem member
  obtain ⟨below, here⟩ := grown.exists_lineage member
  have here : lineage known b.hash = b :: below := here
  cases below with
  | nil =>
    have last := grown.lineage_getLast? known_b
    rw [here, ← grown.lineage_getLast? isKnown, ← path] at last
    exact absurd (List.mem_reverse.mp (List.mem_of_getLast? last.symm)) off
  | cons p below =>
    refine ⟨p, below, here, mem_of_mem_lineage (h := b.hash) ?_⟩
    rw [here]
    exact List.mem_cons_of_mem _ List.mem_cons_self

theorem depth_pos (rep : Represents known t) (grown : Grown known) {b : BlockRef Hash}
    (member : b ∈ known) (off : b ∉ t.trunk) : 0 < depth known b.hash := by
  obtain ⟨p, below, path, -⟩ := rep.exists_below grown member off
  rw [depth, path, List.length_cons, List.length_cons]
  omega

/-! ### Lookups -/

theorem heightOf_trunk (rep : Represents known t) {b : BlockRef Hash} (member : b ∈ t.trunk) :
    t.heightOf b.hash = .ok (depth known b.hash) := by
  rw [SparseTree.heightOf, rep.onTrunk b member]

theorem heightOf_branch (rep : Represents known t) {b : BlockRef Hash} (member : b ∈ known)
    (off : b ∉ t.trunk) : t.heightOf b.hash = .ok (-depth known b.hash) := by
  rw [SparseTree.heightOf, rep.onBranch b member off]

theorem trunkAt_depth (rep : Represents known t) (grown : Grown known) {b : BlockRef Hash}
    (member : b ∈ t.trunk) : t.trunkAt (depth known b.hash) = .ok b := by
  obtain ⟨low, high, split, path⟩ := rep.trunk_split grown member
  have index : depth known b.hash = low.length := by
    rw [depth, path, List.length_cons, List.length_reverse]
    omega
  have found : t.trunk[low.length]? = some b := by
    rw [split, List.getElem?_append_right (le_refl _), Nat.sub_self]
    rfl
  rw [SparseTree.trunkAt, index, if_neg (by omega), Int.toNat_natCast, found]

theorem find_known (rep : Represents known t) (grown : Grown known) {b : BlockRef Hash}
    (member : b ∈ known) : t.find b.hash = .ok (some b) := by
  unfold SparseTree.find
  by_cases on : b ∈ t.trunk
  · have low := depth_nonneg grown member
    rw [rep.onTrunk b on]
    simp only
    rw [if_neg (by omega), rep.trunkAt_depth grown on]
    rfl
  · have high := rep.depth_pos grown member on
    have stored := (rep.branches b.hash b).mpr ⟨member, on, rfl⟩
    rw [rep.onBranch b member on]
    simp only
    rw [if_pos (by omega), stored]

theorem find_unknown (rep : Represents known t) {h : Hash} (unknown : h ∉ hashes known) :
    t.find h = .ok none := by
  unfold SparseTree.find
  rw [rep.unknown h unknown]

theorem best_eq (rep : Represents known t) : ∃ tip, t.trunk.getLast? = some tip ∧
    t.best = .ok tip ∧ lineage known tip.hash = t.trunk.reverse := by
  obtain ⟨tip, isKnown, path⟩ := rep.trunk
  obtain ⟨low, last, split⟩ := List.eq_nil_or_concat' t.trunk |>.resolve_left rep.trunk_ne_nil
  have found : t.trunk.getLast? = some last := by rw [split, List.getLast?_concat]
  refine ⟨last, found, by rw [best, found], ?_⟩
  have here := path
  rw [split, List.reverse_append, List.reverse_singleton, List.singleton_append] at here
  have same : last.hash = tip := hash_of_lineage here.symm
  rw [same, path]

/-- One turn of the backward loop goes from a branch block to its predecessor. -/
theorem stepBranch_branch (rep : Represents known t) (grown : Grown known) {b p : BlockRef Hash}
    {below : List (BlockRef Hash)} (path : lineage known b.hash = b :: p :: below) :
    t.stepBranch b = .ok p ∧ ∃ h, t.heightOf p.hash = .ok h ∧ (0 ≤ h → t.trunkAt h = .ok p) := by
  have linked : TreeElem.prev b = p.hash := grown.lineage_next path
  have known_p : p ∈ known :=
    mem_of_mem_lineage (h := b.hash) (by rw [path]; simp)
  rw [SparseTree.stepBranch, linked]
  by_cases on : p ∈ t.trunk
  · have missing : t.branches[p.hash]? = none := by
      refine Option.eq_none_iff_forall_ne_some.mpr fun c found => ?_
      obtain ⟨known_c, off_c, same⟩ := (rep.branches p.hash c).mp found
      exact off_c (grown.eq_of_hash known_c known_p same ▸ on)
    have at_p := rep.trunkAt_depth grown on
    rw [missing, rep.onTrunk p on]
    exact ⟨at_p, _, rep.heightOf_trunk on, fun _ => at_p⟩
  · have stored := (rep.branches p.hash p).mpr ⟨known_p, on, rfl⟩
    have deep := rep.depth_pos grown known_p on
    rw [stored]
    refine ⟨rfl, _, rep.heightOf_branch known_p on, fun nonneg => ?_⟩
    omega

/-- One step back from a branch block goes to its predecessor. -/
theorem back_branch (rep : Represents known t) (grown : Grown known) {b p : BlockRef Hash}
    {below : List (BlockRef Hash)} (off : b ∉ t.trunk)
    (path : lineage known b.hash = b :: p :: below) : t.back b = .ok p := by
  have member : b ∈ known := mem_of_mem_lineage (path ▸ List.mem_cons_self)
  have negative := rep.depth_pos grown member off
  obtain ⟨step, h, height, above⟩ := rep.stepBranch_branch grown path
  have walk : t.walkBranch 1 b = .ok (p, 0) := by
    unfold SparseTree.walkBranch
    show t.heightOf b.hash >>= _ = _
    rw [rep.heightOf_branch member off, ok_bind, if_pos (by omega), step]
    rfl
  have moved : t.advance b (-1) = .ok (some p) := by
    unfold SparseTree.advance
    rw [if_neg (by omega), if_pos (by omega)]
    show t.walkBranch 1 b >>= _ = _
    rw [walk, ok_bind]
    show t.heightOf p.hash >>= _ = _
    rw [height, ok_bind]
    by_cases nonneg : 0 ≤ h
    · have zero : h - ((0 : Nat) : Int) = h := by omega
      rw [zero, if_pos nonneg, above nonneg]
      rfl
    · rw [if_neg (by omega)]
      rfl
  rw [SparseTree.back, moved, ok_bind]
  rfl

/-! ### Walks along a branch -/

/-- The path of `base` runs over the branch blocks `up` to the trunk block `root`, and then down the
trunk. -/
structure Fork (known : List (BlockRef Hash)) (t : BlockTree Hash) (base : BlockRef Hash)
    (up : List (BlockRef Hash)) (root : BlockRef Hash) (low high : List (BlockRef Hash)) : Prop where
  member : base ∈ known
  path : lineage known base.hash = up ++ root :: low.reverse
  split : t.trunk = low ++ root :: high
  off : ∀ c ∈ up, c ∉ t.trunk

theorem exists_fork (rep : Represents known t) (grown : Grown known) {b : BlockRef Hash}
    (member : b ∈ known) : ∃ up root low high, Fork known t b up root low high := by
  obtain ⟨tip, isKnown, path⟩ := rep.trunk
  have known_b : b.hash ∈ hashes known := List.mem_map_of_mem member
  obtain ⟨up, root, below, above, here, there, free⟩ := grown.exists_fork known_b isKnown
  refine ⟨up, root, below.reverse, above.reverse, member, by rw [here, List.reverse_reverse], ?_, ?_⟩
  · have flipped := congrArg List.reverse (path.trans there)
    rw [List.reverse_reverse] at flipped
    rw [flipped, List.reverse_append, List.reverse_cons, List.append_assoc,
      List.singleton_append]
  · intro c inside on
    exact free c inside (path ▸ List.mem_reverse.mpr on)

namespace Fork

variable {base root : BlockRef Hash} {up low high : List (BlockRef Hash)}

theorem root_mem (fork : Fork known t base up root low high) : root ∈ t.trunk := by
  simp [fork.split]

/-- The path begins with the block itself. -/
theorem eq_base (fork : Fork known t base up root low high) (grown : Grown known) {b : BlockRef Hash}
    {rest : List (BlockRef Hash)} (path : up ++ root :: low.reverse = b :: rest) : b = base := by
  obtain ⟨below, head⟩ := grown.exists_lineage fork.member
  exact (List.cons.inj (path.symm.trans (fork.path.symm.trans head))).1

/-- A step down the branch leads to a fork with the same root. -/
theorem exists_below {c : BlockRef Hash} (fork : Fork known t base (c :: up) root low high) (grown : Grown known) :
    ∃ p tail, up ++ root :: low.reverse = p :: tail ∧ lineage known base.hash = c :: p :: tail ∧
      Fork known t p up root low high := by
  obtain ⟨p, tail, next⟩ := List.exists_cons_of_ne_nil (show up ++ root :: low.reverse ≠ [] by simp)
  have path : lineage known base.hash = c :: p :: tail := by
    rw [fork.path, List.cons_append, next]
  have below : lineage known p.hash = p :: tail := grown.lineage_below [c] path
  refine ⟨p, tail, next, path, ?_⟩
  exact
    { member := mem_of_mem_lineage (below ▸ List.mem_cons_self)
      path := below.trans next.symm
      split := fork.split
      off := fun d inside => fork.off d (List.mem_cons_of_mem _ inside) }

theorem up_known (fork : Fork known t base up root low high) {b : BlockRef Hash} (inside : b ∈ up) :
    b ∈ known :=
  mem_of_mem_lineage (h := base.hash) (by rw [fork.path]; exact List.mem_append_left _ inside)

theorem up_distinct (fork : Fork known t base up root low high) (grown : Grown known) :
    (hashes up).Nodup := by
  have distinct := grown.lineage_hashes_nodup base.hash
  rw [show lineage known base.hash = _ from fork.path, hashes, List.map_append] at distinct
  exact distinct.of_append_left

theorem high_mem (fork : Fork known t base up root low high) {b : BlockRef Hash}
    (inside : b ∈ high) : b ∈ t.trunk := by
  simp [fork.split, inside]

theorem high_known (fork : Fork known t base up root low high) (rep : Represents known t)
    {b : BlockRef Hash} (inside : b ∈ high) : b ∈ known :=
  rep.trunk_known (fork.high_mem inside)

theorem split_root (fork : Fork known t base up root low high) :
    t.trunk = (low ++ [root]) ++ high := by
  rw [fork.split, List.append_assoc, List.singleton_append]

theorem low_apart (fork : Fork known t base up root low high) (rep : Represents known t)
    (grown : Grown known) {b : BlockRef Hash} (inside : b ∈ low ++ [root]) : b ∉ high := by
  intro inHigh
  have distinct := rep.trunk_hashes_nodup grown
  rw [fork.split_root, hashes, List.map_append] at distinct
  exact (List.disjoint_of_nodup_append distinct) (List.mem_map_of_mem inside)
    (List.mem_map_of_mem inHigh)

theorem high_distinct (fork : Fork known t base up root low high) (rep : Represents known t)
    (grown : Grown known) : (hashes high).Nodup := by
  have distinct := rep.trunk_hashes_nodup grown
  rw [fork.split_root, hashes, List.map_append] at distinct
  exact distinct.of_append_right

/-- The height where the branch begins. -/
theorem root_depth (fork : Fork known t base up root low high) (grown : Grown known) :
    depth known root.hash = low.length := by
  have path : lineage known root.hash = root :: low.reverse := grown.lineage_below _ fork.path
  rw [depth, path, List.length_cons, List.length_reverse]
  omega

omit [LinearOrder Hash] in
/-- More steps than the branch is long stop where it begins. -/
theorem stop_beyond {n : Nat} (beyond : up.length ≤ n) : (up ++ [root])[min n up.length]? = some root := by
  rw [Nat.min_eq_right beyond, List.getElem?_append_right le_rfl, Nat.sub_self]
  rfl

/-- The blocks of the trunk above the fork share no hash with the branch. -/
theorem apart (fork : Fork known t base up root low high) (rep : Represents known t)
    (grown : Grown known) {b c : BlockRef Hash} (onBranch : b ∈ up) (onTrunk : c ∈ t.trunk) :
    b.hash ≠ c.hash := by
  intro same
  have equal := grown.eq_of_hash (fork.up_known onBranch) (rep.trunk_known onTrunk) same
  exact fork.off b onBranch (equal ▸ onTrunk)

end Fork

theorem fuel_enough (rep : Represents known t) {b root : BlockRef Hash}
    {up low high : List (BlockRef Hash)} (fork : Fork known t b up root low high) :
    up.length < t.fuel b := by
  have height : (t.heights.getD b.hash 0).natAbs = (depth known b.hash).natAbs := by
    rw [Map.getD_lookup]
    by_cases on : b ∈ t.trunk
    · rw [rep.onTrunk b on, Option.getD_some]
    · rw [rep.onBranch b fork.member on, Option.getD_some, Int.natAbs_neg]
  have long : depth known b.hash = up.length + low.length := by
    rw [depth, fork.path, List.length_append, List.length_cons, List.length_reverse]
    omega
  show up.length < t.heights.size + (t.heights.getD b.hash 0).natAbs + 1
  rw [height, long]
  omega

theorem sumBranch_branch (rep : Represents known t) (grown : Grown known)
    {root : BlockRef Hash} {below : List (BlockRef Hash)} (isRoot : root ∈ t.trunk)
    (up : List (BlockRef Hash)) (turns : Nat) (enough : up.length < turns) (b : BlockRef Hash)
    (sum : Int) (path : lineage known b.hash = b :: up ++ root :: below)
    (off : ∀ c ∈ b :: up, c ∉ t.trunk) :
    t.sumBranch turns b sum = .ok (sum + workOf up, depth known root.hash) := by
  induction up generalizing turns b sum with
  | nil =>
    obtain ⟨turns, rfl⟩ := Nat.exists_eq_add_of_lt enough
    have nonneg := depth_nonneg grown (rep.trunk_known isRoot)
    rw [sumBranch, rep.back_branch grown (off b List.mem_cons_self) path, ok_bind,
      rep.heightOf_trunk isRoot, ok_bind, if_neg (by omega), workOf_nil, add_zero]
    rfl
  | cons c up ih =>
    obtain ⟨turns, rfl⟩ := Nat.exists_eq_add_of_lt enough
    have offC : c ∉ t.trunk := off c (by simp)
    have below_b : lineage known c.hash = c :: up ++ root :: below :=
      grown.lineage_below [b] path
    have known_c : c ∈ known := mem_of_mem_lineage (h := c.hash) (by rw [below_b]; simp)
    have negative := rep.depth_pos grown known_c offC
    rw [sumBranch, rep.back_branch grown (off b List.mem_cons_self) path, ok_bind,
      rep.heightOf_branch known_c offC, ok_bind, if_pos (by omega),
        ih _ (by rw [List.length_cons]; omega) c _ below_b
      fun d inside => off d (List.mem_cons_of_mem _ inside), workOf_cons, add_assoc]

theorem accumulatedWork_known (rep : Represents known t) (grown : Grown known)
    {b : BlockRef Hash} (member : b ∈ known) :
    t.accumulatedWork b = .ok (workOf (lineage known b.hash)) := by
  have onTrunk : ∀ {b : BlockRef Hash}, b ∈ t.trunk → 0 ≤ depth known b.hash ∧
      t.workAt (depth known b.hash) = .ok (workOf (lineage known b.hash)) := by
    intro b on
    obtain ⟨low, high, split, path⟩ := rep.trunk_split grown on
    have index : depth known b.hash = low.length := by
      rw [depth, path, List.length_cons, List.length_reverse]
      omega
    refine ⟨by omega, ?_⟩
    rw [workAt, index, if_neg (by omega), Int.toNat_natCast, rep.accWork, split,
      runningWork_getElem?, path, workOf_cons, workOf_reverse, zero_add, add_comm b.work]
  unfold accumulatedWork
  by_cases on : b ∈ t.trunk
  · obtain ⟨nonneg, work⟩ := onTrunk on
    rw [rep.heightOf_trunk on, ok_bind, if_neg (by omega), work]
  · obtain ⟨up, root, low, high, fork⟩ := rep.exists_fork grown member
    have path := fork.path
    have isRoot := fork.root_mem
    have negative := rep.depth_pos grown member on
    obtain ⟨rest, head⟩ := grown.exists_lineage member
    cases up with
    | nil => exact absurd ((List.cons.inj (path.symm.trans head)).1 ▸ isRoot) on
    | cons c up =>
      obtain rfl : c = b := (List.cons.inj (path.symm.trans head)).1
      have enough := rep.fuel_enough fork
      rw [List.length_cons] at enough
      have root_path : lineage known root.hash = root :: low.reverse := grown.lineage_below _ path
      rw [rep.heightOf_branch member on, ok_bind, if_pos (by omega),
        rep.sumBranch_branch grown isRoot up (t.fuel c) (by omega) c c.work path fork.off,
        ok_bind]
      show t.workAt (depth known root.hash) >>= _ = _
      rw [(onTrunk isRoot).2, ok_bind, path, root_path, workOf_append, workOf_cons c]
      rfl

theorem collect_branch (rep : Represents known t) (grown : Grown known) {root : BlockRef Hash}
    {low high : List (BlockRef Hash)} (up : List (BlockRef Hash)) (turns : Nat)
    (enough : up.length < turns) (b : BlockRef Hash) (met : List Hash)
    (fork : Fork known t b up root low high) :
    t.collect turns b met = .ok (met ++ hashes up, root) := by
  induction up generalizing turns b met with
  | nil =>
    obtain ⟨turns, rfl⟩ := Nat.exists_eq_add_of_lt enough
    obtain rfl := fork.eq_base grown rfl
    have nonneg := depth_nonneg grown fork.member
    rw [collect, rep.heightOf_trunk fork.root_mem, ok_bind, if_neg (by omega), hashes,
      List.map_nil, List.append_nil]
    rfl
  | cons c up ih =>
    obtain ⟨turns, rfl⟩ := Nat.exists_eq_add_of_lt enough
    obtain rfl := fork.eq_base grown rfl
    have offC : c ∉ t.trunk := fork.off c List.mem_cons_self
    have negative := rep.depth_pos grown fork.member offC
    obtain ⟨p, tail, -, path_p, fork_p⟩ := fork.exists_below grown
    rw [collect, rep.heightOf_branch fork.member offC, ok_bind, if_pos (by omega),
      rep.back_branch grown offC path_p, ok_bind, ih _ (by rw [List.length_cons]; omega) p _ fork_p,
      hashes, hashes, List.map_cons, List.append_assoc, List.singleton_append]
    rfl

end Represents

end BlockTree

end Libcoin
