/-
Stepping back through the tree, and the order of its iterators.

* `minus` is `operator-` of an iterator, and `stepsBack` the loop that repeats `--it`.
* `minus_minus_iff` and `backward_exact`: an iterator never gets to `end()` in this direction.
* `lessThan_known` computes `operator<`, and `lessThan_exact` says where it is the order of the ancestors.
-/

import Libcoin.Tree.Retarget

namespace Libcoin

namespace SparseTree

variable {Elem Hash : Type} [LinearOrder Hash] [TreeElem Elem Hash]

open TreeElem

/-- `Iterator::operator-`. -/
def minus (t : SparseTree Elem Hash) (it : Option Elem) (n : Int) : Except Fault (Option Elem) :=
  match it with
  | none => .ok none
  | some e => t.advance e (-n)

/-- `--it` so many times. -/
def stepsBack (t : SparseTree Elem Hash) : Nat → Option Elem → Except Fault (Option Elem)
  | 0, it => .ok it
  | n + 1, it => do
    let it ← t.minus it 1
    stepsBack t n it

/-- The loop of `Iterator::operator<`, which crawls back from `rhs`. -/
def crawl [DecidableEq Elem] (t : SparseTree Elem Hash) (lhs : Elem) (lheight : Int) :
    Nat → Elem → Except Fault Bool
  | 0, _ => .error .undefined
  | turns + 1, rhs => do
    match ← t.advance rhs (-1) with
    | none => return false
    | some rhs =>
      if rhs = lhs then return true
      else do
        let rheight ← t.heightOf (hash rhs)
        if 0 ≤ rheight then return if lheight < 0 then false else decide (lheight < rheight)
        else crawl t lhs lheight turns rhs

/-- `Iterator::operator<`. -/
def lessThan [DecidableEq Elem] (t : SparseTree Elem Hash) (lhs rhs : Option Elem) : Except Fault Bool :=
  match lhs, rhs with
  | some lhs, some rhs => do
    let lheight ← t.heightOf (hash lhs)
    let rheight ← t.heightOf (hash rhs)
    if rheight.natAbs < lheight.natAbs then return false
    else if lheight < 0 ∧ 0 < rheight then return false
    else if 0 < lheight ∧ 0 < rheight then return true
    else crawl t lhs lheight (t.fuel rhs) rhs
  | _, _ => .ok false

/-- `Iterator::ancestor`. -/
def firstAncestor [DecidableEq Elem] (t : SparseTree Elem Hash) (it : Option Elem) :
    List Hash → Except Fault (Option Elem)
  | [] => .ok none
  | h :: rest => do
    let itr ← t.find h
    let below ← t.lessThan itr it
    if below then return itr else firstAncestor t it rest

end SparseTree

namespace BlockTree

open Exec

variable {Hash : Type} [LinearOrder Hash] {known : List (BlockRef Hash)} {t : BlockTree Hash}
  {b root : BlockRef Hash} {up low high : List (BlockRef Hash)}

/-! ### Steps back -/

namespace Represents

/-- Beyond the first block an iterator stays where its branch begins. -/
theorem advance_beyond (rep : Represents known t) (grown : Grown known) (fork : Fork known t b up root low high)
    {n : Nat} (beyond : up.length + low.length < n) : t.advance b (-n) = .ok (some root) := by
  have stop : (up ++ [root])[min n up.length]? = some root := Fork.stop_beyond (by omega)
  unfold SparseTree.advance
  rw [if_neg (by omega), if_pos (by omega), Int.natAbs_neg, Int.natAbs_natCast]
  show t.walkBranch n b >>= _ = _
  rw [rep.walkBranch_fork grown fork n stop, ok_bind]
  show t.heightOf root.hash >>= _ = _
  rw [rep.heightOf_trunk fork.root_mem, ok_bind, fork.root_depth grown, if_neg (by omega)]
  rfl

/-- So many steps back lead to that ancestor, or to the begin of the branch when there are fewer. -/
theorem minus_known (rep : Represents known t) (grown : Grown known) (fork : Fork known t b up root low high)
    (n : Nat) :
    t.minus (some b) n = .ok (if n < (lineage known b.hash).length then (lineage known b.hash)[n]? else some root) := by
  have bound := fork.length
  show t.advance b (-n) = _
  rcases Nat.eq_zero_or_pos n with rfl | positive
  · obtain ⟨rest, head⟩ := grown.exists_lineage fork.member
    have head : lineage known b.hash = b :: rest := head
    rw [head, if_pos (by simp)]
    rfl
  · split
    · rename_i inside
      rw [rep.advance_back grown fork positive (.inl (by omega)), ancestor, Nat.min_eq_left (by omega)]
    · exact rep.advance_beyond grown fork (by omega)

/-- One step back from a block that is not the first one. -/
theorem advance_one (rep : Represents known t) (grown : Grown known) {p : BlockRef Hash} {below : List (BlockRef Hash)}
    (member : b ∈ known) (path : lineage known b.hash = b :: p :: below) : t.advance b (-1) = .ok (some p) := by
  obtain ⟨up, root, low, high, fork⟩ := rep.exists_fork grown member
  have moved := rep.minus_known grown fork 1
  rw [path, if_pos (by simp)] at moved
  exact moved

/-- The step back from the first block does nothing. -/
theorem advance_first (rep : Represents known t) (grown : Grown known) (member : b ∈ known)
    (path : lineage known b.hash = [b]) : t.advance b (-1) = .ok (some b) := by
  obtain ⟨up, root, low, high, fork⟩ := rep.exists_fork grown member
  -- the genesis is a block of the trunk
  obtain ⟨rfl, rfl⟩ : up = [] ∧ root = b := by
    have path := fork.path.symm.trans path
    cases up with
    | nil => exact ⟨rfl, (List.cons.inj path).1⟩
    | cons c up => simp at path
  have moved := rep.minus_known grown fork 1
  rw [path, if_neg (by simp)] at moved
  exact moved

/-- The loop visits each ancestor, and then stays on the first block. -/
theorem stepsBack_known (rep : Represents known t) (grown : Grown known) (member : b ∈ known) (k : Nat) :
    t.stepsBack k (some b) = .ok (ancestor (lineage known b.hash) k) := by
  obtain ⟨rest, path⟩ := grown.exists_lineage member
  have head : lineage known b.hash = b :: rest := path
  clear path
  unfold ancestor
  rw [head]
  induction k generalizing b rest with
  | zero => rfl
  | succ k ih =>
    unfold SparseTree.stepsBack
    show t.advance b (-1) >>= _ = _
    cases rest with
    | nil =>
      rw [rep.advance_first grown member head, ok_bind, ih member [] head]
      simp
    | cons c rest =>
      have below : lineage known c.hash = c :: rest := grown.lineage_below [b] head
      have known_c : c ∈ known := mem_of_mem_lineage (below ▸ List.mem_cons_self)
      rw [rep.advance_one grown member head, ok_bind, ih known_c rest below]
      simp [Nat.succ_min_succ]

end Represents

/-! ### The order -/

namespace Represents

variable {a : BlockRef Hash}

theorem depth_lt_of_mem_tail (grown : Grown known) {h : Hash} (below : a ∈ (lineage known h).tail) :
    depth known a.hash < depth known h := by
  obtain ⟨before, after, split⟩ := List.append_of_mem below
  cases path : lineage known h with
  | nil =>
    rw [path] at below
    cases below
  | cons c rest =>
    rw [path, List.tail_cons] at split
    have under : lineage known a.hash = a :: after :=
      grown.lineage_below (h := h) (c :: before) (by rw [path, split, List.cons_append])
    rw [depth, depth, path, under, split, List.length_cons, List.length_cons, List.length_append, List.length_cons]
    omega

/-- The blocks of the trunk below one of its blocks are those with a lower height. -/
theorem mem_low_iff (rep : Represents known t) (grown : Grown known) (split : t.trunk = low ++ root :: high)
    (on : a ∈ t.trunk) : a ∈ low ↔ depth known a.hash < low.length := by
  obtain ⟨low', high', split', path⟩ := rep.trunk_split grown on
  have height : depth known a.hash = low'.length := by
    rw [depth, path, List.length_cons, List.length_reverse]
    omega
  have found : t.trunk[low'.length]? = some a := by
    rw [split', List.getElem?_append_right le_rfl, Nat.sub_self]
    rfl
  rw [height, Nat.cast_lt]
  constructor
  · intro inside
    by_contra above
    rw [split, List.getElem?_append_right (not_lt.mp above)] at found
    have distinct := (rep.trunk_hashes_nodup grown).of_map
    rw [split] at distinct
    exact List.disjoint_of_nodup_append distinct inside (List.mem_of_getElem? found)
  · intro less
    rw [split, List.getElem?_append_left less] at found
    exact List.mem_of_getElem? found

theorem eq_of_depth (rep : Represents known t) (grown : Grown known) (on : a ∈ t.trunk) (on' : b ∈ t.trunk)
    (same : depth known a.hash = depth known b.hash) : a = b := by
  have found := rep.trunkAt_depth grown on
  rw [same, rep.trunkAt_depth grown on'] at found
  exact (Except.ok.inj found).symm

/-- The sign of a height says whether a block is on the trunk. -/
theorem heightOf_cases (rep : Represents known t) (grown : Grown known) (member : a ∈ known) :
    ∃ height, t.heightOf a.hash = .ok height ∧ height.natAbs = (depth known a.hash).toNat ∧
      (height < 0 ↔ a ∉ t.trunk) ∧ (a ∈ t.trunk → height = depth known a.hash) := by
  by_cases on : a ∈ t.trunk
  · have nonneg := depth_nonneg grown member
    exact ⟨_, rep.heightOf_trunk on, by omega, iff_of_false (by omega) (not_not.mpr on), fun _ => rfl⟩
  · have positive := rep.depth_pos grown member on
    exact ⟨_, rep.heightOf_branch member on, by omega, iff_of_true (by omega) on, fun on' => absurd on' on⟩

/-- From a branch the loop looks for `lhs` among the ancestors, down to the trunk, and compares the heights there. -/
theorem crawl_known (rep : Represents known t) (grown : Grown known) (member : a ∈ known)
    (fork : Fork known t b up root low high) (off : up ≠ []) {lheight : Int}
    (height : t.heightOf a.hash = .ok lheight) {turns : Nat} (enough : up.length ≤ turns) :
    t.crawl a lheight turns b = .ok (decide (a ∈ (lineage known b.hash).tail)) := by
  induction up generalizing b turns with
  | nil => exact absurd rfl off
  | cons c up ih =>
    obtain ⟨turns, rfl⟩ := Nat.exists_eq_succ_of_ne_zero (Nat.ne_of_gt (Nat.lt_of_lt_of_le (Nat.succ_pos _) enough))
    obtain rfl := fork.eq_base grown rfl
    obtain ⟨p, below, next, path, fork_p⟩ := fork.exists_below grown
    have path_p : lineage known p.hash = p :: below := fork_p.path.trans next
    unfold SparseTree.crawl
    rw [rep.advance_one grown fork.member path, ok_bind, path, List.tail_cons]
    dsimp only
    by_cases met : p = a
    · rw [if_pos met, met, decide_eq_true List.mem_cons_self]
      rfl
    · rw [if_neg met]
      have further : a ∈ p :: below ↔ a ∈ below := by
        rw [List.mem_cons, or_iff_right (Ne.symm met)]
      rw [decide_eq_decide.mpr further]
      cases up with
      | nil =>
        -- the branch ends on the trunk
        obtain ⟨rfl, rfl⟩ : root = p ∧ low.reverse = below := List.cons.inj next
        obtain ⟨height', same, -, sign, trunk⟩ := rep.heightOf_cases grown member
        obtain rfl : lheight = height' := Except.ok.inj (height.symm.trans same)
        have root_height := fork.root_depth grown
        show t.heightOf root.hash >>= _ = _
        rw [rep.heightOf_trunk fork.root_mem, ok_bind, root_height, if_pos (by omega)]
        by_cases on : a ∈ t.trunk
        · rw [if_neg fun negative => sign.mp negative on, trunk on]
          have order := List.mem_reverse.trans (rep.mem_low_iff grown fork.split on)
          rw [decide_eq_decide.mpr order]
          rfl
        · have apart : a ∉ low.reverse := fun inside =>
            on (fork.split ▸ List.mem_append_left _ (List.mem_reverse.mp inside))
          rw [if_pos (sign.mpr on), decide_eq_false apart]
          rfl
      | cons d up =>
        obtain rfl : d = p := (List.cons.inj next).1
        have off_p : d ∉ t.trunk := fork.off d (List.mem_cons_of_mem _ List.mem_cons_self)
        have positive := rep.depth_pos grown fork_p.member off_p
        show t.heightOf d.hash >>= _ = _
        rw [rep.heightOf_branch fork_p.member off_p, ok_bind, if_neg (by omega),
          ih fork_p (List.cons_ne_nil _ _) (Nat.le_of_succ_le_succ enough), path_p, List.tail_cons]

/-- `operator<` is the order of the ancestors, and holds of a block of the trunk and itself. -/
theorem lessThan_known (rep : Represents known t) (grown : Grown known) (member : a ∈ known) (member' : b ∈ known) :
    t.lessThan (some a) (some b) = .ok (decide (a ∈ (lineage known b.hash).tail ∨ a = b ∧ a ∈ t.trunk)) := by
  obtain ⟨up, root, low, high, fork⟩ := rep.exists_fork grown member'
  obtain ⟨lheight, height, size, sign, trunk⟩ := rep.heightOf_cases grown member
  obtain ⟨rheight, height', size', sign', trunk'⟩ := rep.heightOf_cases grown member'
  have nonneg := depth_nonneg grown member
  have nonneg' := depth_nonneg grown member'
  unfold SparseTree.lessThan
  dsimp only
  show t.heightOf a.hash >>= _ = _
  rw [height, ok_bind]
  show t.heightOf b.hash >>= _ = _
  rw [height', ok_bind]
  by_cases above : rheight.natAbs < lheight.natAbs
  · have no : ¬(a ∈ (lineage known b.hash).tail ∨ a = b ∧ a ∈ t.trunk) := by
      rintro (below | ⟨rfl, -⟩)
      · have less := depth_lt_of_mem_tail grown below
        omega
      · omega
    rw [if_pos above, decide_eq_false no]
    rfl
  rw [if_neg above]
  by_cases on' : b ∈ t.trunk
  · obtain ⟨low', high', split, path⟩ := rep.trunk_split grown on'
    have place : depth known b.hash = low'.length := by
      rw [depth, path, List.length_cons, List.length_reverse]
      omega
    have value' := trunk' on'
    by_cases on : a ∈ t.trunk
    · have value := trunk on
      have order := rep.mem_low_iff grown split on
      have yes : a ∈ (lineage known b.hash).tail ∨ a = b ∧ a ∈ t.trunk := by
        rcases lt_or_eq_of_le (show depth known a.hash ≤ depth known b.hash by omega) with less | same
        · rw [path, List.tail_cons, List.mem_reverse, order]
          exact .inl (by omega)
        · exact .inr ⟨rep.eq_of_depth grown on on' same, on⟩
      rw [if_neg (by omega), decide_eq_true yes]
      by_cases high : 0 < lheight ∧ 0 < rheight
      · rw [if_pos high]
        rfl
      · -- the genesis is compared with the block below `rhs`, or with itself
        rw [if_neg high]
        unfold SparseTree.fuel SparseTree.crawl
        cases low' with
        | nil =>
          have stays := rep.minus_known grown (⟨member', path, split, fun _ inside => absurd inside List.not_mem_nil⟩ :
            Fork known t b [] b [] high') 1
          rw [path, if_neg (by simp)] at stays
          obtain rfl : a = b := rep.eq_of_depth grown on on' (by rw [place, List.length_nil]; omega)
          show t.minus (some a) ((1 : Nat) : Int) >>= _ = _
          rw [stays, ok_bind]
          dsimp only
          rw [if_pos rfl]
          rfl
        | cons c low' =>
          obtain ⟨p, below, next⟩ := List.exists_cons_of_ne_nil (show (c :: low').reverse ≠ [] by simp)
          rw [next] at path
          have path_p : lineage known p.hash = p :: below := grown.lineage_below [b] path
          have on_p : p ∈ t.trunk := by
            rw [split]
            refine List.mem_append_left _ (List.mem_reverse.mp ?_)
            rw [next]
            exact List.mem_cons_self
          rw [rep.advance_one grown member' path, ok_bind]
          dsimp only
          by_cases met : p = a
          · rw [if_pos met]
            rfl
          · have nonneg_p := depth_nonneg grown (rep.trunk_known on_p)
            have positive : 0 < depth known p.hash := by
              refine lt_of_le_of_ne nonneg_p fun zero => met (rep.eq_of_depth grown on_p on ?_)
              omega
            rw [if_neg met]
            show t.heightOf p.hash >>= _ = _
            rw [rep.heightOf_trunk on_p, ok_bind, if_pos nonneg_p, if_neg (by omega), decide_eq_true (by omega)]
            rfl
    · have no : ¬(a ∈ (lineage known b.hash).tail ∨ a = b ∧ a ∈ t.trunk) := by
        rintro (below | ⟨-, on⟩)
        · rw [path, List.tail_cons, List.mem_reverse] at below
          exact on (split ▸ List.mem_append_left _ below)
        · contradiction
      have negative := sign.mpr on
      rw [if_pos (by omega), decide_eq_false no]
      rfl
  · have below := sign'.mpr on'
    have off : up ≠ [] := by
      rintro rfl
      obtain ⟨rest, path⟩ := grown.exists_lineage member'
      obtain rfl : root = b := (List.cons.inj (fork.path.symm.trans path)).1
      exact on' fork.root_mem
    have enough : up.length ≤ t.fuel b := (rep.fuel_enough fork).le
    have only : a ∈ (lineage known b.hash).tail ↔ a ∈ (lineage known b.hash).tail ∨ a = b ∧ a ∈ t.trunk :=
      ⟨.inl, fun either => either.resolve_right fun both => on' (both.1 ▸ both.2)⟩
    rw [if_neg (by omega), if_neg (by omega), rep.crawl_known grown member fork off height enough,
      decide_eq_decide.mpr only]

end Represents

/-! ### Every tree -/

section Reached

variable [Zero Hash] {a c : BlockRef Hash}

/-- The link from `b` to the block before it. -/
def Follows (known : List (BlockRef Hash)) (a b : BlockRef Hash) : Prop :=
  a ∈ known ∧ b ∈ known ∧ known.getLast? ≠ some b ∧ b.prev = a.hash

omit [Zero Hash] in
theorem follows_iff (grown : Grown known) (member : b ∈ known) :
    Follows known a b ↔ (lineage known b.hash).tail.head? = some a := by
  obtain ⟨rest, path⟩ := grown.exists_lineage member
  have head : lineage known b.hash = b :: rest := path
  have last : (lineage known b.hash).getLast? = known.getLast? := grown.lineage_getLast? (List.mem_map_of_mem member)
  rw [head] at last ⊢
  rw [List.tail_cons]
  cases rest with
  | nil => exact iff_of_false (fun link => link.2.2.1 last.symm) nofun
  | cons d rest =>
    have known_d : d ∈ known := mem_of_mem_lineage (h := b.hash) (by rw [head]; simp)
    have link : b.prev = d.hash := grown.lineage_next head
    rw [List.head?_cons, Option.some.injEq]
    constructor
    · rintro ⟨known_a, -, -, link'⟩
      exact grown.eq_of_hash known_d known_a (link.symm.trans link')
    · rintro rfl
      refine ⟨known_d, member, fun genesis => ?_, link⟩
      -- the genesis is at the end of the path, and no block is on it twice
      rw [genesis, List.getLast?_cons_cons] at last
      have distinct := grown.lineage_hashes_nodup b.hash
      rw [head, hashes, List.map_cons] at distinct
      exact (List.nodup_cons.mp distinct).1 (List.mem_map_of_mem (List.mem_of_getLast? last))

omit [Zero Hash] in
/-- The ancestors of a block are those that links lead to. -/
theorem mem_tail_iff (grown : Grown known) (member : b ∈ known) :
    a ∈ (lineage known b.hash).tail ↔ Relation.TransGen (Follows known) a b := by
  constructor
  · intro below
    obtain ⟨rest, path⟩ := grown.exists_lineage member
    have head : lineage known b.hash = b :: rest := path
    clear path
    rw [head, List.tail_cons] at below
    induction rest generalizing b with
    | nil => cases below
    | cons c rest ih =>
      have path_c : lineage known c.hash = c :: rest := grown.lineage_below [b] head
      have link : Follows known c b := (follows_iff grown member).mpr (by rw [head]; rfl)
      rcases List.mem_cons.mp below with rfl | further
      · exact .single link
      · exact .tail (ih link.1 further path_c) link
  · intro links
    induction links with
    | single link => exact List.mem_of_head? ((follows_iff grown member).mp link)
    | @tail c b links link ih =>
      have first := (follows_iff grown member).mp link
      have inside := ih link.1
      obtain ⟨rest, path⟩ := grown.exists_lineage member
      have head : lineage known b.hash = b :: rest := path
      rw [head, List.tail_cons] at first ⊢
      obtain ⟨rest, rfl⟩ : ∃ others, rest = c :: others := by
        cases rest with
        | nil => cases first
        | cons d rest => exact ⟨rest, by rw [Option.some.inj first]⟩
      have path_c : lineage known c.hash = c :: rest := grown.lineage_below [b] head
      rw [path_c, List.tail_cons] at inside
      exact List.mem_cons_of_mem _ inside

/-- The blocks of a path before it gets to the trunk. -/
def offTrunk (t : BlockTree Hash) (path : List (BlockRef Hash)) : Nat := path.countP (fun e => decide (e ∉ t.trunk))

omit [Zero Hash] in
theorem Represents.offTrunk_fork (fork : Fork known t b up root low high) :
    offTrunk t (lineage known b.hash) = up.length := by
  have on : ∀ e ∈ root :: low.reverse, e ∈ t.trunk := by
    intro e inside
    rw [fork.split_root]
    exact List.mem_append_left _ (by simpa [or_comm] using inside)
  rw [offTrunk, fork.path, List.countP_append, List.countP_eq_length.mpr fun e inside =>
    by simpa using fork.off e inside,
    List.countP_eq_zero.mpr fun e inside => by simpa using on e inside, Nat.add_zero]

omit [Zero Hash] in
/-- A path from one of its blocks on. -/
theorem lineage_drop (grown : Grown known) {h : Hash} {m : Nat} {d : BlockRef Hash}
    (found : (lineage known h)[m]? = some d) : lineage known d.hash = (lineage known h).drop m := by
  obtain ⟨below, here⟩ := List.getElem?_eq_some_iff.mp found
  have split : lineage known h = (lineage known h).take m ++ d :: (lineage known h).drop (m + 1) := by
    rw [← here, List.getElem_cons_drop, List.take_append_drop]
  have path : lineage known d.hash = d :: (lineage known h).drop (m + 1) := grown.lineage_below _ split
  rw [path, ← here, List.getElem_cons_drop]

omit [Zero Hash] in
/-- The blocks on the way from a block to the trunk have the fork of that block. -/
theorem Represents.Fork.drop (grown : Grown known) (fork : Fork known t b up root low high) {m : Nat}
    {d : BlockRef Hash}
    (found : (lineage known b.hash)[m]? = some d) (early : m ≤ up.length) :
    Fork known t d (up.drop m) root low high := by
  have path := lineage_drop grown found
  rw [fork.path, List.drop_append_of_le_length early] at path
  exact
    { member := mem_of_mem_lineage (List.mem_of_getElem? found)
      path := path
      split := fork.split
      off := fun e inside => fork.off e (List.mem_of_mem_drop inside) }

/-- Two numbers of steps can be taken at once where they stay within the ancestors. Beyond them the first number must
not lead below the trunk block that the branch begins on, and from that block no step can be made. -/
theorem minus_minus_iff (reached : Reached known t) (member : b ∈ known) (m n : Nat) :
    (t.minus (some b) m >>= fun it => t.minus it n) = t.minus (some b) ((m + n : Nat) : Int) ↔
      m + n < (lineage known b.hash).length ∨ m ≤ offTrunk t (lineage known b.hash) ∨
        (lineage known b.hash).length ≤ m ∧
          (n = 0 ∨ (lineage known b.hash).length ≤ n + offTrunk t (lineage known b.hash)) := by
  obtain ⟨grown, rep, -⟩ := reached.kept
  obtain ⟨up, root, low, high, fork⟩ := rep.exists_fork grown member
  have length := fork.length
  have distinct : (lineage known b.hash).Nodup := (grown.lineage_hashes_nodup b.hash).of_map
  have at_root : (lineage known b.hash)[up.length]? = some root := by
    rw [fork.path, List.getElem?_append_right le_rfl, Nat.sub_self]
    rfl
  rw [Represents.offTrunk_fork fork, rep.minus_known grown fork m, rep.minus_known grown fork (m + n)]
  by_cases inside : m < (lineage known b.hash).length
  · obtain ⟨d, found⟩ : ∃ d, (lineage known b.hash)[m]? = some d := ⟨_, List.getElem?_eq_getElem inside⟩
    have path := lineage_drop grown found
    have count : (lineage known d.hash).length = (lineage known b.hash).length - m := by rw [path, List.length_drop]
    have known_d : d ∈ known := mem_of_mem_lineage (List.mem_of_getElem? found)
    rw [if_pos inside, found, ok_bind]
    by_cases both : m + n < (lineage known b.hash).length
    · obtain ⟨up', root', low', high', fork'⟩ := rep.exists_fork grown known_d
      rw [rep.minus_known grown fork' n, if_pos both, if_pos (by omega), path, List.getElem?_drop]
      exact iff_of_true rfl (.inl both)
    rw [if_neg both]
    by_cases early : m ≤ up.length
    · -- the first steps stay on the branch
      rw [rep.minus_known grown (fork.drop grown found early) n, if_neg (by omega)]
      exact iff_of_true rfl (.inr (.inl early))
    · -- the first steps lead to a lower block of the trunk, where the others leave the iterator
      have on : d ∈ t.trunk := by
        rw [fork.path, List.getElem?_append_right (by omega)] at found
        rw [fork.split_root]
        exact List.mem_append_left _ (by simpa [or_comm] using List.mem_of_getElem? found)
      obtain ⟨low', high', split', path'⟩ := rep.trunk_split grown on
      have fork' : Represents.Fork known t d [] d low' high' := ⟨known_d, path', split', nofun⟩
      rw [rep.minus_known grown fork' n, if_neg (by omega)]
      refine iff_of_false (fun same => ?_) (by omega)
      have same : d = root := by simpa using same
      rw [same, ← at_root] at found
      have := (List.getElem?_inj inside distinct).mp found
      omega
  · have root_fork := fork.drop grown at_root le_rfl
    have count : (lineage known root.hash).length = (lineage known b.hash).length - up.length := by
      rw [lineage_drop grown at_root, List.length_drop]
    rw [if_neg inside, if_neg (by omega), ok_bind, rep.minus_known grown root_fork n]
    by_cases more : n < (lineage known root.hash).length
    · have same : (lineage known root.hash)[n]? = (lineage known b.hash)[up.length + n]? := by
        rw [lineage_drop grown at_root, List.getElem?_drop]
      rw [if_pos more, same, ← at_root, Except.ok.injEq]
      constructor
      · intro equal
        have := (List.getElem?_inj (show up.length + n < _ by omega) distinct).mp equal
        omega
      · rintro (less | less | ⟨-, rfl | less⟩)
        · omega
        · omega
        · rw [Nat.add_zero]
        · omega
    · rw [if_neg more]
      exact iff_of_true rfl (.inr (.inr ⟨by omega, .inr (by omega)⟩))

/-- **Stepping back is the ancestor function if and only if there are so many ancestors.** A loop that repeats `--it`
never gets to `end()`. -/
theorem backward_exact (reached : Reached known t) (member : b ∈ known) (n : Nat) :
    ((t.find b.hash >>= fun it => t.minus it n) = .ok (lineage known b.hash)[n]? ↔
        n < (lineage known b.hash).length) ∧
      (∀ k : Nat, (t.minus (some b) n >>= fun it => t.minus it k) = t.minus (some b) ((n + k : Nat) : Int) ↔
        n + k < (lineage known b.hash).length ∨ n ≤ offTrunk t (lineage known b.hash) ∨
          (lineage known b.hash).length ≤ n ∧
            (k = 0 ∨ (lineage known b.hash).length ≤ k + offTrunk t (lineage known b.hash))) ∧
      ∃ e ∈ lineage known b.hash, t.stepsBack n (some b) = .ok (some e) := by
  obtain ⟨grown, rep, -⟩ := reached.kept
  obtain ⟨up, root, low, high, fork⟩ := rep.exists_fork grown member
  refine ⟨?_, fun k => minus_minus_iff reached member n k, ?_⟩
  · rw [rep.find_known grown member, ok_bind, rep.minus_known grown fork n]
    constructor
    · intro same
      by_contra beyond
      rw [if_neg beyond, List.getElem?_eq_none (not_lt.mp beyond)] at same
      cases same
    · intro inside
      rw [if_pos inside]
  · have some : 0 < (lineage known b.hash).length := by
      rw [fork.length]
      omega
    obtain ⟨e, found⟩ : ∃ e, ancestor (lineage known b.hash) n = .some e :=
      ⟨_, List.getElem?_eq_getElem (by omega)⟩
    exact ⟨e, List.mem_of_getElem? found, found ▸ rep.stepsBack_known grown member n⟩

/-- The fork of three blocks, where the second one is on a branch. -/
theorem reached_fork : ∃ t, Reached [topRef, rightRef, leftRef, genesisRef] t ∧
    t.trunk = [genesisRef, rightRef, topRef] := by
  have run : (do
      let t ← (grow [genesisRef] [leftRef, rightRef, topRef]).toOption
      return t.trunk) = some [genesisRef, rightRef, topRef] := by decide +kernel
  obtain ⟨t, grew, trunk⟩ := Option.bind_eq_some_iff.mp run
  exact ⟨t, .grow linked_genesis offered_fork (toOption_eq_some.mp grew), Option.some.inj trunk⟩

/-- One step back from the genesis is not the end. -/
theorem backward_fails :
    ¬ ∀ (known : List (BlockRef Uint256)) (t : BlockTree Uint256) (b : BlockRef Uint256), Reached known t → b ∈ known →
      ∀ n : Nat, (t.find b.hash >>= fun it => t.minus it n) = .ok (lineage known b.hash)[n]? := by
  intro claim
  obtain ⟨t, reached, trunk⟩ := reached_fork
  have member : genesisRef ∈ [topRef, rightRef, leftRef, genesisRef] := by decide
  have beyond := claim _ t genesisRef reached member 1
  obtain ⟨grown, rep, -⟩ := reached.kept
  obtain ⟨up, root, low, high, fork⟩ := rep.exists_fork grown member
  have path : lineage [topRef, rightRef, leftRef, genesisRef] genesisRef.hash = [genesisRef] := by decide
  rw [rep.find_known grown member, ok_bind, rep.minus_known grown fork 1, path, if_neg (by decide)] at beyond
  cases beyond

/-- Two steps back from the tip of the fork lead to the genesis. -/
theorem backward_exact_fork :
    ∃ t : BlockTree Uint256, (t.find topRef.hash >>= fun it => t.minus it 2) = .ok (some genesisRef) := by
  obtain ⟨t, reached, -⟩ := reached_fork
  have exact := backward_exact (b := topRef) reached (by decide) 2
  have path : lineage [topRef, rightRef, leftRef, genesisRef] topRef.hash = [topRef, rightRef, genesisRef] := by decide
  rw [path] at exact
  exact ⟨t, exact.1.mpr (by decide)⟩

/-- **`operator<` decides strict ancestry if and only if it is not asked about a block of the trunk and itself.** -/
theorem lessThan_exact (reached : Reached known t) (member : a ∈ known) (member' : b ∈ known) :
    ∃ result, (do
        let lhs ← t.find a.hash
        let rhs ← t.find b.hash
        t.lessThan lhs rhs) = .ok result ∧
      ((result = true ↔ a ≠ b ∧ Relation.TransGen (Follows known) a b) ↔ a ≠ b ∨ a ∉ t.trunk) := by
  obtain ⟨grown, rep, -⟩ := reached.kept
  refine ⟨decide (a ∈ (lineage known b.hash).tail ∨ a = b ∧ a ∈ t.trunk), ?_, ?_⟩
  · rw [show t.find a.hash = .ok (some a) from rep.find_known grown member,
      show t.find b.hash = .ok (some b) from rep.find_known grown member', ok_bind, ok_bind]
    exact rep.lessThan_known grown member member'
  · have below := @mem_tail_iff _ _ known b a grown member'
    have apart : a ∈ (lineage known b.hash).tail → a ≠ b := by
      rintro inside rfl
      exact absurd (Represents.depth_lt_of_mem_tail grown inside) (lt_irrefl _)
    rw [decide_eq_true_iff, ← below]
    by_cases same : a = b
    · subst same
      simp only [ne_eq, not_true, false_and, iff_false, true_and, false_or, not_or]
      exact ⟨fun both => both.2, fun off => ⟨fun inside => apart inside rfl, off⟩⟩
    · simp [same]

/-- The order is transitive, also where it holds of a block and itself. -/
theorem lessThan_trans (reached : Reached known t) (known_a : a ∈ known) (known_b : b ∈ known) (known_c : c ∈ known)
    (first : t.lessThan (some a) (some b) = .ok true) (second : t.lessThan (some b) (some c) = .ok true) :
    t.lessThan (some a) (some c) = .ok true := by
  obtain ⟨grown, rep, -⟩ := reached.kept
  rw [rep.lessThan_known grown known_a known_b, Except.ok.injEq, decide_eq_true_iff] at first
  rw [rep.lessThan_known grown known_b known_c, Except.ok.injEq, decide_eq_true_iff] at second
  rw [rep.lessThan_known grown known_a known_c, Except.ok.injEq, decide_eq_true_iff]
  rcases first with below | ⟨rfl, -⟩
  · rcases second with below' | ⟨rfl, -⟩
    · exact .inl ((mem_tail_iff grown known_c).mpr
        (.trans ((mem_tail_iff grown known_b).mp below) ((mem_tail_iff grown known_c).mp below')))
    · exact .inl below
  · exact second

/-- The genesis is below itself. -/
theorem lessThan_fails :
    ¬ ∀ (known : List (BlockRef Uint256)) (t : BlockTree Uint256)
      (a b : BlockRef Uint256), Reached known t → a ∈ known →
      b ∈ known → ((do
        let lhs ← t.find a.hash
        let rhs ← t.find b.hash
        t.lessThan lhs rhs) = .ok true ↔ a ≠ b ∧ Relation.TransGen (Follows known) a b) := by
  intro claim
  obtain ⟨t, reached, trunk⟩ := reached_fork
  have member : genesisRef ∈ [topRef, rightRef, leftRef, genesisRef] := by decide
  have irreflexive := claim _ t genesisRef genesisRef reached member member
  obtain ⟨grown, rep, -⟩ := reached.kept
  have on : genesisRef ∈ t.trunk := trunk ▸ List.mem_cons_self
  rw [rep.find_known grown member, ok_bind, ok_bind, rep.lessThan_known grown member member,
    decide_eq_true (.inr ⟨rfl, on⟩)] at irreflexive
  exact (irreflexive.mp rfl).1 rfl

/-- The genesis is below the block on the branch. -/
theorem lessThan_exact_fork :
    ∃ t : BlockTree Uint256, leftRef ∉ t.trunk ∧ ∃ result, (do
        let lhs ← t.find genesisRef.hash
        let rhs ← t.find leftRef.hash
        t.lessThan lhs rhs) = .ok result ∧
      (result = true ↔ genesisRef ≠ leftRef ∧
        Relation.TransGen (Follows [topRef, rightRef, leftRef, genesisRef]) genesisRef leftRef) := by
  obtain ⟨t, reached, trunk⟩ := reached_fork
  obtain ⟨result, found, exact⟩ := lessThan_exact (a := genesisRef) (b := leftRef) reached (by decide) (by decide)
  refine ⟨t, ?_, result, found, exact.mpr (.inl (by decide))⟩
  rw [trunk]
  decide

end Reached

end BlockTree

end Libcoin
