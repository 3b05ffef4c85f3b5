/-
Locators: hashes of a trunk whose heights double their distance, by which another node finds what both have.

* `getDistanceBack` and `locate` are how a node reads a locator, and `locatorHashes` how it was written.
* `Forked` is what two trunks with the same genesis block have in common, and which entries of a locator of the one
  are found in the other.
-/

import Libcoin.BlockChain.Append
import Libcoin.Library.CutOff
import Libcoin.Tree.PopBack

namespace Libcoin

open Exec

namespace BlockTree

/-- `blk != end() && blk.height() >= 0` for the block with a hash. -/
def onTrunk (t : BlockTree Uint256) (hash : Uint256) : Except Fault Bool := do
  match ← t.find hash with
  | none => return false
  | some blk => do
    let height ← t.heightOf blk.hash
    return decide (0 ≤ height)

/-- The loop of `getDistanceBack`. -/
def distanceBack (t : BlockTree Uint256) : List Uint256 → Int → Int → Except Fault Int
  | [], distance, _ => return distance
  | hash :: locator, distance, step => do
    if ← t.onTrunk hash then return distance
    else
      distanceBack t locator (distance + step) (if 10 < distance + step then step * 2 else step)

/-- `getDistanceBack`. -/
def getDistanceBack (t : BlockTree Uint256) (locator : List Uint256) : Except Fault Int :=
  t.distanceBack locator 0 1

/-- `iterator(locator)`. -/
def locate (t : BlockTree Uint256) : List Uint256 → Except Fault (Option (BlockRef Uint256))
  | [] => return t.trunk.head?
  | hash :: locator => do
    if ← t.onTrunk hash then t.find hash else locate t locator

/-! ### The heights of a locator -/

/-- The heights of a locator, the genesis block last. -/
def locatorList (t : BlockTree Uint256) : List Int :=
  t.height :: (locatorHeights t.trunk.length 1 1 t.height ++ [0])

/-- The first of some heights that is not above the fork. -/
def highest (fork : Int) (heights : List Int) : Int := (heights.find? fun height => decide (height ≤ fork)).getD 0

/-- What `getDistanceBack` makes of heights of which those above the fork are not found. -/
def distanceTo (fork : Int) : List Int → Int → Int → Int
  | [], distance, _ => distance
  | height :: heights, distance, step =>
    if height ≤ fork then distance
    else distanceTo fork heights (distance + step) (if 10 < distance + step then step * 2 else step)

theorem highest_cons_of_le {fork height : Int} (heights : List Int) (low : height ≤ fork) :
    highest fork (height :: heights) = height := by
  unfold highest
  rw [List.find?_cons, decide_eq_true low]
  rfl

theorem highest_cons_of_lt {fork height : Int} (heights : List Int) (high : fork < height) :
    highest fork (height :: heights) = highest fork heights := by
  unfold highest
  rw [List.find?_cons, decide_eq_false (not_le.mpr high)]

/-- The steps of the two loops after so many heights: the distance has caught up with the step. -/
def Paced (size : Nat) (step distance pace : Int) : Prop :=
  1 ≤ size ∧ size ≤ 10 ∧ step = 1 ∧ distance = size ∧ pace = 1 ∨
    11 ≤ size ∧ 2 ≤ step ∧ distance = 9 + step ∧ pace = step

theorem Paced.next {size : Nat} {step distance pace : Int} (paced : Paced size step distance pace) :
    Paced (size + 1) (if 10 < size + 1 then step * 2 else step) (distance + pace)
      (if 10 < distance + pace then pace * 2 else pace) := by
  unfold Paced at paced ⊢
  split_ifs <;> omega

theorem Paced.step_le {size : Nat} {step distance pace : Int} (paced : Paced size step distance pace) :
    step ≤ distance := by
  unfold Paced at paced
  omega

/-- The gap below the last height above the fork is not more than the distance. -/
theorem gap_lt_distance {turns size : Nat} {step last fork distance pace : Int}
    (paced : Paced size step distance pace) (low : 0 ≤ fork) (above : fork < last) (enough : last ≤ turns) :
    fork - highest fork (locatorHeights turns size step last ++ [0]) <
      distanceTo fork (locatorHeights turns size step last ++ [0]) distance pace := by
  induction turns generalizing size step last distance pace with
  | zero => omega
  | succ turns ih =>
    have close := paced.step_le
    unfold locatorHeights
    split
    · -- the genesis block is next
      rw [List.nil_append, highest_cons_of_le [] low, distanceTo, if_pos low]
      omega
    · rename_i far
      rw [List.cons_append]
      by_cases found : last - step ≤ fork
      · rw [highest_cons_of_le _ found, distanceTo, if_pos found]
        omega
      · have positive : 1 ≤ step := by
          unfold Paced at paced
          omega
        rw [highest_cons_of_lt _ (not_le.mp found), distanceTo, if_neg found]
        exact ih paced.next (not_le.mp found) (by push_cast at enough; omega)

/-- The fork is closer to the entry of a locator that is found than the distance and one block. -/
theorem locatorList_gap {t : BlockTree Uint256} {fork : Int} (low : 0 ≤ fork) (high : fork ≤ t.height) :
    fork - highest fork t.locatorList < distanceTo fork t.locatorList 0 1 + 1 := by
  unfold locatorList
  by_cases tip : t.height ≤ fork
  · rw [highest_cons_of_le _ tip, distanceTo, if_pos tip]
    omega
  · rw [highest_cons_of_lt _ (not_le.mp tip), distanceTo, if_neg tip]
    have paced : Paced 1 1 (0 + 1) (if (10 : Int) < 0 + 1 then 1 * 2 else 1) := by
      unfold Paced
      omega
    have enough : t.height ≤ t.trunk.length := by
      unfold SparseTree.height
      omega
    exact (gap_lt_distance paced low (not_le.mp tip) enough).trans (lt_add_one _)

theorem mem_locatorHeights {turns size : Nat} {step last height : Int} (positive : 0 < step)
    (member : height ∈ locatorHeights turns size step last) : 0 < height ∧ height < last := by
  induction turns generalizing size step last with
  | zero => cases member
  | succ turns ih =>
    unfold locatorHeights at member
    split at member
    · cases member
    · rename_i far
      rcases List.mem_cons.mp member with rfl | later
      · omega
      · have doubled : 0 < if 10 < size + 1 then step * 2 else step := by
          split <;> omega
        obtain ⟨above, below⟩ := ih doubled later
        omega

/-- Every height of a locator is one of the trunk. -/
theorem mem_locatorList {t : BlockTree Uint256} {height : Int} (some : t.trunk ≠ [])
    (member : height ∈ t.locatorList) : 0 ≤ height ∧ height < t.trunk.length := by
  have long := List.length_pos_iff.mpr some
  have tip : t.height = t.trunk.length - 1 := rfl
  rcases List.mem_cons.mp member with rfl | member
  · omega
  rcases List.mem_append.mp member with inside | genesis
  · have bounds := mem_locatorHeights Int.one_pos inside
    omega
  · rw [List.mem_singleton.mp genesis]
    omega

/-- The highest entry that is found is an entry, not above the fork. -/
theorem highest_mem {t : BlockTree Uint256} {fork : Int} (low : 0 ≤ fork) :
    highest fork t.locatorList ∈ t.locatorList ∧ highest fork t.locatorList ≤ fork := by
  have found : (t.locatorList.find? fun height => decide (height ≤ fork)).isSome = true := by
    rw [List.find?_isSome]
    refine ⟨0, ?_, decide_eq_true low⟩
    exact List.mem_cons_of_mem _ (List.mem_append_right _ List.mem_cons_self)
  obtain ⟨height, found⟩ := Option.isSome_iff_exists.mp found
  have below := List.find?_some found
  unfold highest
  rw [found]
  exact ⟨List.mem_of_find?_eq_some found, of_decide_eq_true below⟩

/-! ### Two trunks -/

section Trunks

variable {low ours theirs : List (BlockRef Uint256)}

theorem Linked.prev {before after : List (BlockRef Uint256)} {a b : BlockRef Uint256}
    (given : Linked (before ++ a :: b :: after)) : b.prev = a.hash :=
  (List.isChain_append_cons_cons.mp given.linked).2.1

/-- A block of the trunk that is not its first one has one below it. -/
theorem exists_below (some : low ≠ []) {b : BlockRef Uint256} (inside : b ∈ low ++ ours) (off : b ∉ low) :
    ∃ before q after, low ++ ours = before ++ q :: b :: after := by
  obtain ⟨before, after, split⟩ := List.append_of_mem inside
  rcases List.eq_nil_or_concat' before with rfl | ⟨before, q, rfl⟩
  · obtain ⟨first, low, rfl⟩ := List.exists_cons_of_ne_nil some
    obtain ⟨rfl, -⟩ := List.cons.inj split
    exact absurd List.mem_cons_self off
  · exact ⟨before, q, after, by rw [split, List.append_assoc, List.singleton_append]⟩

/-- Above the common part no block of one trunk is in the other. -/
theorem apart_above (some : low ≠ []) (linked : Linked (low ++ ours)) (linked' : Linked (low ++ theirs))
    (agree : ∀ a ∈ low ++ ours, ∀ b ∈ low ++ theirs, a.hash = b.hash → a = b)
    (differ : ∀ a ∈ ours.head?, ∀ b ∈ theirs.head?, a ≠ b) {b : BlockRef Uint256} (member : b ∈ theirs) :
    b ∉ low ++ ours := by
  have distinct : (low ++ theirs).Nodup := linked'.distinct.of_map
  have off : ∀ b ∈ theirs, b ∉ low := fun b inside below =>
    List.disjoint_of_nodup_append distinct below inside
  -- from the first one upwards: the block below is the same in both
  suffices apart : ∀ before after b, theirs = before ++ b :: after → b ∉ low ++ ours by
    obtain ⟨before, after, split⟩ := List.append_of_mem member
    exact apart before after b split
  intro before
  induction before using List.reverseRecOn with
  | nil =>
    intro after b split inside
    obtain ⟨under, q, above, found⟩ := exists_below some inside (off b (split ▸ List.mem_cons_self))
    obtain ⟨low', p, rfl⟩ := (List.eq_nil_or_concat' low).resolve_left some
    have mine : b.prev = q.hash := Linked.prev (found ▸ linked)
    have other : b.prev = p.hash := by
      rw [split, List.append_assoc] at linked'
      exact linked'.prev
    have here : q ∈ low' ++ [p] ++ ours := found ▸ List.mem_append_right _ List.mem_cons_self
    have there : p ∈ low' ++ [p] ++ ours := by simp
    obtain rfl : q = p := List.inj_on_of_nodup_map linked.distinct here there (mine.symm.trans other)
    -- the first blocks above would be the same
    have once : (low' ++ q :: ours).Nodup := by
      have once : (low' ++ [q] ++ ours).Nodup := linked.distinct.of_map
      rwa [List.append_assoc] at once
    obtain ⟨-, fresh, apart⟩ := List.nodup_append.mp once
    have before : q ∉ low' := fun inside => apart q inside q List.mem_cons_self rfl
    rw [List.append_assoc, List.singleton_append] at found
    -- the one block occurs at one place
    have rest := ((List.append_cons_inj_of_notMem before (List.nodup_cons.mp fresh).1).mp found).2.2
    exact differ b (by rw [rest]; rfl) b (by rw [split]; rfl) rfl
  | append_singleton before p ih =>
    intro after b split inside
    obtain ⟨under, q, above, found⟩ := exists_below some inside
      (off b (split ▸ List.mem_append_right _ List.mem_cons_self))
    have mine : b.prev = q.hash := Linked.prev (found ▸ linked)
    have other : b.prev = p.hash := by
      rw [split, List.append_assoc, ← List.append_assoc] at linked'
      exact linked'.prev
    have here : q ∈ low ++ ours := found ▸ List.mem_append_right _ List.mem_cons_self
    have there : p ∈ low ++ theirs := by
      rw [split]
      simp
    refine ih (b :: after) p (by rw [split, List.append_assoc]; rfl) ?_
    rw [← agree q here p there (mine.symm.trans other)]
    exact here

end Trunks

/-! ### The locator of a trunk -/

section Tree

variable {t : BlockTree Uint256} {known : List (BlockRef Uint256)}

/-- The hash of the trunk at a height. -/
def nameAt (t : BlockTree Uint256) (height : Int) : Uint256 := (t.trunk[height.toNat]?).elim 0 BlockRef.hash

theorem nameAt_append {before after : List (BlockRef Uint256)} {b : BlockRef Uint256}
    (split : t.trunk = before ++ b :: after) : t.nameAt before.length = b.hash := by
  unfold nameAt
  rw [split, Int.toNat_natCast, List.getElem?_append_right le_rfl, Nat.sub_self]
  rfl

theorem split_at {height : Int} (low : 0 ≤ height) (high : height < t.trunk.length) :
    ∃ before b after, t.trunk = before ++ b :: after ∧ (before.length : Int) = height := by
  have short : height.toNat < t.trunk.length := by omega
  refine ⟨t.trunk.take height.toNat, t.trunk[height.toNat], t.trunk.drop (height.toNat + 1), ?_, ?_⟩
  · rw [List.cons_getElem_drop_succ, List.take_append_drop]
  · rw [List.length_take]
    omega

/-- `iterator(height)` on a height of the trunk. -/
theorem hashAt_eq (indexed : Indexed t) {height : Int} (low : 0 ≤ height) (high : height < t.trunk.length) :
    t.hashAt height = .ok (t.nameAt height) := by
  obtain ⟨genesis, rest, trunk⟩ := List.exists_cons_of_ne_nil (List.ne_nil_of_length_pos (by omega) : t.trunk ≠ [])
  have index := indexed [] genesis rest trunk
  obtain ⟨before, b, after, split, long⟩ := split_at low high
  have found : t.trunk[height.toNat]? = some b := by
    rw [split, ← long, Int.toNat_natCast, List.getElem?_append_right le_rfl, Nat.sub_self]
    rfl
  have base : t.heightOf genesis.hash = .ok 0 := by
    rw [SparseTree.heightOf, index]
    rfl
  have advanced : t.advance genesis height = .ok (some b) := by
    unfold SparseTree.advance
    by_cases positive : 0 < height
    · rw [if_pos positive]
      show t.heightOf genesis.hash >>= _ = _
      rw [base, ok_bind, if_neg (lt_irrefl 0), zero_add, if_neg (by omega), SparseTree.trunkAt,
        if_neg (by omega), found]
      rfl
    · obtain rfl : height = 0 := by omega
      rw [if_neg positive, if_neg (lt_irrefl 0)]
      rw [trunk] at found
      rw [Option.some.inj found]
      rfl
  unfold hashAt nameAt
  rw [trunk]
  show (t.advance genesis height >>= _) = _
  rw [advanced, ok_bind, ← trunk, found]
  rfl

/-- The entries of a locator are the hashes of the trunk at its heights. -/
theorem locatorHashes_eq (indexed : Indexed t) (some : t.trunk ≠ []) :
    t.locatorHashes = .ok ((t.height :: locatorHeights t.trunk.length 1 1 t.height).map t.nameAt) := by
  refine mapM_ok fun height member => ?_
  have inside : height ∈ t.locatorList := by
    unfold locatorList
    rw [← List.cons_append]
    exact List.mem_append_left _ member
  obtain ⟨low, high⟩ := mem_locatorList some inside
  exact hashAt_eq indexed low high

/-- The lookup of a locator finds what is in the trunk. -/
theorem onTrunk_eq (rep : Represents known t) (grown : Grown known) (hash : Uint256) :
    t.onTrunk hash = .ok (decide (hash ∈ hashes t.trunk)) := by
  unfold onTrunk
  by_cases inside : hash ∈ hashes known
  · obtain ⟨b, member, rfl⟩ := List.mem_map.mp inside
    have found : t.find (TreeElem.hash b) = .ok (some b) := rep.find_known grown member
    have own : TreeElem.hash b ∈ hashes t.trunk ↔ b ∈ t.trunk :=
      grown.mem_hashes_of_sub (fun _ => rep.trunk_known) member
    rw [found, decide_eq_decide.mpr own]
    show (t.heightOf b.hash >>= _) = _
    by_cases on : b ∈ t.trunk
    · rw [rep.heightOf_trunk on, ok_bind, decide_eq_true on]
      exact congrArg Except.ok (decide_eq_true (Represents.depth_nonneg grown member))
    · have high := rep.depth_pos grown member on
      rw [rep.heightOf_branch member on, ok_bind, decide_eq_false on]
      exact congrArg Except.ok (decide_eq_false (by omega))
  · have off : hash ∉ hashes t.trunk := fun inTrunk => by
      obtain ⟨b, member, rfl⟩ := List.mem_map.mp inTrunk
      exact inside (List.mem_map_of_mem (rep.trunk_known member))
    rw [rep.find_unknown inside, decide_eq_false off]
    rfl

variable {name : Int → Uint256} {fork : Int} {heights : List Int}

/-- The distance to the first height that is not above the fork. -/
theorem distanceBack_eq (rep : Represents known t) (grown : Grown known)
    (common : ∀ height ∈ heights, name height ∈ hashes t.trunk ↔ height ≤ fork) (distance step : Int) :
    t.distanceBack (heights.map name) distance step = .ok (distanceTo fork heights distance step) := by
  induction heights generalizing distance step with
  | nil => rfl
  | cons height heights ih =>
    rw [List.map_cons, distanceBack, onTrunk_eq rep grown, ok_bind,
      decide_eq_decide.mpr (common height List.mem_cons_self), distanceTo]
    by_cases found : height ≤ fork
    · rw [decide_eq_true found, if_pos found]
      rfl
    · rw [decide_eq_false found, if_neg found]
      exact ih (fun h member => common h (List.mem_cons_of_mem _ member)) _ _

/-- The search of a locator ends at the first height that is not above the fork. -/
theorem locate_eq (rep : Represents known t) (grown : Grown known)
    (common : ∀ height ∈ heights, name height ∈ hashes t.trunk ↔ height ≤ fork)
    (some : ∃ height ∈ heights, height ≤ fork) :
    t.locate (heights.map name) = t.find (name (highest fork heights)) := by
  induction heights with
  | nil =>
    obtain ⟨low, member, below⟩ := some
    cases member
  | cons height heights ih =>
    rw [List.map_cons, locate, onTrunk_eq rep grown, ok_bind,
      decide_eq_decide.mpr (common height List.mem_cons_self)]
    by_cases found : height ≤ fork
    · rw [decide_eq_true found, highest_cons_of_le _ found]
      rfl
    · obtain ⟨low, member, below⟩ := some
      have later : low ∈ heights := (List.mem_cons.mp member).resolve_left fun same => found (same ▸ below)
      rw [decide_eq_false found, highest_cons_of_lt _ (not_le.mp found)]
      exact ih (fun h member => common h (List.mem_cons_of_mem _ member)) ⟨low, later, below⟩

/-- A trunk is linked. -/
theorem Represents.linked (rep : Represents known t) (grown : Grown known) : Linked t.trunk := by
  refine ⟨rep.trunk_ne_nil, ?_, rep.trunk_hashes_nodup grown⟩
  obtain ⟨tip, -, path⟩ := rep.trunk
  have chain := isChain_lineage grown tip
  rw [← path] at chain
  exact List.isChain_reverse.mp chain

theorem nameAt_low {low high : List (BlockRef Uint256)} (split : t.trunk = low ++ high) {height : Int}
    (below : height.toNat < low.length) : t.nameAt height = (low[height.toNat]).hash := by
  unfold nameAt
  rw [split, List.getElem?_append_left below, List.getElem?_eq_getElem below]
  rfl

theorem nameAt_high {low high : List (BlockRef Uint256)} (split : t.trunk = low ++ high) {height : Int}
    (above : low.length ≤ height.toNat) (inside : height.toNat < t.trunk.length) :
    ∃ b ∈ high, t.nameAt height = b.hash := by
  rw [split, List.length_append] at inside
  have short : height.toNat - low.length < high.length := by omega
  refine ⟨high[height.toNat - low.length], List.getElem_mem short, ?_⟩
  unfold nameAt
  rw [split, List.getElem?_append_right above, List.getElem?_eq_getElem short]
  rfl

end Tree

/-! ### Two nodes -/

/-- The height up to which two trunks have the same blocks. -/
def forkHeight (t r : BlockTree Uint256) : Nat := (commonPrefix t.trunk r.trunk).length - 1

/-- The highest height of a locator at which the other trunk has the same block. -/
def startHeight (t r : BlockTree Uint256) : Nat := (highest (forkHeight t r) r.locatorList).toNat

/-- Two trunks with the same genesis block, of which the first goes on where it leaves the second. -/
structure Forked (t r : BlockTree Uint256) (low ours theirs : List (BlockRef Uint256)) : Prop where
  some : low ≠ []
  split : t.trunk = low ++ ours
  split' : r.trunk = low ++ theirs
  more : ours ≠ []
  fork : forkHeight t r = low.length - 1
  old : ∀ b ∈ theirs, b.hash ∉ hashes t.trunk
  new : ∀ b ∈ ours, b.hash ∉ hashes r.trunk

theorem exists_forked {t r : BlockTree Uint256} {known known' : List (BlockRef Uint256)} (reached : Reached known t)
    (reached' : Reached known' r) (genesis : t.trunk.head? = r.trunk.head?)
    (agree : ∀ a ∈ t.trunk, ∀ b ∈ r.trunk, a.hash = b.hash → a = b) (ahead : ¬t.trunk <+: r.trunk) :
    ∃ low ours theirs, Forked t r low ours theirs := by
  obtain ⟨ours, theirs, split, split', differ⟩ := commonPrefix_split t.trunk r.trunk
  obtain ⟨grown, rep, -⟩ := reached.kept
  obtain ⟨grown', rep', -⟩ := reached'.kept
  have linked := rep.linked grown
  have linked' := rep'.linked grown'
  have some : commonPrefix t.trunk r.trunk ≠ [] := by
    obtain ⟨first, rest, trunk⟩ := List.exists_cons_of_ne_nil linked.nonempty
    obtain ⟨first', rest', trunk'⟩ := List.exists_cons_of_ne_nil linked'.nonempty
    rw [trunk, trunk'] at genesis
    rw [trunk, trunk', commonPrefix, if_pos (Option.some.inj genesis)]
    exact List.cons_ne_nil _ _
  have fork : forkHeight t r = (commonPrefix t.trunk r.trunk).length - 1 := rfl
  generalize commonPrefix t.trunk r.trunk = low at split split' some fork
  refine ⟨low, ours, theirs, some, split, split', ?_, fork, ?_, ?_⟩
  · rintro rfl
    exact ahead ⟨theirs, by rw [split', split, List.append_nil]⟩
  · intro b member inside
    obtain ⟨a, on, same⟩ := List.mem_map.mp inside
    obtain rfl := agree a on b (split' ▸ List.mem_append_right _ member) same
    rw [split, split'] at agree
    exact apart_above some (split ▸ linked) (split' ▸ linked') agree differ member (split ▸ on)
  · intro b member inside
    obtain ⟨a, on, same⟩ := List.mem_map.mp inside
    obtain rfl := agree b (split ▸ List.mem_append_right _ member) a on same.symm
    rw [split, split'] at agree
    refine apart_above some (split' ▸ linked') (split ▸ linked) (fun b other a mine same => ?_)
      (fun b other a mine => (differ a mine b other).symm) member (split' ▸ on)
    exact (agree a mine b other same.symm).symm

section Forked

variable {t r : BlockTree Uint256} {low ours theirs : List (BlockRef Uint256)}

theorem Forked.nonempty (forked : Forked t r low ours theirs) : r.trunk ≠ [] := by
  rw [forked.split']
  exact List.append_ne_nil_of_left_ne_nil forked.some theirs

theorem Forked.fork_eq (forked : Forked t r low ours theirs) : forkHeight t r + 1 = low.length := by
  have long := List.length_pos_iff.mpr forked.some
  rw [forked.fork]
  omega

/-- Both trunks have the same blocks up to the fork. -/
theorem Forked.nameAt_eq (forked : Forked t r low ours theirs) {height : Int} (below : height ≤ forkHeight t r) :
    r.nameAt height = t.nameAt height := by
  have long := forked.fork_eq
  rw [nameAt_low forked.split (by omega), nameAt_low forked.split' (by omega)]

/-- The entries of the other trunk are found up to the fork. -/
theorem Forked.mem_iff (forked : Forked t r low ours theirs) {height : Int} (positive : 0 ≤ height)
    (inside : height < r.trunk.length) : r.nameAt height ∈ hashes t.trunk ↔ height ≤ forkHeight t r := by
  have long := forked.fork_eq
  constructor
  · intro found
    by_contra above
    obtain ⟨b, member, named⟩ := nameAt_high forked.split' (by omega : _ ≤ height.toNat) (by omega)
    exact forked.old b member (named ▸ found)
  · intro below
    rw [nameAt_low forked.split' (by omega : height.toNat < _), forked.split]
    exact List.mem_map_of_mem (List.mem_append_left _ (List.getElem_mem _))

/-- The blocks of the trunk that the other one lacks are those above the fork. -/
theorem Forked.new_iff (forked : Forked t r low ours theirs) {height : Nat} (inside : height < t.trunk.length) :
    t.nameAt height ∉ hashes r.trunk ↔ forkHeight t r < height := by
  have long := forked.fork_eq
  constructor
  · intro off
    by_contra below
    refine off ?_
    rw [← forked.nameAt_eq (by omega), nameAt_low forked.split' (by omega : (height : Int).toNat < _), forked.split']
    exact List.mem_map_of_mem (List.mem_append_left _ (List.getElem_mem _))
  · intro above
    obtain ⟨b, member, named⟩ := nameAt_high forked.split (by omega : _ ≤ (height : Int).toNat) (by omega)
    rw [named]
    exact forked.new b member

/-- The entry at which the answer starts. -/
theorem Forked.start (forked : Forked t r low ours theirs) :
    highest (forkHeight t r) r.locatorList = (startHeight t r : Int) ∧ startHeight t r ≤ forkHeight t r ∧
      highest (forkHeight t r) r.locatorList ∈ r.locatorList := by
  obtain ⟨member, below⟩ := highest_mem (Int.natCast_nonneg (forkHeight t r)) (t := r)
  have positive := (mem_locatorList forked.nonempty member).1
  unfold startHeight
  exact ⟨(Int.toNat_of_nonneg positive).symm, by omega, member⟩

end Forked

end BlockTree

end Libcoin
