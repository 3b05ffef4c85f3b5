/-
The best locator and what another node reads off it.
-/

import Libcoin.BlockChain.Flow
import Libcoin.BlockChain.Locators
import Libcoin.BlockChain.Windows

namespace Libcoin

open Exec

namespace BlockTree

/-! ### The heights -/

theorem locatorHeights_descending {turns size : Nat} {step last : Int} (positive : 0 < step) :
    (locatorHeights turns size step last).Pairwise (· > ·) := by
  induction turns generalizing size step last with
  | zero => exact .nil
  | succ turns ih =>
    unfold locatorHeights
    split
    · exact .nil
    · have doubled : 0 < if 10 < size + 1 then step * 2 else step := by
        split <;> omega
      exact List.pairwise_cons.mpr ⟨fun height member => (mem_locatorHeights doubled member).2, ih doubled⟩

theorem locatorList_tail (t : BlockTree Uint256) :
    (locatorHeights t.trunk.length 1 1 t.height ++ [0]).Pairwise (· > ·) := by
  refine List.pairwise_append.mpr ⟨locatorHeights_descending Int.one_pos, List.pairwise_singleton _ _, ?_⟩
  intro height inside genesis member
  exact List.mem_singleton.mp member ▸ (mem_locatorHeights Int.one_pos inside).1

/-- The heights descend strictly if and only if there is a block on the genesis. -/
theorem locatorList_descending (t : BlockTree Uint256) : t.locatorList.Pairwise (· > ·) ↔ 0 < t.height := by
  constructor
  · intro descending
    exact (List.pairwise_cons.mp descending).1 0 (List.mem_append_right _ List.mem_cons_self)
  · intro positive
    refine List.pairwise_cons.mpr ⟨fun height member => ?_, locatorList_tail t⟩
    rcases List.mem_append.mp member with inside | genesis
    · exact (mem_locatorHeights Int.one_pos inside).2
    · exact List.mem_singleton.mp genesis ▸ positive

/-- An entry that is not above the fork is not above the entry that is found. -/
theorem le_highest {t : BlockTree Uint256} (nonempty : t.trunk ≠ []) {fork height : Int} (member : height ∈ t.locatorList)
    (below : height ≤ fork) : height ≤ highest fork t.locatorList := by
  have descending : t.locatorList.Pairwise (· ≥ ·) := by
    refine List.pairwise_cons.mpr ⟨fun other inside => ?_, (locatorList_tail t).imp le_of_lt⟩
    have bounds := mem_locatorList nonempty (List.mem_cons_of_mem _ inside)
    have tip : t.height = t.trunk.length - 1 := rfl
    show other ≤ t.height
    omega
  generalize t.locatorList = heights at member descending
  induction heights with
  | nil => cases member
  | cons first heights ih =>
    obtain ⟨most, descending⟩ := List.pairwise_cons.mp descending
    by_cases found : first ≤ fork
    · rw [highest_cons_of_le _ found]
      rcases List.mem_cons.mp member with rfl | later
      · exact le_rfl
      · exact most height later
    · rw [highest_cons_of_lt _ (not_le.mp found)]
      exact ih ((List.mem_cons.mp member).resolve_left fun same => found (same ▸ below)) descending

/-- The heights of a trunk have different hashes. -/
theorem nameAt_inj {t : BlockTree Uint256} (distinct : (hashes t.trunk).Nodup) {height height' : Int} (low : 0 ≤ height)
    (high : height < t.trunk.length) (low' : 0 ≤ height') (high' : height' < t.trunk.length)
    (same : t.nameAt height = t.nameAt height') : height = height' := by
  have entry : ∀ h : Int, 0 ≤ h → h < t.trunk.length → (hashes t.trunk)[h.toNat]? = some (t.nameAt h) := by
    intro h low high
    rw [hashes, List.getElem?_map, nameAt, List.getElem?_eq_getElem (by omega)]
    rfl
  have index := entry height low high
  rw [same, ← entry height' low' high'] at index
  have long : (hashes t.trunk).length = t.trunk.length := List.length_map _
  have := (List.getElem?_inj (by omega) distinct).mp index
  omega

/-! ### The distance -/

/-- How far back the last height is that has been written, by the number of heights and by the step. -/
def Placed (size : Nat) (step back : Int) : Prop :=
  1 ≤ size ∧ size ≤ 10 ∧ step = 1 ∧ back = size - 1 ∨
    11 ≤ size ∧ back = 8 + step ∧ ∃ j : Nat, 1 ≤ j ∧ step = 2 ^ j

theorem Placed.next {size : Nat} {step back : Int} (placed : Placed size step back) :
    Placed (size + 1) (if 10 < size + 1 then step * 2 else step) (back + step) := by
  rcases placed with ⟨first, few, rfl, rfl⟩ | ⟨many, rfl, j, positive, rfl⟩
  · split
    · exact .inr ⟨by omega, by omega, 1, le_rfl, by omega⟩
    · exact .inl ⟨by omega, by omega, rfl, by omega⟩
  · rw [if_pos (by omega)]
    exact .inr ⟨by omega, by omega, j + 1, by omega, (pow_succ 2 j).symm⟩

/-- A power of two between another one and its double. -/
theorem eq_of_pow_le {i j : Nat} (le : (2 : Int) ^ j ≤ 2 ^ i) (less : (2 : Int) ^ i < 2 ^ j * 2) : i = j := by
  have low := (pow_le_pow_iff_right₀ (by decide : (1 : Int) < 2)).mp le
  have high := (pow_lt_pow_iff_right₀ (by decide : (1 : Int) < 2)).mp (pow_succ (2 : Int) j ▸ less)
  omega

/-- The distance to an entry is right within ten blocks, and at the genesis where the consumer happens to be. -/
def Retraced (tip height : Int) : Prop := tip - height ≤ 10 ∨ height = 0 ∧ ∃ j : Nat, 1 ≤ j ∧ tip = 9 + 2 ^ j

theorem distance_entries_iff {turns size : Nat} {step last fork distance pace tip : Int}
    (paced : Paced size step distance pace) (placed : Placed size step (tip - last)) (low : 0 ≤ fork)
    (above : fork < last) (enough : last ≤ turns) :
    distanceTo fork (locatorHeights turns size step last ++ [0]) distance pace =
        tip - highest fork (locatorHeights turns size step last ++ [0]) ↔
      Retraced tip (highest fork (locatorHeights turns size step last ++ [0])) := by
  induction turns generalizing size step last distance pace with
  | zero => omega
  | succ turns ih =>
    unfold locatorHeights
    split
    · -- the genesis is next
      rename_i near
      rw [List.nil_append, highest_cons_of_le [] low, distanceTo, if_pos low, Retraced]
      unfold Paced at paced
      rcases placed with ⟨first, few, rfl, back⟩ | ⟨many, back, j, positive, power⟩
      · exact iff_of_true (by omega) (.inl (by omega))
      · have big : (2 : Int) ≤ step := by omega
        constructor
        · intro right
          exact .inr ⟨rfl, j, positive, by omega⟩
        · rintro (small | ⟨-, i, -, whole⟩)
          · omega
          · obtain rfl := eq_of_pow_le (i := i) (j := j) (by omega) (by omega)
            omega
    · rename_i far
      have positive : 1 ≤ step := by
        unfold Paced at paced
        omega
      rw [List.cons_append]
      by_cases found : last - step ≤ fork
      · rw [highest_cons_of_le _ found, distanceTo, if_pos found, Retraced]
        unfold Paced at paced
        rcases placed with ⟨first, few, rfl, back⟩ | ⟨many, back, -⟩
        · exact iff_of_true (by omega) (.inl (by omega))
        · refine iff_of_false (by omega) ?_
          rintro (small | ⟨zero, -⟩) <;> omega
      · rw [highest_cons_of_lt _ (not_le.mp found), distanceTo, if_neg found]
        refine ih paced.next ?_ (not_le.mp found) (by push_cast at enough; omega)
        rw [show tip - (last - step) = tip - last + step by omega]
        exact placed.next

/-- What `getDistanceBack` makes of a locator is how far back the entry is that is found, if and only if this is
within ten blocks, or is the genesis at one of the distances that the consumer goes through. -/
theorem distance_iff {t : BlockTree Uint256} {fork : Int} (low : 0 ≤ fork) :
    distanceTo fork t.locatorList 0 1 = t.height - highest fork t.locatorList ↔
      Retraced t.height (highest fork t.locatorList) := by
  unfold locatorList
  by_cases tip : t.height ≤ fork
  · rw [highest_cons_of_le _ tip, distanceTo, if_pos tip]
    exact iff_of_true (by omega) (.inl (by omega))
  · rw [highest_cons_of_lt _ (not_le.mp tip), distanceTo, if_neg tip]
    have paced : Paced 1 1 (0 + 1) (if (10 : Int) < 0 + 1 then 1 * 2 else 1) := by
      unfold Paced
      omega
    have placed : Placed 1 1 (t.height - t.height) := .inl ⟨le_rfl, by omega, rfl, by omega⟩
    have enough : t.height ≤ t.trunk.length := by
      unfold SparseTree.height
      omega
    exact distance_entries_iff paced placed low (not_le.mp tip) enough

/-! ### Two nodes -/

section Nodes

variable {t r : BlockTree Uint256} {known known' : List (BlockRef Uint256)}

/-- An entry is found on the other trunk up to the fork. -/
theorem entry_iff (reached : Reached known t) (reached' : Reached known' r) (genesis : t.trunk.head? = r.trunk.head?)
    (agree : ∀ a ∈ t.trunk, ∀ b ∈ r.trunk, a.hash = b.hash → a = b) {height : Int} (positive : 0 ≤ height)
    (inside : height < r.trunk.length) : r.nameAt height ∈ hashes t.trunk ↔ height ≤ forkHeight t r := by
  by_cases ahead : t.trunk <+: r.trunk
  · -- the other trunk ends where the two part
    obtain ⟨theirs, split⟩ := ahead
    obtain ⟨grown, rep, -⟩ := reached.kept
    obtain ⟨grown', rep', -⟩ := reached'.kept
    have whole : commonPrefix t.trunk r.trunk = t.trunk := by
      rw [← split]
      exact commonPrefix_append t.trunk theirs
    have long := List.length_pos_iff.mpr rep.trunk_ne_nil
    have fork : (forkHeight t r : Int) + 1 = t.trunk.length := by
      rw [forkHeight, whole]
      omega
    have distinct := rep'.trunk_hashes_nodup grown'
    rw [← split, hashes, List.map_append] at distinct
    constructor
    · intro found
      by_contra above
      obtain ⟨b, member, named⟩ := @nameAt_high r _ _ split.symm height (by omega) (by omega)
      rw [named] at found
      exact List.disjoint_of_nodup_append distinct found (List.mem_map_of_mem member)
    · intro below
      rw [@nameAt_low r _ _ split.symm height (by omega)]
      exact List.mem_map_of_mem (List.getElem_mem _)
  · obtain ⟨low, ours, theirs, forked⟩ := exists_forked reached reached' genesis agree ahead
    exact forked.mem_iff positive inside

end Nodes

end BlockTree

namespace BlockChain

open BlockTree

variable {known known' : List (BlockRef Uint256)} {t : BlockTree Uint256} {s : BlockChain}

/-- The best locator has the hashes of the trunk at its heights. -/
theorem updateBestLocator_run (cfg : Config) (reached : Reached known s.tree)
    (named : ∀ b ∈ s.tree.trunk.head?, b.hash = cfg.genesisHash) :
    updateBestLocator cfg s = .ok () { s with bestLocator := s.tree.locatorList.map s.tree.nameAt } := by
  obtain ⟨grown, rep, -⟩ := reached.kept
  obtain ⟨first, rest, trunk⟩ := List.exists_cons_of_ne_nil rep.trunk_ne_nil
  have genesis : s.tree.nameAt 0 = cfg.genesisHash := by
    refine Eq.trans ?_ (named first (by rw [trunk]; rfl))
    exact nameAt_append (show s.tree.trunk = [] ++ first :: rest from trunk)
  have read := readTree_ok.mpr ⟨locatorHashes_eq (rep.indexed grown) rep.trunk_ne_nil, rfl⟩
  refine bind_ok.mpr ⟨_, s, read, modify_ok.mpr ?_⟩
  rw [locatorList, ← List.cons_append, List.map_append, ← genesis]
  rfl

/-- **The heights of the best locator descend strictly if and only if there is a block on the genesis. Another node
finds the highest entry on its trunk, and the distance it computes is that of the entry if and only if this is within
ten blocks of the tip, or is the genesis and the tip is where the distances of the other node get to.** -/
theorem locators_exact (cfg : Config) (reached' : Reached known' s.tree)
    (named : ∀ b ∈ s.tree.trunk.head?, b.hash = cfg.genesisHash) (reached : Reached known t)
    (genesis : t.trunk.head? = s.tree.trunk.head?)
    (agree : ∀ a ∈ t.trunk, ∀ b ∈ s.tree.trunk, a.hash = b.hash → a = b) :
    ∃ heights : List Int,
      updateBestLocator cfg s = .ok () { s with bestLocator := heights.map s.tree.nameAt } ∧
      heights.head? = some s.tree.height ∧ heights.getLast? = some 0 ∧
      (∀ h ∈ heights, 0 ≤ h ∧ h ≤ s.tree.height) ∧
      (heights.Pairwise (· > ·) ∧ (heights.map s.tree.nameAt).Nodup ↔ 0 < s.tree.height) ∧
      ∃ height, IsGreatest {h | h ∈ heights ∧ s.tree.nameAt h ∈ hashes t.trunk} height ∧
        (∃ b ∈ t.trunk, b.hash = s.tree.nameAt height ∧ t.locate (heights.map s.tree.nameAt) = .ok (some b)) ∧
        ∃ distance, t.getDistanceBack (heights.map s.tree.nameAt) = .ok distance ∧
          (distance = s.tree.height - height ↔ Retraced s.tree.height height) := by
  obtain ⟨grown, rep, -⟩ := reached.kept
  obtain ⟨grown', rep', -⟩ := reached'.kept
  have bounds : ∀ h ∈ s.tree.locatorList, 0 ≤ h ∧ h < s.tree.trunk.length :=
    fun h member => mem_locatorList rep'.trunk_ne_nil member
  have common : ∀ h ∈ s.tree.locatorList, s.tree.nameAt h ∈ hashes t.trunk ↔ h ≤ forkHeight t s.tree :=
    fun h member => entry_iff reached reached' genesis agree (bounds h member).1 (bounds h member).2
  obtain ⟨entry, below⟩ := highest_mem (t := s.tree) (Int.natCast_nonneg (forkHeight t s.tree))
  refine ⟨s.tree.locatorList, updateBestLocator_run cfg reached' named, rfl, ?_, ?_, ?_,
    highest (forkHeight t s.tree) s.tree.locatorList, ⟨⟨entry, (common _ entry).mpr below⟩, ?_⟩, ?_, _,
    distanceBack_eq rep grown common 0 1, distance_iff (Int.natCast_nonneg _)⟩
  · rw [locatorList, ← List.cons_append, List.getLast?_concat]
  · intro h member
    have inside := bounds h member
    have tip : s.tree.height = s.tree.trunk.length - 1 := rfl
    omega
  · rw [and_iff_left_of_imp, locatorList_descending]
    intro descending
    refine List.Nodup.map_on (fun h member h' member' same => ?_) (descending.imp ne_of_gt)
    exact nameAt_inj (rep'.trunk_hashes_nodup grown') (bounds h member).1 (bounds h member).2 (bounds h' member').1
      (bounds h' member').2 same
  · rintro h ⟨member, found⟩
    exact le_highest rep'.trunk_ne_nil member ((common h member).mp found)
  · obtain ⟨b, on, hash⟩ := List.mem_map.mp ((common _ entry).mpr below)
    refine ⟨b, on, hash, ?_⟩
    rw [locate_eq rep grown common ⟨_, entry, below⟩, ← hash]
    exact rep.find_known grown (rep.trunk_known on)

/-- A node with blocks of version 1 up to a height, and another one with the first of them. -/
theorem reached_nodes (n : Nat) (linked : Linked (BlockTree.Small.votes (List.replicate (n + 1) 1))) :
    ∃ (s : BlockChain) (t : BlockTree Uint256),
      Reached (BlockTree.Small.votes (List.replicate (n + 1) 1)).reverse s.tree ∧
      s.tree.trunk = BlockTree.Small.votes (List.replicate (n + 1) 1) ∧
      Reached (BlockTree.Small.votes [1]).reverse t ∧ t.trunk = BlockTree.Small.votes [1] := by
  have run : (Libcoin.Small.created 1 0).toOption.isSome = true := by decide +kernel
  obtain ⟨s, -⟩ := Option.isSome_iff_exists.mp run
  obtain ⟨r, reached', trunk'⟩ := reached_votes linked
  obtain ⟨t, reached, trunk⟩ := reached_votes
    (show Linked (BlockTree.Small.votes [1]) from ⟨by decide, by decide, by decide⟩)
  exact ⟨{ s with tree := r }, t, reached', trunk', reached, trunk⟩

open Libcoin.Small in
/-- A locator from height 12 goes from height 2 to the genesis, and eleven blocks are read off it. -/
theorem locators_fail :
    ¬ ∀ (cfg : Config) (known known' : List (BlockRef Uint256)) (t : BlockTree Uint256) (s : BlockChain),
      Reached known' s.tree → (∀ b ∈ s.tree.trunk.head?, b.hash = cfg.genesisHash) → Reached known t →
      t.trunk.head? = s.tree.trunk.head? → (∀ a ∈ t.trunk, ∀ b ∈ s.tree.trunk, a.hash = b.hash → a = b) →
      ∃ heights : List Int,
        updateBestLocator cfg s = .ok () { s with bestLocator := heights.map s.tree.nameAt } ∧
        ∃ height, IsGreatest {h | h ∈ heights ∧ s.tree.nameAt h ∈ hashes t.trunk} height ∧
          t.getDistanceBack (heights.map s.tree.nameAt) = .ok (s.tree.height - height) := by
  intro claim
  obtain ⟨s, t, reached', trunk', reached, trunk⟩ := reached_nodes 12 ⟨by decide, by decide, by decide⟩
  have named : ∀ b ∈ s.tree.trunk.head?, b.hash = (config 1 0).genesisHash := by
    rw [trunk']
    decide
  have genesis : t.trunk.head? = s.tree.trunk.head? := by
    rw [trunk, trunk']
    decide
  have agree : ∀ a ∈ t.trunk, ∀ b ∈ s.tree.trunk, a.hash = b.hash → a = b := by
    rw [trunk, trunk']
    decide
  obtain ⟨heights, run, height, ⟨⟨-, found⟩, -⟩, distance⟩ := claim (config 1 0) _ _ t s reached' named reached genesis agree
  rw [updateBestLocator_run (config 1 0) reached' named] at run
  have names : s.tree.locatorList.map s.tree.nameAt = heights.map s.tree.nameAt := by
    exact congrArg BlockChain.bestLocator (EStateM.Result.ok.inj run).2
  obtain ⟨grown, rep, -⟩ := reached.kept
  have bounds : ∀ h ∈ s.tree.locatorList, 0 ≤ h ∧ h < s.tree.trunk.length :=
    fun h member => mem_locatorList reached'.kept.2.1.trunk_ne_nil member
  have common : ∀ h ∈ s.tree.locatorList, s.tree.nameAt h ∈ hashes t.trunk ↔ h ≤ forkHeight t s.tree :=
    fun h member => entry_iff reached reached' genesis agree (bounds h member).1 (bounds h member).2
  have read := distanceBack_eq rep grown common 0 1
  have eleven : distanceTo (forkHeight t s.tree) s.tree.locatorList 0 1 = 11 := by
    unfold forkHeight locatorList SparseTree.height
    rw [trunk, trunk']
    decide
  have tip : s.tree.height = 12 := by
    unfold SparseTree.height
    rw [trunk']
    decide
  have same : s.tree.height - height = 11 := by
    rw [names, eleven] at read
    exact Except.ok.inj (distance.symm.trans read)
  obtain rfl : height = 1 := by omega
  unfold nameAt at found
  rw [trunk, trunk'] at found
  exact absurd found (by decide)

open Libcoin.Small in
/-- The distance that is read off a locator from height 4 is right. -/
theorem locators_exact_four :
    ∃ (s : BlockChain) (t : BlockTree Uint256) (heights : List Int) (height : Int),
      updateBestLocator (config 1 0) s = .ok () { s with bestLocator := heights.map s.tree.nameAt } ∧
      heights.Pairwise (· > ·) ∧ s.tree.nameAt height ∈ hashes t.trunk ∧
      t.getDistanceBack (heights.map s.tree.nameAt) = .ok (4 - height) := by
  obtain ⟨s, t, reached', trunk', reached, trunk⟩ := reached_nodes 4 ⟨by decide, by decide, by decide⟩
  have named : ∀ b ∈ s.tree.trunk.head?, b.hash = (config 1 0).genesisHash := by
    rw [trunk']
    decide
  have genesis : t.trunk.head? = s.tree.trunk.head? := by
    rw [trunk, trunk']
    decide
  have agree : ∀ a ∈ t.trunk, ∀ b ∈ s.tree.trunk, a.hash = b.hash → a = b := by
    rw [trunk, trunk']
    decide
  have tip : s.tree.height = 4 := by
    unfold SparseTree.height
    rw [trunk']
    decide
  obtain ⟨heights, run, -, -, bounds, descending, height, ⟨⟨entry, found⟩, -⟩, -, distance, read, exact⟩ :=
    locators_exact (config 1 0) reached' named reached genesis agree
  have inside := bounds height entry
  obtain rfl : distance = s.tree.height - height := exact.mpr (.inl (by omega))
  exact ⟨s, t, heights, height, run, (descending.mpr (by omega)).1, found, tip ▸ read⟩

end BlockChain

end Libcoin
