/-
`BlockTree::pop_back`: when it only takes the best block away, and what it does otherwise.

* `Removable` is the condition: no branch hangs off the best block, and no branch has more work than
  the trunk that is left.
* `popBack_removable`: then the tree without the best block is exact again.
* `popBack_reorganizes`: a heavier branch is moved onto the trunk, but its blocks keep their negative
  heights.
-/

import Libcoin.Tree.Growth

namespace Libcoin

namespace BlockTree

open Exec

variable {Hash : Type} [LinearOrder Hash] {known : List (BlockRef Hash)} {t : BlockTree Hash}
  {tip : BlockRef Hash} {low : List (BlockRef Hash)}

/-! ### The tree without its best block -/

/-- No branch hangs off the best block, and no branch has more work than the rest of the trunk. -/
structure Removable (known : List (BlockRef Hash)) (t : BlockTree Hash) (tip : BlockRef Hash) :
    Prop where
  free : ∀ b ∈ known, b ∉ t.trunk → tip ∉ lineage known b.hash
  lighter : ∀ b ∈ known, b ∉ t.trunk → workOf (lineage known b.hash) ≤ workOf t.trunk.dropLast

theorem Represents.tip_notMem (rep : Represents known t) (grown : Grown known)
    (split : t.trunk = low ++ [tip]) : tip ∉ low := by
  intro inside
  have distinct := rep.trunk_hashes_nodup grown
  rw [split, hashes, List.map_append] at distinct
  exact (List.disjoint_of_nodup_append distinct) (List.mem_map_of_mem inside)
    (List.mem_map_of_mem List.mem_cons_self)

/-- The best block lies on the path of no other block of the trunk. -/
theorem Represents.tip_top (rep : Represents known t) (grown : Grown known)
    (split : t.trunk = low ++ [tip]) {b : BlockRef Hash} (inside : b ∈ low) :
    tip ∉ lineage known b.hash := by
  intro member
  have different : tip ≠ b := fun same => rep.tip_notMem grown split (same ▸ inside)
  obtain ⟨below, high, here, path⟩ := rep.trunk_split grown (b := b) (by simp [split, inside])
  have inBelow : tip ∈ below := by
    rw [path] at member
    exact List.mem_reverse.mp ((List.mem_cons.mp member).resolve_left different)
  have last : (below ++ b :: high).getLast? = some tip := by rw [← here, split, List.getLast?_concat]
  rw [List.getLast?_append_of_ne_nil _ (List.cons_ne_nil b high)] at last
  have distinct := rep.trunk_hashes_nodup grown
  rw [here, hashes, List.map_append] at distinct
  exact (List.disjoint_of_nodup_append distinct) (List.mem_map_of_mem inBelow)
    (List.mem_map_of_mem (List.mem_of_getLast? last))

theorem Represents.avoids_tip (rep : Represents known t) (grown : Grown known)
    (split : t.trunk = low ++ [tip])
    (free : ∀ b ∈ known, b ∉ t.trunk → tip ∉ lineage known b.hash) {b : BlockRef Hash}
    (member : b ∈ known) (different : b ≠ tip) : tip ∉ lineage known b.hash := by
  by_cases on : b ∈ t.trunk
  · rw [split, List.mem_append, List.mem_singleton] at on
    exact rep.tip_top grown split (on.resolve_right different)
  · exact free b member on

theorem Represents.genesis_ne_tip (rep : Represents known t) (grown : Grown known)
    (split : t.trunk = low ++ [tip]) (long : low ≠ []) : known.getLast? ≠ some tip := by
  obtain ⟨top, isKnown, path⟩ := rep.trunk
  rw [← grown.lineage_getLast? isKnown, ← path, List.getLast?_reverse, split,
    List.head?_append_of_ne_nil _ long]
  intro same
  exact rep.tip_notMem grown split (List.mem_of_head? same)

theorem Represents.grown_erase (rep : Represents known t) (grown : Grown known)
    (split : t.trunk = low ++ [tip]) (long : low ≠ [])
    (free : ∀ b ∈ known, b ∉ t.trunk → tip ∉ lineage known b.hash) : Grown (known.erase tip) :=
  grown.erase (rep.trunk_known (by simp [split])) (rep.genesis_ne_tip grown split long)
    fun _ member different => rep.avoids_tip grown split free member different

theorem Represents.dropTip (rep : Represents known t) (grown : Grown known)
    (split : t.trunk = low ++ [tip]) (long : low ≠ [])
    (free : ∀ b ∈ known, b ∉ t.trunk → tip ∉ lineage known b.hash) :
    Represents (known.erase tip) (t.dropTip tip) := by
  have nodup : known.Nodup := grown.hashes_nodup.of_map _
  have mem_iff : ∀ b, b ∈ known.erase tip ↔ b ≠ tip ∧ b ∈ known := fun b => nodup.mem_erase_iff
  have trunk_eq : (t.dropTip tip).trunk = low := by
    show t.trunk.dropLast = low
    rw [split, List.dropLast_concat]
  have known_tip : tip ∈ known := rep.trunk_known (by simp [split])
  have hash_ne : ∀ b ∈ known, b ≠ tip → tip.hash ≠ b.hash := fun b member different same =>
    different (grown.eq_of_hash member known_tip same.symm)
  have same_path : ∀ b ∈ known, b ≠ tip → lineage (known.erase tip) b.hash = lineage known b.hash :=
    fun b member different => lineage_erase (rep.avoids_tip grown split free member different)
  have same_depth : ∀ b ∈ known, b ≠ tip → depth (known.erase tip) b.hash = depth known b.hash :=
    fun b member different => by rw [depth, depth, same_path b member different]
  have off_iff : ∀ b ∈ known, b ≠ tip → (b ∉ low ↔ b ∉ t.trunk) := by
    intro b member different
    simp [split, different]
  refine ⟨?_, ?_, ?_, ?_, ?_, ?_⟩
  · obtain ⟨first, last, low_split⟩ := List.eq_nil_or_concat' low |>.resolve_left long
    have inLow : last ∈ low := by simp [low_split]
    have notTip : last ≠ tip := fun same => rep.tip_notMem grown split (same ▸ inLow)
    have known_last : last ∈ known := rep.trunk_known (by simp [split, inLow])
    refine ⟨last.hash, List.mem_map_of_mem ((mem_iff last).mpr ⟨notTip, known_last⟩), ?_⟩
    obtain ⟨top, -, path⟩ := rep.trunk
    rw [split, low_split] at path
    have below : lineage known last.hash = last :: first.reverse :=
      grown.lineage_below [tip] (path.symm.trans (by simp))
    rw [trunk_eq, same_path last known_last notTip, below, low_split]
    simp
  · intro b inside
    rw [trunk_eq] at inside
    have on : b ∈ t.trunk := by simp [split, inside]
    have notTip : b ≠ tip := fun same => rep.tip_notMem grown split (same ▸ inside)
    have member := rep.trunk_known on
    rw [same_depth b member notTip, ← rep.onTrunk b on]
    exact Map.lookup_erase_of_ne _ (hash_ne b member notTip)
  · intro b member off
    obtain ⟨notTip, member⟩ := (mem_iff b).mp member
    rw [trunk_eq] at off
    rw [same_depth b member notTip, ← rep.onBranch b member ((off_iff b member notTip).mp off)]
    exact Map.lookup_erase_of_ne _ (hash_ne b member notTip)
  · intro h unknown
    show (Std.ExtTreeMap.erase _ _)[h]? = none
    rw [Map.lookup_erase]
    by_cases same : tip.hash = h
    · rw [if_pos same]
    · rw [if_neg same]
      refine rep.unknown h fun inside => unknown ?_
      obtain ⟨b, member, rfl⟩ := List.mem_map.mp inside
      have notTip : b ≠ tip := fun equal => same (equal ▸ rfl)
      exact List.mem_map_of_mem ((mem_iff b).mpr ⟨notTip, member⟩)
  · intro h b
    rw [trunk_eq, mem_iff b]
    show t.branches[h]? = some b ↔ _
    rw [rep.branches h b]
    constructor
    · rintro ⟨member, off, same⟩
      have notTip : b ≠ tip := by
        rintro rfl
        exact off (by simp [split])
      exact ⟨⟨notTip, member⟩, (off_iff b member notTip).mpr off, same⟩
    · rintro ⟨⟨notTip, member⟩, off, same⟩
      exact ⟨member, (off_iff b member notTip).mp off, same⟩
  · rw [trunk_eq]
    show t.accWork.dropLast = _
    rw [rep.accWork, split, runningWork_snoc, List.dropLast_concat]

/-! ### The search for a heavier branch -/

theorem pickBest_spec (rep : Represents known t) (grown : Grown known) (bestWork : Int)
    (keys : List Hash) (stored : ∀ h ∈ keys, ∃ b, t.branches[h]? = some b)
    (picked : Option (BlockRef Hash)) :
    ∃ result, t.pickBest bestWork keys picked = .ok result ∧
      ((result = picked ∧ ∀ h ∈ keys, workOf (lineage known h) ≤ bestWork) ∨
        ∃ c, result = some c ∧ c ∈ known ∧ c ∉ t.trunk ∧
          bestWork < workOf (lineage known c.hash)) := by
  induction keys generalizing picked with
  | nil => exact ⟨picked, rfl, Or.inl ⟨rfl, by simp⟩⟩
  | cons h keys ih =>
    obtain ⟨b, found⟩ := stored h List.mem_cons_self
    obtain ⟨member, off, rfl⟩ := (rep.branches h b).mp found
    have step : ∀ picked, t.pickBest bestWork (b.hash :: keys) picked =
        t.pickBest bestWork keys
          (if bestWork < workOf (lineage known b.hash) then some b else picked) := by
      intro picked
      rw [pickBest, rep.find_known grown member, ok_bind]
      show t.accumulatedWork b >>= _ = _
      rw [rep.accumulatedWork_known grown member, ok_bind]
    rw [step]
    obtain ⟨result, done, cases⟩ := ih (fun h inside => stored h (List.mem_cons_of_mem _ inside))
      (if bestWork < workOf (lineage known b.hash) then some b else picked)
    refine ⟨result, done, ?_⟩
    rcases cases with ⟨same, lighter⟩ | heavier
    · by_cases more : bestWork < workOf (lineage known b.hash)
      · rw [if_pos more] at same
        exact Or.inr ⟨b, same, member, off, more⟩
      · rw [if_neg more] at same
        refine Or.inl ⟨same, fun other inside => ?_⟩
        rcases List.mem_cons.mp inside with rfl | inside
        · exact not_lt.mp more
        · exact lighter other inside
    · exact Or.inr heavier

theorem pickBest_ok {bestWork : Int} {keys : List Hash} {picked result : Option (BlockRef Hash)}
    (done : t.pickBest bestWork keys picked = .ok result) {h : Hash} (inside : h ∈ keys) :
    ∃ b work, t.find h = .ok (some b) ∧ t.accumulatedWork b = .ok work := by
  induction keys generalizing picked with
  | nil => cases inside
  | cons key keys ih =>
    rw [pickBest] at done
    obtain ⟨found, hasFound, done⟩ := bind_eq_ok.mp done
    cases found with
    | none => cases done
    | some b =>
      obtain ⟨work, hasWork, done⟩ := bind_eq_ok.mp done
      rcases List.mem_cons.mp inside with rfl | inside
      · exact ⟨b, work, hasFound, hasWork⟩
      · exact ih done inside

/-! ### The reorganisation -/

/-- The loop over the trunk stops after one block: the height of that block is negative by then. -/
theorem forward_toBranchFlipped (indexed : Indexed t) {root : BlockRef Hash}
    {below high : List (BlockRef Hash)} (split : t.trunk = below ++ root :: high) (turns : Nat) :
    ∃ t' met, forward toBranchFlipped (turns + 1) t high.head? [] = .ok (t', met) ∧
      t'.trunk = t.trunk ∧ t'.accWork = t.accWork ∧
      ∀ h ∉ hashes high, t'.heights[h]? = t.heights[h]? ∧ t'.branches[h]? = t.branches[h]? := by
  cases high with
  | nil => exact ⟨t, [], rfl, rfl, rfl, fun _ _ => ⟨rfl, rfl⟩⟩
  | cons b high =>
    have height : t.heights[b.hash]? = some ((below ++ [root]).length : Int) :=
      indexed (below ++ [root]) b high (by rw [split]; simp)
    have flipped : (toBranchFlipped t b).heightOf b.hash =
        .ok (((below ++ [root]).length : Int) * -1) := by
      have entry : (toBranchFlipped t b).heights[b.hash]? =
          some (((below ++ [root]).length : Int) * -1) := by
        show (t.heights.insert b.hash (t.heights.getD b.hash 0 * -1))[b.hash]? = _
        rw [Map.lookup_insert_self, Map.getD_lookup, height, Option.getD_some]
      rw [SparseTree.heightOf, entry]
    have stopped : (toBranchFlipped t b).advance b 1 = .ok none := by
      unfold SparseTree.advance
      rw [if_pos (by omega)]
      show (toBranchFlipped t b).heightOf b.hash >>= _ = _
      rw [flipped, ok_bind, if_pos (by rw [List.length_append, List.length_singleton]; omega)]
      rfl
    refine ⟨toBranchFlipped t b, [b.hash], ?_, rfl, rfl, fun h absent => ?_⟩
    · rw [List.head?_cons, forward]
      show (toBranchFlipped t b).advance b 1 >>= _ = _
      rw [stopped, ok_bind]
      cases turns <;> rfl
    · rw [mem_hashes_cons, not_or] at absent
      have different : b.hash ≠ h := Ne.symm absent.1
      exact ⟨Map.lookup_insert_of_ne _ _ different, Map.lookup_insert_of_ne _ _ different⟩

/-- The branch is put on the trunk, and its last block keeps a negative height there. -/
theorem reorganize_spec [Zero Hash] (rep : Represents known t) (grown : Grown known)
    {c : BlockRef Hash} (member : c ∈ known) (off : c ∉ t.trunk) :
    ∃ t', t.reorganize c = .ok t' ∧ t'.trunk.getLast? = some c ∧
      ∃ h < 0, t'.heights[c.hash]? = some h := by
  obtain ⟨up, root, below, high, fork⟩ := rep.exists_fork grown member
  have indexed := rep.indexed grown
  obtain ⟨up', rfl⟩ : ∃ up', up = c :: up' := by
    cases up with
    | nil =>
      obtain rfl := fork.eq_base grown rfl
      exact absurd fork.root_mem off
    | cons b up' =>
      obtain rfl := fork.eq_base grown rfl
      exact ⟨up', rfl⟩
  obtain ⟨t₁, met, moved, same_trunk, same_acc, same⟩ :=
    forward_toBranchFlipped indexed fork.split t.trunk.length
  have kept : ∀ b ∈ c :: up', t₁.heights[b.hash]? = t.heights[b.hash]? ∧
      t₁.branches[b.hash]? = t.branches[b.hash]? := by
    intro b inside
    refine same b.hash fun above => ?_
    obtain ⟨d, inHigh, equal⟩ := List.mem_map.mp above
    exact fork.apart rep grown inside (fork.high_mem inHigh) equal.symm
  have root_notHigh : root.hash ∉ hashes high := by
    intro above
    have distinct := rep.trunk_hashes_nodup grown
    rw [fork.split, hashes, List.map_append, List.map_cons] at distinct
    exact (List.nodup_cons.mp distinct.of_append_right).1 above
  have height : t₁.heightOf root.hash = .ok (below.length : Int) := by
    rw [SparseTree.heightOf, (same root.hash root_notHigh).1, indexed below root high fork.split]
  have stored : ∀ b ∈ (c :: up').reverse, t₁.branches[b.hash]? = some b := by
    intro b inside
    rw [List.mem_reverse] at inside
    rw [(kept b inside).2]
    exact (rep.branches b.hash b).mpr ⟨fork.up_known inside, fork.off b inside, rfl⟩
  have distinct : (hashes (c :: up').reverse).Nodup := by
    rw [hashes, List.map_reverse, List.nodup_reverse]
    exact fork.up_distinct grown
  have cutLow : (below ++ [root]).length = (below.length : Int).toNat + 1 := by
    rw [List.length_append, List.length_singleton, Int.toNat_natCast]
  have lowered : t₁.cut (below ++ [root]).length =
      { t₁ with trunk := below ++ [root], accWork := runningWork 0 (below ++ [root]) } :=
    cut_append (same_trunk.trans fork.split_root) (same_acc.trans (same_trunk ▸ rep.accWork))
  have reversed : (hashes (c :: up')).reverse = hashes (c :: up').reverse := by
    rw [hashes, hashes, List.map_reverse]
  have pushed := foldl_pushTrunk 1 (c :: up').reverse
    { t₁ with trunk := below ++ [root], accWork := runningWork 0 (below ++ [root]) } stored distinct
  have done : t.reorganize c = .ok ((hashes (c :: up').reverse).foldl (pushTrunk 1)
      { t₁ with trunk := below ++ [root], accWork := runningWork 0 (below ++ [root]) }) := by
    unfold reorganize
    rw [rep.collect_branch grown _ _ (rep.fuel_enough fork) c [] fork, ok_bind]
    show t.advance root 1 >>= _ = _
    rw [advance_trunk indexed fork.split, ok_bind, moved, ok_bind]
    show t₁.heightOf root.hash >>= _ = _
    rw [height, ok_bind, ← cutLow, lowered, List.nil_append, reversed]
    rfl
  have negative := rep.depth_pos grown member off
  have found : t₁.heights[c.hash]? = some (-depth known c.hash) := by
    rw [(kept c List.mem_cons_self).1, rep.onBranch c member off]
  have after := Map.lookup_adjustAll_stored 0 (· * 1) (hashes (c :: up').reverse) t₁.heights
    distinct found
  refine ⟨_, done, ?_, -depth known c.hash, by omega, ?_⟩
  · rw [pushed]
    show (below ++ [root] ++ (c :: up').reverse).getLast? = some c
    rw [List.reverse_cons, ← List.append_assoc, List.getLast?_concat]
  · rw [pushed]
    show (t₁.heights.adjustAll 0 (· * 1) (hashes (c :: up').reverse))[c.hash]? = _
    rw [after, mul_one, ite_self]

/-! ### `pop_back` -/

/-- The work of the trunk without its best block, as `pop_back` reads it. -/
theorem popBack_bestWork (rep : Represents known t) (grown : Grown known)
    (split : t.trunk = low ++ [tip]) (long : low ≠ []) :
    ∃ last, (t.dropTip tip).best = .ok last ∧
      ({ t.dropTip tip with heights := t.heights } : BlockTree Hash).accumulatedWork last =
        .ok (workOf low) := by
  obtain ⟨first, last, low_split⟩ := List.eq_nil_or_concat' low |>.resolve_left long
  have trunk_eq : (t.dropTip tip).trunk = low := by
    show t.trunk.dropLast = low
    rw [split, List.dropLast_concat]
  have acc_eq : (t.dropTip tip).accWork = runningWork 0 low := by
    show t.accWork.dropLast = _
    rw [rep.accWork, split, runningWork_snoc, List.dropLast_concat]
  have height : t.heights[last.hash]? = some (first.length : Int) :=
    rep.indexed grown first last [tip] (by rw [split, low_split]; simp)
  refine ⟨last, ?_, ?_⟩
  · rw [best, trunk_eq, low_split, List.getLast?_concat]
  · have here : SparseTree.heightOf { t.dropTip tip with heights := t.heights } last.hash =
        .ok (first.length : Int) := by
      unfold SparseTree.heightOf
      dsimp only
      rw [height]
    unfold accumulatedWork
    rw [here, ok_bind, if_neg (by omega)]
    have entry := runningWork_getElem? 0 first [] last
    unfold workAt
    dsimp only
    rw [if_neg (by omega), acc_eq, Int.toNat_natCast, low_split, entry, workOf_append, workOf_cons,
      workOf_nil, zero_add, add_zero]

theorem Represents.best_tip (split : t.trunk = low ++ [tip]) : t.best = .ok tip := by
  rw [best, split, List.getLast?_concat]

/-- `pop_back` after the search. -/
theorem popBack_run [Zero Hash] (rep : Represents known t) (grown : Grown known)
    (split : t.trunk = low ++ [tip]) (long : low ≠ []) :
    t.popBack = (t.dropTip tip).pickBest (workOf low) (t.dropTip tip).branches.keys none >>=
      fun picked => match picked with
        | none => .ok (t.dropTip tip)
        | some c => (t.dropTip tip).reorganize c := by
  obtain ⟨last, hasLast, hasWork⟩ := popBack_bestWork rep grown split long
  unfold popBack
  rw [Represents.best_tip split, ok_bind]
  show (t.dropTip tip).best >>= _ = _
  rw [hasLast, ok_bind, hasWork, ok_bind]
  rfl

theorem mem_branch_keys (rep : Represents known t) {b : BlockRef Hash} (member : b ∈ known)
    (off : b ∉ t.trunk) : b.hash ∈ (t.dropTip tip).branches.keys := by
  rw [Std.ExtTreeMap.mem_keys, ← Std.ExtTreeMap.isSome_getElem?_iff_mem]
  exact ((rep.branches b.hash b).mpr ⟨member, off, rfl⟩) ▸ rfl

/-- When no branch hangs off the best block, `pop_back` either takes that block away or puts a heavier
branch on the trunk. -/
theorem popBack_cases [Zero Hash] (rep : Represents known t) (grown : Grown known)
    (split : t.trunk = low ++ [tip]) (long : low ≠ [])
    (free : ∀ b ∈ known, b ∉ t.trunk → tip ∉ lineage known b.hash) :
    (Removable known t tip ∧ t.popBack = .ok (t.dropTip tip)) ∨
      (¬ Removable known t tip ∧ ∃ t' c, t.popBack = .ok t' ∧ t'.trunk.getLast? = some c ∧
        ∃ h < 0, t'.heights[c.hash]? = some h) := by
  have rep' := rep.dropTip grown split long free
  have grown' := rep.grown_erase grown split long free
  have trunk_eq : (t.dropTip tip).trunk = low := by
    show t.trunk.dropLast = low
    rw [split, List.dropLast_concat]
  have stored : ∀ h ∈ (t.dropTip tip).branches.keys, ∃ b, (t.dropTip tip).branches[h]? = some b := by
    intro h inside
    exact Option.isSome_iff_exists.mp
      (Std.ExtTreeMap.isSome_getElem?_iff_mem.mpr (Std.ExtTreeMap.mem_keys.mp inside))
  have run := popBack_run rep grown split long
  obtain ⟨result, done, cases⟩ := pickBest_spec rep' grown' (workOf low) _ stored none
  rw [done, ok_bind] at run
  have same_path : ∀ b ∈ known, b ≠ tip → lineage (known.erase tip) b.hash = lineage known b.hash :=
    fun b member different => lineage_erase (rep.avoids_tip grown split free member different)
  have tip_on : tip ∈ t.trunk := by simp [split]
  rcases cases with ⟨rfl, lighter⟩ | ⟨c, rfl, member, off, heavier⟩
  · refine Or.inl ⟨⟨free, fun b member off => ?_⟩, run⟩
    have notTip : b ≠ tip := fun same => off (same ▸ tip_on)
    have light := lighter b.hash (mem_branch_keys rep member off)
    rw [same_path b member notTip] at light
    rw [split, List.dropLast_concat]
    exact light
  · obtain ⟨notTip, known_c⟩ := (grown.hashes_nodup.of_map _).mem_erase_iff.mp member
    rw [same_path c known_c notTip] at heavier
    have off_c : c ∉ t.trunk := by
      rw [trunk_eq] at off
      simp [split, off, notTip]
    obtain ⟨t', moved, top, negative⟩ := reorganize_spec rep' grown' member off
    refine Or.inr ⟨fun removable => ?_, t', c, run.trans moved, top, negative⟩
    have light := removable.lighter c known_c off_c
    rw [split, List.dropLast_concat] at light
    omega

/-- A branch that hangs off the best block is walked forever. -/
theorem popBack_stuck [Zero Hash] (rep : Represents known t) (grown : Grown known)
    (split : t.trunk = low ++ [tip]) (long : low ≠ []) {b : BlockRef Hash} (member : b ∈ known)
    (off : b ∉ t.trunk) (through : tip ∈ lineage known b.hash) (t' : BlockTree Hash) :
    t.popBack ≠ .ok t' := by
  have tip_on : tip ∈ t.trunk := by simp [split]
  -- the block that names the best one as its predecessor
  obtain ⟨c, known_c, off_c, below, path⟩ : ∃ c, c ∈ known ∧ c ∉ t.trunk ∧
      ∃ below, lineage known c.hash = c :: tip :: below := by
    obtain ⟨up, below, path⟩ := List.append_of_mem through
    obtain ⟨rest, head⟩ := grown.exists_lineage member
    have head : lineage known b.hash = b :: rest := head
    obtain ⟨up', c, rfl⟩ := List.eq_nil_or_concat' up |>.resolve_left (by
      rintro rfl
      obtain rfl : tip = b := (List.cons.inj (path.symm.trans head)).1
      exact off tip_on)
    rw [List.append_assoc, List.singleton_append] at path
    have here : lineage known c.hash = c :: tip :: below := grown.lineage_below up' path
    have known_c : c ∈ known := mem_of_mem_lineage (h := c.hash) (by rw [here]; simp)
    refine ⟨c, known_c, fun on => ?_, below, here⟩
    have notTip : c ≠ tip := by
      rintro rfl
      have distinct := grown.lineage_hashes_nodup c.hash
      rw [show lineage known c.hash = _ from here, hashes, List.map_cons] at distinct
      exact (List.nodup_cons.mp distinct).1 List.mem_cons_self
    have inLow : c ∈ low := by
      rw [split, List.mem_append, List.mem_singleton] at on
      exact on.resolve_right notTip
    exact rep.tip_top grown split inLow (by rw [here]; simp)
  have linked : TreeElem.prev c = tip.hash := grown.lineage_next path
  have notTip : tip.hash ≠ c.hash := fun same =>
    off_c (grown.eq_of_hash (rep.trunk_known tip_on) known_c same ▸ tip_on)
  have deep := rep.depth_pos grown known_c off_c
  have height : (t.dropTip tip).heights[c.hash]? = some (-depth known c.hash) := by
    rw [← rep.onBranch c known_c off_c]
    exact Map.lookup_erase_of_ne _ notTip
  have heightOf : (t.dropTip tip).heightOf c.hash = .ok (-depth known c.hash) := by
    rw [SparseTree.heightOf, height]
  have stays : (t.dropTip tip).stepBranch c = .ok c := by
    have noBranch : (t.dropTip tip).branches[tip.hash]? = none := by
      refine Option.eq_none_iff_forall_ne_some.mpr fun d found => ?_
      obtain ⟨known_d, off_d, same⟩ := (rep.branches tip.hash d).mp found
      exact off_d (grown.eq_of_hash known_d (rep.trunk_known tip_on) same ▸ tip_on)
    have noHeight : (t.dropTip tip).heights[tip.hash]? = none := Map.lookup_erase_self _ _
    rw [SparseTree.stepBranch, linked, noBranch, noHeight]
  have back : (t.dropTip tip).back c = .ok c := by
    have walk : (t.dropTip tip).walkBranch 1 c = .ok (c, 0) := by
      unfold SparseTree.walkBranch
      show (t.dropTip tip).heightOf c.hash >>= _ = _
      rw [heightOf, ok_bind, if_pos (by omega), stays]
      rfl
    have moved : (t.dropTip tip).advance c (-1) = .ok (some c) := by
      unfold SparseTree.advance
      rw [if_neg (by omega), if_pos (by omega)]
      show (t.dropTip tip).walkBranch 1 c >>= _ = _
      rw [walk, ok_bind]
      show (t.dropTip tip).heightOf c.hash >>= _ = _
      rw [heightOf, ok_bind, if_neg (by omega)]
      rfl
    rw [SparseTree.back, moved, ok_bind]
    rfl
  have loops : ∀ turns sum, (t.dropTip tip).sumBranch turns c sum = .error .undefined := by
    intro turns
    induction turns with
    | zero => exact fun _ => rfl
    | succ turns ih =>
      intro sum
      rw [sumBranch, back, ok_bind, heightOf, ok_bind, if_pos (by omega), ih]
  have noWork : ∀ work, (t.dropTip tip).accumulatedWork c ≠ .ok work := by
    intro work
    rw [accumulatedWork, heightOf, ok_bind, if_pos (by omega), loops]
    exact fun equal => by cases equal
  intro done
  rw [popBack_run rep grown split long] at done
  obtain ⟨picked, search, -⟩ := bind_eq_ok.mp done
  obtain ⟨d, work, found, hasWork⟩ := pickBest_ok search (mem_branch_keys rep known_c off_c)
  have isC : (t.dropTip tip).find c.hash = .ok (some c) := by
    have entry : (t.dropTip tip).branches[c.hash]? = some c :=
      (rep.branches c.hash c).mpr ⟨known_c, off_c, rfl⟩
    unfold SparseTree.find
    rw [height]
    simp only
    rw [if_pos (by omega), entry]
  obtain rfl : c = d := Option.some.inj (Except.ok.inj (isC.symm.trans found))
  exact noWork work hasWork

/-! ### Runs of `insert` and `pop_back` -/

theorem split_tip (best : t.trunk.getLast? = some tip) (long : 2 ≤ t.trunk.length) :
    ∃ low, t.trunk = low ++ [tip] ∧ low ≠ [] := by
  obtain ⟨low, split⟩ := List.getLast?_eq_some_iff.mp best
  refine ⟨low, split, ?_⟩
  rintro rfl
  rw [split, List.nil_append, List.length_singleton] at long
  omega

theorem heaviest_dropTip (rep : Represents known t) (grown : Grown known)
    (split : t.trunk = low ++ [tip]) (removable : Removable known t tip) :
    Heaviest (known.erase tip) (t.dropTip tip) := by
  intro b member
  obtain ⟨notTip, known_b⟩ := (grown.hashes_nodup.of_map _).mem_erase_iff.mp member
  rw [lineage_erase (rep.avoids_tip grown split removable.free known_b notTip)]
  show _ ≤ workOf t.trunk.dropLast
  by_cases on : b ∈ t.trunk
  · obtain ⟨below, high, here, path⟩ := rep.trunk_split grown on
    have inLow : b ∈ low := by
      rw [split, List.mem_append, List.mem_singleton] at on
      exact on.resolve_right notTip
    have avoided := rep.tip_top grown split inLow
    obtain ⟨first, last, high_split⟩ := List.eq_nil_or_concat' high |>.resolve_left (by
      rintro rfl
      have last := congrArg List.getLast? (here.symm.trans split)
      rw [List.getLast?_concat, List.getLast?_concat] at last
      exact notTip (Option.some.inj last))
    have rest : t.trunk.dropLast = below ++ b :: first := by
      rw [here, high_split, ← List.cons_append, ← List.append_assoc, List.dropLast_concat]
    have above := workOf_nonneg first
    rw [rest, path, workOf_append, workOf_cons, workOf_cons, workOf_reverse]
    omega
  · exact removable.lighter b known_b on

/-- The heights of an exact trunk are not negative. -/
theorem Exact.not_negative (exact : Exact known t) (best : t.trunk.getLast? = some tip) {h : Int}
    (negative : h < 0) : t.heights[tip.hash]? ≠ some h := by
  intro found
  rw [List.getLast?_eq_getElem?] at best
  have index := exact.index _ tip best
  have same := Option.some.inj (index.symm.trans found)
  omega

theorem free_newest {ref : BlockRef Hash} (fresh : ref.hash ∉ hashes known)
    (t' : BlockTree Hash) (on : ref ∈ t'.trunk) :
    ∀ b ∈ ref :: known, b ∉ t'.trunk → ref ∉ lineage (ref :: known) b.hash := by
  intro b member off
  have known_b : b ∈ known := (List.mem_cons.mp member).resolve_left fun same => off (same ▸ on)
  have different : TreeElem.hash ref ≠ b.hash := fun same =>
    fresh (List.mem_map.mpr ⟨b, known_b, same.symm⟩)
  rw [lineage_cons_of_ne different]
  intro inside
  exact fresh (List.mem_map_of_mem (mem_of_mem_lineage inside))

section Runs

variable [Zero Hash]

/-- The trees of the runs in which `pop_back` is only used on a removable best block, with the known
blocks, newest first. -/
inductive Reached : List (BlockRef Hash) → BlockTree Hash → Prop
  | assign {trunk : List (BlockRef Hash)} {t : BlockTree Hash} (given : Linked trunk)
      (done : empty.assign trunk = .ok t) : Reached trunk.reverse t
  | insert {known : List (BlockRef Hash)} {t t' : BlockTree Hash} {ref : BlockRef Hash}
      {changes : Changes Hash} (before : Reached known t) (fresh : ref.hash ∉ hashes known)
      (connected : ref.prev ∈ hashes known) (done : t.insert ref = .ok (t', changes)) :
      Reached (ref :: known) t'
  | popBack {known : List (BlockRef Hash)} {t t' : BlockTree Hash} {tip : BlockRef Hash}
      (before : Reached known t) (best : t.trunk.getLast? = some tip) (long : 2 ≤ t.trunk.length)
      (removable : Removable known t tip) (done : t.popBack = .ok t') :
      Reached (known.erase tip) t'

theorem popBack_removable (rep : Represents known t) (grown : Grown known)
    (split : t.trunk = low ++ [tip]) (long : low ≠ []) (removable : Removable known t tip) :
    t.popBack = .ok (t.dropTip tip) := by
  rcases popBack_cases rep grown split long removable.free with ⟨-, done⟩ | ⟨stuck, -⟩
  · exact done
  · exact absurd removable stuck

theorem Reached.grow {trunk refs : List (BlockRef Hash)} (given : Linked trunk)
    (offered : Offered trunk refs) {t : BlockTree Hash} (done : grow trunk refs = .ok t) :
    Reached (trunk ++ refs).reverse t := by
  rw [BlockTree.grow] at done
  obtain ⟨t₀, assigned, inserted⟩ := bind_eq_ok.mp done
  clear done
  induction offered generalizing t with
  | nil =>
    obtain rfl := Except.ok.inj inserted
    rw [List.append_nil]
    exact .assign given assigned
  | @snoc refs ref earlier fresh connected ih =>
    rw [insertAll, List.foldlM_append] at inserted
    obtain ⟨t₁, before, inserted⟩ := bind_eq_ok.mp inserted
    rw [List.foldlM_cons] at inserted
    obtain ⟨t₂, inserted, last⟩ := bind_eq_ok.mp inserted
    obtain ⟨⟨t', changes⟩, done, equal⟩ := bind_eq_ok.mp inserted
    obtain rfl := Except.ok.inj equal
    obtain rfl := Except.ok.inj last
    rw [← List.append_assoc, List.reverse_append, List.reverse_singleton, List.singleton_append]
    refine .insert (ih before) ?_ ?_ done
    · rw [hashes, List.map_reverse, List.mem_reverse]
      exact fresh
    · rw [hashes, List.map_reverse, List.mem_reverse]
      exact connected

/-- Every such run keeps the representation, and the best block the heaviest. -/
theorem Reached.kept (reached : Reached known t) :
    Grown known ∧ Represents known t ∧ Heaviest known t := by
  induction reached with
  | @assign trunk t given done =>
    obtain ⟨t', done', rep, same⟩ := assign_represents given
    obtain rfl := Except.ok.inj (done'.symm.trans done)
    have kept := Kept.assign given rep same
    have heaviest := kept.heaviest
    rw [List.append_nil] at heaviest
    exact ⟨given.grown, rep, heaviest⟩
  | @insert known t t' ref changes before fresh connected done ih =>
    obtain ⟨grown, rep, heaviest⟩ := ih
    obtain ⟨t'', changes', done', rep', -⟩ := insert_spec rep grown fresh connected
    obtain ⟨rfl, rfl⟩ := Prod.mk.inj (Except.ok.inj (done'.symm.trans done))
    exact ⟨.grow grown fresh connected, rep',
      heaviest_insert rep grown fresh connected heaviest done⟩
  | @popBack known t t' tip before best long removable done ih =>
    obtain ⟨grown, rep, heaviest⟩ := ih
    obtain ⟨low, split, nonempty⟩ := split_tip best long
    have popped := popBack_removable rep grown split nonempty removable
    obtain rfl := Except.ok.inj (popped.symm.trans done)
    exact ⟨rep.grown_erase grown split nonempty removable.free,
      rep.dropTip grown split nonempty removable.free,
      heaviest_dropTip rep grown split removable⟩

/-- In every run in which `pop_back` meets only removable blocks the tree stays exact and its tip the
heaviest block, and the next `pop_back` removes just the tip exactly when that is removable too. -/
theorem popBack_exact_iff (reached : Reached known t) :
    (Exact known t ∧ Heaviest known t) ∧
      ∀ tip, t.trunk.getLast? = some tip → 2 ≤ t.trunk.length →
        ((∃ t', t.popBack = .ok t' ∧ Exact (known.erase tip) t' ∧ Heaviest (known.erase tip) t') ↔
          Removable known t tip) := by
  obtain ⟨grown, rep, heaviest⟩ := reached.kept
  refine ⟨⟨rep.exact grown, heaviest⟩, fun tip best long => ?_⟩
  obtain ⟨low, split, nonempty⟩ := split_tip best long
  constructor
  · rintro ⟨t', done, exact, -⟩
    have free : ∀ b ∈ known, b ∉ t.trunk → tip ∉ lineage known b.hash :=
      fun b member off through => popBack_stuck rep grown split nonempty member off through t' done
    rcases popBack_cases rep grown split nonempty free with
      ⟨removable, -⟩ | ⟨-, t'', c, done', top, h, negative, found⟩
    · exact removable
    · obtain rfl := Except.ok.inj (done'.symm.trans done)
      exact absurd found (exact.not_negative top negative)
  · intro removable
    have rep' := rep.dropTip grown split nonempty removable.free
    exact ⟨_, popBack_removable rep grown split nonempty removable,
      rep'.exact (rep.grown_erase grown split nonempty removable.free),
      heaviest_dropTip rep grown split removable⟩

end Runs

/-- Of two blocks with the same work, `pop_back` on the first puts the second on the trunk with a
negative height. -/
theorem popBack_siblings :
    ∃ t t', Reached [rightRef, leftRef, genesisRef] t ∧ t.trunk.getLast? = some leftRef ∧
      t.popBack = .ok t' ∧ ¬ Exact [rightRef, genesisRef] t' := by
  have run : (do
      let t ← (grow [genesisRef] [leftRef, rightRef]).toOption
      let t' ← t.popBack.toOption
      return (t.trunk.getLast?, t'.trunk.getLast?, t'.heights[rightRef.hash]?)) =
        some (some leftRef, some rightRef, some (-1)) := by decide +kernel
  obtain ⟨t, grew, run⟩ := Option.bind_eq_some_iff.mp run
  obtain ⟨t', popped, run⟩ := Option.bind_eq_some_iff.mp run
  obtain ⟨best, run⟩ := Prod.mk.inj (Option.some.inj run)
  obtain ⟨top, found⟩ := Prod.mk.inj run
  refine ⟨t, t', ?_, best, toOption_eq_some.mp popped, fun exact => ?_⟩
  · exact .grow linked_genesis offered_siblings (toOption_eq_some.mp grew)
  · exact exact.not_negative top (by decide) found

/-- With a branch as heavy as what is left of the trunk, the best block is removed. -/
theorem popBack_exact_left :
    ∃ t t' : BlockTree Uint256, grow [genesisRef] [leftRef, rightRef, topRef] = .ok t ∧ t.popBack = .ok t' ∧
      Exact [rightRef, leftRef, genesisRef] t' ∧ Heaviest [rightRef, leftRef, genesisRef] t' := by
  have run : (do
      let t ← (grow [genesisRef] [leftRef, rightRef, topRef]).toOption
      return t.trunk) = some [genesisRef, rightRef, topRef] := by decide +kernel
  obtain ⟨t, grew, run⟩ := Option.bind_eq_some_iff.mp run
  have trunk : t.trunk = [genesisRef, rightRef, topRef] := Option.some.inj run
  have reached := Reached.grow linked_genesis offered_fork (toOption_eq_some.mp grew)
  have removable : Removable [topRef, rightRef, leftRef, genesisRef] t topRef := by
    refine ⟨?_, ?_⟩ <;> rw [trunk] <;> decide +kernel
  obtain ⟨t', popped, exact, heaviest⟩ := ((popBack_exact_iff reached).2 topRef (by rw [trunk]; rfl)
    (by rw [trunk]; decide)).mpr removable
  exact ⟨t, t', toOption_eq_some.mp grew, popped, exact, heaviest⟩

section Undo

variable [Zero Hash]

/-! ### `pop_back` after `insert` -/

/-- The tree after a new best block on top of the old one. -/
def extendedBy (t : BlockTree Hash) (ref : BlockRef Hash) : BlockTree Hash :=
  { trunk := t.trunk ++ [ref]
    heights := t.heights.insert ref.hash (t.trunk.length : Int)
    branches := t.branches
    accWork := runningWork 0 (t.trunk ++ [ref]) }

theorem insert_tip (rep : Represents known t) (grown : Grown known)
    (best : t.trunk.getLast? = some tip) {ref : BlockRef Hash} (onto : tip.hash = ref.prev)
    (heavier : workOf t.trunk < workOf (lineage known tip.hash) + ref.work) :
    t.insert ref = .ok (extendedBy t ref, { deleted := [], inserted := [ref.hash] }) := by
  obtain ⟨low, split⟩ := List.getLast?_eq_some_iff.mp best
  obtain ⟨top, found, -, path⟩ := rep.best_eq
  obtain rfl : top = tip := Option.some.inj (found.symm.trans best)
  have fork : Represents.Fork known t top [] top low [] :=
    { member := rep.trunk_known (by simp [split])
      path := by rw [path, split]; simp
      split := split
      off := by simp }
  rw [insert_heavier rep grown fork onto heavier]
  simp only [reorganizedTo, extendedBy, split, List.reverse_nil, List.append_nil, List.length_nil,
    add_zero, hashes, List.map_nil, Map.adjustAll_nil]
  rfl

/-- `pop_back` undoes an `insert` that changed the trunk exactly when the new block extended it. -/
theorem popBack_insert_iff (reached : Reached known t) {ref : BlockRef Hash}
    (fresh : ref.hash ∉ hashes known) (connected : ref.prev ∈ hashes known) {t' : BlockTree Hash}
    {changes : Changes Hash} (done : t.insert ref = .ok (t', changes))
    (changed : changes.inserted ≠ []) :
    t'.popBack = .ok t ↔ ∃ tip, t.trunk.getLast? = some tip ∧ ref.prev = tip.hash := by
  obtain ⟨grown, rep, heaviest⟩ := reached.kept
  obtain ⟨t'', changes', done', rep', -, grows⟩ := insert_spec rep grown fresh connected
  obtain ⟨rfl, rfl⟩ := Prod.mk.inj (Except.ok.inj (done'.symm.trans done))
  obtain ⟨-, last, work, more⟩ := grows.resolve_left fun none => changed none.1
  have grown' : Grown (ref :: known) := .grow grown fresh connected
  obtain ⟨low, split⟩ := List.getLast?_eq_some_iff.mp last
  have linked := (rep'.exact grown').linked
  have long : low ≠ [] := by
    rintro rfl
    obtain ⟨base, member, -⟩ := List.mem_map.mp connected
    have genesis := (rep'.exact grown').genesis
    rw [split, List.nil_append, List.head?_singleton, List.getLast?_cons,
      List.getLast?_eq_some_getLast grown.ne_nil, Option.getD_some] at genesis
    exact fresh (Option.some.inj genesis ▸ List.mem_map_of_mem (List.getLast_mem grown.ne_nil))
  have free := free_newest fresh t'' (by simp [split])
  constructor
  · intro undone
    rcases popBack_cases rep' grown' split long free with
      ⟨-, popped⟩ | ⟨-, t₂, c, popped, top, h, negative, found⟩
    · obtain rfl := Except.ok.inj (popped.symm.trans undone)
      have trunk_eq : (t''.dropTip ref).trunk = low := by
        show t''.trunk.dropLast = low
        rw [split, List.dropLast_concat]
      obtain ⟨first, tip, low_split⟩ := List.eq_nil_or_concat' low |>.resolve_left long
      refine ⟨tip, by rw [trunk_eq, low_split, List.getLast?_concat], ?_⟩
      rw [split, low_split, List.append_assoc] at linked
      exact (List.isChain_cons_cons.mp (List.isChain_append.mp linked).2.1).1
    · obtain rfl := Except.ok.inj (popped.symm.trans undone)
      exact absurd found ((rep.exact grown).not_negative top negative)
  · rintro ⟨tip, best, onTip⟩
    obtain ⟨tip', found, -, path⟩ := rep.best_eq
    obtain rfl : tip' = tip := Option.some.inj (found.symm.trans best)
    have path' : lineage (ref :: known) ref.hash = ref :: lineage known tip'.hash := by
      rw [← onTip]
      exact lineage_cons_self ref known
    have heavier : workOf t.trunk < workOf (lineage known tip'.hash) + ref.work := by
      rw [work, path', workOf_cons] at more
      omega
    have extended := insert_tip rep grown best onTip.symm heavier
    obtain ⟨rfl, rfl⟩ := Prod.mk.inj (Except.ok.inj (extended.symm.trans done))
    have removable : Removable (ref :: known) (extendedBy t ref) ref := by
      refine ⟨free, fun b member off => ?_⟩
      have notRef : b ≠ ref := by
        rintro rfl
        exact off (by simp [extendedBy])
      have known_b := (List.mem_cons.mp member).resolve_left notRef
      have different : TreeElem.hash ref ≠ b.hash := fun same =>
        fresh (List.mem_map.mpr ⟨b, known_b, same.symm⟩)
      rw [lineage_cons_of_ne different]
      show _ ≤ workOf (t.trunk ++ [ref]).dropLast
      rw [List.dropLast_concat]
      exact heaviest b known_b
    have restored : (extendedBy t ref).dropTip ref = t := by
      unfold dropTip extendedBy
      simp only [List.dropLast_concat]
      rw [Map.erase_insert_of_fresh (rep.unknown _ fresh), runningWork_snoc, List.dropLast_concat,
        ← rep.accWork]
    rw [popBack_removable rep' grown' split long removable, restored]

end Undo

/-- After a reorganisation `pop_back` stays on the new branch when it is as heavy as the old one. -/
theorem popBack_insert_siblings :
    ∃ t t' changes popped, Reached [rightRef, leftRef, genesisRef] t ∧
      t.insert topRef = .ok (t', changes) ∧ changes.inserted ≠ [] ∧ t'.popBack = .ok popped ∧
      t.trunk = [genesisRef, leftRef] ∧ popped.trunk = [genesisRef, rightRef] := by
  have run : (do
      let t ← (grow [genesisRef] [leftRef, rightRef]).toOption
      let done ← (t.insert topRef).toOption
      let popped ← done.1.popBack.toOption
      return (t.trunk, done.2, popped.trunk)) =
        some ([genesisRef, leftRef], { deleted := [5], inserted := [7, 6] },
          [genesisRef, rightRef]) := by decide +kernel
  obtain ⟨t, grew, run⟩ := Option.bind_eq_some_iff.mp run
  obtain ⟨⟨t', changes⟩, inserted, run⟩ := Option.bind_eq_some_iff.mp run
  obtain ⟨popped, done, run⟩ := Option.bind_eq_some_iff.mp run
  obtain ⟨before, run⟩ := Prod.mk.inj (Option.some.inj run)
  obtain ⟨rfl, after⟩ := Prod.mk.inj run
  exact ⟨t, t', _, popped, .grow linked_genesis offered_siblings (toOption_eq_some.mp grew),
    toOption_eq_some.mp inserted, by decide, toOption_eq_some.mp done, before, after⟩

/-- A block on the first of two siblings, which is a branch for the second, is taken off again. -/
theorem popBack_insert_left :
    ∃ t t' : BlockTree Uint256, grow [genesisRef] [leftRef, rightRef] = .ok t ∧
      t'.popBack = .ok t ∧ t'.trunk = [genesisRef, leftRef, { topRef with prev := 5 }] := by
  have run : (do
      let t ← (grow [genesisRef] [leftRef, rightRef]).toOption
      let inserted ← (t.insert { topRef with prev := 5 }).toOption
      return (t.trunk.getLast?, inserted.1.trunk, inserted.2.inserted)) =
        some (some leftRef, [genesisRef, leftRef, { topRef with prev := 5 }], [7]) := by decide +kernel
  obtain ⟨t, grew, run⟩ := Option.bind_eq_some_iff.mp run
  obtain ⟨⟨t', changes⟩, done, run⟩ := Option.bind_eq_some_iff.mp run
  obtain ⟨best, run⟩ := Prod.mk.inj (Option.some.inj run)
  obtain ⟨trunk, moved⟩ := Prod.mk.inj run
  have reached := Reached.grow linked_genesis offered_siblings (toOption_eq_some.mp grew)
  have changed : changes.inserted ≠ [] := by
    rw [show changes.inserted = [7] from moved]
    decide
  have undone := (popBack_insert_iff reached (by decide) (by decide) (toOption_eq_some.mp done) changed).mpr
    ⟨leftRef, best, rfl⟩
  exact ⟨t, t', toOption_eq_some.mp grew, undone, trunk⟩

end BlockTree

end Libcoin
