/-
Two nodes that know the same blocks: their trees agree, in whatever order the blocks came.

* `Represents.agree`: two trees that represent the same blocks and have the same tip are equal, member by member.
* `grow_agree_fork`: on two blocks of the same work the two nodes part, and a third block brings them together.
-/

import Libcoin.Tree.Growth

namespace Libcoin

open TreeElem

section Paths

variable {Elem Hash : Type} [TreeElem Elem Hash] [DecidableEq Hash] {known known' : List Elem}

/-- The path of the genesis ends at once. -/
theorem Grown.lineage_genesis (grown : Grown known) {genesis : Elem} (last : known.getLast? = some genesis) :
    lineage known (hash genesis) = [genesis] := by
  induction grown with
  | genesis e =>
    obtain rfl : e = genesis := Option.some.inj last
    exact lineage_cons_self e []
  | @grow known e older fresh connected ih =>
    have older_last : known.getLast? = some genesis := by
      rw [← last, List.getLast?_cons, List.getLast?_eq_some_getLast older.ne_nil, Option.getD_some]
    have apart : hash e ≠ hash genesis := fun same =>
      fresh (same ▸ List.mem_map_of_mem (List.mem_of_getLast? older_last))
    rw [lineage_cons_of_ne apart, ih older_last]

/-- Below a block that is not the genesis comes the path of its predecessor. -/
theorem Grown.lineage_of_ne_genesis (grown : Grown known) {b : Elem} (member : b ∈ known)
    (above : known.getLast? ≠ some b) : lineage known (hash b) = b :: lineage known (prev b) := by
  obtain ⟨below, path⟩ := grown.exists_lineage member
  cases below with
  | nil =>
    have last := grown.lineage_getLast? (h := hash b) (List.mem_map_of_mem member)
    rw [path] at last
    exact absurd last.symm above
  | cons c below => rw [path, grown.lineage_prev path]

/-- The path of a block does not depend on the order in which the blocks came. -/
theorem Grown.lineage_perm (grown : Grown known) (grown' : Grown known') (same : known.Perm known')
    (genesis : known.getLast? = known'.getLast?) (h : Hash) : lineage known h = lineage known' h := by
  suffices paths : ∀ (path : List Elem) (h : Hash), lineage known h = path → lineage known' h = path from
    (paths _ h rfl).symm
  intro path
  induction path with
  | nil =>
    intro h none
    exact lineage_eq_nil.mpr fun inside => lineage_eq_nil.mp none ((same.map _).mem_iff.mpr inside)
  | cons b below ih =>
    intro h path
    have member : b ∈ known := mem_of_mem_lineage (path ▸ List.mem_cons_self)
    obtain rfl := hash_of_lineage path
    by_cases last : known.getLast? = some b
    · rw [grown'.lineage_genesis (genesis ▸ last), ← path, grown.lineage_genesis last]
    · have step := grown.lineage_of_ne_genesis member last
      have rest := ih (prev b) (List.cons.inj (step.symm.trans path)).2
      rw [grown'.lineage_of_ne_genesis (same.mem_iff.mp member) (genesis ▸ last), rest]

end Paths

namespace BlockTree

variable {Hash : Type} [LinearOrder Hash] {known known' : List (BlockRef Hash)} {t t' : BlockTree Hash}

/-- Two trees that represent the same blocks and have the same tip are equal. -/
theorem Represents.agree (rep : Represents known t) (rep' : Represents known' t') (same : known.Perm known')
    (paths : ∀ h, lineage known h = lineage known' h) (tips : t.trunk.getLast? = t'.trunk.getLast?) : t = t' := by
  have depths : ∀ h, depth known h = depth known' h := fun h => by rw [depth, depth, paths]
  have trunks : t.trunk = t'.trunk := by
    obtain ⟨tip, found, -, path⟩ := rep.best_eq
    obtain ⟨tip', found', -, path'⟩ := rep'.best_eq
    obtain rfl : tip = tip' := Option.some.inj (found.symm.trans (tips.trans found'))
    rw [← List.reverse_inj, ← path, ← path', paths]
  have heights : t.heights = t'.heights := by
    ext1 h
    by_cases unknown : h ∈ hashes known
    · obtain ⟨b, member, rfl⟩ := List.mem_map.mp unknown
      change t.heights[b.hash]? = t'.heights[b.hash]?
      by_cases on : b ∈ t.trunk
      · rw [rep.onTrunk b on, rep'.onTrunk b (trunks ▸ on), depths]
      · rw [rep.onBranch b member on, rep'.onBranch b (same.mem_iff.mp member) (trunks ▸ on), depths]
    · rw [rep.unknown h unknown, rep'.unknown h fun inside => unknown ((same.map _).mem_iff.mpr inside)]
  have branches : t.branches = t'.branches := by
    ext1 h
    apply Option.ext
    intro b
    rw [rep.branches, rep'.branches, trunks, same.mem_iff]
  have works : t.accWork = t'.accWork := by rw [rep.accWork, rep'.accWork, trunks]
  obtain ⟨⟨_, _, _⟩, _⟩ := t
  obtain ⟨⟨_, _, _⟩, _⟩ := t'
  subst trunks heights branches works
  rfl

/-- The work of the trunk is the greatest work of a known block. -/
theorem Represents.work_eq (rep : Represents known t) :
    ∃ tip ∈ known, t.trunk.getLast? = some tip ∧ workOf t.trunk = workOf (lineage known tip.hash) := by
  obtain ⟨tip, found, -, path⟩ := rep.best_eq
  exact ⟨tip, rep.trunk_known (List.mem_of_getLast? found), found, by rw [path, workOf_reverse]⟩

/-- A block that has more accumulated work than every other known block. -/
def Dominates (known : List (BlockRef Hash)) (best : BlockRef Hash) : Prop :=
  best ∈ known ∧ ∀ b ∈ known, b ≠ best → workOf (lineage known b.hash) < workOf (lineage known best.hash)

theorem Represents.tip_of_dominates (rep : Represents known t) (heaviest : Heaviest known t) {best : BlockRef Hash}
    (dominates : Dominates known best) : t.trunk.getLast? = some best := by
  obtain ⟨tip, member, found, work⟩ := rep.work_eq
  by_contra other
  have apart : tip ≠ best := fun same => other (same ▸ found)
  have less := dominates.2 tip member apart
  have most := heaviest best dominates.1
  omega

section Runs

variable [Zero Hash]

/-- **Agreement.** Two trees are grown from one trunk by the same blocks, each tree in an order of its own in which
every block follows its predecessor. Both end with the greatest work there is, and they are equal as soon as one
block is heavier than all others. -/
theorem grow_agree {trunk refs refs' : List (BlockRef Hash)} (given : Linked trunk) (offered : Offered trunk refs)
    (offered' : Offered trunk refs') (same : refs.Perm refs') :
    ∃ t t' : BlockTree Hash, grow trunk refs = .ok t ∧ grow trunk refs' = .ok t' ∧ workOf t.trunk = workOf t'.trunk ∧
      (∃ tip ∈ trunk ++ refs, workOf t.trunk = workOf (lineage (trunk ++ refs).reverse tip.hash)) ∧
      (∀ b ∈ trunk ++ refs, workOf (lineage (trunk ++ refs).reverse b.hash) ≤ workOf t.trunk) ∧
      (∀ h : Hash, t.heights[h]?.isSome = t'.heights[h]?.isSome) ∧
      ∀ best, Dominates (trunk ++ refs).reverse best → t = t' ∧ t.trunk.getLast? = some best := by
  obtain ⟨t₀, assigned, rep₀, trunk₀⟩ := assign_represents given
  obtain ⟨t, done, kept⟩ := insertAll_kept given (.assign given rep₀ trunk₀) offered
  obtain ⟨t', done', kept'⟩ := insertAll_kept given (.assign given rep₀ trunk₀) offered'
  have grown := offered.grown given.grown
  have grown' := offered'.grown given.grown
  have known : (trunk ++ refs).reverse.Perm (trunk ++ refs').reverse :=
    (List.reverse_perm _).trans ((same.append_left trunk).trans (List.reverse_perm _).symm)
  have genesis : (trunk ++ refs).reverse.getLast? = (trunk ++ refs').reverse.getLast? := by
    obtain ⟨first, rest, rfl⟩ := List.exists_cons_of_ne_nil given.nonempty
    rw [List.getLast?_reverse, List.getLast?_reverse]
    rfl
  have paths := grown.lineage_perm grown' known genesis
  refine ⟨t, t', by rw [grow, assigned]; exact done, by rw [grow, assigned]; exact done', ?_, ?_,
    fun b member => kept.heaviest b (List.mem_reverse.mpr member), ?_, ?_⟩
  · obtain ⟨tip, member, -, work⟩ := kept.represents.work_eq
    obtain ⟨tip', member', -, work'⟩ := kept'.represents.work_eq
    apply le_antisymm
    · rw [work, paths]
      exact kept'.heaviest tip (known.mem_iff.mp member)
    · rw [work', ← paths]
      exact kept.heaviest tip' (known.mem_iff.mpr member')
  · obtain ⟨tip, member, -, work⟩ := kept.represents.work_eq
    exact ⟨tip, List.mem_reverse.mp member, work⟩
  · intro h
    rw [Bool.eq_iff_iff, (kept.represents.exact grown).heights, (kept'.represents.exact grown').heights]
    exact (known.map _).mem_iff
  · intro best dominates
    have dominates' : Dominates (trunk ++ refs').reverse best := by
      refine ⟨known.mem_iff.mp dominates.1, fun b member apart => ?_⟩
      rw [← paths, ← paths]
      exact dominates.2 b (known.mem_iff.mpr member) apart
    have tip := kept.represents.tip_of_dominates kept.heaviest dominates
    have tip' := kept'.represents.tip_of_dominates kept'.heaviest dominates'
    exact ⟨kept.represents.agree kept'.represents known paths (tip.trans tip'.symm), tip⟩

end Runs

theorem offered_fork_swapped : Offered [genesisRef] [rightRef, topRef, leftRef] :=
  @Offered.snoc _ _ [rightRef, topRef] leftRef
    (@Offered.snoc _ _ [rightRef] topRef
      (@Offered.snoc _ _ [] rightRef .nil (by decide) (by decide)) (by decide) (by decide)) (by decide) (by decide)

theorem dominates_topRef : Dominates [topRef, rightRef, leftRef, genesisRef] topRef := by
  refine ⟨List.mem_cons_self, ?_⟩
  decide +kernel

/-- Two blocks of the same work part the nodes, and a block on one of them makes their trees equal. -/
theorem grow_agree_fork :
    (∃ t t', grow [genesisRef] [leftRef, rightRef] = .ok t ∧ grow [genesisRef] [rightRef, leftRef] = .ok t' ∧
      t.trunk.getLast? = some leftRef ∧ t'.trunk.getLast? = some rightRef) ∧
    ∃ t, grow [genesisRef] [leftRef, rightRef, topRef] = .ok t ∧
      grow [genesisRef] [rightRef, topRef, leftRef] = .ok t ∧ t.trunk.getLast? = some topRef := by
  constructor
  · refine ⟨_, _, rfl, rfl, ?_, ?_⟩ <;> decide +kernel
  · obtain ⟨t, t', done, done', -, -, -, -, agree⟩ :=
      grow_agree linked_genesis offered_fork offered_fork_swapped (by decide)
    obtain ⟨same, tip⟩ := agree topRef dominates_topRef
    exact ⟨t, done, same ▸ done', tip⟩

end BlockTree

end Libcoin
