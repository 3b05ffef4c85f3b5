/-
Trees grown by `assign` and `insert`: the representation is exact and the trunk is the heaviest path.

* `Exact` says what every data member of the tree holds, in terms of the known blocks.
* `Offered` are the inputs: a linked trunk, and blocks that come with a fresh hash and a known
  predecessor.
-/

import Libcoin.Tree.Insert
import Mathlib.Data.List.Chain

namespace Libcoin

namespace BlockTree

open Exec

variable {Hash : Type}

/-! ### Linked trunks -/

theorem grown_linked {trunk : List (BlockRef Hash)}
    (linked : trunk.IsChain fun b below => b.prev = below.hash) (distinct : (hashes trunk).Nodup)
    (some : trunk ≠ []) : Grown trunk := by
  induction linked with
  | nil => exact absurd rfl some
  | singleton a => exact .genesis a
  | @cons_cons a b rest step chain ih =>
    obtain ⟨fresh, distinct⟩ := List.nodup_cons.mp distinct
    refine .grow (ih distinct (List.cons_ne_nil _ _)) fresh ?_
    exact mem_hashes_cons.mpr (Or.inl step)

/-- The trunk as given to `assign`: linked, and without a repeated hash. -/
structure Linked (trunk : List (BlockRef Hash)) : Prop where
  nonempty : trunk ≠ []
  linked : trunk.IsChain fun below b => b.prev = below.hash
  distinct : (hashes trunk).Nodup

theorem Linked.grown {trunk : List (BlockRef Hash)} (given : Linked trunk) : Grown trunk.reverse := by
  refine grown_linked ?_ ?_ (List.reverse_ne_nil_iff.mpr given.nonempty)
  · exact List.isChain_reverse.mpr given.linked
  · rw [hashes, List.map_reverse, List.nodup_reverse]
    exact given.distinct

/-- Blocks that can be inserted one after the other on top of known ones: every one has a fresh hash
and a known predecessor. -/
inductive Offered (known : List (BlockRef Hash)) : List (BlockRef Hash) → Prop
  | nil : Offered known []
  | snoc {refs : List (BlockRef Hash)} {ref : BlockRef Hash} (earlier : Offered known refs)
      (fresh : ref.hash ∉ hashes (known ++ refs)) (connected : ref.prev ∈ hashes (known ++ refs)) :
      Offered known (refs ++ [ref])

theorem Offered.grown {known refs : List (BlockRef Hash)} (offered : Offered known refs)
    (grown : Grown known.reverse) : Grown (known ++ refs).reverse := by
  induction offered with
  | nil => rwa [List.append_nil]
  | @snoc refs ref earlier fresh connected ih =>
    rw [← List.append_assoc, List.reverse_append, List.reverse_singleton, List.singleton_append]
    refine .grow ih ?_ ?_
    · rw [hashes, List.map_reverse, List.mem_reverse]
      exact fresh
    · rw [hashes, List.map_reverse, List.mem_reverse]
      exact connected

variable [LinearOrder Hash]

/-! ### Exact representation -/

/-- What the data members of the tree hold when the known blocks are `known`, newest first. -/
structure Exact (known : List (BlockRef Hash)) (t : BlockTree Hash) : Prop where
  genesis : t.trunk.head? = known.getLast?
  linked : t.trunk.IsChain fun below b => b.prev = below.hash
  member : ∀ b ∈ t.trunk, b ∈ known
  heights : ∀ h, t.heights[h]?.isSome ↔ h ∈ hashes known
  index : ∀ (i : Nat) (b : BlockRef Hash), t.trunk[i]? = some b → t.heights[b.hash]? = some (i : Int)
  steps : ∀ b ∈ known, b ∉ t.trunk → t.heights[b.hash]? = some (-depth known b.hash)
  branches : ∀ (h : Hash) (b : BlockRef Hash),
    t.branches[h]? = some b ↔ b ∈ known ∧ b ∉ t.trunk ∧ b.hash = h
  works : t.accWork.length = t.trunk.length ∧
    ∀ i < t.trunk.length, t.accWork[i]? = some (workOf (t.trunk.take (i + 1)))

theorem isChain_lineage {known : List (BlockRef Hash)} (grown : Grown known) (h : Hash) :
    (lineage known h).IsChain fun b below => b.prev = below.hash := by
  suffices steps : ∀ (path : List (BlockRef Hash)) (h : Hash), lineage known h = path →
      path.IsChain fun b below => b.prev = below.hash from steps _ h rfl
  intro path
  induction path with
  | nil => exact fun _ _ => .nil
  | cons b below ih =>
    intro h path
    cases below with
    | nil => exact .singleton b
    | cons c below =>
      exact .cons_cons (grown.lineage_next path) (ih _ (grown.lineage_prev path))

theorem Represents.exact {known : List (BlockRef Hash)} {t : BlockTree Hash}
    (rep : Represents known t) (grown : Grown known) : Exact known t := by
  obtain ⟨tip, isKnown, path⟩ := rep.trunk
  refine ⟨?_, ?_, fun b => rep.trunk_known, ?_, ?_, rep.onBranch, rep.branches, ?_, ?_⟩
  · rw [← grown.lineage_getLast? isKnown, ← path, List.getLast?_reverse]
  · have down := isChain_lineage grown tip
    rw [← path, List.isChain_reverse] at down
    exact down
  · intro h
    constructor
    · intro stored
      by_contra unknown
      rw [rep.unknown h unknown] at stored
      cases stored
    · intro known_h
      obtain ⟨b, member, rfl⟩ := List.mem_map.mp known_h
      by_cases on : b ∈ t.trunk
      · exact (rep.onTrunk b on) ▸ rfl
      · exact (rep.onBranch b member on) ▸ rfl
  · intro i b found
    obtain ⟨short, rfl⟩ := List.getElem?_eq_some_iff.mp found
    have split : t.trunk = t.trunk.take i ++ t.trunk[i] :: t.trunk.drop (i + 1) := by
      rw [← List.drop_eq_getElem_cons short, List.take_append_drop]
    rw [rep.indexed grown _ _ _ split, List.length_take_of_le (le_of_lt short)]
  · rw [rep.accWork, runningWork_length]
  · intro i short
    have split : t.trunk = t.trunk.take i ++ t.trunk[i] :: t.trunk.drop (i + 1) := by
      rw [← List.drop_eq_getElem_cons short, List.take_append_drop]
    have found := runningWork_getElem? 0 (t.trunk.take i) (t.trunk.drop (i + 1)) t.trunk[i]
    rw [← split, List.length_take_of_le (le_of_lt short)] at found
    rw [rep.accWork, found, List.take_succ_eq_append_getElem short, workOf_append, workOf_cons,
      workOf_nil, zero_add, add_zero]

/-! ### The assigned trunk -/

theorem lineage_linked {trunk : List (BlockRef Hash)}
    (linked : trunk.IsChain fun b below => b.prev = below.hash) :
    ∀ b rest, trunk = b :: rest → lineage trunk b.hash = trunk := by
  induction linked with
  | nil => intro b rest equal; cases equal
  | singleton a =>
    rintro b rest equal
    obtain ⟨rfl, rfl⟩ := List.cons.inj equal
    exact lineage_cons_self a []
  | @cons_cons a b rest step chain ih =>
    rintro c rest' equal
    obtain ⟨rfl, rfl⟩ := List.cons.inj equal
    have below : lineage (b :: rest) a.prev = b :: rest := by
      rw [step]
      exact ih b rest rfl
    have here := lineage_cons_self a (b :: rest)
    exact here.trans (congrArg (a :: ·) below)

theorem assignFrom_linked (rest : List (BlockRef Hash)) (below : BlockRef Hash) (h : Int)
    (heights : Map Hash Int)
    (linked : (below :: rest).IsChain fun below b => b.prev = below.hash)
    (distinct : (hashes rest).Nodup) :
    ∃ heights', SparseTree.assignFrom below rest h heights = .ok heights' ∧
      (∀ low b high, rest = low ++ b :: high → heights'[b.hash]? = some (h + low.length)) ∧
      ∀ other ∉ hashes rest, heights'[other]? = heights[other]? := by
  induction rest generalizing below h heights with
  | nil => exact ⟨heights, rfl, by simp, fun _ _ => rfl⟩
  | cons e rest ih =>
    obtain ⟨notLater, distinct⟩ := List.nodup_cons.mp distinct
    obtain ⟨step, linked⟩ := List.isChain_cons_cons.mp linked
    obtain ⟨heights', done, later, others⟩ := ih e (h + 1) (heights.insert e.hash h) linked distinct
    refine ⟨heights', ?_, ?_, ?_⟩
    · have matched : ¬ TreeElem.prev e ≠ TreeElem.hash below := not_not.mpr step
      rw [SparseTree.assignFrom, if_neg matched]
      exact done
    · intro low b high split
      cases low with
      | nil =>
        obtain ⟨rfl, rfl⟩ := List.cons.inj split
        rw [List.length_nil, Nat.cast_zero, add_zero]
        exact (others _ notLater).trans (Map.lookup_insert_self _ _ _)
      | cons c low =>
        rw [later low b high (List.cons.inj split).2, List.length_cons]
        push_cast
        congr 1
        omega
    · intro other absent
      rw [mem_hashes_cons, not_or] at absent
      rw [others other absent.2]
      exact Map.lookup_insert_of_ne _ _ (Ne.symm absent.1)

theorem assign_represents {trunk : List (BlockRef Hash)} (given : Linked trunk) :
    ∃ t, empty.assign trunk = .ok t ∧ Represents trunk.reverse t ∧ t.trunk = trunk := by
  obtain ⟨genesis, rest, rfl⟩ := List.exists_cons_of_ne_nil given.nonempty
  have grown := given.grown
  obtain ⟨notLater, distinct⟩ := List.nodup_cons.mp given.distinct
  obtain ⟨heights, done, later, others⟩ :=
    assignFrom_linked rest genesis 1 ((∅ : Map Hash Int).insert genesis.hash 0) given.linked distinct
  obtain ⟨low, last, split⟩ := List.eq_nil_or_concat' (genesis :: rest) |>.resolve_left given.nonempty
  have path : lineage (genesis :: rest).reverse last.hash = (genesis :: rest).reverse :=
    lineage_linked (List.isChain_reverse.mpr given.linked) last low.reverse (by rw [split]; simp)
  have index : ∀ low b high, genesis :: rest = low ++ b :: high →
      heights[b.hash]? = some (low.length : Int) := by
    intro low b high split
    cases low with
    | nil =>
      obtain ⟨rfl, rfl⟩ := List.cons.inj split
      exact (others _ notLater).trans (Map.lookup_insert_self _ _ _)
    | cons c low =>
      rw [later low b high (List.cons.inj split).2, List.length_cons]
      push_cast
      congr 1
      omega
  refine ⟨{ trunk := genesis :: rest, heights := heights, branches := ∅,
            accWork := runningWork 0 (genesis :: rest) }, ?_, ⟨?_, ?_, ?_, ?_, ?_, rfl⟩, rfl⟩
  · have assigned : SparseTree.assign (empty : BlockTree Hash).toSparseTree (genesis :: rest) =
        .ok { trunk := genesis :: rest, heights := heights, branches := ∅ } := by
      show SparseTree.assignFrom genesis rest 1 _ >>= _ = _
      exact congrArg (· >>= _) done
    rw [assign, assigned, ok_bind, pushWork_eq]
    rfl
  · have member : last ∈ (genesis :: rest).reverse := by rw [split]; simp
    exact ⟨last.hash, List.mem_map_of_mem member, path.symm⟩
  · intro b member
    obtain ⟨low, high, here⟩ : ∃ low high, genesis :: rest = low ++ b :: high :=
      List.append_of_mem member
    have below : lineage (genesis :: rest).reverse b.hash = b :: low.reverse := by
      refine grown.lineage_below (h := last.hash) high.reverse ?_
      rw [path, here]
      simp
    rw [index low b high here, depth, below, List.length_cons, List.length_reverse]
    congr 1
    omega
  · intro b member off
    exact absurd (List.mem_reverse.mp member) off
  · intro h unknown
    rw [hashes, List.map_reverse, List.mem_reverse, List.map_cons, List.mem_cons, not_or] at unknown
    rw [others h unknown.2]
    exact (Map.lookup_insert_of_ne _ _ (Ne.symm unknown.1)).trans (Map.lookup_empty h)
  · intro h b
    show (∅ : Map Hash (BlockRef Hash))[h]? = some b ↔ _
    rw [Map.lookup_empty]
    refine iff_of_false (Option.some_ne_none b).symm ?_
    rintro ⟨member, off, -⟩
    exact off (List.mem_reverse.mp member)

/-! ### Runs of `insert` -/

/-- The tip has more accumulated work than all blocks before it in `order`, and at least as much as
all blocks after it. -/
def FirstHeaviest (order : List (BlockRef Hash)) (t : BlockTree Hash) : Prop :=
  ∃ earlier tip later, order = earlier ++ tip :: later ∧ t.trunk.getLast? = some tip ∧
    (∀ b ∈ earlier, workOf (lineage order.reverse b.hash) < workOf (lineage order.reverse tip.hash)) ∧
    ∀ b ∈ later, workOf (lineage order.reverse b.hash) ≤ workOf (lineage order.reverse tip.hash)

/-- The changes are the parts of the two trunks above the fork. -/
structure ChangesExact (t t' : BlockTree Hash) (changes : Changes Hash) : Prop where
  fork : ∃ low old new, low ≠ [] ∧ t.trunk = low ++ old ∧ t'.trunk = low ++ new ∧
    (∀ b ∈ new, b.hash ∉ hashes old) ∧ changes.deleted = hashes old ∧
    changes.inserted = (hashes new).reverse
  unchanged : changes.deleted = [] ∧ changes.inserted = [] ↔ t'.trunk = t.trunk

theorem Moved.exact {t t' : BlockTree Hash} {ref : BlockRef Hash} {changes : Changes Hash}
    (moved : Moved t t' ref changes) (some : t.trunk ≠ []) (fresh : ref ∉ t.trunk) :
    ChangesExact t t' changes := by
  cases moved with
  | nothing same =>
    exact ⟨⟨t.trunk, [], [], some, by simp, by simp [same], by simp, rfl, rfl⟩,
      iff_of_true ⟨rfl, rfl⟩ same⟩
  | best low above up old new forked apart =>
    refine ⟨⟨low, above, up.reverse ++ [ref], forked, old, new, apart, rfl, ?_⟩, ?_⟩
    · simp only [hashes, List.map_append, List.map_reverse, List.reverse_append, List.reverse_reverse]
      rfl
    · refine iff_of_false (fun none => List.cons_ne_nil _ _ none.2) fun same => fresh ?_
      rw [← same, new]
      simp

/-- What every run of `insert` keeps, from an assigned trunk. -/
structure Kept (trunk refs : List (BlockRef Hash)) (t : BlockTree Hash) : Prop where
  represents : Represents (trunk ++ refs).reverse t
  heaviest : Heaviest (trunk ++ refs).reverse t
  first : t.trunk = trunk ∨ FirstHeaviest (trunk ++ refs) t

theorem Kept.assign {trunk : List (BlockRef Hash)} (given : Linked trunk) {t : BlockTree Hash}
    (rep : Represents trunk.reverse t) (same : t.trunk = trunk) : Kept trunk [] t := by
  rw [← List.append_nil trunk] at rep
  refine ⟨rep, ?_, Or.inl same⟩
  intro b member
  rw [List.append_nil] at rep member ⊢
  obtain ⟨low, high, split, path⟩ := rep.trunk_split given.grown
    (b := b) (by rw [same]; exact List.mem_reverse.mp member)
  have above := workOf_nonneg high
  rw [path, split, workOf_append, workOf_cons, workOf_cons, workOf_reverse]
  omega

section Runs

variable [Zero Hash]

/-- `insert` on one block after the other. -/
def insertAll (t : BlockTree Hash) (refs : List (BlockRef Hash)) : Except Fault (BlockTree Hash) :=
  refs.foldlM (fun t ref => do return (← t.insert ref).1) t

/-- `assign` on an empty tree and then `insert`. -/
def grow (trunk refs : List (BlockRef Hash)) : Except Fault (BlockTree Hash) := do
  let t ← empty.assign trunk
  t.insertAll refs

theorem Kept.insert {trunk refs : List (BlockRef Hash)} {t : BlockTree Hash} {ref : BlockRef Hash}
    (kept : Kept trunk refs t) (grown : Grown (trunk ++ refs).reverse)
    (fresh : ref.hash ∉ hashes (trunk ++ refs)) (connected : ref.prev ∈ hashes (trunk ++ refs)) :
    ∃ t' changes, t.insert ref = .ok (t', changes) ∧ Moved t t' ref changes ∧
      Kept trunk (refs ++ [ref]) t' := by
  have newest : (trunk ++ (refs ++ [ref])).reverse = ref :: (trunk ++ refs).reverse := by simp
  rw [← List.mem_reverse, ← List.map_reverse] at fresh connected
  obtain ⟨t', changes, done, rep, moved, grows⟩ :=
    insert_spec kept.represents grown fresh connected
  have heaviest := heaviest_insert kept.represents grown fresh connected kept.heaviest done
  refine ⟨t', changes, done, moved, newest ▸ rep, newest ▸ heaviest, ?_⟩
  have older : ∀ b ∈ trunk ++ refs, lineage (ref :: (trunk ++ refs).reverse) b.hash =
      lineage (trunk ++ refs).reverse b.hash := by
    intro b member
    refine lineage_cons_of_ne (fun same => fresh ?_) _
    exact List.mem_map.mpr ⟨b, List.mem_reverse.mpr member, same.symm⟩
  rcases grows with ⟨-, same, lighter⟩ | ⟨-, last, work, more⟩
  · rcases kept.first with first | ⟨earlier, tip, later, order, last, before, after⟩
    · exact Or.inl (same.trans first)
    · have tip_older := older tip (by simp [order])
      refine Or.inr ⟨earlier, tip, later ++ [ref], by rw [← List.append_assoc, order]; simp,
        by rw [same, last], ?_, ?_⟩
      · intro b member
        rw [newest, older b (by simp [order, member]), tip_older]
        exact before b member
      · intro b member
        rw [newest, tip_older]
        rcases List.mem_append.mp member with inLater | isRef
        · rw [older b (by simp [order, inLater])]
          exact after b inLater
        · obtain rfl := List.mem_singleton.mp isRef
          obtain ⟨best, found, -, path⟩ := kept.represents.best_eq
          obtain rfl : best = tip := Option.some.inj (found.symm.trans last)
          rw [path, workOf_reverse]
          exact lighter
  · refine Or.inr ⟨trunk ++ refs, ref, [], by simp, last, ?_, by simp⟩
    intro b member
    rw [newest, older b member, ← work]
    exact (kept.heaviest b (List.mem_reverse.mpr member)).trans_lt more

theorem insertAll_kept {trunk refs : List (BlockRef Hash)} (given : Linked trunk)
    {t : BlockTree Hash} (kept : Kept trunk [] t) (offered : Offered trunk refs) :
    ∃ t', t.insertAll refs = .ok t' ∧ Kept trunk refs t' := by
  induction offered with
  | nil => exact ⟨t, rfl, kept⟩
  | @snoc refs ref earlier fresh connected ih =>
    obtain ⟨t', done, kept'⟩ := ih
    obtain ⟨t'', changes, inserted, -, kept''⟩ :=
      kept'.insert (earlier.grown given.grown) fresh connected
    refine ⟨t'', ?_, kept''⟩
    rw [insertAll, List.foldlM_append]
    show BlockTree.insertAll t refs >>= _ = _
    rw [done, ok_bind, List.foldlM_cons, inserted]
    rfl

/-- Every tree grown from a linked trunk represents the known blocks exactly, its tip is the first of
the heaviest blocks, and the next insertion tells exactly how it changes the trunk. -/
theorem grow_exact {trunk refs : List (BlockRef Hash)} (given : Linked trunk)
    (offered : Offered trunk refs) :
    ∃ t, grow trunk refs = .ok t ∧ Exact (trunk ++ refs).reverse t ∧
      (∀ b ∈ trunk ++ refs, workOf (lineage (trunk ++ refs).reverse b.hash) ≤ workOf t.trunk) ∧
      (t.trunk = trunk ∨ FirstHeaviest (trunk ++ refs) t) ∧
      ∀ ref : BlockRef Hash, ref.hash ∉ hashes (trunk ++ refs) →
        ref.prev ∈ hashes (trunk ++ refs) →
        ∃ t' changes, t.insert ref = .ok (t', changes) ∧ ChangesExact t t' changes := by
  obtain ⟨t₀, assigned, rep, same⟩ := assign_represents given
  obtain ⟨t, done, kept⟩ := insertAll_kept given (.assign given rep same) offered
  have grown := offered.grown given.grown
  refine ⟨t, ?_, kept.represents.exact grown, ?_, kept.first, ?_⟩
  · rw [grow, assigned, ok_bind, done]
  · intro b member
    exact kept.heaviest b (List.mem_reverse.mpr member)
  · intro ref fresh connected
    obtain ⟨t', changes, inserted, moved, -⟩ := kept.insert grown fresh connected
    refine ⟨t', changes, inserted, moved.exact kept.represents.trunk_ne_nil fun on => fresh ?_⟩
    exact List.mem_map_of_mem (List.mem_reverse.mp (kept.represents.trunk_known on))

end Runs

/-- A genesis, a block that claims no work, and two blocks that name each other as predecessors. -/
def genesisRef : BlockRef Uint256 := { version := 1, hash := 1, prev := 0, time := 0, bits := 0x1d00ffff }

def flatRef : BlockRef Uint256 := { version := 1, hash := 2, prev := 1, time := 1, bits := 0 }

def loopRef : BlockRef Uint256 := { version := 1, hash := 3, prev := 4, time := 2, bits := 0x1d00ffff }

def backRef : BlockRef Uint256 := { version := 1, hash := 4, prev := 3, time := 3, bits := 0x1d00ffff }

/-- Two blocks on the genesis with the same work, and one on the second of them. -/
def leftRef : BlockRef Uint256 := { version := 1, hash := 5, prev := 1, time := 4, bits := 0x1d00ffff }

def rightRef : BlockRef Uint256 := { version := 1, hash := 6, prev := 1, time := 5, bits := 0x1d00ffff }

def topRef : BlockRef Uint256 := { version := 1, hash := 7, prev := 6, time := 6, bits := 0x1d00ffff }

/-- An assigned trunk may end in a block that adds no work, and nothing stops it from repeating a
hash. -/
theorem grow_flat_trunk :
    ([genesisRef, flatRef].IsChain (fun below b => b.prev = below.hash) ∧
      ∃ t, grow [genesisRef, flatRef] [] = .ok t ∧ ¬ FirstHeaviest [genesisRef, flatRef] t) ∧
    ([loopRef, backRef, loopRef].IsChain (fun below b => b.prev = below.hash) ∧
      ∃ t, grow [loopRef, backRef, loopRef] [] = .ok t ∧
        ¬ Exact [loopRef, backRef, loopRef] t) := by
  have linked : Linked [genesisRef, flatRef] := ⟨by decide, by decide, by decide⟩
  obtain ⟨t, assigned, -, same⟩ := assign_represents linked
  refine ⟨⟨linked.linked, t, by rw [grow, assigned]; rfl, ?_⟩, by decide, ?_⟩
  · rintro ⟨earlier, tip, later, order, last, before, -⟩
    rw [same] at last
    obtain rfl : flatRef = tip := Option.some.inj last
    cases earlier with
    | nil => exact absurd (List.cons.inj order).1 (by decide)
    | cons b earlier =>
      obtain rfl := (List.cons.inj order).1
      exact absurd (before genesisRef List.mem_cons_self) (by decide +kernel)
  · refine ⟨_, rfl, fun exact => ?_⟩
    have bottom := exact.index 0 loopRef rfl
    have top := exact.index 2 loopRef rfl
    exact absurd (Option.some.inj (bottom.symm.trans top)) (by decide)

theorem linked_genesis : Linked [genesisRef] := ⟨by decide, by decide, by decide⟩

theorem offered_siblings : Offered [genesisRef] [leftRef, rightRef] :=
  @Offered.snoc _ _ [leftRef] rightRef
    (@Offered.snoc _ _ [] leftRef .nil (by decide) (by decide)) (by decide) (by decide)

theorem offered_fork : Offered [genesisRef] [leftRef, rightRef, topRef] :=
  @Offered.snoc _ _ [leftRef, rightRef] topRef offered_siblings (by decide) (by decide)

/-- The third block makes the second branch the heaviest. -/
theorem grow_exact_fork :
    ∃ t, grow [genesisRef] [leftRef, rightRef, topRef] = .ok t ∧
      Exact [topRef, rightRef, leftRef, genesisRef] t := by
  obtain ⟨t, done, exact, -⟩ := grow_exact linked_genesis offered_fork
  exact ⟨t, done, exact⟩

end BlockTree

end Libcoin
