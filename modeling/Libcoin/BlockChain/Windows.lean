/-
The windows over the last blocks of a chain: `getMedianTimePast`, `getMinAcceptedBlockVersion` and
`getMinEnforcedBlockVersion`.

* The three functions go back with `--`, which does not leave the genesis. `samples` are the blocks that they meet:
  the last blocks of the chain and, where these are too few, the genesis again.
* `sampleTimes_known` and `binVersions_known` are the loops. The latter finds the greatest version that more than the
  majority of one block more than the quorum has.
-/

import Libcoin.BlockChain.Append
import Libcoin.Library.OrderStatistics
import Libcoin.Tree.Backward

namespace Libcoin

open Exec OrderStatistics

namespace BlockTree

variable {known : List (BlockRef Uint256)} {t : BlockTree Uint256} {b first : BlockRef Uint256}

/-! ### What the loops meet -/

/-- The first blocks of a path and, where it has too few, its last block again. -/
def samples (n : Nat) (path : List (BlockRef Uint256)) : List (BlockRef Uint256) :=
  path.take n ++ path.getLast?.elim [] (List.replicate (n - path.length))

@[simp] theorem samples_zero (path : List (BlockRef Uint256)) : samples 0 path = [] := by
  cases last : path.getLast? <;> simp [samples, last]

theorem samples_first (n : Nat) : samples (n + 1) [b] = b :: samples n [b] := by
  cases n <;> simp [samples, List.replicate_succ]

theorem samples_cons (n : Nat) {p : BlockRef Uint256} {below : List (BlockRef Uint256)} :
    samples (n + 1) (b :: p :: below) = b :: samples n (p :: below) := by
  simp [samples, List.getLast?_cons_cons]

theorem samples_of_le {n : Nat} {path : List (BlockRef Uint256)} (enough : n ≤ path.length) :
    samples n path = path.take n := by
  cases last : path.getLast? <;> simp [samples, last, Nat.sub_eq_zero_of_le enough]

theorem samples_length {n : Nat} {path : List (BlockRef Uint256)} (nonempty : path ≠ []) :
    (samples n path).length = n := by
  rw [samples, List.getLast?_eq_some_getLast nonempty, Option.elim_some, List.length_append, List.length_take,
    List.length_replicate]
  omega

namespace Represents

/-- A step back leads to the block that the other samples begin with. -/
theorem advance_samples (rep : Represents known t) (grown : Grown known) (member : b ∈ known) :
    ∃ below ∈ known, t.advance b (-1) = .ok (some below) ∧
      ∀ n, samples (n + 1) (lineage known b.hash) = b :: samples n (lineage known below.hash) := by
  obtain ⟨rest, path⟩ := grown.exists_lineage member
  have head : lineage known b.hash = b :: rest := path
  clear path
  cases rest with
  | nil => exact ⟨b, member, rep.advance_first grown member head, fun n => head ▸ samples_first n⟩
  | cons p rest =>
    have below : lineage known p.hash = p :: rest := grown.lineage_below [b] head
    have known_p : p ∈ known := mem_of_mem_lineage (below ▸ List.mem_cons_self)
    refine ⟨p, known_p, rep.advance_one grown member head, fun n => ?_⟩
    rw [head, below]
    exact samples_cons n

/-- The loop of `getMedianTimePast`. -/
theorem sampleTimes_known (rep : Represents known t) (grown : Grown known) (member : b ∈ known) (n : Nat) :
    t.sampleTimes n (some b) = .ok ((samples n (lineage known b.hash)).map fun blk => blk.time % 2 ^ 32) := by
  induction n generalizing b with
  | zero =>
    rw [samples_zero]
    rfl
  | succ n ih =>
    obtain ⟨below, known_below, moved, path⟩ := rep.advance_samples grown member
    unfold sampleTimes
    rw [moved, ok_bind, ih known_below, path]
    rfl

end Represents

/-! ### The median -/

/-- The unsigned times of the blocks of a chain. -/
def times (path : List (BlockRef Uint256)) : List Int := path.map fun blk => blk.time % 2 ^ 32

/-- The genesis time is the median of a chain with too few blocks, or takes no part in it: the element that is left in
the middle when the genesis time fills the samples up is the median too. -/
def MiddleStays (times : List Int) (genesis : Int) : Prop :=
  ∃ m, median times = some m ∧
    (m = genesis ∨
      m < genesis ∧ (times.insertionSort (· ≤ ·))[medianTimeSpan / 2]? = some m ∨
      genesis < m ∧ medianTimeSpan - times.length ≤ medianTimeSpan / 2 ∧
        (times.insertionSort (· ≤ ·))[medianTimeSpan / 2 - (medianTimeSpan - times.length)]? = some m)

theorem getMedianTimePast_known (reached : Reached known t) (member : b ∈ known) :
    ∃ result, t.getMedianTimePast b = .ok result ∧
      median (times (samples medianTimeSpan (lineage known b.hash))) = some result := by
  obtain ⟨grown, rep, -⟩ := reached.kept
  obtain ⟨rest, path⟩ := grown.exists_lineage member
  have head : lineage known b.hash = b :: rest := path
  have length : (times (samples medianTimeSpan (lineage known b.hash))).length = medianTimeSpan := by
    rw [times, List.length_map, samples_length (by simp [head])]
  unfold getMedianTimePast
  rw [rep.sampleTimes_known grown member, ok_bind]
  refine ⟨_, rfl, ?_⟩
  obtain ⟨result, found⟩ : ∃ result, median (times (samples medianTimeSpan (lineage known b.hash))) = some result := by
    refine ⟨_, List.getElem?_eq_getElem ?_⟩
    rw [List.length_insertionSort, length]
    decide
  rw [found]
  show some result = some ((median (times (samples medianTimeSpan (lineage known b.hash)))).getD 0)
  rw [found]
  rfl

/-- **The median is that of the last 11 blocks, each counted once, if and only if there are so many, or the genesis
time does not move the middle of the times.** -/
theorem getMedianTimePast_exact (reached : Reached known t) (member : b ∈ known) :
    ∃ result, t.getMedianTimePast b = .ok result ∧
      (median (times ((lineage known b.hash).take medianTimeSpan)) = some result ↔
        medianTimeSpan ≤ (lineage known b.hash).length ∨
          ∃ genesis, (lineage known b.hash).getLast? = some genesis ∧
            MiddleStays (times (lineage known b.hash)) (genesis.time % 2 ^ 32)) := by
  obtain ⟨result, computed, sampled⟩ := getMedianTimePast_known reached member
  refine ⟨result, computed, ?_⟩
  obtain ⟨rest, path⟩ := reached.kept.1.exists_lineage member
  have nonempty : lineage known b.hash ≠ [] := by simp [show lineage known b.hash = b :: rest from path]
  clear path
  generalize lineage known b.hash = path at sampled nonempty ⊢
  by_cases long : medianTimeSpan ≤ path.length
  · rw [samples_of_le long] at sampled
    exact iff_of_true sampled (.inl long)
  · have length : (times path).length = path.length := List.length_map _
    obtain ⟨genesis, last⟩ : ∃ genesis, path.getLast? = some genesis := ⟨_, List.getLast?_eq_some_getLast nonempty⟩
    obtain ⟨m, middle⟩ : ∃ m, median (times path) = some m := by
      have positive := List.length_pos_iff.mpr nonempty
      refine ⟨_, List.getElem?_eq_getElem ?_⟩
      rw [List.length_insertionSort, length]
      omega
    have filled : times (samples medianTimeSpan path) =
        times path ++ List.replicate (medianTimeSpan - (times path).length) (genesis.time % 2 ^ 32) := by
      rw [samples, last, Option.elim_some, List.take_of_length_le (by omega), length, times, List.map_append,
        List.map_replicate]
      rfl
    rw [filled] at sampled
    have fill := @median_fill_iff _ _ (times path) medianTimeSpan (by omega) m (genesis.time % 2 ^ 32) middle
    rw [sampled] at fill
    rw [List.take_of_length_le (by omega), middle, or_iff_right long, eq_comm, fill]
    constructor
    · intro stays
      exact ⟨genesis, last, m, middle, stays⟩
    · rintro ⟨genesis', last', m', middle', stays⟩
      obtain rfl := Option.some.inj (last.symm.trans last')
      obtain rfl := Option.some.inj (middle.symm.trans middle')
      exact stays

/-- Blocks with these versions, one every ten minutes, from the block with hash `n + 1` on. -/
def Small.votesFrom : Nat → List Int → List (BlockRef Uint256)
  | _, [] => []
  | n, version :: versions =>
    { version := version, hash := .ofNat _ (n + 1), prev := .ofNat _ n, time := 600 * n, bits := 0x1d00ffff } ::
      votesFrom (n + 1) versions

def Small.votes (versions : List Int) : List (BlockRef Uint256) := votesFrom 0 versions

theorem reached_votes {versions : List Int} (linked : Linked (Small.votes versions)) :
    ∃ t, Reached (Small.votes versions).reverse t ∧ t.trunk = Small.votes versions := by
  obtain ⟨t, assigned, -, same⟩ := assign_represents linked
  exact ⟨t, .assign linked assigned, same⟩

/-- On a chain of two blocks the genesis is sampled ten times. -/
theorem getMedianTimePast_fails :
    ¬ ∀ (known : List (BlockRef Uint256)) (t : BlockTree Uint256) (b : BlockRef Uint256), Reached known t → b ∈ known →
      ∃ result, t.getMedianTimePast b = .ok result ∧
        median (times ((lineage known b.hash).take medianTimeSpan)) = some result := by
  intro claim
  obtain ⟨t, reached, -⟩ := reached_fork
  have member : leftRef ∈ [topRef, rightRef, leftRef, genesisRef] := by decide
  obtain ⟨result, computed, middle⟩ := claim _ t leftRef reached member
  obtain ⟨result', computed', sampled⟩ := getMedianTimePast_known reached member
  obtain rfl : result = result' := Except.ok.inj (computed.symm.trans computed')
  have path : lineage [topRef, rightRef, leftRef, genesisRef] leftRef.hash = [leftRef, genesisRef] := by decide
  rw [path] at middle sampled
  have window : median (times ([leftRef, genesisRef].take medianTimeSpan)) = some 4 := by decide
  have filled : median (times (samples medianTimeSpan [leftRef, genesisRef])) = some 0 := by decide
  rw [window] at middle
  rw [filled, ← middle] at sampled
  exact absurd sampled (by decide)

/-- The median of the last 11 of 12 blocks. -/
theorem getMedianTimePast_exact_twelve :
    ∃ (t : BlockTree Uint256) (tip : BlockRef Uint256), t.trunk.getLast? = some tip ∧
      t.getMedianTimePast tip = .ok 3600 := by
  obtain ⟨t, reached, trunk⟩ := reached_votes
    (show Linked (Small.votes (List.replicate 12 1)) from ⟨by decide, by decide, by decide⟩)
  obtain ⟨tip, last⟩ : ∃ tip, (Small.votes (List.replicate 12 1)).getLast? = some tip := ⟨_, rfl⟩
  have path : lineage (Small.votes (List.replicate 12 1)).reverse tip.hash =
      (Small.votes (List.replicate 12 1)).reverse := by
    obtain rfl := Option.some.inj last
    decide
  obtain ⟨result, computed, exact⟩ := getMedianTimePast_exact (b := tip) reached
    (List.mem_reverse.mpr (List.mem_of_getLast? last))
  rw [path] at exact
  have middle := exact.mpr (.inl (by decide))
  have value : median (times ((Small.votes (List.replicate 12 1)).reverse.take medianTimeSpan)) = some 3600 := by decide
  obtain rfl : result = 3600 := Option.some.inj (middle.symm.trans value)
  exact ⟨t, tip, trunk ▸ last, computed⟩

/-! ### The votes -/

/-- The elements of a list of bins from a value on. -/
def tally (v : Int) (bins : List (Int × Nat)) : Nat := ((bins.filter fun bin => decide (v ≤ bin.1)).map Prod.snd).sum

theorem tally_cons_of_le {v w : Int} (le : v ≤ w) (n : Nat) (bins : List (Int × Nat)) :
    tally v ((w, n) :: bins) = n + tally v bins := by
  simp [tally, le]

theorem tally_of_lt {v : Int} {bins : List (Int × Nat)} (below : ∀ bin ∈ bins, bin.1 < v) : tally v bins = 0 := by
  rw [tally, List.filter_eq_nil_iff.mpr fun bin inside => by simpa using below bin inside]
  rfl

/-- The inner loop over bins in descending order finds the greatest version that more than the majority reaches. -/
theorem cumulate_greatest {majority : Nat} {bins : List (Int × Nat)} {count : Nat}
    (descending : bins.Pairwise fun a b => b.1 < a.1) (few : count ≤ majority)
    (many : majority < count + (bins.map Prod.snd).sum) :
    ∃ v, cumulate majority bins count = some v ∧ v ∈ bins.map Prod.fst ∧
      IsGreatest {u | majority < count + tally u bins} v := by
  induction bins generalizing count with
  | nil => simp at many; omega
  | cons bin bins ih =>
    obtain ⟨w, n⟩ := bin
    obtain ⟨below, descending⟩ := List.pairwise_cons.mp descending
    have above : ∀ u, majority < count + tally u ((w, n) :: bins) → u ≤ w := by
      intro u reached
      by_contra greater
      rw [tally_of_lt fun bin inside => ?_] at reached
      · omega
      · rcases List.mem_cons.mp inside with rfl | further
        · exact not_le.mp greater
        · exact (below bin further).trans (not_le.mp greater)
    unfold cumulate
    by_cases found : majority < count + n
    · rw [if_pos found]
      refine ⟨w, rfl, List.mem_cons_self, ?_, above⟩
      show majority < count + tally w ((w, n) :: bins)
      rw [tally_cons_of_le le_rfl]
      omega
    · rw [if_neg found]
      rw [List.map_cons, List.sum_cons] at many
      obtain ⟨v, result, member, reached, greatest⟩ := ih descending (show count + n ≤ majority by omega) (by omega)
      obtain ⟨bin, inside, same⟩ := List.mem_map.mp member
      have less : v < w := same ▸ below bin inside
      refine ⟨v, result, List.mem_cons_of_mem _ member, ?_, fun u reached' => greatest ?_⟩
      · show majority < count + tally v ((w, n) :: bins)
        rw [tally_cons_of_le less.le, ← Nat.add_assoc]
        exact reached
      · show majority < count + n + tally u bins
        rw [Nat.add_assoc, ← tally_cons_of_le (above u reached')]
        exact reached'

/-- With more samples than the majority, and none of the bins a majority of its own. -/
theorem commonVersion_greatest {majority : Nat} {versions : List Int} {bins : Map Int Nat} (counts : Counts versions bins)
    (small : ∀ v, versions.count v ≤ majority) (many : majority < versions.length) :
    ∃ v, commonVersion majority bins = some v ∧ IsGreatest {u | majority < reaching u versions} v := by
  have tallied : ∀ u, tally u bins.toList.reverse = reaching u versions := by
    intro u
    rw [reaching, ← counts.sum_filter, tally]
    exact (((List.reverse_perm _).filter _).map _).sum_eq
  have descending : bins.toList.reverse.Pairwise fun a b => b.1 < a.1 :=
    List.pairwise_reverse.mpr bins.toList_sorted
  have total : (bins.toList.reverse.map Prod.snd).sum = versions.length := by
    rw [((List.reverse_perm _).map _).sum_eq, counts.sum]
  obtain ⟨v, result, -, greatest⟩ := cumulate_greatest descending (Nat.zero_le majority) (by omega)
  simp only [tallied, Nat.zero_add] at greatest
  refine ⟨v, ?_, greatest⟩
  rw [← result, commonVersion]
  cases order : bins.toList.reverse with
  | nil => rfl
  | cons bin rest =>
    -- the first bin is not a majority
    obtain ⟨w, n⟩ := bin
    have inside : (w, n) ∈ bins.toList := List.mem_reverse.mp (order ▸ List.mem_cons_self)
    have value := counts.of_mem_toList inside
    have few := small w
    show cumulate majority rest n = cumulate majority ((w, n) :: rest) 0
    rw [cumulate, Nat.zero_add, if_neg (by omega)]

theorem Represents.binVersions_known (rep : Represents known t) (grown : Grown known) {quorum majority : Nat}
    (most : quorum ≤ 2 * majority) (part : majority ≤ quorum) {left turns : Nat} (enough : left < turns)
    (member : b ∈ known) {seen : List Int} {bins : Map Int Nat} (counts : Counts seen bins)
    (small : ∀ v, seen.count v ≤ majority) (place : seen.length + left = quorum) :
    ∃ v, t.binVersions quorum majority turns (some b) bins seen.length = .ok v ∧
      IsGreatest {u | majority < reaching u
        (seen ++ (samples (left + 1) (lineage known b.hash)).map BlockRef.version)} v := by
  induction turns generalizing b left seen bins with
  | zero => omega
  | succ turns ih =>
    obtain ⟨below, known_below, moved, path⟩ := rep.advance_samples grown member
    have length : (samples left (lineage known below.hash)).length = left :=
      samples_length fun none => lineage_eq_nil.mp none (List.mem_map_of_mem known_below)
    have counts' := counts.insert b.version
    have more : ∀ v, (seen ++ [b.version]).count v = seen.count v + if b.version = v then 1 else 0 := by
      intro v
      rw [List.count_append, List.count_singleton]
      simp
    rw [path, List.map_cons]
    unfold binVersions
    dsimp only
    rw [counts.getD] at counts' ⊢
    by_cases alone : majority < seen.count b.version + 1
    · rw [if_pos alone]
      refine ⟨_, rfl, isGreatest_of_count ?_ ?_⟩
      · rw [List.count_append, List.count_cons_self]
        omega
      · rw [List.length_append, List.length_cons, List.length_map, length]
        omega
    · rw [if_neg alone]
      have small' : ∀ v, (seen ++ [b.version]).count v ≤ majority := by
        intro v
        rw [more]
        split
        · rename_i same
          subst same
          omega
        · exact small v
      have size : (seen ++ [b.version]).length = seen.length + 1 := by simp
      cases left with
      | zero =>
        obtain ⟨v, result, greatest⟩ := commonVersion_greatest counts' small' (by omega)
        rw [if_pos (by omega), result]
        exact ⟨v, rfl, by simpa using greatest⟩
      | succ left =>
        have place' : (seen ++ [b.version]).length + left = quorum := by omega
        have rest := ih (by omega) known_below counts' small' place'
        rw [if_neg (by omega), moved, ok_bind]
        rw [size, List.append_assoc] at rest
        exact rest

/-- The vote of a chain: the greatest version that more than the majority of its last blocks have at least, and 1 where
there is none, or not as many blocks as the quorum. -/
def Voted (quorum majority : Nat) (chain : List (BlockRef Uint256)) (v : Int) : Prop :=
  quorum ≤ chain.length ∧ IsGreatest {u | majority < reaching u ((chain.take quorum).map BlockRef.version)} v ∨
    (chain.length < quorum ∨ ∀ u, reaching u ((chain.take quorum).map BlockRef.version) ≤ majority) ∧ v = 1

/-- What the functions count is one block more than the quorum, and the genesis as often as blocks are missing. Where
the quorum can vote, the further block must not complete a majority for one of the versions up to its own. Elsewhere the
blocks that are counted must elect version 1. -/
def VoteKept (quorum majority : Nat) (chain : List (BlockRef Uint256)) : Prop :=
  quorum ≤ chain.length ∧ majority < quorum ∧
      (∀ further ∈ (samples (quorum + 1) chain).getLast?, ∀ u ≤ further.version,
        reaching u ((chain.take quorum).map BlockRef.version) ≠ majority) ∨
    (chain.length < quorum ∨ quorum ≤ majority) ∧
      majority < reaching 1 ((samples (quorum + 1) chain).map BlockRef.version) ∧
      reaching 2 ((samples (quorum + 1) chain).map BlockRef.version) ≤ majority

theorem samples_snoc {n : Nat} {path : List (BlockRef Uint256)} (nonempty : path ≠ []) (enough : n ≤ path.length) :
    ∃ further, samples (n + 1) path = path.take n ++ [further] := by
  rcases Nat.lt_or_ge n path.length with more | same
  · exact ⟨path.get ⟨n, more⟩, by rw [samples_of_le more, List.take_succ_eq_append_getElem more]; rfl⟩
  · refine ⟨path.getLast nonempty, ?_⟩
    rw [samples, List.getLast?_eq_some_getLast nonempty, Option.elim_some, List.take_of_length_le (by omega),
      List.take_of_length_le same, show n + 1 - path.length = 1 by omega]
    rfl

theorem minVersion_known (reached : Reached known t) {quorum majority : Nat} (part : majority ≤ quorum)
    (most : quorum ≤ 2 * majority) :
    ∃ v, t.minVersion quorum majority = .ok v ∧
      IsGreatest {u | majority < reaching u ((samples (quorum + 1) t.trunk.reverse).map BlockRef.version)} v := by
  obtain ⟨grown, rep, -⟩ := reached.kept
  obtain ⟨tip, last, best, path⟩ := rep.best_eq
  have member : tip ∈ known := rep.trunk_known (List.mem_of_getLast? last)
  have found := rep.binVersions_known grown most part (show quorum < quorum + 2 by omega) member Counts.empty
    (fun v => by simp) (Nat.zero_add quorum)
  rw [path] at found
  unfold minVersion
  rw [if_neg (by omega), best, ok_bind]
  exact found

/-- The vote that is computed is that of the last blocks if and only if the further samples keep it. -/
theorem minVersion_vote (reached : Reached known t) {quorum majority : Nat} (part : majority ≤ quorum)
    (most : quorum ≤ 2 * majority) :
    ∃ v, t.minVersion quorum majority = .ok v ∧
      (Voted quorum majority t.trunk.reverse v ↔ VoteKept quorum majority t.trunk.reverse) := by
  obtain ⟨v, computed, greatest⟩ := minVersion_known reached part most
  refine ⟨v, computed, ?_⟩
  have nonempty : t.trunk.reverse ≠ [] := by simpa using reached.kept.2.1.trunk_ne_nil
  clear computed
  generalize t.trunk.reverse = chain at greatest nonempty ⊢
  have votes_length : ((chain.take quorum).map BlockRef.version).length ≤ quorum := by
    rw [List.length_map, List.length_take]
    omega
  by_cases vote : quorum ≤ chain.length ∧ majority < quorum
  · obtain ⟨enough, less⟩ := vote
    obtain ⟨further, split⟩ := samples_snoc nonempty enough
    have voters : majority < ((chain.take quorum).map BlockRef.version).length := by
      rw [List.length_map, List.length_take]
      omega
    obtain ⟨best, best_votes⟩ := exists_isGreatest_reaching voters
    rw [split, List.map_append, List.map_singleton] at greatest
    have kept : VoteKept quorum majority chain ↔
        ∀ u ≤ further.version, reaching u ((chain.take quorum).map BlockRef.version) ≠ majority := by
      rw [VoteKept, split, List.getLast?_concat]
      simp [enough, less, not_lt.mpr enough]
    rw [kept]
    constructor
    · rintro (⟨-, voted⟩ | ⟨short | nobody, -⟩)
      · exact (isGreatest_reaching_snoc voted).mp greatest
      · omega
      · exact absurd (nobody best) (not_le.mpr best_votes.1)
    · intro apart
      have same := ((isGreatest_reaching_snoc best_votes).mpr apart).unique greatest
      exact .inl ⟨enough, same ▸ best_votes⟩
  · have nobody : quorum ≤ chain.length → ∀ u, reaching u ((chain.take quorum).map BlockRef.version) ≤ majority := by
      intro enough u
      have := reaching_le_length u ((chain.take quorum).map BlockRef.version)
      omega
    have one : Voted quorum majority chain v ↔ v = 1 := by
      constructor
      · rintro (⟨enough, voted⟩ | ⟨-, one⟩)
        · exact absurd (nobody enough v) (not_le.mpr voted.1)
        · exact one
      · intro one
        refine .inr ⟨?_, one⟩
        rcases Nat.lt_or_ge chain.length quorum with short | enough
        · exact .inl short
        · exact .inr (nobody enough)
    rw [one, VoteKept, or_iff_right (fun kept => vote ⟨kept.1, kept.2.1⟩), and_iff_right (by omega)]
    constructor
    · rintro rfl
      refine ⟨greatest.1, not_lt.mp fun two => ?_⟩
      exact absurd (greatest.2 two) (by decide)
    · rintro ⟨reached, missed⟩
      have least := greatest.2 reached
      have enough : majority < _ := greatest.1
      by_contra other
      have more := reaching_antitone (show 2 ≤ v by omega) ((samples (quorum + 1) chain).map BlockRef.version)
      omega

end BlockTree

namespace BlockChain

variable {known : List (BlockRef Uint256)} {t : BlockTree Uint256}

/-- **The two functions return the vote of the last blocks of the best chain if and only if the further sample, and the
repeated genesis of a short chain, keep it.** -/
theorem minVersion_exact (cfg : Config) (reached : BlockTree.Reached known t) :
    (cfg.chain.acceptMajority ≤ cfg.chain.acceptQuorum → cfg.chain.acceptQuorum ≤ 2 * cfg.chain.acceptMajority →
      ∃ v, getMinAcceptedBlockVersion cfg t = .ok v ∧
        (BlockTree.Voted cfg.chain.acceptQuorum cfg.chain.acceptMajority t.trunk.reverse v ↔
          BlockTree.VoteKept cfg.chain.acceptQuorum cfg.chain.acceptMajority t.trunk.reverse)) ∧
      (cfg.chain.enforceMajority ≤ cfg.chain.enforceQuorum → cfg.chain.enforceQuorum ≤ 2 * cfg.chain.enforceMajority →
        ∃ v, getMinEnforcedBlockVersion cfg t = .ok v ∧
          (BlockTree.Voted cfg.chain.enforceQuorum cfg.chain.enforceMajority t.trunk.reverse v ↔
            BlockTree.VoteKept cfg.chain.enforceQuorum cfg.chain.enforceMajority t.trunk.reverse)) :=
  ⟨fun part most => BlockTree.minVersion_vote reached part most,
    fun part most => BlockTree.minVersion_vote reached part most⟩

/-- A configuration where the majority of the last two or three blocks votes. -/
def Small.voting (quorum majority : Nat) : Config :=
  { Small.config 0 0 with
    chain := { (Small.config 0 0).chain with
      acceptQuorum := quorum, acceptMajority := majority, enforceQuorum := quorum, enforceMajority := majority } }

open BlockTree in
/-- The block before the last two completes a majority for version 2. -/
theorem minVersion_fails :
    ¬ ∀ (cfg : Config) (known : List (BlockRef Uint256)) (t : BlockTree Uint256), BlockTree.Reached known t →
      cfg.chain.acceptMajority ≤ cfg.chain.acceptQuorum → cfg.chain.acceptQuorum ≤ 2 * cfg.chain.acceptMajority →
      ∃ v, getMinAcceptedBlockVersion cfg t = .ok v ∧
        BlockTree.Voted cfg.chain.acceptQuorum cfg.chain.acceptMajority t.trunk.reverse v := by
  intro claim
  obtain ⟨t, reached, trunk⟩ := reached_votes
    (show Linked (Small.votes [2, 1, 2]) from ⟨by decide, by decide, by decide⟩)
  obtain ⟨v, computed, voted⟩ := claim (Small.voting 2 1) _ t reached (by decide) (by decide)
  obtain ⟨v', computed', greatest⟩ := minVersion_known reached (show 1 ≤ 2 by decide) (by decide)
  obtain rfl : v = v' := Except.ok.inj (computed.symm.trans computed')
  rw [trunk] at voted greatest
  have two : 2 ≤ v := greatest.2 (by decide)
  rcases voted with ⟨-, votes⟩ | ⟨-, one⟩
  · have enough := (show 1 < _ from votes.1).trans_le (reaching_antitone two _)
    exact absurd enough (by decide)
  · omega

open BlockTree in
/-- Three blocks of version 2 on two of version 1. -/
theorem minVersion_exact_three :
    ∃ (t : BlockTree Uint256) (v : Int), getMinAcceptedBlockVersion (Small.voting 3 2) t = .ok v ∧
      BlockTree.Voted 3 2 t.trunk.reverse v := by
  obtain ⟨t, reached, trunk⟩ := reached_votes
    (show Linked (Small.votes [1, 1, 2, 2, 2]) from ⟨by decide, by decide, by decide⟩)
  obtain ⟨v, computed, exact⟩ := (minVersion_exact (Small.voting 3 2) reached).1 (by decide) (by decide)
  refine ⟨t, v, computed, exact.mpr (.inl ?_)⟩
  rw [trunk]
  refine ⟨by decide, by decide, fun further last u least equal => ?_⟩
  have one : further.version = 1 := by
    have value : (BlockTree.samples (3 + 1) (BlockTree.Small.votes [1, 1, 2, 2, 2]).reverse).getLast?.map BlockRef.version =
        some 1 := by decide
    have last : (BlockTree.samples (3 + 1) (BlockTree.Small.votes [1, 1, 2, 2, 2]).reverse).getLast? = some further := last
    rw [last] at value
    exact Option.some.inj value
  have more := reaching_antitone (show u ≤ 1 by omega)
    (((BlockTree.Small.votes [1, 1, 2, 2, 2]).reverse.take 3).map BlockRef.version)
  have all : reaching 1 (((BlockTree.Small.votes [1, 1, 2, 2, 2]).reverse.take 3).map BlockRef.version) = 3 := by decide
  have equal : reaching u (((BlockTree.Small.votes [1, 1, 2, 2, 2]).reverse.take 3).map BlockRef.version) = 2 := equal
  omega

end BlockChain

end Libcoin
