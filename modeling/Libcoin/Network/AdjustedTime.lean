/-
The time of the network: the own clock, moved by the median of what the peers say.

* `addTimeData` is `AddTimeData`. It has no result where a difference of times does not fit.
* `clock_exact`: whatever the peers say, the clock is moved by less than 70 minutes, by every address once. While less
  than half of the samples are wrong, it is not moved further than the right ones are.
-/

import Libcoin.Library.OrderStatistics
import Libcoin.Library.Run
import Mathlib.Data.Finset.Card

namespace Libcoin

open OrderStatistics

/-- The variables of `AddTimeData`, and `nTimeOffset`. -/
structure TimeData where
  setKnown : Finset UInt32
  vTimeOffsets : List Int
  nTimeOffset : Int

namespace TimeData

def start : TimeData := { setKnown := ∅, vTimeOffsets := [], nTimeOffset := 0 }

/-- What fits in an `int64_t`. -/
def InRange64 (n : Int) : Prop := -2 ^ 63 ≤ n ∧ n < 2 ^ 63

instance (n : Int) : Decidable (InRange64 n) := inferInstanceAs (Decidable (_ ∧ _))

/-- `abs64`, which negates a negative number. -/
def abs64 (n : Int) : Option Int :=
  if 0 ≤ n then some n else if InRange64 (-n) then some (-n) else none

/-- The samples with one more of them. The first one is the own clock. -/
def extended (offset : Int) (data : TimeData) : List Int :=
  (if data.vTimeOffsets = [] then [0] else data.vTimeOffsets) ++ [offset]

/-- `AddTimeData`, at a time of the own clock. -/
def addTimeData (unixTime : Int) (ip : UInt32) (nTime : Int) (data : TimeData) : Option TimeData :=
  if !InRange64 (nTime - unixTime) then none
  else if ip ∈ data.setKnown then some data
  else
    let vTimeOffsets := data.extended (nTime - unixTime)
    let data := { data with setKnown := insert ip data.setKnown, vTimeOffsets := vTimeOffsets }
    if 5 ≤ vTimeOffsets.length ∧ vTimeOffsets.length % 2 = 1 then do
      let nMedian ← median vTimeOffsets
      let size ← abs64 nMedian
      return { data with
        vTimeOffsets := vTimeOffsets.insertionSort (· ≤ ·)
        nTimeOffset := if size < 70 * 60 then nMedian else 0 }
    else some data

/-- `GetAdjustedTime`. -/
def getAdjustedTime (unixTime : Int) (data : TimeData) : Int := unixTime + data.nTimeOffset

/-- What a peer says, and when. -/
structure Sample where
  unixTime : Int
  ip : UInt32
  nTime : Int

def step (data : TimeData) (sample : Sample) : Option TimeData :=
  data.addTimeData sample.unixTime sample.ip sample.nTime

/-! ### One sample -/

variable {data data' : TimeData}

theorem abs64_lt {n size bound : Int} (abs : abs64 n = some size) (small : size < bound) : -bound < n ∧ n < bound := by
  unfold abs64 at abs
  split at abs
  · obtain rfl := Option.some.inj abs
    omega
  · split at abs
    · obtain rfl := Option.some.inj abs
      omega
    · cases abs

theorem median_perm {xs ys : List Int} (perm : xs.Perm ys) : median xs = median ys := by
  ext m
  rw [median, median, getElem?_insertionSort_iff, getElem?_insertionSort_iff,
    perm.countP_eq, perm.countP_eq, perm.length_eq]

/-- **What a sample does**: one of a new address is added, and the offset stays, is reset, or becomes the median. -/
theorem step_cases {sample : Sample} (run : step data sample = some data') :
    sample.ip ∈ data.setKnown ∧ data' = data ∨
    sample.ip ∉ data.setKnown ∧ data'.setKnown = insert sample.ip data.setKnown ∧
      data'.vTimeOffsets.Perm (data.extended (sample.nTime - sample.unixTime)) ∧
      (data'.nTimeOffset = data.nTimeOffset ∨ data'.nTimeOffset = 0 ∨
        median data'.vTimeOffsets = some data'.nTimeOffset ∧ -(70 * 60) < data'.nTimeOffset ∧
          data'.nTimeOffset < 70 * 60) := by
  unfold step addTimeData at run
  split at run
  · cases run
  · split at run
    next known => exact .inl ⟨known, (Option.some.inj run).symm⟩
    next new =>
      refine .inr ⟨new, ?_⟩
      dsimp only at run
      split at run
      · obtain ⟨nMedian, middle, rest⟩ := Option.bind_eq_some_iff.mp run
        obtain ⟨size, abs, last⟩ := Option.bind_eq_some_iff.mp rest
        obtain rfl := Option.some.inj last
        have sorted := List.perm_insertionSort (· ≤ ·) (data.extended (sample.nTime - sample.unixTime))
        refine ⟨rfl, sorted, ?_⟩
        by_cases small : size < 70 * 60
        · refine .inr (.inr ?_)
          rw [if_pos small]
          exact ⟨(median_perm sorted).trans middle, abs64_lt abs small⟩
        · exact .inr (.inl (if_neg small))
      · obtain rfl := Option.some.inj run
        exact ⟨rfl, .refl _, .inl rfl⟩

/-! ### Runs -/

/-- The samples are the own clock and one for each address, and the offset is less than 70 minutes. -/
structure Tame (data : TimeData) : Prop where
  single : data.vTimeOffsets = [] ∧ data.setKnown = ∅ ∨ data.vTimeOffsets.length = data.setKnown.card + 1
  bounded : -(70 * 60) < data.nTimeOffset ∧ data.nTimeOffset < 70 * 60

theorem step_tame {sample : Sample} (tame : data.Tame) (run : step data sample = some data') : data'.Tame := by
  rcases step_cases run with ⟨-, rfl⟩ | ⟨new, known, samples, offset⟩
  · exact tame
  · refine ⟨.inr ?_, ?_⟩
    · rw [known, Finset.card_insert_of_notMem new, samples.length_eq]
      rcases tame.single with ⟨none, empty⟩ | length
      · simp [extended, none, empty]
      · have some : data.vTimeOffsets ≠ [] := by
          intro none
          rw [none] at length
          cases length
        simp [extended, some, length]
    · rcases offset with same | zero | ⟨-, bounded⟩
      · exact same ▸ tame.bounded
      · rw [zero]
        decide
      · exact bounded

/-- The samples that are not in the interval. -/
def wrong (lo hi : Int) (data : TimeData) : Nat := data.vTimeOffsets.countP fun n => decide (n < lo ∨ hi < n)

/-- **The clock**: it is moved by less than 70 minutes, and there is one sample for each address. As long as less than half
of the samples are outside an interval around zero, it is not moved out of the interval. -/
theorem clock_exact {samples : List Sample} (run : samples.foldlM step start = some data) :
    (∀ unixTime : Int, unixTime - 70 * 60 < data.getAdjustedTime unixTime ∧
      data.getAdjustedTime unixTime < unixTime + 70 * 60) ∧
    data.vTimeOffsets.length ≤ (samples.map Sample.ip).toFinset.card + 1 ∧
    ∀ lo hi : Int, lo ≤ 0 → 0 ≤ hi →
      (∀ before after before', samples = before ++ after → before ≠ [] → before.foldlM step start = some before' →
        2 * before'.wrong lo hi < before'.vTimeOffsets.length) →
      ∀ unixTime : Int, unixTime + lo ≤ data.getAdjustedTime unixTime ∧ data.getAdjustedTime unixTime ≤ unixTime + hi := by
  have tame : data.Tame ∧ data.setKnown ⊆ (samples.map Sample.ip).toFinset :=
    Run.foldlM_inv (fun data => data.Tame ∧ data.setKnown ⊆ (samples.map Sample.ip).toFinset)
      (fun sample => sample ∈ samples) (fun data sample data' both member one => ⟨step_tame both.1 one, by
        rcases step_cases one with ⟨-, rfl⟩ | ⟨-, known, -⟩
        · exact both.2
        · rw [known]
          exact Finset.insert_subset (List.mem_toFinset.mpr (List.mem_map_of_mem member)) both.2⟩)
      ⟨⟨.inl ⟨rfl, rfl⟩, by decide⟩, Finset.empty_subset _⟩ (fun _ member => member) run
  refine ⟨fun unixTime => ?_, ?_, fun lo hi low high majority unixTime => ?_⟩
  · have := tame.1.bounded
    unfold getAdjustedTime
    omega
  · rcases tame.1.single with ⟨none, -⟩ | length
    · simp [none]
    · rw [length]
      exact Nat.add_le_add_right (Finset.card_le_card tame.2) 1
  · suffices within : lo ≤ data.nTimeOffset ∧ data.nTimeOffset ≤ hi by
      unfold getAdjustedTime
      omega
    clear tame
    induction samples using List.reverseRecOn generalizing data with
    | nil =>
      obtain rfl := Option.some.inj run
      exact ⟨low, high⟩
    | append_singleton samples sample ih =>
      have here := majority (samples ++ [sample]) [] data (List.append_nil _).symm (by simp) run
      rw [List.foldlM_append] at run
      obtain ⟨middle, first, rest⟩ := Option.bind_eq_some_iff.mp run
      obtain ⟨last, one, rfl⟩ : ∃ last, step middle sample = some last ∧ last = data := by simpa using rest
      have tame : middle.Tame := Run.foldlM_inv TimeData.Tame (fun _ => True) (fun _ _ _ tame _ one => step_tame tame one)
        ⟨.inl ⟨rfl, rfl⟩, by decide⟩ (fun _ _ => trivial) first
      have before : lo ≤ middle.nTimeOffset ∧ middle.nTimeOffset ≤ hi :=
        ih first fun before after before' eq some run => majority before (after ++ [sample]) before'
          (by rw [eq, List.append_assoc]) some run
      rcases step_cases one with ⟨-, rfl⟩ | ⟨-, -, -, same | zero | ⟨middle, -⟩⟩
      · exact before
      · exact same ▸ before
      · rw [zero]
        exact ⟨low, high⟩
      · exact median_between middle here

/-- Three peers whose clocks are some seconds ahead, and one that is a day ahead. -/
def sampleTimes : List Sample :=
  [⟨1400000000, 1, 1400000003⟩, ⟨1400000001, 2, 1400000006⟩, ⟨1400000002, 3, 1400086402⟩, ⟨1400000003, 4, 1400000004⟩]

/-- The clock is moved by the median of three seconds, and by less than 70 minutes. -/
theorem clock_exact_four : ∃ data, sampleTimes.foldlM step start = some data ∧ data.nTimeOffset = 3 ∧
    data.getAdjustedTime 1400000010 < 1400000010 + 70 * 60 := by
  have moved : (sampleTimes.foldlM step start).map nTimeOffset = some 3 := by decide +kernel
  obtain ⟨data, run, offset⟩ := Option.map_eq_some_iff.mp moved
  exact ⟨data, run, offset, ((clock_exact run).1 1400000010).2⟩

end TimeData

end Libcoin
