/-
Bits in bytes: bit `index` is in byte `index / 8`, the least significant bit of a byte first.

* `testBit_setBit`: a bit that is set is set, and the other bits stay as they are.
* `unpackBits_packBits`: bits that are packed into bytes are unpacked, followed by zeros up to the end of the last
  byte.
-/

import Mathlib.Data.List.GetD
import Mathlib.Tactic.IntervalCases

namespace Libcoin

/-- The byte with one bit. -/
def bitMask : Nat → UInt8
  | 0 => 0x01
  | 1 => 0x02
  | 2 => 0x04
  | 3 => 0x08
  | 4 => 0x10
  | 5 => 0x20
  | 6 => 0x40
  | _ => 0x80

def setBit (data : List UInt8) (index : Nat) : List UInt8 :=
  data.modify (index / 8) fun byte => byte ||| bitMask (index % 8)

def testBit (data : List UInt8) (index : Nat) : Bool :=
  decide (data.getD (index / 8) 0 &&& bitMask (index % 8) ≠ 0)

/-- The bits at these positions are set, if they are true. -/
def packLoop (bits : List Bool) : List Nat → List UInt8 → List UInt8
  | [], bytes => bytes
  | p :: positions, bytes => packLoop bits positions (if bits.getD p false then setBit bytes p else bytes)

/-- As many bytes as the bits need, with those bits set that are true. -/
def packBits (bits : List Bool) : List UInt8 :=
  packLoop bits (List.range bits.length) (List.replicate ((bits.length + 7) / 8) 0)

/-- All bits of the bytes. -/
def unpackBits (bytes : List UInt8) : List Bool := (List.range (bytes.length * 8)).map (testBit bytes)

/-! ### One bit -/

variable {data : List UInt8} {index other : Nat}

theorem bitMask_ne_zero (n : Nat) : bitMask n ≠ 0 := by
  unfold bitMask
  split <;> decide

theorem bitMask_and {i j : Nat} (small : i < 8) (small' : j < 8) (apart : i ≠ j) :
    bitMask i &&& bitMask j = 0 := by
  revert apart
  interval_cases i <;> interval_cases j <;> decide

@[simp] theorem setBit_length (data : List UInt8) (index : Nat) : (setBit data index).length = data.length :=
  List.length_modify ..

theorem setBit_getD (data : List UInt8) (index idx : Nat) :
    (setBit data index).getD idx 0 =
      if index / 8 = idx ∧ idx < data.length then data.getD idx 0 ||| bitMask
        (index % 8) else data.getD idx 0 := by
  unfold setBit
  rw [List.getD_eq_getElem?_getD, List.getElem?_modify, List.getD_eq_getElem?_getD]
  by_cases inside : idx < data.length
  · rw [List.getElem?_eq_getElem inside, Option.map_eq_map, Option.map_some]
    by_cases same : index / 8 = idx
    · rw [if_pos same, if_pos ⟨same, inside⟩]
      rfl
    · rw [if_neg same, if_neg fun both => same both.1]
  · rw [List.getElem?_eq_none (Nat.le_of_not_lt inside), if_neg fun both => inside both.2]
    rfl

/-- What a byte and a mask have in common with another mask. -/
theorem or_and_eq_zero {byte set mask : UInt8} :
    (byte ||| set) &&& mask = 0 ↔ byte &&& mask = 0 ∧ set &&& mask = 0 := by
  have split : (byte ||| set) &&& mask = (byte &&& mask) ||| (set &&& mask) := by
    apply UInt8.toBitVec_inj.mp
    exact BitVec.and_or_distrib_right
  rw [split, UInt8.or_eq_zero_iff]

/-- **A bit that is set is set, and the others are as they were.** -/
theorem testBit_setBit (data : List UInt8) (index other : Nat) :
    testBit (setBit data index) other = (testBit data other || decide (index = other ∧
      other / 8 < data.length)) := by
  unfold testBit
  rw [setBit_getD, ← Bool.decide_or, decide_eq_decide]
  by_cases byte : index / 8 = other / 8 ∧ other / 8 < data.length
  · rw [if_pos byte, ne_eq, or_and_eq_zero, not_and_or]
    refine or_congr_right ⟨fun common => ?_, fun same => ?_⟩
    · have bit : index % 8 = other % 8 := by
        by_contra apart
        exact common (bitMask_and (Nat.mod_lt _ (by decide)) (Nat.mod_lt _ (by decide)) apart)
      exact ⟨by omega, byte.2⟩
    · rw [same.1, UInt8.and_self]
      exact bitMask_ne_zero _
  · rw [if_neg byte, or_iff_left_of_imp]
    rintro ⟨rfl, inside⟩
    exact absurd ⟨rfl, inside⟩ byte

theorem testBit_setBit_self (inside : index / 8 < data.length) : testBit (setBit data index) index = true := by
  rw [testBit_setBit, decide_eq_true ⟨rfl, inside⟩, Bool.or_true]

theorem testBit_setBit_mono (index : Nat) (set : testBit data other = true) :
    testBit (setBit data index) other = true := by
  rw [testBit_setBit, set, Bool.true_or]

/-- A bit of bytes that are all zero. -/
theorem testBit_zeros (zeros : ∀ byte ∈ data, byte = 0) (index : Nat) : testBit data index = false := by
  unfold testBit
  rw [decide_eq_false_iff_not, not_not, List.getD_eq_getElem?_getD]
  cases found : data[index / 8]? with
  | none => exact UInt8.zero_and
  | some byte =>
    rw [Option.getD_some, zeros byte (List.mem_of_getElem? found)]
    exact UInt8.zero_and

/-! ### All bits -/

section Pack

variable {bits : List Bool}

@[simp] theorem packLoop_length (positions : List Nat) (bytes : List UInt8) :
    (packLoop bits positions bytes).length = bytes.length := by
  induction positions generalizing bytes with
  | nil => rfl
  | cons p positions ih =>
    refine (ih _).trans ?_
    split
    · exact setBit_length bytes p
    · rfl

theorem testBit_packLoop (positions : List Nat) (bytes : List UInt8) (index : Nat) :
    testBit (packLoop bits positions bytes) index =
      (testBit bytes index || decide (index ∈ positions ∧ bits.getD index false = true ∧
        index / 8 < bytes.length)) := by
  induction positions generalizing bytes with
  | nil => simp [packLoop]
  | cons p positions ih =>
    refine (ih _).trans ?_
    by_cases set : bits.getD p false = true
    · rw [if_pos set, testBit_setBit, setBit_length, Bool.or_assoc, ← Bool.decide_or]
      congr 1
      rw [decide_eq_decide, List.mem_cons]
      constructor
      · rintro (⟨rfl, inside⟩ | ⟨later, rest⟩)
        · exact ⟨.inl rfl, set, inside⟩
        · exact ⟨.inr later, rest⟩
      · rintro ⟨rfl | later, rest⟩
        · exact .inl ⟨rfl, rest.2⟩
        · exact .inr ⟨later, rest⟩
    · rw [if_neg set]
      congr 1
      rw [decide_eq_decide, List.mem_cons]
      refine and_congr_left fun rest => ⟨.inr, ?_⟩
      rintro (rfl | later)
      · exact absurd rest.1 set
      · exact later

theorem packBits_length (bits : List Bool) : (packBits bits).length = (bits.length + 7) / 8 :=
  (packLoop_length _ _).trans List.length_replicate

theorem testBit_packBits (bits : List Bool) (index : Nat) :
    testBit (packBits bits) index = bits.getD index false := by
  refine (testBit_packLoop _ _ index).trans ?_
  rw [testBit_zeros fun byte member => (List.mem_replicate.mp member).2, Bool.false_or, List.length_replicate]
  by_cases set : bits.getD index false = true
  · have inside : index < bits.length := by
      by_contra outside
      rw [List.getD_eq_default _ _ (Nat.le_of_not_lt outside)] at set
      cases set
    rw [set, decide_eq_true_iff]
    exact ⟨List.mem_range.mpr inside, rfl, by omega⟩
  · rw [Bool.eq_false_iff.mpr set, decide_eq_false_iff_not]
    exact fun all => Bool.false_ne_true all.2.1

/-- **Bits that are packed are unpacked, and zeros up to the end of the last byte.** -/
theorem unpackBits_packBits (bits : List Bool) :
    unpackBits (packBits bits) = bits ++ List.replicate ((bits.length + 7) / 8 * 8 - bits.length) false := by
  unfold unpackBits
  refine List.ext_getElem ?_ fun index inside inside' => ?_
  · rw [List.length_map, List.length_range, packBits_length, List.length_append, List.length_replicate]
    omega
  · rw [List.getElem_map, List.getElem_range, testBit_packBits]
    by_cases own : index < bits.length
    · rw [List.getD_eq_getElem _ _ own, List.getElem_append_left own]
    · rw [List.getD_eq_default _ _ (Nat.le_of_not_lt own), List.getElem_append_right (Nat.le_of_not_lt own),
        List.getElem_replicate]

end Pack

end Libcoin
