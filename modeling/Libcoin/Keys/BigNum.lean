/-
`CBigNum`: a number and its bytes.

* `setvch` reads the lowest byte first, with the sign in the highest bit; `numberBytes` is `getvch`. With a zero
  byte at the end every string is a number that is not negative (`setvch_append_zero`).
* `trimSign` drops the byte that is there for the sign alone: what is left has no zero at its end
  (`trimSign_numberBytes`).
* `getuint256` drops the sign (`getuint256_eq`).
-/

import Libcoin.Script.Evaluator
import Libcoin.Library.Radix

namespace Libcoin

/-- `CBigNum::setvch`. -/
def setvch (vch : Data) : Int :=
  let sign := 2 ^ (8 * vch.length - 1)
  if vch ≠ [] ∧ sign ≤ littleEndian vch then sign - littleEndian vch else littleEndian vch

/-- `if (vchTmp.size() >= 2 && vchTmp.end()[-1] == 0 && vchTmp.end()[-2] >= 0x80)
vchTmp.erase(vchTmp.end()-1)`. -/
def trimSign (vch : Data) : Data :=
  if 2 ≤ vch.length ∧ vch.getLast? = some 0 ∧ 0x80 ≤ vch.dropLast.getLastD 0 then vch.dropLast else vch

/-- `CBigNum::getuint256`. -/
def getuint256 (n : Int) : Uint256 :=
  let vch := numberBytes n
  let vch := vch.dropLast ++ (vch.getLast?.map fun top => top &&& 0x7f).toList
  Fin.ofNat _ (littleEndian (vch.take 32))

/-- `CBigNum::getint`. -/
def getint (n : Int) : Int :=
  if 0 ≤ n then min n (2 ^ 31 - 1) else if 2 ^ 31 - 1 < -n then -2 ^ 31 else n

/-! ### Bytes as digits -/

theorem littleEndian_eq_ofDigits (bytes : Data) : littleEndian bytes = Nat.ofDigits 256 (bytes.map UInt8.toNat) := by
  induction bytes with
  | nil => rfl
  | cons byte bytes ih => rw [littleEndian, ih, List.map_cons, Nat.ofDigits_cons]

theorem littleEndian_append (first second : Data) :
    littleEndian (first ++ second) = littleEndian first + 256 ^ first.length * littleEndian second := by
  rw [littleEndian_eq_ofDigits, List.map_append, Nat.ofDigits_append, List.length_map, ← littleEndian_eq_ofDigits,
    ← littleEndian_eq_ofDigits]

theorem bytes_pow (size : Nat) : 256 ^ size = 2 ^ (8 * size) := by
  rw [show 256 = 2 ^ 8 from rfl, ← pow_mul]

theorem setvch_append_zero (bytes : Data) : setvch (bytes ++ [0]) = littleEndian bytes := by
  have low := littleEndian_lt bytes
  have same : littleEndian (bytes ++ [0]) = littleEndian bytes := by
    rw [littleEndian_append]
    simp [littleEndian]
  have positive : ¬2 ^ (8 * (bytes ++ [0]).length - 1) ≤ littleEndian bytes := by
    rw [not_le, List.length_append, List.length_singleton]
    refine low.trans_le ?_
    calc 256 ^ bytes.length = 2 ^ (8 * bytes.length) := bytes_pow _
      _ ≤ 2 ^ (8 * (bytes.length + 1) - 1) := Nat.pow_le_pow_right (by omega) (by omega)
  unfold setvch
  rw [same, if_neg fun both => positive ?_]
  exact_mod_cast both.2

/-! ### The bytes of a number -/

/-- The bytes of a number without its sign. -/
def magnitudeBytes (magnitude : Nat) : Data :=
  littleBytes (if magnitude = 0 then 0 else magnitude.log2 / 8 + 1) magnitude

theorem magnitude_fits (magnitude : Nat) :
    magnitude < 256 ^ (if magnitude = 0 then 0 else magnitude.log2 / 8 + 1) := by
  split
  · rename_i zero
    rw [zero]
    exact Nat.one_pos
  · rename_i positive
    calc magnitude < 2 ^ (magnitude.log2 + 1) := Nat.lt_log2_self
      _ ≤ 2 ^ (8 * (magnitude.log2 / 8 + 1)) := Nat.pow_le_pow_right (by omega) (by omega)
      _ = 256 ^ (magnitude.log2 / 8 + 1) := (bytes_pow _).symm

theorem littleEndian_magnitudeBytes (magnitude : Nat) : littleEndian (magnitudeBytes magnitude) = magnitude :=
  littleEndian_littleBytes (magnitude_fits magnitude)

/-- There is no zero byte at the end. -/
theorem getLast_magnitudeBytes {magnitude : Nat} (some : magnitudeBytes magnitude ≠ []) :
    (magnitudeBytes magnitude).getLast some ≠ 0 := by
  intro zero
  have positive : magnitude ≠ 0 := by
    rintro rfl
    exact some rfl
  have split := List.dropLast_append_getLast some
  rw [zero] at split
  have whole := littleEndian_magnitudeBytes magnitude
  rw [← split, littleEndian_append] at whole
  have low := littleEndian_lt (magnitudeBytes magnitude).dropLast
  have size : (magnitudeBytes magnitude).dropLast.length = magnitude.log2 / 8 := by
    rw [List.length_dropLast, magnitudeBytes, littleBytes_length, if_neg positive]
    rfl
  have high : 256 ^ (magnitude.log2 / 8) ≤ magnitude := by
    calc 256 ^ (magnitude.log2 / 8) = 2 ^ (8 * (magnitude.log2 / 8)) := bytes_pow _
      _ ≤ 2 ^ magnitude.log2 := Nat.pow_le_pow_right (by omega) (by omega)
      _ ≤ magnitude := Nat.log2_self_le positive
  rw [size] at low
  simp [littleEndian] at whole
  omega

/-- **Without the byte for the sign** a number is its bytes. -/
theorem trimSign_numberBytes (n : Nat) : trimSign (numberBytes n) = magnitudeBytes n := by
  by_cases zero : n = 0
  · rw [zero]
    rfl
  · have positive : ¬(n : Int) < 0 := by omega
    have bytes : numberBytes n = littleBytes ((n.log2 + 1) / 8 + 1) n := by
      unfold numberBytes
      rw [Int.natAbs_natCast]
      dsimp only
      rw [if_neg positive, if_neg zero]
    have magnitude : magnitudeBytes n = littleBytes (n.log2 / 8 + 1) n := by
      rw [magnitudeBytes, if_neg zero]
    have nonempty : magnitudeBytes n ≠ [] := by
      rw [magnitude]
      exact List.cons_ne_nil _ _
    by_cases full : (n.log2 + 1) % 8 = 0
    · -- the highest bit of the highest byte is set
      have fits := magnitude_fits n
      rw [if_neg zero] at fits
      have longer : numberBytes n = magnitudeBytes n ++ [0] := by
        rw [bytes, magnitude, show (n.log2 + 1) / 8 + 1 = n.log2 / 8 + 1 + 1 by omega, littleBytes_add 1 fits]
        rfl
      have high : 0x80 ≤ (magnitudeBytes n).getLast nonempty := by
        by_contra low
        have small : ((magnitudeBytes n).getLast nonempty).toNat < 128 := by
          exact UInt8.lt_iff_toNat_lt.mp (UInt8.not_le.mp low)
        have whole := littleEndian_magnitudeBytes n
        rw [← List.dropLast_append_getLast nonempty, littleEndian_append] at whole
        have below := littleEndian_lt (magnitudeBytes n).dropLast
        have size : (magnitudeBytes n).dropLast.length = n.log2 / 8 := by
          rw [List.length_dropLast, magnitude, littleBytes_length]
          rfl
        rw [size] at below whole
        have bits : 256 ^ (n.log2 / 8) * 128 = 2 ^ (8 * (n.log2 / 8) + 7) := by
          rw [bytes_pow, pow_add, show 2 ^ 7 = 128 from rfl]
        have least : 256 ^ (n.log2 / 8) * 128 ≤ n := by
          calc 256 ^ (n.log2 / 8) * 128 = 2 ^ (8 * (n.log2 / 8) + 7) := bits
            _ ≤ 2 ^ n.log2 := Nat.pow_le_pow_right (by omega) (by omega)
            _ ≤ n := Nat.log2_self_le zero
        simp only [littleEndian, mul_zero, add_zero] at whole
        nlinarith
      unfold trimSign
      rw [longer, List.dropLast_concat, if_pos]
      refine ⟨?_, List.getLast?_concat, ?_⟩
      · rw [magnitude, List.length_append, littleBytes_length, List.length_singleton]
        omega
      · rwa [List.getLastD_eq_getLast?, List.getLast?_eq_some_getLast nonempty]
    · have same : numberBytes n = magnitudeBytes n := by
        rw [bytes, magnitude, show (n.log2 + 1) / 8 = n.log2 / 8 by omega]
      unfold trimSign
      rw [same, if_neg fun all => getLast_magnitudeBytes nonempty ?_]
      have last := all.2.1
      rw [List.getLast?_eq_some_getLast nonempty] at last
      exact Option.some.inj last

/-! ### Without the sign -/

theorem littleEndian_take (bytes : Data) (size : Nat) :
    littleEndian (bytes.take size) % 256 ^ size = littleEndian bytes % 256 ^ size := by
  by_cases short : bytes.length ≤ size
  · rw [List.take_of_length_le short]
  · have split := littleEndian_append (bytes.take size) (bytes.drop size)
    rw [List.take_append_drop, List.length_take_of_le (by omega)] at split
    rw [split, Nat.add_mul_mod_self_left]

/-- **`getuint256` drops the sign**, and what does not fit. -/
theorem getuint256_eq (n : Int) : getuint256 n = Fin.ofNat _ n.natAbs := by
  have cleared : littleEndian ((numberBytes n).dropLast ++
      ((numberBytes n).getLast?.map fun top => top &&& 0x7f).toList) = n.natAbs := by
    by_cases zero : n.natAbs = 0
    · rw [Int.natAbs_eq_zero.mp zero]
      rfl
    · generalize size_eq : (n.natAbs.log2 + 1) / 8 = size
      have fits : n.natAbs < 2 ^ (8 * size + 7) :=
        Nat.lt_log2_self.trans_le (Nat.pow_le_pow_right (by omega) (by omega))
      obtain ⟨signed, written, reads, below⟩ : ∃ signed, numberBytes n = littleBytes (size + 1) signed ∧
          signed % 2 ^ (8 * size + 7) = n.natAbs ∧ signed < 256 ^ (size + 1) := by
        refine ⟨if n < 0 then n.natAbs + 2 ^ (8 * size + 7) else n.natAbs, ?_, ?_, ?_⟩
        · unfold numberBytes
          dsimp only
          rw [if_neg zero, size_eq, show 8 * (size + 1) - 1 = 8 * size + 7 by omega]
        · split
          · rw [Nat.add_mod_right, Nat.mod_eq_of_lt fits]
          · exact Nat.mod_eq_of_lt fits
        · have double : 256 ^ (size + 1) = 2 ^ (8 * size + 7) + 2 ^ (8 * size + 7) := by
            rw [bytes_pow, ← two_mul, ← pow_succ']
            congr 1
          split <;> omega
      have nonempty : numberBytes n ≠ [] := by
        rw [written]
        exact List.cons_ne_nil _ _
      have whole : littleEndian (numberBytes n) = signed := by
        rw [written, littleEndian_littleBytes below]
      rw [← List.dropLast_append_getLast nonempty, littleEndian_append] at whole
      have low := littleEndian_lt (numberBytes n).dropLast
      have length : (numberBytes n).dropLast.length = size := by
        rw [List.length_dropLast, written, littleBytes_length]
        rfl
      rw [length] at whole low
      rw [List.getLast?_eq_some_getLast nonempty, littleEndian_append, length]
      generalize (numberBytes n).getLast nonempty = top at whole
      have bit : (top &&& 0x7f).toNat = top.toNat % 128 := by
        rw [UInt8.toNat_and]
        exact Nat.and_two_pow_sub_one_eq_mod _ 7
      simp only [Option.map_some, Option.toList_some, littleEndian, mul_zero, add_zero] at whole ⊢
      rw [bit, ← reads, ← whole, show 2 ^ (8 * size + 7) = 256 ^ size * 128 by rw [bytes_pow, pow_add,
        show 2 ^ 7 = 128 from rfl],
        Nat.mod_mul, Nat.add_mul_mod_self_left, Nat.mod_eq_of_lt low, Nat.add_mul_div_left _ _ (by positivity),
        Nat.div_eq_of_lt low, Nat.zero_add]
  unfold getuint256
  refine Fin.ext ?_
  show littleEndian _ % 2 ^ 256 = n.natAbs % 2 ^ 256
  have taken := littleEndian_take ((numberBytes n).dropLast ++
    ((numberBytes n).getLast?.map fun top => top &&& 0x7f).toList) 32
  rw [cleared] at taken
  exact taken

/-- The bytes of a number are read back, with the sign. -/
theorem setvch_numberBytes (n : Int) : setvch (numberBytes n) = n := by
  by_cases zero : n = 0
  · subst zero
    rfl
  have positive : n.natAbs ≠ 0 := by omega
  obtain ⟨size, sized⟩ : ∃ size, size = (n.natAbs.log2 + 1) / 8 + 1 := ⟨_, rfl⟩
  have fits : n.natAbs < 2 ^ (8 * size - 1) := by
    calc n.natAbs < 2 ^ (n.natAbs.log2 + 1) := Nat.lt_log2_self
      _ ≤ 2 ^ (8 * size - 1) := Nat.pow_le_pow_right (by omega) (by omega)
  have whole : 256 ^ size = 2 ^ (8 * size - 1) + 2 ^ (8 * size - 1) := by
    rw [bytes_pow, ← Nat.two_mul, ← pow_succ']
    congr 1
    omega
  have bytes : numberBytes n = littleBytes size (if n < 0 then n.natAbs + 2 ^ (8 * size - 1) else n.natAbs) := by
    unfold numberBytes
    dsimp only
    rw [if_neg positive, ← sized]
  have nonempty : numberBytes n ≠ [] := by
    rw [bytes, ← List.length_pos_iff, littleBytes_length]
    omega
  have value : littleEndian (numberBytes n) = if n < 0 then n.natAbs + 2 ^ (8 * size - 1) else n.natAbs := by
    rw [bytes]
    refine littleEndian_littleBytes ?_
    rw [whole]
    split <;> omega
  have length : (numberBytes n).length = size := by rw [bytes, littleBytes_length]
  unfold setvch
  dsimp only
  rw [length, value]
  have power : ((2 ^ (8 * size - 1) : Nat) : Int) = 2 ^ (8 * size - 1) := by push_cast; rfl
  by_cases negative : n < 0
  · rw [if_pos negative, if_pos ⟨nonempty, by omega⟩]
    omega
  · rw [if_neg negative, if_neg (by omega)]
    omega

theorem numberBytes_short {n : Int} (low : -2 ^ 31 ≤ n) (high : n < 2 ^ 31) : (numberBytes n).length ≤ 5 := by
  unfold numberBytes
  dsimp only
  rw [littleBytes_length]
  split
  · omega
  · have bits : n.natAbs.log2 < 32 := (Nat.log2_lt (by omega)).mpr (by omega)
    omega

theorem getint_of_range {n : Int} (low : -2 ^ 31 ≤ n) (high : n < 2 ^ 31) : getint n = n := by
  unfold getint
  split <;> [skip; split] <;> omega

end Libcoin
