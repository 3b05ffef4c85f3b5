/-
`CBigNum` of a 64-bit integer, and which bytes are the shortest ones of a number.

* `setint64` and `setuint64` write the bytes of the number, the highest first, without the zeros before them and with
  a byte for the sign where the highest bit is taken. `setint64_eq` and `setuint64_eq`: they are read as the number.
* `numberBytes_minimal`: no string that is read as a number is shorter than the one of `getvch`.
-/

import Libcoin.Keys.BigNum

namespace Libcoin

/-- The loop of `setint64` and `setuint64`: the byte at the top, as long as there is one. -/
def wordLoop (negative : Bool) : Nat → UInt64 → Bool → Data
  | 0, _, _ => []
  | turns + 1, n, leadingZeroes =>
    let c := (n >>> 56).toUInt8
    let rest := wordLoop negative turns (n <<< 8)
    if leadingZeroes then
      if c = 0 then rest true
      else if c &&& 0x80 ≠ 0 then (if negative then 0x80 else 0) :: c :: rest false
      else (if negative then c ||| 0x80 else c) :: rest false
    else c :: rest false

/-- `CBigNum::setint64`. The least number has no opposite: `-n` is `n` again, with the bits of its magnitude. -/
def setint64 (n : Int64) : Int :=
  setvch (wordLoop (decide (n < 0)) 8 (if n < 0 then -n else n).toUInt64 true).reverse

/-- `CBigNum::setuint64`. -/
def setuint64 (n : UInt64) : Int := setvch (wordLoop false 8 n true).reverse

/-! ### The loop -/

/-- `c & 0x80` and `c |= 0x80`. -/
theorem signBit (c : UInt8) :
    (c &&& 0x80 ≠ 0 ↔ 128 ≤ c.toNat) ∧ (c.toNat < 128 → (c ||| 0x80).toNat = c.toNat + 128) := by
  have all : ∀ n : Fin 256, (UInt8.ofFin n &&& 0x80 ≠ 0 ↔ 128 ≤ n.val) ∧
      (n.val < 128 → (UInt8.ofFin n ||| 0x80).toNat = n.val + 128) := by
    decide +kernel
  exact all c.toFin

/-- The bit of the sign in the last byte. -/
theorem signPlace (low : Data) (top : UInt8) : 2 ^ (8 * (low ++ [top]).length - 1) = 256 ^ low.length * 128 := by
  rw [List.length_append, List.length_singleton, show 8 * (low.length + 1) - 1 = 8 * low.length + 7 by omega, pow_add,
    bytes_pow]
  rfl

/-- The sign is the highest bit of the last byte. -/
theorem setvch_concat (low : Data) (top : UInt8) :
    setvch (low ++ [top]) =
      if top.toNat < 128 then ((littleEndian low + 256 ^ low.length * top.toNat : Nat) : Int)
      else -((littleEndian low + 256 ^ low.length * (top.toNat - 128) : Nat) : Int) := by
  have below := littleEndian_lt low
  have byte := top.toNat_lt
  have whole : littleEndian (low ++ [top]) = littleEndian low + 256 ^ low.length * top.toNat := by
    rw [littleEndian_append]
    simp [littleEndian]
  unfold setvch
  dsimp only
  rw [whole, signPlace]
  by_cases positive : top.toNat < 128
  · have less : 256 ^ low.length * top.toNat + 256 ^ low.length ≤ 256 ^ low.length * 128 := by
      rw [← Nat.mul_succ]
      exact Nat.mul_le_mul_left _ positive
    rw [if_pos positive, if_neg (by omega)]
  · have more : 256 ^ low.length * 128 ≤ 256 ^ low.length * top.toNat :=
      Nat.mul_le_mul_left _ (Nat.not_lt.mp positive)
    rw [if_neg positive, if_pos ⟨by simp, by omega⟩, Nat.mul_sub]
    omega

/-- What is left of a number above the bytes that the loop has not reached. -/
theorem shifted {n : UInt64} {m turns : Nat} (bound : turns < 8) (fits : m < 256 ^ (turns + 1))
    (value : n.toNat = m * 256 ^ (8 - (turns + 1))) :
    (n >>> 56).toUInt8.toNat = m / 256 ^ turns ∧
      (n <<< 8).toNat = m % 256 ^ turns * 256 ^ (8 - turns) := by
  have cases : turns = 0 ∨ turns = 1 ∨ turns = 2 ∨ turns = 3 ∨ turns = 4 ∨ turns = 5 ∨ turns = 6 ∨ turns = 7 := by
    omega
  have top : (n >>> 56).toUInt8.toNat = n.toNat / 2 ^ 56 := by
    have word := n.toNat_lt
    rw [UInt64.toNat_toUInt8, UInt64.toNat_shiftRight, show (56 : UInt64).toNat % 64 = 56 from rfl,
      Nat.shiftRight_eq_div_pow]
    omega
  have rest : (n <<< 8).toNat = n.toNat % 2 ^ 56 * 256 := by
    rw [UInt64.toNat_shiftLeft, show (8 : UInt64).toNat % 64 = 8 from rfl, Nat.shiftLeft_eq]
    omega
  rw [top, rest]
  rcases cases with rfl | rfl | rfl | rfl | rfl | rfl | rfl | rfl <;> norm_num at fits value ⊢ <;> omega

/-- Behind the first byte all others are written. -/
theorem wordLoop_rest {negative : Bool} {turns m : Nat} {n : UInt64} (bound : turns ≤ 8) (fits : m < 256 ^ turns)
    (value : n.toNat = m * 256 ^ (8 - turns)) :
    littleEndian (wordLoop negative turns n false).reverse = m ∧ (wordLoop negative turns n false).length = turns := by
  induction turns generalizing m n with
  | zero => exact ⟨(Nat.lt_one_iff.mp fits).symm, rfl⟩
  | succ turns ih =>
    obtain ⟨top, low⟩ := shifted bound fits value
    obtain ⟨read, size⟩ := ih (Nat.le_of_succ_le bound) (Nat.mod_lt m (by positivity)) low
    have bytes : wordLoop negative (turns + 1) n false =
        (n >>> 56).toUInt8 :: wordLoop negative turns (n <<< 8) false := rfl
    rw [bytes, List.reverse_cons, littleEndian_append, read, List.length_reverse, size, List.length_cons, size]
    refine ⟨?_, rfl⟩
    simp only [littleEndian, top, mul_zero, add_zero]
    exact Nat.mod_add_div m (256 ^ turns)

/-- **The bytes of the loop are read as the number**, with its sign. -/
theorem setvch_wordLoop {negative : Bool} {turns m : Nat} {n : UInt64} (bound : turns ≤ 8) (fits : m < 256 ^ turns)
    (value : n.toNat = m * 256 ^ (8 - turns)) :
    setvch (wordLoop negative turns n true).reverse = if negative then -(m : Int) else m := by
  induction turns generalizing m n with
  | zero =>
    obtain rfl : m = 0 := Nat.lt_one_iff.mp fits
    cases negative <;> rfl
  | succ turns ih =>
    obtain ⟨top, low⟩ := shifted bound fits value
    have less : m % 256 ^ turns < 256 ^ turns := Nat.mod_lt m (by positivity)
    have whole : m % 256 ^ turns + 256 ^ turns * (m / 256 ^ turns) = m := Nat.mod_add_div m (256 ^ turns)
    obtain ⟨read, size⟩ := @wordLoop_rest negative _ _ _ (Nat.le_of_succ_le bound) less low
    unfold wordLoop
    generalize (n >>> 56).toUInt8 = c at top
    dsimp only
    rw [if_pos rfl]
    have byte := c.toNat_lt
    by_cases zero : c = 0
    · -- a leading zero
      subst zero
      rw [← top, show (0 : UInt8).toNat = 0 from rfl, Nat.mul_zero, Nat.add_zero] at whole
      rw [if_pos rfl, ih (Nat.le_of_succ_le bound) less low, whole]
    · obtain ⟨high, signed⟩ := signBit c
      rw [if_neg zero]
      by_cases full : 128 ≤ c.toNat
      · -- the sign needs a byte of its own
        rw [if_pos (high.mpr full), List.reverse_cons, List.reverse_cons, setvch_concat, littleEndian_append, read,
          List.length_append, List.length_reverse, size]
        simp only [littleEndian, mul_zero, add_zero, top, whole]
        cases negative <;> simp
      · rw [if_neg (fun flag => full (high.mp flag)), List.reverse_cons, setvch_concat, read, List.length_reverse, size]
        cases negative with
        | false =>
          simp only [Bool.false_eq_true, if_false]
          rw [if_pos (Nat.not_le.mp full), top, whole]
        | true =>
          simp only [if_true, signed (Nat.not_le.mp full), Nat.add_sub_cancel, top, whole]
          rw [if_neg (by omega)]

theorem setuint64_eq (n : UInt64) : setuint64 n = n.toNat := by
  have word := n.toNat_lt
  exact setvch_wordLoop (le_refl 8) word (by simp)

/-- The bits of a signed word. -/
theorem toInt_eq_cond (n : Int64) :
    n.toInt = if 2 * n.toUInt64.toNat < 2 ^ 64 then (n.toUInt64.toNat : Int) else n.toUInt64.toNat - 2 ^ 64 := by
  exact_mod_cast BitVec.toInt_eq_toNat_cond n.toBitVec

/-- The bits of the opposite of a negative word are its magnitude, that of the least one too. -/
theorem toNat_neg {n : Int64} (negative : n.toInt < 0) : ((-n).toUInt64.toNat : Int) = -n.toInt := by
  have bits := toInt_eq_cond (-n)
  have word := (-n).toUInt64.toNat_lt
  have low := n.le_toInt
  rw [Int64.toInt_neg, Int.bmod_def] at bits
  omega

theorem setint64_eq (n : Int64) : setint64 n = n.toInt := by
  have zero : (0 : Int64).toInt = 0 := rfl
  have order := @Int64.lt_iff_toInt_lt n 0
  rw [zero] at order
  unfold setint64
  by_cases negative : n < 0
  · rw [if_pos negative, decide_eq_true negative,
      @setvch_wordLoop true 8 (-n).toUInt64.toNat _ (le_refl 8) (-n).toUInt64.toNat_lt (by simp), if_pos rfl,
      toNat_neg (order.mp negative), Int.neg_neg]
  · have bits := toInt_eq_cond n
    have word := n.toUInt64.toNat_lt
    rw [if_neg negative, decide_eq_false negative,
      @setvch_wordLoop false 8 n.toUInt64.toNat _ (le_refl 8) word (by simp), if_neg (by decide)]
    rw [order] at negative
    omega

/-! ### The shortest bytes -/

/-- No string that is read as the number is shorter. -/
def IsShortest (bytes : Data) (n : Int) : Prop :=
  setvch bytes = n ∧ ∀ other, setvch other = n → bytes.length ≤ other.length

/-- So many bytes have room for a number and its sign. -/
theorem setvch_natAbs_lt {bytes : Data} (some : bytes ≠ []) : (setvch bytes).natAbs < 2 ^ (8 * bytes.length - 1) := by
  obtain ⟨low, top, rfl⟩ : ∃ low top, bytes = low ++ [top] :=
    ⟨_, _, (List.dropLast_append_getLast some).symm⟩
  have below := littleEndian_lt low
  have byte := top.toNat_lt
  have within {digit : Nat} (less : digit < 128) :
      littleEndian low + 256 ^ low.length * digit < 256 ^ low.length * 128 := by
    calc littleEndian low + 256 ^ low.length * digit < 256 ^ low.length + 256 ^ low.length * digit := by omega
      _ = 256 ^ low.length * (digit + 1) := by rw [Nat.mul_succ, Nat.add_comm]
      _ ≤ 256 ^ low.length * 128 := Nat.mul_le_mul_left _ less
  rw [setvch_concat, signPlace]
  split
  · rename_i positive
    rw [Int.natAbs_natCast]
    exact within positive
  · rw [Int.natAbs_neg, Int.natAbs_natCast]
    exact within (by omega)

/-- **`getvch` gives the shortest bytes of a number.** -/
theorem numberBytes_shortest (n : Int) : IsShortest (numberBytes n) n := by
  refine ⟨setvch_numberBytes n, fun other read => ?_⟩
  have size : (numberBytes n).length = if n.natAbs = 0 then 0 else (n.natAbs.log2 + 1) / 8 + 1 := by
    unfold numberBytes
    exact littleBytes_length _ _
  rw [size]
  split
  · exact Nat.zero_le _
  · rename_i positive
    have nonempty : other ≠ [] := by
      rintro rfl
      rw [← read] at positive
      exact positive rfl
    have room := setvch_natAbs_lt nonempty
    rw [read] at room
    have bits : n.natAbs.log2 < 8 * other.length - 1 := (Nat.log2_lt positive).mpr room
    omega

theorem numberBytes_fits {n : Int} {size : Nat} (fits : n.natAbs < 2 ^ (8 * size + 7)) :
    (numberBytes n).length ≤ size + 1 := by
  unfold numberBytes
  dsimp only
  rw [littleBytes_length]
  split
  · exact Nat.zero_le _
  · rename_i positive
    have bits : n.natAbs.log2 < 8 * size + 7 := (Nat.log2_lt positive).mpr fits
    omega

end Libcoin
