/-
`uint256`: the words in memory, and the numbers that everything else is computed with.

* `uint256_exact`: what the operators do to eight words is the arithmetic and the order of the numbers, and the bytes of
  the words are those that a hash is written with.
* `setHex_getHex`: the text of a number is read back.
-/

import Libcoin.Keys.BaseUint
import Libcoin.Keys.Hex
import Libcoin.Pool.Submissions

namespace Libcoin

open RequestParser Words

namespace BaseUint

/-- The bytes from `begin()` to `end()`. -/
def bytes {width : Nat} (a : BaseUint width) : Data := a.pn.flatMap fun word => littleBytes 4 word.toNat

/-- `GetHex`: the bytes with `%02x`, the last one first. -/
def getHex {width : Nat} (a : BaseUint width) : Data := hexStr a.bytes.reverse false

/-- The number of eight words. -/
def toUint256 (a : BaseUint 8) : Uint256 := ⟨value a.pn, a.value_lt_two_pow⟩

theorem toUint256_eq_iff {a b : BaseUint 8} : a.toUint256 = b.toUint256 ↔ a.toBitVec = b.toBitVec := by
  rw [Fin.ext_iff, ← BitVec.toNat_inj, toNat_toBitVec, toNat_toBitVec]
  rfl

theorem littleEndian_words (words : List (BitVec 32)) :
    littleEndian (words.flatMap fun word => littleBytes 4 word.toNat) = value words := by
  induction words with
  | nil => rfl
  | cons word words ih =>
    rw [List.flatMap_cons, littleEndian_append, ih, littleBytes_length, littleEndian_littleBytes word.isLt, value_cons]
    rfl

theorem bytes_length {width : Nat} (a : BaseUint width) : a.bytes.length = 4 * width := by
  obtain ⟨pn, rfl⟩ := a
  simp [bytes, Nat.mul_comm]

/-- **Eight words are a number of 256 bits**: in arithmetic, in order and on the wire. -/
theorem uint256_exact : Function.Bijective toUint256 ∧ ∀ a b : BaseUint 8,
    (a.add b).toUint256 = a.toUint256 + b.toUint256 ∧
    (a.sub b).toUint256 = a.toUint256 - b.toUint256 ∧
    (a.eq b = true ↔ a.toUint256 = b.toUint256) ∧
    (a.lt b = true ↔ a.toUint256 < b.toUint256) ∧
    (a.le b = true ↔ a.toUint256 ≤ b.toUint256) ∧
    (a.gt b = true ↔ b.toUint256 < a.toUint256) ∧
    (a.ge b = true ↔ b.toUint256 ≤ a.toUint256) ∧
    a.bytes = writeHash a.toUint256 := by
  have number (a : BaseUint 8) : a.toUint256.val = a.toBitVec.toNat := a.toNat_toBitVec.symm
  have less (a b : BaseUint 8) : a.lt b = true ↔ a.toUint256 < b.toUint256 := by
    rw [lt_iff, Fin.lt_def, number, number]
    exact BitVec.lt_def
  have most (a b : BaseUint 8) : a.le b = true ↔ a.toUint256 ≤ b.toUint256 := by
    rw [le_iff, Fin.le_def, number, number]
    exact BitVec.le_def
  refine ⟨⟨fun a b same => toBitVec_injective (toUint256_eq_iff.mp same), fun n => ?_⟩,
    fun a b => ⟨?_, ?_, ?_, less a b, most a b, gt_eq a b ▸ less b a, ge_eq a b ▸ most b a, ?_⟩⟩
  · obtain ⟨a, is⟩ := (@toBitVec_bijective 8).surjective (BitVec.ofFin n)
    exact ⟨a, Fin.ext ((number a).trans (congrArg BitVec.toNat is))⟩
  · apply Fin.ext
    rw [number, toBitVec_add, BitVec.toNat_add, ← number, ← number]
    rfl
  · apply Fin.ext
    rw [number, toBitVec_sub, BitVec.toNat_sub, ← number, ← number]
    rfl
  · rw [eq_iff, toUint256_eq_iff]
  · have same := littleBytes_littleEndian a.bytes
    rw [bytes_length, bytes, littleEndian_words] at same
    exact same.symm

/-! ### Text -/

theorem digits_of_byte (p : UInt8) : isxdigit (hexChars.getD (p >>> 4).toNat 0) = true ∧
    isxdigit (hexChars.getD (p &&& 15).toNat 0) = true ∧
    UInt8.ofNat (hexDigit (hexChars.getD (p &&& 15).toNat 0)) |||
      UInt8.ofNat (hexDigit (hexChars.getD (p >>> 4).toNat 0)) <<< 4 = p := by
  revert p
  apply forall_byte
  decide +kernel

theorem not_x_of_isxdigit (c : UInt8) : isxdigit c = true → c ≠ 0 ∧ tolower c ≠ 120 := by
  revert c
  apply forall_byte
  decide +kernel

theorem hexStr_digits {bytes : Data} : ∀ c ∈ hexStr bytes false, isxdigit c = true := by
  intro c member
  obtain ⟨p, -, digit⟩ := List.mem_flatMap.mp member
  obtain ⟨first, second, -⟩ := digits_of_byte p
  rcases List.mem_pair.mp digit with rfl | rfl
  · exact first
  · exact second

/-- Every byte is put together again. -/
theorem nibbleLoop_hexStr (bytes : Data) :
    nibbleLoop bytes.length (hexStr bytes.reverse false).reverse = bytes := by
  induction bytes with
  | nil => rfl
  | cons byte bytes ih =>
    have whole := (digits_of_byte byte).2.2
    unfold hexStr at ih ⊢
    simp only [List.reverse_cons, List.flatMap_append, List.flatMap_singleton, List.reverse_append, Bool.false_eq_true,
      if_false, List.reverse_nil, List.nil_append, List.cons_append, List.length_cons, nibbleLoop] at ih ⊢
    rw [ih, whole]

/-- **The text of a number is read back** by `SetHex`: it is all digits, and none is skipped as a space or as `0x`. -/
theorem setHex_getHex (a : BaseUint 8) : setHex a.getHex = .ok a.toUint256 ∧
    (∀ c ∈ a.getHex, isxdigit c = true ∧ isspace c = false) ∧ lower (a.getHex.take 2) ≠ text "0x" := by
  have digits : ∀ c ∈ a.getHex, isxdigit c = true := hexStr_digits
  have whole : a.getHex.takeWhile isxdigit = a.getHex := List.takeWhile_eq_self_iff.mpr digits
  have behind : a.getHex.dropWhile isxdigit = [] := List.dropWhile_eq_nil_iff.mpr digits
  have ended : a.getHex.takeWhile (fun c => decide (c ≠ 0)) = a.getHex :=
    List.takeWhile_eq_self_iff.mpr fun c member => decide_eq_true (not_x_of_isxdigit c (digits c member)).1
  have start : a.getHex.dropWhile isspace = a.getHex := by
    cases shape : a.getHex with
    | nil => rfl
    | cons c rest =>
      have space := isspace_of_isxdigit c (digits c (shape ▸ List.mem_cons_self))
      rw [List.dropWhile_cons_of_neg (by simp [space])]
  -- The second character is a digit, so that no `0x` is skipped.
  have plain : lower (a.getHex.take 2) ≠ text "0x" := by
    intro same
    have letter : (120 : UInt8) ∈ lower (a.getHex.take 2) := by
      rw [same]
      decide
    obtain ⟨c, member, is⟩ := List.mem_map.mp letter
    exact (not_x_of_isxdigit c (digits c (List.mem_of_mem_take member))).2 is
  have number : littleEndian (nibbleLoop 32 a.getHex.reverse) = value a.pn := by
    have back := nibbleLoop_hexStr a.bytes
    rw [bytes_length] at back
    exact (congrArg littleEndian back).trans (littleEndian_words a.pn)
  refine ⟨?_, fun c member => ⟨digits c member, isspace_of_isxdigit c (digits c member)⟩, plain⟩
  unfold setHex
  simp only [ended, start, if_neg plain, behind, whole, List.head?_nil, Option.any_none, Bool.false_eq_true, if_false, number]
  exact congrArg Except.ok (Fin.ext (Nat.mod_eq_of_lt a.value_lt_two_pow))

end BaseUint

end Libcoin
