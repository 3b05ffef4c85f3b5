/-
`SetCompact` and `GetCompact`, with the buffer that they go through.

* `CBigNum.setCompact` writes the bytes of the compact form into a buffer of `4 + nSize` bytes, and `mpi2bn` reads the
  number off it; `CBigNum.getCompact` is the way back, through `bn2mpi`.
* With the top bit set the exponent is a negative number, and the size is that number as an `unsigned int`: the buffer
  has four gigabytes, or less than the four bytes that are written first.
-/

import Libcoin.Keys.WordNumbers
import Libcoin.Ledger.Hazards

namespace Libcoin

namespace CBigNum

/-! ### The MPI format -/

/-- `BN_mpi2bn`: the length in four bytes, the highest first, and the number. The size of the buffer is an `int`. -/
def mpi2bn (d : Data) : Option Int :=
  let n := (d.length : Int).bmod (2 ^ 32)
  if n < 4 then none
  else if littleEndian (d.take 4).reverse + 4 ≠ n then none
  else some (setvch (d.drop 4).reverse)

/-- `BN_bn2mpi`. -/
def bn2mpi (n : Int) : Data := (littleBytes 4 (numberBytes n).length).reverse ++ (numberBytes n).reverse

/-! ### The compact form -/

/-- `vch[place] = byte`. -/
def put (vch : Data) (place : Nat) (byte : UInt8) : Except Hazard Data :=
  if place < vch.length then .ok (vch.set place byte) else .error .pastBuffer

/-- `unsigned int nSize = nCompact >> 24`. -/
def compactSize (nCompact : Int) : Nat := (nCompact / 2 ^ 24 % 2 ^ 32).toNat

/-- `std::vector<unsigned char> vch(4 + nSize)`. -/
def compactBuffer (nCompact : Int) : Data := List.replicate ((4 + compactSize nCompact) % 2 ^ 32) 0

/-- `(nCompact >> shift) & 0xff`. -/
def compactByte (nCompact : Int) (shift : Nat) : UInt8 := UInt8.ofNat (nCompact / 2 ^ shift % 2 ^ 8).toNat

/-- `CBigNum::SetCompact`. A buffer that `BN_mpi2bn` refuses leaves the number as it was. -/
def setCompact (this nCompact : Int) : Except Hazard Int := do
  let nSize := compactSize nCompact
  let vch ← put (compactBuffer nCompact) 3 (UInt8.ofNat nSize)
  let vch ← if 1 ≤ nSize then put vch 4 (compactByte nCompact 16) else pure vch
  let vch ← if 2 ≤ nSize then put vch 5 (compactByte nCompact 8) else pure vch
  let vch ← if 3 ≤ nSize then put vch 6 (compactByte nCompact 0) else pure vch
  return (mpi2bn vch).getD this

/-- `CBigNum::GetCompact`. -/
def getCompact (n : Int) : Int :=
  let vch := bn2mpi n
  let nSize := UInt32.ofNat vch.length - 4
  let nCompact := nSize <<< 24
  let nCompact := if 1 ≤ nSize then nCompact ||| (vch.getD 4 0).toUInt32 <<< 16 else nCompact
  let nCompact := if 2 ≤ nSize then nCompact ||| (vch.getD 5 0).toUInt32 <<< 8 else nCompact
  let nCompact := if 3 ≤ nSize then nCompact ||| (vch.getD 6 0).toUInt32 else nCompact
  (nCompact.toNat : Int).bmod (2 ^ 32)

/-! ### What the compact form denotes -/

section Format

variable (bits : UInt32)

/-- The bits of a header as the argument of `SetCompact`, which is an `int`. -/
def asInt : Int := (bits.toNat : Int).bmod (2 ^ 32)

/-- The number of bytes. -/
def exponentByte : Nat := bits.toNat / 2 ^ 24

/-- The first three bytes without the bit of the sign. -/
def mantissaBits : Nat := bits.toNat % 2 ^ 23

/-- The number of a compact form: the mantissa with the bytes after the third one, or without the bytes that an exponent
below three leaves out. -/
def denoted : Int :=
  let magnitude : Nat := mantissaBits bits * 256 ^ exponentByte bits / 256 ^ 3
  if bits.toNat / 2 ^ 23 % 2 = 1 then -magnitude else magnitude

/-- The bits of a number with three bytes or more, none of which is left out at the front. -/
def CanonicalBits : Prop := 3 ≤ exponentByte bits ∧ 2 ^ 15 ≤ mantissaBits bits

end Format

/-! ### Below the top bit -/

/-- A length in four bytes, and as many bytes behind it. -/
theorem mpi2bn_body {body : Data} (short : body.length < 2 ^ 31 - 4) :
    mpi2bn ((littleBytes 4 body.length).reverse ++ body) = some (setvch body.reverse) := by
  have head : ((littleBytes 4 body.length).reverse).length = 4 := by rw [List.length_reverse, littleBytes_length]
  have size : (((littleBytes 4 body.length).reverse ++ body).length : Int).bmod (2 ^ 32) = body.length + 4 := by
    rw [List.length_append, head, Int.bmod_eq_of_le (by omega) (by omega)]
    omega
  unfold mpi2bn
  dsimp only
  rw [size, List.take_left' head, List.drop_left' head, List.reverse_reverse,
    littleEndian_littleBytes (by omega), if_neg (by omega), if_neg (by omega)]

theorem lengthBytes {e : Nat} (byte : e < 256) : (littleBytes 4 e).reverse = [0, 0, 0, UInt8.ofNat e] := by
  have high : e / 256 = 0 := Nat.div_eq_of_lt byte
  simp [littleBytes, high]

section Below

variable {n : Nat}

/-- The bytes behind the length: the first three, and zeros. -/
def compactBody (n : Nat) : Data :=
  [compactByte n 16, compactByte n 8, compactByte n 0].take (n / 2 ^ 24) ++
    List.replicate (n / 2 ^ 24 - 3) 0

theorem compactBody_length : (compactBody n).length = n / 2 ^ 24 := by
  rw [compactBody, List.length_append, List.length_take, List.length_replicate]
  simp only [List.length_cons, List.length_nil]
  omega

theorem setCompact_body (this : Int) (below : n < 2 ^ 31) :
    setCompact this n = .ok (setvch (compactBody n).reverse) := by
  have size : compactSize n = n / 2 ^ 24 := by
    unfold compactSize
    omega
  have room : compactBuffer n = List.replicate (4 + n / 2 ^ 24) 0 := by
    rw [compactBuffer, size, Nat.mod_eq_of_lt (by omega)]
  have read := @mpi2bn_body (compactBody n) (by rw [compactBody_length]; omega)
  rw [compactBody_length, lengthBytes (by omega)] at read
  unfold setCompact
  rw [size, room]
  unfold compactBody at read ⊢
  generalize n / 2 ^ 24 = e at *
  -- a byte more for each of the first three lengths, zeros from there on
  rcases e with _ | _ | _ | e
  · simp [put, List.replicate_succ] at read ⊢
    rw [read]
    rfl
  · simp [put, List.replicate_succ] at read ⊢
    rw [read]
    rfl
  · simp [put, List.replicate_succ] at read ⊢
    rw [read]
    rfl
  · rw [show 4 + (e + 1 + 1 + 1) = e + 7 by omega]
    simp [put, List.replicate_succ] at read ⊢
    rw [read]
    rfl

theorem compactByte_toNat (shift : Nat) : (compactByte n shift).toNat = n / 2 ^ shift % 2 ^ 8 := by
  have whole : ((n : Int) / 2 ^ shift % 2 ^ 8).toNat = n / 2 ^ shift % 2 ^ 8 := by
    exact_mod_cast Int.toNat_natCast (n / 2 ^ shift % 2 ^ 8)
  rw [compactByte, whole, UInt8.toNat_ofNat']
  exact Nat.mod_mod _ _

/-- Zeros in front of the lowest byte. -/
theorem setvch_zeros (k : Nat) (low : Data) (top : UInt8) :
    setvch (List.replicate k 0 ++ (low ++ [top])) = 256 ^ k * setvch (low ++ [top]) := by
  have nothing : littleEndian (List.replicate k 0) = 0 := by
    induction k with
    | zero => rfl
    | succ k ih => rw [List.replicate_succ, littleEndian, ih]; rfl
  rw [← List.append_assoc, setvch_concat, setvch_concat, littleEndian_append, nothing, List.length_append,
    List.length_replicate, pow_add, Nat.zero_add]
  split
  · push_cast
    ring
  · push_cast
    ring

theorem exponent_cases (e : Nat) : e = 0 ∨ e = 1 ∨ e = 2 ∨ ∃ k, e = k + 3 := by
  rcases e with _ | _ | _ | k
  · exact .inl rfl
  · exact .inr (.inl rfl)
  · exact .inr (.inr (.inl rfl))
  · exact .inr (.inr (.inr ⟨k, rfl⟩))

/-- **The bytes of the buffer are read as the number of the compact form.** -/
theorem setvch_compactBody {bits : UInt32} : setvch (compactBody bits.toNat).reverse = denoted bits := by
  have first := compactByte_toNat (n := bits.toNat) 0
  have second := compactByte_toNat (n := bits.toNat) 8
  have third := compactByte_toNat (n := bits.toNat) 16
  have word := bits.toNat_lt
  unfold compactBody denoted exponentByte mantissaBits
  generalize bits.toNat = n at *
  generalize compactByte n 0 = b0 at *
  generalize compactByte n 8 = b1 at *
  generalize compactByte n 16 = b2 at *
  dsimp only
  -- the bit of the sign is the highest one of the first byte
  have sign : n / 2 ^ 23 % 2 = 1 ↔ ¬b2.toNat < 128 := by omega
  have scaled (k : Nat) : n % 2 ^ 23 * 256 ^ (k + 3) / 256 ^ 3 = 256 ^ k * (n % 2 ^ 23) := by
    rw [pow_add, ← Nat.mul_assoc, Nat.mul_div_cancel _ (by decide), Nat.mul_comm]
  rw [if_congr sign rfl rfl, ite_not]
  rcases exponent_cases (n / 2 ^ 24) with e | e | e | ⟨k, e⟩
  · rw [e, show n % 2 ^ 23 * 256 ^ 0 / 256 ^ 3 = 0 by omega, Nat.cast_zero, neg_zero, ite_self]
    rfl
  · rw [e]
    show setvch ([] ++ [b2]) = _
    rw [setvch_concat]
    simp only [littleEndian, List.length_nil]
    split <;> omega
  · rw [e]
    show setvch ([b1] ++ [b2]) = _
    rw [setvch_concat]
    simp only [littleEndian, List.length_singleton]
    split <;> omega
  · rw [e, scaled]
    have bytes : ([b2, b1, b0].take (k + 3) ++ List.replicate (k + 3 - 3) 0).reverse =
        List.replicate k 0 ++ ([b0, b1] ++ [b2]) := by
      rw [List.take_of_length_le (by simp), List.reverse_append, List.reverse_replicate]
      rfl
    rw [bytes, setvch_zeros, setvch_concat]
    simp only [littleEndian, List.length_cons, List.length_nil]
    split
    · have digits : b0.toNat + 256 * (b1.toNat + 256 * 0) + 256 ^ (0 + 1 + 1) * b2.toNat = n % 2 ^ 23 := by omega
      rw [digits, Nat.cast_mul, Nat.cast_pow, Nat.cast_ofNat]
    · have digits : b0.toNat + 256 * (b1.toNat + 256 * 0) + 256 ^ (0 + 1 + 1) * (b2.toNat - 128) = n % 2 ^ 23 := by
        omega
      rw [digits, Nat.cast_mul, Nat.cast_pow, Nat.cast_ofNat, mul_neg]

end Below

/-! ### The way back -/

/-- Bytes that are the shortest ones of a number are found again. -/
theorem numberBytes_setvch {bytes : Data} (long : 2 ≤ bytes.length)
    (large : 2 ^ (8 * bytes.length - 9) ≤ (setvch bytes).natAbs) : numberBytes (setvch bytes) = bytes := by
  have nonempty : bytes ≠ [] := by
    rintro rfl
    exact absurd long (by decide)
  have room := setvch_natAbs_lt nonempty
  have positive : (setvch bytes).natAbs ≠ 0 := (lt_of_lt_of_le (by positivity) large).ne'
  have size : ((setvch bytes).natAbs.log2 + 1) / 8 + 1 = bytes.length := by
    have most : (setvch bytes).natAbs.log2 < 8 * bytes.length - 1 := (Nat.log2_lt positive).mpr room
    have least : 8 * bytes.length - 9 ≤ (setvch bytes).natAbs.log2 := (Nat.le_log2 positive).mpr large
    omega
  have digits : (if setvch bytes < 0 then (setvch bytes).natAbs + 2 ^ (8 * bytes.length - 1)
      else (setvch bytes).natAbs) = littleEndian bytes := by
    unfold setvch at positive ⊢
    dsimp only at positive ⊢
    generalize 2 ^ (8 * bytes.length - 1) = sign at positive ⊢
    by_cases high : bytes ≠ [] ∧ sign ≤ littleEndian bytes
    · rw [if_pos high] at positive ⊢
      rw [if_pos (by omega)]
      omega
    · rw [if_neg high, if_neg (by omega), Int.natAbs_natCast]
  unfold numberBytes
  dsimp only
  rw [if_neg positive, size, digits, littleBytes_littleEndian]

theorem packed {e b0 b1 b2 : Nat} (first : b0 < 256) (second : b1 < 256) (third : b2 < 256) :
    e <<< 24 ||| b2 <<< 16 ||| b1 <<< 8 ||| b0 = e * 2 ^ 24 + b2 * 2 ^ 16 + b1 * 2 ^ 8 + b0 := by
  have top : e <<< 24 ||| b2 <<< 16 = (e * 256 + b2) <<< 16 := by
    rw [← Nat.shiftLeft_add_eq_or_of_lt (by rw [Nat.shiftLeft_eq]; omega)]
    simp only [Nat.shiftLeft_eq]
    ring
  have middle : (e * 256 + b2) <<< 16 ||| b1 <<< 8 = ((e * 256 + b2) * 256 + b1) <<< 8 := by
    rw [← Nat.shiftLeft_add_eq_or_of_lt (by rw [Nat.shiftLeft_eq]; omega)]
    simp only [Nat.shiftLeft_eq]
    ring
  rw [top, middle, ← Nat.shiftLeft_add_eq_or_of_lt first, Nat.shiftLeft_eq]
  ring

/-- The magnitude for at least three bytes. -/
theorem denoted_natAbs {bits : UInt32} {k : Nat} (e : bits.toNat / 2 ^ 24 = k + 3) :
    (denoted bits).natAbs = mantissaBits bits * 256 ^ k := by
  have scaled : mantissaBits bits * 256 ^ (k + 3) / 256 ^ 3 = mantissaBits bits * 256 ^ k := by
    rw [pow_add, ← Nat.mul_assoc, Nat.mul_div_cancel _ (by decide)]
  unfold denoted exponentByte
  rw [e]
  dsimp only
  rw [scaled]
  split
  · rw [Int.natAbs_neg, Int.natAbs_natCast]
  · rw [Int.natAbs_natCast]

/-- The bytes of canonical bits are the shortest ones of their number. -/
theorem numberBytes_denoted {bits : UInt32} {k : Nat} (e : bits.toNat / 2 ^ 24 = k + 3)
    (large : 2 ^ 15 ≤ mantissaBits bits) : numberBytes (denoted bits) = (compactBody bits.toNat).reverse := by
  rw [← setvch_compactBody]
  refine numberBytes_setvch ?_ ?_
  · rw [List.length_reverse, compactBody_length, e]
    omega
  · rw [setvch_compactBody, denoted_natAbs e, List.length_reverse, compactBody_length, e]
    calc 2 ^ (8 * (k + 3) - 9) = 2 ^ 15 * 256 ^ k := by
          rw [bytes_pow, ← pow_add]
          congr 1
          omega
      _ ≤ mantissaBits bits * 256 ^ k := Nat.mul_le_mul_right _ large

/-- The buffer that `GetCompact` reads. -/
theorem bn2mpi_denoted {bits : UInt32} {k : Nat} (e : bits.toNat / 2 ^ 24 = k + 3)
    (large : 2 ^ 15 ≤ mantissaBits bits) :
    bn2mpi (denoted bits) = [0, 0, 0, UInt8.ofNat (k + 3), compactByte bits.toNat 16, compactByte bits.toNat 8,
      compactByte bits.toNat 0] ++ List.replicate k 0 := by
  have word := bits.toNat_lt
  rw [bn2mpi, numberBytes_denoted e large, List.length_reverse, compactBody_length, e, List.reverse_reverse,
    lengthBytes (by omega), compactBody, e, List.take_of_length_le (by simp)]
  rfl

/-- **Canonical bits are the compact form of the number that they denote.** -/
theorem getCompact_denoted {bits : UInt32} (canonical : CanonicalBits bits) :
    getCompact (denoted bits) = asInt bits := by
  obtain ⟨long, large⟩ := canonical
  have word := bits.toNat_lt
  obtain ⟨k, e⟩ : ∃ k, bits.toNat / 2 ^ 24 = k + 3 := ⟨bits.toNat / 2 ^ 24 - 3, (Nat.sub_add_cancel long).symm⟩
  have buffer := bn2mpi_denoted e large
  have total : UInt32.ofNat (bn2mpi (denoted bits)).length - 4 = UInt32.ofNat (k + 3) := by
    rw [buffer, List.length_append, List.length_replicate, show [0, 0, 0, UInt8.ofNat (k + 3),
      compactByte bits.toNat 16, compactByte bits.toNat 8, compactByte bits.toNat 0].length + k = k + 3 + 4 by
        simp only [List.length_cons, List.length_nil]; omega, UInt32.ofNat_add]
    exact UInt32.add_sub_cancel _ _
  have whole : (UInt32.ofNat (k + 3)).toNat = k + 3 := UInt32.toNat_ofNat_of_lt' (show k + 3 < 2 ^ 32 by omega)
  have atLeast {j : Nat} (few : j ≤ 3) : UInt32.ofNat j ≤ UInt32.ofNat (k + 3) := by
    rw [UInt32.le_iff_toNat_le, whole, UInt32.toNat_ofNat_of_lt' (show j < 2 ^ 32 by omega)]
    omega
  have one : (1 : UInt32) ≤ UInt32.ofNat (k + 3) := atLeast (by decide : 1 ≤ 3)
  have two : (2 : UInt32) ≤ UInt32.ofNat (k + 3) := atLeast (by decide : 2 ≤ 3)
  have three : (3 : UInt32) ≤ UInt32.ofNat (k + 3) := atLeast (by decide : 3 ≤ 3)
  unfold getCompact asInt
  dsimp only
  rw [total, buffer, if_pos one, if_pos two, if_pos three]
  show ((UInt32.ofNat (k + 3) <<< 24 ||| (compactByte bits.toNat 16).toUInt32 <<< 16 |||
    (compactByte bits.toNat 8).toUInt32 <<< 8 ||| (compactByte bits.toNat 0).toUInt32).toNat : Int).bmod _ = _
  have first := compactByte_toNat (n := bits.toNat) 0
  have second := compactByte_toNat (n := bits.toNat) 8
  have third := compactByte_toNat (n := bits.toNat) 16
  congr 2
  simp only [UInt32.toNat_or, UInt32.toNat_shiftLeft, UInt8.toNat_toUInt32, whole]
  have shifts : (24 : UInt32).toNat % 32 = 24 ∧ (16 : UInt32).toNat % 32 = 16 ∧ (8 : UInt32).toNat % 32 = 8 := by
    decide
  have fits {x shift : Nat} (small : x * 2 ^ shift < 2 ^ 32) : x <<< shift % 2 ^ 32 = x <<< shift := by
    rw [Nat.shiftLeft_eq, Nat.mod_eq_of_lt small]
  rw [shifts.1, shifts.2.1, shifts.2.2, fits (by omega), fits (by omega), fits (by omega),
    packed (by omega) (by omega) (by omega)]
  omega

/-! ### The bits of a header -/

section Header

variable {bits : UInt32}

theorem asInt_of_lt (below : bits.toNat < 2 ^ 31) : asInt bits = bits.toNat := by
  unfold asInt
  exact Int.bmod_eq_of_le (by omega) (by omega)

theorem setCompact_denoted (this : Int) (below : bits.toNat < 2 ^ 31) :
    setCompact this (asInt bits) = .ok (denoted bits) := by
  rw [asInt_of_lt below, setCompact_body this below, setvch_compactBody]

theorem buffer_below (below : bits.toNat < 2 ^ 31) : (compactBuffer (asInt bits)).length ≤ 4 + 127 := by
  rw [asInt_of_lt below, compactBuffer, List.length_replicate]
  unfold compactSize
  omega

/-- With the top bit set the exponent is negative, and a large number as an `unsigned int`. -/
theorem compactSize_above (above : 2 ^ 31 ≤ bits.toNat) :
    compactSize (asInt bits) = 2 ^ 32 - 256 + exponentByte bits := by
  have word := bits.toNat_lt
  have negative : asInt bits = bits.toNat - 2 ^ 32 := by
    unfold asInt
    rw [Int.bmod_def]
    omega
  rw [negative]
  unfold compactSize exponentByte
  omega

/-- The size of the buffer wraps for the last four exponents. -/
theorem buffer_above (above : 2 ^ 31 ≤ bits.toNat) :
    (compactBuffer (asInt bits)).length =
      if exponentByte bits < 252 then 2 ^ 32 - 252 + exponentByte bits else exponentByte bits - 252 := by
  have word := bits.toNat_lt
  have byte : exponentByte bits < 256 := by
    unfold exponentByte
    omega
  rw [compactBuffer, List.length_replicate, compactSize_above above]
  split <;> omega

theorem setCompact_pastBuffer (this : Int) (above : 2 ^ 31 ≤ bits.toNat) (last : 252 ≤ exponentByte bits) :
    setCompact this (asInt bits) = .error .pastBuffer := by
  have word := bits.toNat_lt
  have short : ¬3 < (compactBuffer (asInt bits)).length := by
    have byte : exponentByte bits < 256 := by
      unfold exponentByte
      omega
    rw [buffer_above above]
    split <;> omega
  have first (byte : UInt8) : put (compactBuffer (asInt bits)) 3 byte = .error .pastBuffer := by rw [put, if_neg short]
  unfold setCompact
  dsimp only
  rw [first, Exec.error_bind]

end Header

/-- **`SetCompact` has a short buffer, writes only into it and gives the number that the bits denote, and `GetCompact`
finds canonical bits again, exactly where the top bit is not set.** -/
theorem setCompact_safe_iff (this : Int) (bits : UInt32) :
    ((compactBuffer (asInt bits)).length ≤ 4 + 255 ∧ setCompact this (asInt bits) = .ok (denoted bits) ∧
        (CanonicalBits bits → ∀ n, setCompact this (asInt bits) = .ok n → getCompact n = asInt bits)) ↔
      bits.toNat < 2 ^ 31 := by
  constructor
  · rintro ⟨short, decoded, -⟩
    by_contra above
    have word := bits.toNat_lt
    rw [buffer_above (Nat.not_lt.mp above)] at short
    by_cases early : exponentByte bits < 252
    · rw [if_pos early] at short
      omega
    · rw [setCompact_pastBuffer this (Nat.not_lt.mp above) (Nat.not_lt.mp early)] at decoded
      cases decoded
  · intro below
    have decoded := setCompact_denoted this below
    refine ⟨(buffer_below below).trans (by decide), decoded, fun canonical n same => ?_⟩
    rw [decoded] at same
    rw [← Except.ok.inj same]
    exact getCompact_denoted canonical

/-- Bits with the top bit set: the buffer has four gigabytes for the lowest of them, and a byte is written past a buffer
of three bytes for the highest. -/
theorem setCompact_topBit :
    ¬(compactBuffer (asInt 0x80000000)).length ≤ 4 + 255 ∧ setCompact 0 (asInt 0xff00ffff) = .error .pastBuffer ∧
      (compactBuffer (asInt 0xff00ffff)).length = 3 := by
  refine ⟨?_, by decide +kernel, by decide +kernel⟩
  rw [compactBuffer, List.length_replicate]
  decide +kernel

end CBigNum

end Libcoin
