/-
`Base58Check`: strings for bytes with a checksum.

* Both directions go through a number, which has no zeros at its front: `encodeBase58_digits` and
  `decodeBase58_digits` say that a string and the bytes have the same value and as many zeros at their front.
* `base58Check_exact`: what is encoded is decoded again, and a string that is decoded is the one that its result
  is encoded as. The string has no white space, and no zero byte, which is where it ends for the decoder.
-/

import Libcoin.Keys.BigNum
import Libcoin.Ledger.Wire
import Mathlib.Data.List.TakeWhile

namespace Libcoin

/-- `isspace`. -/
def isspace (c : UInt8) : Bool := decide (c ∈ [32, 9, 10, 11, 12, 13])

/-- An alphabet: 58 characters, which are distinct, none of which is a space or ends a string. -/
structure Alphabet where
  chars : Data
  size : chars.length = 58
  distinct : chars.Nodup
  printed : ∀ c ∈ chars, isspace c = false ∧ c ≠ 0

namespace Alphabet

/-- `alphabet[c]`. -/
def letter (alphabet : Alphabet) (c : Nat) : UInt8 := alphabet.chars.getD c 0

end Alphabet

/-! ### Encoding -/

/-- The loop of `EncodeBase58`, with a bound on its turns. -/
def base58Letters (alphabet : Alphabet) : Nat → Int → Data
  | 0, _ => []
  | fuel + 1, bn =>
    if 0 < bn then alphabet.letter (bn.tmod 58).toNat :: base58Letters alphabet fuel (bn.tdiv 58) else []

/-- `EncodeBase58`. A number has at most twice as many digits as it has bytes. -/
def encodeBase58 (alphabet : Alphabet) (vch : Data) : Data :=
  let bn := setvch (vch.reverse ++ [0])
  let str := base58Letters alphabet (2 * vch.length) bn
  let str := str ++ (vch.takeWhile fun byte => decide (byte = 0)).map fun _ => alphabet.letter 0
  str.reverse

/-- `EncodeBase58Check`. -/
def encodeBase58Check (hash : Data → Uint256) (alphabet : Alphabet) (vchIn : Data) : Data :=
  encodeBase58 alphabet (vchIn ++ (writeHash (hash vchIn)).take 4)

/-! ### Decoding -/

/-- The loop of `DecodeBase58` over a string that ends with a zero byte. -/
def base58Number (alphabet : Alphabet) : Data → Int → Option Int
  | [], bn => some bn
  | c :: rest, bn =>
    match alphabet.chars.idxOf? c with
    | some k => base58Number alphabet rest (bn * 58 + k)
    | none => if (c :: rest).dropWhile isspace = [] then some bn else none

/-- `DecodeBase58`. -/
def decodeBase58 (alphabet : Alphabet) (psz : Data) : Option Data :=
  let psz := psz.dropWhile isspace
  match base58Number alphabet psz 0 with
  | none => none
  | some bn =>
    let vchTmp := trimSign (numberBytes bn)
    let nLeadingZeros := (psz.takeWhile fun c => decide (c = alphabet.letter 0)).length
    some (List.replicate nLeadingZeros 0 ++ vchTmp.reverse)

/-- `str.c_str()`, as far as a function can see it that stops at the first zero byte. -/
def cStr (str : Data) : Data := str.takeWhile fun c => decide (c ≠ 0)

/-- `DecodeBase58Check`. -/
def decodeBase58Check (hash : Data → Uint256) (alphabet : Alphabet) (str : Data) : Option Data :=
  match decodeBase58 alphabet (cStr str) with
  | none => none
  | some vch =>
    if vch.length < 4 then none
    else
      let body := vch.take (vch.length - 4)
      if (writeHash (hash body)).take 4 = vch.drop (vch.length - 4) then some body else none

/-! ### Letters and digits -/

namespace Alphabet

variable (alphabet : Alphabet)

theorem letter_eq {c : Nat} (inside : c < alphabet.chars.length) : alphabet.letter c = alphabet.chars[c] := by
  rw [letter, List.getD_eq_getElem?_getD, List.getElem?_eq_getElem inside, Option.getD_some]

theorem letter_mem {c : Nat} (small : c < 58) : alphabet.letter c ∈ alphabet.chars := by
  have inside : c < alphabet.chars.length := alphabet.size ▸ small
  rw [letter_eq _ inside]
  exact List.getElem_mem inside

theorem idxOf_letter {c : Nat} (small : c < 58) : alphabet.chars.idxOf? (alphabet.letter c) = some c := by
  have inside : c < alphabet.chars.length := alphabet.size ▸ small
  rw [letter_eq _ inside, List.idxOf?_eq_some_iff]
  refine ⟨inside, rfl, fun j earlier same => ?_⟩
  have equal := (alphabet.distinct.getElem_inj_iff).mp same
  omega

theorem letter_of_idxOf {c : UInt8} {k : Nat} (found : alphabet.chars.idxOf? c = some k) :
    k < 58 ∧ alphabet.letter k = c := by
  obtain ⟨inside, is, -⟩ := List.idxOf?_eq_some_iff.mp found
  exact ⟨alphabet.size ▸ inside, (letter_eq _ inside).trans is⟩

/-- The letters of some digits. -/
def spell (digits : List Nat) : Data := digits.map alphabet.letter

theorem spell_printed {digits : List Nat} (small : ∀ digit ∈ digits, digit < 58) :
    ∀ c ∈ alphabet.spell digits, isspace c = false ∧ c ≠ 0 := by
  intro c member
  obtain ⟨digit, inside, rfl⟩ := List.mem_map.mp member
  exact alphabet.printed _ (alphabet.letter_mem (small digit inside))

/-- The first letter is the digit zero. -/
theorem zeros_spell {digits : List Nat} (small : ∀ digit ∈ digits, digit < 58) :
    ((alphabet.spell digits).takeWhile fun c => decide (c = alphabet.letter 0)).length = Radix.zeros digits := by
  induction digits with
  | nil => rfl
  | cons digit digits ih =>
    have rest := ih fun other member => small other (List.mem_cons_of_mem _ member)
    by_cases zero : digit = 0
    · simp only [spell, List.map_cons, Radix.zeros, zero, decide_true, List.takeWhile_cons_of_pos, List.length_cons]
      exact congrArg (· + 1) rest
    · have other : alphabet.letter digit ≠ alphabet.letter 0 := by
        intro same
        have first := alphabet.idxOf_letter (small digit List.mem_cons_self)
        rw [same, alphabet.idxOf_letter (by omega)] at first
        exact zero (Option.some.inj first).symm
      simp [spell, Radix.zeros, zero, other]

end Alphabet

/-! ### What is encoded -/

section Digits

variable {alphabet : Alphabet}

/-- The digits of some bytes. -/
def digitsOf (vch : Data) : List Nat := vch.map UInt8.toNat

theorem digitsOf_lt {vch : Data} : ∀ digit ∈ digitsOf vch, digit < 256 := by
  intro digit member
  obtain ⟨byte, -, rfl⟩ := List.mem_map.mp member
  exact byte.toNat_lt

theorem digitsOf_inj {first second : Data} (same : digitsOf first = digitsOf second) : first = second :=
  List.map_injective_iff.mpr (fun _ _ equal => UInt8.toNat.inj equal) same

theorem toNat_eq_zero {byte : UInt8} : byte.toNat = 0 ↔ byte = 0 := (UInt8.toNat_inj (b := 0))

theorem zeros_digitsOf (vch : Data) :
    Radix.zeros (digitsOf vch) = (vch.takeWhile fun byte => decide (byte = 0)).length := by
  have same (byte : UInt8) : decide (byte.toNat = 0) = decide (byte = 0) := by
    rw [decide_eq_decide]
    exact toNat_eq_zero
  rw [Radix.zeros, digitsOf, List.takeWhile_map, List.length_map]
  congr 2
  funext byte
  exact same byte

theorem littleEndian_reverse (vch : Data) : littleEndian vch.reverse = Radix.value 256 (digitsOf vch) := by
  rw [littleEndian_eq_ofDigits, Radix.value, digitsOf, List.map_reverse]

/-- The loop of `EncodeBase58` comes to its end. -/
theorem base58Letters_eq {fuel n : Nat} (enough : n < 58 ^ fuel) :
    base58Letters alphabet fuel n = alphabet.spell (Nat.digits 58 n) := by
  induction fuel generalizing n with
  | zero =>
    obtain rfl : n = 0 := Nat.lt_one_iff.mp enough
    simp [base58Letters, Alphabet.spell]
  | succ fuel ih =>
    unfold base58Letters
    by_cases zero : n = 0
    · simp [zero, Alphabet.spell]
    · have less : n / 58 < 58 ^ fuel := by
        rw [pow_succ] at enough
        exact Nat.div_lt_of_lt_mul (by omega)
      have digit : ((n : Int).tmod 58).toNat = n % 58 := by
        rw [show (n : Int).tmod 58 = ((n % 58 : Nat) : Int) from (Int.ofNat_tmod n 58).symm, Int.toNat_natCast]
      have quotient : (n : Int).tdiv 58 = ((n / 58 : Nat) : Int) := (Int.ofNat_tdiv n 58).symm
      rw [if_pos (by omega), digit, quotient, ih less, Nat.digits_eq_cons_digits_div (by decide) zero]
      rfl

/-- **`EncodeBase58`** keeps the value and the zeros at the front. -/
theorem encodeBase58_digits (vch : Data) : encodeBase58 alphabet vch =
    alphabet.spell (Radix.numeral 58 (Radix.zeros (digitsOf vch)) (Radix.value 256 (digitsOf vch))) := by
  have enough : Radix.value 256 (digitsOf vch) < 58 ^ (2 * vch.length) := by
    rw [← littleEndian_reverse]
    calc littleEndian vch.reverse < 256 ^ vch.reverse.length := littleEndian_lt _
      _ = 256 ^ vch.length := by rw [List.length_reverse]
      _ ≤ (58 ^ 2) ^ vch.length := Nat.pow_le_pow_left (by decide) _
      _ = 58 ^ (2 * vch.length) := (pow_mul _ _ _).symm
  unfold encodeBase58
  dsimp only
  rw [setvch_append_zero, littleEndian_reverse, base58Letters_eq enough, List.map_const', ← zeros_digitsOf,
    List.reverse_append, List.reverse_replicate, Radix.numeral, Alphabet.spell, Alphabet.spell, List.map_append,
    List.map_replicate, List.map_reverse]

theorem encodeBase58_printed (vch : Data) : ∀ c ∈ encodeBase58 alphabet vch, isspace c = false ∧ c ≠ 0 := by
  rw [encodeBase58_digits]
  exact alphabet.spell_printed fun digit member => Radix.lt_of_mem_numeral (by decide) member

/-! ### What is decoded -/

/-- The loop of `DecodeBase58` over letters. -/
theorem base58Number_spell {digits : List Nat} (small : ∀ digit ∈ digits, digit < 58) (n : Nat) :
    base58Number alphabet (alphabet.spell digits) n =
      some ((digits.foldl (fun n digit => n * 58 + digit) n : Nat) : Int) := by
  induction digits generalizing n with
  | nil => rfl
  | cons digit digits ih =>
    rw [Alphabet.spell, List.map_cons, base58Number, alphabet.idxOf_letter (small digit List.mem_cons_self)]
    have rest := ih (fun other member => small other (List.mem_cons_of_mem _ member)) (n * 58 + digit)
    push_cast at rest
    exact rest

/-- Without white space, the loop accepts letters only. -/
theorem spell_of_base58Number {str : Data} (printed : ∀ c ∈ str, isspace c = false) {start bn : Int}
    (run : base58Number alphabet str start = some bn) :
    ∃ digits, (∀ digit ∈ digits, digit < 58) ∧ alphabet.spell digits = str := by
  induction str generalizing start with
  | nil => exact ⟨[], nofun, rfl⟩
  | cons c str ih =>
    unfold base58Number at run
    split at run
    · rename_i k found
      obtain ⟨digits, small, rfl⟩ := ih (fun other member => printed other (List.mem_cons_of_mem _ member)) run
      obtain ⟨bound, rfl⟩ := alphabet.letter_of_idxOf found
      exact ⟨k :: digits, List.forall_mem_cons.mpr ⟨bound, small⟩, rfl⟩
    · rw [List.dropWhile_cons_of_neg (by simp [printed c List.mem_cons_self]), if_neg (List.cons_ne_nil _ _)] at run
      cases run

theorem dropWhile_printed {str : Data} (printed : ∀ c ∈ str, isspace c = false) : str.dropWhile isspace = str := by
  cases str with
  | nil => rfl
  | cons c str => exact List.dropWhile_cons_of_neg (by simp [printed c List.mem_cons_self])

/-- **`DecodeBase58`** keeps the value and the zeros at the front. -/
theorem decodeBase58_digits {digits : List Nat} (small : ∀ digit ∈ digits, digit < 58) :
    ∃ vch, decodeBase58 alphabet (alphabet.spell digits) = some vch ∧
      Radix.zeros (digitsOf vch) = Radix.zeros digits ∧ Radix.value 256 (digitsOf vch) = Radix.value 58 digits := by
  have printed : ∀ c ∈ alphabet.spell digits, isspace c = false :=
    fun c member => (alphabet.spell_printed small c member).1
  have number : base58Number alphabet (alphabet.spell digits) 0 = some ((Radix.value 58 digits : Nat) : Int) := by
    have run := @base58Number_spell alphabet _ small 0
    rwa [Radix.foldl_value, Nat.zero_mul, Nat.zero_add] at run
  refine ⟨List.replicate (Radix.zeros digits) 0 ++ (magnitudeBytes (Radix.value 58 digits)).reverse, ?_, ?_, ?_⟩
  · unfold decodeBase58
    dsimp only
    rw [dropWhile_printed printed, number]
    dsimp only
    rw [trimSign_numberBytes, alphabet.zeros_spell small]
  · rw [digitsOf, List.map_append, List.map_replicate]
    refine Radix.zeros_replicate_append _ fun some => ?_
    have nonempty : magnitudeBytes (Radix.value 58 digits) ≠ [] := by
      rintro empty
      exact some (by rw [empty]; rfl)
    rw [List.head_map, List.head_reverse]
    exact fun zero => getLast_magnitudeBytes nonempty (toNat_eq_zero.mp zero)
  · rw [digitsOf, List.map_append, List.map_replicate, show UInt8.toNat 0 = 0 from rfl, Radix.value_replicate_append]
    show Radix.value 256 (digitsOf _) = _
    rw [← littleEndian_reverse, List.reverse_reverse, littleEndian_magnitudeBytes]

/-- What is encoded is decoded again. -/
theorem decodeBase58_encodeBase58 (vch : Data) : decodeBase58 alphabet (encodeBase58 alphabet vch) = some vch := by
  have small : ∀ digit ∈ Radix.numeral 58 (Radix.zeros (digitsOf vch)) (Radix.value 256 (digitsOf vch)), digit < 58 :=
    fun digit member => Radix.lt_of_mem_numeral (by decide) member
  obtain ⟨other, decoded, zeros, value⟩ := @decodeBase58_digits alphabet _ small
  rw [Radix.zeros_numeral] at zeros
  rw [Radix.value_numeral] at value
  rw [encodeBase58_digits, decoded, digitsOf_inj (Radix.ext_of_lt (by decide) digitsOf_lt digitsOf_lt zeros value)]

/-- What is decoded was encoded so. -/
theorem encodeBase58_decodeBase58 {str vch : Data} (printed : ∀ c ∈ str, isspace c = false)
    (decoded : decodeBase58 alphabet str = some vch) : encodeBase58 alphabet vch = str := by
  obtain ⟨digits, small, rfl⟩ : ∃ digits, (∀ digit ∈ digits, digit < 58) ∧ alphabet.spell digits = str := by
    unfold decodeBase58 at decoded
    dsimp only at decoded
    rw [dropWhile_printed printed] at decoded
    split at decoded
    · cases decoded
    · rename_i bn run
      exact spell_of_base58Number printed run
  obtain ⟨other, again, zeros, value⟩ := @decodeBase58_digits alphabet _ small
  obtain rfl : other = vch := Option.some.inj (again.symm.trans decoded)
  rw [encodeBase58_digits, zeros, value, Radix.numeral_zeros_value (by decide) small]

theorem cStr_of_nonzero {str : Data} (ends : ∀ c ∈ str, c ≠ 0) : cStr str = str :=
  List.takeWhile_eq_self_iff.mpr fun c member => decide_eq_true (ends c member)

theorem decodeBase58Check_encodeBase58Check (hash : Data → Uint256) (v : Data) :
    decodeBase58Check hash alphabet (encodeBase58Check hash alphabet v) = some v := by
  have checksum : ((writeHash (hash v)).take 4).length = 4 := by
    rw [List.length_take_of_le]
    rw [writeHash, littleBytes_length]
    decide
  have size : (v ++ (writeHash (hash v)).take 4).length - 4 = v.length := by
    rw [List.length_append, checksum]
    omega
  have ends : ∀ c ∈ encodeBase58 alphabet (v ++ (writeHash (hash v)).take 4), c ≠ 0 :=
    fun c member => (encodeBase58_printed _ c member).2
  unfold decodeBase58Check encodeBase58Check
  rw [cStr_of_nonzero ends, decodeBase58_encodeBase58]
  dsimp only
  rw [size, List.take_left, List.drop_left, if_pos rfl, if_neg]
  rw [List.length_append, checksum]
  omega

end Digits

/-- **`Base58Check`** is exact in both directions. -/
theorem base58Check_exact (hash : Data → Uint256) (alphabet : Alphabet) :
    (∀ v, decodeBase58Check hash alphabet (encodeBase58Check hash alphabet v) = some v) ∧
      ∀ s v, (∀ c ∈ s, isspace c = false ∧ c ≠ 0) → decodeBase58Check hash alphabet s = some v →
        encodeBase58Check hash alphabet v = s := by
  refine ⟨decodeBase58Check_encodeBase58Check hash, fun s v printed decoded => ?_⟩
  unfold decodeBase58Check at decoded
  rw [cStr_of_nonzero fun c member => (printed c member).2] at decoded
  split at decoded
  · cases decoded
  · rename_i vch run
    split at decoded
    · cases decoded
    · dsimp only at decoded
      split at decoded
      · rename_i same
        obtain rfl := Option.some.inj decoded
        unfold encodeBase58Check
        rw [same, List.take_append_drop]
        exact encodeBase58_decodeBase58 (fun c member => (printed c member).1) run
      · cases decoded

/-- `pszBase58`. -/
def pszBase58 : Alphabet where
  chars := "123456789ABCDEFGHJKLMNPQRSTUVWXYZabcdefghijkmnopqrstuvwxyz".toList.map fun c => UInt8.ofNat c.toNat
  size := by decide +kernel
  distinct := by decide +kernel
  printed := by decide +kernel

/-- The bytes of a string. -/
def asciiBytes (str : String) : Data := str.toList.map fun c => UInt8.ofNat c.toNat

/-- A string that goes on after a zero byte is accepted for the part before it: no bytes at all, with the checksum
that they have. -/
theorem base58Check_zero_byte :
    ¬∀ s v, (∀ c ∈ s, isspace c = false) →
      decodeBase58Check (fun _ => 0x56944c5d3f98413ef45cf54545538103cc9f298e0575820ad3591376e2e0f65d) pszBase58 s =
          some v →
        encodeBase58Check (fun _ => 0x56944c5d3f98413ef45cf54545538103cc9f298e0575820ad3591376e2e0f65d) pszBase58 v =
          s := by
  intro exact
  have same := exact (asciiBytes "3QJmnh" ++ [0]) [] (by decide +kernel) (by decide +kernel)
  revert same
  decide +kernel

end Libcoin
