/-
`Auth`: a user name and a password, in base 64.

* `encode64_eq`: the loop of `encode64` writes base 64, as long as the size of the string is an `unsigned int`.
* `decode64_exact`: `decode64` reads back what `encode64` writes exactly when its size is an `int`. From there on the
  counter of `decode64` overflows or counts too little.
-/

import Libcoin.Ledger.Types
import Libcoin.Library.Base64

namespace Libcoin

/-- The bytes of a text. -/
def text (s : String) : Data := s.toList.map fun c => UInt8.ofNat c.toNat

def base64Chars : Data := text "ABCDEFGHIJKLMNOPQRSTUVWXYZabcdefghijklmnopqrstuvwxyz0123456789+/"

def isalpha (c : UInt8) : Bool := (65 ≤ c && c ≤ 90) || (97 ≤ c && c ≤ 122)

def isdigit (c : UInt8) : Bool := 48 ≤ c && c ≤ 57

def isBase64 (c : UInt8) : Bool := isalpha c || isdigit c || c = 43 || c = 47

namespace Auth

/-! ### Encoding -/

/-- `char_array_4` of `char_array_3`, in `encode64`. -/
def sextets (array3 : Data) : Data :=
  let a := array3.getD 0 0
  let b := array3.getD 1 0
  let c := array3.getD 2 0
  [(a &&& 0xfc) >>> 2, ((a &&& 0x03) <<< 4) + ((b &&& 0xf0) >>> 4), ((b &&& 0x0f) <<< 2) + ((c &&& 0xc0) >>> 6),
    c &&& 0x3f]

/-- `base64_chars[c]`. -/
def letter (c : UInt8) : UInt8 := base64Chars.getD c.toNat 0

/-- What follows the loop of `encode64`. -/
def encodeRest (array3 : Data) : Data :=
  if array3.length ≠ 0 then
    ((sextets array3).take (array3.length + 1)).map letter ++ List.replicate (3 - array3.length) 61
  else []

/-- The loop of `encode64`, with the bytes that are in `char_array_3`. -/
def encodeLoop (array3 : Data) : Data → Data
  | [] => encodeRest array3
  | byte :: rest =>
    let array3 := array3 ++ [byte]
    if array3.length = 3 then (sextets array3).map letter ++ encodeLoop [] rest else encodeLoop array3 rest

/-- `encode64`. The size is counted by an `unsigned int`. -/
def encode64 (s : Data) : Data := encodeLoop [] (s.take (s.length % 2 ^ 32))

/-! ### Decoding -/

/-- `char_array_3` of `char_array_4`, in `decode64`. -/
def octets (array4 : Data) : Data :=
  let p := array4.getD 0 0
  let q := array4.getD 1 0
  let r := array4.getD 2 0
  let s := array4.getD 3 0
  [(p <<< 2) + ((q &&& 0x30) >>> 4), ((q &&& 0xf) <<< 4) + ((r &&& 0x3c) >>> 2), ((r &&& 0x3) <<< 6) + s]

/-- `base64_chars.find(c)`, as an `unsigned char`. -/
def index (c : UInt8) : UInt8 := (base64Chars.idxOf? c).elim 255 UInt8.ofNat

/-- What follows the loop of `decode64`. -/
def decodeRest (array4 : Data) : Data :=
  if array4.length ≠ 0 then
    (octets ((array4 ++ List.replicate (4 - array4.length) 0).map index)).take (array4.length - 1)
  else []

/-- The loop of `decode64`, with `in_len` and the characters that are in `char_array_4`. It is undefined where `in_len`
overflows. The character after the last one is zero. -/
def decodeLoop (inLen : Int) (array4 : Data) : Data → Option Data
  | [] => if inLen = -2 ^ 31 then none else some (decodeRest array4)
  | c :: rest =>
    if inLen = 0 then some (decodeRest array4)
    else if inLen = -2 ^ 31 then none
    else if c = 61 || !isBase64 c then some (decodeRest array4)
    else
      let array4 := array4 ++ [c]
      if array4.length = 4 then (decodeLoop (inLen - 1) [] rest).map (octets (array4.map index) ++ ·)
      else decodeLoop (inLen - 1) array4 rest

/-- `decode64`. The size is counted by an `int`. -/
def decode64 (encoded : Data) : Option Data := decodeLoop (Int.bmod encoded.length (2 ^ 32)) [] encoded

end Auth

/-- `_base64auth`. -/
structure Auth where
  base64auth : Data
  deriving DecidableEq

namespace Auth

/-- `Auth()`. -/
def empty : Auth := ⟨[]⟩

/-- `Auth(base64auth)`. -/
def ofBase64 (base64auth : Data) : Auth := ⟨if base64auth.all isBase64 then base64auth else []⟩

/-- `Auth(username, password)`. -/
def ofUser (username password : Data) : Auth := ⟨encode64 (username ++ text ":" ++ password)⟩

def isNone (self : Auth) : Bool := self.base64auth.isEmpty

def valid (self : Auth) (auth : Data) : Bool :=
  if self.isNone then true
  else if self.base64auth = encode64 (text ":") then false
  else self.base64auth = auth

end Auth

/-- What base 64 is written with. -/
def spell (n : Nat) : UInt8 := base64Chars.getD n 0

/-- A string in base 64. -/
def base64 (s : Data) : Data := Base64.encode spell 61 s

namespace Auth

open Base64

/-! ### What is written -/

/-- Some bits of a byte, moved to its end. -/
theorem toNat_right {a mask k : UInt8} {n : Nat} (bits : mask.toNat >>> (k.toNat % 8) = 2 ^ n - 1) :
    ((a &&& mask) >>> k).toNat = a.toNat / 2 ^ (k.toNat % 8) % 2 ^ n := by
  rw [UInt8.toNat_shiftRight, UInt8.toNat_and, Nat.shiftRight_and_distrib, bits, Nat.and_two_pow_sub_one_eq_mod,
    Nat.shiftRight_eq_div_pow]

/-- The last bits of a byte, moved to its front. -/
theorem toNat_left {a mask k : UInt8} {n : Nat} (bits : mask.toNat = 2 ^ n - 1) :
    ((a &&& mask) <<< k).toNat = a.toNat % 2 ^ n * 2 ^ (k.toNat % 8) % 2 ^ 8 := by
  rw [UInt8.toNat_shiftLeft, UInt8.toNat_and, bits, Nat.and_two_pow_sub_one_eq_mod, Nat.shiftLeft_eq]

theorem high_six (a : UInt8) : ((a &&& 0xfc) >>> 2).toNat = a.toNat / 4 :=
  (toNat_right (show _ = 2 ^ 6 - 1 by rfl)).trans (Nat.mod_eq_of_lt (Nat.div_lt_of_lt_mul a.toNat_lt))

theorem low_two (a : UInt8) : ((a &&& 0x03) <<< 4).toNat = a.toNat % 4 * 16 :=
  (toNat_left (show _ = 2 ^ 2 - 1 by rfl)).trans (Nat.mod_eq_of_lt (show a.toNat % 4 * 16 < 256 by omega))

theorem high_four (b : UInt8) : ((b &&& 0xf0) >>> 4).toNat = b.toNat / 16 :=
  (toNat_right (show _ = 2 ^ 4 - 1 by rfl)).trans (Nat.mod_eq_of_lt (Nat.div_lt_of_lt_mul b.toNat_lt))

theorem low_four (b : UInt8) : ((b &&& 0x0f) <<< 2).toNat = b.toNat % 16 * 4 :=
  (toNat_left (show _ = 2 ^ 4 - 1 by rfl)).trans (Nat.mod_eq_of_lt (show b.toNat % 16 * 4 < 256 by omega))

theorem high_two (c : UInt8) : ((c &&& 0xc0) >>> 6).toNat = c.toNat / 64 :=
  (toNat_right (show _ = 2 ^ 2 - 1 by rfl)).trans (Nat.mod_eq_of_lt (Nat.div_lt_of_lt_mul c.toNat_lt))

theorem low_six (c : UInt8) : (c &&& 0x3f).toNat = c.toNat % 64 := by
  rw [UInt8.toNat_and]
  exact Nat.and_two_pow_sub_one_eq_mod c.toNat 6

theorem map_sextets (array3 : Data) :
    (sextets array3).map letter = [spell (first (array3.getD 0 0).toNat),
      spell (second (array3.getD 0 0).toNat (array3.getD 1 0).toNat),
      spell (third (array3.getD 1 0).toNat (array3.getD 2 0).toNat), spell (fourth (array3.getD 2 0).toNat)] := by
  have two := second_lt (array3.getD 0 0).toNat (array3.getD 1 0).toNat_lt
  have three := third_lt (array3.getD 1 0).toNat (array3.getD 2 0).toNat_lt
  have two' := Nat.mod_eq_of_lt (two.trans (show 64 < 2 ^ 8 by decide))
  have three' := Nat.mod_eq_of_lt (three.trans (show 64 < 2 ^ 8 by decide))
  unfold first second third fourth at *
  simp only [sextets, letter, spell, List.map_cons, List.map_nil, UInt8.toNat_add, high_six, low_two, high_four,
    low_four, high_two, low_six, two', three']

theorem encodeLoop_eq (s : Data) : encodeLoop [] s = base64 s := by
  unfold base64
  fun_induction Base64.encode spell 61 s with
  | case1 => rfl
  | case2 a =>
    show ((sextets [a]).take 2).map letter ++ [61, 61] = _
    rw [List.map_take, map_sextets]
    rfl
  | case3 a b =>
    show ((sextets [a, b]).take 3).map letter ++ [61] = _
    rw [List.map_take, map_sextets]
    rfl
  | case4 a b c rest ih =>
    show (sextets [a, b, c]).map letter ++ encodeLoop [] rest = _
    rw [map_sextets, ih]
    rfl

theorem encode64_eq {s : Data} (short : s.length < 2 ^ 32) : encode64 s = base64 s := by
  rw [encode64, Nat.mod_eq_of_lt short, List.take_length, encodeLoop_eq]

theorem encode64_take (s : Data) : encode64 s = base64 (s.take (s.length % 2 ^ 32)) := encodeLoop_eq _

/-! ### What is read -/

theorem low_sextet (p : UInt8) : (p <<< 2).toNat = p.toNat * 4 % 256 := by
  rw [UInt8.toNat_shiftLeft, Nat.shiftLeft_eq]
  rfl

theorem middle_two (q : UInt8) : ((q &&& 0x30) >>> 4).toNat = q.toNat / 16 % 4 :=
  toNat_right (show _ = 2 ^ 2 - 1 by rfl)

theorem low_nibble (q : UInt8) : ((q &&& 0xf) <<< 4).toNat = q.toNat % 16 * 16 :=
  (toNat_left (show _ = 2 ^ 4 - 1 by rfl)).trans (Nat.mod_eq_of_lt (show q.toNat % 16 * 16 < 256 by omega))

theorem middle_four (r : UInt8) : ((r &&& 0x3c) >>> 2).toNat = r.toNat / 4 % 16 :=
  toNat_right (show _ = 2 ^ 4 - 1 by rfl)

theorem low_pair (r : UInt8) : ((r &&& 0x3) <<< 6).toNat = r.toNat % 4 * 64 :=
  (toNat_left (show _ = 2 ^ 2 - 1 by rfl)).trans (Nat.mod_eq_of_lt (show r.toNat % 4 * 64 < 256 by omega))

theorem spell_letter : ∀ n < 64, isBase64 (spell n) = true ∧ index (spell n) = UInt8.ofNat n := by decide +kernel

/-- A letter does not end the loop of `decode64`. -/
theorem spell_reads {n : Nat} (letter : n < 64) : ¬(spell n = 61 || !isBase64 (spell n)) = true := by
  have is := (spell_letter n letter).1
  have other : spell n ≠ 61 := by
    intro pad
    rw [pad] at is
    exact absurd is (by decide)
  simp [is, other]

theorem index_spell (n : Nat) (letter : n < 64) : index (spell n) = UInt8.ofNat n := (spell_letter n letter).2

theorem first_octet (a : Nat) {b : Nat} (byte : b < 256) :
    (UInt8.ofNat (first a) <<< 2) + ((UInt8.ofNat (second a b) &&& 0x30) >>> 4) = UInt8.ofNat a := by
  apply UInt8.toNat_inj.mp
  simp only [UInt8.toNat_add, low_sextet, middle_two, UInt8.toNat_ofNat']
  unfold first second
  omega

theorem second_octet (a b : Nat) {c : Nat} (byte : c < 256) :
    ((UInt8.ofNat (second a b) &&& 0xf) <<< 4) + ((UInt8.ofNat (third b c) &&& 0x3c) >>> 2) = UInt8.ofNat b := by
  apply UInt8.toNat_inj.mp
  simp only [UInt8.toNat_add, low_nibble, middle_four, UInt8.toNat_ofNat']
  unfold second third
  omega

theorem third_octet (b c : Nat) :
    ((UInt8.ofNat (third b c) &&& 0x3) <<< 6) + UInt8.ofNat (fourth c) = UInt8.ofNat c := by
  apply UInt8.toNat_inj.mp
  simp only [UInt8.toNat_add, low_pair, UInt8.toNat_ofNat']
  unfold third fourth
  omega

/-- One byte is read from two letters. -/
theorem decodeRest_two (a : UInt8) :
    decodeRest [spell (first a.toNat), spell (second a.toNat 0)] = [a] := by
  show [(index (spell (first a.toNat)) <<< 2) + ((index (spell (second a.toNat 0)) &&& 0x30) >>> 4)] = _
  rw [index_spell _ (first_lt a.toNat_lt), index_spell _ (second_lt _ (by omega)), first_octet _ (by omega),
    UInt8.ofNat_toNat]

/-- Two bytes are read from three letters. -/
theorem decodeRest_three (a b : UInt8) :
    decodeRest [spell (first a.toNat), spell (second a.toNat b.toNat), spell (third b.toNat 0)] = [a, b] := by
  show [(index (spell (first a.toNat)) <<< 2) + ((index (spell (second a.toNat b.toNat)) &&& 0x30) >>> 4),
    ((index (spell (second a.toNat b.toNat)) &&& 0xf) <<< 4) + ((index (spell (third b.toNat 0)) &&& 0x3c) >>> 2)] = _
  rw [index_spell _ (first_lt a.toNat_lt), index_spell _ (second_lt _ b.toNat_lt),
    index_spell _ (third_lt _ (by omega)), first_octet _ b.toNat_lt, second_octet _ _ (by omega),
    UInt8.ofNat_toNat, UInt8.ofNat_toNat]

theorem octets_four (a b c : UInt8) :
    octets ([spell (first a.toNat), spell (second a.toNat b.toNat), spell (third b.toNat c.toNat),
      spell (fourth c.toNat)].map index) = [a, b, c] := by
  simp only [octets, List.map_cons, List.map_nil, List.getD_cons_zero, List.getD_cons_succ]
  rw [index_spell _ (first_lt a.toNat_lt), index_spell _ (second_lt _ b.toNat_lt), index_spell _ (third_lt _ c.toNat_lt),
    index_spell _ (fourth_lt _), first_octet _ b.toNat_lt, second_octet _ _ c.toNat_lt, third_octet,
    UInt8.ofNat_toNat, UInt8.ofNat_toNat, UInt8.ofNat_toNat]

section Letters

variable {inLen : Int} {array4 : Data} {n : Nat} (rest : Data) (letter : n < 64) (counted : inLen ≠ 0)
  (within : inLen ≠ -2 ^ 31)

include letter counted within

/-- A letter that is counted goes to `char_array_4`. -/
theorem decodeLoop_letter (room : array4.length < 3) :
    decodeLoop inLen array4 (spell n :: rest) = decodeLoop (inLen - 1) (array4 ++ [spell n]) rest := by
  rw [decodeLoop, if_neg counted, if_neg within, if_neg (spell_reads letter), if_neg]
  rw [List.length_append, List.length_singleton]
  omega

/-- The fourth letter completes three bytes. -/
theorem decodeLoop_fourth (full : array4.length = 3) :
    decodeLoop inLen array4 (spell n :: rest) =
      (decodeLoop (inLen - 1) [] rest).map (octets ((array4 ++ [spell n]).map index) ++ ·) := by
  rw [decodeLoop, if_neg counted, if_neg within, if_neg (spell_reads letter), if_pos]
  rw [List.length_append, List.length_singleton, full]

end Letters

/-- A string that an `int` counts is read back. -/
theorem decodeLoop_base64 (s : Data) : decodeLoop (base64 s).length [] (base64 s) = some s := by
  unfold base64
  fun_induction Base64.encode spell 61 s with
  | case1 => rfl
  | case2 a =>
    show decodeLoop 4 [] _ = _
    rw [decodeLoop_letter _ (first_lt a.toNat_lt) (by decide) (by decide) (by simp),
      decodeLoop_letter _ (second_lt _ (by omega)) (by decide) (by decide) (by simp)]
    exact congrArg some (decodeRest_two a)
  | case3 a b =>
    show decodeLoop 4 [] _ = _
    rw [decodeLoop_letter _ (first_lt a.toNat_lt) (by decide) (by decide) (by simp),
      decodeLoop_letter _ (second_lt _ b.toNat_lt) (by decide) (by decide) (by simp),
      decodeLoop_letter _ (third_lt _ (by omega)) (by decide) (by decide) (by simp)]
    exact congrArg some (decodeRest_three a b)
  | case4 a b c rest ih =>
    have length : ∀ letters : Data, ((letters.length + 1 + 1 + 1 + 1 : Nat) : Int) - 1 - 1 - 1 - 1 = letters.length :=
      fun letters => by omega
    simp only [List.length_cons]
    rw [decodeLoop_letter _ (first_lt a.toNat_lt) (by omega) (by omega) (by simp),
      decodeLoop_letter _ (second_lt _ b.toNat_lt) (by omega) (by omega) (by simp),
      decodeLoop_letter _ (third_lt _ c.toNat_lt) (by omega) (by omega) (by simp),
      decodeLoop_fourth _ (fourth_lt _) (by omega) (by omega) (by simp), length, ih]
    exact congrArg (fun bytes => some (bytes ++ rest)) (octets_four a b c)

/-- The counter overflows on letters. -/
theorem decodeLoop_overflows {inLen : Int} {array4 letters : Data} (rest : Data) (few : array4.length ≤ 3)
    (all : ∀ c ∈ letters, ∃ n < 64, c = spell n) (negative : inLen < 0) (low : -2 ^ 31 ≤ inLen)
    (many : inLen + 2 ^ 31 ≤ letters.length) : decodeLoop inLen array4 (letters ++ rest) = none := by
  induction letters generalizing inLen array4 with
  | nil =>
    obtain rfl : inLen = -2 ^ 31 := by
      rw [List.length_nil] at many
      omega
    cases rest with
    | nil => rfl
    | cons c rest => rw [List.nil_append, decodeLoop, if_neg (by decide), if_pos rfl]
  | cons c letters ih =>
    obtain ⟨⟨n, letter, rfl⟩, later⟩ := List.forall_mem_cons.mp all
    rw [List.length_cons] at many
    rw [List.cons_append]
    by_cases last : inLen = -2 ^ 31
    · rw [decodeLoop, if_neg (by omega), if_pos last]
    · by_cases full : array4.length = 3
      · rw [decodeLoop_fourth _ letter (by omega) last full,
          ih (by simp) later (by omega) (by omega) (by omega)]
        rfl
      · rw [decodeLoop_letter _ letter (by omega) last (by omega)]
        exact ih (by rw [List.length_append, List.length_singleton]; omega) later (by omega) (by omega) (by omega)

theorem decodeRest_length (array4 : Data) : (decodeRest array4).length ≤ array4.length := by
  unfold decodeRest
  split
  · rw [List.length_take]
    omega
  · exact Nat.zero_le _

/-- As many bytes as are counted. -/
theorem decodeLoop_le {inLen : Int} {array4 encoded out : Data} (run : decodeLoop inLen array4 encoded = some out)
    (nonneg : 0 ≤ inLen) (few : array4.length ≤ 3) : (out.length : Int) ≤ inLen + array4.length := by
  have stop : ∀ (inLen : Int) (array4 out : Data), some (decodeRest array4) = some out → 0 ≤ inLen →
      (out.length : Int) ≤ inLen + array4.length := by
    intro inLen array4 out stopped nonneg
    obtain rfl := Option.some.inj stopped
    have short := decodeRest_length array4
    omega
  induction encoded generalizing inLen array4 out with
  | nil =>
    rw [decodeLoop, if_neg (by omega)] at run
    exact stop _ _ _ run nonneg
  | cons c rest ih =>
    unfold decodeLoop at run
    by_cases none : inLen = 0
    · rw [if_pos none] at run
      exact stop _ _ _ run nonneg
    rw [if_neg none, if_neg (by omega)] at run
    by_cases ends : c = 61 || !isBase64 c
    · rw [if_pos ends] at run
      exact stop _ _ _ run nonneg
    rw [if_neg ends] at run
    dsimp only at run
    have length : (array4 ++ [c]).length = array4.length + 1 := by simp
    by_cases full : (array4 ++ [c]).length = 4
    · rw [if_pos full] at run
      obtain ⟨out, later, rfl⟩ := Option.map_eq_some_iff.mp run
      have shorter := ih later (by omega) (by simp)
      rw [List.length_append]
      simp only [octets, List.length_cons, List.length_nil] at shorter ⊢
      omega
    · rw [if_neg full] at run
      have shorter := ih run (by omega) (by omega)
      omega

theorem length_base64 (s : Data) : (base64 s).length = 4 * ((s.length + 2) / 3) := length_encode _ _ _

/-- A size as an `int`. -/
theorem toInt_small {n : Nat} (small : n < 2 ^ 31) : Int.bmod n (2 ^ 32) = n := by
  rw [Int.bmod_def]
  omega

theorem toInt_large {n : Nat} (large : 2 ^ 31 ≤ n) (most : n < 2 ^ 32 + 2 ^ 31) : Int.bmod n (2 ^ 32) = n - 2 ^ 32 := by
  rw [Int.bmod_def]
  omega

theorem decode64_small {s : Data} (small : s.length ≤ 3 * (2 ^ 29 - 1)) : decode64 (base64 s) = some s := by
  have length := length_base64 s
  rw [decode64, toInt_small (by omega), decodeLoop_base64]

/-- A string whose base 64 has more characters than an `int` counts is not read back. -/
theorem decode64_large {s out : Data} (short : s.length < 2 ^ 32) (large : 3 * (2 ^ 29 - 1) < s.length)
    (run : decode64 (base64 s) = some out) : out.length < s.length := by
  have length := length_base64 s
  rw [decode64, toInt_large (by omega) (by omega)] at run
  by_cases overflow : (base64 s).length < 2 ^ 32
  · obtain ⟨letters, pads, split, few, all⟩ := encode_split spell 61 s
    have parts : (base64 s).length = letters.length + pads := by
      rw [base64, split, List.length_append, List.length_replicate]
    have none : ∀ inLen : Int, inLen = (base64 s).length - 2 ^ 32 → decodeLoop inLen [] (base64 s) = none := by
      intro inLen counted
      rw [base64, split]
      exact decodeLoop_overflows _ (by simp) all (by omega) (by omega) (by omega)
    rw [none _ rfl] at run
    cases run
  · have counted := decodeLoop_le run (by omega) (by simp)
    rw [List.length_nil] at counted
    omega

/-- `decode64` reads back what `encode64` writes for up to 3 * (2^29 - 1) bytes. -/
theorem decode64_encode64_iff (s : Data) : decode64 (encode64 s) = some s ↔ s.length ≤ 3 * (2 ^ 29 - 1) := by
  constructor
  · intro run
    by_contra large
    rw [encode64_take] at run
    have taken : (s.take (s.length % 2 ^ 32)).length = s.length % 2 ^ 32 := by
      rw [List.length_take]
      omega
    by_cases small : s.length % 2 ^ 32 ≤ 3 * (2 ^ 29 - 1)
    · rw [decode64_small (by omega)] at run
      have same := congrArg List.length (Option.some.inj run)
      omega
    · have less := decode64_large (by omega) (by omega) run
      omega
  · intro small
    rw [encode64_eq (by omega), decode64_small small]

end Auth

end Libcoin
