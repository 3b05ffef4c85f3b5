/-
`base_uint`: numbers of 128, 160 or 256 bits as arrays of 32-bit words.

* The operators are the loops of the source over the words `pn`, for any number of words.
* `toBitVec` is the number. `toBitVec_bijective`: arrays and numbers of that many bits correspond.
-/

import Libcoin.Library.Words
import Mathlib.Data.List.Induction

namespace Libcoin

open Words

/-- `base_uint<BITS>`, with `WIDTH` words, the lowest first. -/
structure BaseUint (width : Nat) where
  pn : List (BitVec 32)
  long : pn.length = width
  deriving DecidableEq

namespace BaseUint

variable {width : Nat}

section Source

/-- `isZero`. -/
def isZero (a : BaseUint width) : Bool := a.pn.all fun word => word == 0

/-- `operator~`. -/
def complement (a : BaseUint width) : BaseUint width :=
  ⟨a.pn.map (~~~·), by rw [List.length_map, a.long]⟩

/-- The loop of `operator++`: it goes on while a word has become zero. -/
def incrementLoop : List (BitVec 32) → List (BitVec 32)
  | [] => []
  | word :: words => if word + 1 = 0 then (word + 1) :: incrementLoop words else (word + 1) :: words

/-- The loop of `operator--`: it goes on while a word has become `-1`. -/
def decrementLoop : List (BitVec 32) → List (BitVec 32)
  | [] => []
  | word :: words => if word - 1 = -1 then (word - 1) :: decrementLoop words else (word - 1) :: words

/-- The loop of `operator+=`, with numbers of 64 bits. -/
def addLoop (carry : BitVec 64) : List (BitVec 32) → List (BitVec 32) → List (BitVec 32)
  | word :: words, other :: others =>
    let n := carry + word.setWidth 64 + other.setWidth 64
    (n &&& 0xffffffff).setWidth 32 :: addLoop (n >>> 32) words others
  | words, _ => words

theorem incrementLoop_length (words : List (BitVec 32)) : (incrementLoop words).length = words.length := by
  induction words with
  | nil => rfl
  | cons word words ih =>
    rw [incrementLoop]
    split
    · exact congrArg Nat.succ ih
    · rfl

theorem decrementLoop_length (words : List (BitVec 32)) : (decrementLoop words).length = words.length := by
  induction words with
  | nil => rfl
  | cons word words ih =>
    rw [decrementLoop]
    split
    · exact congrArg Nat.succ ih
    · rfl

theorem addLoop_length (carry : BitVec 64) (words others : List (BitVec 32)) :
    (addLoop carry words others).length = words.length := by
  induction words generalizing carry others with
  | nil => rfl
  | cons word words ih =>
    cases others with
    | nil => rfl
    | cons other others => exact congrArg Nat.succ (ih _ others)

/-- `operator++`. -/
def increment (a : BaseUint width) : BaseUint width :=
  ⟨incrementLoop a.pn, by rw [incrementLoop_length, a.long]⟩

/-- `operator--`. -/
def decrement (a : BaseUint width) : BaseUint width :=
  ⟨decrementLoop a.pn, by rw [decrementLoop_length, a.long]⟩

/-- `operator-` of one number. -/
def negate (a : BaseUint width) : BaseUint width := a.complement.increment

/-- `operator=` of a number of 64 bits. -/
def ofUInt64 (b : BitVec 64) : BaseUint (width + 2) :=
  ⟨b.setWidth 32 :: (b >>> 32).setWidth 32 :: List.replicate width 0, by simp⟩

/-- `operator+=`. -/
def add (a b : BaseUint width) : BaseUint width :=
  ⟨addLoop 0 a.pn b.pn, by rw [addLoop_length, a.long]⟩

/-- `operator-=`. -/
def sub (a b : BaseUint width) : BaseUint width := a.add b.negate

/-- `operator+=` of a number of 64 bits. -/
def add64 (a : BaseUint (width + 2)) (b64 : BitVec 64) : BaseUint (width + 2) := a.add (ofUInt64 b64)

/-- `operator-=` of a number of 64 bits. -/
def sub64 (a : BaseUint (width + 2)) (b64 : BitVec 64) : BaseUint (width + 2) := a.add (ofUInt64 b64).negate

/-- `operator^=`, `operator&=` and `operator|=`. -/
def bitwise (f : BitVec 32 → BitVec 32 → BitVec 32) (a b : BaseUint width) : BaseUint width :=
  ⟨a.pn.zipWith f b.pn, by rw [List.length_zipWith, a.long, b.long, Nat.min_self]⟩

def xor (a b : BaseUint width) : BaseUint width := bitwise (· ^^^ ·) a b

def and (a b : BaseUint width) : BaseUint width := bitwise (· &&& ·) a b

def or (a b : BaseUint width) : BaseUint width := bitwise (· ||| ·) a b

/-- `operator^=`, `operator&=` and `operator|=` of a number of 64 bits: the words above the second are left. -/
def bitwise64 (f : BitVec 32 → BitVec 32 → BitVec 32) (a : BaseUint (width + 2)) (b : BitVec 64) :
    BaseUint (width + 2) :=
  ⟨(a.pn.modify 0 (f · (b.setWidth 32))).modify 1 (f · ((b >>> 32).setWidth 32)), by
    rw [List.length_modify, List.length_modify, a.long]⟩

def xor64 (a : BaseUint (width + 2)) (b : BitVec 64) : BaseUint (width + 2) := bitwise64 (· ^^^ ·) a b

def and64 (a : BaseUint (width + 2)) (b : BitVec 64) : BaseUint (width + 2) := bitwise64 (· &&& ·) a b

def or64 (a : BaseUint (width + 2)) (b : BitVec 64) : BaseUint (width + 2) := bitwise64 (· ||| ·) a b

/-- One turn of the loop of `operator<<=`, by `k` words and `shift` bits. -/
def shiftLeftTurn (a : BaseUint width) (k shift : Nat) (pn : List (BitVec 32)) (i : Nat) : List (BitVec 32) :=
  let pn := if i + k + 1 < width ∧ shift ≠ 0 then pn.modify (i + k + 1) (· ||| a.pn.getD i 0 >>> (32 - shift)) else pn
  if i + k < width then pn.modify (i + k) (· ||| a.pn.getD i 0 <<< shift) else pn

/-- One turn of the loop of `operator>>=`. -/
def shiftRightTurn (a : BaseUint width) (k shift : Nat) (pn : List (BitVec 32)) (i : Nat) : List (BitVec 32) :=
  let pn := if k + 1 ≤ i ∧ shift ≠ 0 then pn.modify (i - k - 1) (· ||| a.pn.getD i 0 <<< (32 - shift)) else pn
  if k ≤ i then pn.modify (i - k) (· ||| a.pn.getD i 0 >>> shift) else pn

theorem shiftLeftTurn_length (a : BaseUint width) (k shift : Nat) (pn : List (BitVec 32)) (i : Nat) :
    (shiftLeftTurn a k shift pn i).length = pn.length := by
  unfold shiftLeftTurn
  dsimp only
  split_ifs <;> simp only [List.length_modify]

theorem shiftRightTurn_length (a : BaseUint width) (k shift : Nat) (pn : List (BitVec 32)) (i : Nat) :
    (shiftRightTurn a k shift pn i).length = pn.length := by
  unfold shiftRightTurn
  dsimp only
  split_ifs <;> simp only [List.length_modify]

theorem foldl_length {turn : List (BitVec 32) → Nat → List (BitVec 32)}
    (same : ∀ pn i, (turn pn i).length = pn.length) (indices : List Nat) (pn : List (BitVec 32)) :
    (indices.foldl turn pn).length = pn.length := by
  induction indices generalizing pn with
  | nil => rfl
  | cons i indices ih => exact (ih _).trans (same pn i)

/-- `operator<<=`. -/
def shiftLeft (a : BaseUint width) (shift : Nat) : BaseUint width :=
  ⟨(List.range width).foldl (a.shiftLeftTurn (shift / 32) (shift % 32)) (List.replicate width 0), by
    rw [foldl_length (a.shiftLeftTurn_length _ _), List.length_replicate]⟩

/-- `operator>>=`. -/
def shiftRight (a : BaseUint width) (shift : Nat) : BaseUint width :=
  ⟨(List.range width).foldl (a.shiftRightTurn (shift / 32) (shift % 32)) (List.replicate width 0), by
    rw [foldl_length (a.shiftRightTurn_length _ _), List.length_replicate]⟩

/-- The loops of the comparisons, from the highest word down: `whenEqual` is returned after the last word. -/
def compareLoop (below : BitVec 32 → BitVec 32 → Bool) (whenEqual : Bool) :
    List (BitVec 32) → List (BitVec 32) → Bool
  | word :: words, other :: others =>
    if below word other then true
    else if below other word then false
    else compareLoop below whenEqual words others
  | _, _ => whenEqual

/-- `operator<`. -/
def lt (a b : BaseUint width) : Bool := compareLoop (fun x y => x.ult y) false a.pn.reverse b.pn.reverse

/-- `operator<=`. -/
def le (a b : BaseUint width) : Bool := compareLoop (fun x y => x.ult y) true a.pn.reverse b.pn.reverse

/-- `operator>`. -/
def gt (a b : BaseUint width) : Bool := compareLoop (fun x y => y.ult x) false a.pn.reverse b.pn.reverse

/-- `operator>=`. -/
def ge (a b : BaseUint width) : Bool := compareLoop (fun x y => y.ult x) true a.pn.reverse b.pn.reverse

/-- `operator==`. -/
def eq (a b : BaseUint width) : Bool := (a.pn.zip b.pn).all fun words => words.1 == words.2

/-- `operator==` with a number of 64 bits. -/
def eq64 (a : BaseUint (width + 2)) (b : BitVec 64) : Bool :=
  if a.pn.getD 0 0 != b.setWidth 32 then false
  else if a.pn.getD 1 0 != (b >>> 32).setWidth 32 then false
  else (a.pn.drop 2).all fun word => word == 0

end Source

/-! ### The number -/

/-- The number that the words stand for. -/
def toBitVec (a : BaseUint width) : BitVec (32 * width) := BitVec.ofNat _ (value a.pn)

theorem value_lt_two_pow (a : BaseUint width) : value a.pn < 2 ^ (32 * width) := by
  have small := value_lt a.pn
  rwa [a.long] at small

@[simp] theorem toNat_toBitVec (a : BaseUint width) : a.toBitVec.toNat = value a.pn := by
  rw [toBitVec, BitVec.toNat_ofNat, Nat.mod_eq_of_lt a.value_lt_two_pow]

theorem toBitVec_injective : Function.Injective (toBitVec : BaseUint width → BitVec (32 * width)) := by
  intro a b same
  have words : a.pn = b.pn := by
    apply ext_value (a.long.trans b.long.symm)
    rw [← toNat_toBitVec, ← toNat_toBitVec, same]
  cases a
  cases b
  subst words
  rfl

/-- Arrays of words and numbers of that many bits correspond. -/
theorem toBitVec_bijective : Function.Bijective (toBitVec : BaseUint width → BitVec (32 * width)) := by
  refine ⟨toBitVec_injective, fun n => ⟨⟨ofValue 32 width n.toNat, ofValue_length _ _⟩, ?_⟩⟩
  apply BitVec.eq_of_toNat_eq
  rw [toNat_toBitVec]
  exact value_ofValue n.isLt

/-! ### Arithmetic -/

theorem addLoop_eq_ripple {carry : BitVec 64} (small : carry.toNat ≤ 1) {words others : List (BitVec 32)}
    (long : words.length = others.length) : addLoop carry words others = (ripple carry.toNat words others).1 := by
  induction words generalizing carry others with
  | nil => rw [List.eq_nil_of_length_eq_zero long.symm, addLoop.eq_def, ripple.eq_def]
  | cons word words ih =>
    cases others with
    | nil => cases long
    | cons other others =>
      have low := word.isLt
      have low' := other.isLt
      have sum : (carry + word.setWidth 64 + other.setWidth 64).toNat = carry.toNat + word.toNat + other.toNat := by
        simp only [BitVec.toNat_add, BitVec.toNat_setWidth]
        omega
      have next : ((carry + word.setWidth 64 + other.setWidth 64) >>> 32).toNat =
          (carry.toNat + word.toNat + other.toNat) / 2 ^ 32 := by
        rw [BitVec.toNat_ushiftRight, sum, Nat.shiftRight_eq_div_pow]
      rw [addLoop, ripple]
      dsimp only
      rw [ih (by rw [next]; omega) (Nat.succ.inj long), next]
      congr 1
      apply BitVec.eq_of_toNat_eq
      rw [BitVec.toNat_setWidth, BitVec.toNat_and, sum, BitVec.toNat_ofNat]
      exact (congrArg (· % 2 ^ 32) (Nat.and_two_pow_sub_one_eq_mod _ 32)).trans (Nat.mod_mod _ _)

theorem toBitVec_add (a b : BaseUint width) : (a.add b).toBitVec = a.toBitVec + b.toBitVec := by
  have long := a.long.trans b.long.symm
  have sum := value_ripple 0 long
  have small := value_lt (ripple 0 a.pn b.pn).1
  have loop : (a.add b).pn = (ripple 0 a.pn b.pn).1 := addLoop_eq_ripple (Nat.zero_le _) long
  rw [ripple_length 0 long, a.long] at small
  rw [a.long, Nat.zero_add] at sum
  apply BitVec.eq_of_toNat_eq
  rw [toNat_toBitVec, BitVec.toNat_add, toNat_toBitVec, toNat_toBitVec, loop, ← sum, Nat.add_mul_mod_self_left,
    Nat.mod_eq_of_lt small]

theorem toNat_add_one (word : BitVec 32) : (word + 1).toNat = (word.toNat + 1) % 2 ^ 32 := BitVec.toNat_add word 1

theorem value_incrementLoop (words : List (BitVec 32)) :
    value (incrementLoop words) = (value words + 1) % 2 ^ (32 * words.length) := by
  induction words with
  | nil => rfl
  | cons word words ih =>
    have low := word.isLt
    rw [incrementLoop]
    split
    · rename_i zero
      -- The word was full: the carry goes on to the next.
      have full : word.toNat + 1 = 2 ^ 32 := by
        have wrapped : (word.toNat + 1) % 2 ^ 32 = 0 := (toNat_add_one word).symm.trans (congrArg BitVec.toNat zero)
        omega
      rw [value_cons, zero, ih, two_pow_length_cons, ← Nat.mul_mod_mul_left, value_cons]
      have split : word.toNat + 2 ^ 32 * value words + 1 = 2 ^ 32 * (value words + 1) := by
        rw [Nat.mul_succ]
        omega
      rw [split]
      exact Nat.zero_add _
    · rename_i nonzero
      have room : word.toNat + 1 < 2 ^ 32 := by
        by_contra full
        have wrapped : (word.toNat + 1) % 2 ^ 32 = 0 := by omega
        exact nonzero (BitVec.eq_of_toNat_eq ((toNat_add_one word).trans wrapped))
      have next : (word + 1).toNat = word.toNat + 1 := (toNat_add_one word).trans (Nat.mod_eq_of_lt room)
      have small := value_lt ((word + 1) :: words)
      rw [value_cons, next] at small
      rw [value_cons, next, value_cons, Nat.add_right_comm word.toNat]
      rw [Nat.add_right_comm] at small
      exact (Nat.mod_eq_of_lt small).symm

theorem toBitVec_increment (a : BaseUint width) : a.increment.toBitVec = a.toBitVec + 1 := by
  apply BitVec.eq_of_toNat_eq
  rw [toNat_toBitVec, BitVec.toNat_add, toNat_toBitVec]
  refine (value_incrementLoop a.pn).trans ?_
  rw [a.long]
  cases width with
  | zero => simp [Nat.mod_one]
  | succ width =>
    have one : (1 : BitVec (32 * (width + 1))).toNat = 1 :=
      (BitVec.toNat_ofNat 1 _).trans (Nat.mod_eq_of_lt (Nat.one_lt_two_pow (by omega)))
    rw [one]

theorem incrementLoop_decrementLoop (words : List (BitVec 32)) : incrementLoop (decrementLoop words) = words := by
  induction words with
  | nil => rfl
  | cons word words ih =>
    rw [decrementLoop]
    split
    · rename_i borrow
      have zero : word - 1 + 1 = 0 := by rw [borrow]; rfl
      rw [incrementLoop, if_pos zero, ih, BitVec.sub_add_cancel]
    · rename_i enough
      have nonzero : word - 1 + 1 ≠ 0 := by
        intro zero
        refine enough ?_
        rw [BitVec.sub_add_cancel] at zero
        rw [zero]
        rfl
      rw [incrementLoop, if_neg nonzero, BitVec.sub_add_cancel]

theorem toBitVec_decrement (a : BaseUint width) : a.decrement.toBitVec = a.toBitVec - 1 := by
  have back : a.decrement.increment = a := by
    cases a
    simp only [increment, decrement, incrementLoop_decrementLoop]
  rw [← back, toBitVec_increment, back, BitVec.add_sub_cancel]

theorem toBitVec_complement (a : BaseUint width) : a.complement.toBitVec = ~~~a.toBitVec := by
  apply BitVec.eq_of_toNat_eq
  rw [toNat_toBitVec, BitVec.toNat_not, toNat_toBitVec]
  refine (value_not a.pn).trans ?_
  rw [a.long]

theorem toBitVec_negate (a : BaseUint width) : a.negate.toBitVec = -a.toBitVec := by
  rw [negate, toBitVec_increment, toBitVec_complement]
  exact (BitVec.neg_eq_not_add _).symm

theorem toBitVec_sub (a b : BaseUint width) : (a.sub b).toBitVec = a.toBitVec - b.toBitVec := by
  rw [sub, toBitVec_add, toBitVec_negate, BitVec.sub_eq_add_neg]

theorem toBitVec_ofUInt64 (b : BitVec 64) :
    (ofUInt64 b : BaseUint (width + 2)).toBitVec = b.setWidth (32 * (width + 2)) := by
  have small := b.isLt
  apply BitVec.eq_of_toNat_eq
  have parts : value (ofUInt64 b : BaseUint (width + 2)).pn = b.toNat := by
    rw [ofUInt64, value_cons, value_cons, value_replicate_zero, BitVec.toNat_setWidth, BitVec.toNat_setWidth,
      BitVec.toNat_ushiftRight, Nat.shiftRight_eq_div_pow]
    omega
  rw [toNat_toBitVec, BitVec.toNat_setWidth, parts, Nat.mod_eq_of_lt]
  exact small.trans_le (Nat.pow_le_pow_right Nat.two_pos (by omega))

/-! ### Comparisons -/

theorem compareLoop_eq (whenEqual : Bool) {first second : List (BitVec 32)} (long : first.length = second.length) :
    compareLoop (fun x y => x.ult y) whenEqual first.reverse second.reverse =
      (decide (value first < value second) || (whenEqual && decide (first = second))) := by
  induction first using List.reverseRecOn generalizing second with
  | nil => simp [List.eq_nil_of_length_eq_zero long.symm, compareLoop]
  | append_singleton low word ih =>
    rcases List.eq_nil_or_concat' second with rfl | ⟨low', word', rfl⟩
    · simp at long
    have long : low.length = low'.length := by simpa using long
    rw [List.reverse_append, List.reverse_append, List.reverse_singleton, List.reverse_singleton,
      List.singleton_append, List.singleton_append, compareLoop, ih long]
    simp only [BitVec.ult, decide_eq_true_eq, value_lt_iff long, BitVec.lt_def]
    have same_words : low ++ [word] = low' ++ [word'] ↔ low = low' ∧ word = word' := by
      rw [List.append_eq_append_iff_of_size_eq_left long]
      simp
    simp only [same_words]
    rcases lt_trichotomy word.toNat word'.toNat with less | same | more
    · simp [less]
    · obtain rfl := BitVec.eq_of_toNat_eq same
      simp
    · have apart : word ≠ word' := fun same => more.ne (congrArg BitVec.toNat same).symm
      simp [more, not_lt_of_gt more, apart]

/-- The comparisons with the words the other way round. -/
theorem compareLoop_swap (below : BitVec 32 → BitVec 32 → Bool) (whenEqual : Bool) (first second : List (BitVec 32)) :
    compareLoop (fun x y => below y x) whenEqual first second =
      compareLoop (fun x y => below x y) whenEqual second first := by
  induction first generalizing second with
  | nil => cases second <;> rfl
  | cons word first ih =>
    cases second with
    | nil => rfl
    | cons word' second =>
      rw [compareLoop, compareLoop, ih]

theorem lt_iff (a b : BaseUint width) : a.lt b = true ↔ a.toBitVec < b.toBitVec := by
  rw [lt, compareLoop_eq false (a.long.trans b.long.symm), BitVec.lt_def, toNat_toBitVec, toNat_toBitVec]
  simp

theorem le_iff (a b : BaseUint width) : a.le b = true ↔ a.toBitVec ≤ b.toBitVec := by
  have long := a.long.trans b.long.symm
  rw [le, compareLoop_eq true long, BitVec.le_def, toNat_toBitVec, toNat_toBitVec, Bool.true_and, Bool.or_eq_true,
    decide_eq_true_eq, decide_eq_true_eq, le_iff_lt_or_eq]
  exact or_congr_right ⟨congrArg value, ext_value long⟩

theorem gt_eq (a b : BaseUint width) : a.gt b = b.lt a := compareLoop_swap _ false _ _

theorem ge_eq (a b : BaseUint width) : a.ge b = b.le a := compareLoop_swap _ true _ _

theorem zip_all_iff {first second : List (BitVec 32)} (long : first.length = second.length) :
    ((first.zip second).all fun words => words.1 == words.2) = true ↔ first = second := by
  induction first generalizing second with
  | nil => simp [List.eq_nil_of_length_eq_zero long.symm]
  | cons word first ih =>
    cases second with
    | nil => cases long
    | cons word' second =>
      rw [List.zip_cons_cons, List.all_cons, Bool.and_eq_true, ih (Nat.succ.inj long), beq_iff_eq, List.cons.injEq]

theorem eq_iff (a b : BaseUint width) : a.eq b = true ↔ a.toBitVec = b.toBitVec := by
  have long := a.long.trans b.long.symm
  rw [eq, zip_all_iff long]
  refine ⟨fun same => ?_, fun same => ext_value long ?_⟩
  · rw [toBitVec, toBitVec, same]
  · rw [← toNat_toBitVec, ← toNat_toBitVec, same]

/-- Words that are all zero. -/
theorem all_zero_iff (words : List (BitVec 32)) :
    (words.all fun word => word == 0) = true ↔ words = List.replicate words.length 0 := by
  simp [List.eq_replicate_iff]

theorem isZero_iff (a : BaseUint width) : a.isZero = true ↔ a.toBitVec = 0 := by
  rw [isZero, all_zero_iff]
  constructor
  · intro zero
    rw [toBitVec, zero, value_replicate_zero]
    rfl
  · intro zero
    apply ext_value (List.length_replicate ..).symm
    rw [← toNat_toBitVec, zero, value_replicate_zero]
    rfl

theorem eq64_iff (a : BaseUint (width + 2)) (b : BitVec 64) :
    a.eq64 b = true ↔ a.toBitVec = b.setWidth (32 * (width + 2)) := by
  rw [← toBitVec_ofUInt64, toBitVec_injective.eq_iff]
  obtain ⟨pn, long⟩ := a
  obtain ⟨low, high, rest, rfl⟩ : ∃ low high rest, pn = low :: high :: rest := by
    match pn, long with
    | low :: high :: rest, _ => exact ⟨low, high, rest, rfl⟩
  have long : rest.length = width := by simpa using long
  subst long
  rw [eq64, List.getD_cons_zero, List.getD_cons_succ, List.getD_cons_zero, List.drop_succ_cons, List.drop_succ_cons,
    List.drop_zero, ofUInt64, BaseUint.mk.injEq, List.cons.injEq, List.cons.injEq, ← all_zero_iff]
  by_cases first : low = b.setWidth 32 <;> by_cases second : high = (b >>> 32).setWidth 32 <;> simp [first, second]

/-- **Arithmetic on the words is arithmetic on the numbers**, with what does not fit cut off. -/
theorem arithmetic_exact (a b : BaseUint width) (c : BaseUint (width + 2)) (n : BitVec 64) :
    (a.add b).toBitVec = a.toBitVec + b.toBitVec ∧
    (a.sub b).toBitVec = a.toBitVec - b.toBitVec ∧
    a.negate.toBitVec = -a.toBitVec ∧
    a.increment.toBitVec = a.toBitVec + 1 ∧
    a.decrement.toBitVec = a.toBitVec - 1 ∧
    (c.add64 n).toBitVec = c.toBitVec + n.setWidth (32 * (width + 2)) ∧
    (c.sub64 n).toBitVec = c.toBitVec - n.setWidth (32 * (width + 2)) ∧
    (a.isZero = true ↔ a.toBitVec = 0) ∧
    (a.eq b = true ↔ a.toBitVec = b.toBitVec) ∧
    (c.eq64 n = true ↔ c.toBitVec = n.setWidth (32 * (width + 2))) ∧
    (a.lt b = true ↔ a.toBitVec < b.toBitVec) ∧
    (a.le b = true ↔ a.toBitVec ≤ b.toBitVec) ∧
    (a.gt b = true ↔ b.toBitVec < a.toBitVec) ∧
    (a.ge b = true ↔ b.toBitVec ≤ a.toBitVec) := by
  refine ⟨toBitVec_add a b, toBitVec_sub a b, toBitVec_negate a, toBitVec_increment a, toBitVec_decrement a, ?_, ?_,
    isZero_iff a, eq_iff a b, eq64_iff c n, lt_iff a b, le_iff a b, ?_, ?_⟩
  · rw [add64, toBitVec_add, toBitVec_ofUInt64]
  · rw [sub64, toBitVec_add, toBitVec_negate, toBitVec_ofUInt64, BitVec.sub_eq_add_neg]
  · rw [gt_eq, lt_iff]
  · rw [ge_eq, le_iff]

/-! ### Bits -/

theorem getLsbD_toBitVec (a : BaseUint width) (p : Nat) :
    a.toBitVec.getLsbD p = (decide (p < 32 * width) && (value a.pn).testBit p) := BitVec.getLsbD_ofNat ..

theorem getLsbD_bitwise {f : BitVec 32 → BitVec 32 → BitVec 32} {g : Bool → Bool → Bool}
    (bits : ∀ x y b, b < 32 → (f x y).getLsbD b = g (x.getLsbD b) (y.getLsbD b)) (a b : BaseUint width) {p : Nat}
    (inside : p < 32 * width) : (bitwise f a b).toBitVec.getLsbD p = g (a.toBitVec.getLsbD p) (b.toBitVec.getLsbD p) := by
  have inside' : p < 32 * a.pn.length := a.long.symm ▸ inside
  simp only [getLsbD_toBitVec, inside, decide_true, Bool.true_and]
  exact testBit_value_zipWith (by decide) bits (a.long.trans b.long.symm) inside'

/-- The bits of one word shifted up. -/
theorem getLsbD_shiftLeft_of_lt (word : BitVec 32) (shift : Nat) {b : Nat} (small : b < 32) :
    (word <<< shift).getLsbD b = (decide (shift ≤ b) && word.getLsbD (b - shift)) := by
  rw [BitVec.getLsbD_shiftLeft, decide_eq_true small, Bool.true_and]
  by_cases above : shift ≤ b
  · simp only [above, not_lt_of_ge above, decide_true, decide_false, Bool.not_false]
  · simp only [above, lt_of_not_ge above, decide_true, decide_false, Bool.not_true, Bool.false_and]

/-- Some bits of a word are set by `or`. -/
theorem getLsbD_orAt (pn : List (BitVec 32)) (at_ : Nat) (word : BitVec 32) {j : Nat} (inside : j < pn.length)
    (b : Nat) :
    ((pn.modify at_ (· ||| word)).getD j 0).getLsbD b =
      ((pn.getD j 0).getLsbD b || (decide (at_ = j) && word.getLsbD b)) := by
  rw [List.getD_eq_getElem?_getD, List.getElem?_modify, List.getD_eq_getElem?_getD, List.getElem?_eq_getElem inside]
  by_cases same : at_ = j
  · simp [same]
  · simp [same]

/-- What the turns of a loop set is set in the end, when no turn changes the length. -/
theorem getLsbD_foldl {turn : List (BitVec 32) → Nat → List (BitVec 32)} {sets : Nat → Nat → Nat → Bool}
    (same : ∀ pn i, (turn pn i).length = pn.length)
    (step : ∀ pn i j b, pn.length = width → j < width → b < 32 →
      ((turn pn i).getD j 0).getLsbD b = ((pn.getD j 0).getLsbD b || sets i j b))
    (indices : List Nat) {pn : List (BitVec 32)} (long : pn.length = width) {j b : Nat} (inside : j < width)
    (small : b < 32) :
    ((indices.foldl turn pn).getD j 0).getLsbD b = ((pn.getD j 0).getLsbD b || indices.any fun i => sets i j b) := by
  induction indices generalizing pn with
  | nil => simp
  | cons i indices ih =>
    rw [List.foldl_cons, ih ((same pn i).trans long), step pn i j b long inside small, List.any_cons, Bool.or_assoc]

/-- The bits that one turn of `operator<<=` sets. -/
theorem getLsbD_shiftLeftTurn (a : BaseUint width) (k shift : Nat) (pn : List (BitVec 32)) (i j b : Nat)
    (long : pn.length = width) (inside : j < width) (small : b < 32) :
    ((a.shiftLeftTurn k shift pn i).getD j 0).getLsbD b =
      ((pn.getD j 0).getLsbD b ||
        (decide (i + k + 1 = j ∧ shift ≠ 0) && (a.pn.getD i 0).getLsbD (32 - shift + b) ||
          decide (i + k = j ∧ shift ≤ b) && (a.pn.getD i 0).getLsbD (b - shift))) := by
  have shifted := getLsbD_shiftLeft_of_lt (a.pn.getD i 0) shift small
  unfold shiftLeftTurn
  dsimp only
  have whole : j < (if i + k + 1 < width ∧ shift ≠ 0 then
      pn.modify (i + k + 1) (· ||| a.pn.getD i 0 >>> (32 - shift)) else pn).length := by
    split <;> simpa [long] using inside
  have high : ((if i + k + 1 < width ∧ shift ≠ 0 then
      pn.modify (i + k + 1) (· ||| a.pn.getD i 0 >>> (32 - shift)) else pn).getD j 0).getLsbD b =
        ((pn.getD j 0).getLsbD b ||
          (decide (i + k + 1 = j ∧ shift ≠ 0) && (a.pn.getD i 0).getLsbD (32 - shift + b))) := by
    split
    · rename_i guard
      rw [getLsbD_orAt _ _ _ (long ▸ inside), BitVec.getLsbD_ushiftRight]
      simp [guard.2]
    · rename_i guard
      have none : ¬(i + k + 1 = j ∧ shift ≠ 0) := fun both => guard ⟨both.1 ▸ inside, both.2⟩
      simp [none]
  split
  · rw [getLsbD_orAt _ _ _ whole, high, shifted]
    simp only [Bool.or_assoc, Bool.decide_and, Bool.and_assoc]
  · rename_i guard
    have none : i + k ≠ j := fun same => guard (same ▸ inside)
    rw [high]
    simp [none]

/-- The bits that one turn of `operator>>=` sets. -/
theorem getLsbD_shiftRightTurn (a : BaseUint width) {k shift : Nat} (part : shift < 32) (pn : List (BitVec 32))
    (i j b : Nat) (long : pn.length = width) (inside : j < width) (small : b < 32) :
    ((a.shiftRightTurn k shift pn i).getD j 0).getLsbD b =
      ((pn.getD j 0).getLsbD b ||
        (decide (i = j + k + 1 ∧ 32 - shift ≤ b) && (a.pn.getD i 0).getLsbD (b - (32 - shift)) ||
          decide (i = j + k) && (a.pn.getD i 0).getLsbD (shift + b))) := by
  have shifted := getLsbD_shiftLeft_of_lt (a.pn.getD i 0) (32 - shift) small
  unfold shiftRightTurn
  dsimp only
  have whole : j < (if k + 1 ≤ i ∧ shift ≠ 0 then
      pn.modify (i - k - 1) (· ||| a.pn.getD i 0 <<< (32 - shift)) else pn).length := by
    split <;> simpa [long] using inside
  have low : ((if k + 1 ≤ i ∧ shift ≠ 0 then
      pn.modify (i - k - 1) (· ||| a.pn.getD i 0 <<< (32 - shift)) else pn).getD j 0).getLsbD b =
        ((pn.getD j 0).getLsbD b || (decide (i = j + k + 1 ∧ 32 - shift ≤ b) &&
          (a.pn.getD i 0).getLsbD (b - (32 - shift)))) := by
    split
    · rename_i guard
      have here : i - k - 1 = j ↔ i = j + k + 1 := by omega
      rw [getLsbD_orAt _ _ _ (long ▸ inside), shifted, Bool.decide_and, Bool.and_assoc]
      simp only [here]
    · rename_i guard
      have none : ¬(i = j + k + 1 ∧ 32 - shift ≤ b) := by omega
      rw [decide_eq_false none, Bool.false_and, Bool.or_false]
  split
  · rename_i guard
    have here : i - k = j ↔ i = j + k := by omega
    rw [getLsbD_orAt _ _ _ whole, low, BitVec.getLsbD_ushiftRight, Bool.or_assoc]
    simp only [here]
  · rename_i guard
    have none : i ≠ j + k := by omega
    rw [low]
    simp [none]

theorem toBitVec_shiftLeft (a : BaseUint width) (shift : Nat) :
    (a.shiftLeft shift).toBitVec = a.toBitVec <<< shift := by
  apply BitVec.eq_of_getLsbD_eq
  intro p inside
  have word : p / 32 < width := Nat.div_lt_of_lt_mul inside
  have split := Nat.div_add_mod shift 32
  rw [BitVec.getLsbD_shiftLeft, getLsbD_toBitVec, getLsbD_toBitVec, testBit_value (by decide), testBit_value (by decide),
    shiftLeft, getLsbD_foldl (a.shiftLeftTurn_length _ _) (a.getLsbD_shiftLeftTurn _ _) _ List.length_replicate word
      (Nat.mod_lt p (by decide))]
  have empty : ((List.replicate width (0 : BitVec 32)).getD (p / 32) 0).getLsbD (p % 32) = false := by
    simp [List.getD_eq_getElem?_getD, word]
  rw [empty, Bool.false_or, Bool.eq_iff_iff]
  simp only [inside, decide_true, Bool.true_and, List.any_eq_true, List.mem_range, Bool.or_eq_true, Bool.and_eq_true,
    decide_eq_true_eq, Bool.not_eq_true', decide_eq_false_iff_not]
  constructor
  · rintro ⟨i, there, ⟨⟨place, -⟩, set⟩ | ⟨⟨place, fits⟩, set⟩⟩
    · -- The bit comes from the word below.
      have high := BitVec.lt_of_getLsbD set
      have quotient : (p - shift) / 32 = i := by omega
      have remainder : (p - shift) % 32 = 32 - shift % 32 + p % 32 := by omega
      exact ⟨by omega, by omega, by rwa [quotient, remainder]⟩
    · have quotient : (p - shift) / 32 = i := by omega
      have remainder : (p - shift) % 32 = p % 32 - shift % 32 := by omega
      exact ⟨by omega, by omega, by rwa [quotient, remainder]⟩
  · rintro ⟨above, -, set⟩
    refine ⟨(p - shift) / 32, by omega, ?_⟩
    by_cases low : p % 32 < shift % 32
    · have remainder : 32 - shift % 32 + p % 32 = (p - shift) % 32 := by omega
      exact .inl ⟨⟨by omega, by omega⟩, by rwa [remainder]⟩
    · have remainder : p % 32 - shift % 32 = (p - shift) % 32 := by omega
      exact .inr ⟨⟨by omega, by omega⟩, by rwa [remainder]⟩

theorem toBitVec_shiftRight (a : BaseUint width) (shift : Nat) :
    (a.shiftRight shift).toBitVec = a.toBitVec >>> shift := by
  apply BitVec.eq_of_getLsbD_eq
  intro p inside
  have word : p / 32 < width := Nat.div_lt_of_lt_mul inside
  have split := Nat.div_add_mod shift 32
  have part : shift % 32 < 32 := Nat.mod_lt _ (by decide)
  rw [BitVec.getLsbD_ushiftRight, getLsbD_toBitVec, getLsbD_toBitVec, testBit_value (by decide),
    testBit_value (by decide), shiftRight, getLsbD_foldl (a.shiftRightTurn_length _ _) (a.getLsbD_shiftRightTurn part) _
      List.length_replicate word (Nat.mod_lt p (by decide))]
  have empty : ((List.replicate width (0 : BitVec 32)).getD (p / 32) 0).getLsbD (p % 32) = false := by
    simp [List.getD_eq_getElem?_getD, word]
  rw [empty, Bool.false_or, Bool.eq_iff_iff]
  simp only [inside, decide_true, Bool.true_and, List.any_eq_true, List.mem_range, Bool.or_eq_true, Bool.and_eq_true,
    decide_eq_true_eq]
  constructor
  · rintro ⟨i, there, ⟨⟨place, fits⟩, set⟩ | ⟨place, set⟩⟩
    · -- The bit comes from the word above.
      have quotient : (shift + p) / 32 = i := by omega
      have remainder : (shift + p) % 32 = p % 32 - (32 - shift % 32) := by omega
      exact ⟨by omega, by rwa [quotient, remainder]⟩
    · have high := BitVec.lt_of_getLsbD set
      have quotient : (shift + p) / 32 = i := by omega
      have remainder : (shift + p) % 32 = shift % 32 + p % 32 := by omega
      exact ⟨by omega, by rwa [quotient, remainder]⟩
  · rintro ⟨below, set⟩
    refine ⟨(shift + p) / 32, by omega, ?_⟩
    by_cases carried : 32 ≤ shift % 32 + p % 32
    · have remainder : p % 32 - (32 - shift % 32) = (shift + p) % 32 := by omega
      exact .inl ⟨⟨by omega, by omega⟩, by rwa [remainder]⟩
    · have remainder : shift % 32 + p % 32 = (shift + p) % 32 := by omega
      exact .inr ⟨by omega, by rwa [remainder]⟩

theorem toBitVec_xor (a b : BaseUint width) : (a.xor b).toBitVec = a.toBitVec ^^^ b.toBitVec := by
  apply BitVec.eq_of_getLsbD_eq
  intro p inside
  rw [BitVec.getLsbD_xor]
  exact getLsbD_bitwise (fun _ _ _ _ => BitVec.getLsbD_xor ..) a b inside

theorem toBitVec_and (a b : BaseUint width) : (a.and b).toBitVec = a.toBitVec &&& b.toBitVec := by
  apply BitVec.eq_of_getLsbD_eq
  intro p inside
  rw [BitVec.getLsbD_and]
  exact getLsbD_bitwise (fun _ _ _ _ => BitVec.getLsbD_and ..) a b inside

theorem toBitVec_or (a b : BaseUint width) : (a.or b).toBitVec = a.toBitVec ||| b.toBitVec := by
  apply BitVec.eq_of_getLsbD_eq
  intro p inside
  rw [BitVec.getLsbD_or]
  exact getLsbD_bitwise (fun _ _ _ _ => BitVec.getLsbD_or ..) a b inside

theorem zipWith_fill {f : BitVec 32 → BitVec 32 → BitVec 32} {fill : BitVec 32} (fixed : ∀ word, f word fill = word)
    (words : List (BitVec 32)) : words.zipWith f (List.replicate words.length fill) = words := by
  induction words with
  | nil => rfl
  | cons word words ih => rw [List.length_cons, List.replicate_succ, List.zipWith_cons_cons, fixed, ih]

/-- A number of 64 bits as words, with words above it that change nothing. -/
theorem bitwise64_eq {f : BitVec 32 → BitVec 32 → BitVec 32} {fill : BitVec 32} (fixed : ∀ word, f word fill = word)
    (a : BaseUint (width + 2)) {n : BitVec 64} {b : BaseUint (width + 2)}
    (words : b.pn = n.setWidth 32 :: (n >>> 32).setWidth 32 :: List.replicate width fill) :
    bitwise64 f a n = bitwise f a b := by
  obtain ⟨pn, long⟩ := a
  obtain ⟨low, high, rest, rfl⟩ : ∃ low high rest, pn = low :: high :: rest := by
    match pn, long with
    | low :: high :: rest, _ => exact ⟨low, high, rest, rfl⟩
  have long : rest.length = width := by simpa using long
  simp only [bitwise64, bitwise, words, List.zipWith_cons_cons, ← long, zipWith_fill fixed]
  rfl

theorem toBitVec_and64 (a : BaseUint (width + 2)) (n : BitVec 64) :
    (a.and64 n).toBitVec = a.toBitVec &&& (n.setWidth _ ||| ~~~((BitVec.allOnes 64).setWidth _)) := by
  have filled : ((ofUInt64 n : BaseUint (width + 2)).or (ofUInt64 (BitVec.allOnes 64)).complement).pn =
      n.setWidth 32 :: (n >>> 32).setWidth 32 :: List.replicate width (BitVec.allOnes 32) := by
    simp [or, bitwise, ofUInt64, complement]
  rw [and64, bitwise64_eq (fun word => BitVec.and_allOnes) a filled, ← and, toBitVec_and, toBitVec_or,
    toBitVec_complement, toBitVec_ofUInt64, toBitVec_ofUInt64]

/-- **Bits of the words are bits of the numbers**: the shifts carry over from word to word, by any amount. With a number
of 64 bits, `operator&=` leaves the words above it as they are. -/
theorem bits_exact (a b : BaseUint width) (c : BaseUint (width + 2)) (n : BitVec 64) (shift : Nat) :
    a.complement.toBitVec = ~~~a.toBitVec ∧
    (a.xor b).toBitVec = a.toBitVec ^^^ b.toBitVec ∧
    (a.and b).toBitVec = a.toBitVec &&& b.toBitVec ∧
    (a.or b).toBitVec = a.toBitVec ||| b.toBitVec ∧
    (c.xor64 n).toBitVec = c.toBitVec ^^^ n.setWidth (32 * (width + 2)) ∧
    (c.and64 n).toBitVec = c.toBitVec &&& (n.setWidth (32 * (width + 2)) ||| ~~~((BitVec.allOnes 64).setWidth _)) ∧
    (c.or64 n).toBitVec = c.toBitVec ||| n.setWidth (32 * (width + 2)) ∧
    (a.shiftLeft shift).toBitVec = a.toBitVec <<< shift ∧
    (a.shiftRight shift).toBitVec = a.toBitVec >>> shift := by
  refine ⟨toBitVec_complement a, toBitVec_xor a b, toBitVec_and a b, toBitVec_or a b, ?_, toBitVec_and64 c n, ?_,
    toBitVec_shiftLeft a shift, toBitVec_shiftRight a shift⟩
  · rw [xor64, bitwise64_eq (b := ofUInt64 n) (fun _ => BitVec.xor_zero) c rfl, ← xor, toBitVec_xor, toBitVec_ofUInt64]
  · rw [or64, bitwise64_eq (b := ofUInt64 n) (fun _ => BitVec.or_zero) c rfl, ← or, toBitVec_or, toBitVec_ofUInt64]

end BaseUint

end Libcoin
