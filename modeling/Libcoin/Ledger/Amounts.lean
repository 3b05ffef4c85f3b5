/-
Amounts as text: `DecimalFormatter`.

* `format` writes an amount with a point, and `parse` reads one. The two parts around the point are read by
  `lexical_cast`, each with a sign of its own if it has one, and the second one is cut to its length before.
* `Checked` is an `int64_t` that remembers whether it is exact.
* `Reads` is what a decimal number means. `amounts_exact_iff`: what is written is read back, and what is accepted is
  such a number unless there is a sign too many, or no digit behind the cut, or the number is too large.
-/

import Libcoin.Ledger.Types
import Libcoin.Library.Decimal
import Mathlib.Data.List.TakeWhile

namespace Libcoin

open Decimal

/-- An `int64_t`, and whether no operation that made it has overflowed. -/
structure Checked where
  value : Int
  exact : Bool
  deriving DecidableEq, Repr

/-- The result of an operation on numbers that were exact, or not. -/
def Checked.of (result : Int) (exact : Bool) : Checked :=
  { value := wrap64 result, exact := exact && decide (IsInt64 result) }

/-- `lexical_cast<std::string>` of an `int64_t`. -/
def lexicalCastString (n : Int) : List Char := if n < 0 then '-' :: Nat.toDigits 10 n.natAbs else Nat.toDigits 10 n.natAbs

/-- Whether the text starts with a sign. -/
def hasSign (s : List Char) : Bool := s.head? = some '-' || s.head? = some '+'

/-- `lexical_cast<int64_t>`, which throws if the text is not a sign and digits, or the number does not fit. -/
def lexicalCastInt64 (s : List Char) : Option Int :=
  let digits := if hasSign s then s.tail else s
  let n : Int := if s.head? = some '-' then -(value digits : Int) else value digits
  if digits = [] ∨ ¬AllDigits digits ∨ ¬IsInt64 n then none else some n

/-- `power`, where the numbers are of the type `int`. -/
def power (m : Int) : Nat → Int
  | 0 => 1
  | e + 1 => (power m e * m).bmod (2 ^ 32)

namespace DecimalFormatter

/-- `operator()(int64_t)`. -/
def format (decimals : Nat) (subunit : Int) : List Char :=
  let negative := decide (subunit < 0)
  let subunit := if negative then wrap64 (-subunit) else subunit
  let str := lexicalCastString subunit
  let str := if str.length < 1 + decimals then List.replicate (1 + decimals - str.length) '0' ++ str else str
  let str := str.take (str.length - decimals) ++ '.' :: str.drop (str.length - decimals)
  if negative then '-' :: str else str

/-- What comes after the first point. -/
def afterPoint (str : List Char) : List Char := (str.dropWhile fun c => decide (c ≠ '.')).tail

/-- `operator()(std::string)` after its sign. -/
def parseUnsigned (decimals : Nat) (str : List Char) : Option Checked := do
  let whole ← lexicalCastInt64 (str.takeWhile fun c => decide (c ≠ '.'))
  let subunit := Checked.of (power 10 decimals * whole) true
  if '.' ∈ str then do
    let fraction ← lexicalCastInt64 (cut decimals (afterPoint str))
    pure (Checked.of (subunit.value + fraction) subunit.exact)
  else pure subunit

/-- `operator()(std::string)`. It throws where there is no result. -/
def parse (decimals : Nat) (str : List Char) : Option Checked :=
  if str.head? = some '-' then
    (parseUnsigned decimals str.tail).map fun subunit => Checked.of (-subunit.value) subunit.exact
  else parseUnsigned decimals str

end DecimalFormatter

/-! ### Decimal numbers -/

/-- A decimal number: a minus sign or none, digits, and perhaps a point and digits. The amount is the number times the
power of ten, cut off. -/
def Reads (decimals : Nat) (str : List Char) (amount : Int) : Prop :=
  ∃ (negative : Bool) (whole point fraction : List Char),
    str = (if negative then ['-'] else []) ++ (whole ++ point) ∧ whole ≠ [] ∧ AllDigits whole ∧ AllDigits fraction ∧
      (point = [] ∧ fraction = [] ∨ point = '.' :: fraction) ∧
      amount = (if negative then -1 else 1) *
        (value (whole ++ fraction) * 10 ^ decimals / 10 ^ fraction.length : Nat)

/-- What follows the minus sign. -/
def afterSign (str : List Char) : List Char := if str.head? = some '-' then str.tail else str

/-- Neither part has a sign, there are only digits behind the cut, and the amount fits into an `int64_t`. -/
def Plain (decimals : Nat) (str : List Char) : Prop :=
  let body := afterSign str
  hasSign body = false ∧ hasSign (DecimalFormatter.afterPoint body) = false ∧
    AllDigits ((DecimalFormatter.afterPoint body).drop decimals) ∧
    value (body.takeWhile fun c => decide (c ≠ '.')) * 10 ^ decimals +
      value (cut decimals (DecimalFormatter.afterPoint body)) < 2 ^ 63

instance (decimals : Nat) (str : List Char) : Decidable (Plain decimals str) := inferInstanceAs (Decidable (_ ∧ _))

/-! ### Numbers that are read -/

theorem Checked.of_int64 {n : Int} (fits : IsInt64 n) (exact : Bool) : Checked.of n exact = ⟨n, exact⟩ := by
  unfold Checked.of
  rw [wrap64_of_range fits.1 fits.2, decide_eq_true fits, Bool.and_true]

theorem Checked.of_exact {n : Int} {exact : Bool} (fine : (Checked.of n exact).exact = true) :
    exact = true ∧ IsInt64 n := by
  unfold Checked.of at fine
  simpa using fine

theorem power_usual {decimals : Nat} (usual : decimals = 6 ∨ decimals = 8) : power 10 decimals = 10 ^ decimals := by
  rcases usual with rfl | rfl <;> decide

/-- A digit is neither a sign nor a point. -/
theorem digit_plain {c : Char} (digit : c.isDigit = true) : c ≠ '-' ∧ c ≠ '+' ∧ c ≠ '.' := by
  refine ⟨?_, ?_, ?_⟩ <;>
    · rintro rfl
      revert digit
      decide

theorem hasSign_of_digits {text : List Char} (digits : AllDigits text) : hasSign text = false := by
  cases text with
  | nil => decide
  | cons c text =>
    obtain ⟨minus, plus, -⟩ := digit_plain (digits c List.mem_cons_self)
    simp [hasSign, minus, plus]

theorem lexicalCast_plain {text : List Char} (plain : hasSign text = false) :
    lexicalCastInt64 text =
      if text = [] ∨ ¬AllDigits text ∨ ¬IsInt64 (value text) then none else some (value text : Int) := by
  have minus : ¬text.head? = some '-' := by
    intro head
    rw [hasSign, head] at plain
    cases plain
  unfold lexicalCastInt64
  dsimp only
  rw [plain, if_neg Bool.false_ne_true, if_neg minus]

theorem lexicalCast_digits {text : List Char} (digits : AllDigits text) (nonempty : text ≠ [])
    (fits : value text < 2 ^ 63) : lexicalCastInt64 text = some (value text : Int) := by
  have int64 : IsInt64 (value text : Int) := ⟨by omega, by exact_mod_cast fits⟩
  rw [lexicalCast_plain (hasSign_of_digits digits), if_neg]
  simp [nonempty, digits, int64]

/-- What is read without a sign is digits. -/
theorem digits_of_lexicalCast {text : List Char} {n : Int} (plain : hasSign text = false)
    (read : lexicalCastInt64 text = some n) : text ≠ [] ∧ AllDigits text ∧ n = value text := by
  rw [lexicalCast_plain plain] at read
  split at read
  · cases read
  · rename_i good
    rw [not_or, not_or, not_not] at good
    cases read
    exact ⟨good.1, good.2.1, rfl⟩

namespace DecimalFormatter

/-! ### The parts of a number -/

section Parts

variable {whole point fraction : List Char} (digits : AllDigits whole)
  (points : point = [] ∧ fraction = [] ∨ point = '.' :: fraction)

include digits points

theorem takeWhile_parts : (whole ++ point).takeWhile (fun c => decide (c ≠ '.')) = whole := by
  have before : ∀ c ∈ whole, decide (c ≠ '.') = true := fun c member => decide_eq_true (digit_plain (digits c member)).2.2
  rw [List.takeWhile_append_of_pos before]
  rcases points with ⟨rfl, -⟩ | rfl <;> simp

theorem afterPoint_parts : afterPoint (whole ++ point) = fraction := by
  have before : ∀ c ∈ whole, decide (c ≠ '.') = true := fun c member => decide_eq_true (digit_plain (digits c member)).2.2
  unfold afterPoint
  rw [List.dropWhile_append_of_pos before]
  rcases points with ⟨rfl, rfl⟩ | rfl <;> simp

theorem point_mem_parts : '.' ∈ whole ++ point ↔ point ≠ [] := by
  have absent : '.' ∉ whole := fun member => (digit_plain (digits '.' member)).2.2 rfl
  rw [List.mem_append, or_iff_right absent]
  rcases points with ⟨rfl, -⟩ | rfl <;> simp

/-- The number that the parts are read as, when both are digits and it fits. -/
theorem parseUnsigned_parts {decimals : Nat} (scale : power 10 decimals = 10 ^ decimals) (nonempty : whole ≠ [])
    (after : AllDigits fraction) (positive : 0 < decimals)
    (fits : value whole * 10 ^ decimals + value (cut decimals fraction) < 2 ^ 63) :
    parseUnsigned decimals (whole ++ point) =
      some ⟨(value whole * 10 ^ decimals + value (cut decimals fraction) : Nat), true⟩ := by
  have one : 1 ≤ 10 ^ decimals := Nat.one_le_pow _ _ (by decide)
  have small : value whole < 2 ^ 63 := by nlinarith
  have product : IsInt64 (10 ^ decimals * (value whole : Int)) := by
    have cast : (10 ^ decimals * (value whole : Int)) = (value whole * 10 ^ decimals : Nat) := by
      push_cast
      ring
    rw [cast]
    exact ⟨by omega, by omega⟩
  unfold parseUnsigned
  rw [takeWhile_parts digits points, afterPoint_parts digits points, lexicalCast_digits digits nonempty small,
    Option.bind_eq_bind, Option.bind_some, scale, Checked.of_int64 product]
  by_cases pointed : point = []
  · have fraction_eq : fraction = [] := by
      rcases points with ⟨-, none⟩ | other
      · exact none
      · rw [other] at pointed
        cases pointed
    rw [if_neg ((point_mem_parts digits points).not.mpr (not_not.mpr pointed)), fraction_eq, cut, List.nil_append,
      List.take_of_length_le (List.length_replicate ..).le, value_zeros, Nat.add_zero]
    push_cast
    rw [mul_comm]
    rfl
  · have cutDigits : AllDigits (cut decimals fraction) :=
      fun c member => allDigits_append.mpr ⟨after, allDigits_zeros decimals⟩ c (List.mem_of_mem_take member)
    have filled : cut decimals fraction ≠ [] := by
      rw [← List.length_pos_iff, length_cut]
      exact positive
    have sum : (10 ^ decimals * (value whole : Int)) + value (cut decimals fraction) =
        (value whole * 10 ^ decimals + value (cut decimals fraction) : Nat) := by
      push_cast
      ring
    rw [if_pos ((point_mem_parts digits points).mpr pointed),
      lexicalCast_digits cutDigits filled (by omega), Option.bind_some, sum,
      Checked.of_int64 ⟨by omega, by omega⟩]
    rfl

/-- The number with its sign. -/
theorem parse_parts {decimals : Nat} (scale : power 10 decimals = 10 ^ decimals) (nonempty : whole ≠ [])
    (after : AllDigits fraction) (positive : 0 < decimals)
    (fits : value whole * 10 ^ decimals + value (cut decimals fraction) < 2 ^ 63) (negative : Bool) :
    parse decimals ((if negative then ['-'] else []) ++ (whole ++ point)) =
      some ⟨(if negative then -1 else 1) * (value whole * 10 ^ decimals + value (cut decimals fraction) : Nat), true⟩ := by
  have read := parseUnsigned_parts digits points scale nonempty after positive fits
  cases negative with
  | true =>
    have minus : IsInt64 (-(value whole * 10 ^ decimals + value (cut decimals fraction) : Nat)) := ⟨by omega, by omega⟩
    show (parseUnsigned decimals (whole ++ point)).map _ = _
    rw [read, Option.map_some, Checked.of_int64 minus]
    simp
  | false =>
    have plain : ¬(whole ++ point).head? = some '-' := by
      obtain ⟨c, rest, rfl⟩ := List.exists_cons_of_ne_nil nonempty
      have digit := digit_plain (digits c List.mem_cons_self)
      simpa using digit.1
    unfold parse
    rw [if_neg Bool.false_ne_true, List.nil_append, if_neg plain, read]
    simp

omit points in
/-- What follows the sign. -/
theorem afterSign_parts (nonempty : whole ≠ []) (negative : Bool) :
    afterSign ((if negative then ['-'] else []) ++ (whole ++ point)) = whole ++ point := by
  cases negative with
  | true => rfl
  | false =>
    obtain ⟨c, rest, rfl⟩ := List.exists_cons_of_ne_nil nonempty
    have digit := digit_plain (digits c List.mem_cons_self)
    simp [afterSign, digit.1]

end Parts

/-! ### Writing and reading -/

/-- The text of an amount: its digits, of which there is at least one in front of the point. -/
theorem format_eq (decimals : Nat) {a : Int} (low : -2 ^ 63 < a) (high : a < 2 ^ 63) :
    format decimals a = (if decide (a < 0) then ['-'] else []) ++
      ((padded (1 + decimals) a.natAbs).take ((padded (1 + decimals) a.natAbs).length - decimals) ++
        '.' :: (padded (1 + decimals) a.natAbs).drop ((padded (1 + decimals) a.natAbs).length - decimals)) := by
  have magnitude : (if a < 0 then wrap64 (-a) else a) = (a.natAbs : Int) := by
    split
    · rw [wrap64_of_range (by omega) (by omega)]
      omega
    · omega
  have written : lexicalCastString (a.natAbs : Int) = Nat.toDigits 10 a.natAbs := by
    unfold lexicalCastString
    rw [if_neg (by omega), Int.natAbs_natCast]
  have filled (str : List Char) : (if str.length < 1 + decimals then
      List.replicate (1 + decimals - str.length) '0' ++ str else str) =
        List.replicate (1 + decimals - str.length) '0' ++ str := by
    split
    · rfl
    · rw [Nat.sub_eq_zero_of_le (by omega), List.replicate_zero, List.nil_append]
  unfold format
  simp only [decide_eq_true_eq, magnitude, written, filled]
  unfold padded
  split <;> rfl

/-- An amount is read back. -/
theorem parse_format {decimals : Nat} (scale : power 10 decimals = 10 ^ decimals) (positive : 0 < decimals) {a : Int}
    (low : -2 ^ 63 < a) (high : a < 2 ^ 63) : parse decimals (format decimals a) = some ⟨a, true⟩ := by
  have digits := allDigits_padded (1 + decimals) a.natAbs
  have length := le_length_padded (1 + decimals) a.natAbs
  have same := value_padded (1 + decimals) a.natAbs
  rw [format_eq decimals low high]
  generalize padded (1 + decimals) a.natAbs = text at digits length same ⊢
  have split := List.take_append_drop (text.length - decimals) text
  rw [← split, allDigits_append] at digits
  have kept : (text.drop (text.length - decimals)).length = decimals := by
    rw [List.length_drop]
    omega
  have amount : value (text.take (text.length - decimals)) * 10 ^ decimals +
      value (cut decimals (text.drop (text.length - decimals))) = a.natAbs := by
    rw [cut_of_length kept, ← same]
    conv_rhs => rw [← split, value_append, kept]
  have nonempty : text.take (text.length - decimals) ≠ [] := by
    rw [← List.length_pos_iff, List.length_take]
    omega
  rw [parse_parts digits.1 (.inr rfl) scale nonempty digits.2 positive (by omega), amount]
  congr 2
  by_cases negative : a < 0
  · simp [negative, abs_of_neg]
  · simp [negative, abs_of_nonneg (not_lt.mp negative)]

/-! ### What is accepted -/

variable {decimals : Nat} (scale : power 10 decimals = 10 ^ decimals)

include scale

/-- A number whose reading did not overflow is small. -/
theorem small_of_exact {whole point fraction : List Char} (digits : AllDigits whole) (after : AllDigits fraction)
    (points : point = [] ∧ fraction = [] ∨ point = '.' :: fraction) {subunit : Checked}
    (accepted : parseUnsigned decimals (whole ++ point) = some subunit) (exact : subunit.exact = true) :
    value whole * 10 ^ decimals + value (cut decimals fraction) < 2 ^ 63 := by
  unfold parseUnsigned at accepted
  rw [takeWhile_parts digits points, afterPoint_parts digits points, Option.bind_eq_bind, Option.bind_eq_some_iff] at accepted
  obtain ⟨w, read, accepted⟩ := accepted
  obtain ⟨-, -, rfl⟩ := digits_of_lexicalCast (hasSign_of_digits digits) read
  dsimp only at accepted
  rw [scale] at accepted
  have product : (10 ^ decimals * (value whole : Int)) = (value whole * 10 ^ decimals : Nat) := by
    push_cast
    ring
  by_cases pointed : point = []
  · rw [if_neg ((point_mem_parts digits points).not.mpr (not_not.mpr pointed)), Option.pure_def, Option.some.injEq]
      at accepted
    subst accepted
    obtain ⟨-, -, high⟩ := Checked.of_exact exact
    have fraction_eq : fraction = [] := by
      rcases points with ⟨-, none⟩ | other
      · exact none
      · rw [other] at pointed
        cases pointed
    rw [fraction_eq, cut, List.nil_append, List.take_of_length_le (List.length_replicate ..).le, value_zeros,
      Nat.add_zero]
    rw [product] at high
    exact_mod_cast high
  · rw [if_pos ((point_mem_parts digits points).mpr pointed), Option.bind_eq_some_iff] at accepted
    obtain ⟨f, read, accepted⟩ := accepted
    have cutDigits : AllDigits (cut decimals fraction) :=
      fun c member => allDigits_append.mpr ⟨after, allDigits_zeros decimals⟩ c (List.mem_of_mem_take member)
    obtain ⟨-, -, rfl⟩ := digits_of_lexicalCast (hasSign_of_digits cutDigits) read
    rw [Option.pure_def, Option.some.injEq] at accepted
    subst accepted
    obtain ⟨before, -, high⟩ := Checked.of_exact exact
    rw [Checked.of_int64 (Checked.of_exact before).2, product] at high
    dsimp only at high
    exact_mod_cast high

omit scale in
theorem parse_eq (str : List Char) :
    parse decimals str = (parseUnsigned decimals (afterSign str)).map fun subunit =>
      if str.head? = some '-' then Checked.of (-subunit.value) subunit.exact else subunit := by
  unfold parse afterSign
  split
  · rfl
  · exact Option.map_id'.symm

theorem plain_of_reads {str : List Char} {amount : Checked} (accepted : parse decimals str = some amount)
    (exact : amount.exact = true) (reads : Reads decimals str amount.value) : Plain decimals str := by
  obtain ⟨negative, whole, point, fraction, rfl, nonempty, digits, after, points, -⟩ := reads
  rw [parse_eq, afterSign_parts digits nonempty, Option.map_eq_some_iff] at accepted
  obtain ⟨subunit, read, rfl⟩ := accepted
  have before : subunit.exact = true := by
    by_cases minus : ((if negative then ['-'] else []) ++ (whole ++ point) : List Char).head? = some '-'
    · rw [if_pos minus] at exact
      exact (Checked.of_exact exact).1
    · rwa [if_neg minus] at exact
  unfold Plain
  dsimp only
  rw [afterSign_parts digits nonempty, afterPoint_parts digits points, takeWhile_parts digits points]
  refine ⟨?_, hasSign_of_digits after, fun c member => after c (List.mem_of_mem_drop member),
    small_of_exact scale digits after points read before⟩
  obtain ⟨c, rest, rfl⟩ := List.exists_cons_of_ne_nil nonempty
  obtain ⟨minus, plus, -⟩ := digit_plain (digits c List.mem_cons_self)
  simp [hasSign, minus, plus]

omit scale

/-- A text without a sign that is cut has none. -/
theorem hasSign_cut (positive : 0 < decimals) {fraction : List Char} (plain : hasSign fraction = false) :
    hasSign (cut decimals fraction) = false := by
  obtain ⟨count, rfl⟩ := Nat.exists_eq_succ_of_ne_zero positive.ne'
  cases fraction with
  | nil =>
    unfold cut
    rw [List.nil_append, List.replicate_succ, List.take_succ_cons]
    rfl
  | cons c fraction => exact plain

theorem hasSign_takeWhile {body : List Char} (plain : hasSign body = false) :
    hasSign (body.takeWhile fun c => decide (c ≠ '.')) = false := by
  cases body with
  | nil => rfl
  | cons c body =>
    by_cases point : c = '.'
    · simp [point, hasSign]
    · simpa [List.takeWhile_cons, point, hasSign] using plain

/-- The digits that are read, and those behind the cut. -/
theorem allDigits_of_cut {fraction : List Char} (read : AllDigits (cut decimals fraction))
    (behind : AllDigits (fraction.drop decimals)) : AllDigits fraction := by
  unfold cut at read
  rw [List.take_append, allDigits_append] at read
  rw [← List.take_append_drop decimals fraction]
  exact allDigits_append.mpr ⟨read.1, behind⟩

theorem dropWhile_point {body : List Char} (pointed : '.' ∈ body) :
    body.dropWhile (fun c => decide (c ≠ '.')) = '.' :: afterPoint body := by
  unfold afterPoint
  have first := List.head?_dropWhile_not (fun c => decide (c ≠ '.')) body
  cases rest : body.dropWhile (fun c => decide (c ≠ '.')) with
  | nil =>
    rw [List.dropWhile_eq_nil_iff] at rest
    exact absurd rfl (of_decide_eq_true (rest '.' pointed))
  | cons c tail =>
    rw [rest, List.head?_cons] at first
    have same : c = '.' := by simpa using first
    rw [same, List.tail_cons]

/-- The casts have succeeded on parts without a sign, so these are digits. -/
theorem parts_of_accepted (positive : 0 < decimals) {body : List Char} {subunit : Checked}
    (read : parseUnsigned decimals body = some subunit) (first : hasSign body = false)
    (second : hasSign (afterPoint body) = false) (behind : AllDigits ((afterPoint body).drop decimals)) :
    ∃ whole point fraction : List Char, body = whole ++ point ∧ whole ≠ [] ∧ AllDigits whole ∧ AllDigits fraction ∧
      (point = [] ∧ fraction = [] ∨ point = '.' :: fraction) := by
  have split : body = body.takeWhile (fun c => decide (c ≠ '.')) ++ body.dropWhile fun c => decide (c ≠ '.') :=
    List.takeWhile_append_dropWhile.symm
  unfold parseUnsigned at read
  rw [Option.bind_eq_bind, Option.bind_eq_some_iff] at read
  obtain ⟨w, cast, read⟩ := read
  obtain ⟨nonempty, digits, -⟩ := digits_of_lexicalCast (hasSign_takeWhile first) cast
  by_cases pointed : '.' ∈ body
  · rw [if_pos pointed, Option.bind_eq_some_iff] at read
    obtain ⟨f, cast, -⟩ := read
    obtain ⟨-, cutDigits, -⟩ := digits_of_lexicalCast (hasSign_cut positive second) cast
    exact ⟨_, _, afterPoint body, split, nonempty, digits, allDigits_of_cut cutDigits behind,
      .inr (dropWhile_point pointed)⟩
  · have all : body.dropWhile (fun c => decide (c ≠ '.')) = [] := by
      rw [List.dropWhile_eq_nil_iff]
      intro c member
      rw [decide_eq_true_eq]
      rintro rfl
      exact pointed member
    exact ⟨_, _, [], split, nonempty, digits, List.forall_mem_nil _, .inl ⟨all, rfl⟩⟩

theorem reads_of_plain (scale : power 10 decimals = 10 ^ decimals) (positive : 0 < decimals) {str : List Char}
    {amount : Checked} (accepted : parse decimals str = some amount) (plain : Plain decimals str) :
    amount.exact = true ∧ Reads decimals str amount.value := by
  obtain ⟨first, second, behind, fits⟩ := plain
  have sign : str = (if decide (str.head? = some '-') then ['-'] else []) ++ afterSign str := by
    unfold afterSign
    by_cases minus : str.head? = some '-'
    · rw [decide_eq_true minus, if_pos rfl, if_pos minus, List.singleton_append]
      exact (List.cons_head?_tail minus).symm
    · rw [decide_eq_false minus, if_neg Bool.false_ne_true, if_neg minus, List.nil_append]
  have read : ∃ subunit, parseUnsigned decimals (afterSign str) = some subunit := by
    rw [parse_eq, Option.map_eq_some_iff] at accepted
    exact accepted.imp fun _ both => both.1
  obtain ⟨subunit, read⟩ := read
  obtain ⟨whole, point, fraction, body, nonempty, digits, after, points⟩ :=
    parts_of_accepted positive read first second behind
  rw [body, takeWhile_parts digits points, afterPoint_parts digits points] at fits
  rw [body] at sign
  have known := parse_parts digits points scale nonempty after positive fits (decide (str.head? = some '-'))
  rw [← sign, accepted, Option.some.injEq] at known
  subst known
  refine ⟨rfl, _, whole, point, fraction, sign, nonempty, digits, after, points, ?_⟩
  rw [value_fixed decimals whole after]

end DecimalFormatter

open DecimalFormatter

/-- For 6 or 8 decimals an amount is read back, and what is accepted is a decimal number whose amount is exact, if and
only if neither part has a sign of its own, only digits are behind the cut, and the amount fits. -/
theorem amounts_exact_iff {decimals : Nat} (usual : decimals = 6 ∨ decimals = 8) :
    (∀ a : Int, -2 ^ 63 < a → a < 2 ^ 63 → parse decimals (format decimals a) = some ⟨a, true⟩) ∧
      ∀ str amount, parse decimals str = some amount →
        ((amount.exact = true ∧ Reads decimals str amount.value) ↔ Plain decimals str) := by
  have scale := power_usual usual
  have positive : 0 < decimals := by omega
  refine ⟨fun a => parse_format scale positive, ?_⟩
  intro str amount accepted
  exact ⟨fun both => plain_of_reads scale accepted both.1 both.2, reads_of_plain scale positive accepted⟩

theorem amounts_exact_iff_coin :
    parse 8 (format 8 (-5)) = some ⟨-5, true⟩ ∧ Reads 8 ['1', '.', '5'] 150000000 := by
  have exact_iff := amounts_exact_iff (.inr rfl : 8 = 6 ∨ 8 = 8)
  exact ⟨exact_iff.1 (-5) (by decide) (by decide),
    ((exact_iff.2 ['1', '.', '5'] ⟨150000000, true⟩ (by decide)).mpr (by decide)).2⟩

/-- A second minus sign, a sign after the point, letters behind the cut, and an amount that wraps around. -/
theorem amounts_inexact :
    (parse 8 ['-', '-', '5'] = some ⟨500000000, true⟩ ∧ ¬Reads 8 ['-', '-', '5'] 500000000) ∧
      (parse 8 ['1', '.', '-'] = some ⟨100000000, true⟩ ∧ ¬Reads 8 ['1', '.', '-'] 100000000) ∧
      (parse 6 ['1', '.', '1', '2', '3', '4', '5', '6', 'a'] = some ⟨1123456, true⟩ ∧
        ¬Reads 6 ['1', '.', '1', '2', '3', '4', '5', '6', 'a'] 1123456) ∧
      (parse 8 (List.replicate 14 '9')).any (fun amount => !amount.exact) = true := by
  have refuse {decimals : Nat} (usual : decimals = 6 ∨ decimals = 8) {str : List Char} {n : Int}
      (accepted : parse decimals str = some ⟨n, true⟩) (fault : ¬Plain decimals str) : ¬Reads decimals str n :=
    fun reads => fault (plain_of_reads (power_usual usual) accepted rfl reads)
  exact ⟨⟨by decide, refuse (.inr rfl) (by decide) (by decide)⟩, ⟨by decide, refuse (.inr rfl) (by decide) (by decide)⟩,
    ⟨by decide, refuse (.inl rfl) (by decide) (by decide)⟩, by decide⟩

end Libcoin
