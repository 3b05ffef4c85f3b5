/-
Bytes as hexadecimal text.

* `hexStr` and `hexify` are the two encoders. `hexify` prints each character as an `int`, which is negative from 128 on
  and has eight digits then.
* `parseHex` looks its digits up in a table. In the literal of the table a comma is missing, so it has 255 entries: the
  letter `o` has the value -2, and the last character that of the digit 0.
-/

import Libcoin.Http.RequestParser

namespace Libcoin

open RequestParser (isxdigit hexDigit)

/-! ### The two encoders -/

/-- The table of the digits in lower case. -/
def hexChars : Data := [48, 49, 50, 51, 52, 53, 54, 55, 56, 57, 97, 98, 99, 100, 101, 102]

/-- `HexStr`. With `fSpaces` a space follows each byte. -/
def hexStr (vch : Data) (fSpaces : Bool) : Data :=
  vch.flatMap fun (p : UInt8) =>
    hexChars.getD (p >>> 4).toNat 0 :: hexChars.getD (p &&& 15).toNat 0 :: if fSpaces then [32] else []

/-- A `char` as an `int`. -/
def charToInt (c : UInt8) : Int := if c < 128 then c.toNat else c.toNat - 256

/-- A digit in upper case. -/
def upperDigit (d : Nat) : UInt8 := UInt8.ofNat (if d < 10 then 48 + d else 55 + d)

/-- The digits of a number, with a bound on them. -/
def upperDigits : Nat → Nat → Data
  | 0, _ => []
  | digits + 1, n => (if n < 16 then [] else upperDigits digits (n / 16)) ++ [upperDigit (n % 16)]

/-- An `int` that is written with `std::hex` and `std::uppercase`: its 32 bits as an unsigned number. -/
def hexOfInt (n : Int) : Data := upperDigits 8 (n % 2 ^ 32).toNat

/-- `hexify` of a string, with `std::setw(2)` and `std::setfill('0')`. -/
def hexify (t : Data) : Data :=
  t.flatMap fun it =>
    let digits := hexOfInt (charToInt it)
    List.replicate (2 - digits.length) 48 ++ digits

/-! ### The decoder -/

/-- Sixteen entries without a digit. -/
def noDigits : List Int := List.replicate 16 (-1)

/-- The literal of `phexdigit`, line by line. After the seventh line there is no comma, and its last entry is the
difference of two numbers. -/
def phexdigitLiteral : List Int :=
  noDigits ++ noDigits ++ noDigits ++
    [0, 1, 2, 3, 4, 5, 6, 7, 8, 9, -1, -1, -1, -1, -1, -1] ++
    [-1, 0xa, 0xb, 0xc, 0xd, 0xe, 0xf, -1, -1, -1, -1, -1, -1, -1, -1, -1] ++
    noDigits ++
    [-1, 0xa, 0xb, 0xc, 0xd, 0xe, 0xf, -1, -1, -1, -1, -1, -1, -1, -1, -1 -
      1, -1, -1, -1, -1, -1, -1, -1, -1, -1, -1, -1, -1, -1, -1, -1] ++
    noDigits ++ noDigits ++ noDigits ++ noDigits ++ noDigits ++ noDigits ++ noDigits ++ noDigits

/-- `phexdigit[c]`. An array of 256 has zeros where its literal ends. -/
def phexdigit (c : UInt8) : Int := phexdigitLiteral.getD c.toNat 0

/-- The byte of two digits, `n = c << 4; n |= c`. -/
def hexByte (high low : Int) : UInt8 := UInt8.ofInt (high * 16) ||| UInt8.ofInt low

/-- The loop of `ParseHex`: between two bytes white space is skipped, and after a first digit there is none. The zero at
the end of a string is no digit, and neither is one inside of it. -/
def parseHexFrom : Option Int → Data → Data
  | _, [] => []
  | none, c :: psz =>
    if isspace c then parseHexFrom none psz
    else if phexdigit c = -1 then []
    else parseHexFrom (some (phexdigit c)) psz
  | some high, c :: psz =>
    if phexdigit c = -1 then [] else hexByte high (phexdigit c) :: parseHexFrom none psz

/-- `ParseHex`. -/
def parseHex (str : Data) : Data := parseHexFrom none str

/-- The characters that `ParseHex` takes for a digit. -/
def digitsTaken : Bool → Data → Data
  | _, [] => []
  | false, c :: psz =>
    if isspace c then digitsTaken false psz else if phexdigit c = -1 then [] else c :: digitsTaken true psz
  | true, c :: psz => if phexdigit c = -1 then [] else c :: digitsTaken false psz

/-! ### Digits -/

theorem forall_byte {P : UInt8 → Prop} (each : ∀ n < 256, P (UInt8.ofNat n)) (c : UInt8) : P c := by
  have known := each c.toNat c.toNat_lt
  rwa [UInt8.ofNat_toNat] at known

/-- The table: the digits, and the two entries that are no digits. -/
theorem phexdigit_eq (c : UInt8) :
    phexdigit c = if isxdigit c then (hexDigit c : Int) else if c = 111 then -2 else if c = 255 then 0 else -1 := by
  revert c
  apply forall_byte
  decide +kernel

theorem isspace_of_isxdigit (c : UInt8) : isxdigit c = true → isspace c = false := by
  revert c
  apply forall_byte
  decide +kernel

theorem hexDigit_lt (c : UInt8) : isxdigit c = true → hexDigit c < 16 := by
  revert c
  apply forall_byte
  decide +kernel

theorem phexdigit_of_isxdigit {c : UInt8} (digit : isxdigit c = true) : phexdigit c = hexDigit c := by
  rw [phexdigit_eq, if_pos digit]

/-- What is read as a digit and is none. -/
def Misread (c : UInt8) : Prop := c = 111 ∨ c = 255

instance (c : UInt8) : Decidable (Misread c) := inferInstanceAs (Decidable (_ ∨ _))

theorem phexdigit_eq_neg_one (c : UInt8) : phexdigit c = -1 ↔ isxdigit c = false ∧ ¬Misread c := by
  rw [phexdigit_eq]
  unfold Misread
  cases digit : isxdigit c with
  | true =>
    rw [if_pos rfl]
    exact iff_of_false (by omega) nofun
  | false =>
    rw [if_neg (by decide)]
    split
    · rename_i letter
      exact iff_of_false (by decide) fun plain => plain.2 (.inl letter)
    · split
      · rename_i last
        exact iff_of_false (by decide) fun plain => plain.2 (.inr last)
      · rename_i letter last
        exact iff_of_true rfl ⟨rfl, not_or.mpr ⟨letter, last⟩⟩

/-- The byte of two hexadecimal digits. -/
def digitsByte (a b : UInt8) : UInt8 := UInt8.ofNat (16 * hexDigit a + hexDigit b)

theorem hexByte_eq (a b : UInt8) (first : isxdigit a = true) (second : isxdigit b = true) :
    hexByte (phexdigit a) (phexdigit b) = digitsByte a b := by
  have all : ∀ high < 16, ∀ low < 16, hexByte (high : Nat) (low : Nat) = UInt8.ofNat (16 * high + low) := by
    decide +kernel
  rw [phexdigit_of_isxdigit first, phexdigit_of_isxdigit second]
  exact all _ (hexDigit_lt a first) _ (hexDigit_lt b second)

/-! ### Hexadecimal text -/

/-- Pairs of hexadecimal digits, each with white space before it if one likes, and their bytes. -/
inductive HexText : Data → Data → Prop
  | nil : HexText [] []
  | pair {spaces rest bytes : Data} {a b : UInt8} (white : ∀ c ∈ spaces, isspace c = true)
      (first : isxdigit a = true) (second : isxdigit b = true) (later : HexText rest bytes) :
      HexText (spaces ++ a :: b :: rest) (digitsByte a b :: bytes)

/-- The longest prefix that is such a text. -/
def LongestHexText (str pre bytes : Data) : Prop :=
  pre <+: str ∧ HexText pre bytes ∧ ∀ pre' bytes', pre' <+: str → HexText pre' bytes' → pre'.length ≤ pre.length

/-- `ParseHex` returns the bytes of the longest prefix, and takes no other character for a digit. -/
def ReadsExactly (str : Data) : Prop :=
  ∃ pre bytes, LongestHexText str pre bytes ∧ parseHex str = bytes ∧ ∀ c ∈ digitsTaken false str, isxdigit c = true

/-- The first character that is neither white space before a pair nor a hexadecimal digit. -/
def stopping : Bool → Data → Option UInt8
  | _, [] => none
  | false, c :: rest =>
    if isspace c then stopping false rest else if isxdigit c then stopping true rest else some c
  | true, c :: rest => if isxdigit c then stopping false rest else some c

section Steps

variable {spaces : Data} (white : ∀ c ∈ spaces, isspace c = true) (rest : Data)

include white

theorem parseHexFrom_spaces : parseHexFrom none (spaces ++ rest) = parseHexFrom none rest := by
  induction spaces with
  | nil => rfl
  | cons c spaces ih =>
    rw [List.forall_mem_cons] at white
    rw [List.cons_append, parseHexFrom, if_pos white.1, ih white.2]

theorem digitsTaken_spaces : digitsTaken false (spaces ++ rest) = digitsTaken false rest := by
  induction spaces with
  | nil => rfl
  | cons c spaces ih =>
    rw [List.forall_mem_cons] at white
    rw [List.cons_append, digitsTaken, if_pos white.1, ih white.2]

theorem stopping_spaces : stopping false (spaces ++ rest) = stopping false rest := by
  induction spaces with
  | nil => rfl
  | cons c spaces ih =>
    rw [List.forall_mem_cons] at white
    rw [List.cons_append, stopping, if_pos white.1, ih white.2]

end Steps

section Pairs

variable {a b : UInt8} (first : isxdigit a = true) (second : isxdigit b = true) (rest : Data)

include first

theorem phexdigit_ne : phexdigit a ≠ -1 := by
  rw [Ne, phexdigit_eq_neg_one, first]
  simp

include second

theorem parseHexFrom_pair : parseHexFrom none (a :: b :: rest) = digitsByte a b :: parseHexFrom none rest := by
  rw [parseHexFrom, isspace_of_isxdigit a first, if_neg Bool.false_ne_true, if_neg (phexdigit_ne first), parseHexFrom,
    if_neg (phexdigit_ne second), hexByte_eq a b first second]

theorem digitsTaken_pair : digitsTaken false (a :: b :: rest) = a :: b :: digitsTaken false rest := by
  rw [digitsTaken, isspace_of_isxdigit a first, if_neg Bool.false_ne_true, if_neg (phexdigit_ne first), digitsTaken,
    if_neg (phexdigit_ne second)]

theorem stopping_pair : stopping false (a :: b :: rest) = stopping false rest := by
  rw [stopping, isspace_of_isxdigit a first, if_neg Bool.false_ne_true, if_pos first, stopping, if_pos second]

end Pairs

variable {t bytes : Data}

/-- A text is read pair by pair, whatever comes after it. -/
theorem HexText.parse (hexText : HexText t bytes) (rest : Data) :
    parseHexFrom none (t ++ rest) = bytes ++ parseHexFrom none rest ∧
      ((∀ c ∈ digitsTaken false (t ++ rest), isxdigit c = true) ↔ ∀ c ∈ digitsTaken false rest, isxdigit c = true) ∧
      stopping false (t ++ rest) = stopping false rest := by
  induction hexText with
  | nil => exact ⟨rfl, Iff.rfl, rfl⟩
  | @pair spaces later bytes a b white first second _ ih =>
    rw [List.append_assoc, List.cons_append, List.cons_append, parseHexFrom_spaces white, digitsTaken_spaces white,
      stopping_spaces white, parseHexFrom_pair first second, digitsTaken_pair first second,
      stopping_pair first second, List.forall_mem_cons, List.forall_mem_cons, ih.1, ih.2.2]
    exact ⟨rfl, by rw [and_iff_right first, and_iff_right second, ih.2.1], rfl⟩

/-! ### The encoders are read back -/

/-- `HexStr` writes each byte as two digits. -/
theorem parseHex_hexStr (vch : Data) (fSpaces : Bool) : parseHex (hexStr vch fSpaces) = vch := by
  have digits (p : UInt8) : isxdigit (hexChars.getD (p >>> 4).toNat 0) = true ∧
      isxdigit (hexChars.getD (p &&& 15).toNat 0) = true ∧
      digitsByte (hexChars.getD (p >>> 4).toNat 0) (hexChars.getD (p &&& 15).toNat 0) = p := by
    revert p
    apply forall_byte
    decide +kernel
  have white : ∀ c ∈ (if fSpaces then [32] else [] : Data), isspace c = true := by
    cases fSpaces <;> decide +kernel
  unfold parseHex
  induction vch with
  | nil => rfl
  | cons p vch ih =>
    obtain ⟨first, second, byte⟩ := digits p
    have cons : hexStr (p :: vch) fSpaces = hexChars.getD (p >>> 4).toNat 0 :: hexChars.getD (p &&& 15).toNat 0 ::
        ((if fSpaces then [32] else []) ++ hexStr vch fSpaces) := rfl
    rw [cons, parseHexFrom_pair first second, byte, parseHexFrom_spaces white, ih]

/-- What `hexify` writes for a character from 128 on has three bytes in front of it. -/
theorem parseHex_hexify (t : Data) :
    parseHex (hexify t) = t.flatMap fun (c : UInt8) => if c < 128 then [c] else [255, 255, 255, c] := by
  have digit : ∀ d < 16, isxdigit (upperDigit d) = true := by decide +kernel
  have text (c : UInt8) : (List.replicate (2 - (hexOfInt (charToInt c)).length) 48 ++ hexOfInt (charToInt c)) =
      (if c < 128 then [] else [70, 70, 70, 70, 70, 70]) ++
        [upperDigit (c.toNat / 16), upperDigit (c.toNat % 16)] := by
    revert c
    apply forall_byte
    decide +kernel
  have byte (c : UInt8) : digitsByte (upperDigit (c.toNat / 16)) (upperDigit (c.toNat % 16)) = c := by
    revert c
    apply forall_byte
    decide +kernel
  have white : ∀ c ∈ ([] : Data), isspace c = true := List.forall_mem_nil _
  have filled : isxdigit 70 = true := by decide
  unfold parseHex
  induction t with
  | nil => rfl
  | cons c t ih =>
    have high := digit (c.toNat / 16) (by have := c.toNat_lt; omega)
    have low := digit (c.toNat % 16) (by omega)
    have cons : hexify (c :: t) = (List.replicate (2 - (hexOfInt (charToInt c)).length) 48 ++ hexOfInt (charToInt c)) ++
        hexify t := rfl
    rw [cons, text, List.flatMap_cons]
    split
    · rw [List.nil_append, List.cons_append, List.cons_append, List.nil_append, parseHexFrom_pair high low, byte, ih]
      rfl
    · simp only [List.cons_append, List.nil_append]
      rw [parseHexFrom_pair filled filled, parseHexFrom_pair filled filled, parseHexFrom_pair filled filled,
        parseHexFrom_pair high low, byte, ih]
      rfl

/-- The text of a string is read back as the string where no character is printed as a negative number. -/
theorem parseHex_hexify_iff (t : Data) : parseHex (hexify t) = t ↔ ∀ c ∈ t, c < 128 := by
  rw [parseHex_hexify]
  constructor
  · intro same
    have length : (t.flatMap fun (c : UInt8) => if c < 128 then [c] else [255, 255, 255, c]).length =
        t.length + 3 * t.countP fun (c : UInt8) => decide ¬c < 128 := by
      clear same
      induction t with
      | nil => rfl
      | cons c t ih =>
        rw [List.flatMap_cons, List.length_append, ih, List.length_cons, List.countP_cons]
        by_cases small : c < 128
        · simp [small]
          omega
        · simp [small]
          omega
    rw [same] at length
    have none : (t.countP fun (c : UInt8) => decide ¬c < 128) = 0 := by omega
    intro c member
    simpa using List.countP_eq_zero.mp none c member
  · intro small
    induction t with
    | nil => rfl
    | cons c t ih =>
      rw [List.forall_mem_cons] at small
      rw [List.flatMap_cons, if_pos small.1, ih small.2, List.singleton_append]

/-! ### The longest prefix -/

/-- After white space there are not two digits. -/
def Stuck (post : Data) : Prop :=
  ∀ a b rest, post.dropWhile isspace = a :: b :: rest → isxdigit a = true → isxdigit b = false

theorem dropWhile_spaces {spaces : Data} (white : ∀ c ∈ spaces, isspace c = true) {a : UInt8}
    (first : isxdigit a = true) (rest : Data) : (spaces ++ a :: rest).dropWhile isspace = a :: rest := by
  rw [List.dropWhile_append_of_pos white, List.dropWhile_cons_of_neg]
  rw [isspace_of_isxdigit a first]
  exact Bool.false_ne_true

theorem takeWhile_spaces {spaces : Data} (white : ∀ c ∈ spaces, isspace c = true) {a : UInt8}
    (first : isxdigit a = true) (rest : Data) : (spaces ++ a :: rest).takeWhile isspace = spaces := by
  rw [List.takeWhile_append_of_pos white, List.takeWhile_cons_of_neg, List.append_nil]
  rw [isspace_of_isxdigit a first]
  exact Bool.false_ne_true

theorem hexText_split (str : Data) : ∃ t bytes post, str = t ++ post ∧ HexText t bytes ∧ Stuck post := by
  induction h : str.length using Nat.strong_induction_on generalizing str with
  | _ n ih =>
    subst h
    by_cases stuck : Stuck str
    · exact ⟨[], [], str, rfl, .nil, stuck⟩
    · unfold Stuck at stuck
      push Not at stuck
      obtain ⟨a, b, rest, pair, first, second⟩ := stuck
      rw [Ne, Bool.not_eq_false] at second
      have parts : str = str.takeWhile isspace ++ a :: b :: rest := by rw [← pair, List.takeWhile_append_dropWhile]
      have shorter : rest.length < str.length := by
        rw [parts, List.length_append, List.length_cons, List.length_cons]
        omega
      obtain ⟨t, bytes, post, split, hexText, stuck⟩ := ih _ shorter rest rfl
      refine ⟨str.takeWhile isspace ++ a :: b :: t, _, post, ?_,
        .pair (fun c member => List.mem_takeWhile_imp member) first second hexText, stuck⟩
      rw [List.append_assoc, List.cons_append, List.cons_append, ← split, ← parts]

/-- No text goes on into what is stuck. -/
theorem HexText.longest {t bytes post : Data} (hexText : HexText t bytes) (stuck : Stuck post) :
    ∀ pre' bytes', pre' <+: t ++ post → HexText pre' bytes' → pre'.length ≤ t.length := by
  induction hexText with
  | nil =>
    rintro pre' bytes' ⟨more, whole⟩ other
    cases other with
    | nil => exact le_rfl
    | @pair spaces rest _ a b white first second _ =>
      rw [List.nil_append] at whole
      have seen := stuck a b (rest ++ more) (by
        rw [← whole, List.append_assoc, List.cons_append, List.cons_append, dropWhile_spaces white first]) first
      rw [second] at seen
      cases seen
  | @pair spaces later _ a b white first second _ ih =>
    rintro pre' bytes' ⟨more, whole⟩ other
    cases other with
    | nil => exact Nat.zero_le _
    | @pair spaces' rest _ a' b' white' first' second' tail =>
      simp only [List.append_assoc, List.cons_append] at whole
      have same := congrArg (List.takeWhile isspace) whole
      rw [takeWhile_spaces white' first', takeWhile_spaces white first] at same
      have after := congrArg (List.dropWhile isspace) whole
      rw [dropWhile_spaces white' first', dropWhile_spaces white first] at after
      simp only [List.cons.injEq] at after
      have short := ih rest _ ⟨more, after.2.2⟩ tail
      simp only [same, List.length_append, List.length_cons]
      omega

/-- Where no pair follows, nothing is read but what is misread. -/
theorem Stuck.read {post : Data} (stuck : Stuck post) :
    ((∀ c ∈ digitsTaken false post, isxdigit c = true) ↔ ∀ c, stopping false post = some c → ¬Misread c) ∧
      ((∀ c, stopping false post = some c → ¬Misread c) → parseHexFrom none post = []) := by
  have parts : post = post.takeWhile isspace ++ post.dropWhile isspace := List.takeWhile_append_dropWhile.symm
  have white : ∀ c ∈ post.takeWhile isspace, isspace c = true := fun c member => List.mem_takeWhile_imp member
  have printed := List.head?_dropWhile_not isspace post
  unfold Stuck at stuck
  rw [parts, digitsTaken_spaces white, stopping_spaces white, parseHexFrom_spaces white]
  generalize post.dropWhile isspace = rest at stuck printed ⊢
  -- what stops the reading is the first character after the white space, or the second one
  cases rest with
  | nil => simp [digitsTaken, stopping, parseHexFrom]
  | cons a tail =>
    have nonspace : isspace a = false := by simpa using printed
    by_cases first : isxdigit a = true
    · cases tail with
      | nil => simp [digitsTaken, stopping, parseHexFrom, nonspace, first, phexdigit_ne first]
      | cons b tail =>
        have second : isxdigit b = false := stuck a b tail rfl first
        by_cases misread : Misread b
        · simp [digitsTaken, stopping, nonspace, first, second, phexdigit_ne first, misread, phexdigit_eq_neg_one b]
        · simp [digitsTaken, stopping, parseHexFrom, nonspace, first, second, phexdigit_ne first, misread,
            phexdigit_eq_neg_one b]
    · rw [Bool.not_eq_true] at first
      by_cases misread : Misread a
      · simp [digitsTaken, stopping, nonspace, first, misread, phexdigit_eq_neg_one a]
      · simp [digitsTaken, stopping, parseHexFrom, nonspace, first, misread, phexdigit_eq_neg_one a]

theorem readsExactly_iff (str : Data) : ReadsExactly str ↔ ∀ c, stopping false str = some c → ¬Misread c := by
  obtain ⟨t, bytes, post, rfl, hexText, stuck⟩ := hexText_split str
  obtain ⟨parsed, digits, stops⟩ := hexText.parse post
  rw [stops]
  constructor
  · rintro ⟨-, -, -, -, taken⟩
    exact stuck.read.1.mp (digits.mp taken)
  · intro plain
    refine ⟨t, bytes, ⟨List.prefix_append t post, hexText, hexText.longest stuck⟩, ?_,
      digits.mpr (stuck.read.1.mpr plain)⟩
    rw [parseHex, parsed, stuck.read.2 plain, List.append_nil]

/-- The text of `HexStr` is always read back, and that of `hexify` where all characters are below 128. A string is read
as hexadecimal text if and only if what stops its pairs is neither the letter `o` nor the last character. -/
theorem parseHex_exact_iff (vch t str : Data) (fSpaces : Bool) :
    parseHex (hexStr vch fSpaces) = vch ∧ (parseHex (hexify t) = t ↔ ∀ c ∈ t, c < 128) ∧
      (ReadsExactly str ↔ ∀ c, stopping false str = some c → ¬Misread c) :=
  ⟨parseHex_hexStr vch fSpaces, parseHex_hexify_iff t, readsExactly_iff str⟩

/-- A character that is printed as a negative number, and two letters that are read as a byte. -/
theorem parseHex_inexact :
    parseHex (hexify [128]) = [255, 255, 255, 128] ∧ parseHex [111, 111] = [254] ∧ ¬ReadsExactly [111, 111] := by
  refine ⟨by decide +kernel, by decide +kernel, ?_⟩
  rw [readsExactly_iff]
  exact fun plain => plain 111 (by decide) (.inl rfl)

end Libcoin
