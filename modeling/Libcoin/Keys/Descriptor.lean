/-
`ExtendedKey::Derivation` as a script and as a text.

* `serialize` is the script of a descriptor, and `ofScript` evaluates one to get the descriptor back
  (`ofScript_serialize`).
* `parse` reads the text of a path. A `Step` is a decimal number that is written there, with a mark if it is hardened
  (`parse_texts`).
-/

import Libcoin.Keys.ExtendedKey
import Libcoin.Script.Building

namespace Libcoin

open Evaluator Script

/-- `CBigNum::getuint`: the sign is dropped, and `BN_get_word` has no larger value than the largest word. -/
def getuint (n : Int) : Nat := min n.natAbs (2 ^ 64 - 1) % 2 ^ 32

namespace Derivation

/-! ### Scripts -/

/-- `Derivation::serialize`. -/
def serialize (d : Derivation) : Script :=
  d.path.foldl (fun script n => script ++ pushUInt64 (UInt64.ofNat n)) (20 :: littleBytes 20 d.fingerprint)

/-- `Derivation(script_data)`, which throws or takes the stack of the evaluation, whatever its result is. `left` is the
stack of an evaluation that is broken off. -/
def ofScript (hashers : Hashers) (left : Script → List Data) (script : Script) : Option Derivation :=
  let evaluated := run (Evaluator.eval hashers) script (new ())
  let stack := if evaluated.1 then evaluated.2.stack.reverse else left script
  if stack.length < 2 then none
  else
    match stack with
    | [] => none
    | fingerprint :: path =>
      if fingerprint.length ≠ 20 then none
      else some { fingerprint := littleEndian fingerprint, path := path.map fun bytes => getuint (setvch bytes) }

/-- What `serialize` appends. -/
def items (d : Derivation) : List Item :=
  .bytes (littleBytes 20 d.fingerprint) :: d.path.map fun n => .uint64 (UInt64.ofNat n)

theorem serialize_eq (d : Derivation) : serialize d = build d.items := by
  have head : 20 :: littleBytes 20 d.fingerprint = pushData (littleBytes 20 d.fingerprint) := by
    unfold pushData
    rw [littleBytes_length]
    rfl
  unfold serialize build items
  rw [List.foldl_cons, List.foldl_map, List.nil_append, head]
  rfl

/-- The value of a child number is that number. -/
theorem item_value {n : Nat} (word : n < 2 ^ 32) : (Item.uint64 (UInt64.ofNat n)).value = numberBytes n := by
  rw [Item.value, UInt64.toNat_ofNat_of_lt' (show n < 2 ^ 64 by omega)]

theorem item_length {n : Nat} (word : n < 2 ^ 32) : (Item.uint64 (UInt64.ofNat n)).write.length ≤ 6 := by
  have bytes : (numberBytes n).length ≤ 5 := @numberBytes_fits n 4 (by omega)
  rw [Item.write, pushUInt64_eq, UInt64.toNat_ofNat_of_lt' (show n < 2 ^ 64 by omega)]
  by_cases small : IsSmallNumber n
  · rw [pushInt_small small, List.length_singleton]
    omega
  · rw [pushInt_large small]
    unfold pushData
    rw [if_pos (by omega), List.length_cons]
    omega

theorem serialize_length {d : Derivation} (words : ∀ n ∈ d.path, n < 2 ^ 32) :
    (serialize d).length ≤ 21 + 6 * d.path.length := by
  have path_length (path : List Nat) (words : ∀ n ∈ path, n < 2 ^ 32) :
      (build (path.map fun n => .uint64 (UInt64.ofNat n))).length ≤ 6 * path.length := by
    induction path with
    | nil => exact le_rfl
    | cons n path ih =>
      have first := item_length (words n List.mem_cons_self)
      have others := ih fun n inside => words n (List.mem_cons_of_mem _ inside)
      rw [List.map_cons, build_cons, List.length_append, List.length_cons]
      omega
  have head : (Item.bytes (littleBytes 20 d.fingerprint)).write.length = 21 := by
    rw [Item.write, pushData, littleBytes_length, if_pos (by omega), List.length_cons, littleBytes_length]
  have others := path_length d.path words
  rw [serialize_eq, items, build_cons, List.length_append, head]
  omega

theorem getuint_setvch {n : Nat} (word : n < 2 ^ 32) : getuint (setvch (numberBytes n)) = n := by
  rw [setvch_numberBytes, getuint, Int.natAbs_natCast]
  omega

/-- **A descriptor is read back from its script.** -/
theorem ofScript_serialize {hashers : Hashers} {left : Script → List Data} {d : Derivation}
    (fits : d.fingerprint < 2 ^ 160) (some : d.path ≠ []) (few : d.path.length ≤ 999)
    (words : ∀ n ∈ d.path, n < 2 ^ 32) : ofScript hashers left (serialize d) = .some d := by
  have short : ∀ item ∈ d.items, item.Short := by
    intro item inside
    rcases List.mem_cons.mp inside with rfl | later
    · show (littleBytes 20 d.fingerprint).length < 2 ^ 32
      rw [littleBytes_length]
      decide
    · obtain ⟨n, -, rfl⟩ := List.mem_map.mp later
      trivial
  have sizes : ∀ item ∈ d.items, item.value.length ≤ maxElementSize := by
    intro item inside
    rcases List.mem_cons.mp inside with rfl | later
    · show (littleBytes 20 d.fingerprint).length ≤ 520
      rw [littleBytes_length]
      decide
    · obtain ⟨n, member, rfl⟩ := List.mem_map.mp later
      have bytes : (numberBytes n).length ≤ 5 := @numberBytes_fits n 4 (by have := words n member; omega)
      rw [item_value (words n member)]
      exact bytes.trans (by decide)
  have values : d.items.map Item.value = littleBytes 20 d.fingerprint :: d.path.map fun n : Nat => numberBytes n := by
    rw [items, List.map_cons, List.map_map]
    exact congrArg (_ :: ·) (List.map_congr_left fun n member => item_value (words n member))
  have count : d.items.length ≤ 1000 := by
    rw [items, List.length_cons, List.length_map]
    omega
  have length := serialize_length words
  have evaluated := @run_build Unit (Evaluator.eval hashers) (pushesSmall_eval hashers) _ short sizes
    (by rw [← serialize_eq]; omega) count ()
  have back : (d.path.map fun n : Nat => numberBytes n).map (fun bytes => getuint (setvch bytes)) = d.path := by
    rw [List.map_map]
    conv_rhs => rw [← List.map_id d.path]
    exact List.map_congr_left fun n member => getuint_setvch (words n member)
  have two : ¬(littleBytes 20 d.fingerprint :: d.path.map fun n : Nat => numberBytes n).length < 2 := by
    rw [List.length_cons, List.length_map]
    have positive := List.length_pos_iff.mpr some
    omega
  unfold ofScript
  rw [serialize_eq, evaluated, values]
  dsimp only
  rw [if_pos rfl, List.reverse_reverse, if_neg two]
  dsimp only
  rw [back, if_neg (by rw [littleBytes_length]; decide), littleEndian_littleBytes (by rw [bytes_pow]; exact fits)]

/-! ### Texts -/

/-- `while (c != tree.end() && !isdigit(*c)) ++c`. -/
def skipText (c : List Char) : List Char := c.dropWhile fun x => !x.isDigit

/-- `boost::lexical_cast<unsigned int>` of digits, which throws on a number that is too large. -/
def lexicalCast (d : List Char) : Option Nat :=
  let i := Nat.ofDigitChars 10 d 0
  if i < 2 ^ 32 then some i else none

/-- The outer loop of `parse`. -/
def parseLoop : Nat → List Char → Option (List Nat)
  | 0, _ => some []
  | turns + 1, c =>
    if c = [] then some []
    else
      let d := c.takeWhile Char.isDigit
      let c := c.dropWhile Char.isDigit
      if d = [] then parseLoop turns (skipText c)
      else do
        let i ← lexicalCast d
        let (i, c) := if c.head? = some '\'' then (i ||| 0x80000000, c.tail) else (i, c)
        let path ← parseLoop turns (skipText c)
        return i :: path

/-- `Derivation::parse`. There are not more turns than characters. -/
def parse (tree : List Char) : Option (List Nat) := parseLoop tree.length (skipText tree)

/-- A decimal number below `2 ^ 31` in a text, and whether it is marked as hardened. -/
structure Step where
  digits : List Char
  hardened : Bool
  nonempty : digits ≠ []
  decimal : ∀ c ∈ digits, c.isDigit = true
  below : Nat.ofDigitChars 10 digits 0 < 2 ^ 31

namespace Step

/-- The mark of a hardened step. -/
def mark (step : Step) : List Char := if step.hardened then ['\''] else []

/-- The characters of a step. -/
def text (step : Step) : List Char := step.digits ++ step.mark

/-- The child number. -/
def number (step : Step) : Nat := Nat.ofDigitChars 10 step.digits 0 + if step.hardened then 2 ^ 31 else 0

/-- The steps with a `/` between them. -/
def texts : List Step → List Char
  | [] => []
  | [step] => step.text
  | step :: next :: steps => step.text ++ '/' :: texts (next :: steps)

/-- The digits of a number are one way to write it. -/
def ofNat (n : Nat) (hardened : Bool) (below : n < 2 ^ 31) : Step where
  digits := Nat.toDigits 10 n
  hardened := hardened
  nonempty := Nat.toDigits_ne_nil
  decimal _ inside := Nat.isDigit_of_mem_toDigits (by decide) (by decide) inside
  below := (Nat.ofDigitChars_toDigits (by decide) (by decide)).trans_lt below

theorem ofNat_number (n : Nat) (hardened : Bool) (below : n < 2 ^ 31) :
    (ofNat n hardened below).number = n + if hardened then 2 ^ 31 else 0 := by
  unfold number
  exact congrArg (· + _) (Nat.ofDigitChars_toDigits (by decide) (by decide))

theorem text_cons (step : Step) (rest : List Char) :
    ∃ digit more, digit.isDigit = true ∧ step.text ++ rest = digit :: more := by
  obtain ⟨digit, digits, split⟩ := List.exists_cons_of_ne_nil step.nonempty
  refine ⟨digit, digits ++ step.mark ++ rest, step.decimal digit ?_, ?_⟩
  · rw [split]
    exact List.mem_cons_self
  · rw [text, split]
    simp

end Step

theorem skipText_digit {digit : Char} (decimal : digit.isDigit = true) (rest : List Char) :
    skipText (digit :: rest) = digit :: rest := by
  unfold skipText
  rw [List.dropWhile_cons, decimal]
  rfl

theorem skipText_texts (steps : List Step) : skipText (Step.texts steps) = Step.texts steps := by
  cases steps with
  | nil => rfl
  | cons step steps =>
    obtain ⟨rest, whole⟩ : ∃ rest, Step.texts (step :: steps) = step.text ++ rest := by
      cases steps with
      | nil => exact ⟨[], (List.append_nil _).symm⟩
      | cons next steps => exact ⟨_, rfl⟩
    obtain ⟨digit, more, decimal, first⟩ := step.text_cons rest
    rw [whole, first, skipText_digit decimal]

/-- The digits before something else. -/
theorem span_digits {digits rest : List Char} (decimal : ∀ c ∈ digits, c.isDigit = true)
    (stop : ∀ c ∈ rest.head?, c.isDigit = false) :
    (digits ++ rest).takeWhile Char.isDigit = digits ∧ (digits ++ rest).dropWhile Char.isDigit = rest := by
  induction digits with
  | nil =>
    cases rest with
    | nil => exact ⟨rfl, rfl⟩
    | cons c rest => simp [stop c rfl]
  | cons digit digits ih =>
    obtain ⟨taken, left⟩ := ih fun c inside => decimal c (List.mem_cons_of_mem _ inside)
    have first := decimal digit List.mem_cons_self
    simp [first, taken, left]

/-- A hardened step has its mark as the highest bit. -/
theorem Step.number_eq (step : Step) : step.number =
    if step.hardened then Nat.ofDigitChars 10 step.digits 0 ||| 0x80000000 else Nat.ofDigitChars 10 step.digits 0 := by
  unfold number
  cases step.hardened with
  | false => rfl
  | true =>
    rw [if_pos rfl, if_pos rfl, Nat.or_comm]
    exact (Nat.add_comm _ _).trans (Nat.two_pow_add_eq_or_of_lt step.below 1)

/-- One turn of the loop, at some digits. -/
theorem parseLoop_digits (step : Step) {rest : List Char} (plain : ∀ c ∈ rest.head?, c.isDigit = false) (turns : Nat) :
    parseLoop (turns + 1) (step.digits ++ rest) =
      if rest.head? = some '\'' then
        (parseLoop turns (skipText rest.tail)).map ((Nat.ofDigitChars 10 step.digits 0 ||| 0x80000000) :: ·)
      else (parseLoop turns (skipText rest)).map (Nat.ofDigitChars 10 step.digits 0 :: ·) := by
  have read : lexicalCast step.digits = some (Nat.ofDigitChars 10 step.digits 0) := by
    unfold lexicalCast
    exact if_pos (step.below.trans (by decide))
  obtain ⟨taken, left⟩ := span_digits step.decimal plain
  rw [parseLoop, if_neg (List.append_ne_nil_of_left_ne_nil step.nonempty _), taken, left]
  dsimp only
  rw [if_neg step.nonempty, read]
  by_cases marked : rest.head? = some '\''
  · simp only [if_pos marked]
    cases parseLoop turns (skipText rest.tail) <;> rfl
  · simp only [if_neg marked]
    cases parseLoop turns (skipText rest) <;> rfl

/-- One turn of the loop, at a step. -/
theorem parseLoop_step (step : Step) {rest : List Char} (stop : rest = [] ∨ ∃ more, rest = '/' :: more) (turns : Nat) :
    parseLoop (turns + 1) (step.text ++ rest) = (parseLoop turns (skipText rest)).map (step.number :: ·) := by
  have head : ∀ c ∈ rest.head?, c = '/' := by
    rintro c first
    rcases stop with rfl | ⟨more, rfl⟩
    · cases first
    · cases first
      rfl
  rw [Step.text, Step.mark, Step.number_eq, List.append_assoc]
  cases step.hardened with
  | false =>
    have plain : ∀ c ∈ rest.head?, c.isDigit = false := fun c first => by
      rw [head c first]
      rfl
    have unmarked : rest.head? ≠ some '\'' := fun marked => absurd (head _ marked) (by decide)
    exact (parseLoop_digits step plain turns).trans (if_neg unmarked)
  | true =>
    have plain : ∀ c ∈ ('\'' :: rest).head?, c.isDigit = false := by
      rintro c ⟨⟩
      rfl
    exact (parseLoop_digits step plain turns).trans (if_pos rfl)

/-- **A path is read from its text**, with anything but digits before it. -/
theorem parse_texts {before : List Char} (plain : ∀ c ∈ before, c.isDigit = false) (steps : List Step) :
    parse (before ++ Step.texts steps) = some (steps.map Step.number) := by
  have loop {turns : Nat} (steps : List Step) (enough : (Step.texts steps).length ≤ turns) :
      parseLoop turns (Step.texts steps) = some (steps.map Step.number) := by
    induction steps generalizing turns with
    | nil => cases turns <;> rfl
    | cons step steps ih =>
      have positive := List.length_pos_iff.mpr step.nonempty
      have size : step.digits.length ≤ step.text.length := by
        rw [Step.text, List.length_append]
        omega
      cases steps with
      | nil =>
        obtain ⟨fewer, rfl⟩ : ∃ fewer, turns = fewer + 1 := ⟨turns - 1, by rw [Step.texts] at enough; omega⟩
        have last := parseLoop_step step (.inl rfl) fewer
        rw [List.append_nil] at last
        rw [Step.texts, last]
        cases fewer <;> rfl
      | cons next steps =>
        rw [Step.texts, List.length_append, List.length_cons] at enough
        obtain ⟨fewer, rfl⟩ : ∃ fewer, turns = fewer + 1 := ⟨turns - 1, by omega⟩
        have others := @ih fewer (by omega)
        have separator : skipText ('/' :: Step.texts (next :: steps)) = Step.texts (next :: steps) :=
          skipText_texts (next :: steps)
        rw [Step.texts, parseLoop_step step (.inr ⟨_, rfl⟩), separator, others]
        rfl
  have skipped : skipText (before ++ Step.texts steps) = Step.texts steps := by
    rw [skipText, List.dropWhile_append_of_pos fun c inside => by rw [plain c inside]; rfl]
    exact skipText_texts steps
  unfold parse
  rw [skipped]
  exact loop steps (by rw [List.length_append]; omega)

/-- **Descriptors are read back**, from their script and from the text of their path. Each child number can be written.
-/
theorem descriptor_roundTrip (hashers : Hashers) (left : Script → List Data) :
    (∀ d : Derivation, d.fingerprint < 2 ^ 160 → 1 ≤ d.path.length → d.path.length ≤ 999 →
        (∀ n ∈ d.path, n < 2 ^ 32) → ofScript hashers left (serialize d) = some d) ∧
      (∀ before : List Char, (∀ c ∈ before, c.isDigit = false) → ∀ steps : List Step,
        parse (before ++ Step.texts steps) = some (steps.map Step.number)) ∧
      ∀ (n : Nat) (hardened : Bool), n < 2 ^ 31 → ∃ step : Step, step.digits = Nat.toDigits 10 n ∧
        step.hardened = hardened ∧ step.number = n + if hardened then 2 ^ 31 else 0 := by
  refine ⟨fun d fits some few words => ?_, fun before plain steps => parse_texts plain steps,
    fun n hardened below => ?_⟩
  · exact ofScript_serialize fits (List.length_pos_iff.mp some) few words
  · exact ⟨Step.ofNat n hardened below, rfl, rfl, Step.ofNat_number n hardened below⟩

/-- Zero, a small number, the least hardened number, and the largest one. -/
theorem descriptor_roundTrip_edges :
    ofScript Small.hashers (fun _ => []) (serialize ⟨7, [0, 16, 2 ^ 31, 2 ^ 32 - 1]⟩) =
        some ⟨7, [0, 16, 2 ^ 31, 2 ^ 32 - 1]⟩ ∧
      parse ("m/".toList ++ Step.texts [Step.ofNat 44 true (by decide), Step.ofNat 0 false (by decide)]) =
        some [2 ^ 31 + 44, 0] := by
  obtain ⟨scripts, texts, -⟩ := descriptor_roundTrip Small.hashers fun _ => []
  refine ⟨scripts _ (by decide) (by decide) (by decide) (by decide), ?_⟩
  exact texts _ (by simp) [Step.ofNat 44 true (by decide), Step.ofNat 0 false (by decide)]

end Derivation

end Libcoin
