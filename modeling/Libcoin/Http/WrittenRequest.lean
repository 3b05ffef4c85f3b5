/-
Well-formed requests with a payload, and how the parser takes them.

* `WrittenRequest` is a structure, so that only well-formed ones can be built: in its URI there are two hexadecimal
  digits after each percent sign, and the length of its body is given by one `Content-Length`, or there is no body.
* `Decodes` says what a URI stands for, and `Reads` what a request has to be.
* `Accepted`: any chunks lead to the request, at the last byte. `accepted_iff` is the law, where the length that the
  parser reads is an `unsigned int`.
-/

import Libcoin.Http.KeepAlive
import Libcoin.Http.RequestHead
import Libcoin.Keys.Hex

namespace Libcoin

open Machine RequestParser

/-! ### URIs -/

/-- What a URI stands for: an escape is a byte, and a plus sign is a space. -/
inductive Decodes : Data → Data → Prop
  | nil : Decodes [] []
  | escape {a b : UInt8} {written decoded : Data} (first : isxdigit a = true) (second : isxdigit b = true)
      (rest : Decodes written decoded) : Decodes (37 :: a :: b :: written) (digitsByte a b :: decoded)
  | plus {written decoded : Data} (rest : Decodes written decoded) : Decodes (43 :: written) (32 :: decoded)
  | plain {c : UInt8} {written decoded : Data} (other : c ≠ 37 ∧ c ≠ 43) (rest : Decodes written decoded) :
      Decodes (c :: written) (c :: decoded)

/-- Two hexadecimal digits follow each percent sign. -/
def Escaped (uri : Data) : Prop :=
  ∀ before after, uri = before ++ 37 :: after →
    ∃ a b rest, after = a :: b :: rest ∧ isxdigit a = true ∧ isxdigit b = true

theorem Escaped.of_append (first : Data) {second : Data} (escaped : Escaped (first ++ second)) : Escaped second :=
  fun before after same => escaped (first ++ before) after (by rw [same, List.append_assoc])

theorem exists_decodes : ∀ uri : Data, Escaped uri → ∃ decoded, Decodes uri decoded
  | [], _ => ⟨[], .nil⟩
  | c :: rest, escaped => by
    by_cases percent : c = 37
    · subst percent
      obtain ⟨a, b, later, rfl, first, second⟩ := escaped [] rest rfl
      obtain ⟨decoded, decodes⟩ := exists_decodes later (escaped.of_append [37, a, b])
      exact ⟨_, .escape first second decodes⟩
    · obtain ⟨decoded, decodes⟩ := exists_decodes rest (escaped.of_append [c])
      by_cases plus : c = 43
      · subst plus
        exact ⟨_, .plus decodes⟩
      · exact ⟨_, .plain ⟨percent, plus⟩ decodes⟩
termination_by uri => uri.length

namespace RequestParser

/-- A hexadecimal digit is no sign and no part of `0x`. -/
theorem isxdigit_ne (c : UInt8) : isxdigit c = true → c ≠ 43 ∧ c ≠ 45 ∧ tolower c ≠ 120 := by
  revert c
  apply forall_byte
  decide +kernel

theorem extractHex_pair {a b : UInt8} (first : isxdigit a = true) (second : isxdigit b = true) :
    extractHex [a, b] = some ((16 * hexDigit a + hexDigit b : Nat) : Int) := by
  obtain ⟨plus, minus, -⟩ := isxdigit_ne a first
  have unsigned : takeSign ([a, b].dropWhile isspace) = (false, [a, b]) := by
    simp [takeSign, isspace_of_isxdigit a first, plus, minus]
  have plain : lower ([a, b].take 2) ≠ text "0x" := fun same =>
    (isxdigit_ne b second).2.2 (List.cons.inj (List.cons.inj same).2).1
  unfold extractHex
  rw [unsigned]
  dsimp only
  rw [if_neg plain, List.takeWhile_cons_of_pos first, List.takeWhile_cons_of_pos second]
  simp [digitsValue, Nat.mul_comm]

/-- `urlDecode` reads a URI as what it stands for. -/
theorem urlDecode_of_decodes {written decoded : Data} (decodes : Decodes written decoded) :
    urlDecode written = some decoded := by
  induction decodes with
  | nil => rfl
  | escape first second _ ih =>
    rename_i a b _ _ _
    have byte : UInt8.ofNat (((16 * hexDigit a + hexDigit b : Nat) : Int) % 256).toNat = digitsByte a b := by
      have high := hexDigit_lt a first
      have low := hexDigit_lt b second
      unfold digitsByte
      congr 1
      omega
    simp only [urlDecode, if_true, extractHex_pair first second, ih, Option.map_some, byte]
  | plus _ ih =>
    rw [urlDecode.eq_def]
    simp [ih]
  | plain other _ ih =>
    rw [urlDecode.eq_def]
    simp [ih, other.1, other.2]

/-! ### Lengths -/

/-- Decimal digits of a number. -/
structure Numeral (s : Data) (n : Nat) : Prop where
  nonempty : s ≠ []
  digits : ∀ c ∈ s, isdigit c = true
  value : digitsValue 10 (fun c => c.toNat - 48) s = n

theorem isdigit_ne (c : UInt8) : isdigit c = true → isspace c = false ∧ c ≠ 43 ∧ c ≠ 45 ∧ tolower c = c := by
  revert c
  apply forall_byte
  decide +kernel

/-- What does not fit in an `unsigned int` is the greatest value. -/
theorem Numeral.extractUnsigned {s : Data} {n : Nat} (numeral : Numeral s n) :
    extractUnsigned (lower s) = if n < 2 ^ 32 then n else 2 ^ 32 - 1 := by
  obtain ⟨nonempty, digits, value⟩ := numeral
  obtain ⟨c, rest, rfl⟩ := List.exists_cons_of_ne_nil nonempty
  obtain ⟨space, plus, minus, -⟩ := isdigit_ne c (digits c List.mem_cons_self)
  have lowered : lower (c :: rest) = c :: rest :=
    (List.map_congr_left (g := id) fun d member => (isdigit_ne d (digits d member)).2.2.2).trans (List.map_id _)
  have unsigned : takeSign ((c :: rest).dropWhile isspace) = (false, c :: rest) := by
    simp [takeSign, space, plus, minus]
  have all : (c :: rest).takeWhile isdigit = c :: rest := List.takeWhile_eq_self_iff.mpr digits
  unfold RequestParser.extractUnsigned
  rw [lowered, unsigned]
  dsimp only
  rw [all, value]
  simp only [Bool.false_eq_true, if_false]
  split <;> split <;> omega

end RequestParser

namespace Field

def isContentLength (field : Field) : Bool := lower field.name = text "content-length"

/-- The last header with the length counts. -/
theorem foldl_declare (fields : List Field) (length : Nat) :
    fields.foldl declare length =
      (((fields.filter isContentLength).getLast?).map fun field => extractUnsigned (lower field.value)).getD length := by
  induction fields using List.reverseRecOn with
  | nil => rfl
  | append_singleton fields field ih =>
    rw [List.foldl_append, List.filter_append]
    by_cases here : lower field.name = text "content-length"
    · simp [declare, isContentLength, here]
    · simp [declare, isContentLength, here, ih]

end Field

/-! ### Requests -/

/-- A request, as it is written. -/
structure WrittenRequest where
  method : Data
  uri : Data
  major : UInt8
  minor : UInt8
  fields : List Field
  body : Data
  named : method ≠ []
  token : ∀ c ∈ method, isToken c = true
  printed : ∀ c ∈ uri, c ≠ 32 ∧ isCtl c = false
  escaped : Escaped uri
  digits : isdigit major = true ∧ isdigit minor = true
  sized : fields.filter Field.isContentLength = [] ∧ body = [] ∨
    ∃ field, fields.filter Field.isContentLength = [field] ∧ Numeral field.value body.length

namespace WrittenRequest

variable (w : WrittenRequest)

def bytes : Data :=
  w.method ++ [32] ++ (w.uri ++ [32]) ++ (text "HTTP/" ++ [w.major, 46, w.minor, 13, 10]) ++
    w.fields.flatMap Field.bytes ++ [13, 10] ++ w.body

/-- The last value of a header, in lower case. The case of its name does not matter. -/
def header (name : Data) : Option Data :=
  ((w.fields.filter fun field => decide (lower field.name = lower name)).getLast?).map fun field => lower field.value

/-- The request is what was written. -/
structure Reads (req : Request) : Prop where
  method : req.method = w.method
  uri : Decodes w.uri req.uri
  version : req.versionMajor = w.major.toNat - 48 ∧ req.versionMinor = w.minor.toNat - 48
  headers : ∀ name, req.headers.lookup (lower name) = w.header name
  content : req.content = w.body

/-- A parser that was constructed reads the request from any chunks, and there is no result before the last byte. -/
structure Accepted : Prop where
  chunks : ∀ (versionMajor versionMinor : Int) (length : Nat) (chunks : List Data), chunks.flatten = w.bytes →
    ∃ parser req, runChunks consume chunks (constructed versionMajor versionMinor length, Request.empty) =
      (some true, [], parser, req) ∧ w.Reads req
  early : ∀ (versionMajor versionMinor : Int) (length : Nat) (before after : Data), before ++ after = w.bytes → after ≠ [] →
    (parse before (constructed versionMajor versionMinor length, Request.empty)).1 = none

/-- The size of the payload that the parser reads. -/
def declared : Nat := w.fields.foldl Field.declare 0

theorem declared_eq : w.declared = if w.body.length < 2 ^ 32 then w.body.length else 2 ^ 32 - 1 := by
  unfold declared
  rw [Field.foldl_declare]
  rcases w.sized with ⟨absent, empty⟩ | ⟨field, single, numeral⟩
  · rw [absent, empty]
    rfl
  · rw [single]
    exact numeral.extractUnsigned

theorem lookup_headers (name : Data) : (w.fields.foldl Field.addTo ∅).lookup (lower name) = w.header name := by
  rw [RequestHead.lookup_fields, AList.lookup_empty, Option.or_none]
  rfl

/-- What the parser makes of the request: the body up to the length that it read. -/
theorem parse_bytes (versionMajor versionMinor : Int) (length : Nat) :
    ∃ parser req, parse w.bytes (constructed versionMajor versionMinor length, Request.empty) =
        (some true, w.body.drop w.declared, parser, req) ∧ (w.declared = w.body.length → w.Reads req) := by
  obtain ⟨uri, decodes⟩ := exists_decodes w.uri w.escaped
  obtain ⟨name, value, read⟩ := parse_written w.named w.token w.printed (urlDecode_of_decodes decodes) w.digits w.fields
    w.body
  have enough : ¬w.body.length < w.declared := by
    rw [declared_eq]
    split <;> omega
  have ended := read.trans ((parse_ended rfl rfl w.body).trans (if_neg enough))
  obtain ⟨result, rest, req, parser, parser', run, same⟩ :=
    (equivalent_constructed versionMajor versionMinor length).parse Request.empty w.bytes
  have both := ended.symm.trans same
  obtain ⟨isTrue, others⟩ := Prod.mk.inj both
  obtain ⟨left, others⟩ := Prod.mk.inj others
  obtain ⟨-, filled⟩ := Prod.mk.inj others
  rw [← isTrue, ← left, ← filled] at run
  refine ⟨parser, _, run, fun all => ⟨rfl, decodes, ⟨rfl, rfl⟩, w.lookup_headers, ?_⟩⟩
  exact List.take_of_length_le all.ge

/-- Nothing of the body is left when a request is accepted. -/
theorem Accepted.declared (accepted : w.Accepted) : w.body.length ≤ w.declared := by
  obtain ⟨parser, req, run, -⟩ := accepted.chunks 0 0 0 [w.bytes] List.flatten_singleton
  obtain ⟨parser', req', parsed, -⟩ := w.parse_bytes 0 0 0
  rw [runChunks_eq, List.flatten_singleton] at run
  obtain ⟨-, both⟩ := Prod.mk.inj (run.symm.trans parsed)
  exact List.drop_eq_nil_iff.mp (Prod.mk.inj both).1.symm

/-- **When a well-formed request is accepted**: its body has fewer bytes than an `unsigned int` can count. -/
theorem accepted_iff (w : WrittenRequest) : w.Accepted ↔ w.body.length < 2 ^ 32 := by
  have whole := w.declared_eq
  constructor
  · intro accepted
    have enough := accepted.declared
    by_contra long
    rw [if_neg long] at whole
    omega
  · intro short
    rw [if_pos short] at whole
    constructor
    · intro versionMajor versionMinor length chunks cut
      obtain ⟨parser, req, run, reads⟩ := w.parse_bytes versionMajor versionMinor length
      rw [List.drop_eq_nil_of_le whole.ge] at run
      refine ⟨parser, req, ?_, reads whole⟩
      rw [runChunks_eq, cut]
      exact run
    · intro versionMajor versionMinor length before after cut more
      obtain ⟨parser, req, run, -⟩ := w.parse_bytes versionMajor versionMinor length
      rw [List.drop_eq_nil_of_le whole.ge, ← cut] at run
      exact run_early run more

end WrittenRequest

namespace Small

/-- A header with the digits of 4294967296. -/
def contentLength : Field :=
  { name := text "Content-Length", value := [52, 50, 57, 52, 57, 54, 55, 50, 57, 54]
    named := by decide +kernel, token := by decide +kernel, printed := by decide +kernel }

theorem contentLength_numeral : Numeral contentLength.value (2 ^ 32) :=
  ⟨by decide +kernel, by decide +kernel, by decide +kernel⟩

theorem escaped_slash : Escaped [47] := by
  intro before after same
  rcases before with _ | ⟨c, before⟩
  · cases same
  · obtain ⟨-, others⟩ := List.cons.inj same
    simp at others

theorem contentLength_sized : [contentLength].filter Field.isContentLength = [contentLength] :=
  List.filter_cons_of_pos (by decide +kernel)

theorem post_token : text "POST" ≠ [] ∧ ∀ c ∈ text "POST", isToken c = true := by
  constructor
  · decide +kernel
  · decide +kernel

theorem slash_printed : ∀ c ∈ ([47] : Data), c ≠ 32 ∧ isCtl c = false := by decide +kernel

theorem one_digit : isdigit 49 = true ∧ isdigit 49 = true := ⟨rfl, rfl⟩

theorem large_sized : Numeral contentLength.value (List.replicate (2 ^ 32) (0 : UInt8)).length := by
  rw [List.length_replicate]
  exact contentLength_numeral

/-- As many bytes as the header says. -/
def largeRequest : WrittenRequest :=
  { method := text "POST", uri := [47], major := 49, minor := 49, fields := [contentLength]
    body := List.replicate (2 ^ 32) 0
    named := post_token.1, token := post_token.2, printed := slash_printed, digits := one_digit
    escaped := escaped_slash
    sized := .inr ⟨contentLength, contentLength_sized, large_sized⟩ }

end Small

/-- Of 2 ^ 32 bytes, the last one is left for the next request. -/
theorem WrittenRequest.accepted_fails : ¬Small.largeRequest.Accepted := by
  intro accepted
  have enough := accepted.declared
  have size : Small.largeRequest.body.length = 2 ^ 32 := List.length_replicate
  rw [declared_eq, size, if_neg (by decide +kernel)] at enough
  exact absurd enough (by decide +kernel)

end Libcoin
