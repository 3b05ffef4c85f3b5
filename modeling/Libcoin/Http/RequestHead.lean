/-
Requests as they are written, and what the parser makes of them.

* `RequestHead`: a method, a URI, a version and headers in the form that HTTP gives them, which is a structure so that
  only well-formed ones can be built. Every header is a name, a colon, a space and a value.
* `RequestHead.passes`: the parser reads it to its end. `parse_complete` and `parsed` say what the request is then:
  what was written, with the names and values of the headers in lower case.
-/

import Libcoin.Http.RequestParser

namespace Libcoin

open Machine RequestParser

/-- A header: the name is a token, the value has no control characters. -/
structure Field where
  name : Data
  value : Data
  named : name ≠ []
  token : ∀ c ∈ name, isToken c = true
  printed : ∀ c ∈ value, isCtl c = false

namespace Field

def isAuthorization (field : Field) : Bool := lower field.name = text "authorization"

def bytes (field : Field) : Data := field.name ++ [58, 32] ++ field.value ++ [13, 10]

/-- What the parser adds to the headers. -/
def addTo (headers : Headers) (field : Field) : Headers := headers.insert (lower field.name) (lower field.value)

/-- The size of the payload after this header. -/
def declare (length : Nat) (field : Field) : Nat :=
  if lower field.name = text "content-length" then extractUnsigned (lower field.value) else length

end Field

/-- What stands before the payload of a request. The credentials are given once. -/
structure RequestHead where
  method : Data
  uri : Data
  major : UInt8
  minor : UInt8
  fields : List Field
  named : method ≠ []
  token : ∀ c ∈ method, isToken c = true
  printed : ∀ c ∈ uri, c ≠ 32 ∧ isCtl c = false
  digits : isdigit major = true ∧ isdigit minor = true
  single : (fields.filter Field.isAuthorization).length ≤ 1

namespace RequestHead

variable (head : RequestHead)

def bytes : Data :=
  head.method ++ [32] ++ (head.uri ++ [32]) ++ (text "HTTP/" ++ [head.major, 46, head.minor, 13, 10]) ++
    head.fields.flatMap Field.bytes ++ [13, 10]

/-- The size of the payload. -/
def declared : Nat := head.fields.foldl Field.declare 0

def headers : Headers := head.fields.foldl Field.addTo ∅

/-- The request with the payload that follows. -/
def request (uri content : Data) : Request :=
  { method := head.method, uri := uri, versionMajor := head.major.toNat - 48, versionMinor := head.minor.toNat - 48
    headers := head.headers, content := content }

end RequestHead

/-! ### Lines -/

namespace RequestParser

variable {p : RequestParser} {req : Request}

theorem token_ne {c : UInt8} (token : isToken c = true) : c ≠ 32 ∧ c ≠ 58 ∧ c ≠ 13 ∧ c ≠ 9 := by
  refine ⟨?_, ?_, ?_, ?_⟩ <;> (rintro rfl; exact absurd token (by decide))

theorem passes_method {method : Data} (named : method ≠ []) (token : ∀ c ∈ method, isToken c = true) :
    Passes consume (method ++ [32]) (reset, req) ({ reset with state := .uri }, req.setMethod method) := by
  obtain ⟨c, rest, rfl⟩ := List.exists_cons_of_ne_nil named
  obtain ⟨here, later⟩ := List.forall_mem_cons.mp token
  have start : consume (reset, req) c = (none, { reset with state := .method, method := [c] }, req) := by
    simp [consume, reset, here]
  have loop : Passes consume rest ({ reset with state := .method, method := [c] }, req)
      ({ reset with state := .method, method := [c] ++ rest }, req) := by
    refine Passes.loop (fun seen => ({ reset with state := .method, method := seen }, req)) (fun seen c taken => ?_)
      later [c]
    simp [consume, taken, (token_ne taken).1]
  exact .cons start (loop.append (.one (by simp [consume, reset])))

theorem passes_written {written : Data} (printed : ∀ c ∈ written, c ≠ 32 ∧ isCtl c = false) :
    Passes consume written ({ reset with state := .uri }, req) ({ reset with state := .uri, uri := written }, req) := by
  refine Passes.loop (fun seen => ({ reset with state := .uri, uri := seen }, req)) (fun seen c taken => ?_) printed []
  simp [consume, taken.1, taken.2]

theorem passes_uri {written uri : Data} (printed : ∀ c ∈ written, c ≠ 32 ∧ isCtl c = false)
    (decoded : urlDecode written = some uri) :
    Passes consume (written ++ [32]) ({ reset with state := .uri }, req)
      ({ reset with state := .httpVersionH }, req.setURI uri) :=
  (passes_written printed).append (.one (by simp [consume, decoded, reset]))

/-- The parser at the start of a line of headers. -/
def atLine (major minor : Int) (name value : Data) (length : Nat) : RequestParser :=
  { reset with
    state := .headerLineStart, versionMajor := major, versionMinor := minor, name := name, value := value
    length := length }

theorem passes_version {major minor : UInt8} (digits : isdigit major = true ∧ isdigit minor = true) :
    Passes consume (text "HTTP/" ++ [major, 46, minor, 13, 10]) ({ reset with state := .httpVersionH }, req)
      (atLine (major.toNat - 48) (minor.toNat - 48) [] [] 0,
        req.setVersion (major.toNat - 48) (minor.toNat - 48)) := by
  have first : consume ({ reset with state := .httpVersionMajorStart }, req) major =
      (none, { reset with state := .httpVersionMajor, versionMajor := major.toNat - 48 }, req) := by
    simp [consume, digits.1, reset]
  have second : consume
      ({ reset with state := .httpVersionMinorStart, versionMajor := major.toNat - 48 }, req) minor =
      (none, { reset with
        state := .httpVersionMinor, versionMajor := major.toNat - 48, versionMinor := minor.toNat - 48 }, req) := by
    simp [consume, digits.2, reset]
  have word : Passes consume (text "HTTP/") ({ reset with state := .httpVersionH }, req)
      ({ reset with state := .httpVersionMajorStart }, req) :=
    .cons rfl (.cons rfl (.cons rfl (.cons rfl (.one rfl))))
  exact word.append (.cons first (.cons rfl (.cons second (.cons rfl (.one rfl)))))

theorem passes_name (field : Field) (p : RequestParser) :
    Passes consume (field.name ++ [58, 32]) ({ p with state := .headerLineStart }, req)
      ({ p with state := .headerValue, name := lower field.name, value := [] }, req) := by
  obtain ⟨c, rest, word⟩ := List.exists_cons_of_ne_nil field.named
  have token := field.token
  rw [word] at token ⊢
  obtain ⟨here, later⟩ := List.forall_mem_cons.mp token
  have start : consume ({ p with state := .headerLineStart }, req) c =
      (none, { p with state := .headerName, name := lower [c] }, req) := by
    obtain ⟨space, -, ended, tab⟩ := token_ne here
    simp [consume, here, space, ended, tab]
  have loop : Passes consume rest ({ p with state := .headerName, name := lower [c] }, req)
      ({ p with state := .headerName, name := lower ([c] ++ rest) }, req) := by
    refine Passes.loop (fun seen => ({ p with state := .headerName, name := lower seen }, req)) (fun seen c taken => ?_)
      later [c]
    simp [consume, taken, (token_ne taken).2.1, lower_append]
  exact (Passes.cons start loop).append (.cons rfl (.one rfl))

theorem passes_value (field : Field) (p : RequestParser) :
    Passes consume (field.value ++ [13, 10]) ({ p with state := .headerValue, value := [] }, req)
      ({ p with
          state := .headerLineStart, value := lower field.value
          length := if p.name = text "content-length" then extractUnsigned (lower field.value) else p.length },
        req.addHeader p.name (lower field.value)) := by
  have loop : Passes consume field.value ({ p with state := .headerValue, value := lower [] }, req)
      ({ p with state := .headerValue, value := lower ([] ++ field.value) }, req) := by
    refine Passes.loop (fun seen => ({ p with state := .headerValue, value := lower seen }, req))
      (fun seen c taken => ?_) field.printed []
    have goes : c ≠ 13 := by
      rintro rfl
      exact absurd taken (by decide)
    simp [consume, taken, goes, lower_append]
  exact loop.append (.cons rfl (.one rfl))

/-- A header takes the parser from the start of a line to the start of the next one. -/
theorem passes_field (field : Field) (major minor : Int) (name value : Data) (length : Nat) :
    Passes consume field.bytes (atLine major minor name value length, req)
      (atLine major minor (lower field.name) (lower field.value) (field.declare length),
        req.addHeader (lower field.name) (lower field.value)) := by
  rw [Field.bytes, List.append_assoc]
  exact (passes_name field (atLine major minor name value length)).append
    (passes_value field (atLine major minor (lower field.name) [] length))

/-- The headers, one after the other. -/
theorem passes_fields (fields : List Field) (major minor : Int) (name value : Data) (length : Nat) (headers : Headers) :
    ∃ name' value', Passes consume (fields.flatMap Field.bytes)
      (atLine major minor name value length, { req with headers := headers })
      (atLine major minor name' value' (fields.foldl Field.declare length),
        { req with headers := fields.foldl Field.addTo headers }) := by
  induction fields generalizing name value length headers with
  | nil => exact ⟨name, value, .nil⟩
  | cons field fields ih =>
    obtain ⟨name', value', later⟩ := ih (lower field.name) (lower field.value) (field.declare length)
      (field.addTo headers)
    exact ⟨name', value', (passes_field field major minor name value length).append later⟩

/-! ### The payload -/

/-- A payload ends with the character that completes its size. -/
theorem parse_payload {p : RequestParser} (started : p.state = .payload) {body : Data}
    (open' : p.payload.length < p.length) :
    parse body (p, req) =
      if p.payload.length + body.length < p.length then (none, [], { p with payload := p.payload ++ body }, req)
      else (some true, body.drop (p.length - p.payload.length), reset,
        req.setContent (p.payload ++ body.take (p.length - p.payload.length))) := by
  induction body generalizing p with
  | nil =>
    rw [List.length_nil, Nat.add_zero, if_pos open', List.append_nil]
    rfl
  | cons c body ih =>
    have size : (p.payload ++ [c]).length = p.payload.length + 1 := by simp
    by_cases further : (p.payload ++ [c]).length < p.length
    · have goes : consume (p, req) c = (none, { p with payload := p.payload ++ [c] }, req) := by
        simp only [consume, started, if_pos further]
      have rest := @ih { p with payload := p.payload ++ [c] } started further
      have count : p.length - p.payload.length = p.length - (p.payload ++ [c]).length + 1 := by omega
      have whole : p.payload.length + (c :: body).length = (p.payload ++ [c]).length + body.length := by
        rw [List.length_cons]
        omega
      have parts (later : Data) : p.payload ++ c :: later = p.payload ++ [c] ++ later := List.append_cons ..
      rw [count, whole, List.drop_succ_cons, List.take_succ_cons, parts body, parts (body.take _),
        parse, run_goes goes]
      exact rest
    · have stops : consume (p, req) c = (some true, reset, req.setContent (p.payload ++ [c])) := by
        simp only [consume, started, if_neg further]
      have count : p.length - p.payload.length = 1 := by omega
      rw [count, if_neg (by rw [List.length_cons]; omega), parse, run_stops stops]
      rfl

/-- The end of the headers, and the payload. -/
theorem parse_ended {p : RequestParser} (ended : p.state = .expectingNewline3) (fresh : p.payload = []) (body : Data) :
    parse (10 :: body) (p, req) =
      if body.length < p.length then (none, [], { p with state := .payload, payload := body }, req)
      else (some true, body.drop p.length, reset, req.setContent (body.take p.length)) := by
  by_cases sized : p.length = 0
  · have stops : consume (p, req) 10 = (some true, reset, req.setContent []) := by
      simp [consume, ended, sized, fresh]
    rw [sized, parse, run_stops stops]
    rfl
  · have goes : consume (p, req) 10 = (none, { p with state := .payload, payload := [] }, req) := by
      simp [consume, ended, sized]
    have payload := @parse_payload req { p with state := .payload, payload := [] } rfl body (Nat.pos_of_ne_zero sized)
    simp only [List.length_nil, Nat.zero_add, List.nil_append, Nat.sub_zero] at payload
    rw [parse, run_goes goes]
    exact payload

/-! ### All that is before the payload -/

/-- The parser reads what is written up to the end of the line that ends the headers. -/
theorem parse_written {method written uri : Data} {major minor : UInt8} (named : method ≠ [])
    (token : ∀ c ∈ method, isToken c = true) (printed : ∀ c ∈ written, c ≠ 32 ∧ isCtl c = false)
    (decoded : urlDecode written = some uri) (digits : isdigit major = true ∧ isdigit minor = true)
    (fields : List Field) (body : Data) :
    ∃ name value, parse (method ++ [32] ++ (written ++ [32]) ++ (text "HTTP/" ++ [major, 46, minor, 13, 10]) ++
        fields.flatMap Field.bytes ++ [13, 10] ++ body) (reset, Request.empty) =
      parse (10 :: body)
        ({ atLine (major.toNat - 48) (minor.toNat - 48) name value (fields.foldl Field.declare 0) with
            state := .expectingNewline3 },
          { method := method, uri := uri, versionMajor := major.toNat - 48, versionMinor := minor.toNat - 48
            headers := fields.foldl Field.addTo ∅, content := [] }) := by
  have first := @passes_method Request.empty method named token
  have target := @passes_uri (Request.empty.setMethod method) written uri printed decoded
  have version := @passes_version ((Request.empty.setMethod method).setURI uri) major minor digits
  obtain ⟨name, value, lines⟩ := @passes_fields (((Request.empty.setMethod method).setURI uri).setVersion
    (major.toNat - 48) (minor.toNat - 48)) fields (major.toNat - 48) (minor.toNat - 48) [] [] 0 ∅
  refine ⟨name, value, ?_⟩
  have all := ((first.append target).append version).append lines
  have split : method ++ [32] ++ (written ++ [32]) ++ (text "HTTP/" ++ [major, 46, minor, 13, 10]) ++
      fields.flatMap Field.bytes ++ [13, 10] ++ body = method ++ [32] ++ (written ++ [32]) ++
      (text "HTTP/" ++ [major, 46, minor, 13, 10]) ++ fields.flatMap Field.bytes ++ 13 :: 10 :: body := by
    simp
  rw [split, parse, all (13 :: 10 :: body)]
  exact run_goes rfl

end RequestParser

/-! ### Requests -/

namespace RequestHead

variable (head : RequestHead) {uri body rest : Data} {p : RequestParser} {req : Request}

/-- The parser reads what is written up to the end of the line that ends the headers. -/
theorem parse_head (decoded : urlDecode head.uri = some uri) (body : Data) :
    ∃ name value, parse (head.bytes ++ body) (reset, Request.empty) =
      parse (10 :: body)
        ({ atLine (head.major.toNat - 48) (head.minor.toNat - 48) name value head.declared with
            state := .expectingNewline3 },
          head.request uri []) :=
  parse_written head.named head.token head.printed decoded head.digits head.fields body

/-- With a payload of the declared size the request is complete. -/
theorem parse_complete (decoded : urlDecode head.uri = some uri) (enough : head.declared ≤ body.length) :
    parse (head.bytes ++ body) (reset, Request.empty) =
      (some true, body.drop head.declared, reset, head.request uri (body.take head.declared)) := by
  obtain ⟨name, value, read⟩ := head.parse_head decoded body
  rw [read]
  exact (parse_ended rfl rfl body).trans (if_neg (Nat.not_lt.mpr enough))

/-- What a parsed request is. -/
theorem parsed (run : parse (head.bytes ++ body) (reset, Request.empty) = (some true, rest, p, req)) :
    ∃ uri, urlDecode head.uri = some uri ∧ head.declared ≤ body.length ∧
      req = head.request uri (body.take head.declared) := by
  cases decoded : urlDecode head.uri with
  | none =>
    -- the parser stops after the URI
    have method := @passes_method Request.empty head.method head.named head.token
    have target := @passes_written (Request.empty.setMethod head.method) head.uri head.printed
    have stops : consume ({ reset with state := .uri, uri := head.uri }, Request.empty.setMethod head.method) 32 =
        (some false, { reset with state := .uri, uri := head.uri }, Request.empty.setMethod head.method) := by
      simp [consume, decoded]
    have split : head.bytes ++ body = head.method ++ [32] ++ head.uri ++ 32 :: (text "HTTP/" ++
        [head.major, 46, head.minor, 13, 10] ++ head.fields.flatMap Field.bytes ++ [13, 10] ++ body) := by
      simp [bytes]
    rw [split, parse, method.append target, run_stops stops] at run
    cases run
  | some uri =>
    obtain ⟨name, value, read⟩ := head.parse_head decoded body
    by_cases enough : head.declared ≤ body.length
    · rw [head.parse_complete decoded enough] at run
      cases run
      exact ⟨uri, rfl, enough, rfl⟩
    · rw [read, (parse_ended rfl rfl body).trans (if_pos (Nat.not_le.mp enough))] at run
      cases run

/-! ### Headers -/

/-- The last header of a name counts. -/
theorem lookup_fields (fields : List Field) (headers : Headers) (name : Data) :
    (fields.foldl Field.addTo headers).lookup name =
      ((fields.filter fun field => decide (lower field.name = name)).getLast?.map fun field => lower field.value).or
        (headers.lookup name) := by
  induction fields using List.reverseRecOn with
  | nil => rfl
  | append_singleton fields field ih =>
    rw [List.foldl_append, List.filter_append]
    by_cases here : lower field.name = name
    · subst here
      simp [Field.addTo]
    · simp [Field.addTo, here, AList.lookup_insert_ne (Ne.symm here), ih]

/-- The value of the header with the credentials. -/
def authorization : Option Data := (head.fields.find? Field.isAuthorization).map Field.value

theorem lookup_authorization : head.headers.lookup (text "authorization") = head.authorization.map lower := by
  have last : (head.fields.filter Field.isAuthorization).getLast? = head.fields.find? Field.isAuthorization := by
    rw [← List.head?_filter]
    have single := head.single
    cases found : head.fields.filter Field.isAuthorization with
    | nil => rfl
    | cons field rest =>
      rw [found, List.length_cons] at single
      rw [List.length_eq_zero_iff.mp (by omega : rest.length = 0)]
      rfl
  rw [headers, lookup_fields, AList.lookup_empty, Option.or_none, authorization, Option.map_map, ← last]
  rfl

end RequestHead

end Libcoin
