/-
`RequestParser`: the state machine that reads an HTTP request.

* `Request` is what it fills in. The names and the values of headers are put to lower case on the way, so that a
  header is found whichever way it is written, and its value is no longer what was sent.
* `RequestParser.consume` takes one character, and `parse` the characters up to a result.
* `RequestParser.parse_body`: the payload has as many characters as the header says.
-/

import Libcoin.Http.Auth
import Libcoin.Keys.Base58
import Libcoin.Library.Machine
import Mathlib.Data.List.AList

namespace Libcoin

/-- `tolower`. -/
def tolower (c : UInt8) : UInt8 := if 65 ≤ c && c ≤ 90 then c + 32 else c

def lower (s : Data) : Data := s.map tolower

@[simp] theorem lower_nil : lower [] = [] := rfl

@[simp] theorem lower_cons (c : UInt8) (s : Data) : lower (c :: s) = tolower c :: lower s := rfl

theorem lower_append (first second : Data) : lower (first ++ second) = lower first ++ lower second := List.map_append

/-! ### Requests -/

/-- `std::map<std::string, std::string>`. -/
abbrev Headers := AList fun _ : Data => Data

structure Request where
  method : Data
  uri : Data
  versionMajor : Int
  versionMinor : Int
  headers : Headers
  content : Data

namespace Request

/-- A request after `reset`. -/
def empty : Request := { method := [], uri := [], versionMajor := 0, versionMinor := 0, headers := ∅, content := [] }

def setMethod (method : Data) (req : Request) : Request := { req with method := method }

def setURI (uri : Data) (req : Request) : Request := { req with uri := uri }

def setVersion (major minor : Int) (req : Request) : Request :=
  { req with versionMajor := major, versionMinor := minor }

def setContent (content : Data) (req : Request) : Request := { req with content := content }

def addHeader (field value : Data) (req : Request) : Request :=
  { req with headers := req.headers.insert field value }

def isGet (req : Request) : Bool := req.method = text "GET"

def isPost (req : Request) : Bool := req.method = text "POST"

/-- The part of the URI before the question mark. -/
def path (req : Request) : Data := req.uri.takeWhile fun c => decide (c ≠ 63)

/-- The part of the URI after the question mark. -/
def query (req : Request) : Data := (req.uri.dropWhile fun c => decide (c ≠ 63)).drop 1

def basicAuth (req : Request) : Data :=
  match req.headers.lookup (text "authorization") with
  | some auth => if 9 < auth.length && auth.take 6 = text "basic " then auth.drop 6 else []
  | none => []

def mime (req : Request) : Data := (req.headers.lookup (text "content-type")).getD []

end Request

/-! ### Characters and numbers -/

namespace RequestParser

def isChar (c : UInt8) : Bool := c ≤ 127

def isCtl (c : UInt8) : Bool := c ≤ 31 || c = 127

def isTspecial (c : UInt8) : Bool := decide (c ∈ text "()<>@,;:\\\"/[]?=\x7b\x7d \t")

/-- What a method and the name of a header are made of. -/
def isToken (c : UInt8) : Bool := isChar c && !isCtl c && !isTspecial c

/-- The value of digits. -/
def digitsValue (base : Nat) (digit : UInt8 → Nat) (s : Data) : Nat := s.foldl (fun n c => n * base + digit c) 0

/-- A sign, and what follows it. -/
def takeSign (s : Data) : Bool × Data :=
  if s.head? = some 45 then (true, s.tail) else if s.head? = some 43 then (false, s.tail) else (false, s)

/-- `istringstream(s) >> n` for an `unsigned int`. It is zero where there is no digit, and the greatest value where
there are too many. -/
def extractUnsigned (s : Data) : Nat :=
  let (negative, s) := takeSign (s.dropWhile isspace)
  let n := digitsValue 10 (fun c => c.toNat - 48) (s.takeWhile isdigit)
  if 2 ^ 32 ≤ n then 2 ^ 32 - 1 else if negative then (2 ^ 32 - n) % 2 ^ 32 else n

def isxdigit (c : UInt8) : Bool := isdigit c || (65 ≤ c && c ≤ 70) || (97 ≤ c && c ≤ 102)

def hexDigit (c : UInt8) : Nat := if isdigit c then c.toNat - 48 else if c ≤ 70 then c.toNat - 55 else c.toNat - 87

/-- `istringstream(s) >> std::hex >> n`. -/
def extractHex (s : Data) : Option Int :=
  let (negative, s) := takeSign (s.dropWhile isspace)
  let s := if lower (s.take 2) = text "0x" then s.drop 2 else s
  let digits := s.takeWhile isxdigit
  let n : Int := digitsValue 16 hexDigit digits
  if digits.isEmpty then none else some (if negative then -n else n)

def urlDecode : Data → Option Data
  | [] => some []
  | c :: rest =>
    if c = 37 then
      match rest with
      | a :: b :: rest =>
        match extractHex [a, b] with
        | some value => (urlDecode rest).map (UInt8.ofNat (value % 256).toNat :: ·)
        | none => none
      | _ => none
    else (urlDecode rest).map ((if c = 43 then 32 else c) :: ·)

inductive State
  | methodStart
  | method
  | uriStart
  | uri
  | httpVersionH
  | httpVersionT1
  | httpVersionT2
  | httpVersionP
  | httpVersionSlash
  | httpVersionMajorStart
  | httpVersionMajor
  | httpVersionMinorStart
  | httpVersionMinor
  | expectingNewline1
  | headerLineStart
  | headerLws
  | headerName
  | spaceBeforeHeaderValue
  | headerValue
  | expectingNewline2
  | expectingNewline3
  | payload
  deriving DecidableEq, Repr

end RequestParser

/-! ### The parser -/

structure RequestParser where
  state : RequestParser.State
  method : Data
  uri : Data
  versionMajor : Int
  versionMinor : Int
  payload : Data
  name : Data
  value : Data
  length : Nat

namespace RequestParser

/-- The parser after `reset`, which forgets everything. -/
def reset : RequestParser :=
  { state := .methodStart, method := [], uri := [], versionMajor := 0, versionMinor := 0, payload := [], name := []
    value := [], length := 0 }

/-- The next state for a character of a word, or the end. -/
def expect (c : UInt8) (next : State) (input : UInt8) (p : RequestParser) (req : Request) :
    Option Bool × RequestParser × Request :=
  if input = c then (none, { p with state := next }, req) else (some false, reset, req)

/-- `consume`: an indeterminate result, true or false. -/
def consume (s : RequestParser × Request) (input : UInt8) : Option Bool × RequestParser × Request :=
  let (p, req) := s
  match p.state with
  | .methodStart =>
    if !isToken input then (some false, p, req)
    else (none, { p with state := .method, method := p.method ++ [input] }, req)
  | .method =>
    if input = 32 then (none, { p with state := .uri, method := [] }, req.setMethod p.method)
    else if !isToken input then (some false, reset, req)
    else (none, { p with method := p.method ++ [input] }, req)
  | .uriStart =>
    if isCtl input then (some false, reset, req)
    else (none, { p with state := .uri, uri := p.uri ++ [input] }, req)
  | .uri =>
    if input = 32 then
      match urlDecode p.uri with
      | some uri => (none, { p with state := .httpVersionH, uri := [] }, req.setURI uri)
      | none => (some false, p, req)
    else if isCtl input then (some false, reset, req)
    else (none, { p with uri := p.uri ++ [input] }, req)
  | .httpVersionH => expect 72 .httpVersionT1 input p req
  | .httpVersionT1 => expect 84 .httpVersionT2 input p req
  | .httpVersionT2 => expect 84 .httpVersionP input p req
  | .httpVersionP => expect 80 .httpVersionSlash input p req
  | .httpVersionSlash =>
    expect 47 .httpVersionMajorStart input { p with versionMajor := 0, versionMinor := 0 } req
  | .httpVersionMajorStart =>
    if isdigit input then
      (none, { p with state := .httpVersionMajor, versionMajor := p.versionMajor * 10 + input.toNat - 48 }, req)
    else (some false, reset, req)
  | .httpVersionMajor =>
    if input = 46 then (none, { p with state := .httpVersionMinorStart }, req)
    else if isdigit input then (none, { p with versionMajor := p.versionMajor * 10 + input.toNat - 48 }, req)
    else (some false, reset, req)
  | .httpVersionMinorStart =>
    if isdigit input then
      (none, { p with state := .httpVersionMinor, versionMinor := p.versionMinor * 10 + input.toNat - 48 }, req)
    else (some false, reset, req)
  | .httpVersionMinor =>
    if input = 13 then
      (none, { p with state := .expectingNewline1 }, req.setVersion p.versionMajor p.versionMinor)
    else if isdigit input then (none, { p with versionMinor := p.versionMinor * 10 + input.toNat - 48 }, req)
    else (some false, reset, req)
  | .expectingNewline1 => expect 10 .headerLineStart input { p with length := 0 } req
  | .headerLineStart =>
    if input = 13 then (none, { p with state := .expectingNewline3 }, req)
    else if !req.headers.entries.isEmpty && (input = 32 || input = 9) then
      (none, { p with state := .headerLws }, req)
    else if !isToken input then (some false, reset, req)
    else (none, { p with state := .headerName, name := [tolower input] }, req)
  | .headerLws =>
    if input = 13 then (none, { p with state := .expectingNewline2 }, req)
    else if input = 32 || input = 9 then (none, p, req)
    else if isCtl input then (some false, reset, req)
    else (none, { p with state := .headerValue, value := [tolower input] }, req)
  | .headerName =>
    if input = 58 then (none, { p with state := .spaceBeforeHeaderValue }, req)
    else if !isToken input then (some false, reset, req)
    else (none, { p with name := p.name ++ [tolower input] }, req)
  | .spaceBeforeHeaderValue => expect 32 .headerValue input { p with value := [] } req
  | .headerValue =>
    if input = 13 then
      let length := if p.name = text "content-length" then extractUnsigned p.value else p.length
      (none, { p with state := .expectingNewline2, length := length }, req.addHeader p.name p.value)
    else if isCtl input then (some false, reset, req)
    else (none, { p with value := p.value ++ [tolower input] }, req)
  | .expectingNewline2 => expect 10 .headerLineStart input p req
  | .expectingNewline3 =>
    if input = 10 then
      if p.length ≠ 0 then (none, { p with state := .payload, payload := [] }, req)
      else (some true, reset, req.setContent p.payload)
    else (some false, p, req)
  | .payload =>
    let payload := p.payload ++ [input]
    if payload.length < p.length then (none, { p with payload := payload }, req)
    else (some true, reset, req.setContent payload)

/-- `parse`: the characters up to a result, and those that are left. -/
def parse (input : Data) (s : RequestParser × Request) : Option Bool × Data × RequestParser × Request :=
  Machine.run consume input s

end RequestParser

end Libcoin
