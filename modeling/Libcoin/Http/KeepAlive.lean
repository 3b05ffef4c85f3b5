/-
The parser of requests on a connection that is kept alive.

* `KeepAlive` is the parser with the request of a connection, and the results so far. After each of them the request is
  reset, and the parser goes on.
* `Equivalent`: parsers that differ only in numbers which are read before they are used again. `consume` keeps them so
  (`Equivalent.consume`), and a parser as it is constructed is the same as one that was reset.
* `Spoils` are the two exits of `consume` that forget to reset the parser.
-/

import Libcoin.Http.RequestParser
import Libcoin.Library.Run

namespace Libcoin

namespace RequestParser

/-! ### What a parser forgets -/

/-- The constructor. It leaves the numbers as they are in memory. -/
def constructed (versionMajor versionMinor : Int) (length : Nat) : RequestParser :=
  { reset with versionMajor := versionMajor, versionMinor := versionMinor, length := length }

/-- The version was not read yet, and is set to zero before it is. -/
def State.unversioned : State → Bool
  | .methodStart | .method | .uriStart | .uri | .httpVersionH | .httpVersionT1 | .httpVersionT2 | .httpVersionP
  | .httpVersionSlash => true
  | _ => false

/-- No header was read yet, and the length is set to zero before one is. -/
def State.unsized : State → Bool
  | .httpVersionMajorStart | .httpVersionMajor | .httpVersionMinorStart | .httpVersionMinor | .expectingNewline1 => true
  | state => state.unversioned

/-- The parsers differ only in numbers that are still to be set. -/
structure Equivalent (p q : RequestParser) : Prop where
  state : q.state = p.state
  method : q.method = p.method
  uri : q.uri = p.uri
  payload : q.payload = p.payload
  name : q.name = p.name
  value : q.value = p.value
  version : p.state.unversioned = false → q.versionMajor = p.versionMajor ∧ q.versionMinor = p.versionMinor
  length : p.state.unsized = false → q.length = p.length

variable {p q p' : RequestParser} {req req' : Request} {input : UInt8}

theorem Equivalent.refl : Equivalent p p := ⟨rfl, rfl, rfl, rfl, rfl, rfl, fun _ => ⟨rfl, rfl⟩, fun _ => rfl⟩

theorem equivalent_constructed (versionMajor versionMinor : Int) (length : Nat) :
    Equivalent (constructed versionMajor versionMinor length) reset :=
  ⟨rfl, rfl, rfl, rfl, rfl, rfl, nofun, nofun⟩

/-- Steps with the same result and request. -/
structure Agree (one other : Option Bool × RequestParser × Request) : Prop where
  result : other.1 = one.1
  request : other.2.2 = one.2.2
  parser : Equivalent one.2.1 other.2.1

/-- The numbers are set before they are used. -/
theorem Equivalent.consume (same : Equivalent p q) (req : Request) (input : UInt8) :
    Agree (consume (p, req) input) (consume (q, req) input) := by
  obtain ⟨state, method, uri, payload, name, value, version, length⟩ := same
  obtain ⟨pState, pMethod, pUri, pMajor, pMinor, pPayload, pName, pValue, pLength⟩ := p
  obtain ⟨qState, qMethod, qUri, qMajor, qMinor, qPayload, qName, qValue, qLength⟩ := q
  dsimp only at *
  subst state method uri payload name value
  have never {P : Prop} (late : true = false) : P := Bool.noConfusion late
  cases versioned : qState.unversioned with
  | false =>
    obtain ⟨rfl, rfl⟩ := version versioned
    cases sized : qState.unsized with
    | false =>
      obtain rfl := length sized
      exact ⟨rfl, rfl, .refl⟩
    | true =>
      -- the version is being read, or was
      have kept {state : State} {major minor : Int} : Equivalent
          ⟨state, qMethod, qUri, major, minor, qPayload, qName, qValue, pLength⟩
          ⟨state, qMethod, qUri, major, minor, qPayload, qName, qValue, qLength⟩ ↔
            (state.unsized = false → qLength = pLength) :=
        ⟨Equivalent.length, fun same => ⟨rfl, rfl, rfl, rfl, rfl, rfl, fun _ => ⟨rfl, rfl⟩, same⟩⟩
      cases qState <;> first
        | exact absurd sized (by decide)
        | exact absurd versioned (by decide)
        | (simp only [RequestParser.consume, expect]
           split_ifs
           all_goals first
             | exact ⟨rfl, rfl, .refl⟩
             | exact ⟨rfl, rfl, kept.mpr fun late => never late⟩)
  | true =>
    cases qState <;> first
      | exact absurd versioned (by decide)
      | (simp only [RequestParser.consume, expect]
         split_ifs
         all_goals try split
         all_goals first
           | exact ⟨rfl, rfl, .refl⟩
           | exact ⟨rfl, rfl, ⟨rfl, rfl, rfl, rfl, rfl, rfl, fun _ => ⟨rfl, rfl⟩, fun late => never late⟩⟩
           | exact ⟨rfl, rfl, ⟨rfl, rfl, rfl, rfl, rfl, rfl, fun late => never late,
               fun late => never late⟩⟩)

theorem Agree.outcome {one other : Option Bool × RequestParser × Request} (agree : Agree one other) :
    ∃ result parser parser' request, one = (result, parser, request) ∧ other = (result, parser', request) ∧
      Equivalent parser parser' := by
  obtain ⟨result, parser, request⟩ := one
  obtain ⟨result', parser', request'⟩ := other
  obtain ⟨rfl, rfl, equivalent⟩ := agree
  exact ⟨_, _, _, _, rfl, rfl, equivalent⟩

/-- The result, what is left and the request are the same. -/
theorem Equivalent.parse (same : Equivalent p q) (req : Request) (input : Data) :
    ∃ result rest request parser parser', parse input (p, req) = (result, rest, parser, request) ∧
      parse input (q, req) = (result, rest, parser', request) := by
  induction input generalizing p q req with
  | nil => exact ⟨none, [], req, p, q, rfl, rfl⟩
  | cons c input ih =>
    obtain ⟨result, parser, parser', request, one, other, later⟩ := (same.consume req c).outcome
    unfold RequestParser.parse
    rw [Machine.run, Machine.run, one, other]
    cases result with
    | none => exact ih later request
    | some result => exact ⟨some result, input, request, parser, parser', rfl, rfl⟩

/-! ### Results -/

/-- What a parser is like before a request. -/
structure Clean (p : RequestParser) : Prop where
  state : p.state = .methodStart
  method : p.method = []
  uri : p.uri = []
  name : p.name = []
  value : p.value = []
  payload : p.payload = []

/-- The exits without a reset: the space after a URI that cannot be decoded, and no newline at the end of the headers. -/
def Spoils (p : RequestParser) (input : UInt8) : Prop :=
  p.state = .uri ∧ input = 32 ∧ urlDecode p.uri = none ∨ p.state = .expectingNewline3 ∧ input ≠ 10

theorem clean_reset : Clean reset := ⟨rfl, rfl, rfl, rfl, rfl, rfl⟩

/-- A clean parser is as it was constructed. -/
theorem Clean.same (clean : Clean p) : Equivalent p reset :=
  { state := clean.state.symm, method := clean.method.symm, uri := clean.uri.symm, payload := clean.payload.symm
    name := clean.name.symm, value := clean.value.symm
    version := fun late => by
      rw [clean.state] at late
      cases late
    length := fun late => by
      rw [clean.state] at late
      cases late }

theorem consume_of_spoils (spoils : p.Spoils input) : consume (p, req) input = (some false, p, req) := by
  rcases spoils with ⟨state, rfl, undecodable⟩ | ⟨state, other⟩
  · simp only [consume, state, if_true, undecodable]
  · simp only [consume, state, if_neg other]

/-- All other exits reset the parser, or are taken before anything was read. -/
theorem consume_some {result : Bool} (run : consume (p, req) input = (some result, p', req')) :
    p' = reset ∨ p' = p ∧ (p.state = .methodStart ∨ p.Spoils input) := by
  cases state : p.state <;> simp only [consume, state, expect] at run
  all_goals
    repeat' split at run
    all_goals simp only [Prod.mk.injEq, reduceCtorEq, false_and] at run
    all_goals
      obtain ⟨-, rfl, -⟩ := run
      first
        | exact .inl rfl
        | exact .inr ⟨rfl, .inl rfl⟩
        | (rename_i space _ undecodable; exact .inr ⟨rfl, .inr (.inl ⟨state, space, undecodable⟩)⟩)
        | (rename_i other; exact .inr ⟨rfl, .inr (.inr ⟨state, other⟩)⟩)

/-- Without a result something was read. -/
theorem consume_none (run : consume (p, req) input = (none, p', req')) : p'.state ≠ .methodStart := by
  cases state : p.state <;> simp only [consume, state, expect] at run
  all_goals
    repeat' split at run
    all_goals simp only [Prod.mk.injEq, reduceCtorEq, false_and, true_and] at run
    all_goals
      obtain ⟨rfl, -⟩ := run
      first
        | exact State.noConfusion
        | (rw [state]; exact State.noConfusion)

end RequestParser

/-! ### Connections -/

/-- The parser and the request of a connection, and the results with the requests that they are about. -/
structure KeepAlive where
  parser : RequestParser
  request : Request
  results : List (Bool × Request)

namespace KeepAlive

open RequestParser

/-- A connection before a request. -/
def idle (parser : RequestParser) : KeepAlive := { parser := parser, request := Request.empty, results := [] }

/-- `handle_read` for one character. Whatever the result is, the request is reset before the connection reads on. -/
def read (k : KeepAlive) (input : UInt8) : KeepAlive :=
  match consume (k.parser, k.request) input with
  | (none, parser, request) => { k with parser := parser, request := request }
  | (some result, parser, request) =>
    { parser := parser, request := Request.empty, results := k.results ++ [(result, request)] }

/-- The character leads to a result. -/
def Answers (k : KeepAlive) (input : UInt8) : Prop := (consume (k.parser, k.request) input).1.isSome = true

instance (k : KeepAlive) (input : UInt8) : Decidable (k.Answers input) := inferInstanceAs (Decidable (_ = _))

/-- The parser is ready for the next request, and its results are those of a parser that was reset. -/
structure Recovered (parser : RequestParser) : Prop where
  clean : parser.Clean
  independent : ∀ stream, (Run.final read (idle parser) stream).results = (Run.final read (idle reset) stream).results

/-- After a result the parser is ready. -/
def Recovers (k : KeepAlive) (input : UInt8) : Prop := k.Answers input → Recovered (k.read input).parser

variable {k other : KeepAlive} {input : UInt8} {p : RequestParser}

/-- Connections with the same results, so far and from now on. -/
structure Alike (k other : KeepAlive) : Prop where
  parser : Equivalent k.parser other.parser
  request : other.request = k.request
  results : other.results = k.results

theorem Alike.read (alike : Alike k other) (input : UInt8) : Alike (k.read input) (other.read input) := by
  obtain ⟨result, parser, parser', request, one, two, later⟩ := (alike.parser.consume k.request input).outcome
  unfold KeepAlive.read
  rw [alike.request, one, two]
  cases result with
  | none => exact ⟨later, rfl, alike.results⟩
  | some result =>
    refine ⟨later, rfl, ?_⟩
    dsimp only
    rw [alike.results]

theorem Alike.final (alike : Alike k other) (stream : Data) :
    Alike (Run.final KeepAlive.read k stream) (Run.final KeepAlive.read other stream) := by
  induction stream generalizing k other with
  | nil => exact alike
  | cons input stream ih => exact ih (alike.read input)

/-- The results after a clean parser do not depend on what it read before. -/
theorem recovered_of_clean (clean : p.Clean) : Recovered p where
  clean := clean
  independent stream := by
    have alike : Alike (idle p) (idle reset) := ⟨clean.same, rfl, rfl⟩
    exact (alike.final stream).results.symm

/-- Nothing is kept before a request. -/
def Tidy (k : KeepAlive) : Prop := k.parser.state = .methodStart → k.parser.Clean

theorem Tidy.read (tidy : k.Tidy) (input : UInt8) : (k.read input).Tidy := by
  unfold KeepAlive.read
  cases run : consume (k.parser, k.request) input with
  | mk result rest =>
    obtain ⟨parser, request⟩ := rest
    cases result with
    | none => exact fun start => absurd start (consume_none run)
    | some result =>
      rcases consume_some run with rfl | ⟨rfl, -⟩
      · exact fun _ => clean_reset
      · exact tidy

/-- One character: the parser is ready after a result, unless it is one of the two exits. -/
theorem Tidy.recovers_step (tidy : k.Tidy) (input : UInt8) : k.Recovers input ↔ ¬k.parser.Spoils input := by
  unfold Recovers Answers
  constructor
  · intro recovers spoils
    have run := @consume_of_spoils k.parser k.request input spoils
    have clean := (recovers (by rw [run]; rfl)).clean
    unfold KeepAlive.read at clean
    rw [run] at clean
    rcases spoils with ⟨state, -⟩ | ⟨state, -⟩
    · cases state.symm.trans clean.state
    · cases state.symm.trans clean.state
  · intro spares answers
    unfold KeepAlive.read
    cases run : consume (k.parser, k.request) input with
    | mk result rest =>
      obtain ⟨parser, request⟩ := rest
      cases result with
      | none =>
        rw [run] at answers
        cases answers
      | some result =>
        rcases consume_some run with rfl | ⟨rfl, start | spoils⟩
        · exact recovered_of_clean clean_reset
        · exact recovered_of_clean (tidy start)
        · exact absurd spoils spares

/-- **When a bad request does not spoil the next**, for every stream of characters. -/
theorem recovers_iff (versionMajor versionMinor : Int) (length : Nat) (stream : Data) :
    Run.AlongSteps read Recovers (idle (constructed versionMajor versionMinor length)) stream ↔
      Run.AlongSteps read (fun k input => ¬k.parser.Spoils input) (idle (constructed versionMajor versionMinor length))
        stream := by
  have tidy : (idle (constructed versionMajor versionMinor length)).Tidy := fun _ => ⟨rfl, rfl, rfl, rfl, rfl, rfl⟩
  generalize idle (constructed versionMajor versionMinor length) = k at tidy ⊢
  induction stream generalizing k with
  | nil => exact Iff.rfl
  | cons input stream ih => exact and_congr (tidy.recovers_step input) (ih _ (tidy.read input))

/-- The space after a URI that ends with a percent sign: the parser stays in the URI, which begins the next one. -/
theorem recovers_fails :
    ¬Run.AlongSteps read Recovers (idle (constructed 0 0 0)) (text "GET /% ") ∧
      (Run.final read (idle (constructed 0 0 0)) (text "GET /% GET / HTTP/1.1\r\n\r\n")).results.map Prod.fst ≠
        (Run.final read (idle reset) (text "GET /% ")).results.map Prod.fst ++
          (Run.final read (idle reset) (text "GET / HTTP/1.1\r\n\r\n")).results.map Prod.fst := by
  refine ⟨fun along => ?_, by decide +kernel⟩
  have started : Run.AlongSteps read (fun k input => k.Answers input → (k.read input).parser.state = .methodStart)
      (idle (constructed 0 0 0)) (text "GET /% ") := along.imp fun k input recovers answers => (recovers answers).clean.state
  exact absurd started (by decide +kernel)

end KeepAlive

end Libcoin
