/-
`MessageParser`: the state machine that takes the bytes of a connection apart.

* `MessageHeader` and `Message` have the bytes of their members. A byte is written to a member by its number; a
  number outside of the member is `none`.
* `MessageParser.consume` takes one byte, `parse` the bytes up to a result, and `handleRead` is the loop of
  `Peer::handle_read` over what has come in.
* `handleRead_eq`: how the bytes are split into reads makes no difference.
-/

import Libcoin.Library.Codec
import Libcoin.Library.Run
import Libcoin.Ledger.Wire
import Mathlib.Data.Fintype.Basic
import Mathlib.Data.List.DropRight

namespace Libcoin

open Run (AlongSteps)

/-! ### Bytes of a member -/

/-- A byte written to a member of `size` bytes. -/
def writeAt {size : Nat} (member : Fin size → UInt8) (idx : Nat) (byte : UInt8) : Option (Fin size → UInt8) :=
  if inside : idx < size then some (Function.update member ⟨idx, inside⟩ byte) else none

/-- A member of which the first bytes were written. -/
def written {size : Nat} (count : Nat) (bytes old : Fin size → UInt8) : Fin size → UInt8 :=
  fun idx => if idx.val < count then bytes idx else old idx

@[simp] theorem written_all {size : Nat} (bytes old : Fin size → UInt8) : written size bytes old = bytes :=
  funext fun idx => if_pos idx.isLt

theorem writeAt_written {size count : Nat} (bytes old : Fin size → UInt8) (inside : count < size) :
    writeAt (written count bytes old) count (bytes ⟨count, inside⟩) = some (written (count + 1) bytes old) := by
  unfold writeAt
  rw [dif_pos inside]
  congr 1
  funext idx
  unfold written
  by_cases same : idx = ⟨count, inside⟩
  · subst same
    simp
  · have other : idx.val ≠ count := fun equal => same (Fin.ext equal)
    rw [Function.update_of_ne same]
    by_cases low : idx.val < count
    · rw [if_pos low, if_pos (by omega)]
    · rw [if_neg low, if_neg (by omega)]

/-! ### Messages -/

/-- `boost::array<unsigned char, 4>`. -/
abbrev Magic := Fin 4 → UInt8

/-- The members of `MessageHeader`, with the bytes of its numbers. -/
structure MessageHeader where
  magic : Magic
  pchCommand : Fin 12 → UInt8
  messageSize : Fin 4 → UInt8
  checksum : Fin 4 → UInt8

namespace MessageHeader

/-- The constructor without arguments. -/
def null : MessageHeader :=
  { magic := fun _ => 0, pchCommand := fun idx => if idx = 1 then 1 else 0, messageSize := fun _ => 0xff
    checksum := fun _ => 0 }

/-- `nMessageSize`. -/
def size (header : MessageHeader) : Nat := littleEndian (List.ofFn header.messageSize)

/-- `GetCommand`: the characters up to the last one that is not zero, and at least one. -/
def getCommand (header : MessageHeader) : Data :=
  let command := (List.ofFn header.pchCommand).rdropWhile fun byte => decide (byte = 0)
  if command.isEmpty then [header.pchCommand 0] else command

/-- The characters of a command that `IsValid` accepts: printable ones, and zeros at the end. -/
def validCommand : List UInt8 → Bool
  | [] => true
  | byte :: rest =>
    if byte = 0 then rest.all fun other => decide (other = 0)
    else if byte < 0x20 || 0x7e < byte then false
    else validCommand rest

/-- `IsValid`. -/
def isValid (magic : Magic) (header : MessageHeader) : Bool :=
  decide (header.magic = magic) && validCommand (List.ofFn header.pchCommand) && decide (header.size ≤ 0x02000000)

/-- The first bytes of the hash of a message. -/
def checksumOf (hash : Data → Uint256) (message : Data) : Fin 4 → UInt8 :=
  fun idx => (writeHash (hash message)).getD idx 0

/-- The constructor for a command and a message: `strncpy`, the size, and the checksum. -/
def new (hash : Data → Uint256) (magic : Magic) (command message : Data) : MessageHeader :=
  { magic := magic
    pchCommand := fun idx => (command.takeWhile fun byte => decide (byte ≠ 0)).getD idx 0
    messageSize := fun idx => (littleBytes 4 message.length).getD idx 0
    checksum := checksumOf hash message }

/-- `operator<<`. -/
def write (header : MessageHeader) : Data :=
  List.ofFn header.magic ++ (List.ofFn header.pchCommand ++
    (List.ofFn header.messageSize ++ List.ofFn header.checksum))

end MessageHeader

structure Message where
  header : MessageHeader
  payload : Data

/-! ### The parser -/

inductive ParserState
  | start1
  | start2
  | start3
  | start4
  | command
  | messagesize
  | checksum
  | payload
  deriving DecidableEq, Repr

/-- The members of `MessageParser`, and the message of the connection. -/
structure MessageParser where
  state : ParserState
  counter : Nat
  checksum : Bool
  msg : Message

namespace MessageParser

section Parser

variable (hash : Data → Uint256) (magic : Magic)

/-- `"version"` and `"verack"`. -/
def versionCommand : Data := [118, 101, 114, 115, 105, 111, 110]

def verackCommand : Data := [118, 101, 114, 97, 99, 107]

def reset (p : MessageParser) : MessageParser := { p with state := .start1 }

/-- A byte of the magic that is the expected one, or not. -/
def consumeStart (idx : Fin 4) (next : MessageParser → MessageParser) (input : UInt8) (p : MessageParser) :
    Option (Option Bool × MessageParser) :=
  if input ≠ magic idx then some (some false, p.reset)
  else
    some (none, next { p with
      msg := { p.msg with header := { p.msg.header with magic := Function.update p.msg.header.magic idx input } } })

/-- What follows when the header is complete. A header that is not valid leaves the state as it is. -/
def headerDone (p : MessageParser) : Option Bool × MessageParser :=
  if !p.msg.header.isValid magic then (some false, p)
  else if p.msg.header.size ≠ 0 then
    (none, { p with state := .payload, counter := 0, msg := { p.msg with payload := [] } })
  else (some true, p.reset)

/-- `consume`: an indeterminate result, true or false. -/
def consume (now : Int) (input : UInt8) (p : MessageParser) : Option (Option Bool × MessageParser) :=
  match p.state with
  | .start1 => consumeStart magic 0 (fun p => { p with state := .start2 }) input p
  | .start2 => consumeStart magic 1 (fun p => { p with state := .start3 }) input p
  | .start3 => consumeStart magic 2 (fun p => { p with state := .start4 }) input p
  | .start4 => consumeStart magic 3 (fun p => { p with state := .command, counter := 0 }) input p
  | .command => do
    let command ← writeAt p.msg.header.pchCommand p.counter input
    let p := { p with
      counter := p.counter + 1
      msg := { p.msg with header := { p.msg.header with pchCommand := command } } }
    if p.counter < 12 then return (none, p)
    else
      let name := p.msg.header.getCommand
      return (none,
        { p with
          checksum := decide (1329696000 < now) || decide (name ≠ versionCommand ∧ name ≠ verackCommand)
          state := .messagesize
          counter := 0 })
  | .messagesize => do
    let size ← writeAt p.msg.header.messageSize p.counter input
    let p := { p with
      counter := p.counter + 1
      msg := { p.msg with header := { p.msg.header with messageSize := size } } }
    if p.counter < 4 then return (none, p)
    else if p.checksum then return (none, { p with state := .checksum, counter := 0 })
    else return headerDone magic p
  | .checksum => do
    let checksum ← writeAt p.msg.header.checksum p.counter input
    let p := { p with
      counter := p.counter + 1
      msg := { p.msg with header := { p.msg.header with checksum := checksum } } }
    if p.counter < 4 then return (none, p) else return headerDone magic p
  | .payload =>
    let p := { p with msg := { p.msg with payload := p.msg.payload ++ [input] } }
    if p.msg.payload.length < p.msg.header.size then some (none, p)
    else if p.checksum && decide (MessageHeader.checksumOf hash p.msg.payload ≠ p.msg.header.checksum) then
      some (some false, p.reset)
    else some (some true, p.reset)

/-- `parse`: the bytes up to a result, and those that are left. -/
def parse (now : Int) : List UInt8 → MessageParser → Option (Option Bool × List UInt8 × MessageParser)
  | [], p => some (none, [], p)
  | byte :: bytes, p =>
    match consume hash magic now byte p with
    | none => none
    | some (none, p) => parse now bytes p
    | some (some result, p) => some (some result, bytes, p)

/-- What `handle_read` does: a message is handled, or the peer is cancelled. -/
inductive Happening
  | handled (command payload : Data)
  | cancelled
  deriving DecidableEq, Repr

/-- What follows a result. -/
def happening (result : Bool) (p : MessageParser) : Happening :=
  if result then .handled p.msg.header.getCommand p.msg.payload else .cancelled

/-- The loop of `handle_read` over the bytes that have come in, with at most so many turns. -/
def readLoop (now : Int) : Nat → List UInt8 → MessageParser → Option (List Happening × MessageParser)
  | 0, _, _ => none
  | turns + 1, bytes, p =>
    match parse hash magic now bytes p with
    | none => none
    | some (none, _, p) => some ([], p)
    | some (some result, rest, p) => do
      let (later, p') ← readLoop now turns rest p
      return (happening result p :: later, p')

/-- `handle_read`. -/
def handleRead (now : Int) (bytes : List UInt8) (p : MessageParser) : Option (List Happening × MessageParser) :=
  readLoop hash magic now (bytes.length + 1) bytes p

/-- One read after the other, each at its time. -/
def handleReads : List (Int × List UInt8) → MessageParser → Option (List Happening × MessageParser)
  | [], p => some ([], p)
  | (now, bytes) :: reads, p => do
    let (first, p) ← handleRead hash magic now bytes p
    let (later, p) ← handleReads reads p
    return (first ++ later, p)

/-- One byte after the other, each at its time. -/
def feed : List (Int × UInt8) → MessageParser → Option (List Happening × MessageParser)
  | [], p => some ([], p)
  | (now, byte) :: bytes, p => do
    let (result, p) ← consume hash magic now byte p
    let (later, p') ← feed bytes p
    return ((result.map fun result => happening result p).toList ++ later, p')

end Parser

/-! ### Reads -/

variable {hash : Data → Uint256} {magic : Magic} {now : Int} {p p' : MessageParser}

theorem feed_append (first second : List (Int × UInt8)) :
    feed hash magic (first ++ second) p = (do
      let (early, p) ← feed hash magic first p
      let (late, p) ← feed hash magic second p
      return (early ++ late, p)) := by
  induction first generalizing p with
  | nil =>
    show feed hash magic second p = (feed hash magic second p).bind fun done => some ([] ++ done.1, done.2)
    cases feed hash magic second p with
    | none => rfl
    | some done => rfl
  | cons turn first ih =>
    obtain ⟨now, byte⟩ := turn
    rw [List.cons_append, feed, feed]
    cases consume hash magic now byte p with
    | none => rfl
    | some done =>
      obtain ⟨result, p₁⟩ := done
      show (feed hash magic (first ++ second) p₁).bind _ = ((feed hash magic first p₁).bind _).bind _
      rw [ih]
      cases feed hash magic first p₁ with
      | none => rfl
      | some done =>
        obtain ⟨early, p₂⟩ := done
        show ((feed hash magic second p₂).bind _).bind _ = (feed hash magic second p₂).bind _
        cases feed hash magic second p₂ with
        | none => rfl
        | some done => simp [List.append_assoc]

/-- The bytes up to a result, and then the others. -/
theorem feed_parse (bytes : List UInt8) :
    feed hash magic (bytes.map fun byte => (now, byte)) p =
      match parse hash magic now bytes p with
      | none => none
      | some (none, _, p) => some ([], p)
      | some (some result, rest, p) => do
        let (later, p') ← feed hash magic (rest.map fun byte => (now, byte)) p
        return (happening result p :: later, p') := by
  induction bytes generalizing p with
  | nil => rfl
  | cons byte bytes ih =>
    rw [List.map_cons, feed, parse]
    cases consume hash magic now byte p with
    | none => rfl
    | some done =>
      obtain ⟨result, p₁⟩ := done
      cases result with
      | none =>
        show (feed hash magic (bytes.map fun byte => (now, byte)) p₁).bind _ = _
        rw [ih]
        dsimp only
        cases parse hash magic now bytes p₁ with
        | none => rfl
        | some done =>
          obtain ⟨result, rest, p₂⟩ := done
          cases result with
          | none => rfl
          | some result =>
            show ((feed hash magic _ p₂).bind _).bind _ = (feed hash magic _ p₂).bind _
            cases feed hash magic (rest.map fun byte => (now, byte)) p₂ <;> rfl
      | some result => rfl

theorem parse_shorter {bytes rest : List UInt8} {result : Bool}
    (run : parse hash magic now bytes p = some (some result, rest, p')) : rest.length < bytes.length := by
  induction bytes generalizing p with
  | nil => cases run
  | cons byte bytes ih =>
    rw [List.length_cons]
    unfold parse at run
    split at run
    · cases run
    · exact (ih run).trans (Nat.lt_succ_self _)
    · obtain ⟨-, same⟩ := Prod.mk.inj (Option.some.inj run)
      rw [(Prod.mk.inj same).1]
      exact Nat.lt_succ_self _

/-- The loop of `handle_read` comes to its end, and handles the bytes one after the other. -/
theorem readLoop_eq {turns : Nat} {bytes : List UInt8} (enough : bytes.length < turns) :
    readLoop hash magic now turns bytes p = feed hash magic (bytes.map fun byte => (now, byte)) p := by
  induction turns generalizing bytes p with
  | zero => exact absurd enough (Nat.not_lt_zero _)
  | succ turns ih =>
    rw [feed_parse, readLoop]
    cases parsed : parse hash magic now bytes p with
    | none => rfl
    | some done =>
      obtain ⟨result, rest, p₁⟩ := done
      cases result with
      | none => rfl
      | some result =>
        have shorter := parse_shorter parsed
        have same : readLoop hash magic now turns rest p₁ = feed hash magic (rest.map fun byte =>
          (now, byte)) p₁ :=
          ih (by omega)
        dsimp only
        rw [same]

/-- The bytes of the reads, each at the time of its read. -/
def stamped (reads : List (Int × List UInt8)) : List (Int × UInt8) :=
  reads.flatMap fun read => read.2.map fun byte => (read.1, byte)

/-- **How the bytes are split into reads makes no difference.** -/
theorem handleReads_eq (reads : List (Int × List UInt8)) :
    handleReads hash magic reads p = feed hash magic (stamped reads) p := by
  induction reads generalizing p with
  | nil => rfl
  | cons read reads ih =>
    obtain ⟨now, bytes⟩ := read
    have first : handleRead hash magic now bytes p = feed hash magic (bytes.map fun byte => (now, byte)) p :=
      readLoop_eq (Nat.lt_succ_self _)
    rw [handleReads, first]
    show _ = feed hash magic (bytes.map (fun byte => (now, byte)) ++ stamped reads) p
    rw [feed_append]
    simp only [ih]

/-! ### Any stream -/

/-- The state and the counter: a byte that is written goes into its member. -/
def Within (p : MessageParser) : Prop :=
  match p.state with
  | .command => p.counter < 12
  | .messagesize => p.counter < 4
  | .checksum => p.counter < 4
  | _ => True

/-- A byte is taken without writing outside of a member, and a result leaves the parser where it started. -/
def Safe (hash : Data → Uint256) (magic : Magic) (p : MessageParser) (turn : Int × UInt8) : Prop :=
  ∃ result p', consume hash magic turn.1 turn.2 p = some (result, p') ∧ (result ≠ none → p'.state = .start1)

instance (p : MessageParser) (turn : Int × UInt8) : Decidable (Safe hash magic p turn) :=
  match run : consume hash magic turn.1 turn.2 p with
  | none => .isFalse fun ⟨_, _, same, _⟩ => by
      cases run.symm.trans same
  | some (none, p') => .isTrue ⟨none, p', run, fun some => absurd rfl some⟩
  | some (some result, p') =>
    if start : p'.state = .start1 then .isTrue ⟨some result, p', run, fun _ => start⟩
    else .isFalse fun ⟨_, _, same, done⟩ => by
      obtain ⟨rfl, rfl⟩ := Prod.mk.inj (Option.some.inj (run.symm.trans same))
      exact start (done nofun)

/-- The header with the last byte of its size or its checksum. -/
def completed (p : MessageParser) (input : UInt8) : Option MessageHeader :=
  let header := p.msg.header
  match p.state with
  | .messagesize =>
    if p.counter = 3 ∧ p.checksum = false then
      some { header with messageSize := Function.update header.messageSize 3 input }
    else none
  | .checksum =>
    if p.counter = 3 then some { header with checksum := Function.update header.checksum 3 input } else none
  | _ => none

/-- A header that the byte completes is valid. -/
def CompletesValid (magic : Magic) (p : MessageParser) (turn : Int × UInt8) : Prop :=
  ∀ header ∈ completed p turn.2, header.isValid magic = true

/-- The last byte of a header is safe if and only if the header is valid. -/
theorem headerDone_safe (busy : p.state ≠ .start1) :
    ((headerDone magic p).1 ≠ none → (headerDone magic p).2.state = .start1) ↔
      p.msg.header.isValid magic = true := by
  unfold headerDone
  by_cases valid : p.msg.header.isValid magic = true
  · rw [valid]
    by_cases size : p.msg.header.size ≠ 0
    · simp [size]
    · simp [size, reset]
  · rw [Bool.not_eq_true] at valid
    simp [valid, busy]

theorem headerDone_within (safe : (headerDone magic p).1 ≠ none → (headerDone magic p).2.state = .start1) :
    Within (headerDone magic p).2 := by
  unfold headerDone at safe ⊢
  split at safe
  · have state : p.state = .start1 := safe nofun
    rw [if_pos ‹_›]
    unfold Within
    rw [state]
    trivial
  · rw [if_neg ‹_›]
    split
    · trivial
    · trivial

/-- One byte of the magic. -/
theorem consumeStart_safe {idx : Fin 4} {next : MessageParser → MessageParser} (input : UInt8)
    (within : ∀ p, Within (next p)) :
    ∃ result p', consumeStart magic idx next input p = some (result, p') ∧ (result ≠ none → p'.state = .start1) ∧
      Within p' := by
  unfold consumeStart
  split
  · exact ⟨_, _, rfl, fun _ => rfl, trivial⟩
  · exact ⟨_, _, rfl, fun some => absurd rfl some, within _⟩

/-- What one byte does: it is safe if and only if a header that it completes is valid, and then keeps the counter
within. -/
theorem consume_safe (hash : Data → Uint256) (magic : Magic) (within : Within p) (turn : Int × UInt8) :
    ∃ result p', consume hash magic turn.1 turn.2 p = some (result, p') ∧
      ((result ≠ none → p'.state = .start1) ↔ CompletesValid magic p turn) ∧
      ((result ≠ none → p'.state = .start1) → Within p') := by
  obtain ⟨now, input⟩ := turn
  obtain ⟨state, counter, checksum, msg⟩ := p
  have start : ∀ idx (next : MessageParser → MessageParser), (∀ p, Within (next p)) →
      ∃ result p', consumeStart magic idx next input ⟨state, counter, checksum, msg⟩ = some (result, p') ∧
        ((result ≠ none → p'.state = .start1) ↔
          ∀ header ∈ (none : Option MessageHeader), header.isValid magic = true) ∧
        ((result ≠ none → p'.state = .start1) → Within p') := by
    intro idx next within
    obtain ⟨result, p', run, safe, kept⟩ := consumeStart_safe input within
    exact ⟨result, p', run, iff_of_true safe nofun, fun _ => kept⟩
  unfold consume CompletesValid completed
  cases state with
  | start1 => exact start 0 _ fun _ => trivial
  | start2 => exact start 1 _ fun _ => trivial
  | start3 => exact start 2 _ fun _ => trivial
  | start4 => exact start 3 _ fun _ => Nat.succ_pos _
  | command =>
    have within : counter < 12 := within
    unfold writeAt
    dsimp only
    rw [dif_pos within]
    dsimp only [Option.bind_eq_bind, Option.bind_some]
    split
    · exact ⟨_, _, rfl, iff_of_true (fun some => absurd rfl some) nofun, fun _ => ‹_›⟩
    · exact ⟨_, _, rfl, iff_of_true (fun some => absurd rfl some) nofun, fun _ => Nat.succ_pos _⟩
  | messagesize =>
    have within : counter < 4 := within
    unfold writeAt
    dsimp only
    rw [dif_pos within]
    dsimp only [Option.bind_eq_bind, Option.bind_some]
    by_cases more : counter + 1 < 4
    · rw [if_pos more, if_neg (show ¬(counter = 3 ∧ checksum = false) by omega)]
      exact ⟨_, _, rfl, iff_of_true (fun some => absurd rfl some) nofun, fun _ => more⟩
    · obtain rfl : counter = 3 := by omega
      rw [if_neg more]
      cases checksum with
      | true =>
        rw [if_pos rfl, if_neg (fun both => Bool.noConfusion both.2)]
        exact ⟨_, _, rfl, iff_of_true (fun some => absurd rfl some) nofun, fun _ => Nat.succ_pos _⟩
      | false =>
        rw [if_neg Bool.false_ne_true, if_pos ⟨rfl, rfl⟩]
        refine ⟨_, _, rfl, (headerDone_safe ?_).trans ?_, headerDone_within⟩
        · nofun
        · exact ⟨fun valid header same => Option.some.inj same ▸ valid, fun valid => valid _ rfl⟩
  | checksum =>
    have within : counter < 4 := within
    unfold writeAt
    dsimp only
    rw [dif_pos within]
    dsimp only [Option.bind_eq_bind, Option.bind_some]
    by_cases more : counter + 1 < 4
    · rw [if_pos more, if_neg (show ¬counter = 3 by omega)]
      exact ⟨_, _, rfl, iff_of_true (fun some => absurd rfl some) nofun, fun _ => more⟩
    · obtain rfl : counter = 3 := by omega
      rw [if_neg more, if_pos rfl]
      refine ⟨_, _, rfl, (headerDone_safe ?_).trans ?_, headerDone_within⟩
      · nofun
      · exact ⟨fun valid header same => Option.some.inj same ▸ valid, fun valid => valid _ rfl⟩
  | payload =>
    dsimp only
    split
    · exact ⟨_, _, rfl, iff_of_true (fun some => absurd rfl some) nofun, fun _ => trivial⟩
    · split
      · exact ⟨_, _, rfl, iff_of_true (fun _ => rfl) nofun, fun _ => trivial⟩
      · exact ⟨_, _, rfl, iff_of_true (fun _ => rfl) nofun, fun _ => trivial⟩

/-- The parser after a byte. Nothing is known after a byte that was written outside of a member. -/
def after (hash : Data → Uint256) (magic : Magic) (now : Option MessageParser) (turn : Int × UInt8) :
    Option MessageParser :=
  now.bind fun p => (consume hash magic turn.1 turn.2 p).map Prod.snd

/-- **No byte is written outside of a member, and every result leaves the parser where it started**, for the bytes
of some reads, if and only if every header that they complete is valid. -/
theorem safe_iff (fresh : p.state = .start1) (reads : List (Int × List UInt8)) :
    AlongSteps (after hash magic) (fun now turn => ∀ p ∈ now, Safe hash magic p turn) (some p) (stamped reads) ↔
      AlongSteps (after hash magic) (fun now turn => ∀ p ∈ now, CompletesValid magic p turn) (some p)
        (stamped reads) := by
  have within : Within p := by
    unfold Within
    rw [fresh]
    trivial
  clear fresh
  generalize stamped reads = stream
  induction stream generalizing p with
  | nil => exact Iff.rfl
  | cons turn stream ih =>
    obtain ⟨result, p', run, safe, kept⟩ := consume_safe hash magic within turn
    have next : after hash magic (some p) turn = some p' := by
      unfold after
      rw [Option.bind_some, run]
      rfl
    have first : Safe hash magic p turn ↔ CompletesValid magic p turn := by
      refine Iff.trans ⟨?_, fun done => ⟨result, p', run, done⟩⟩ safe
      rintro ⟨result', p'', run', done⟩
      rw [run] at run'
      obtain ⟨rfl, rfl⟩ := Prod.mk.inj (Option.some.inj run')
      exact done
    show (_ ∧ _) ↔ (_ ∧ _)
    rw [next]
    constructor
    · rintro ⟨here, later⟩
      have valid := first.mp (here p rfl)
      exact ⟨fun _ same => Option.some.inj same ▸ valid, (ih (kept (safe.mpr valid))).mp later⟩
    · rintro ⟨here, later⟩
      have valid := here p rfl
      exact ⟨fun _ same => Option.some.inj same ▸ first.mpr valid, (ih (kept (safe.mpr valid))).mpr later⟩

end MessageParser

namespace Small

/-- The bytes f9, be, b4, d9 of the main chain. -/
def magic : Magic := fun idx => [0xf9, 0xbe, 0xb4, 0xd9].getD idx 0

/-- A hash that is always zero. -/
def noHash : Data → Uint256 := fun _ => 0

/-- A parser before the first byte. -/
def parser : MessageParser :=
  { state := .start1, counter := 0, checksum := false, msg := { header := MessageHeader.null, payload := [] } }

/-- A header with the command "a" and the size 0xffffffff, and one byte more. -/
def oversized : List UInt8 :=
  [0xf9, 0xbe, 0xb4, 0xd9] ++ 97 :: List.replicate 11 0 ++ List.replicate 4 0xff ++ List.replicate 4 0 ++ [0]

end Small

namespace MessageParser

open Libcoin.Small

theorem safe_oversized : ¬ AlongSteps (after noHash magic) (fun now turn => ∀ p ∈ now, Safe noHash magic p turn)
    (some parser) (stamped [(1400000000, oversized)]) := by
  decide +kernel

theorem safe_iff_empty :
    AlongSteps (after noHash magic) (fun now turn => ∀ p ∈ now, Safe noHash magic p turn) (some parser)
        (stamped [(1400000000, MessageHeader.write (.new noHash magic [97] [])), (1400000001, [0xf9])]) ↔
      AlongSteps (after noHash magic) (fun now turn => ∀ p ∈ now, CompletesValid magic p turn) (some parser)
        (stamped [(1400000000, MessageHeader.write (.new noHash magic [97] [])), (1400000001, [0xf9])]) :=
  safe_iff rfl _

end MessageParser

end Libcoin
