/-
What is sent as messages is received as messages.

* `Sent.wire` is what is sent of a message: the header that `MessageHeader` makes of it, and the payload.
* `feed_wire`: from its first state the parser takes one message, and then has the command of it and, where it is
  not empty, the payload.
-/

import Libcoin.Network.MessageParser
import Mathlib.Data.List.GetD

namespace Libcoin

/-- A message that is sent. -/
structure Sent where
  command : Data
  payload : Data
  deriving DecidableEq, Repr

namespace Sent

/-- A command of one to twelve printable characters, and a payload that is not too large. -/
structure Legal (m : Sent) : Prop where
  named : m.command ≠ []
  short : m.command.length ≤ 12
  printable : ∀ byte ∈ m.command, 0x20 ≤ byte ∧ byte ≤ 0x7e
  small : m.payload.length ≤ 0x02000000

/-- The header of a message. -/
def header (hash : Data → Uint256) (magic : Magic) (m : Sent) : MessageHeader :=
  MessageHeader.new hash magic m.command m.payload

/-- The bytes of a message. -/
def wire (hash : Data → Uint256) (magic : Magic) (m : Sent) : Data := (m.header hash magic).write ++ m.payload

variable (hash : Data → Uint256) (magic : Magic) {m : Sent}

/-! ### The header of a message -/

theorem Legal.no_zero (legal : m.Legal) : ∀ byte ∈ m.command, byte ≠ 0 := by
  rintro byte member rfl
  exact absurd (legal.printable 0 member).1 (by decide)

/-- The command with zeros behind it. -/
theorem Legal.padded (legal : m.Legal) :
    List.ofFn (m.header hash magic).pchCommand = m.command ++ List.replicate (12 - m.command.length) 0 := by
  have whole : (m.command.takeWhile fun byte => decide (byte ≠ 0)) = m.command := by
    rw [List.takeWhile_eq_self_iff]
    intro byte member
    exact decide_eq_true (legal.no_zero byte member)
  refine List.ext_getElem ?_ fun idx inside _ => ?_
  · have short := legal.short
    simp
    omega
  · rw [List.getElem_ofFn]
    show (m.command.takeWhile fun byte => decide (byte ≠ 0)).getD idx 0 = _
    rw [whole, List.getElem_append]
    split
    · rename_i here
      rw [List.getD_eq_getElem _ _ here]
    · rename_i beyond
      rw [List.getD_eq_default _ _ (not_lt.mp beyond), List.getElem_replicate]

theorem Legal.getCommand (legal : m.Legal) : (m.header hash magic).getCommand = m.command := by
  have kept : (m.command ++ List.replicate (12 - m.command.length) (0 : UInt8)).rdropWhile
      (fun byte => decide (byte = 0)) = m.command := by
    unfold List.rdropWhile
    rw [List.reverse_append, List.dropWhile_append_of_pos, List.dropWhile_eq_self_iff.mpr, List.reverse_reverse]
    · intro nonempty
      rw [Bool.not_eq_true, decide_eq_false_iff_not]
      exact legal.no_zero _ (List.mem_reverse.mp (List.getElem_mem _))
    · intro byte member
      exact decide_eq_true (List.eq_of_mem_replicate (List.mem_reverse.mp member))
  unfold MessageHeader.getCommand
  dsimp only
  rw [legal.padded hash magic, kept, List.isEmpty_eq_false_iff.mpr legal.named]
  rfl

theorem validCommand_padded {command : Data} (printable : ∀ byte ∈ command, 0x20 ≤ byte ∧ byte ≤ 0x7e)
    (zeros : Nat) :
    MessageHeader.validCommand (command ++ List.replicate zeros 0) = true := by
  induction command with
  | nil =>
    cases zeros with
    | zero => rfl
    | succ zeros =>
      rw [List.nil_append, List.replicate_succ, MessageHeader.validCommand, if_pos rfl, List.all_eq_true]
      intro byte member
      exact decide_eq_true (List.eq_of_mem_replicate member)
  | cons byte command ih =>
    obtain ⟨low, high⟩ := printable byte List.mem_cons_self
    have some : byte ≠ 0 := by
      rintro rfl
      exact absurd low (by decide)
    rw [List.cons_append, MessageHeader.validCommand, if_neg some, if_neg,
      ih fun other member => printable other (List.mem_cons_of_mem _ member)]
    rw [Bool.or_eq_true, decide_eq_true_iff, decide_eq_true_iff, not_or]
    exact ⟨UInt8.not_lt.mpr low, UInt8.not_lt.mpr high⟩

theorem Legal.size (legal : m.Legal) : (m.header hash magic).size = m.payload.length := by
  have bytes : (List.ofFn fun idx : Fin 4 => (littleBytes 4 m.payload.length).getD idx 0) =
      littleBytes 4 m.payload.length := by
    have width := littleBytes_length 4 m.payload.length
    refine List.ext_getElem (by rw [List.length_ofFn, width]) fun idx _ inside => ?_
    rw [List.getElem_ofFn, List.getD_eq_getElem _ _ inside]
  have small := legal.small
  unfold MessageHeader.size
  show littleEndian (List.ofFn fun idx : Fin 4 => (littleBytes 4 m.payload.length).getD idx 0) = _
  rw [bytes, littleEndian_littleBytes (by omega)]

theorem Legal.isValid (legal : m.Legal) : (m.header hash magic).isValid magic = true := by
  have small := legal.small
  unfold MessageHeader.isValid
  rw [legal.padded hash magic, validCommand_padded legal.printable, legal.size hash magic, decide_eq_true small,
    decide_eq_true (show (m.header hash magic).magic = magic from rfl)]
  rfl

end Sent

namespace MessageParser

variable {hash : Data → Uint256} {magic : Magic} {p p' : MessageParser}

/-- Bytes that have no result, and those after them. -/
theorem feed_quiet {first second : List (Int × UInt8)} (quiet : feed hash magic first p = some ([], p')) :
    feed hash magic (first ++ second) p = feed hash magic second p' := by
  rw [feed_append, quiet]
  show (feed hash magic second p').bind _ = _
  cases feed hash magic second p' <;> rfl

/-- A byte that has no result, and those after it. -/
theorem feed_step {now : Int} {byte : UInt8} {turns : List (Int × UInt8)}
    (quiet : consume hash magic now byte p = some (none, p')) :
    feed hash magic ((now, byte) :: turns) p = feed hash magic turns p' := by
  rw [feed, quiet]
  show (feed hash magic turns p').bind _ = _
  cases feed hash magic turns p' <;> rfl

/-- The bytes of a member up to one of them. -/
theorem feed_member (hash : Data → Uint256) (magic : Magic) {size : Nat} {turns : List (Int × UInt8)}
    (put : (Fin size → UInt8) → Nat → MessageParser) (bytes old : Fin size → UInt8)
    (same : turns.map Prod.snd = List.ofFn bytes) (count : Nat) (below : count ≤ size)
    (step : ∀ k (inside : k < count) now, consume hash magic now (bytes ⟨k, inside.trans_le below⟩)
      (put (written k bytes old) k) = some (none, put (written (k + 1) bytes old) (k + 1))) :
    feed hash magic (turns.take count) (put old 0) = some ([], put (written count bytes old) count) := by
  have length : turns.length = size := by
    rw [← List.length_map Prod.snd, same, List.length_ofFn]
  induction count with
  | zero => rfl
  | succ count ih =>
    have here : count < turns.length := by omega
    have byte : turns[count].2 = bytes ⟨count, below⟩ := by
      have number : (turns.map Prod.snd)[count]? = (List.ofFn bytes)[count]? := by rw [same]
      rw [List.getElem?_map, List.getElem?_eq_getElem here, List.getElem?_ofFn,
        dif_pos (show count < size from below)]
        at number
      exact Option.some.inj number
    have earlier := ih (Nat.le_of_succ_le below) fun k inside => step k (Nat.lt_succ_of_lt inside)
    rw [List.take_succ_eq_append_getElem here, feed_quiet earlier]
    have last := step count (Nat.lt_succ_self _) turns[count].1
    rw [← byte] at last
    exact feed_step last

/-- The magic. -/
theorem feed_magic {turns : List (Int × UInt8)} (fresh : p.state = .start1)
    (same : turns.map Prod.snd = List.ofFn magic) :
    feed hash magic turns p = some ([], { p with
      state := .command, counter := 0, msg := { p.msg with header := { p.msg.header with magic := magic } } }) := by
  obtain ⟨state, counter, checksum, ⟨old, pchCommand, messageSize, sum⟩, payload⟩ := p
  obtain rfl : state = .start1 := fresh
  have bytes : turns.map Prod.snd = [magic 0, magic 1, magic 2, magic 3] := same
  have all : Function.update (Function.update (Function.update (Function.update old 0 (magic 0)) 1 (magic 1)) 2
      (magic 2)) 3 (magic 3) = magic := by
    funext idx
    match idx with
    | 0 => rfl
    | 1 => rfl
    | 2 => rfl
    | 3 => rfl
  match turns, bytes with
  | [(_, _), (_, _), (_, _), (_, _)], rfl =>
    simp [feed, consume, consumeStart, all]

/-- A member of the header whose last byte has been written. -/
theorem writeAt_last {size : Nat} (bytes old : Fin (size + 1) → UInt8) :
    writeAt (written size bytes old) size (bytes (Fin.last size)) = some bytes := by
  have last := writeAt_written bytes old (Nat.lt_succ_self size)
  rwa [written_all] at last

/-- The bytes of a member are all but the last, and the last. -/
theorem last_turn {size : Nat} {turns : List (Int × UInt8)} (bytes : Fin (size + 1) → UInt8)
    (same : turns.map Prod.snd = List.ofFn bytes) :
    ∃ now, turns[size]? = some (now, bytes (Fin.last size)) ∧
      turns = turns.take size ++ [(now, bytes (Fin.last size))] := by
  have length : turns.length = size + 1 := by
    rw [← List.length_map Prod.snd, same, List.length_ofFn]
  have here : size < turns.length := by omega
  have number : (turns.map Prod.snd)[size]? = (List.ofFn bytes)[size]? := by rw [same]
  rw [List.getElem?_map, List.getElem?_eq_getElem here, List.getElem?_ofFn,
    dif_pos (Nat.lt_succ_self size)] at number
  have byte : turns[size].2 = bytes (Fin.last size) := Option.some.inj number
  refine ⟨turns[size].1, ?_, ?_⟩
  · rw [List.getElem?_eq_getElem here, ← byte]
  · rw [← byte, ← List.take_succ_eq_append_getElem here, List.take_of_length_le length.le]

/-- The command, whose last byte says whether a checksum comes. -/
theorem feed_command {turns : List (Int × UInt8)} (command : Fin 12 → UInt8) (state : p.state = .command)
    (start : p.counter = 0) (same : turns.map Prod.snd = List.ofFn command)
    (settled : ∀ turn ∈ turns[11]?, 1329696000 < turn.1 ∨
      ({ p.msg.header with pchCommand := command }.getCommand ≠ versionCommand ∧
        { p.msg.header with pchCommand := command }.getCommand ≠ verackCommand)) :
    feed hash magic turns p = some ([], { p with
      state := .messagesize, counter := 0, checksum := true
      msg := { p.msg with header := { p.msg.header with pchCommand := command } } }) := by
  obtain ⟨_, _, checksum, ⟨start', old, messageSize, sum⟩, payload⟩ := p
  obtain rfl : _ = ParserState.command := state
  obtain rfl : _ = 0 := start
  obtain ⟨now, last, split⟩ := last_turn command same
  have first := feed_member hash magic (fun bytes counter =>
    ⟨.command, counter, checksum, ⟨⟨start', bytes, messageSize, sum⟩, payload⟩⟩) command old same
    11 (by omega) ?_
  · rw [split, feed_quiet first]
    refine (feed_step ?_).trans rfl
    have version := settled _ last
    have decided : (decide (1329696000 < now) || decide
        (MessageHeader.getCommand ⟨start', command, messageSize, sum⟩ ≠ versionCommand ∧
          MessageHeader.getCommand ⟨start', command, messageSize, sum⟩ ≠ verackCommand)) = true := by
      rw [Bool.or_eq_true, decide_eq_true_iff, decide_eq_true_iff]
      exact version
    unfold consume
    dsimp only
    rw [writeAt_last command old]
    dsimp only [Option.bind_eq_bind, Option.bind_some]
    rw [if_neg (by omega), decided]
    rfl
  · intro k inside now
    unfold consume
    dsimp only
    rw [writeAt_written command old (by omega)]
    dsimp only [Option.bind_eq_bind, Option.bind_some]
    rw [if_pos (by omega)]
    rfl

/-- The size, with a checksum to come. -/
theorem feed_size {turns : List (Int × UInt8)} (size : Fin 4 → UInt8) (state : p.state = .messagesize)
    (start : p.counter = 0) (checked : p.checksum = true) (same : turns.map Prod.snd = List.ofFn size) :
    feed hash magic turns p = some ([], { p with
      state := .checksum, counter := 0
      msg := { p.msg with header := { p.msg.header with messageSize := size } } }) := by
  obtain ⟨_, _, _, ⟨start', command, old, sum⟩, payload⟩ := p
  obtain rfl : _ = ParserState.messagesize := state
  obtain rfl : _ = 0 := start
  obtain rfl : _ = true := checked
  obtain ⟨now, -, split⟩ := last_turn size same
  have first := feed_member hash magic (fun bytes counter =>
    ⟨.messagesize, counter, true, ⟨⟨start', command, bytes, sum⟩, payload⟩⟩) size old same
    3 (by omega) ?_
  · rw [split, feed_quiet first]
    refine (feed_step ?_).trans rfl
    unfold consume
    dsimp only
    rw [writeAt_last size old]
    dsimp only [Option.bind_eq_bind, Option.bind_some]
    rw [if_neg (by omega), if_pos rfl]
    rfl
  · intro k inside now
    unfold consume
    dsimp only
    rw [writeAt_written size old (by omega)]
    dsimp only [Option.bind_eq_bind, Option.bind_some]
    rw [if_pos (by omega)]
    rfl

/-- The checksum, after which the header is complete. -/
theorem feed_checksum {turns : List (Int × UInt8)} (checksum : Fin 4 → UInt8) (state : p.state = .checksum)
    (start : p.counter = 0) (same : turns.map Prod.snd = List.ofFn checksum) :
    feed hash magic turns p =
      let (result, p) := headerDone magic { p with
        counter := 4, msg := { p.msg with header := { p.msg.header with checksum := checksum } } }
      some ((result.map fun result => happening result p).toList, p) := by
  obtain ⟨_, _, checked, ⟨start', command, size, old⟩, payload⟩ := p
  obtain rfl : _ = ParserState.checksum := state
  obtain rfl : _ = 0 := start
  obtain ⟨now, -, split⟩ := last_turn checksum same
  have first := feed_member hash magic (fun bytes counter =>
    ⟨.checksum, counter, checked, ⟨⟨start', command, size, bytes⟩, payload⟩⟩) checksum old same
    3 (by omega) ?_
  · rw [split, feed_quiet first]
    unfold feed consume
    dsimp only
    rw [writeAt_last checksum old]
    dsimp only [Option.bind_eq_bind, Option.bind_some]
    rw [if_neg (by omega)]
    simp [feed]
  · intro k inside now
    unfold consume
    dsimp only
    rw [writeAt_written checksum old (by omega)]
    dsimp only [Option.bind_eq_bind, Option.bind_some]
    rw [if_pos (by omega)]
    rfl

/-- The bytes of a payload, up to its size and with its checksum. -/
theorem feed_payload {turns : List (Int × UInt8)} (state : p.state = .payload) (more : turns ≠ [])
    (whole : p.msg.payload.length + turns.length = p.msg.header.size)
    (sound : MessageHeader.checksumOf hash (p.msg.payload ++ turns.map Prod.snd) = p.msg.header.checksum) :
    feed hash magic turns p =
      some ([.handled p.msg.header.getCommand (p.msg.payload ++ turns.map Prod.snd)], { p with
        state := .start1, msg := { p.msg with payload := p.msg.payload ++ turns.map Prod.snd } }) := by
  induction turns generalizing p with
  | nil => exact absurd rfl more
  | cons turn turns ih =>
    obtain ⟨now, byte⟩ := turn
    obtain ⟨_, counter, checked, header, payload⟩ := p
    obtain rfl : _ = ParserState.payload := state
    dsimp only at whole sound ⊢
    rw [List.length_cons] at whole
    by_cases last : turns = []
    · subst last
      have size : ¬ (payload ++ [byte]).length < header.size := by
        rw [List.length_append, List.length_singleton]
        rw [List.length_nil] at whole
        omega
      have same : (checked && decide (MessageHeader.checksumOf hash
        (payload ++ [byte]) ≠ header.checksum)) = false := by
        rw [Bool.and_eq_false_iff]
        exact .inr (decide_eq_false (not_not.mpr sound))
      unfold feed consume
      dsimp only
      rw [if_neg size, same]
      rfl
    · have size : (payload ++ [byte]).length < header.size := by
        have some := List.length_pos_iff.mpr last
        rw [List.length_append, List.length_singleton]
        omega
      have quiet : consume hash magic now byte ⟨.payload, counter, checked, header, payload⟩ =
          some (none, ⟨.payload, counter, checked, header, payload ++ [byte]⟩) := by
        unfold consume
        exact if_pos size
      have split : payload ++ ((now, byte) :: turns).map Prod.snd = (payload ++ [byte]) ++
        turns.map Prod.snd := by
        rw [List.map_cons, List.append_assoc, List.singleton_append]
      rw [split] at sound ⊢
      rw [feed_step quiet]
      refine ih rfl last ?_ sound
      show (payload ++ [byte]).length + turns.length = header.size
      rw [List.length_append, List.length_singleton]
      omega

/-- The payload that comes with a message: that of an earlier one is still there when it is empty. -/
def received (old : Data) (m : Sent) : Data := if m.payload = [] then old else m.payload

/-- Where a checksum depends on the time, it is the time of the last byte of the command that it depends on. -/
def Checked (m : Sent) (turns : List (Int × UInt8)) : Prop :=
  ∀ turn ∈ turns[15]?, 1329696000 < turn.1 ∨ (m.command ≠ versionCommand ∧ m.command ≠ verackCommand)

/-- The header of a message. -/
theorem feed_header {m : Sent} {turns : List (Int × UInt8)} (legal : m.Legal) (fresh : p.state = .start1)
    (same : turns.map Prod.snd = (m.header hash magic).write) (checked : Checked m turns) :
    feed hash magic turns p =
      let (result, p) := headerDone magic
        { state := .checksum, counter := 4, checksum := true
          msg := { header := m.header hash magic, payload := p.msg.payload } }
      some ((result.map fun result => happening result p).toList, p) := by
  unfold MessageHeader.write at same
  obtain ⟨magics, rest, rfl, first, same⟩ := List.map_eq_append_iff.mp same
  obtain ⟨commands, rest, rfl, second, same⟩ := List.map_eq_append_iff.mp same
  obtain ⟨sizes, sums, rfl, third, fourth⟩ := List.map_eq_append_iff.mp same
  have four : magics.length = 4 := by
    rw [← List.length_map Prod.snd, first, List.length_ofFn]
  have twelve : commands.length = 12 := by
    rw [← List.length_map Prod.snd, second, List.length_ofFn]
  have settled : ∀ turn ∈ commands[11]?,
      1329696000 < turn.1 ∨ (m.command ≠ versionCommand ∧ m.command ≠ verackCommand) := by
    intro turn here
    refine checked turn ?_
    rw [List.getElem?_append_right (by omega), List.getElem?_append_left (by omega), four]
    exact here
  have named (other : MessageHeader) :
      { other with pchCommand := (m.header hash magic).pchCommand }.getCommand = m.command :=
    legal.getCommand hash magic
  have start : magics.map Prod.snd = List.ofFn magic := first
  rw [feed_quiet (feed_magic fresh start), feed_quiet
    (feed_command (m.header hash magic).pchCommand rfl rfl second ?_),
    feed_quiet (feed_size (m.header hash magic).messageSize rfl rfl rfl third),
    feed_checksum (m.header hash magic).checksum rfl rfl fourth]
  · rfl
  · rw [← named { p.msg.header with magic := magic }] at settled
    exact settled

/-- **One message.** -/
theorem feed_wire {m : Sent} {turns : List (Int × UInt8)} (legal : m.Legal) (fresh : p.state = .start1)
    (same : turns.map Prod.snd = m.wire hash magic) (checked : Checked m turns) :
    ∃ p', feed hash magic turns p = some ([.handled m.command (received p.msg.payload m)], p') ∧
      p'.state = .start1 ∧ p'.msg.payload = received p.msg.payload m := by
  obtain ⟨headers, payloads, rfl, first, second⟩ := List.map_eq_append_iff.mp same
  have width : headers.length = 24 := by
    rw [← List.length_map Prod.snd, first]
    simp [MessageHeader.write]
  have settled : Checked m headers := by
    intro turn here
    refine checked turn ?_
    rw [List.getElem?_append_left (by omega)]
    exact here
  have valid := legal.isValid hash magic
  have size := legal.size hash magic
  have named := legal.getCommand hash magic
  rw [feed_append, feed_header legal fresh first settled]
  unfold headerDone
  dsimp only
  rw [valid]
  unfold received
  by_cases empty : m.payload = []
  · have none : payloads = [] := by
      rw [empty] at second
      exact List.map_eq_nil_iff.mp second
    rw [if_pos empty, if_neg (by decide), if_neg (by rw [size, empty]; decide), none]
    refine ⟨⟨.start1, 4, true, m.header hash magic, p.msg.payload⟩, ?_, rfl, rfl⟩
    rw [← named]
    rfl
  · have some : payloads ≠ [] := by
      rintro rfl
      exact empty second.symm
    have length : payloads.length = m.payload.length := by
      rw [← second, List.length_map]
    rw [if_neg empty, if_neg (by decide), if_pos (by rw [size]; exact List.length_pos_iff.mpr empty |>.ne')]
    have rest := @feed_payload hash magic ⟨.payload, 0, true, m.header hash magic, []⟩ payloads rfl some
      (by rw [size]; exact (Nat.zero_add _).trans length) (by rw [List.nil_append, second]; rfl)
    rw [List.nil_append, second, named] at rest
    refine ⟨⟨.start1, 0, true, m.header hash magic, m.payload⟩, ?_, rfl, rfl⟩
    show Option.bind (feed hash magic payloads ⟨.payload, 0, true, m.header hash magic, []⟩) _ = _
    rw [rest]
    rfl

/-! ### Any messages -/

/-- What is received of messages, with the payload of an earlier one. -/
def arrived : Data → List Sent → List Happening
  | _, [] => []
  | old, m :: msgs => .handled m.command (received old m) :: arrived (received old m) msgs

/-- The time of the command of each message. -/
def AllChecked : List Sent → List (Int × UInt8) → Prop
  | [], _ => True
  | m :: msgs, turns => Checked m turns ∧ AllChecked msgs (turns.drop (24 + m.payload.length))

theorem Sent.wire_length (hash : Data → Uint256) (magic : Magic) (m : Sent) :
    (m.wire hash magic).length = 24 + m.payload.length := by
  unfold Sent.wire MessageHeader.write
  simp only [List.length_append, List.length_ofFn]

/-- **Any messages**, one after the other. -/
theorem feed_wires {msgs : List Sent} {turns : List (Int × UInt8)} (legal : ∀ m ∈ msgs, m.Legal)
    (fresh : p.state = .start1) (same : turns.map Prod.snd = msgs.flatMap (Sent.wire hash magic))
    (checked : AllChecked msgs turns) :
    (feed hash magic turns p).map Prod.fst = some (arrived p.msg.payload msgs) := by
  induction msgs generalizing turns p with
  | nil =>
    rw [List.flatMap_nil, List.map_eq_nil_iff] at same
    rw [same]
    rfl
  | cons m msgs ih =>
    rw [List.flatMap_cons] at same
    obtain ⟨early, late, rfl, first, second⟩ := List.map_eq_append_iff.mp same
    have width : early.length = 24 + m.payload.length := by
      rw [← List.length_map Prod.snd, first, Sent.wire_length]
    obtain ⟨settled, others⟩ := checked
    rw [← width, List.drop_left] at others
    have own : Checked m early := by
      intro turn here
      refine settled turn ?_
      rw [List.getElem?_append_left (by omega)]
      exact here
    obtain ⟨p', run, state, payload⟩ := feed_wire (legal m List.mem_cons_self) fresh first own
    have rest := ih (fun m member => legal m (List.mem_cons_of_mem _ member)) state second others
    rw [payload] at rest
    rw [feed_append, run]
    show ((feed hash magic late p').bind _).map Prod.fst = _
    cases later : feed hash magic late p' with
    | none =>
      rw [later] at rest
      cases rest
    | some done =>
      rw [later] at rest
      have handled : done.1 = arrived (received p.msg.payload m) msgs := Option.some.inj rest
      show some (_ :: done.1) = _
      rw [handled]
      rfl

/-- The messages as they were sent. -/
def asSent (m : Sent) : Happening := .handled m.command m.payload

/-- The payloads are those that were sent unless an empty one comes after another. -/
theorem arrived_iff {old : Data} {msgs : List Sent} :
    arrived old msgs = msgs.map asSent ↔
      (old ≠ [] → ∀ m ∈ msgs, m.payload ≠ []) ∧
        msgs.Pairwise fun first second => first.payload ≠ [] → second.payload ≠ [] := by
  induction msgs generalizing old with
  | nil => exact iff_of_true rfl ⟨fun _ => nofun, .nil⟩
  | cons m msgs ih =>
    rw [List.map_cons, arrived, List.cons.injEq, ih, List.pairwise_cons, List.forall_mem_cons]
    unfold received asSent
    by_cases empty : m.payload = []
    · by_cases before : old = []
      · simp [empty, before]
      · simp [empty, before]
    · simp only [if_neg empty]
      simp only [ne_eq, empty, not_false_eq_true, true_and, true_implies]
      exact ⟨fun ⟨others, pairs⟩ => ⟨fun _ => others, others, pairs⟩, fun ⟨_, others, pairs⟩ => ⟨others, pairs⟩⟩

/-- **What is handled is what was sent, each message once and in order, if and only if no message with an empty
payload comes after one with a payload**: however the bytes come in. -/
theorem framing_iff {msgs : List Sent} {reads : List (Int × List UInt8)} (legal : ∀ m ∈ msgs, m.Legal)
    (fresh : p.state = .start1) (none : p.msg.payload = [])
    (same : reads.flatMap Prod.snd = msgs.flatMap (Sent.wire hash magic))
    (checked : AllChecked msgs (stamped reads)) :
    (handleReads hash magic reads p).map Prod.fst = some (msgs.map asSent) ↔
      msgs.Pairwise fun first second => first.payload ≠ [] → second.payload ≠ [] := by
  have bytes : (stamped reads).map Prod.snd = msgs.flatMap (Sent.wire hash magic) := by
    rw [← same]
    unfold stamped
    rw [List.map_flatMap]
    congr 1
    funext read
    rw [List.map_map]
    exact List.map_id _
  rw [handleReads_eq, feed_wires legal fresh bytes checked, Option.some.injEq, none, arrived_iff]
  exact and_iff_right fun some => absurd rfl some

end MessageParser

namespace Small

/-- A message with a payload, and one without. -/
def inv : Sent := { command := [105, 110, 118], payload := [1, 2] }

def getaddr : Sent := { command := [103, 101, 116, 97, 100, 100, 114], payload := [] }

/-- Both, in reads that split the header and the payload. -/
def invReads : List (Int × List UInt8) :=
  [(1400000000, (inv.wire noHash magic).take 7), (1400000001, (inv.wire noHash magic).drop 7 ++
    (getaddr.wire noHash magic).take 1), (1400000002, (getaddr.wire noHash magic).drop 1)]

def getaddrReads : List (Int × List UInt8) :=
  [(1400000000, (getaddr.wire noHash magic).take 7),
    (1400000001, (getaddr.wire noHash magic).drop 7 ++ inv.wire noHash magic)]

end Small

namespace MessageParser

open Libcoin.Small

/-- The payload of a message is handled once more with the next one, which has none. -/
theorem framing_leftover :
    (∀ m ∈ [inv, getaddr], m.Legal) ∧ parser.state = .start1 ∧ parser.msg.payload = [] ∧
      invReads.flatMap Prod.snd = [inv, getaddr].flatMap (Sent.wire noHash magic) ∧
      AllChecked [inv, getaddr] (stamped invReads) ∧
      (handleReads noHash magic invReads parser).map Prod.fst =
        some [.handled inv.command [1, 2], .handled getaddr.command [1, 2]] ∧
      (handleReads noHash magic invReads parser).map Prod.fst ≠ some ([inv, getaddr].map asSent) := by
  refine ⟨?_, rfl, rfl, by decide +kernel, ⟨?_, ?_, trivial⟩, by decide +kernel, by decide +kernel⟩
  · intro m member
    rcases List.mem_pair.mp member with rfl | rfl
    · exact ⟨by decide, by decide, by decide +kernel, by decide⟩
    · exact ⟨by decide, by decide, by decide +kernel, by decide⟩
  · exact fun turn _ => .inr (by decide)
  · exact fun turn _ => .inr (by decide)

theorem framing_iff_getaddr :
    (handleReads noHash magic getaddrReads parser).map Prod.fst = some ([getaddr, inv].map asSent) ↔
      [getaddr, inv].Pairwise fun first second => first.payload ≠ [] → second.payload ≠ [] := by
  refine framing_iff ?_ rfl rfl (by decide +kernel)
    ⟨fun turn _ => .inr (by decide), fun turn _ => .inr (by decide), trivial⟩
  intro m member
  rcases List.mem_pair.mp member with rfl | rfl
  · exact ⟨by decide, by decide, by decide +kernel, by decide⟩
  · exact ⟨by decide, by decide, by decide +kernel, by decide⟩

end MessageParser

end Libcoin
