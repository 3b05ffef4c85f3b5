/-
`varint`: what every stream is read as.

* `readCompact` has the three ways in which a read ends: with a value, with an exception, or with a write to an address
  that is not one. Its variables have no values before they are read (`Memory`).
* `sound_iff`: a marker for eight bytes with a byte after it is the one thing that is not read soundly.
-/

import Libcoin.Library.ReadBack

namespace Libcoin

/-- The bytes that `s` and `data` have before something is read into them. -/
structure Memory where
  marker : UInt8
  short : List UInt8
  int : List UInt8
  short_length : short.length = 2
  int_length : int.length = 4

/-- How a read of a `varint` ends. -/
inductive VarintRead
  | returns (value : Nat) (s : Stream)
  | throws
  | undefined
  deriving DecidableEq

/-- `is.read` into some bytes of memory. -/
def readRaw (old : List UInt8) (s : Stream) : List UInt8 × Stream :=
  if !s.good then (old, s)
  else if old.length ≤ s.bytes.length then
    (s.bytes.take old.length, { s with bytes := s.bytes.drop old.length })
  else (s.bytes ++ old.drop s.bytes.length, { bytes := [], good := false })

/-- `is.read` to the address zero. It cannot have any byte. -/
def readNull (s : Stream) : Option Stream :=
  if s.good && !s.bytes.isEmpty then none else some { s with good := false }

/-- What follows the marker is stored. The value is zero until then, and is the address for eight bytes. -/
def storeMarked (memory : Memory) (marker : UInt8) (s : Stream) : Option (Nat × Stream) :=
  if marker < 253 then some (marker.toNat, s)
  else if marker = 253 then some (littleEndian (readRaw memory.short s).1, (readRaw memory.short s).2)
  else if marker = 254 then some (littleEndian (readRaw memory.int s).1, (readRaw memory.int s).2)
  else (readNull s).map fun s => (0, s)

/-- The check of the size. -/
def checkSize : Option (Nat × Stream) → VarintRead
  | none => .undefined
  | some (value, s) => if 0x02000000 < value then .throws else .returns value s

/-- `operator>>` for `varint`. -/
def readCompact (memory : Memory) (s : Stream) : VarintRead :=
  let first := readRaw [memory.marker] s
  checkSize (storeMarked memory (first.1.headD 0) first.2)

/-- The stream is read to a value that is not too large, the same whatever was in memory, or the read throws or leaves
the stream failed. -/
def ReadsSoundly (s : Stream) : Prop :=
  (∃ value s', value ≤ 0x02000000 ∧ ∀ memory, readCompact memory s = .returns value s') ∨
    ∀ memory, readCompact memory s = .throws ∨ ∃ value s', readCompact memory s = .returns value s' ∧ s'.good = false

/-! ### Reads -/

variable {memory : Memory} {old : List UInt8} {s s' : Stream}

theorem readRaw_failed (failed : s.good = false) : readRaw old s = (old, s) := by
  unfold readRaw
  rw [failed]
  rfl

theorem readRaw_enough (good : s.good = true) (enough : old.length ≤ s.bytes.length) :
    readRaw old s = (s.bytes.take old.length, { s with bytes := s.bytes.drop old.length }) := by
  unfold readRaw
  rw [good, if_neg (by decide), if_pos enough]

theorem readRaw_short (few : s.bytes.length < old.length) : (readRaw old s).2.good = false := by
  unfold readRaw
  cases good : s.good with
  | false => exact good
  | true => rw [if_neg (by decide), if_neg (by omega)]

/-- A stream that has failed stays so. -/
theorem checkSize_failed {marker : UInt8} (failed : s.good = false) :
    checkSize (storeMarked memory marker s) = .throws ∨
      ∃ value s', checkSize (storeMarked memory marker s) = .returns value s' ∧ s'.good = false := by
  obtain ⟨value, s', stored, bad⟩ : ∃ value s', storeMarked memory marker s = some (value, s') ∧ s'.good = false := by
    unfold storeMarked
    split_ifs
    · exact ⟨_, _, rfl, failed⟩
    · exact ⟨_, _, rfl, by rw [readRaw_failed failed]; exact failed⟩
    · exact ⟨_, _, rfl, by rw [readRaw_failed failed]; exact failed⟩
    · unfold readNull
      rw [failed]
      exact ⟨_, _, rfl, rfl⟩
  rw [stored]
  unfold checkSize
  dsimp only
  split
  · exact .inl rfl
  · exact .inr ⟨value, s', rfl, bad⟩

theorem readCompact_failed (failed : (readRaw [memory.marker] s).2.good = false) :
    readCompact memory s = .throws ∨ ∃ value s', readCompact memory s = .returns value s' ∧ s'.good = false :=
  checkSize_failed failed

theorem readCompact_cons (memory : Memory) (marker : UInt8) (rest : List UInt8) :
    readCompact memory { bytes := marker :: rest, good := true } =
      checkSize (storeMarked memory marker { bytes := rest, good := true }) := by
  unfold readCompact
  rw [readRaw_enough rfl (by simp)]
  rfl

theorem marker_cases (marker : UInt8) : marker < 253 ∨ marker = 253 ∨ marker = 254 ∨ marker = 255 := by
  have byte := marker.toNat_lt
  rw [UInt8.lt_iff_toNat_lt, ← UInt8.toNat_inj, ← UInt8.toNat_inj, ← UInt8.toNat_inj]
  show marker.toNat < 253 ∨ marker.toNat = 253 ∨ marker.toNat = 254 ∨ marker.toNat = 255
  omega

/-- A marker with all of its bytes. -/
theorem storeMarked_enough {marker : UInt8} {size : Nat} (sized : marker = 253 ∧ size = 2 ∨ marker = 254 ∧ size = 4)
    {rest : List UInt8} (enough : size ≤ rest.length) :
    storeMarked memory marker { bytes := rest, good := true } =
      some (littleEndian (rest.take size), { bytes := rest.drop size, good := true }) := by
  unfold storeMarked
  rcases sized with ⟨rfl, rfl⟩ | ⟨rfl, rfl⟩
  · rw [if_neg (by decide), if_pos rfl, readRaw_enough rfl (by rw [memory.short_length]; exact enough),
      memory.short_length]
  · rw [if_neg (by decide), if_neg (by decide), if_pos rfl,
      readRaw_enough rfl (by rw [memory.int_length]; exact enough), memory.int_length]

/-- A marker with less. -/
theorem storeMarked_short {marker : UInt8} {size : Nat} (sized : marker = 253 ∧ size = 2 ∨ marker = 254 ∧ size = 4)
    {rest : List UInt8} (few : rest.length < size) :
    ∃ value s', storeMarked memory marker { bytes := rest, good := true } = some (value, s') ∧ s'.good = false := by
  unfold storeMarked
  rcases sized with ⟨rfl, rfl⟩ | ⟨rfl, rfl⟩
  · rw [if_neg (by decide), if_pos rfl]
    exact ⟨_, _, rfl, readRaw_short (by rw [memory.short_length]; exact few)⟩
  · rw [if_neg (by decide), if_neg (by decide), if_pos rfl]
    exact ⟨_, _, rfl, readRaw_short (by rw [memory.int_length]; exact few)⟩

/-! ### Soundness -/

/-- Eight bytes are announced, and there is one. -/
def WritesToNull (s : Stream) : Prop := s.good = true ∧ ∃ byte rest, s.bytes = 255 :: byte :: rest

theorem soundly_of_sized {marker : UInt8} {size : Nat} (sized : marker = 253 ∧ size = 2 ∨ marker = 254 ∧ size = 4)
    (rest : List UInt8) : ReadsSoundly { bytes := marker :: rest, good := true } := by
  by_cases enough : size ≤ rest.length
  · by_cases large : 0x02000000 < littleEndian (rest.take size)
    · refine .inr fun memory => .inl ?_
      rw [readCompact_cons, storeMarked_enough sized enough]
      exact if_pos large
    · refine .inl ⟨_, { bytes := rest.drop size, good := true }, Nat.not_lt.mp large, fun memory => ?_⟩
      rw [readCompact_cons, storeMarked_enough sized enough]
      exact if_neg large
  · refine .inr fun memory => ?_
    obtain ⟨value, s', stored, failed⟩ := @storeMarked_short memory _ _ sized rest (Nat.not_le.mp enough)
    rw [readCompact_cons, stored]
    unfold checkSize
    dsimp only
    split
    · exact .inl rfl
    · exact .inr ⟨value, s', rfl, failed⟩

/-- **What is read soundly**: everything but a marker for eight bytes with a byte after it. -/
theorem readsSoundly_iff (s : Stream) : ReadsSoundly s ↔ ¬WritesToNull s := by
  obtain ⟨bytes, good⟩ := s
  have ends (few : bytes = [] ∨ good = false) : ReadsSoundly ⟨bytes, good⟩ := by
    refine .inr fun memory => readCompact_failed ?_
    rcases few with rfl | rfl
    · exact readRaw_short (by simp)
    · rw [readRaw_failed rfl]
  cases good with
  | false => exact iff_of_true (ends (.inr rfl)) fun writes => nomatch writes.1
  | true =>
    cases bytes with
    | nil => exact iff_of_true (ends (.inl rfl)) fun ⟨_, _, _, same⟩ => by cases same
    | cons marker rest =>
      rcases marker_cases marker with low | rfl | rfl | rfl
      · refine iff_of_true (.inl ⟨marker.toNat, { bytes := rest, good := true }, ?_, fun memory => ?_⟩)
          fun ⟨_, _, _, same⟩ => ?_
        · have byte := marker.toNat_lt
          omega
        · have byte := marker.toNat_lt
          rw [readCompact_cons, storeMarked, if_pos low]
          exact if_neg (by omega)
        · obtain ⟨rfl, -⟩ := List.cons.inj same
          exact absurd low (by decide)
      · exact iff_of_true (soundly_of_sized (.inl ⟨rfl, rfl⟩) rest) fun ⟨_, _, _, same⟩ => by cases same
      · exact iff_of_true (soundly_of_sized (.inr ⟨rfl, rfl⟩) rest) fun ⟨_, _, _, same⟩ => by cases same
      · cases rest with
        | nil =>
          refine iff_of_true (.inr fun memory => .inr ⟨0, { bytes := [], good := false }, ?_, rfl⟩)
            fun ⟨_, _, _, same⟩ => by cases same
          rw [readCompact_cons]
          rfl
        | cons byte rest =>
          refine iff_of_false (fun soundly => ?_) (not_not.mpr ⟨rfl, byte, rest, rfl⟩)
          have written (memory : Memory) :
              readCompact memory { bytes := 255 :: byte :: rest, good := true } = .undefined := by
            rw [readCompact_cons]
            rfl
          have memory : Memory := ⟨0, [0, 0], [0, 0, 0, 0], rfl, rfl⟩
          rcases soundly with ⟨_, _, -, read⟩ | read
          · have read := read memory
            rw [written] at read
            cases read
          · rcases read memory with read | ⟨_, _, read, -⟩ <;>
            · rw [written] at read
              cases read

/-! ### The reader of the other modules -/

theorem readFresh_one (marker : UInt8) (rest : List UInt8) :
    readVarint { bytes := marker :: rest, good := true } = readMarked marker { bytes := rest, good := true } := rfl

theorem checkSize_returns {stored : Option (Nat × Stream)} {value : Nat} :
    checkSize stored = .returns value s' ↔ stored = some (value, s') ∧ value ≤ 0x02000000 := by
  cases stored with
  | none => exact iff_of_false nofun nofun
  | some pair =>
    obtain ⟨value', s''⟩ := pair
    unfold checkSize
    dsimp only
    split
    · refine iff_of_false nofun fun both => ?_
      obtain ⟨rfl, -⟩ := Prod.mk.inj (Option.some.inj both.1)
      omega
    · rename_i small
      rw [VarintRead.returns.injEq, Option.some.injEq, Prod.mk.injEq]
      refine ⟨fun same => ⟨same, by omega⟩, fun both => both.1⟩

theorem readMarked_sized {marker : UInt8} {size : Nat} (sized : marker = 253 ∧ size = 2 ∨ marker = 254 ∧ size = 4)
    (rest : List UInt8) :
    readMarked marker { bytes := rest, good := true } =
      if size ≤ rest.length ∧ littleEndian (rest.take size) ≤ 0x02000000 then
        some (littleEndian (rest.take size), { bytes := rest.drop size, good := true })
      else none := by
  have fresh : readFresh size { bytes := rest, good := true } = if size ≤ rest.length then
      some (rest.take size, { bytes := rest.drop size, good := true }) else none := by
    unfold readFresh
    simp
  unfold readMarked
  rcases sized with ⟨rfl, rfl⟩ | ⟨rfl, rfl⟩
  · rw [if_neg (by decide), if_pos rfl]
    show (readFresh 2 _).bind (fun read => some (littleEndian read.1, read.2)) = _
    rw [fresh]
    by_cases enough : 2 ≤ rest.length
    · have small := littleEndian_lt (rest.take 2)
      rw [List.length_take_of_le enough] at small
      rw [if_pos enough, if_pos ⟨enough, by omega⟩]
      rfl
    · rw [if_neg enough, if_neg fun both => enough both.1]
      rfl
  · rw [if_neg (by decide), if_neg (by decide), if_pos rfl]
    show (readFresh 4 _).bind _ = _
    rw [fresh]
    by_cases enough : 4 ≤ rest.length
    · rw [if_pos enough]
      show (if 0x02000000 < littleEndian (rest.take 4) then failure else pure _ : Reader Nat) _ = _
      by_cases large : 0x02000000 < littleEndian (rest.take 4)
      · rw [if_pos large, if_neg (by omega)]
        rfl
      · rw [if_neg large, if_pos ⟨enough, by omega⟩]
        rfl
    · rw [if_neg enough, if_neg fun both => enough both.1]
      rfl

/-- What follows the marker is stored where `readMarked` has a value for it. -/
theorem readMarked_iff_sized {value : Nat} (memory : Memory) (good : s'.good = true) {marker : UInt8} {size : Nat}
    (sized : marker = 253 ∧ size = 2 ∨ marker = 254 ∧ size = 4) (rest : List UInt8) :
    readMarked marker { bytes := rest, good := true } = some (value, s') ↔
      storeMarked memory marker { bytes := rest, good := true } = some (value, s') ∧ value ≤ 0x02000000 := by
  rw [readMarked_sized sized]
  by_cases enough : size ≤ rest.length
  · rw [storeMarked_enough sized enough]
    constructor
    · intro read
      split at read
      · rename_i both
        obtain ⟨rfl, rfl⟩ := Prod.mk.inj (Option.some.inj read)
        exact ⟨rfl, both.2⟩
      · cases read
    · rintro ⟨stored, small⟩
      obtain ⟨rfl, rfl⟩ := Prod.mk.inj (Option.some.inj stored)
      exact if_pos ⟨enough, small⟩
  · obtain ⟨_, _, stored, failed⟩ := @storeMarked_short memory _ _ sized rest (Nat.not_le.mp enough)
    rw [if_neg fun both => enough both.1, stored]
    refine iff_of_false nofun fun both => ?_
    obtain ⟨rfl, rfl⟩ := Prod.mk.inj (Option.some.inj both.1)
    rw [good] at failed
    cases failed

theorem readMarked_iff_stored {value : Nat} (memory : Memory) (good : s'.good = true) (marker : UInt8)
    (rest : List UInt8) :
    readMarked marker { bytes := rest, good := true } = some (value, s') ↔
      storeMarked memory marker { bytes := rest, good := true } = some (value, s') ∧ value ≤ 0x02000000 := by
  rcases marker_cases marker with low | marked | marked | rfl
  · have byte := marker.toNat_lt
    have read : readMarked marker { bytes := rest, good := true } =
        some (marker.toNat, { bytes := rest, good := true }) := by
      rw [readMarked, if_pos low]
      rfl
    have stored : storeMarked memory marker { bytes := rest, good := true } =
        some (marker.toNat, { bytes := rest, good := true }) := if_pos low
    rw [read, stored, iff_self_and, Option.some.injEq, Prod.mk.injEq]
    rintro ⟨rfl, -⟩
    omega
  · exact readMarked_iff_sized memory good (.inl ⟨marked, rfl⟩) rest
  · exact readMarked_iff_sized memory good (.inr ⟨marked, rfl⟩) rest
  · -- `readMarked` has no value for eight bytes
    refine iff_of_false nofun fun both => ?_
    cases rest with
    | nil =>
      cases both.1
      cases good
    | cons byte rest => cases both.1

/-- A read without a marker does not leave the stream good. -/
theorem readCompact_not_good {value : Nat} (few : s.bytes = [] ∨ s.good = false) (good : s'.good = true) :
    readCompact memory s ≠ .returns value s' := by
  have failed : (readRaw [memory.marker] s).2.good = false := by
    rcases few with empty | bad
    · exact readRaw_short (by simp [empty])
    · rw [readRaw_failed bad]
      exact bad
  intro read
  rcases readCompact_failed failed with thrown | ⟨_, _, returned, bad⟩
  · rw [thrown] at read
    cases read
  · rw [returned] at read
    cases read
    rw [good] at bad
    cases bad

/-- **A value is that of `readVarint`** where the stream stays good. -/
theorem readVarint_iff_returns {value : Nat} (memory : Memory) (good : s'.good = true) :
    readVarint s = some (value, s') ↔ readCompact memory s = .returns value s' := by
  obtain ⟨bytes, start⟩ := s
  cases start with
  | false => exact iff_of_false nofun (readCompact_not_good (.inr rfl) good)
  | true =>
    cases bytes with
    | nil => exact iff_of_false nofun (readCompact_not_good (.inl rfl) good)
    | cons marker rest =>
      rw [readFresh_one, readCompact_cons, checkSize_returns]
      exact readMarked_iff_stored memory good marker rest

/-- **Compact sizes.** A number that is not too large is read back, whatever follows; and every stream is read soundly,
but one with a marker for eight bytes and a byte after it. -/
theorem compactSize_exact (s : Stream) :
    (∀ n ≤ 0x02000000, ∀ rest memory,
        readCompact memory { bytes := writeVarint n ++ rest, good := true } =
          .returns n { bytes := rest, good := true }) ∧
      (ReadsSoundly s ↔ ¬WritesToNull s) := by
  refine ⟨fun n small rest memory => ?_, readsSoundly_iff s⟩
  exact (readVarint_iff_returns memory rfl).mp (Reader.readVarint_back n small rest)

/-- The least number that is written with eight bytes is not read: the first of them is written to the address zero. -/
theorem compactSize_unsound :
    ¬((∀ n ≤ 0x02000000, ∀ rest memory,
        readCompact memory { bytes := writeVarint n ++ rest, good := true } =
          .returns n { bytes := rest, good := true }) ∧
      ∀ s, ReadsSoundly s) := by
  rintro ⟨-, all⟩
  exact (readsSoundly_iff _).mp (all { bytes := writeVarint (2 ^ 32), good := true })
    ⟨rfl, 0, [0, 0, 0, 1, 0, 0, 0], by decide⟩

end Libcoin
