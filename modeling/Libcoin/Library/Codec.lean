/-
Byte strings: numbers of a fixed width, streams that can end early, and codecs.

* `littleBytes` and `littleEndian` write and read a number, the lowest byte first.
* `Reader` reads from a stream. A read that fails leaves the default in the place of what is missing, and the
  reads after it do nothing.
* `Whole` is what a reader has consumed when the stream is still good: a string no shorter than the one that is
  written for what was read. `Short` and `Blank` are for streams that end while they are read, or before: then
  what is missing is zero. Lengths are taken without the zeros at the end (`core`).
-/

import Mathlib.Data.Nat.Basic
import Mathlib.Data.List.Basic
import Mathlib.Algebra.Order.Group.Nat
import Mathlib.Tactic.SplitIfs

namespace Libcoin

/-! ### Numbers -/

/-- The number that some bytes are, the lowest first. -/
def littleEndian : List UInt8 → Nat
  | [] => 0
  | byte :: bytes => byte.toNat + 256 * littleEndian bytes

/-- So many of the lowest bytes of a number. -/
def littleBytes : Nat → Nat → List UInt8
  | 0, _ => []
  | size + 1, n => UInt8.ofNat n :: littleBytes size (n / 256)

@[simp] theorem littleBytes_length (size n : Nat) : (littleBytes size n).length = size := by
  induction size generalizing n with
  | zero => rfl
  | succ size ih => rw [littleBytes, List.length_cons, ih]

theorem littleEndian_littleBytes {size n : Nat} (fits : n < 256 ^ size) :
    littleEndian (littleBytes size n) = n := by
  induction size generalizing n with
  | zero =>
    rw [pow_zero] at fits
    exact (Nat.lt_one_iff.mp fits).symm
  | succ size ih =>
    have less : n / 256 < 256 ^ size := by
      rw [pow_succ] at fits
      exact Nat.div_lt_of_lt_mul (by omega)
    rw [littleBytes, littleEndian, ih less, UInt8.toNat_ofNat']
    omega

theorem littleEndian_lt (bytes : List UInt8) : littleEndian bytes < 256 ^ bytes.length := by
  induction bytes with
  | nil => exact Nat.one_pos
  | cons byte bytes ih =>
    have low := byte.toNat_lt
    rw [littleEndian, List.length_cons, pow_succ]
    omega

theorem littleBytes_littleEndian (bytes : List UInt8) :
    littleBytes bytes.length (littleEndian bytes) = bytes := by
  induction bytes with
  | nil => rfl
  | cons byte bytes ih =>
    have low := byte.toNat_lt
    have rest : (byte.toNat + 256 * littleEndian bytes) / 256 = littleEndian bytes := by omega
    rw [List.length_cons, littleEndian, littleBytes, rest, ih]
    congr 1
    apply UInt8.toNat.inj
    rw [UInt8.toNat_ofNat']
    omega

/-- The higher bytes of a number are zero. -/
theorem littleBytes_add {n size : Nat} (more : Nat) (fits : n < 256 ^ size) :
    littleBytes (size + more) n = littleBytes size n ++ List.replicate more 0 := by
  induction size generalizing n with
  | zero =>
    rw [pow_zero] at fits
    obtain rfl : n = 0 := by omega
    rw [Nat.zero_add]
    show littleBytes more 0 = List.replicate more 0
    induction more with
    | zero => rfl
    | succ more ih =>
      rw [littleBytes, Nat.zero_div, ih]
      rfl
  | succ size ih =>
    have less : n / 256 < 256 ^ size := by
      rw [pow_succ] at fits
      exact Nat.div_lt_of_lt_mul (by omega)
    rw [Nat.add_right_comm, littleBytes, ih less]
    rfl

/-! ### Lengths without the zeros at the end -/

/-- The length of a string without the zeros at its end. -/
def core : List UInt8 → Nat
  | [] => 0
  | byte :: bytes => if core bytes = 0 ∧ byte = 0 then 0 else core bytes + 1

theorem core_le_length (bytes : List UInt8) : core bytes ≤ bytes.length := by
  induction bytes with
  | nil => exact le_rfl
  | cons byte bytes ih =>
    rw [core, List.length_cons]
    split <;> omega

theorem core_append (first second : List UInt8) :
    core (first ++ second) = if core second = 0 then core first else first.length + core second := by
  induction first with
  | nil =>
    rw [List.nil_append, List.length_nil, Nat.zero_add]
    split
    · assumption
    · rfl
  | cons byte first ih =>
    rw [List.cons_append, core, ih, core, List.length_cons]
    split
    · rfl
    · rw [if_neg (by omega)]
      omega

theorem core_replicate_zero (size : Nat) : core (List.replicate size 0) = 0 := by
  induction size with
  | zero => rfl
  | succ size ih => rw [List.replicate_succ, core, ih, if_pos ⟨rfl, rfl⟩]

theorem core_pos_of_head {byte : UInt8} (some : byte ≠ 0) (bytes : List UInt8) : 0 < core (byte :: bytes) := by
  rw [core, if_neg fun both => some both.2]
  exact Nat.succ_pos _

/-- No longer, with and without the zeros at the end. -/
structure Under (bytes other : List UInt8) : Prop where
  length : bytes.length ≤ other.length
  core : core bytes ≤ core other

theorem Under.refl (bytes : List UInt8) : Under bytes bytes := ⟨le_rfl, le_rfl⟩

theorem core_append_mono {first first' second second' : List UInt8} (under : Under first first')
    (less : core second ≤ core second') : core (first ++ second) ≤ core (first' ++ second') := by
  have long := core_le_length first
  have length := under.length
  have core := under.core
  rw [core_append, core_append]
  split <;> split <;> omega

theorem Under.append {first first' second second' : List UInt8} (one : Under first first')
    (two : Under second second') : Under (first ++ second) (first' ++ second') := by
  refine ⟨?_, core_append_mono one two.core⟩
  have left := one.length
  have right := two.length
  rw [List.length_append, List.length_append]
  omega

/-! ### Streams -/

/-- An input stream: the bytes that are left, and whether no read has failed. -/
structure Stream where
  bytes : List UInt8
  good : Bool
  deriving DecidableEq, Repr

/-- Reads a value, or throws or gives a value that is not defined. -/
abbrev Reader (A : Type) := StateT Stream Option A

/-- A read into a variable with a value: the bytes that are there take the place of the old ones. -/
def readOver (old : List UInt8) : Reader (List UInt8) := fun s =>
  if !s.good then some (old, s)
  else if old.length ≤ s.bytes.length then
    some (s.bytes.take old.length, { s with bytes := s.bytes.drop old.length })
  else some (s.bytes ++ old.drop s.bytes.length, { bytes := [], good := false })

/-- A read into a variable without a value. -/
def readFresh (size : Nat) : Reader (List UInt8) := fun s =>
  if s.good && decide (size ≤ s.bytes.length) then
    some (s.bytes.take size, { s with bytes := s.bytes.drop size })
  else none

/-- One value after the other. -/
def Reader.pair {A B : Type} (first : Reader A) (second : Reader B) : Reader (A × B) := do
  let a ← first
  let b ← second
  return (a, b)

/-- So many values. -/
def Reader.times {A : Type} (item : Reader A) : Nat → Reader (List A)
  | 0 => return []
  | size + 1 => do
    let a ← item
    let rest ← item.times size
    return a :: rest

namespace Reader

section Laws

variable {A B : Type} {write : A → List UInt8} {read : Reader A} {write' : B → List UInt8} {read' : Reader B}
  {s s' : Stream} {a : A}

/-- On a stream that stays good, what is consumed is what is written. -/
def Exact (write : A → List UInt8) (read : Reader A) : Prop :=
  ∀ s a s', read s = some (a, s') → s'.good = true → s.good = true ∧ s.bytes = write a ++ s'.bytes

/-- On a stream that stays good, what is consumed is no shorter than what is written. -/
def Whole (write : A → List UInt8) (read : Reader A) : Prop :=
  ∀ s a s', read s = some (a, s') → s'.good = true →
    s.good = true ∧ ∃ consumed, s.bytes = consumed ++ s'.bytes ∧ Under (write a) consumed

/-- What is read from a stream that ends is no longer than the stream. -/
def Short (write : A → List UInt8) (read : Reader A) : Prop :=
  ∀ s a s', read s = some (a, s') → s.good = true → s'.good = false → core (write a) ≤ core s.bytes

/-- After the end of the stream zeros are read. -/
def Blank (write : A → List UInt8) (read : Reader A) : Prop :=
  ∀ s a s', read s = some (a, s') → s.good = false → s'.good = false ∧ core (write a) = 0

/-- Nothing is read after the end of the stream. -/
def Needs (read : Reader A) : Prop := ∀ s a s', read s = some (a, s') → s.good = true

theorem Exact.whole (exact : Exact write read) : Whole write read := fun s a s' run good =>
  ⟨(exact s a s' run good).1, write a, (exact s a s' run good).2, Under.refl _⟩

theorem Needs.blank (needs : Needs read) : Blank write read := by
  intro s a s' run bad
  rw [needs s a s' run] at bad
  cases bad

theorem bind_eq_some {next : A → Reader B} {b : B} :
    (read >>= next) s = some (b, s') ↔ ∃ a mid, read s = some (a, mid) ∧ next a mid = some (b, s') :=
  Option.bind_eq_some_iff.trans ⟨fun ⟨both, run⟩ => ⟨both.1, both.2, run⟩, fun ⟨a, mid, run⟩ => ⟨(a, mid), run⟩⟩

theorem pure_eq_some {b b' : B} : (pure b : Reader B) s = some (b', s') ↔ b = b' ∧ s = s' :=
  ⟨fun run => Prod.mk.inj (Option.some.inj run), fun both => by rw [both.1, both.2]; rfl⟩

theorem pair_eq_some {both : A × B} :
    read.pair read' s = some (both, s') ↔
      ∃ mid, read s = some (both.1, mid) ∧ read' mid = some (both.2, s') := by
  unfold Reader.pair
  rw [bind_eq_some]
  constructor
  · rintro ⟨a, mid, first, run⟩
    obtain ⟨b, last, second, same⟩ := bind_eq_some.mp run
    obtain ⟨rfl, rfl⟩ := pure_eq_some.mp same
    exact ⟨mid, first, second⟩
  · rintro ⟨mid, first, second⟩
    exact ⟨both.1, mid, first, bind_eq_some.mpr ⟨both.2, s', second, rfl⟩⟩

theorem map_eq_some {f : A → B} {b : B} :
    (f <$> read) s = some (b, s') ↔ ∃ a, read s = some (a, s') ∧ f a = b := by
  show (read >>= fun a => pure (f a)) s = _ ↔ _
  rw [bind_eq_some]
  constructor
  · rintro ⟨a, mid, first, same⟩
    obtain ⟨rfl, rfl⟩ := pure_eq_some.mp same
    exact ⟨a, first, rfl⟩
  · rintro ⟨a, first, rfl⟩
    exact ⟨a, s', first, rfl⟩

/-! ### Laws of a pair -/

theorem Exact.pair (one : Exact write read) (two : Exact write' read') :
    Exact (fun both => write both.1 ++ write' both.2) (read.pair read') := by
  intro s both s' run good
  obtain ⟨mid, first, second⟩ := Reader.pair_eq_some.mp run
  obtain ⟨good₁, split₁⟩ := two _ _ _ second good
  obtain ⟨good₀, split₀⟩ := one _ _ _ first good₁
  exact ⟨good₀, by rw [split₀, split₁, List.append_assoc]⟩

theorem Whole.pair (one : Whole write read) (two : Whole write' read') :
    Whole (fun both => write both.1 ++ write' both.2) (read.pair read') := by
  intro s both s' run good
  obtain ⟨mid, first, second⟩ := Reader.pair_eq_some.mp run
  obtain ⟨good₁, consumed₁, split₁, under₁⟩ := two _ _ _ second good
  obtain ⟨good₀, consumed₀, split₀, under₀⟩ := one _ _ _ first good₁
  refine ⟨good₀, consumed₀ ++ consumed₁, ?_, under₀.append under₁⟩
  rw [split₀, split₁, List.append_assoc]

theorem Whole.short_pair (one : Whole write read) (two : Short write' read') (needs : Needs read') :
    Short (fun both => write both.1 ++ write' both.2) (read.pair read') := by
  intro s both s' run good bad
  obtain ⟨mid, first, second⟩ := Reader.pair_eq_some.mp run
  have mid_good := needs _ _ _ second
  obtain ⟨-, consumed, split, under⟩ := one _ _ _ first mid_good
  rw [split]
  exact core_append_mono under (two _ _ _ second mid_good bad)

theorem Short.pair (whole : Whole write read) (one : Short write read) (two : Short write' read')
    (blank : Blank write' read') : Short (fun both => write both.1 ++ write' both.2) (read.pair read') := by
  intro s both s' run good bad
  obtain ⟨mid, first, second⟩ := Reader.pair_eq_some.mp run
  cases mid_good : mid.good with
  | true =>
    obtain ⟨-, consumed, split, under⟩ := whole _ _ _ first mid_good
    rw [split]
    exact core_append_mono under (two _ _ _ second mid_good bad)
  | false =>
    rw [core_append, if_pos (blank _ _ _ second mid_good).2]
    exact one _ _ _ first good mid_good

theorem Needs.pair_left (needs : Needs read) : Needs (read.pair read') := by
  intro s both s' run
  obtain ⟨mid, first, -⟩ := Reader.pair_eq_some.mp run
  exact needs _ _ _ first

theorem Whole.needs_pair (one : Whole write read) (needs : Needs read') : Needs (read.pair read') := by
  intro s both s' run
  obtain ⟨mid, first, second⟩ := Reader.pair_eq_some.mp run
  exact (one _ _ _ first (needs _ _ _ second)).1

/-! ### Laws of a value that is made of another -/

section Map

variable {f : A → B} (same : ∀ s a s', read s = some (a, s') → write' (f a) = write a)

include same

theorem Exact.map (exact : Exact write read) : Exact write' (f <$> read) := by
  intro s b s' run good
  obtain ⟨a, first, rfl⟩ := Reader.map_eq_some.mp run
  rw [same s a s' first]
  exact exact _ _ _ first good

theorem Whole.map (whole : Whole write read) : Whole write' (f <$> read) := by
  intro s b s' run good
  obtain ⟨a, first, rfl⟩ := Reader.map_eq_some.mp run
  rw [same s a s' first]
  exact whole _ _ _ first good

theorem Short.map (short : Short write read) : Short write' (f <$> read) := by
  intro s b s' run good bad
  obtain ⟨a, first, rfl⟩ := Reader.map_eq_some.mp run
  rw [same s a s' first]
  exact short _ _ _ first good bad

theorem Blank.map (blank : Blank write read) : Blank write' (f <$> read) := by
  intro s b s' run bad
  obtain ⟨a, first, rfl⟩ := Reader.map_eq_some.mp run
  rw [same s a s' first]
  exact blank _ _ _ first bad

end Map

theorem Needs.map {f : A → B} (needs : Needs read) : Needs (f <$> read) := by
  intro s b s' run
  obtain ⟨a, first, rfl⟩ := Reader.map_eq_some.mp run
  exact needs _ _ _ first

/-! ### Laws of a list -/

theorem times_succ_eq_some {size : Nat} {values : List A} :
    read.times (size + 1) s = some (values, s') ↔
      ∃ a rest mid, values = a :: rest ∧ read s = some (a, mid) ∧ read.times size mid = some (rest, s') := by
  rw [Reader.times, bind_eq_some]
  constructor
  · rintro ⟨a, mid, first, run⟩
    obtain ⟨rest, last, second, same⟩ := bind_eq_some.mp run
    obtain ⟨rfl, rfl⟩ := pure_eq_some.mp same
    exact ⟨a, rest, mid, rfl, first, second⟩
  · rintro ⟨a, rest, mid, rfl, first, second⟩
    exact ⟨a, mid, first, bind_eq_some.mpr ⟨rest, s', second, rfl⟩⟩

theorem times_length {size : Nat} {values : List A} (run : read.times size s = some (values, s')) :
    values.length = size := by
  induction size generalizing s values with
  | zero =>
    obtain ⟨rfl, -⟩ := Prod.mk.inj (Option.some.inj run)
    rfl
  | succ size ih =>
    obtain ⟨a, rest, mid, rfl, -, run⟩ := Reader.times_succ_eq_some.mp run
    rw [List.length_cons, ih run]

theorem Whole.times (whole : Whole write read) (size : Nat) :
    Whole (fun values : List A => values.flatMap write) (read.times size) := by
  induction size with
  | zero =>
    intro s values s' run good
    obtain ⟨rfl, rfl⟩ := Prod.mk.inj (Option.some.inj run)
    exact ⟨good, [], rfl, Under.refl _⟩
  | succ size ih =>
    intro s values s' run good
    obtain ⟨a, rest, mid, rfl, first, run⟩ := Reader.times_succ_eq_some.mp run
    obtain ⟨good₁, consumed₁, split₁, under₁⟩ := ih _ _ _ run good
    obtain ⟨good₀, consumed₀, split₀, under₀⟩ := whole _ _ _ first good₁
    refine ⟨good₀, consumed₀ ++ consumed₁, ?_, ?_⟩
    · rw [split₀, split₁, List.append_assoc]
    · show Under ((a :: rest).flatMap write) _
      rw [List.flatMap_cons]
      exact under₀.append under₁

theorem Blank.times (blank : Blank write read) (size : Nat) :
    Blank (fun values : List A => values.flatMap write) (read.times size) := by
  induction size with
  | zero =>
    intro s values s' run bad
    obtain ⟨rfl, rfl⟩ := Prod.mk.inj (Option.some.inj run)
    exact ⟨bad, rfl⟩
  | succ size ih =>
    intro s values s' run bad
    obtain ⟨a, rest, mid, rfl, first, run⟩ := Reader.times_succ_eq_some.mp run
    obtain ⟨bad₁, zero₁⟩ := blank _ _ _ first bad
    obtain ⟨bad₂, zero₂⟩ := ih _ _ _ run bad₁
    refine ⟨bad₂, ?_⟩
    show core ((a :: rest).flatMap write) = 0
    rw [List.flatMap_cons, core_append, if_pos zero₂, zero₁]

theorem Short.times (whole : Whole write read) (short : Short write read) (blank : Blank write read)
    (size : Nat) :
    Short (fun values : List A => values.flatMap write) (read.times size) := by
  induction size with
  | zero =>
    intro s values s' run good bad
    obtain ⟨rfl, rfl⟩ := Prod.mk.inj (Option.some.inj run)
    rw [good] at bad
    cases bad
  | succ size ih =>
    intro s values s' run good bad
    obtain ⟨a, rest, mid, rfl, first, run⟩ := Reader.times_succ_eq_some.mp run
    show core ((a :: rest).flatMap write) ≤ _
    rw [List.flatMap_cons]
    cases mid_good : mid.good with
    | true =>
      obtain ⟨-, consumed, split, under⟩ := whole _ _ _ first mid_good
      rw [split]
      exact core_append_mono under (ih _ _ _ run mid_good bad)
    | false =>
      rw [core_append, if_pos ((blank.times size) _ _ _ run mid_good).2]
      exact short _ _ _ first good mid_good

/-! ### Laws of the reads -/

theorem readOver_exact (old : List UInt8) : Exact id (readOver old) := by
  intro s bytes s' run good
  unfold readOver at run
  split at run
  · rename_i bad
    obtain ⟨-, rfl⟩ := Prod.mk.inj (Option.some.inj run)
    rw [good] at bad
    cases bad
  · rename_i start
    split at run
    · obtain ⟨rfl, rfl⟩ := Prod.mk.inj (Option.some.inj run)
      exact ⟨by simpa using start, (List.take_append_drop old.length s.bytes).symm⟩
    · obtain ⟨-, rfl⟩ := Prod.mk.inj (Option.some.inj run)
      cases good

theorem readOver_zeros {size : Nat} : Short id (readOver (List.replicate size 0)) := by
  intro s bytes s' run good bad
  unfold readOver at run
  split at run
  · rename_i start
    rw [good] at start
    cases start
  · split at run
    · obtain ⟨-, rfl⟩ := Prod.mk.inj (Option.some.inj run)
      rw [good] at bad
      cases bad
    · obtain ⟨rfl, -⟩ := Prod.mk.inj (Option.some.inj run)
      rw [id, List.drop_replicate, core_append, if_pos (core_replicate_zero _)]

theorem readOver_blank {size : Nat} : Blank id (readOver (List.replicate size 0)) := by
  intro s bytes s' run bad
  unfold readOver at run
  rw [bad] at run
  obtain ⟨rfl, rfl⟩ := Prod.mk.inj (Option.some.inj run)
  exact ⟨bad, core_replicate_zero size⟩

theorem readOver_length {old bytes : List UInt8} (run : readOver old s = some (bytes, s')) :
    bytes.length = old.length := by
  unfold readOver at run
  split at run
  · obtain ⟨rfl, -⟩ := Prod.mk.inj (Option.some.inj run)
    rfl
  · split at run
    · obtain ⟨rfl, -⟩ := Prod.mk.inj (Option.some.inj run)
      rw [List.length_take]
      omega
    · obtain ⟨rfl, -⟩ := Prod.mk.inj (Option.some.inj run)
      rw [List.length_append, List.length_drop]
      omega

theorem readFresh_eq_some {size : Nat} {bytes : List UInt8} (run : readFresh size s = some (bytes, s')) :
    s.good = true ∧ s'.good = true ∧ bytes.length = size ∧ s.bytes = bytes ++ s'.bytes := by
  unfold readFresh at run
  split at run
  · rename_i enough
    obtain ⟨good, enough⟩ := Bool.and_eq_true_iff.mp enough
    have enough := of_decide_eq_true enough
    obtain ⟨rfl, rfl⟩ := Prod.mk.inj (Option.some.inj run)
    refine ⟨good, good, ?_, (List.take_append_drop size s.bytes).symm⟩
    rw [List.length_take]
    omega
  · cases run

end Laws

end Reader

/-! ### Numbers of any size -/

/-- A length, in one byte or behind a marker. -/
def writeVarint (n : Nat) : List UInt8 :=
  if n < 253 then [UInt8.ofNat n]
  else if n ≤ 65535 then 253 :: littleBytes 2 n
  else if n ≤ 4294967295 then 254 :: littleBytes 4 n
  else 255 :: littleBytes 8 n

/-- What follows a marker. A number of eight bytes is read to an address that is not defined. -/
def readMarked (marker : UInt8) : Reader Nat :=
  if marker < 253 then return marker.toNat
  else if marker = 253 then littleEndian <$> readFresh 2
  else if marker = 254 then do
    let data ← readFresh 4
    if 0x02000000 < littleEndian data then failure else return littleEndian data
  else failure

/-- A length that is not too large. -/
def readVarint : Reader Nat := do
  let marker ← readFresh 1
  readMarked (marker.headD 0)

/-- A list behind its length. -/
def writeVector {A : Type} (write : A → List UInt8) (values : List A) : List UInt8 :=
  writeVarint values.length ++ values.flatMap write

def readVector {A : Type} (item : Reader A) : Reader (List A) := do
  let size ← readVarint
  item.times size

open Reader

/-- No other way to write a number is shorter. -/
theorem writeVarint_under {marker : UInt8} {data : List UInt8} (size : data.length = 2 ∧ marker = 253 ∨
    data.length = 4 ∧ marker = 254) : Under (writeVarint (littleEndian data)) (marker :: data) := by
  have fits := littleEndian_lt data
  have back := littleBytes_littleEndian data
  have some : 0 < core (marker :: data) := by
    refine core_pos_of_head ?_ data
    rintro rfl
    rcases size with ⟨-, no⟩ | ⟨-, no⟩ <;> cases no
  unfold writeVarint
  split_ifs with one two four
  · refine ⟨?_, (core_le_length _).trans some⟩
    simp
  · rcases size with ⟨size, rfl⟩ | ⟨size, rfl⟩
    · rw [← size, back]
      exact Under.refl _
    · rw [size] at back
      have split : data = littleBytes 2 (littleEndian data) ++ List.replicate 2 0 :=
        back.symm.trans (littleBytes_add 2 (by omega))
      constructor
      · simp [size]
      · rw [← List.singleton_append, ← @List.singleton_append _ 254, core_append, core_append]
        have same : core data = core (littleBytes 2 (littleEndian data)) := by
          conv_lhs => rw [split, core_append, if_pos (core_replicate_zero 2)]
        rw [same]
        split <;> rfl
  · rcases size with ⟨size, rfl⟩ | ⟨size, rfl⟩
    · rw [size] at fits
      omega
    · rw [← size, back]
      exact Under.refl _
  · rcases size with ⟨size, -⟩ | ⟨size, -⟩
    · rw [size] at fits
      omega
    · rw [size] at fits
      omega

theorem readVarint_eq_some {s s' : Stream} {n : Nat} (run : readVarint s = some (n, s')) :
    s.good = true ∧ s'.good = true ∧ ∃ consumed, s.bytes = consumed ++ s'.bytes ∧
      Under (writeVarint n) consumed := by
  unfold readVarint at run
  obtain ⟨marker, mid, first, run⟩ := bind_eq_some.mp run
  obtain ⟨good, good₁, one, split⟩ := readFresh_eq_some first
  obtain ⟨marker, rfl⟩ := List.length_eq_one_iff.mp one
  refine ⟨good, ?_⟩
  replace run : readMarked marker mid = some (n, s') := run
  unfold readMarked at run
  by_cases low : marker < 253
  · rw [if_pos low] at run
    obtain ⟨rfl, rfl⟩ := Prod.mk.inj (Option.some.inj run)
    refine ⟨good₁, [marker], split, ?_⟩
    have small : marker.toNat < 253 := low
    unfold writeVarint
    rw [if_pos small, UInt8.ofNat_toNat]
    exact Under.refl _
  rw [if_neg low] at run
  by_cases two : marker = 253
  · rw [if_pos two] at run
    obtain ⟨data, second, rfl⟩ := Reader.map_eq_some.mp run
    obtain ⟨-, good₂, size, split₁⟩ := readFresh_eq_some second
    refine ⟨good₂, marker :: data, ?_, writeVarint_under (.inl ⟨size, two⟩)⟩
    rw [split, split₁]
    rfl
  rw [if_neg two] at run
  by_cases four : marker = 254
  · rw [if_pos four] at run
    obtain ⟨data, last, second, run⟩ := bind_eq_some.mp run
    obtain ⟨-, good₂, size, split₁⟩ := readFresh_eq_some second
    by_cases large : 0x02000000 < littleEndian data
    · rw [if_pos large] at run
      cases run
    · rw [if_neg large] at run
      obtain ⟨rfl, rfl⟩ := Prod.mk.inj (Option.some.inj run)
      refine ⟨good₂, marker :: data, ?_, writeVarint_under (.inr ⟨size, four⟩)⟩
      rw [split, split₁]
      rfl
  · rw [if_neg four] at run
    cases run

section Vectors

variable {A : Type} {write : A → List UInt8} {read : Reader A}

theorem readVector_needs : Needs (readVector read) := by
  intro s values s' run
  obtain ⟨size, mid, first, -⟩ := bind_eq_some.mp run
  exact (readVarint_eq_some first).1

theorem Reader.Whole.vector (whole : Whole write read) : Whole (writeVector write) (readVector read) := by
  intro s values s' run good
  obtain ⟨size, mid, first, run⟩ := bind_eq_some.mp run
  obtain ⟨start, good₁, consumed₀, split₀, under₀⟩ := readVarint_eq_some first
  obtain rfl := Reader.times_length run
  obtain ⟨-, consumed₁, split₁, under₁⟩ := whole.times _ _ _ _ run good
  refine ⟨start, consumed₀ ++ consumed₁, ?_, under₀.append under₁⟩
  rw [split₀, split₁, List.append_assoc]

theorem Reader.Short.vector (whole : Whole write read) (short : Short write read) (blank : Blank write read) :
    Short (writeVector write) (readVector read) := by
  intro s values s' run good bad
  obtain ⟨size, mid, first, run⟩ := bind_eq_some.mp run
  obtain ⟨-, good₁, consumed, split, under⟩ := readVarint_eq_some first
  obtain rfl := Reader.times_length run
  rw [split]
  exact core_append_mono under (Short.times whole short blank _ _ _ _ run good₁ bad)

end Vectors

end Libcoin
