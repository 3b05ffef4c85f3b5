/-
What is written is read back.

* `ReadsBack` is the law of a codec in the direction from values to bytes: from the bytes that are written for a
  value, and any bytes after them, the reader gives the value and leaves the bytes after them.
* It holds of a pair, of a value that is made of another, and of a vector, if it holds of the parts.
* `ReadsBack.prefix_free`: then no value is written as the beginning of another one.
-/

import Libcoin.Library.Codec
import Mathlib.Data.List.Infix

namespace Libcoin

namespace Reader

section Laws

variable {A B : Type} {fits : A → Prop} {write : A → List UInt8} {read : Reader A} {fits' : B → Prop}
  {write' : B → List UInt8} {read' : Reader B}

/-- Values that fit are read back, and what follows is left. -/
def ReadsBack (fits : A → Prop) (write : A → List UInt8) (read : Reader A) : Prop :=
  ∀ a, fits a → ∀ rest, read { bytes := write a ++ rest, good := true } = some (a,
    { bytes := rest, good := true })

/-- What is written determines the value and where it ends. -/
theorem ReadsBack.unique (back : ReadsBack fits write read) {a a' : A} (fit : fits a) (fit' : fits a')
    {rest rest' : List UInt8} (same : write a ++ rest = write a' ++ rest') : a = a' ∧ rest = rest' := by
  have one := back a fit rest
  have two := back a' fit' rest'
  rw [same, two] at one
  obtain ⟨value, stream⟩ := Prod.mk.inj (Option.some.inj one)
  exact ⟨value.symm, (Stream.mk.inj stream).1.symm⟩

/-- **No value is written as the beginning of another one.** -/
theorem ReadsBack.prefix_free (back : ReadsBack fits write read) {a a' : A} (fit : fits a) (fit' : fits a')
    (before : write a <+: write a') : a = a' := by
  obtain ⟨rest, same⟩ := before
  have whole : write a ++ rest = write a' ++ [] := by rw [same, List.append_nil]
  exact (back.unique fit fit' whole).1

theorem ReadsBack.injOn (back : ReadsBack fits write read) : Set.InjOn write {a | fits a} :=
  fun _ fit _ fit' same => back.prefix_free fit fit' (same ▸ List.prefix_rfl)

theorem ReadsBack.weaken (back : ReadsBack fits write read) {less : A → Prop} (fewer : ∀ a, less a → fits a) :
    ReadsBack less write read := fun a fit => back a (fewer a fit)

/-- One value after the other. -/
theorem ReadsBack.pair (one : ReadsBack fits write read) (two : ReadsBack fits' write' read') :
    ReadsBack (fun both => fits both.1 ∧ fits' both.2) (fun both => write both.1 ++ write' both.2)
      (read.pair read') := by
  rintro ⟨a, b⟩ ⟨fit, fit'⟩ rest
  refine pair_eq_some.mpr ⟨{ bytes := write' b ++ rest, good := true }, ?_, two b fit' rest⟩
  rw [List.append_assoc]
  exact one a fit _

/-- A value that is made of another one, which can be told from it. -/
theorem ReadsBack.map (back : ReadsBack fits write read) {f : A → B} (parts : B → A)
    (whole : ∀ b, fits' b → f (parts b) = b) (fit : ∀ b, fits' b → fits (parts b))
    (same : ∀ b, fits' b → write' b = write (parts b)) : ReadsBack fits' write' (f <$> read) := by
  intro b fits rest
  refine map_eq_some.mpr ⟨parts b, ?_, whole b fits⟩
  rw [same b fits]
  exact back (parts b) (fit b fits) rest

theorem ReadsBack.times (back : ReadsBack fits write read) {values : List A} (fit : ∀ a ∈ values, fits a)
    (rest : List UInt8) :
    read.times values.length { bytes := values.flatMap write ++ rest, good := true } =
      some (values, { bytes := rest, good := true }) := by
  induction values with
  | nil => rfl
  | cons a values ih =>
    refine times_succ_eq_some.mpr ⟨a, values, { bytes := values.flatMap write ++ rest, good := true }, rfl,
      ?_, ?_⟩
    · rw [List.flatMap_cons, List.append_assoc]
      exact back a (fit a List.mem_cons_self) _
    · exact ih fun other member => fit other (List.mem_cons_of_mem _ member)

end Laws

/-! ### Bytes and lengths -/

theorem readOver_back {old : List UInt8} : ReadsBack (fun bytes =>
    bytes.length = old.length) id (readOver old) := by
  intro bytes long rest
  have enough : old.length ≤ (bytes ++ rest).length := by
    rw [List.length_append]
    omega
  show readOver old { bytes := bytes ++ rest, good := true } = _
  unfold readOver
  rw [if_neg (by simp), if_pos enough, ← long, List.take_left, List.drop_left]

theorem readFresh_back {size : Nat} : ReadsBack (fun bytes => bytes.length = size) id (readFresh size) := by
  intro bytes long rest
  have enough : (true && decide (size ≤ (bytes ++ rest).length)) = true := by
    rw [Bool.true_and, decide_eq_true_iff, List.length_append]
    omega
  show readFresh size { bytes := bytes ++ rest, good := true } = _
  unfold readFresh
  rw [if_pos enough, ← long, List.take_left, List.drop_left]

theorem readVarint_back : ReadsBack (fun n => n ≤ 0x02000000) writeVarint readVarint := by
  intro n small rest
  have marked (marker : UInt8) (bytes : List UInt8)
      (read : readMarked marker { bytes := bytes ++ rest, good := true } = some (n,
        { bytes := rest, good := true })) :
      readVarint { bytes := marker :: bytes ++ rest, good := true } = some (n,
        { bytes := rest, good := true }) := by
    refine bind_eq_some.mpr ⟨[marker], { bytes := bytes ++ rest, good := true }, ?_, read⟩
    exact readFresh_back [marker] rfl (bytes ++ rest)
  unfold writeVarint
  split_ifs with one two four
  · refine marked (UInt8.ofNat n) [] ?_
    have value : (UInt8.ofNat n).toNat = n := by
      rw [UInt8.toNat_ofNat']
      omega
    have low : UInt8.ofNat n < 253 := by
      show (UInt8.ofNat n).toNat < 253
      omega
    unfold readMarked
    rw [if_pos low, value]
    rfl
  · refine marked 253 (littleBytes 2 n) ?_
    refine map_eq_some.mpr ⟨littleBytes 2 n, readFresh_back _ (littleBytes_length 2 n) rest, ?_⟩
    exact littleEndian_littleBytes (by omega)
  · refine marked 254 (littleBytes 4 n) ?_
    have value : littleEndian (littleBytes 4 n) = n := littleEndian_littleBytes (by omega)
    refine bind_eq_some.mpr ⟨littleBytes 4 n, { bytes := rest, good := true },
      readFresh_back _ (littleBytes_length 4 n) rest, ?_⟩
    rw [value, if_neg (by omega)]
    rfl
  · omega

/-- A vector that is not too long. -/
theorem ReadsBack.vector {A : Type} {fits : A → Prop} {write : A → List UInt8} {read : Reader A}
    (back : ReadsBack fits write read) :
    ReadsBack (fun values => values.length ≤ 0x02000000 ∧ ∀ a ∈ values, fits a) (writeVector write)
      (readVector read) := by
  rintro values ⟨short, fit⟩ rest
  refine bind_eq_some.mpr ⟨values.length, { bytes := values.flatMap write ++ rest, good := true }, ?_,
    back.times fit rest⟩
  unfold writeVector
  rw [List.append_assoc]
  exact readVarint_back values.length short _

end Reader

end Libcoin
