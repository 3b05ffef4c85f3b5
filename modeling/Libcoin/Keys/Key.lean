/-
`Key`, and what it writes.

* `Key` has the members of its `EC_KEY`, with the form in which its point is converted to octets. The functions of
  OpenSSL are in `EcLibrary`; what is known of them is `EcLibrary.Documented`.
* `KeySource` is what a key is constructed from. Data of 65 bytes leave another form than all other sources.
* `serializedFullPubkey` leaves the form that it asks for, and `serializedPubkey` has room for the other one.
-/

import Libcoin.Keys.ExtendedKey

namespace Libcoin

/-- `point_conversion_form_t`. -/
inductive ConversionForm
  | compressed
  | uncompressed
  | hybrid
  deriving DecidableEq, Repr

namespace ConversionForm

/-- `data[0] & ~0x01`, the form of a point that was read. -/
def ofByte (byte : UInt8) : ConversionForm :=
  if byte &&& 0xfe = 2 then compressed else if byte &&& 0xfe = 4 then uncompressed else hybrid

/-- The octets of a point in the form. -/
def size : ConversionForm → Nat
  | compressed => 33
  | uncompressed | hybrid => 65

end ConversionForm

/-- The functions of OpenSSL that a key calls: the point of a number, the octets of a point and back, and a signature
with a number. -/
structure EcLibrary (Pt : Type) where
  regenerate : Int → Pt
  point2oct : ConversionForm → Pt → Data
  oct2point : Data → Option Pt
  ecdsaSign : Int → Uint256 → Option Data

/-- The encoder writes as many octets as the form has, and the decoder accepts those that say their form first. -/
structure EcLibrary.Documented {Pt : Type} (ec : EcLibrary Pt) : Prop where
  size : ∀ form point, (ec.point2oct form point).length = form.size
  form : ∀ data point, 1 < data.length → ec.oct2point data = some point →
    (ConversionForm.ofByte (data.headD 0)).size = data.length

/-- A `Key`: the members of its `EC_KEY`. -/
structure Key (Pt : Type) where
  number : Option Int
  point : Pt
  form : ConversionForm

/-- What ends a call: an exception, or bytes that are written behind a buffer, or in front of it. -/
inductive KeyFault
  | threw
  | overran
  deriving DecidableEq, Repr

/-- What a key is constructed from. -/
inductive KeySource (Pt : Type)
  | number (privateNumber : Int)
  | point (publicPoint : Pt)
  | numberAndPoint (privateNumber : Int) (publicPoint : Pt)
  | data (serializedKey : Data)
  | key (key : Key Pt)

namespace Key

variable {Pt : Type} (ec : EcLibrary Pt)

section Source

/-- `reset(private_number)`. -/
def ofNumber (privateNumber : Int) : Key Pt :=
  { number := some privateNumber, point := ec.regenerate privateNumber, form := .compressed }

/-- `Key(serialized_key)`. -/
def ofData (serializedKey : Data) : Option (Key Pt) :=
  if serializedKey.length = 32 then some (ofNumber ec (bigEndian serializedKey))
  else if serializedKey.length = 33 ∨ serializedKey.length = 65 then do
    -- `o2i_ECPublicKey` stores the form of what it has read
    let point ← ec.oct2point serializedKey
    some { number := none, point := point, form := ConversionForm.ofByte (serializedKey.headD 0) }
  else none

/-- The constructors of `Key`. -/
def construct : KeySource Pt → Option (Key Pt)
  | .number privateNumber => some (ofNumber ec privateNumber)
  | .point publicPoint => some { number := none, point := publicPoint, form := .compressed }
  | .numberAndPoint privateNumber publicPoint =>
    some { number := some privateNumber, point := publicPoint, form := .compressed }
  | .data serializedKey => ofData ec serializedKey
  | .key key => some { number := key.number, point := key.point, form := .compressed }

/-- `i2o_ECPublicKey` into a buffer of so many bytes, which have to be filled. -/
def i2o (size : Nat) (key : Key Pt) : Except KeyFault Data :=
  let data := ec.point2oct key.form key.point
  if size < data.length then .error .overran else if data.length ≠ size then .error .threw else .ok data

/-- `serialized_pubkey`. -/
def serializedPubkey (key : Key Pt) : Except KeyFault Data := i2o ec 33 key

/-- `serialized_full_pubkey`, and the key after it. -/
def serializedFullPubkey (key : Key Pt) : Except KeyFault Data × Key Pt :=
  let key := { key with form := .uncompressed }
  (i2o ec 65 key, key)

/-- `serialized_privkey`: the bytes of the number at the end of 32. -/
def serializedPrivkey (key : Key Pt) : Except KeyFault Data :=
  match key.number with
  | none => .error .threw
  | some number =>
    if number.natAbs < 256 ^ 32 then .ok (littleBytes 32 number.natAbs).reverse else .error .overran

/-- `sign`. -/
def sign (key : Key Pt) (hash : Uint256) : Except KeyFault Data :=
  match key.number.bind fun number => ec.ecdsaSign number hash with
  | some signature => .ok signature
  | none => .error .threw

end Source

/-! ### Sequences of calls -/

inductive Call
  | serializedPubkey
  | serializedFullPubkey
  | serializedPrivkey
  | sign (hash : Uint256)
  deriving DecidableEq, Repr

/-- The result of a call, and the key after it. -/
def call (key : Key Pt) : Call → Except KeyFault Data × Key Pt
  | .serializedPubkey => (serializedPubkey ec key, key)
  | .serializedFullPubkey => serializedFullPubkey ec key
  | .serializedPrivkey => (serializedPrivkey key, key)
  | .sign hash => (sign ec key hash, key)

/-- All calls with their results. -/
def results : Key Pt → List Call → List (Call × Except KeyFault Data)
  | _, [] => []
  | key, now :: calls => (now, (call ec key now).1) :: results (call ec key now).2 calls

/-- What a call to serialise a public point should return. -/
def Expected (point : Pt) (entry : Call × Except KeyFault Data) : Prop :=
  (entry.1 = .serializedPubkey → entry.2 = .ok (ec.point2oct .compressed point)) ∧
    (entry.1 = .serializedFullPubkey → entry.2 = .ok (ec.point2oct .uncompressed point))

/-- The key is not made of 65 bytes, and its point was not written in full before. -/
def Compressible (source : KeySource Pt) (calls : List Call) : Prop :=
  ∀ before after, calls = before ++ .serializedPubkey :: after →
    (∀ serializedKey, source = .data serializedKey → serializedKey.length ≠ 65) ∧ .serializedFullPubkey ∉ before

section Results

variable {ec} (documented : ec.Documented) {key : Key Pt}

include documented

/-- There is room for the compressed form alone. -/
theorem serializedPubkey_eq_ok {data : Data} :
    serializedPubkey ec key = .ok data ↔ key.form = .compressed ∧ data = ec.point2oct .compressed key.point := by
  have size := documented.size key.form key.point
  unfold serializedPubkey i2o
  dsimp only
  cases form : key.form with
  | compressed =>
    rw [form] at size
    rw [size, if_neg (by decide), if_neg (by decide), Except.ok.injEq, and_iff_right rfl]
    exact eq_comm
  | uncompressed | hybrid =>
    rw [form] at size
    rw [size, if_pos (by decide)]
    exact iff_of_false nofun nofun

theorem serializedFullPubkey_eq :
    serializedFullPubkey ec key = (.ok (ec.point2oct .uncompressed key.point), { key with form := .uncompressed }) := by
  have size := documented.size .uncompressed key.point
  unfold serializedFullPubkey i2o
  dsimp only
  rw [size, if_neg (by decide), if_neg (by decide)]

end Results

/-- The places of an element in a list that has one more in front. -/
theorem forall_split_cons {A : Type} {x a : A} {xs : List A} {Q : List A → Prop} :
    (∀ before after, x :: xs = before ++ a :: after → Q before) ↔
      (x = a → Q []) ∧ ∀ before after, xs = before ++ a :: after → Q (x :: before) := by
  constructor
  · intro all
    refine ⟨?_, fun before after split => all (x :: before) after (by rw [split, List.cons_append])⟩
    rintro rfl
    exact all [] xs rfl
  · rintro ⟨here, later⟩ before after split
    cases before with
    | nil => exact here (List.cons.inj split).1
    | cons y before =>
      obtain ⟨rfl, rest⟩ := List.cons.inj split
      exact later before after rest

variable {ec} (documented : ec.Documented)

include documented

/-- One result: the form is needed for the short serialization alone. -/
theorem expected_call_iff (key : Key Pt) (now : Call) :
    Expected ec key.point (now, (call ec key now).1) ↔ now = .serializedPubkey → key.form = .compressed := by
  cases now with
  | serializedPubkey =>
    simp [Expected, call, serializedPubkey_eq_ok documented]
  | serializedFullPubkey => simp [Expected, call, serializedFullPubkey_eq documented]
  | serializedPrivkey | sign hash => simp [Expected]

omit documented

theorem call_point (key : Key Pt) (now : Call) : (call ec key now).2.point = key.point := by
  cases now <;> rfl

/-- A call keeps the form, unless it is the one that changes it. -/
theorem call_form_iff (key : Key Pt) (now : Call) :
    (call ec key now).2.form = .compressed ↔ key.form = .compressed ∧ .serializedFullPubkey ≠ now := by
  cases now with
  | serializedFullPubkey => exact iff_of_false nofun fun both => both.2 rfl
  | serializedPubkey | serializedPrivkey | sign hash => exact (and_iff_left nofun).symm

include documented

/-- The results are as they should be where the form is right at each call that needs it. -/
theorem results_expected_iff (key : Key Pt) (calls : List Call) :
    (∀ entry ∈ results ec key calls, Expected ec key.point entry) ↔
      ∀ before after, calls = before ++ .serializedPubkey :: after →
        key.form = .compressed ∧ .serializedFullPubkey ∉ before := by
  induction calls generalizing key with
  | nil => simp [results]
  | cons now calls ih =>
    have rest := ih (call ec key now).2
    rw [call_point, call_form_iff] at rest
    rw [results, List.forall_mem_cons, expected_call_iff documented, rest, forall_split_cons]
    simp only [List.not_mem_nil, not_false_eq_true, and_true, List.mem_cons, not_or, and_assoc]

theorem ofData_form_iff {serializedKey : Data} {key : Key Pt} (built : ofData ec serializedKey = some key) :
    key.form = .compressed ↔ serializedKey.length ≠ 65 := by
  unfold ofData at built
  by_cases priv : serializedKey.length = 32
  · rw [if_pos priv] at built
    cases built
    rw [priv]
    exact iff_of_true rfl (by decide)
  · by_cases pub : serializedKey.length = 33 ∨ serializedKey.length = 65
    · rw [if_neg priv, if_pos pub, Option.bind_eq_bind, Option.bind_eq_some_iff] at built
      obtain ⟨point, read, built⟩ := built
      cases built
      have size := documented.form serializedKey point (by omega) read
      dsimp only
      constructor
      · intro form
        rw [form] at size
        rw [← size]
        decide
      · intro short
        rw [pub.resolve_right short] at size
        cases form : ConversionForm.ofByte (serializedKey.headD 0) with
        | compressed => rfl
        | uncompressed | hybrid =>
          rw [form] at size
          cases size
    · rw [if_neg priv, if_neg pub] at built
      cases built

/-- The form of a new key: all sources but 65 bytes leave it compressed. -/
theorem construct_form_iff {source : KeySource Pt} {key : Key Pt} (built : construct ec source = some key) :
    key.form = .compressed ↔ ∀ serializedKey, source = .data serializedKey → serializedKey.length ≠ 65 := by
  cases source with
  | data serializedKey =>
    rw [ofData_form_iff documented built]
    constructor
    · rintro short other same
      cases same
      exact short
    · exact fun all => all serializedKey rfl
  | number | point | numberAndPoint | key =>
    cases built
    exact iff_of_true rfl nofun

/-- For a key from any source and all sequences of calls: the serialized points are the 33 bytes and the 65 bytes of
its point, if and only if `serializedPubkey` is called on no key of 65 bytes and after no `serializedFullPubkey`. -/
theorem serialising_exact_iff {source : KeySource Pt} {key : Key Pt} (built : construct ec source = some key)
    (calls : List Call) :
    (∀ entry ∈ results ec key calls, Expected ec key.point entry) ↔ Compressible source calls := by
  rw [results_expected_iff documented, construct_form_iff documented built]
  rfl

end Key

/-! ### A curve of one point -/

namespace Small

/-- The octets of the generator of secp256k1. Its second coordinate is even. -/
def octets (form : ConversionForm) : Data :=
  let x := (littleBytes 32 0x79be667ef9dcbbac55a06295ce870b07029bfcdb2dce28d959f2815b16f81798).reverse
  let y := (littleBytes 32 0x483ada7726a3c4655da4fbfc0e1108a8fd17b448a68554199c47d08ffb10d4b8).reverse
  match form with
  | .compressed => 2 :: x
  | .uncompressed => 4 :: (x ++ y)
  | .hybrid => 6 :: (x ++ y)

/-- The library on the generator, which is the point of the number one. It signs nothing. -/
def generating : EcLibrary Unit :=
  { regenerate := fun _ => ()
    point2oct := fun form _ => octets form
    oct2point := fun data =>
      if data ∈ [octets .compressed, octets .uncompressed, octets .hybrid] then some () else none
    ecdsaSign := fun _ _ => none }

theorem generating_documented : generating.Documented where
  size form _ := by cases form <;> rfl
  form data _ _ read := by
    have known : data ∈ [octets .compressed, octets .uncompressed, octets .hybrid] := by
      by_contra other
      simp only [generating, if_neg other] at read
      cases read
    have all : ∀ data ∈ [octets .compressed, octets .uncompressed, octets .hybrid],
        (ConversionForm.ofByte (data.headD 0)).size = data.length := by
      decide +kernel
    exact all data known

end Small

open Libcoin.Small Key

/-- The key with the number one, serialized in both ways. -/
theorem serialising_exact_iff_one :
    construct generating (.number 1) = some (ofNumber generating 1) ∧
      ∀ entry ∈ results generating (ofNumber generating 1)
        [.serializedPubkey, .serializedPrivkey, .serializedFullPubkey], Expected generating () entry := by
  have built : construct generating (.number 1) = some (ofNumber generating 1) := rfl
  refine ⟨built, (serialising_exact_iff generating_documented built _).mpr ?_⟩
  unfold Compressible
  rw [forall_split_cons, forall_split_cons, forall_split_cons]
  exact ⟨fun _ => ⟨nofun, List.not_mem_nil⟩, nofun, nofun, by simp⟩

/-- After the 65 bytes the 33 bytes are overrun, and so they are for a key of 65 bytes. -/
theorem serialising_inexact :
    results generating (ofNumber generating 1) [.serializedFullPubkey, .serializedPubkey] =
        [(.serializedFullPubkey, .ok (octets .uncompressed)), (.serializedPubkey, .error .overran)] ∧
      (ofData generating (octets .uncompressed)).map (serializedPubkey generating) = some (.error .overran) := by
  constructor
  · rfl
  · rfl

end Libcoin
