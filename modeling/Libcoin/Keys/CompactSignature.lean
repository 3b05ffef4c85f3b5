/-
Compact signatures, and the keys that are recovered from them.

* `signCompact` looks for the first of four ids with which the signature gives the key back, and writes it with the two
  numbers of the signature into 65 bytes (`compact_eq`). `ofCompact` is the constructor that reads them.
* What is recovered is any partial function of the hash, the two numbers and the id. With the check it recovers less.
-/

import Libcoin.Keys.BigNum
import Libcoin.Keys.Key
import Libcoin.Library.Exec

namespace Libcoin

open Exec

/-- The functions of OpenSSL for signatures: reading one, and recovering the point from its two numbers and an id, with
or without the check. -/
structure EcdsaLibrary (Pt : Type) extends EcLibrary Pt where
  d2i : Data → Option (Nat × Nat)
  recover : Uint256 → Nat → Nat → Nat → Bool → Option Pt

/-- Different points have different octets, and what passes the check is recovered without it too. -/
structure EcdsaLibrary.Documented {Pt : Type} (ec : EcdsaLibrary Pt) : Prop extends ec.toEcLibrary.Documented where
  injective : ∀ P Q, ec.point2oct .compressed P = ec.point2oct .compressed Q → P = Q
  unchecked : ∀ hash r s recid Q, ec.recover hash r s recid true = some Q → ec.recover hash r s recid false = some Q

/-- `BN_num_bits`. -/
def numBits (n : Nat) : Nat := if n = 0 then 0 else n.log2 + 1

/-- `BN_bn2bin`: the bytes of a number, the highest first. -/
def bn2bin (n : Nat) : Data := (magnitudeBytes n).reverse

/-- Bytes that are written into a buffer at a place. -/
def overwrite (data : Data) (place : Nat) (bytes : Data) : Data :=
  data.take place ++ bytes ++ data.drop (place + bytes.length)

namespace Key

variable {Pt : Type} (ec : EcdsaLibrary Pt)

section Source

/-- The signature that is given, or a new one, as two numbers. -/
def signatureNumbers (key : Key Pt) (hash : Uint256) (signature : Data) : Except KeyFault (Nat × Nat) := do
  let signature ← (if signature.length = 0 then sign ec.toEcLibrary key hash else .ok signature)
  match ec.d2i signature with
  | some numbers => .ok numbers
  | none => .error .threw

/-- The loop over the ids. -/
def findRecId (key : Key Pt) (hash : Uint256) (r s : Nat) : List Nat → Except KeyFault (Option Nat)
  | [] => .ok none
  | i :: ids =>
    match ec.recover hash r s i true with
    | some point => do
      let other ← serializedPubkey ec.toEcLibrary { number := none, point := point, form := .compressed }
      let own ← serializedPubkey ec.toEcLibrary key
      if other = own then .ok (some i) else findRecId key hash r s ids
    | none => findRecId key hash r s ids

/-- The 65 bytes. -/
def compactOf (nRecId r s : Nat) : Data :=
  let compact := UInt8.ofNat (nRecId + 27 + 4) :: List.replicate 64 0
  let compact := overwrite compact (33 - (numBits r + 7) / 8) (bn2bin r)
  overwrite compact (65 - (numBits s + 7) / 8) (bn2bin s)

/-- `sign_compact`. -/
def signCompact (key : Key Pt) (hash : Uint256) (signature : Data) : Except KeyFault Data := do
  let numbers ← signatureNumbers ec key hash signature
  if numBits numbers.1 ≤ 256 ∧ numBits numbers.2 ≤ 256 then do
    match ← findRecId ec key hash numbers.1 numbers.2 [0, 1, 2, 3] with
    | some nRecId => .ok (compactOf nRecId numbers.1 numbers.2)
    | none => .error .threw
  else .error .threw

/-- `(signature[0] - 27) & ~4`, of the type `int`. -/
def recOf (first : UInt8) : Int := (BitVec.ofInt 32 (first.toNat - 27) &&& ~~~4).toInt

/-- `Key(hash, signature)`. -/
def ofCompact (hash : Uint256) (signature : Data) : Except KeyFault (Key Pt) :=
  if signature.length ≠ 65 then .error .threw
  else
    let recid := recOf (signature.headD 0)
    let p64 := signature.drop 1
    if recid < 0 ∨ 3 ≤ recid then .error .threw
    else
      let r := (bigEndian (p64.take 32)).toNat
      let s := (bigEndian ((p64.drop 32).take 32)).toNat
      match ec.recover hash r s recid.toNat false with
      | some point => .ok { number := none, point := point, form := .compressed }
      | none => .error .threw

end Source

/-! ### The 65 bytes -/

theorem length_bn2bin (n : Nat) : (bn2bin n).length = (numBits n + 7) / 8 := by
  unfold bn2bin magnitudeBytes numBits
  rw [List.length_reverse, littleBytes_length]
  split <;> omega

theorem length_bn2bin_le {n : Nat} (bits : numBits n ≤ 256) : (bn2bin n).length ≤ 32 := by
  rw [length_bn2bin]
  omega

theorem lt_of_numBits {n : Nat} (bits : numBits n ≤ 256) : n < 256 ^ 32 := by
  unfold numBits at bits
  split at bits
  · omega
  · calc n < 2 ^ (n.log2 + 1) := Nat.lt_log2_self
      _ ≤ 2 ^ (8 * 32) := Nat.pow_le_pow_right (by decide) bits
      _ = 256 ^ 32 := (bytes_pow 32).symm

/-- Bytes that are written at the end of zeros. -/
theorem overwrite_zeros (front back : Data) {size : Nat} {bytes : Data} (fits : bytes.length ≤ size) :
    overwrite (front ++ (List.replicate size 0 ++ back)) (front.length + (size - bytes.length)) bytes =
      front ++ (List.replicate (size - bytes.length) 0 ++ (bytes ++ back)) := by
  have zeros : List.replicate size (0 : UInt8) =
      List.replicate (size - bytes.length) 0 ++ List.replicate bytes.length 0 := by
    rw [List.replicate_append_replicate, Nat.sub_add_cancel fits]
  have before : (front ++ List.replicate (size - bytes.length) (0 : UInt8)).length =
      front.length + (size - bytes.length) := by
    rw [List.length_append, List.length_replicate]
  have whole : front ++ (List.replicate size 0 ++ back) =
      (front ++ List.replicate (size - bytes.length) 0) ++ (List.replicate bytes.length 0 ++ back) := by
    rw [zeros]
    simp only [List.append_assoc]
  unfold overwrite
  rw [whole, ← before, List.take_left, ← List.drop_drop, List.drop_left, List.drop_left' List.length_replicate]
  simp only [List.append_assoc]

/-- A number in its place is that number in 32 bytes. -/
theorem padded_bn2bin {n : Nat} (bits : numBits n ≤ 256) :
    List.replicate (32 - (bn2bin n).length) 0 ++ bn2bin n = (littleBytes 32 n).reverse := by
  have short := length_bn2bin_le bits
  unfold bn2bin at short ⊢
  rw [List.length_reverse] at short ⊢
  have size : (magnitudeBytes n).length = if n = 0 then 0 else n.log2 / 8 + 1 := littleBytes_length _ _
  have wide := littleBytes_add (32 - (magnitudeBytes n).length) (magnitude_fits n)
  rw [← size, Nat.add_sub_cancel' short] at wide
  rw [wide, List.reverse_append, List.reverse_replicate, size]
  rfl

/-- The byte of the id, and the two numbers in 32 bytes. -/
theorem compact_eq (nRecId : Nat) {r s : Nat} (bitsR : numBits r ≤ 256) (bitsS : numBits s ≤ 256) :
    compactOf nRecId r s =
      UInt8.ofNat (nRecId + 27 + 4) :: ((littleBytes 32 r).reverse ++ (littleBytes 32 s).reverse) := by
  have shortR := length_bn2bin_le bitsR
  have shortS := length_bn2bin_le bitsS
  have zeros : List.replicate 64 (0 : UInt8) = List.replicate 32 0 ++ List.replicate 32 0 := rfl
  have placeR : 33 - (numBits r + 7) / 8 = [UInt8.ofNat (nRecId + 27 + 4)].length + (32 - (bn2bin r).length) := by
    rw [← length_bn2bin, List.length_singleton]
    omega
  have placeS : 65 - (numBits s + 7) / 8 =
      (UInt8.ofNat (nRecId + 27 + 4) :: (littleBytes 32 r).reverse).length + (32 - (bn2bin s).length) := by
    rw [← length_bn2bin, List.length_cons, List.length_reverse, littleBytes_length]
    omega
  have first := overwrite_zeros [UInt8.ofNat (nRecId + 27 + 4)] (List.replicate 32 0) shortR
  have second := overwrite_zeros (UInt8.ofNat (nRecId + 27 + 4) :: (littleBytes 32 r).reverse) [] shortS
  rw [← List.append_assoc (List.replicate _ _) (bn2bin r), padded_bn2bin bitsR] at first
  rw [List.append_nil, List.append_nil, padded_bn2bin bitsS] at second
  unfold compactOf
  dsimp only
  rw [zeros, placeR, placeS]
  calc overwrite (overwrite ([UInt8.ofNat (nRecId + 27 + 4)] ++ (List.replicate 32 0 ++ List.replicate 32 0)) _ _) _ _
    _ = overwrite ((UInt8.ofNat (nRecId + 27 + 4) :: (littleBytes 32 r).reverse) ++ List.replicate 32 0) _ _ := by
        rw [first]
        rfl
    _ = _ := second

theorem bigEndian_reverse {n : Nat} (bits : numBits n ≤ 256) : (bigEndian (littleBytes 32 n).reverse).toNat = n := by
  unfold bigEndian
  rw [List.reverse_reverse, littleEndian_littleBytes (lt_of_numBits bits), Int.toNat_natCast]

/-- The id is read back. -/
theorem recOf_id : ∀ nRecId < 4, recOf (UInt8.ofNat (nRecId + 27 + 4)) = nRecId := by
  decide

/-- The constructor on what was written: the last id is rejected. -/
theorem ofCompact_compactOf (hash : Uint256) {nRecId : Nat} (small : nRecId < 4) {r s : Nat} (bitsR : numBits r ≤ 256)
    (bitsS : numBits s ≤ 256) :
    ofCompact ec hash (compactOf nRecId r s) =
      if nRecId = 3 then .error .threw
      else
        match ec.recover hash r s nRecId false with
        | some point => .ok { number := none, point := point, form := .compressed }
        | none => .error .threw := by
  have size : (littleBytes 32 r).reverse.length = 32 := by rw [List.length_reverse, littleBytes_length]
  have size' : (littleBytes 32 s).reverse.length = 32 := by rw [List.length_reverse, littleBytes_length]
  have takeR : ((littleBytes 32 r).reverse ++ (littleBytes 32 s).reverse).take 32 = (littleBytes 32 r).reverse :=
    List.take_left' size
  have dropR : ((littleBytes 32 r).reverse ++ (littleBytes 32 s).reverse).drop 32 = (littleBytes 32 s).reverse :=
    List.drop_left' size
  have takeS : ((littleBytes 32 s).reverse).take 32 = (littleBytes 32 s).reverse := List.take_of_length_le size'.le
  unfold ofCompact
  rw [compact_eq nRecId bitsR bitsS, if_neg (by simp)]
  dsimp only
  rw [List.headD_cons, recOf_id nRecId small, List.drop_succ_cons, List.drop_zero, takeR, dropR, takeS,
    bigEndian_reverse bitsR, bigEndian_reverse bitsS, Int.toNat_natCast]
  by_cases last : nRecId = 3
  · rw [if_pos last, if_pos (by omega)]
  · rw [if_neg last, if_neg (by omega)]

/-! ### The id that is found -/

variable {ec} (documented : ec.Documented)

include documented

/-- The first id that gives the key is found. -/
theorem findRecId_some {key : Key Pt} {hash : Uint256} {r s : Nat} {ids : List Nat} {nRecId : Nat}
    (found : findRecId ec key hash r s ids = .ok (some nRecId)) :
    ∃ before after, ids = before ++ nRecId :: after ∧ ec.recover hash r s nRecId true = some key.point ∧
      ∀ i ∈ before, ec.recover hash r s i true ≠ some key.point := by
  induction ids with
  | nil => cases found
  | cons i ids ih =>
    unfold findRecId at found
    cases recovered : ec.recover hash r s i true with
    | none =>
      rw [recovered] at found
      obtain ⟨before, after, split, gives, earlier⟩ := ih found
      refine ⟨i :: before, after, by rw [split, List.cons_append], gives, ?_⟩
      rw [List.forall_mem_cons, recovered]
      exact ⟨nofun, earlier⟩
    | some point =>
      rw [recovered] at found
      obtain ⟨other, written, found⟩ := bind_eq_ok.mp found
      obtain ⟨own, done, found⟩ := bind_eq_ok.mp found
      obtain ⟨-, rfl⟩ := (serializedPubkey_eq_ok documented.toDocumented).mp written
      obtain ⟨-, rfl⟩ := (serializedPubkey_eq_ok documented.toDocumented).mp done
      by_cases same : point = key.point
      · rw [if_pos (congrArg _ same)] at found
        cases found
        exact ⟨[], ids, rfl, by rw [recovered, same], List.forall_mem_nil _⟩
      · rw [if_neg fun octets => same (documented.injective _ _ octets)] at found
        obtain ⟨before, after, split, gives, earlier⟩ := ih found
        refine ⟨i :: before, after, by rw [split, List.cons_append], gives, ?_⟩
        rw [List.forall_mem_cons, recovered, Ne, Option.some.injEq]
        exact ⟨same, earlier⟩

/-- What `signCompact` has returned: the first of the four ids that gives the key. -/
theorem signCompact_ok {key : Key Pt} {hash : Uint256} {signature compact : Data}
    (returned : signCompact ec key hash signature = .ok compact) :
    ∃ r s nRecId, signatureNumbers ec key hash signature = .ok (r, s) ∧ numBits r ≤ 256 ∧ numBits s ≤ 256 ∧
      nRecId < 4 ∧ compact = compactOf nRecId r s ∧ ec.recover hash r s nRecId true = some key.point ∧
      ∀ i < nRecId, ec.recover hash r s i true ≠ some key.point := by
  obtain ⟨⟨r, s⟩, numbers, returned⟩ := bind_eq_ok.mp returned
  dsimp only at returned
  split at returned
  · rename_i bits
    obtain ⟨found, search, returned⟩ := bind_eq_ok.mp returned
    cases found with
    | none => cases returned
    | some nRecId =>
      cases returned
      obtain ⟨before, after, split, gives, earlier⟩ := findRecId_some documented search
      have place : nRecId < 4 ∧ ∀ i < nRecId, i ∈ before := by
        rcases before with _ | ⟨a, _ | ⟨b, _ | ⟨c, _ | ⟨d, before⟩⟩⟩⟩ <;>
          simp only [List.nil_append, List.cons_append, List.cons.injEq, List.nil_eq, List.append_eq_nil_iff,
            reduceCtorEq, and_false] at split <;>
          simp only [List.mem_cons, List.not_mem_nil, or_false] <;>
          exact ⟨by omega, fun i below => by omega⟩
      exact ⟨r, s, nRecId, numbers, bits.1, bits.2, place.1, rfl, gives, fun i below => earlier i (place.2 i below)⟩
  · cases returned

/-- What `signCompact` returns gives the same point back, if and only if one of the first three ids recovers it. -/
theorem compact_recovers_iff {key : Key Pt} {hash : Uint256} {signature compact : Data}
    (returned : signCompact ec key hash signature = .ok compact) :
    (∃ key', ofCompact ec hash compact = .ok key' ∧ key'.point = key.point) ↔
      ∃ r s, signatureNumbers ec key hash signature = .ok (r, s) ∧
        ∃ i < 3, ec.recover hash r s i true = some key.point := by
  obtain ⟨r, s, nRecId, numbers, bitsR, bitsS, small, rfl, gives, first⟩ := signCompact_ok documented returned
  rw [ofCompact_compactOf ec hash small bitsR bitsS, documented.unchecked _ _ _ _ _ gives]
  constructor
  · rintro ⟨key', read, -⟩
    by_cases last : nRecId = 3
    · rw [if_pos last] at read
      cases read
    · exact ⟨r, s, numbers, nRecId, by omega, gives⟩
  · rintro ⟨r', s', numbers', i, below, recovers⟩
    rw [numbers] at numbers'
    cases numbers'
    have least : nRecId ≤ i := not_lt.mp fun less => first i less recovers
    rw [if_neg (by omega)]
    exact ⟨_, rfl, rfl⟩

end Key

namespace Small

/-- The numbers 5 and 7 as a signature. -/
def fiveSeven : Data := [0x30, 6, 2, 1, 5, 2, 1, 7]

/-- The library on the generator, where the signature gives it back with one id. -/
def recovering (recid : Nat) : EcdsaLibrary Unit :=
  { generating with
    d2i := fun data => if data = fiveSeven then some (5, 7) else none
    recover := fun _ _ _ i _ => if i = recid then some () else none }

theorem recovering_documented (recid : Nat) : (recovering recid).Documented where
  size := generating_documented.size
  form := generating_documented.form
  injective := fun _ _ _ => rfl
  unchecked := fun _ _ _ _ _ recovered => recovered

end Small

open Libcoin.Small Key

theorem compact_recovers_iff_second :
    ∃ key', ofCompact (recovering 2) 0 (compactOf 2 5 7) = .ok key' ∧ key'.point = (ofNumber generating 1).point := by
  have returned : signCompact (recovering 2) (ofNumber generating 1) 0 fiveSeven = .ok (compactOf 2 5 7) := by rfl
  exact (compact_recovers_iff (recovering_documented 2) returned).mpr ⟨5, 7, rfl, 2, by decide, rfl⟩

/-- With the last id a signature is written that is not read. -/
theorem compact_unrecovered :
    signCompact (recovering 3) (ofNumber generating 1) 0 fiveSeven = .ok (compactOf 3 5 7) ∧
      (recovering 3).recover 0 5 7 3 true = some (ofNumber generating 1).point ∧
      ofCompact (recovering 3) 0 (compactOf 3 5 7) = .error .threw :=
  ⟨rfl, rfl, rfl⟩

end Libcoin
