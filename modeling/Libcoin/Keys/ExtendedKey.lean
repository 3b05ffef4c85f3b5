/-
`ExtendedKey`: deterministic keys, derived along a path.

The curve is any commutative group with a generator and a multiple of its order, and the hash functions are any
functions.
-/

import Libcoin.Ledger.Types
import Libcoin.Library.Codec
import Mathlib.Algebra.Group.Basic
import Mathlib.Data.ZMod.Basic

namespace Libcoin

/-- The group of `Point`, its generator and its order, with the octets of a point. -/
structure Curve (Pt : Type) [AddCommGroup Pt] where
  generator : Pt
  order : Int
  order_smul : order • generator = 0
  i2o : Pt → Data

/-- The hash functions: HMAC of a key and a message, and the hash of a fingerprint. -/
structure KeyHashes where
  hmac : Data → Data → Data
  fingerprint : Data → Nat

/-- An `ExtendedKey`: a number if it is private, a point, and the chain code. -/
structure ExtendedKey (Pt : Type) where
  number : Option Int
  point : Pt
  chainCode : Data
deriving DecidableEq

/-- The members of `ExtendedKey::Derivation`. -/
structure Derivation where
  fingerprint : Nat
  path : List Nat

/-- `BN_bin2bn`: the highest byte first. -/
def bigEndian (bytes : Data) : Int := littleEndian bytes.reverse

/-- The four bytes of a child number, the highest first. -/
def childBytes (i : Nat) : Data := (littleBytes 4 i).reverse

namespace ExtendedKey

variable {Pt : Type} [AddCommGroup Pt] (curve : Curve Pt) (hashes : KeyHashes)

/-- `ExtendedKey(private_number, chain_code)`. -/
def ofNumber (number : Int) (chainCode : Data) : ExtendedKey Pt :=
  { number := some number, point := number • curve.generator, chainCode := chainCode }

/-- `ExtendedKey(public_point, chain_code)`. -/
def ofPoint (point : Pt) (chainCode : Data) : ExtendedKey Pt :=
  { number := none, point := point, chainCode := chainCode }

/-- `serialized_pubkey`, which throws on a point whose octets are not 33, such as the point at infinity. -/
def serializedPubkey (ek : ExtendedKey Pt) : Option Data :=
  if (curve.i2o ek.point).length = 33 then some (curve.i2o ek.point) else none

/-- `serialized_privkey`, which throws on a public key. Nothing is known of numbers of more than 32 bytes. -/
def serializedPrivkey (ek : ExtendedKey Pt) : Option Data :=
  match ek.number with
  | none => none
  | some number => if number.natAbs < 256 ^ 32 then some (littleBytes 32 number.natAbs).reverse else none

/-- `fingerprint`. -/
def fingerprint (ek : ExtendedKey Pt) : Option Nat := do
  let pub ← serializedPubkey curve ek
  return hashes.fingerprint (ek.chainCode ++ pub)

/-- `BIP0032::Delegation::operator()`. -/
def delegation (parent : ExtendedKey Pt) (i : Nat) : Option (ExtendedKey Pt) := do
  let i := i ||| 0x80000000
  let data ← serializedPrivkey parent
  let I := hashes.hmac parent.chainCode ((0 :: data) ++ childBytes i)
  match parent.number with
  | some k => return ofNumber curve ((k + bigEndian (I.take 32)).tmod curve.order) (I.drop 32)
  | none => none

/-- `BIP0032::Derivation::operator()`. -/
def child (parent : ExtendedKey Pt) (i : Nat) : Option (ExtendedKey Pt) :=
  if i &&& 0x80000000 ≠ 0 then delegation curve hashes parent (i &&& 0x7fffffff)
  else do
    let data ← serializedPubkey curve parent
    let I := hashes.hmac parent.chainCode (data ++ childBytes i)
    match parent.number with
    | some k => return ofNumber curve ((k + bigEndian (I.take 32)).tmod curve.order) (I.drop 32)
    | none => return ofPoint (parent.point + bigEndian (I.take 32) • curve.generator) (I.drop 32)

/-- The loop of `operator()`. -/
def deriveLoop (upto : Nat) : List Nat → Nat → ExtendedKey Pt → Option (ExtendedKey Pt)
  | [], _, ek => some ek
  | i :: path, depth, ek =>
    if depth = upto then some ek
    else do
      let ek ← child curve hashes ek i
      deriveLoop upto path (depth + 1) ek

/-- `operator()`. The number of steps is an `unsigned int`. -/
def derive (ek : ExtendedKey Pt) (generator : Derivation) (skip : Nat) : Option (ExtendedKey Pt) := do
  let upto := (((generator.path.length : Int) - skip) % 2 ^ 32).toNat
  if generator.fingerprint ≠ 0 then do
    let own ← fingerprint curve hashes ek
    if generator.fingerprint ≠ own then none else deriveLoop curve hashes upto generator.path 0 ek
  else deriveLoop curve hashes upto generator.path 0 ek

/-- The public extended key of a key. -/
def neuter (ek : ExtendedKey Pt) : ExtendedKey Pt := ofPoint ek.point ek.chainCode

/-- `isConsistent`, for a private key. -/
def Consistent (ek : ExtendedKey Pt) : Prop := ∃ number, ek.number = some number ∧ ek.point = number • curve.generator

/-! ### One step -/

variable {curve} {hashes} {ek ek' : ExtendedKey Pt}

/-- The order takes away nothing of the generator. -/
theorem tmod_order_smul (number : Int) : number.tmod curve.order • curve.generator = number • curve.generator := by
  have split : (curve.order * number.tdiv curve.order + number.tmod curve.order) • curve.generator =
      number • curve.generator := by
    rw [Int.mul_tdiv_add_tmod]
  rwa [add_smul, mul_comm, mul_smul, curve.order_smul, smul_zero, zero_add] at split

/-- **A step that is not hardened** gives the same point and the same chain code to both, or fails for both. -/
theorem child_neuter (consistent : Consistent curve ek) {i : Nat} (plain : i &&& 0x80000000 = 0) :
    (child curve hashes ek i).map neuter = child curve hashes (neuter ek) i ∧
      ∀ ek', child curve hashes ek i = some ek' → Consistent curve ek' := by
  obtain ⟨number, isPrivate, point⟩ := consistent
  have same : serializedPubkey curve (neuter ek) = serializedPubkey curve ek := rfl
  unfold child
  rw [if_neg (not_not.mpr plain), if_neg (not_not.mpr plain), same]
  cases serializedPubkey curve ek with
  | none => exact ⟨rfl, nofun⟩
  | some data =>
    simp only [Option.bind_eq_bind, Option.bind_some, isPrivate]
    refine ⟨?_, ?_⟩
    · show some (neuter (ofNumber curve _ _)) = some (ofPoint _ _)
      rw [neuter, ofNumber, neuter, ofPoint, tmod_order_smul, add_smul, ← point]
      rfl
    · rintro ek' ⟨⟩
      exact ⟨_, rfl, rfl⟩

/-! ### Paths -/

/-- A loop that is not stopped takes all steps. -/
theorem deriveLoop_eq {upto depth : Nat} {path : List Nat} (enough : depth + path.length ≤ upto)
    (ek : ExtendedKey Pt) :
    deriveLoop curve hashes upto path depth ek = path.foldlM (child curve hashes) ek := by
  induction path generalizing depth ek with
  | nil => rfl
  | cons i path ih =>
    rw [List.length_cons] at enough
    rw [deriveLoop, if_neg (by omega), List.foldlM_cons]
    congr 1
    funext next
    exact ih (by omega) next

theorem derive_eq {generator : Derivation} (short : generator.path.length < 2 ^ 32) :
    derive curve hashes ek generator 0 =
      if generator.fingerprint = 0 ∨ fingerprint curve hashes ek = some generator.fingerprint then
        generator.path.foldlM (child curve hashes) ek
      else none := by
  have upto : (((generator.path.length : Int) - (0 : Nat)) % 2 ^ 32).toNat = generator.path.length := by
    omega
  unfold derive
  dsimp only
  rw [upto, deriveLoop_eq (Nat.zero_add _).le]
  by_cases zero : generator.fingerprint = 0
  · rw [if_neg (not_not.mpr zero), if_pos (.inl zero)]
  · rw [if_pos zero]
    cases print : fingerprint curve hashes ek with
    | none => rw [if_neg (by simp [zero])]; rfl
    | some own =>
      simp only [Option.bind_eq_bind, Option.bind_some, zero, false_or, Option.some.injEq, ne_eq]
      by_cases same : generator.fingerprint = own
      · rw [if_neg (not_not.mpr same), if_pos same.symm]
      · rw [if_pos same, if_neg (Ne.symm same)]

theorem foldlM_neuter (consistent : Consistent curve ek) {path : List Nat}
    (plain : ∀ i ∈ path, i &&& 0x80000000 = 0) :
    (path.foldlM (child curve hashes) ek).map neuter = path.foldlM (child curve hashes) (neuter ek) := by
  induction path generalizing ek with
  | nil => rfl
  | cons i path ih =>
    obtain ⟨same, keeps⟩ := @child_neuter _ _ _ hashes _ consistent i (plain i List.mem_cons_self)
    rw [List.foldlM_cons, List.foldlM_cons, ← same]
    cases step : child curve hashes ek i with
    | none => rfl
    | some next => exact ih (keeps next step) fun j member => plain j (List.mem_cons_of_mem _ member)

/-- **Derivation commutes with the loss of the private number**, and goes on where it was left. -/
theorem derive_exact (consistent : Consistent curve ek) {generator : Derivation}
    (plain : ∀ i ∈ generator.path, i &&& 0x80000000 = 0) (short : generator.path.length < 2 ^ 32) :
    (derive curve hashes ek generator 0).map neuter = derive curve hashes (neuter ek) generator 0 ∧
      ∀ first second, generator.path = first ++ second →
        derive curve hashes ek generator 0 =
            (derive curve hashes ek ⟨generator.fingerprint, first⟩ 0).bind (derive curve hashes · ⟨0, second⟩ 0) ∧
          derive curve hashes (neuter ek) generator 0 =
            (derive curve hashes (neuter ek) ⟨generator.fingerprint, first⟩ 0).bind
              (derive curve hashes · ⟨0, second⟩ 0) := by
  have split (any : ExtendedKey Pt) (first second : List Nat) (parts : generator.path = first ++ second) :
      derive curve hashes any generator 0 =
        (derive curve hashes any ⟨generator.fingerprint, first⟩ 0).bind (derive curve hashes · ⟨0, second⟩ 0) := by
    rw [parts, List.length_append] at short
    have rest (next : ExtendedKey Pt) :
        derive curve hashes next ⟨0, second⟩ 0 = second.foldlM (child curve hashes) next := by
      rw [derive_eq (show second.length < 2 ^ 32 by omega), if_pos (.inl rfl)]
    rw [derive_eq (by rw [parts, List.length_append]; exact short),
      derive_eq (show first.length < 2 ^ 32 by omega), parts, List.foldlM_append]
    split
    · exact congrArg _ (funext fun next => (rest next).symm)
    · rfl
  refine ⟨?_, fun first second parts => ⟨split ek first second parts, split (neuter ek) first second parts⟩⟩
  rw [derive_eq short, derive_eq short]
  have print : fingerprint curve hashes (neuter ek) = fingerprint curve hashes ek := rfl
  rw [print]
  split
  · exact foldlM_neuter consistent plain
  · rfl

/-- A path of `2 ^ 32` steps, of which none is taken. -/
theorem derive_none {generator : Derivation} (free : generator.fingerprint = 0)
    (long : generator.path.length = 2 ^ 32) : derive curve hashes ek generator 0 = some ek := by
  have upto : (((generator.path.length : Int) - (0 : Nat)) % 2 ^ 32).toNat = 0 := by
    rw [long]
    decide
  unfold derive
  dsimp only
  rw [upto, if_neg (not_not.mpr free)]
  cases generator.path with
  | nil => rfl
  | cons i path => exact if_pos rfl

end ExtendedKey

namespace Small

/-- The numbers modulo 7, where zero is the point at infinity. -/
def curve : Curve (ZMod 7) where
  generator := 1
  order := 7
  order_smul := by decide
  i2o point := if point = 0 then [0] else List.replicate 33 (UInt8.ofNat point.val)

/-- A chain code of one byte, and the number 2 in every step. -/
def keyHashes : KeyHashes where
  hmac _ _ := List.replicate 31 0 ++ [2, 1]
  fingerprint data := data.length

end Small

namespace ExtendedKey

open Libcoin.Small in
/-- Two steps from the number 3. -/
theorem derive_exact_steps :
    (derive curve keyHashes (ofNumber curve 3 []) ⟨0, [5, 6]⟩ 0).map neuter =
        derive curve keyHashes (neuter (ofNumber curve 3 [])) ⟨0, [5, 6]⟩ 0 ∧
      ∀ first second, [5, 6] = first ++ second →
        derive curve keyHashes (ofNumber curve 3 []) ⟨0, [5, 6]⟩ 0 =
            (derive curve keyHashes (ofNumber curve 3 []) ⟨0, first⟩ 0).bind
              (derive curve keyHashes · ⟨0, second⟩ 0) ∧
          derive curve keyHashes (neuter (ofNumber curve 3 [])) ⟨0, [5, 6]⟩ 0 =
            (derive curve keyHashes (neuter (ofNumber curve 3 [])) ⟨0, first⟩ 0).bind
              (derive curve keyHashes · ⟨0, second⟩ 0) :=
  @derive_exact _ _ _ _ _ ⟨3, rfl, rfl⟩ ⟨0, [5, 6]⟩ (by decide) (by decide)

open Libcoin.Small in
/-- A private number with the point of another one, and a path of `2 ^ 32` steps in two parts. -/
theorem derive_not_exact :
    (∃ ek, ek.number.isSome ∧
      (derive curve keyHashes ek ⟨0, [5]⟩ 0).map neuter ≠ derive curve keyHashes (neuter ek) ⟨0, [5]⟩ 0) ∧
      ∃ first second : List Nat, (∀ i ∈ first ++ second, i &&& 0x80000000 = 0) ∧
        derive curve keyHashes (ofNumber curve 3 []) ⟨0, first ++ second⟩ 0 ≠
          (derive curve keyHashes (ofNumber curve 3 []) ⟨0, first⟩ 0).bind
            (derive curve keyHashes · ⟨0, second⟩ 0) := by
  refine ⟨⟨{ number := some 3, point := 4, chainCode := [] }, rfl, by decide +kernel⟩,
    List.replicate (2 ^ 32 - 1) 0, [0], fun i member => ?_, ?_⟩
  · rcases List.mem_append.mp member with early | last
    · rw [List.eq_of_mem_replicate early]
      rfl
    · rw [List.mem_singleton.mp last]
      rfl
  · rw [derive_none rfl (by rw [List.length_append, List.length_replicate]; rfl)]
    intro same
    obtain ⟨next, -, last⟩ := Option.bind_eq_some_iff.mp same.symm
    rw [derive_eq (show [0].length < 2 ^ 32 by decide), if_pos (.inl rfl)] at last
    -- the chain code after a step is never empty
    have code : (child curve keyHashes next 0).map ExtendedKey.chainCode ≠ some [] := by
      unfold child
      rw [if_neg (by decide)]
      cases serializedPubkey curve next with
      | none => exact nofun
      | some data =>
        cases next.number <;> simp [keyHashes, ofNumber, ofPoint]
    rw [List.foldlM_cons] at last
    obtain ⟨after, step, done⟩ := Option.bind_eq_some_iff.mp last
    rw [step, Option.some.inj done] at code
    exact code rfl

end ExtendedKey

end Libcoin
