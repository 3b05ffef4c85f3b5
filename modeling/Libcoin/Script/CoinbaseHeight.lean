/-
The height of a block in the script of its coinbase: how it is written, compared and read.

* `scriptHeight` is what `Block::getHeight` reads from the script, `Block.checkHeightInCoinbase` compares its first
  bytes with the height as it is pushed.
* `IsSmallNumber` says which numbers are pushed by an opcode of their own. `getHeight` reads a zero there, and every
  other number as it was written (`scriptHeight_pushInt`).
-/

import Libcoin.Keys.BigNum
import Libcoin.Library.Exec

namespace Libcoin

/-- What `getHeight` reads from the signature of the coinbase. Without a first instruction the opcode is invalid. -/
def scriptHeight (coinbase : Script) : Int :=
  match Script.getOp coinbase with
  | none => 0
  | some (opcode, data, _) => if opcode < 76 then getint (setvch data) else 0

/-- `std::equal(expect.begin(), expect.end(), coinbase.begin())`, which must not read past the coinbase. -/
def startsWith : Script → Script → Except Fault Bool
  | [], _ => .ok true
  | _ :: _, [] => .error .undefined
  | a :: expect, b :: coinbase => if a = b then startsWith expect coinbase else .ok false

namespace Block

/-- `getTransaction(0).getInput(0).signature()`. -/
def coinbaseSignature (block : Block) : Except Fault Script :=
  match block.transactions.head?.bind fun coinbase => coinbase.inputs.head? with
  | none => .error .undefined
  | some input => .ok input.signature

/-- `Block::checkHeightInCoinbase`. -/
def checkHeightInCoinbase (block : Block) (height : Int) : Except Fault Bool := do
  let coinbase ← block.coinbaseSignature
  startsWith (Script.pushInt height) coinbase

/-- `Block::getHeight`. -/
def getHeight (block : Block) : Except Fault Int := do
  let coinbase ← block.coinbaseSignature
  return scriptHeight coinbase

end Block

/-- The numbers that `push_int64` writes as an opcode. -/
def IsSmallNumber (n : Int) : Prop := n = -1 ∨ 1 ≤ n ∧ n ≤ 16

instance (n : Int) : Decidable (IsSmallNumber n) := inferInstanceAs (Decidable (_ ∨ _))

/-- The values of `int`. -/
def IsInt (n : Int) : Prop := -2 ^ 31 ≤ n ∧ n < 2 ^ 31

instance (n : Int) : Decidable (IsInt n) := inferInstanceAs (Decidable (_ ∧ _))

theorem pushInt_small {n : Int} (small : IsSmallNumber n) : Script.pushInt n = [UInt8.ofNat (n + 80).toNat] :=
  if_pos small

theorem pushInt_large {n : Int} (large : ¬IsSmallNumber n) : Script.pushInt n = Script.pushData (numberBytes n) :=
  if_neg large

theorem scriptHeight_small {n : Int} (small : IsSmallNumber n) (rest : Script) :
    scriptHeight (Script.pushInt n ++ rest) = 0 := by
  have byte : (UInt8.ofNat (n + 80).toNat).toNat = (n + 80).toNat := by
    rw [UInt8.toNat_ofNat']
    rcases small with rfl | ⟨low, high⟩ <;> omega
  have high : 78 < (UInt8.ofNat (n + 80).toNat).toNat := by
    rw [byte]
    rcases small with rfl | ⟨low, high⟩ <;> omega
  have read : Script.getOp (Script.pushInt n ++ rest) = some ((UInt8.ofNat (n + 80).toNat).toNat, [], rest) := by
    rw [pushInt_small small, List.singleton_append]
    unfold Script.getOp
    exact if_pos high
  unfold scriptHeight
  rw [read]
  exact if_neg (by omega)

/-- The other numbers are read as they were written. -/
theorem scriptHeight_pushed {n : Int} (int : IsInt n) (large : ¬IsSmallNumber n) (rest : Script) :
    scriptHeight (Script.pushInt n ++ rest) = n := by
  have short := numberBytes_short int.1 int.2
  have read := Script.getOp_short (show (numberBytes n).length < 76 by omega) rest
  unfold scriptHeight
  rw [pushInt_large large, read]
  dsimp only
  rw [if_pos (by omega), setvch_numberBytes, getint_of_range int.1 int.2]

theorem scriptHeight_pushInt {n : Int} (int : IsInt n) (rest : Script) :
    scriptHeight (Script.pushInt n ++ rest) = n ↔ ¬IsSmallNumber n := by
  constructor
  · rintro same (rfl | ⟨low, high⟩)
    · rw [scriptHeight_small (.inl rfl)] at same
      cases same
    · rw [scriptHeight_small (.inr ⟨low, high⟩)] at same
      omega
  · exact fun large => scriptHeight_pushed int large rest

theorem startsWith_ok {expect coinbase : Script} (equal : startsWith expect coinbase = .ok true) :
    ∃ rest, coinbase = expect ++ rest := by
  induction expect generalizing coinbase with
  | nil => exact ⟨coinbase, rfl⟩
  | cons a expect ih =>
    cases coinbase with
    | nil => cases equal
    | cons b coinbase =>
      unfold startsWith at equal
      split at equal
      · rename_i same
        obtain ⟨rest, rfl⟩ := ih equal
        exact ⟨rest, by rw [same]; rfl⟩
      · cases equal

namespace Block

variable {block : Block}

theorem getHeight_of_signature {coinbase : Script} (signature : block.coinbaseSignature = .ok coinbase) :
    block.getHeight = .ok (scriptHeight coinbase) := by
  unfold getHeight
  rw [signature]
  rfl

theorem getHeight_pushInt {h : Int} (int : IsInt h) {pushes : Script}
    (signature : block.coinbaseSignature = .ok (Script.pushInt h ++ pushes)) :
    block.getHeight = .ok h ↔ ¬IsSmallNumber h := by
  rw [getHeight_of_signature signature, Except.ok.injEq]
  exact scriptHeight_pushInt int pushes

/-- A block that passes the check has its height at the begin of the coinbase. -/
theorem checkHeightInCoinbase_ok {h : Int} (check : block.checkHeightInCoinbase h = .ok true) :
    ∃ pushes, block.coinbaseSignature = .ok (Script.pushInt h ++ pushes) := by
  obtain ⟨coinbase, signature, equal⟩ := Exec.bind_eq_ok.mp check
  obtain ⟨pushes, rfl⟩ := startsWith_ok equal
  exact ⟨pushes, signature⟩

end Block

end Libcoin
