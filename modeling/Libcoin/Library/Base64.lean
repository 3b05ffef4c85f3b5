/-
Base 64: bytes as letters for six bits each.

* Three bytes are four letters. One or two bytes at the end are two or three letters and a padding
  (`Base64.encode`).
* `length_encode` and `encode_split`: how many characters there are, and which ones.
-/

import Mathlib.Data.List.Basic
import Mathlib.Tactic.TypeStar

namespace Libcoin

namespace Base64

/-! ### Sextets -/

/-- The first six bits of three bytes. -/
def first (a : Nat) : Nat := a / 4

def second (a b : Nat) : Nat := a % 4 * 16 + b / 16

def third (b c : Nat) : Nat := b % 16 * 4 + c / 64

def fourth (c : Nat) : Nat := c % 64

theorem first_lt {a : Nat} (byte : a < 256) : first a < 64 := by
  unfold first
  omega

theorem second_lt {b : Nat} (a : Nat) (byte : b < 256) : second a b < 64 := by
  unfold second
  omega

theorem third_lt {c : Nat} (b : Nat) (byte : c < 256) : third b c < 64 := by
  unfold third
  omega

theorem fourth_lt (c : Nat) : fourth c < 64 := by
  unfold fourth
  omega

/-! ### Letters -/

variable {α : Type*} (letter : Nat → α) (pad : α)

/-- The letters of bytes, in groups of four. -/
def encode : List UInt8 → List α
  | [] => []
  | [a] => [letter (first a.toNat), letter (second a.toNat 0), pad, pad]
  | [a, b] => [letter (first a.toNat), letter (second a.toNat b.toNat), letter (third b.toNat 0), pad]
  | a :: b :: c :: bytes =>
    letter (first a.toNat) :: letter (second a.toNat b.toNat) :: letter (third b.toNat c.toNat) ::
      letter (fourth c.toNat) :: encode bytes

theorem length_encode (bytes : List UInt8) : (encode letter pad bytes).length = 4 * ((bytes.length + 2) / 3) := by
  fun_induction encode letter pad bytes with
  | case1 => rfl
  | case2 => simp
  | case3 => simp
  | case4 a b c bytes ih =>
    simp only [List.length_cons, ih]
    omega

/-- At most two paddings follow the letters. -/
theorem encode_split (bytes : List UInt8) :
    ∃ letters pads, encode letter pad bytes = letters ++ List.replicate pads pad ∧ pads ≤ 2 ∧
      ∀ c ∈ letters, ∃ n < 64, c = letter n := by
  fun_induction encode letter pad bytes with
  | case1 => exact ⟨[], 0, rfl, by omega, fun _ member => absurd member List.not_mem_nil⟩
  | case2 a =>
    refine ⟨[_, _], 2, rfl, Nat.le_refl _, ?_⟩
    simp only [List.forall_mem_cons]
    exact ⟨⟨_, first_lt a.toNat_lt, rfl⟩, ⟨_, second_lt _ (by omega), rfl⟩,
      fun _ member => absurd member List.not_mem_nil⟩
  | case3 a b =>
    refine ⟨[_, _, _], 1, rfl, by omega, ?_⟩
    simp only [List.forall_mem_cons]
    exact ⟨⟨_, first_lt a.toNat_lt, rfl⟩, ⟨_, second_lt _ b.toNat_lt, rfl⟩, ⟨_, third_lt _ (by omega), rfl⟩,
      fun _ member => absurd member List.not_mem_nil⟩
  | case4 a b c bytes ih =>
    obtain ⟨letters, pads, split, few, all⟩ := ih
    refine ⟨_ :: _ :: _ :: _ :: letters, pads, by rw [split]; rfl, few, ?_⟩
    simp only [List.forall_mem_cons]
    exact ⟨⟨_, first_lt a.toNat_lt, rfl⟩, ⟨_, second_lt _ b.toNat_lt, rfl⟩, ⟨_, third_lt _ c.toNat_lt, rfl⟩,
      ⟨_, fourth_lt _, rfl⟩, all⟩

theorem mem_encode {bytes : List UInt8} {c : α} (member : c ∈ encode letter pad bytes) :
    c = pad ∨ ∃ n < 64, c = letter n := by
  obtain ⟨letters, pads, split, -, all⟩ := encode_split letter pad bytes
  rw [split] at member
  rcases List.mem_append.mp member with inside | inside
  · exact .inr (all c inside)
  · exact .inl (List.eq_of_mem_replicate inside)

end Base64

end Libcoin
