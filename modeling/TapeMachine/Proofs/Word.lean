import Mathlib.Algebra.GroupWithZero.Nat
import TapeMachine.Word

/-! Words that name addresses, and the words that addresses of an image are written as. -/

namespace TapeMachine
namespace Word

theorem address?_eq_some_iff {w : Word} {a : Address} :
    address? w = some a ↔ 0 ≤ w ∧ w.toUInt64 = a := by
  unfold address?
  split
  · rename_i h
    have : ¬ 0 ≤ w := by simpa using h
    simp [this]
  · rename_i h
    have : 0 ≤ w := by simpa using h
    simp [this]

theorem toUInt64_ofInt_natCast (n : Nat) : (Int64.ofInt (n : Int)).toUInt64 = UInt64.ofNat n := by
  rw [Int64.ofInt_eq_ofNat, Int64.toUInt64_ofNat']

/-- The address of a place in an image is a word that names this place. -/
theorem address?_ofInt_natCast {n : Nat} (h : n < 2 ^ 63) :
    address? (Int64.ofInt (n : Int)) = some (UInt64.ofNat n) := by
  rw [address?_eq_some_iff, toUInt64_ofInt_natCast]
  refine ⟨?_, rfl⟩
  rw [Int64.le_iff_toInt_le, Int64.ofInt_eq_ofNat, Int64.toInt_ofNat_of_lt h]
  simp

theorem ofNat_inj {x y : Nat} (hx : x < 2 ^ 64) (hy : y < 2 ^ 64)
    (h : UInt64.ofNat x = UInt64.ofNat y) : x = y := by
  rw [← UInt64.toNat_ofNat_of_lt' hx, ← UInt64.toNat_ofNat_of_lt' hy, h]

end Word
end TapeMachine
