import Mathlib.Algebra.GroupWithZero.Nat
import TapeMachine.Opcode.Fields

/-! An opcode word seen as a number. Its two low decimal digits are its code, and the digits above them
are those of its operands. -/

namespace TapeMachine

namespace Word

def code (w : Word) : Nat := w.toInt.toNat % 100

/-- The decimal digit of a word that stands for the mode of an operand. -/
def digit (w : Word) (k : Nat) : Nat := w.toInt.toNat / (100 * 10 ^ k) % 10

end Word

theorem Mode.code_le (mode : Mode) : mode.code ≤ 2 := by
  cases mode <;> decide

theorem Mode.code_of_ofCode? {n : Nat} {mode : Mode} (h : ofCode? n = some mode) : mode.code = n := by
  match n with
  | 0 | 1 | 2 =>
    cases h
    rfl
  | n + 3 => cases h

namespace OpFields

variable {w : Word} {f : OpFields}

theorem exists_of_not_neg (h : ¬ w < 0) : ∃ f, ofWord? w = some f := ⟨_, if_neg h⟩

theorem nonneg_of_ofWord? (h : ofWord? w = some f) : 0 ≤ w := by
  unfold ofWord? at h
  split at h
  · cases h
  · simpa using ‹¬ w < 0›

theorem code_of_ofWord? (h : ofWord? w = some f) : f.code = Word.code w := by
  unfold ofWord? at h
  split at h
  · cases h
  · cases h
    rfl

theorem digit_of_ofWord? (h : ofWord? w = some f) (k : Nat) : f.digit k = Word.digit w k := by
  unfold ofWord? at h
  split at h
  · cases h
  · cases h
    rw [digit, Word.digit, ← Nat.div_div_eq_div_mul]
    rfl

theorem opcode?_of_ofWord? (h : ofWord? w = some f) : f.opcode? = Opcode.ofCode? (Word.code w) := by
  rw [opcode?, code_of_ofWord? h]

theorem mode?_of_ofWord? (h : ofWord? w = some f) (k : Nat) :
    f.mode? k = Mode.ofCode? (Word.digit w k) := by
  rw [mode?, digit_of_ofWord? h]

end OpFields
end TapeMachine
