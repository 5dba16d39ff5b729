import Mathlib.Data.List.Forall2
import TapeMachine.Proofs.Program.Attribution
import TapeMachine.Proofs.Source.Line

/-! What a text that is read without an error comes to: a program of well-formed instructions, each of
which is the one that its line holds, and which only names can keep from being assembled. -/

namespace TapeMachine

namespace Instruction

/-- What the words of a line say that holds an instruction. -/
inductive Written : List (List Char) → Instruction → Prop
  | label {word name line} (mnemonic : Mnemonic.label.name.toList = word.map Char.toUpper)
      (valid : Text.isName name = true) :
      Written [word, name] ((ofLabel (String.ofList name)).onLine line)
  | data {word name line} (mnemonic : Mnemonic.data.name.toList = word.map Char.toUpper)
      (valid : Text.isName name = true) :
      Written [word, name] ((ofData (String.ofList name) 0).onLine line)
  | initialized {word name literal value line}
      (mnemonic : Mnemonic.data.name.toList = word.map Char.toUpper)
      (valid : Text.isName name = true) (initial : Word.ofDecimal? literal = some value) :
      Written [word, name, literal] ((ofData (String.ofList name) value).onLine line)
  | operation {word arguments m operands line} (label : m ≠ .label) (data : m ≠ .data)
      (mnemonic : m.name.toList = word.map Char.toUpper)
      (read : List.Forall₂ (fun argument o => Operand.read argument = .ok o) arguments operands) :
      Written (word :: arguments) { mnemonic := m, operands, line }

variable {i : Instruction} {words : List (List Char)} {chars : List Char}

theorem Written.normal (h : i.Written words) : ∀ o ∈ i.operands, o.normal = o := by
  cases h with
  | label => exact fun o ho => absurd ho List.not_mem_nil
  | data | initialized => exact List.forall_mem_singleton.2 rfl
  | operation _ _ _ hread =>
    dsimp only
    induction hread with
    | nil => simp
    | cons ho _ ih => exact List.forall_mem_cons.2 ⟨(Operand.form_of_read ho).plain.normal_eq, ih⟩

end Instruction

namespace Program

/-- Whether a program is what the lines say that are numbered from `start` on. -/
structure Transcribes (p : Program) (lines : List (List Char)) (start : Nat) : Prop where
  increasing : p.Pairwise fun i j => i.line < j.line
  placed : ∀ i ∈ p, ∃ k chars, lines[k]? = some chars ∧ i.line.toNat = start + k ∧
    i.Written (Instruction.tokens chars)
  complete : ∀ k chars, lines[k]? = some chars → Instruction.tokens chars ≠ [] →
    ∃ i ∈ p, i.line.toNat = start + k

variable {p : Program} {lines : List (List Char)} {chars : List Char} {start : Nat}

theorem Transcribes.blank (h : p.Transcribes lines (start + 1))
    (hblank : Instruction.tokens chars = []) :
    p.Transcribes (chars :: lines) start where
  increasing := h.increasing
  placed := by
    intro i hi
    obtain ⟨k, line, hline, hk, hwritten⟩ := h.placed i hi
    exact ⟨k + 1, line, hline, by omega, hwritten⟩
  complete := by
    intro k line hline htokens
    cases k with
    | zero =>
      cases hline
      exact absurd hblank htokens
    | succ k =>
      obtain ⟨i, hi, hk⟩ := h.complete k line hline htokens
      exact ⟨i, hi, by omega⟩

theorem Transcribes.cons {i : Instruction} (h : p.Transcribes lines (start + 1))
    (hline : i.line.toNat = start) (hwritten : i.Written (Instruction.tokens chars)) :
    Transcribes (i :: p) (chars :: lines) start where
  increasing := by
    refine List.pairwise_cons.2 ⟨fun j hj => ?_, h.increasing⟩
    obtain ⟨k, -, -, hk, -⟩ := h.placed j hj
    rw [UInt32.lt_iff_toNat_lt]
    omega
  placed := by
    refine List.forall_mem_cons.2 ⟨⟨0, chars, rfl, hline, hwritten⟩, fun j hj => ?_⟩
    obtain ⟨k, line, hget, hk, hwritten⟩ := h.placed j hj
    exact ⟨k + 1, line, hget, by omega, hwritten⟩
  complete := by
    intro k line hget htokens
    cases k with
    | zero => exact ⟨i, List.mem_cons_self, hline⟩
    | succ k =>
      obtain ⟨j, hj, hk⟩ := h.complete k line hget htokens
      exact ⟨j, List.mem_cons_of_mem _ hj, by omega⟩

end Program

end TapeMachine
