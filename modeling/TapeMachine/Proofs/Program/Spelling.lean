import Mathlib.Data.List.Forall2
import TapeMachine.Proofs.OpcodeWord
import TapeMachine.Proofs.Program.Placement

/-! An image spells out the program that it was assembled from. Its words are those of the
instructions in their order: none for a label, the initial value for data, and for an operation an
opcode word that reads back as its code and the modes of its operands, then one word an operand. -/

namespace TapeMachine

def OperandKind.digit : OperandKind → Nat
  | .position | .positionAnchor => 0
  | .immediate | .immediateAnchor | .labelRef => 1
  | .relative => 2

/-- The words that an operand may become: its value, or the address of its name. -/
inductive Operand.Spells (t : SymbolTable) (o : Operand) : Word → Prop
  | value (kind : o.kind = .immediate ∨ o.kind = .immediateAnchor ∨ o.kind = .positionAnchor) :
      Spells t o o.value
  | address {x} (kind : o.kind = .position ∨ o.kind = .relative ∨ o.kind = .labelRef)
      (known : t.address? o.name = some x) : Spells t o (Int64.ofInt x)

/-- The words that an instruction without shorthands may become. -/
inductive Instruction.Spells (t : SymbolTable) (i : Instruction) : List Word → Prop
  | label (mnemonic : i.mnemonic = .label) : Spells t i []
  | data {o} (mnemonic : i.mnemonic = .data) (operands : i.operands = [o]) : Spells t i [o.value]
  | op {opcode w f ws} (mnemonic : i.mnemonic = .op opcode) (decoded : OpFields.ofWord? w = some f)
      (code : f.code = opcode.code)
      (modes : ∀ k o, i.operands[k]? = some o → f.digit k = o.kind.digit)
      (rest : ∀ k, i.operands.length ≤ k → f.digit k = 0)
      (operands : List.Forall₂ (Operand.Spells t) i.operands ws) : Spells t i (w :: ws)

namespace OpFields

theorem modesOf_digit_of_le {modes : List Nat} (h : ∀ m ∈ modes, m < 10) {k : Nat}
    (hk : modes.length ≤ k) : modesOf modes / 10 ^ k % 10 = 0 := by
  have hlt : modesOf modes < 10 ^ k :=
    (modesOf_lt h).trans_le (Nat.pow_le_pow_right (by omega) hk)
  rw [Nat.div_eq_of_lt hlt, Nat.zero_mod]

end OpFields

namespace Operand

theorem code_mode (o : Operand) : o.mode.code = o.kind.digit := by
  cases hk : o.kind <;> simp [mode, hk, Mode.code, OperandKind.digit]

theorem spells_word {t : SymbolTable} {o : Operand}
    (h : o.isReference = true → (t.address? o.name).isSome = true) : o.Spells t (o.word t) := by
  cases hr : o.isReference with
  | true =>
    obtain ⟨x, hx⟩ := Option.isSome_iff_exists.1 (h hr)
    have hkind : o.kind = .position ∨ o.kind = .relative ∨ o.kind = .labelRef := by
      cases hk : o.kind <;> simp_all [isReference]
    simpa [word, SymbolTable.word, hr, hx] using Spells.address hkind hx
  | false =>
    have hkind : o.kind = .immediate ∨ o.kind = .immediateAnchor ∨ o.kind = .positionAnchor := by
      cases hk : o.kind <;> simp_all [isReference]
    simpa [word, hr] using Spells.value hkind

end Operand

namespace Instruction

variable {i : Instruction} {opcode : Opcode} {t : SymbolTable}

theorem Elementary.digit_fields (h : i.Elementary) (hm : i.mnemonic = .op opcode) {k : Nat}
    {o : Operand} (ho : i.operands[k]? = some o) : (i.fields opcode).digit k = o.kind.digit := by
  rw [OpFields.digit, h.modes_fields hm, ← o.code_mode]
  exact OpFields.modesOf_digit (mode_codes_lt i.operands) (by simp [ho])

theorem Elementary.digit_fields_of_le (h : i.Elementary) (hm : i.mnemonic = .op opcode) {k : Nat}
    (hk : i.operands.length ≤ k) : (i.fields opcode).digit k = 0 := by
  rw [OpFields.digit, h.modes_fields hm]
  exact OpFields.modesOf_digit_of_le (mode_codes_lt i.operands) (by simpa using hk)

theorem Elementary.spells_words (h : i.Elementary)
    (hknown : ∀ o ∈ i.operands, o.isReference = true → (t.address? o.name).isSome = true) :
    i.Spells t (i.words t) := by
  cases hm : i.mnemonic with
  | op opcode =>
    have hoperands : List.Forall₂ (Operand.Spells t) i.operands (i.operands.map (·.word t)) := by
      rw [List.forall₂_map_right_iff, List.forall₂_same]
      exact fun o ho => Operand.spells_word (hknown o ho)
    rw [words, head_eq_of_op hm]
    exact .op hm (h.ofWord?_fields hm) rfl (fun k o => h.digit_fields hm)
      (fun k => h.digit_fields_of_le hm) hoperands
  | label =>
    rw [words, head, hm, h.operands_label hm]
    exact .label hm
  | data =>
    obtain ⟨o, ho, hk⟩ := h.operands_data hm
    have hword : o.word t = o.value := Operand.word_of_isAnchor (by simp [Operand.isAnchor, hk]) t
    have hwords : i.words t = [o.value] := by simp [words, head, hm, ho, hword]
    rw [hwords]
    exact .data hm ho
  | copy | jump | addInPlace | mulInPlace => simpa [hm, Mnemonic.isDerived] using h.primitive

end Instruction

namespace Assembly

/-- The words of the image from the start of an instruction to that of the next. -/
def wordsAt (a : Assembly) (n : Nat) : List Word :=
  (a.image.drop (a.start n)).take (a.start (n + 1) - a.start n)

structure Spelled (a : Assembly) : Prop where
  length : a.image.length = a.start a.lowered.length
  instructions : ∀ (n : Nat) (i : Instruction), a.lowered[n]? = some i →
    i.Spells a.symbols (a.wordsAt n)

end Assembly

namespace Program

variable {p : Program}

theorem drop_words {q : Program} (t : SymbolTable) {n : Nat} {i : Instruction}
    (hi : q[n]? = some i) :
    (q.words t).drop (q.start n) = i.words t ++ words t (q.drop (n + 1)) := by
  have hpre : (words t (q.take n)).length = q.start n := length_words t _
  rw [words_split t hi, ← hpre, List.drop_left]

theorem drop_take_words {q : Program} (t : SymbolTable) {n : Nat} {i : Instruction}
    (hi : q[n]? = some i) :
    ((q.words t).drop (q.start n)).take (q.start (n + 1) - q.start n) = i.words t := by
  have hsize : q.start (n + 1) - q.start n = (i.words t).length := by
    rw [start_succ hi, Nat.add_sub_cancel_left, Instruction.length_words]
  rw [drop_words t hi, hsize, List.take_left]

theorem WellFormed.wordsAt_eq (h : p.WellFormed) {n : Nat} {i : Instruction}
    (hi : p.expanded[n]? = some i) : p.assembly.wordsAt n = i.words p.expanded.table := by
  rw [Assembly.wordsAt, Assembly.start_assembly h, Assembly.start_assembly h]
  exact drop_take_words _ hi

/-- A name may be referred to wherever it is declared, before or after. -/
theorem WellFormed.known (h : p.WellFormed) {i : Instruction} {o : Operand} (hi : i ∈ p.expanded)
    (ho : o ∈ i.operands) (hr : o.isReference = true) :
    (p.expanded.table.address? o.name).isSome = true :=
  (isSome_address?_table _ _).2 (h.closed _ (mem_referred hi ho hr))

end Program

/-- The image of an assembled program is the program, word for word. -/
theorem spelled_of_assemble {p : Program} {a : Assembly} (h : p.assemble = .ok a) :
    a.Records p ∧ a.Spelled := by
  obtain ⟨hwf, rfl⟩ := Program.assemble_eq_ok_iff.1 h
  refine ⟨hwf.records, ?_⟩
  constructor
  case length =>
    rw [Assembly.start_assembly hwf]
    exact Program.length_words_eq_start _ _
  case instructions =>
    intro n i hi
    have hmem : i ∈ p.expanded := List.mem_of_getElem? hi
    have hel := Program.elementary_expanded hwf.instructions i hmem
    rw [hwf.wordsAt_eq hi]
    exact hel.spells_words fun o ho => hwf.known hmem ho

/-- The jump of the countdown refers to a name before and to a name behind it. -/
theorem spelled_countdown :
    countdown.assemble = .ok countdown.assembly ∧
      countdown.assembly.image = [4, 3, 1101, 3, -1, 3, 1001, 3, 0, 14, 1005, 14, 0, 99, 7] ∧
      countdown.assembly.wordsAt 4 = [1005, 14, 0] ∧ countdown.assembly.Records countdown ∧
      countdown.assembly.Spelled :=
  ⟨assemble_countdown, by rfl, by rfl, spelled_of_assemble assemble_countdown⟩

end TapeMachine
