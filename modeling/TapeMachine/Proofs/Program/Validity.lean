import Mathlib.Data.List.Basic
import Mathlib.Data.Option.Basic
import TapeMachine.Program.Lowering
import TapeMachine.Proofs.Passes

/-! What a well-formed instruction is, said without the order of the checks, and what its lowering
looks like: an elementary instruction, which later passes have no reason to refuse. -/

namespace TapeMachine

/-- Where an instruction that updates the operand in place stores, if it can: into the word that an
anchor declares, or through the operand as it is. -/
def Operand.updateTarget (operand : Operand) : Operand :=
  if operand.kind = .immediateAnchor then .pos operand.name else operand

namespace Instruction

structure WellFormed (i : Instruction) : Prop where
  arity : i.operands.length = i.mnemonic.arity
  label : i.mnemonic = .label → Text.isIdentifier i.label = true
  data : i.mnemonic = .data → ∀ o ∈ i.operands, o.kind = .immediateAnchor
  names : ∀ o ∈ i.operands, o.kind ≠ .immediate → Text.isIdentifier o.name = true
  target : ∀ k o, i.mnemonic.writeSlot? = some k → i.operands[k]? = some o →
    canWrite i.mnemonic o = true

theorem misnamed?_eq_none_iff (operands : List Operand) :
    misnamed? operands = none ↔
      ∀ o ∈ operands, o.kind ≠ .immediate → Text.isIdentifier o.name = true := by
  simp only [misnamed?, List.find?_eq_none]
  constructor
  · intro h o ho hk
    obtain ⟨k, hk', rfl⟩ := List.getElem_of_mem ho
    have := h (operands[k], k) (List.mem_zipIdx_iff_getElem?.2 (by simp [hk']))
    simpa [hk] using this
  · rintro h ⟨o, k⟩ hok
    have ho : o ∈ operands := List.fst_mem_of_mem_zipIdx hok
    simpa using h o ho

theorem unwritable?_eq_none_iff (i : Instruction) :
    i.unwritable? = none ↔
      ∀ k o, i.mnemonic.writeSlot? = some k → i.operands[k]? = some o →
        canWrite i.mnemonic o = true := by
  cases hk : i.mnemonic.writeSlot? with
  | none => simp [unwritable?, hk]
  | some k =>
    cases ho : i.operands[k]? with
    | none => simpa [unwritable?, hk, ho] using fun l o hl hlo => by simp [← hl, ho] at hlo
    | some o =>
      have heq : (∀ l o', some k = some l → i.operands[l]? = some o' → canWrite i.mnemonic o' = true) ↔
          canWrite i.mnemonic o = true := by
        constructor
        · intro h
          exact h k o rfl ho
        · rintro h l o' hl hlo
          cases hl
          cases ho.symm.trans hlo
          exact h
      rw [heq]
      cases hc : canWrite i.mnemonic o <;> simp [unwritable?, hk, ho, hc, guard]

theorem checkOperands_eq_ok_iff (i : Instruction) :
    i.checkOperands = .ok () ↔
      (∀ o ∈ i.operands, o.kind ≠ .immediate → Text.isIdentifier o.name = true) ∧
      ∀ k o, i.mnemonic.writeSlot? = some k → i.operands[k]? = some o →
        canWrite i.mnemonic o = true := by
  rw [← misnamed?_eq_none_iff, ← unwritable?_eq_none_iff, checkOperands]
  cases misnamed? i.operands <;> cases i.unwritable? <;> simp [fail]

theorem WellFormed.of_checkOperands {i : Instruction} (harity : i.operands.length = i.mnemonic.arity)
    (hlabel : i.mnemonic ≠ .label)
    (hdata : i.mnemonic = .data → ∀ o ∈ i.operands, o.kind = .immediateAnchor)
    (h : i.checkOperands = .ok ()) : i.WellFormed := by
  obtain ⟨hnames, htarget⟩ := (checkOperands_eq_ok_iff i).1 h
  exact ⟨harity, fun hl => absurd hl hlabel, hdata, hnames, htarget⟩

theorem WellFormed.checkOperands {i : Instruction} (h : i.WellFormed) : i.checkOperands = .ok () :=
  (checkOperands_eq_ok_iff i).2 ⟨h.names, h.target⟩

/-- The checks, whatever their order, accept exactly the well-formed instructions. -/
theorem check_eq_ok_iff (i : Instruction) : i.check = .ok () ↔ i.WellFormed := by
  constructor
  · intro h
    unfold check at h
    split at h
    · cases h
    · rename_i harity
      have harity : i.operands.length = i.mnemonic.arity := by simpa using harity
      split at h
      · rename_i hm
        have hnil : i.operands = [] := by simpa [hm, Mnemonic.arity] using harity
        split at h
        · rename_i hid
          exact ⟨harity, fun _ => hid, by simp [hm], by simp [hnil], by simp [hnil]⟩
        · cases h
      · rename_i hm
        split at h
        · cases h
        · rename_i hany
          exact .of_checkOperands harity (by simp [hm]) (fun _ => by simpa using hany) h
      · rename_i hl hd
        exact .of_checkOperands harity hl (fun hm => absurd hm hd) h
  · intro h
    have hops := h.checkOperands
    rw [check, if_neg (by simp [h.arity])]
    split
    · rename_i hm
      rw [if_pos (h.label hm)]
    · rename_i hm
      rw [if_neg (by simpa using h.data hm), hops]
    · exact hops

theorem check_eq_error {i : Instruction} {e : Error} (h : i.check = .error e) :
    e.kind = .malformedOperand ∧ e.line = i.line := by
  unfold check checkOperands fail at h
  repeat' split at h
  all_goals first | (cases h; exact ⟨rfl, rfl⟩) | cases h

/-- An instruction that is no shorthand and whose operands fit. -/
structure Elementary (i : Instruction) : Prop where
  primitive : i.mnemonic.isDerived = false
  arity : i.operands.length = i.mnemonic.arity
  data : i.mnemonic = .data → ∀ o ∈ i.operands, o.kind = .immediateAnchor
  target : ∀ k o, i.mnemonic.writeSlot? = some k → i.operands[k]? = some o → o.isWritable = true

theorem Elementary.exists_op {i : Instruction} (h : i.Elementary) (hp : i.mnemonic.isPseudo = false) :
    ∃ opcode, i.mnemonic = .op opcode := by
  have hprim := h.primitive
  cases hm : i.mnemonic <;> simp_all [Mnemonic.isPseudo, Mnemonic.isDerived]

/-- The operation that a well-formed shorthand stands for. -/
def expand (i : Instruction) : Instruction :=
  match i.mnemonic, i.operands with
  | .copy, [target, source] =>
    { mnemonic := .op .add, operands := [source, .imm 0, target], line := i.line }
  | .jump, [target] => { mnemonic := .op .jumpIfTrue, operands := [.imm 1, target], line := i.line }
  | .addInPlace, [target, amount] =>
    { mnemonic := .op .add, operands := [target, amount, target.updateTarget], line := i.line }
  | .mulInPlace, [target, amount] =>
    { mnemonic := .op .mul, operands := [target, amount, target.updateTarget], line := i.line }
  | _, _ => i

theorem expand_of_not_derived {i : Instruction} (h : i.mnemonic.isDerived = false) :
    i.expand = i := by
  unfold expand
  split <;> simp_all [Mnemonic.isDerived]

theorem line_expand (i : Instruction) : i.expand.line = i.line := by
  unfold expand
  split <;> rfl

theorem expand_eq_label_iff (i : Instruction) : i.expand.mnemonic = .label ↔ i.mnemonic = .label := by
  unfold expand
  split <;> simp_all

theorem expand_eq_data_iff (i : Instruction) : i.expand.mnemonic = .data ↔ i.mnemonic = .data := by
  unfold expand
  split <;> simp_all

theorem isPseudo_expand (i : Instruction) : i.expand.mnemonic.isPseudo = i.mnemonic.isPseudo := by
  unfold expand
  split <;> simp_all [Mnemonic.isPseudo]

theorem mem_operands_expand_cases {i : Instruction} {o : Operand} (h : o ∈ i.expand.operands) :
    o ∈ i.operands ∨ o.kind = .immediate ∨
      ∃ t ∈ i.operands, t.kind = .immediateAnchor ∧ o = .pos t.name := by
  have htarget (t : Operand) :
      t.updateTarget = t ∨ (t.kind = .immediateAnchor ∧ t.updateTarget = .pos t.name) := by
    rw [Operand.updateTarget]
    split
    · exact .inr ⟨‹_›, rfl⟩
    · exact .inl rfl
  unfold expand at h
  split at h
  case h_5 => exact .inl h
  all_goals
    rename_i hops
    rw [hops]
    simp only [List.mem_cons, List.not_mem_nil, or_false] at h ⊢
  case h_1 =>
    rcases h with rfl | rfl | rfl
    · exact .inl (.inr rfl)
    · exact .inr (.inl rfl)
    · exact .inl (.inl rfl)
  case h_2 =>
    rcases h with rfl | rfl
    · exact .inr (.inl rfl)
    · exact .inl rfl
  case h_3 t v _ | h_4 t v _ =>
    rcases h with rfl | rfl | rfl
    · exact .inl (.inl rfl)
    · exact .inl (.inr rfl)
    · rcases htarget t with heq | ⟨hk, heq⟩
      · exact .inl (.inl heq)
      · exact .inr (.inr ⟨t, .inl rfl, hk, heq⟩)

theorem isWritable_updateTarget {o : Operand} (h : o.isUpdatable = true) :
    o.updateTarget.isWritable = true := by
  cases hk : o.kind <;>
    simp_all [Operand.isUpdatable, Operand.updateTarget, Operand.isWritable, Operand.pos]

/-- An operation that stores into its third operand is elementary once that operand fits. -/
theorem elementary_of_three {opcode : Opcode} {a b c : Operand} {line : UInt32}
    (hop : opcode.operandCount = 3) (hslot : opcode.writeSlot? = some 2) (hc : c.isWritable = true) :
    Elementary { mnemonic := .op opcode, operands := [a, b, c], line } where
  primitive := rfl
  arity := by simp [Mnemonic.arity, hop]
  data := by simp
  target := by
    intro k o hk ho
    rw [Mnemonic.writeSlot?, hslot] at hk
    cases hk
    simpa using (by simpa using ho : c = o) ▸ hc

theorem WellFormed.elementary_expand {i : Instruction} (h : i.WellFormed) :
    i.expand.Elementary := by
  obtain ⟨m, operands, label, line⟩ := i
  cases m with
  | copy =>
    obtain ⟨t, s, rfl⟩ := List.length_eq_two.1 h.arity
    exact elementary_of_three rfl rfl (h.target 0 t rfl rfl)
  | addInPlace | mulInPlace =>
    obtain ⟨t, v, rfl⟩ := List.length_eq_two.1 h.arity
    exact elementary_of_three rfl rfl (isWritable_updateTarget (h.target 0 t rfl rfl))
  | jump =>
    obtain ⟨t, rfl⟩ := List.length_eq_one_iff.1 h.arity
    exact ⟨rfl, rfl, by simp [expand], by simp [expand, Mnemonic.writeSlot?, Opcode.writeSlot?]⟩
  | op opcode =>
    refine ⟨rfl, h.arity, by simp [expand], fun k o hk ho => ?_⟩
    simpa [canWrite, Mnemonic.isInPlace] using h.target k o hk ho
  | label | data =>
    exact ⟨rfl, h.arity, h.data, fun k o hk => by simp [expand, Mnemonic.writeSlot?] at hk⟩

/-- Whether an instruction can be lowered. -/
def Lowerable (i : Instruction) : Prop := i.mnemonic.isDerived = true → i.WellFormed

theorem WellFormed.lowerable {i : Instruction} (h : i.WellFormed) : i.Lowerable := fun _ => h

theorem writeForm_of_isUpdatable (i : Instruction) {o : Operand} (h : o.isUpdatable = true) :
    i.writeForm o = .ok o.updateTarget := by
  cases hk : o.kind <;> simp_all [Operand.isUpdatable, Operand.updateTarget, writeForm]

/-- Of a well-formed shorthand neither the form nor the operand stored into is refused. -/
theorem WellFormed.lowerDerived_eq {i : Instruction} (h : i.WellFormed)
    (hd : i.mnemonic.isDerived = true) : i.lowerDerived = .ok i.expand := by
  obtain ⟨m, operands, label, line⟩ := i
  cases m with
  | copy =>
    obtain ⟨t, s, rfl⟩ := List.length_eq_two.1 h.arity
    rfl
  | jump =>
    obtain ⟨t, rfl⟩ := List.length_eq_one_iff.1 h.arity
    rfl
  | addInPlace | mulInPlace =>
    obtain ⟨t, v, rfl⟩ := List.length_eq_two.1 h.arity
    simp [lowerDerived, lowerInPlace, writeForm_of_isUpdatable _ (h.target 0 t rfl rfl), expand]
  | op opcode | label | data => cases hd

/-- What is lowered passes the checks if it is a shorthand; beyond them nothing is refused. -/
theorem lower_eq {i : Instruction} :
    i.lower = if i.mnemonic.isDerived then (fun _ => i.expand) <$> i.check else .ok i.expand := by
  rw [lower]
  rcases hd : i.mnemonic.isDerived with _ | _
  · simp [expand_of_not_derived hd]
  · rcases hcheck : i.check with e | ⟨⟩
    · rfl
    · simpa using ((check_eq_ok_iff i).1 hcheck).lowerDerived_eq hd

theorem lower_eq_ok_iff {i j : Instruction} : i.lower = .ok j ↔ i.Lowerable ∧ j = i.expand := by
  rw [lower_eq, Lowerable, ← check_eq_ok_iff]
  rcases hd : i.mnemonic.isDerived with _ | _
  · simp [eq_comm]
  · rcases hcheck : i.check with e | ⟨⟩ <;> simp [eq_comm]

theorem lower_eq_error_iff {i : Instruction} {e : Error} :
    i.lower = .error e ↔ i.mnemonic.isDerived = true ∧ i.check = .error e := by
  rw [lower_eq]
  rcases hd : i.mnemonic.isDerived with _ | _
  · simp
  · rcases hcheck : i.check with e | ⟨⟩ <;> simp

end Instruction

namespace Program

theorem check_eq_ok_iff (p : Program) : p.check = .ok () ↔ ∀ i ∈ p, i.WellFormed := by
  simp only [check, forM_eq_ok_iff, Instruction.check_eq_ok_iff]

/-- Lowering goes through on a program of well-formed instructions. -/
theorem lower_eq_ok {p : Program} (h : ∀ i ∈ p, i.WellFormed) :
    p.lower = .ok (p.map Instruction.expand) :=
  mapM_eq_ok fun i hi => Instruction.lower_eq_ok_iff.2 ⟨(h i hi).lowerable, rfl⟩

end Program
end TapeMachine
