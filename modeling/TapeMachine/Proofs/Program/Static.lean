import TapeMachine.Proofs.Program.Placement

/-! Programs whose stores and jumps go where their text says: a store into a word that some operand
declares, a jump to a label. Wherever execution goes on, an operation comes next. -/

namespace TapeMachine

/-- The operand that is jumped to, in the order in which operands are written. -/
def Mnemonic.jumpSlot? : Mnemonic → Option Nat
  | op .jumpIfTrue | op .jumpIfFalse => some 1
  | jump => some 0
  | _ => none

namespace Program

/-- Whether the first instruction from `n` on that is no label is an operation. -/
def Continues (p : Program) (n : Nat) : Prop := ∃ i, p[p.nextIndex n]? = some i ∧ i.mnemonic ≠ .data

/-- Whether an operand refers to a label before an operation. -/
def Leads (p : Program) (o : Operand) : Prop :=
  o.kind = .labelRef ∧
    ∃ n i, p[n]? = some i ∧ i.mnemonic = .label ∧ i.label = o.name ∧ p.Continues (n + 1)

structure Static (p : Program) : Prop where
  stores : ∀ i ∈ p, ∀ k o, i.mnemonic.writeSlot? = some k → i.operands[k]? = some o →
    (o.kind = .position ∧ p.DeclaresWord o.name) ∨
      (i.mnemonic.isInPlace = true ∧ o.kind = .immediateAnchor)
  jumps : ∀ i ∈ p, ∀ k o, i.mnemonic.jumpSlot? = some k → i.operands[k]? = some o → p.Leads o
  entry : p.Continues 0
  continues : ∀ n i, p[n]? = some i → i.mnemonic.isPseudo = false → i.mnemonic ≠ .op .halt →
    i.mnemonic ≠ .jump → p.Continues (n + 1)

section Decidable

variable {p : Program}

theorem forall_getElem?_iff {P : Nat → Instruction → Prop} :
    (∀ (n : Nat) (i : Instruction), p[n]? = some i → P n i) ↔ ∀ x ∈ p.zipIdx, P x.2 x.1 := by
  constructor
  · rintro h ⟨i, n⟩ hx
    exact h n i (List.mem_zipIdx_iff_getElem?.1 hx)
  · intro h n i hi
    exact h (i, n) (List.mem_zipIdx_iff_getElem?.2 hi)

theorem exists_getElem?_iff {P : Nat → Instruction → Prop} :
    (∃ (n : Nat) (i : Instruction), p[n]? = some i ∧ P n i) ↔ ∃ x ∈ p.zipIdx, P x.2 x.1 := by
  constructor
  · rintro ⟨n, i, hi, h⟩
    exact ⟨(i, n), List.mem_zipIdx_iff_getElem?.2 hi, h⟩
  · rintro ⟨⟨i, n⟩, hx, h⟩
    exact ⟨n, i, List.mem_zipIdx_iff_getElem?.1 hx, h⟩

instance (name : String) : Decidable (p.DeclaresWord name) :=
  inferInstanceAs (Decidable (∃ i ∈ p, ∃ o ∈ i.operands, o.isAnchor = true ∧ o.name = name))

instance (n : Nat) : Decidable (p.Continues n) :=
  inferInstanceAs (Decidable (∃ i ∈ p[p.nextIndex n]?, i.mnemonic ≠ .data))

instance (o : Operand) : Decidable (p.Leads o) :=
  have h := exists_getElem?_iff (p := p) (P := fun n i =>
    i.mnemonic = .label ∧ i.label = o.name ∧ p.Continues (n + 1))
  decidable_of_iff (o.kind = .labelRef ∧ ∃ x ∈ p.zipIdx,
    x.1.mnemonic = .label ∧ x.1.label = o.name ∧ p.Continues (x.2 + 1)) (and_congr_right' h.symm)

instance : Decidable p.Static :=
  decidable_of_iff
    ((∀ i ∈ p, ∀ k ∈ i.mnemonic.writeSlot?, ∀ o ∈ i.operands[k]?,
        (o.kind = .position ∧ p.DeclaresWord o.name) ∨
          (i.mnemonic.isInPlace = true ∧ o.kind = .immediateAnchor)) ∧
      (∀ i ∈ p, ∀ k ∈ i.mnemonic.jumpSlot?, ∀ o ∈ i.operands[k]?, p.Leads o) ∧
      p.Continues 0 ∧
      ∀ x ∈ p.zipIdx, x.1.mnemonic.isPseudo = false → x.1.mnemonic ≠ .op .halt →
        x.1.mnemonic ≠ .jump → p.Continues (x.2 + 1))
    ⟨fun ⟨hstores, hjumps, hentry, hcontinues⟩ =>
      ⟨fun i hi k o hk ho => hstores i hi k hk o ho, fun i hi k o hk ho => hjumps i hi k hk o ho, hentry,
        forall_getElem?_iff.2 hcontinues⟩,
    fun h => ⟨fun i hi k hk o ho => h.stores i hi k o hk ho, fun i hi k hk o ho => h.jumps i hi k o hk ho,
      h.entry, forall_getElem?_iff.1 h.continues⟩⟩

end Decidable

/-- What is left of this in a program without shorthands, where a jump that is always taken is known
by its first operand. -/
structure Tame (q : Program) : Prop where
  stores : ∀ i ∈ q, ∀ opcode k o, i.mnemonic = .op opcode → opcode.writeSlot? = some k →
    i.operands[k]? = some o → o.kind = .position ∧ q.DeclaresWord o.name
  jumps : ∀ i ∈ q, ∀ opcode o, i.mnemonic = .op opcode → opcode.isJump = true →
    i.operands[1]? = some o → q.Leads o
  entry : q.Continues 0
  continues : ∀ n i opcode, q[n]? = some i → i.mnemonic = .op opcode → opcode ≠ .halt →
    q.Continues (n + 1) ∨ (opcode = .jumpIfTrue ∧ i.operands[0]? = some (.imm 1))

end Program

namespace Instruction

theorem mem_operands_expand {i : Instruction} {o : Operand} (h : o ∈ i.operands) :
    o ∈ i.expand.operands := by
  unfold expand
  split <;> simp_all <;> tauto

theorem WellFormed.exists_jumpSlot {i : Instruction} {opcode : Opcode} {o : Operand}
    (h : i.WellFormed) (hm : i.expand.mnemonic = .op opcode) (hjump : opcode.isJump = true)
    (ho : i.expand.operands[1]? = some o) :
    ∃ k, i.mnemonic.jumpSlot? = some k ∧ i.operands[k]? = some o := by
  obtain ⟨mnemonic, operands, label, line⟩ := i
  cases mnemonic with
  | label | data => cases hm
  | op opcode' =>
    cases hm
    cases opcode <;> cases hjump <;> exact ⟨1, rfl, ho⟩
  | jump =>
    obtain ⟨d, rfl⟩ := List.length_eq_one_iff.1 h.arity
    exact ⟨0, rfl, ho⟩
  | copy | addInPlace | mulInPlace =>
    obtain ⟨d, s, rfl⟩ := List.length_eq_two.1 h.arity
    cases hm
    cases hjump

end Instruction

namespace Program

variable {p : Program} {n : Nat} {o : Operand}

theorem getElem?_expanded {i : Instruction} (hi : p[n]? = some i) :
    p.expanded[n]? = some i.expand := by
  simp [expanded, hi]

theorem exists_of_getElem?_expanded {j : Instruction} (hj : p.expanded[n]? = some j) :
    ∃ i, p[n]? = some i ∧ i.expand = j := by
  simpa [expanded] using hj

theorem DeclaresWord.expanded {name : String} (h : p.DeclaresWord name) :
    p.expanded.DeclaresWord name := by
  obtain ⟨i, hi, o, ho, ha, hname⟩ := h
  exact ⟨i.expand, List.mem_map_of_mem hi, o, Instruction.mem_operands_expand ho, ha, hname⟩

theorem nextIndex_expanded (p : Program) (n : Nat) : p.expanded.nextIndex n = p.nextIndex n := by
  have hlabel : (fun i : Instruction => decide (i.mnemonic = .label)) ∘ Instruction.expand =
      fun i => decide (i.mnemonic = .label) := by
    funext i
    simp [Instruction.expand_eq_label_iff]
  rw [nextIndex, expanded, ← List.map_drop, List.takeWhile_map, List.length_map, hlabel, nextIndex]

theorem Continues.expanded (h : p.Continues n) : p.expanded.Continues n := by
  obtain ⟨i, hi, hd⟩ := h
  refine ⟨i.expand, ?_, fun h => hd ((Instruction.expand_eq_data_iff i).1 h)⟩
  rw [nextIndex_expanded]
  exact getElem?_expanded hi

theorem Leads.expanded (h : p.Leads o) : p.expanded.Leads o := by
  obtain ⟨hk, n, i, hi, hm, hname, hnext⟩ := h
  have hexpand : i.expand = i := Instruction.expand_of_not_derived (by simp [hm, Mnemonic.isDerived])
  exact ⟨hk, n, i, hexpand ▸ getElem?_expanded hi, hm, hname, hnext.expanded⟩

theorem Static.stores_expand (h : p.Static) {i : Instruction} (hi : i ∈ p) (hwf : i.WellFormed)
    {opcode : Opcode} {k : Nat} (hm : i.expand.mnemonic = .op opcode)
    (hslot : opcode.writeSlot? = some k) (ho : i.expand.operands[k]? = some o) :
    o.kind = .position ∧ p.expanded.DeclaresWord o.name := by
  have hstore := h.stores i hi
  have hself {o : Operand} (ho : o ∈ i.operands) (ha : o.isAnchor = true) :
      p.expanded.DeclaresWord o.name := DeclaresWord.expanded ⟨i, hi, o, ho, ha, rfl⟩
  obtain ⟨mnemonic, operands, label, line⟩ := i
  cases mnemonic with
  | label | data => cases hm
  | op _ =>
    cases hm
    rcases hstore k o hslot ho with ⟨hk, hd⟩ | ⟨hin, -⟩
    · exact ⟨hk, hd.expanded⟩
    · cases hin
  | jump =>
    obtain ⟨d, rfl⟩ := List.length_eq_one_iff.1 hwf.arity
    cases hm
    cases hslot
  | copy =>
    obtain ⟨d, s, rfl⟩ := List.length_eq_two.1 hwf.arity
    cases hm
    cases hslot
    cases ho
    rcases hstore 0 o rfl rfl with ⟨hk, hd⟩ | ⟨hin, -⟩
    · exact ⟨hk, hd.expanded⟩
    · cases hin
  | addInPlace | mulInPlace =>
    obtain ⟨d, v, rfl⟩ := List.length_eq_two.1 hwf.arity
    cases hm
    cases hslot
    cases ho
    rcases hstore 0 d rfl rfl with ⟨hk, hd⟩ | ⟨-, hk⟩
    · simpa [Operand.updateTarget, hk] using hd.expanded
    · have hd := hself (o := d) (by simp) (by simp [Operand.isAnchor, hk])
      simpa [Operand.updateTarget, Operand.pos, hk] using hd

theorem Static.jumps_expand (h : p.Static) {i : Instruction} (hi : i ∈ p) (hwf : i.WellFormed)
    {opcode : Opcode} (hm : i.expand.mnemonic = .op opcode) (hjump : opcode.isJump = true)
    (ho : i.expand.operands[1]? = some o) : p.expanded.Leads o := by
  obtain ⟨k, hk, ho⟩ := hwf.exists_jumpSlot hm hjump ho
  exact (h.jumps i hi k o hk ho).expanded

theorem Static.continues_expand (h : p.Static) {i : Instruction} (hi : p[n]? = some i)
    (hwf : i.WellFormed) {opcode : Opcode} (hm : i.expand.mnemonic = .op opcode)
    (hhalt : opcode ≠ .halt) :
    p.expanded.Continues (n + 1) ∨ (opcode = .jumpIfTrue ∧ i.expand.operands[0]? = some (.imm 1)) := by
  have hnext := h.continues n i hi
  obtain ⟨mnemonic, operands, label, line⟩ := i
  cases mnemonic with
  | label | data => cases hm
  | op _ =>
    cases hm
    exact .inl (hnext rfl (by simpa using hhalt) (by simp)).expanded
  | jump =>
    obtain ⟨d, rfl⟩ := List.length_eq_one_iff.1 hwf.arity
    cases hm
    exact .inr ⟨rfl, rfl⟩
  | copy | addInPlace | mulInPlace => exact .inl (hnext rfl (by simp) (by simp)).expanded

/-- Lowering keeps a static program one. -/
theorem Static.tame (h : p.Static) (hwf : ∀ i ∈ p, i.WellFormed) : p.expanded.Tame where
  stores := by
    intro j hj opcode k o hm hslot ho
    obtain ⟨i, hi, rfl⟩ := List.mem_map.1 hj
    exact h.stores_expand hi (hwf i hi) hm hslot ho
  jumps := by
    intro j hj opcode o hm hjump ho
    obtain ⟨i, hi, rfl⟩ := List.mem_map.1 hj
    exact h.jumps_expand hi (hwf i hi) hm hjump ho
  entry := h.entry.expanded
  continues := by
    intro n j opcode hj hm hhalt
    obtain ⟨i, hi, rfl⟩ := exists_of_getElem?_expanded hj
    exact h.continues_expand hi (hwf i (List.mem_of_getElem? hi)) hm hhalt

theorem Continues.exists_op_nextIndex {q : Program} (hel : ∀ i ∈ q, i.Elementary)
    (h : q.Continues n) : ∃ i opcode, q[q.nextIndex n]? = some i ∧ i.mnemonic = .op opcode := by
  obtain ⟨i, hi, hd⟩ := h
  have hpseudo : i.mnemonic.isPseudo = false := by
    have hl := not_label_nextIndex hi
    cases hm : i.mnemonic <;> simp_all [Mnemonic.isPseudo]
  obtain ⟨opcode, hm⟩ := (hel i (List.mem_of_getElem? hi)).exists_op hpseudo
  exact ⟨i, opcode, hi, hm⟩

theorem Continues.exists_op {q : Program} (hel : ∀ i ∈ q, i.Elementary) (h : q.Continues n) :
    ∃ n' i opcode, q[n']? = some i ∧ i.mnemonic = .op opcode ∧ q.start n' = q.start n := by
  obtain ⟨i, opcode, hi, hm⟩ := h.exists_op_nextIndex hel
  exact ⟨_, i, opcode, hi, hm, start_nextIndex hel n⟩

end Program
end TapeMachine
