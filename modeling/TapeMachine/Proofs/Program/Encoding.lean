import TapeMachine.Proofs.Program.Names

/-! The words of an elementary instruction: an opcode word where it is an operation, then one word
for each operand. Resolution gives these words where every name that is referred to is known, and
otherwise refuses the first that is not. -/

namespace TapeMachine

/-- The word that stands for the address of a name, 0 for a name that is not there. -/
def SymbolTable.word (t : SymbolTable) (name : String) : Word :=
  Int64.ofInt ((t.address? name).getD 0)

namespace Operand

def word (o : Operand) (t : SymbolTable) : Word := if o.isReference then t.word o.name else o.value

def cell (o : Operand) (t : SymbolTable) : Cell := ⟨o.mode.code, o.word t⟩

/-- The operand, if it is a reference to a name that is not in the table. -/
def isUnknown (o : Operand) (t : SymbolTable) : Bool := o.isReference && !t.contains o.name

theorem resolve_eq (o : Operand) (t : SymbolTable) (line : UInt32) :
    o.resolve t line =
      if o.isUnknown t then .error { cause := .undefined o.name, line } else .ok (o.cell t) := by
  cases hr : o.isReference with
  | false => simp [resolve, isUnknown, cell, word, hr]
  | true =>
    cases hf : t.find? o.name <;>
      simp [resolve, isUnknown, cell, word, SymbolTable.word, SymbolTable.contains,
        SymbolTable.address?, hr, hf]

theorem word_of_isAnchor {o : Operand} (h : o.isAnchor = true) (t : SymbolTable) :
    o.word t = o.value := by
  cases hk : o.kind <;> simp_all [isAnchor, isReference, word]

theorem mode_of_isWritable {o : Operand} (h : o.isWritable = true) : o.mode ≠ .immediate := by
  cases hk : o.kind <;> simp_all [isWritable, mode]

end Operand

namespace Instruction

/-- The opcode word of an operation. -/
def head (i : Instruction) : List Word :=
  match i.mnemonic with
  | .op opcode => [(OpFields.ofModes opcode.code (i.operands.map (·.mode.code))).toWord]
  | _ => []

def words (t : SymbolTable) (i : Instruction) : List Word := i.head ++ i.operands.map (·.word t)

/-- What an elementary instruction resolves to once every name is known. -/
def resolved (t : SymbolTable) (i : Instruction) : Resolved :=
  match i.mnemonic, i.operands with
  | .op opcode, operands => .op opcode.code (operands.map (·.cell t))
  | .data, [o] => .data o.value
  | _, _ => .marker

theorem length_words (t : SymbolTable) (i : Instruction) : (i.words t).length = i.size := by
  cases hm : i.mnemonic <;> simp [words, head, size, headSize, hm, Nat.add_comm]

theorem Elementary.immediateTarget? {i : Instruction} {opcode : Opcode} (h : i.Elementary)
    (hm : i.mnemonic = .op opcode) : i.immediateTarget? opcode = none := by
  have htarget := h.target
  rw [hm, Mnemonic.writeSlot?] at htarget
  cases hk : opcode.writeSlot? with
  | none => simp [Instruction.immediateTarget?, hk]
  | some k =>
    cases ho : i.operands[k]? with
    | none => simp [Instruction.immediateTarget?, hk, ho]
    | some o =>
      have hmode := Operand.mode_of_isWritable (htarget k o hk ho)
      simp [Instruction.immediateTarget?, hk, ho, hmode, guard]

theorem mapM_resolve (t : SymbolTable) (line : UInt32) (operands : List Operand) :
    (operands.mapM fun o => o.resolve t line) =
      match operands.find? fun o => o.isUnknown t with
      | some o => .error { cause := .undefined o.name, line }
      | none => .ok (operands.map (·.cell t)) := by
  induction operands with
  | nil => rfl
  | cons o operands ih =>
    rw [List.mapM_cons, Operand.resolve_eq, ih]
    cases ho : o.isUnknown t with
    | true => simp [ho]
    | false => cases hf : operands.find? (fun o => o.isUnknown t) <;> simp [ho, hf]

theorem find?_referred (t : SymbolTable) (i : Instruction) :
    i.referred.find? (fun r => !t.contains r.name) =
      (i.operands.find? fun o => o.isUnknown t).map fun o => ⟨o.name, i.line⟩ := by
  simp [referred, List.find?_map, List.find?_filter, Operand.isUnknown]

theorem Elementary.resolve_eq {i : Instruction} (h : i.Elementary) (t : SymbolTable) :
    i.resolve t =
      match i.referred.find? fun r => !t.contains r.name with
      | some r => .error { cause := .undefined r.name, line := r.line }
      | none => .ok (i.resolved t) := by
  rw [find?_referred]
  cases hm : i.mnemonic with
  | op opcode =>
    have hlen : ¬ i.operands.length ≠ opcode.operandCount := by simp [h.arity, hm, Mnemonic.arity]
    simp only [resolve, hm, resolveOp, if_neg hlen, mapM_resolve, h.immediateTarget? hm, resolved]
    cases i.operands.find? fun o => o.isUnknown t <;> rfl
  | label => simp [resolve, resolved, hm, h.operands_label hm]
  | data =>
    obtain ⟨o, ho, hk⟩ := h.operands_data hm
    simp [resolve, resolved, hm, ho, hk, Operand.isUnknown, Operand.isReference]
  | copy | jump | addInPlace | mulInPlace => simpa [hm, Mnemonic.isDerived] using h.primitive

theorem Elementary.emit_resolved {i : Instruction} (h : i.Elementary) (t : SymbolTable) :
    (i.resolved t).emit = .ok (i.words t) := by
  cases hm : i.mnemonic with
  | op opcode =>
    have hlen : ¬ i.operands.length > maxOperands := by simpa using h.length_le hm
    simp [resolved, hm, Resolved.emit, Resolved.words, words, head, hlen, Operand.cell, Function.comp_def]
  | label => simp [resolved, hm, Resolved.emit, Resolved.words, words, head, h.operands_label hm]
  | data =>
    obtain ⟨o, ho, hk⟩ := h.operands_data hm
    simp [resolved, hm, ho, hk, Resolved.emit, Resolved.words, words, head, Operand.word,
      Operand.isReference]
  | copy | jump | addInPlace | mulInPlace => simpa [hm, Mnemonic.isDerived] using h.primitive

end Instruction

namespace Program

def words (t : SymbolTable) (q : Program) : List Word := q.flatMap (Instruction.words t)

/-- A table matters to a program for the addresses of the names that it refers to. -/
theorem words_congr {t t' : SymbolTable} {q : Program}
    (h : ∀ r ∈ q.referred, t.address? r.name = t'.address? r.name) : q.words t = q.words t' := by
  rw [words, words]
  apply List.flatMap_congr
  intro i hi
  have hoperands : i.operands.map (·.word t) = i.operands.map (·.word t') := by
    apply List.map_congr_left
    intro o ho
    rw [Operand.word, Operand.word]
    split
    · rename_i hr
      rw [SymbolTable.word, h _ (mem_referred hi ho hr), SymbolTable.word]
    · rfl
  rw [Instruction.words, Instruction.words, hoperands]

/-- A program of elementary instructions resolves, or its first unknown name is refused. -/
theorem resolve_eq {q : Program} (h : ∀ i ∈ q, i.Elementary) (t : SymbolTable) :
    q.resolve t =
      match q.referred.find? fun r => !t.contains r.name with
      | some r => .error { cause := .undefined r.name, line := r.line }
      | none => .ok (q.map (Instruction.resolved t)) := by
  induction q with
  | nil => rfl
  | cons i q ih =>
    have hi := (h i (by simp)).resolve_eq t
    have ih := ih fun j hj => h j (by simp [hj])
    rw [resolve] at ih ⊢
    have hrefs : referred (i :: q) = i.referred ++ referred q := List.flatMap_cons
    rw [List.mapM_cons, ih, hi, hrefs, List.find?_append]
    cases i.referred.find? (fun r => !t.contains r.name) with
    | some r => rfl
    | none => cases (referred q).find? (fun r => !t.contains r.name) <;> rfl

theorem emit_map_resolved {q : Program} (h : ∀ i ∈ q, i.Elementary) (t : SymbolTable) :
    Image.emit (q.map (Instruction.resolved t)) = .ok (q.words t) := by
  have hmap : q.mapM (Resolved.emit ∘ Instruction.resolved t) = .ok (q.map (Instruction.words t)) :=
    mapM_eq_ok fun i hi => (h i hi).emit_resolved t
  rw [Image.emit, List.mapM_map, hmap]
  rfl

theorem length_words (t : SymbolTable) (q : Program) :
    (q.words t).length = (q.map Instruction.size).sum := by
  rw [words, List.length_flatMap]
  simp only [Instruction.length_words]

end Program
end TapeMachine
