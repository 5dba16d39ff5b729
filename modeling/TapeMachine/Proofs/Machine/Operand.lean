import TapeMachine.Proofs.Machine.Step
import TapeMachine.Proofs.OpcodeWord
import TapeMachine.Proofs.Word

/-! Operands on a machine. What an operand stands for is said by its kind and its name alone; where
the words of an instruction are on the tape as they were emitted, save for those of anchors, the
machine finds just that. -/

namespace TapeMachine
namespace Machine

def wordAt (m : Machine) (w : Word) : Word := (m.peek? w.toUInt64).getD 0

/-- Whether a word names an address of the tape. -/
def OnTape (m : Machine) (w : Word) : Prop := 0 ≤ w ∧ m.holds w.toUInt64 = true

variable {m : Machine} {w : Word}

theorem OnTape.address? (h : m.OnTape w) : Word.address? w = some w.toUInt64 :=
  Word.address?_eq_some_iff.2 ⟨h.1, rfl⟩

theorem OnTape.peek? (h : m.OnTape w) : m.peek? w.toUInt64 = some (m.wordAt w) := by
  have hsome : (m.peek? w.toUInt64).isSome = true := by rw [isSome_peek?, h.2]
  obtain ⟨v, hv⟩ := Option.isSome_iff_exists.1 hsome
  simp [wordAt, hv]

theorem OnTape.read (h : m.OnTape w) : m.read w.toUInt64 = .ok (m.wordAt w) := by
  rw [Machine.read, h.peek?]

end Machine

namespace Operand

variable (o : Operand) (t : SymbolTable) (m : Machine)

/-- The value that an operand is read as. -/
def valueIn : Word :=
  match o.kind with
  | .immediate => o.value
  | .labelRef => t.word o.name
  | .position | .immediateAnchor => m.wordAt (t.word o.name)
  | .relative => m.wordAt (m.base + t.word o.name)
  | .positionAnchor => m.wordAt (m.wordAt (t.word o.name))

/-- The address that is stored into through an operand. -/
def targetIn : Word :=
  match o.kind with
  | .relative => m.base + t.word o.name
  | .positionAnchor => m.wordAt (t.word o.name)
  | .immediate | .labelRef | .position | .immediateAnchor => t.word o.name

/-- Whether every address that an operand needs is on the tape. -/
def OnTape : Prop :=
  match o.kind with
  | .immediate | .labelRef => True
  | .position | .immediateAnchor => m.OnTape (t.word o.name)
  | .relative => m.OnTape (m.base + t.word o.name)
  | .positionAnchor => m.OnTape (t.word o.name) ∧ m.OnTape (m.wordAt (t.word o.name))

/-- What the word of an operand holds. -/
def heldIn : Word := if o.isAnchor then m.wordAt (t.word o.name) else o.word t

variable {o t m}

theorem onTape_targetIn (hw : o.isWritable = true) (h : o.OnTape t m) : m.OnTape (o.targetIn t m) := by
  cases hk : o.kind with
  | immediate | labelRef | immediateAnchor => simp [isWritable, hk] at hw
  | position | relative => simpa [OnTape, targetIn, hk] using h
  | positionAnchor =>
    simp only [OnTape, hk] at h
    simpa [targetIn, hk] using h.2

theorem onTape_anchor (ha : o.isAnchor = true) (h : o.OnTape t m) : m.OnTape (t.word o.name) := by
  cases hk : o.kind with
  | immediate | labelRef | position | relative => simp [isAnchor, hk] at ha
  | immediateAnchor => simpa [OnTape, hk] using h
  | positionAnchor =>
    simp only [OnTape, hk] at h
    exact h.1

theorem effective_heldIn (hw : o.isWritable = true) (h : o.OnTape t m) :
    m.effective o.mode (o.heldIn t m) = .ok (o.targetIn t m).toUInt64 := by
  have haddr := (onTape_targetIn hw h).address?
  cases hk : o.kind with
  | immediate | labelRef | immediateAnchor => simp [isWritable, hk] at hw
  | position | relative | positionAnchor =>
    simp only [targetIn, hk] at haddr
    simp only [Machine.effective, heldIn, targetIn, mode, isAnchor, word, isReference, hk, haddr,
      reduceCtorEq, Bool.false_eq_true, if_true, if_false]

theorem valueIn_of_isWritable (hw : o.isWritable = true) : o.valueIn t m = m.wordAt (o.targetIn t m) := by
  cases hk : o.kind <;> simp_all [isWritable, valueIn, targetIn]

theorem valueIn_of_not_isWritable (hw : o.isWritable = false) : o.valueIn t m = o.heldIn t m := by
  cases hk : o.kind <;> simp_all [isWritable, valueIn, heldIn, isAnchor, word, isReference]

theorem mode_of_not_isWritable (hw : o.isWritable = false) : o.mode = .immediate := by
  cases hk : o.kind <;> simp_all [isWritable, mode]

end Operand

namespace Instruction

/-- Whether a machine is about to execute the instruction: its words lie at the position, but an
anchor's word, which is the one its name gives the address of, may hold anything. -/
structure Stands (i : Instruction) (opcode : Opcode) (t : SymbolTable) (m : Machine) : Prop where
  loaded : m.loadError = none
  head : m.peek? m.position = some (i.fields opcode).toWord
  operands : ∀ k o, i.operands[k]? = some o → o.isAnchor = false →
    m.peek? (m.operandAddress k) = some (o.word t)
  anchors : ∀ k o, i.operands[k]? = some o → o.isAnchor = true →
    (t.word o.name).toUInt64 = m.operandAddress k

variable {i : Instruction} {opcode : Opcode} {t : SymbolTable} {m : Machine} {k : Nat} {o : Operand}

theorem Stands.plan_eq (h : i.Stands opcode t m) (he : i.Elementary) (hm : i.mnemonic = .op opcode) :
    m.plan = m.effect opcode (i.fields opcode).mode :=
  Machine.plan_of_decode h.loaded h.head (he.decode_fields hm) (he.checkModes_fields hm)

theorem Stands.read_eq (h : i.Stands opcode t m) (ho : i.operands[k]? = some o) (hon : o.OnTape t m) :
    m.read (m.operandAddress k) = .ok (o.heldIn t m) := by
  cases ha : o.isAnchor with
  | false => simp [Machine.read, h.operands k o ho ha, Operand.heldIn, ha]
  | true =>
    rw [← h.anchors k o ho ha, (Operand.onTape_anchor ha hon).read, Operand.heldIn, if_pos ha]

theorem Stands.load_eq (h : i.Stands opcode t m) (he : i.Elementary) (hm : i.mnemonic = .op opcode)
    (ho : i.operands[k]? = some o) (hon : o.OnTape t m) :
    m.load ((i.fields opcode).mode k) k = .ok (o.valueIn t m) := by
  rw [he.mode_fields hm ho, Machine.load, h.read_eq ho hon, ok_bind]
  cases hw : o.isWritable with
  | false => rw [if_pos (Operand.mode_of_not_isWritable hw), Operand.valueIn_of_not_isWritable hw]
  | true =>
    have htarget := Operand.onTape_targetIn hw hon
    rw [if_neg (Operand.mode_of_isWritable hw), Operand.effective_heldIn hw hon, ok_bind,
      htarget.read, Operand.valueIn_of_isWritable hw]

theorem Stands.target_eq (h : i.Stands opcode t m) (he : i.Elementary) (hm : i.mnemonic = .op opcode)
    (ho : i.operands[k]? = some o) (hw : o.isWritable = true) (hon : o.OnTape t m) :
    m.target ((i.fields opcode).mode k) k = .ok (o.targetIn t m).toUInt64 := by
  have htarget := Operand.onTape_targetIn hw hon
  rw [he.mode_fields hm ho, Machine.target, h.read_eq ho hon, ok_bind,
    Operand.effective_heldIn hw hon, ok_bind, if_pos htarget.2]

end Instruction
end TapeMachine
