import TapeMachine.Proofs.Machine.Operand
import TapeMachine.Proofs.Machine.Reachable
import TapeMachine.Proofs.Program.Static

/-! Assembled code on a tape. Its words are intact where they are as they were emitted, but for those
that operands declare; only a store through the name of such a word leaves all of them intact. -/

namespace TapeMachine
namespace Instruction

variable {i : Instruction} {opcode : Opcode} {m : Machine}

theorem Elementary.next_position (h : i.Elementary) (hm : i.mnemonic = .op opcode) :
    (m.next opcode).position = m.position + UInt64.ofNat i.layout.size := by
  have hsize : i.layout.size = 1 + opcode.operandCount := by
    rw [h.layout_size, size, headSize_of_op hm, h.arity, hm, Mnemonic.arity]
  rw [hsize, UInt64.ofNat_add, ← UInt64.add_assoc]
  rfl

end Instruction

namespace Assembly

/-- Whether the words of an instruction are on the tape where they were emitted: its opcode word, and
those of its operands that are no anchors. -/
structure Intact (a : Assembly) (n : Nat) (m : Machine) : Prop where
  opcode : m.peek? (UInt64.ofNat (a.start n)) = a.image[a.start n]?
  operands : ∀ i k o, a.lowered[n]? = some i → i.operands[k]? = some o → o.isAnchor = false →
    m.peek? (UInt64.ofNat (a.start n + 1 + k)) = a.image[a.start n + 1 + k]?

theorem Intact.of_tape {a : Assembly} {n : Nat} {m m' : Machine} (h : a.Intact n m)
    (ht : m'.tape = m.tape) : a.Intact n m' :=
  ⟨(Machine.peek?_of_tape ht _).trans h.opcode,
    fun i k o hi ho ha => (Machine.peek?_of_tape ht _).trans (h.operands i k o hi ho ha)⟩

end Assembly

namespace Program

variable {p : Program} {n : Nat} {i : Instruction} {opcode : Opcode} {m : Machine}

theorem getElem?_head {q : Program} (t : SymbolTable) (hi : q[n]? = some i)
    (hm : i.mnemonic = .op opcode) : (q.words t)[q.start n]? = some (i.fields opcode).toWord := by
  have h := getElem?_words t hi (Instruction.size_pos_of_op hm)
  rw [Nat.add_zero] at h
  rw [h, Instruction.words, Instruction.head_eq_of_op hm]
  rfl

/-- An instruction whose words are intact is about to be executed where the position is its start. -/
theorem WellFormed.stands (h : p.WellFormed) (hi : p.expanded[n]? = some i)
    (hm : i.mnemonic = .op opcode) (hloaded : m.loadError = none)
    (hpos : m.position = UInt64.ofNat (p.assembly.start n)) (hwords : p.assembly.Intact n m) :
    i.Stands opcode p.expanded.table m := by
  have hstart := Assembly.start_assembly h n
  have haddr (k : Nat) : m.operandAddress k = UInt64.ofNat (p.expanded.start n + 1 + k) := by
    rw [Machine.operandAddress, hpos, hstart, UInt64.ofNat_add, UInt64.ofNat_add]
    rfl
  have hhead := Instruction.headSize_of_op hm
  refine ⟨hloaded, ?_, fun k o ho ha => ?_, fun k o ho ha => ?_⟩
  · rw [hpos, hwords.opcode, hstart]
    exact getElem?_head _ hi hm
  · have hword := getElem?_operand p.expanded.table hi ho
    rw [hhead, ← Nat.add_assoc, ← hstart] at hword
    rw [haddr, ← hstart, hwords.operands i k o hi ho ha]
    exact hword
  · have hname := address?_of_anchor h.distinct hi (by simp [hm]) ho ha
    rw [hhead, ← Nat.add_assoc] at hname
    rw [haddr, SymbolTable.word, hname]
    exact Word.toUInt64_ofInt_natCast _

theorem start_lt_length {q : Program} (t : SymbolTable) (hi : q[n]? = some i)
    (hm : i.mnemonic = .op opcode) : q.start n < (q.words t).length := by
  have hfit := start_add_size_le hi t
  have hpos := Instruction.size_pos_of_op hm
  omega

theorem operand_lt_length {q : Program} (t : SymbolTable) {k : Nat} {o : Operand} (hi : q[n]? = some i)
    (ho : i.operands[k]? = some o) : q.start n + (i.headSize + k) < (q.words t).length := by
  have hfit := start_add_size_le hi t
  have hslot := Instruction.slot_lt_size ho
  omega

theorem WellFormed.intact_start (h : p.WellFormed) {t : Tape}
    (hfit : p.assembly.image.length ≤ t.capacity.toNat) (hi : p.expanded[n]? = some i)
    (hm : i.mnemonic = .op opcode) :
    p.assembly.Intact n (Machine.start p.assembly.image (some t)) := by
  obtain ⟨-, -, hread⟩ := Machine.start_of_fits hfit
  have hword {x : Nat} (hx : x < p.assembly.image.length) :
      (Machine.start p.assembly.image (some t)).peek? (UInt64.ofNat x) = p.assembly.image[x]? := by
    rw [hread x hx, List.getElem?_eq_getElem hx]
  refine ⟨hword ?_, fun j k o hj ho _ => hword ?_⟩
  · rw [Assembly.start_assembly h]
    exact start_lt_length _ hi hm
  · cases hi.symm.trans hj
    rw [Assembly.start_assembly h, Nat.add_assoc, ← Instruction.headSize_of_op hm]
    exact operand_lt_length _ hi ho

theorem WellFormed.intact_poke (h : p.WellFormed) (hsize : p.assembly.image.length < 2 ^ 64)
    {name : String} (hname : p.expanded.DeclaresWord name) (hi : p.expanded[n]? = some i)
    (hm : i.mnemonic = .op opcode) (hwords : p.assembly.Intact n m) (w : Word) :
    p.assembly.Intact n (m.poke (p.expanded.table.word name).toUInt64 w).1 := by
  obtain ⟨n', l, i', o', hi', ho', ha', rfl, haddr⟩ := h.exists_place hname
  have hstart := Assembly.start_assembly h n
  have htarget : (p.expanded.table.word o'.name).toUInt64 =
      UInt64.ofNat (p.expanded.start n' + (i'.headSize + l)) := by
    rw [SymbolTable.word, haddr]
    exact Word.toUInt64_ofInt_natCast _
  have hother {x : Nat} (hx : x < p.assembly.image.length)
      (hne : p.expanded.start n' + (i'.headSize + l) ≠ x) :
      (m.poke (p.expanded.table.word o'.name).toUInt64 w).1.peek? (UInt64.ofNat x) =
        m.peek? (UInt64.ofNat x) := by
    have hplace : p.expanded.start n' + (i'.headSize + l) < p.assembly.image.length :=
      operand_lt_length p.expanded.table hi' ho'
    rw [Machine.peek?_poke, htarget, if_neg]
    rintro ⟨heq, -⟩
    exact hne (Word.ofNat_inj (by omega) (by omega) heq)
  have hhead := Instruction.headSize_of_op hm
  constructor
  · have hlt : p.expanded.start n < p.assembly.image.length := start_lt_length p.expanded.table hi hm
    rw [← hwords.opcode, hstart]
    refine hother hlt fun heq => ?_
    obtain ⟨rfl, hl⟩ := start_add_inj hi' hi (Instruction.slot_lt_size ho')
      (Instruction.size_pos_of_op hm) (by omega)
    cases hi'.symm.trans hi
    omega
  · intro j k o hj ho ha
    cases hi.symm.trans hj
    have hlt : p.expanded.start n + (i.headSize + k) < p.assembly.image.length :=
      operand_lt_length p.expanded.table hi ho
    rw [← hwords.operands i k o hj ho ha, hstart, Nat.add_assoc, ← hhead]
    refine hother hlt fun heq => ?_
    obtain ⟨rfl, hl⟩ := start_add_inj hi' hi (Instruction.slot_lt_size ho')
      (Instruction.slot_lt_size ho) heq
    cases hi'.symm.trans hi
    cases Nat.add_left_cancel hl
    cases ho'.symm.trans ho
    simp [ha] at ha'

end Program
end TapeMachine
