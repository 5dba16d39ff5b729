import TapeMachine.Machine.Tick
import TapeMachine.Proofs.Program.Encoding

/-! The opcode word of an elementary operation is read back by the machine: its opcode, the mode of
every operand, and no reason to refuse these modes. -/

namespace TapeMachine
namespace OpFields

theorem modesOf_lt {modes : List Nat} (h : ∀ m ∈ modes, m < 10) : modesOf modes < 10 ^ modes.length := by
  induction modes with
  | nil => simp [modesOf]
  | cons m ms ih =>
    have hm := h m (by simp)
    have ih := ih fun x hx => h x (by simp [hx])
    rw [modesOf, List.length_cons, Nat.pow_succ]
    omega

theorem modesOf_digit {modes : List Nat} (h : ∀ m ∈ modes, m < 10) {k m : Nat}
    (hk : modes[k]? = some m) : modesOf modes / 10 ^ k % 10 = m := by
  induction modes generalizing k with
  | nil => simp at hk
  | cons a ms ih =>
    have ha := h a (by simp)
    cases k with
    | zero =>
      obtain rfl : a = m := by simpa using hk
      rw [modesOf]
      omega
    | succ k =>
      have ih := ih (fun x hx => h x (by simp [hx])) (by simpa using hk)
      have hrest : (a + 10 * modesOf ms) / 10 = modesOf ms := by omega
      rw [modesOf, Nat.pow_succ', ← Nat.div_div_eq_div_mul, hrest, ih]

theorem ofWord?_toWord {f : OpFields} (hcode : f.code < 100) (hmodes : f.modes < 1000) :
    ofWord? f.toWord = some f := by
  have hbound : f.code + 100 * f.modes < 2 ^ 63 := by omega
  have hclamp : f.toWord.toNatClampNeg = f.code + 100 * f.modes :=
    Int64.toNatClampNeg_ofNat_of_lt hbound
  have hsign : ¬ f.toWord < 0 := by
    rw [Int64.lt_iff_toInt_lt, toWord, Int64.toInt_ofNat_of_lt hbound]
    simp
    omega
  have hcode' : (f.code + 100 * f.modes) % 100 = f.code := by omega
  have hmodes' : (f.code + 100 * f.modes) / 100 = f.modes := by omega
  rw [ofWord?, if_neg hsign, hclamp, hcode', hmodes']

end OpFields

theorem Opcode.code_lt (opcode : Opcode) : opcode.code < 100 := by
  cases opcode <;> decide

theorem Opcode.writeSlot_lt {opcode : Opcode} {k : Nat} (h : opcode.writeSlot? = some k) :
    k < opcode.operandCount := by
  cases opcode <;> simp_all [writeSlot?, operandCount] <;> omega

theorem Mode.code_lt (mode : Mode) : mode.code < 10 := by
  cases mode <;> decide

namespace Instruction

def fields (i : Instruction) (opcode : Opcode) : OpFields :=
  .ofModes opcode.code (i.operands.map (·.mode.code))

variable {i : Instruction} {opcode : Opcode}

theorem Elementary.modes_fields (h : i.Elementary) (hm : i.mnemonic = .op opcode) :
    (i.fields opcode).modes = OpFields.modesOf (i.operands.map (·.mode.code)) := by
  have hlen := h.length_le hm
  simp [fields, OpFields.ofModes, List.take_of_length_le, hlen]

theorem mode_codes_lt (operands : List Operand) : ∀ m ∈ operands.map (·.mode.code), m < 10 := by
  intro m hm
  obtain ⟨o, -, rfl⟩ := List.mem_map.1 hm
  exact o.mode.code_lt

theorem Elementary.ofWord?_fields (h : i.Elementary) (hm : i.mnemonic = .op opcode) :
    OpFields.ofWord? (i.fields opcode).toWord = some (i.fields opcode) := by
  have hmodes : (i.fields opcode).modes < 1000 := by
    have hlt := OpFields.modesOf_lt (mode_codes_lt i.operands)
    have hpow : 10 ^ (i.operands.map (·.mode.code)).length ≤ 10 ^ 3 :=
      Nat.pow_le_pow_right (by omega) (by rw [List.length_map]; exact h.length_le hm)
    rw [h.modes_fields hm]
    omega
  exact OpFields.ofWord?_toWord opcode.code_lt hmodes

theorem Elementary.decode_fields (h : i.Elementary) (hm : i.mnemonic = .op opcode) :
    Machine.decode (i.fields opcode).toWord = .ok (i.fields opcode, opcode) := by
  have hopcode : (i.fields opcode).opcode? = some opcode := Opcode.ofCode?_code opcode
  rw [Machine.decode, h.ofWord?_fields hm]
  simp only [hopcode]

theorem Elementary.mode?_fields (h : i.Elementary) (hm : i.mnemonic = .op opcode) {k : Nat} {o : Operand}
    (ho : i.operands[k]? = some o) : (i.fields opcode).mode? k = some o.mode := by
  have hdigit : (i.fields opcode).digit k = o.mode.code := by
    rw [OpFields.digit, h.modes_fields hm]
    exact OpFields.modesOf_digit (mode_codes_lt i.operands) (by simp [ho])
  rw [OpFields.mode?, hdigit, Mode.ofCode?_code]

theorem Elementary.mode_fields (h : i.Elementary) (hm : i.mnemonic = .op opcode) {k : Nat} {o : Operand}
    (ho : i.operands[k]? = some o) : (i.fields opcode).mode k = o.mode := by
  rw [OpFields.mode, h.mode?_fields hm ho, Option.getD_some]

theorem Elementary.checkModes_fields (h : i.Elementary) (hm : i.mnemonic = .op opcode) :
    Machine.checkModes (i.fields opcode) opcode = .ok () := by
  have hlen : i.operands.length = opcode.operandCount := by rw [h.arity, hm, Mnemonic.arity]
  have hbad : (i.fields opcode).badMode? opcode = none := by
    refine List.find?_eq_none.2 fun k hk => ?_
    have hk : k < i.operands.length := by simpa [hlen] using hk
    simp [h.mode?_fields hm (List.getElem?_eq_getElem hk)]
  have hstore : ¬ opcode.writeSlot?.any (fun k => (i.fields opcode).mode k = .immediate) = true := by
    cases hslot : opcode.writeSlot? with
    | none => simp
    | some k =>
      have hk := List.getElem?_eq_getElem (hlen ▸ Opcode.writeSlot_lt hslot)
      have hwrite := h.target k _ (by rw [hm, Mnemonic.writeSlot?, hslot]) hk
      simpa [h.mode_fields hm hk] using Operand.mode_of_isWritable hwrite
  rw [Machine.checkModes, hbad]
  simp only [if_neg hstore]

end Instruction
end TapeMachine
