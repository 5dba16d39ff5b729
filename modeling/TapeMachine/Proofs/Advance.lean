import TapeMachine.Proofs.Intact

/-! From operation to operation. Where stores and jumps go as the text says, a tick that does something
leaves the code as it was emitted, and the position at the start of the operation that the text has
next, or that it has after the label that was jumped to. -/

namespace TapeMachine

namespace Instruction

variable {i : Instruction} {opcode : Opcode} {t : SymbolTable} {m : Machine} {k : Nat} {o : Operand}

theorem Stands.eq_of_target (h : i.Stands opcode t m) (he : i.Elementary) (hm : i.mnemonic = .op opcode)
    (ho : i.operands[k]? = some o) (hk : o.kind = .position) {x : Address}
    (hx : m.target ((i.fields opcode).mode k) k = .ok x) : x = (t.word o.name).toUInt64 := by
  have hread : m.read (m.operandAddress k) = .ok (t.word o.name) := by
    have hword := h.operands k o ho (by simp [Operand.isAnchor, hk])
    rw [Machine.read, hword]
    simp [Operand.word, Operand.isReference, hk]
  have hmode : (i.fields opcode).mode k = .position := by
    rw [he.mode_fields hm ho, Operand.mode, hk]
  rw [hmode, Machine.target, hread, ok_bind, Machine.effective, if_neg (by decide)] at hx
  cases haddr : Word.address? (t.word o.name) with
  | none => simp [haddr] at hx
  | some y =>
    obtain ⟨-, rfl⟩ := Word.address?_eq_some_iff.1 haddr
    simp only [haddr, ok_bind] at hx
    split at hx
    · exact (Except.ok.inj hx).symm
    · cases hx

end Instruction

namespace Program

/-- Where the text has execution go on after the operation at an index. -/
inductive Follows (q : Program) (n : Nat) : Nat → Prop
  | next : Follows q n (q.nextIndex (n + 1))
  | jump {i opcode o l j} (instruction : q[n]? = some i) (operation : i.mnemonic = .op opcode)
      (jump : opcode.isJump = true) (target : i.operands[1]? = some o) (label : q[l]? = some j)
      (mark : j.mnemonic = .label) (name : j.label = o.name) : Follows q n (q.nextIndex (l + 1))

end Program

namespace Assembly

/-- Whether the position of a machine is the start of an operation. -/
structure Faces (a : Assembly) (m : Machine) (n : Nat) (i : Instruction) (opcode : Opcode) : Prop where
  instruction : a.lowered[n]? = some i
  operation : i.mnemonic = .op opcode
  position : m.position = UInt64.ofNat (a.start n)

/-- Whether a machine is about to execute the operation at an index, with the code as it was
emitted. -/
structure Poised (a : Assembly) (m : Machine) (n : Nat) : Prop where
  loaded : m.loadError = none
  faces : ∃ i opcode, a.Faces m n i opcode
  intact : ∀ n i opcode, a.lowered[n]? = some i → i.mnemonic = .op opcode → a.Intact n m

theorem Poised.pushAll {a : Assembly} {m : Machine} {n : Nat} (h : a.Poised m n) (ws : List Word) :
    a.Poised (m.pushAll ws) n where
  loaded := h.loaded
  faces := h.faces.imp fun _ ⟨opcode, hf⟩ => ⟨opcode, hf.instruction, hf.operation, hf.position⟩
  intact n i opcode hi hop := (h.intact n i opcode hi hop).of_tape rfl

end Assembly

namespace Program

variable {p : Program} {m : Machine} {n : Nat} {i : Instruction} {opcode : Opcode}

theorem elementary_of_faces (hwf : p.WellFormed) (hf : p.assembly.Faces m n i opcode) : i.Elementary :=
  elementary_expanded hwf.instructions i (List.mem_of_getElem? hf.instruction)

theorem stands_of_poised (hwf : p.WellFormed) (hm : p.assembly.Poised m n)
    (hf : p.assembly.Faces m n i opcode) : i.Stands opcode p.expanded.table m :=
  hwf.stands hf.instruction hf.operation hm.loaded hf.position
    (hm.intact n i opcode hf.instruction hf.operation)

theorem exists_faces (hwf : p.WellFormed) {l : Nat} (h : p.expanded.Continues l)
    (hpos : m.position = UInt64.ofNat (p.expanded.start l)) :
    ∃ i opcode, p.assembly.Faces m (p.expanded.nextIndex l) i opcode := by
  have hel := elementary_expanded hwf.instructions
  obtain ⟨i, opcode, hi, hop⟩ := h.exists_op_nextIndex hel
  exact ⟨i, opcode, hi, hop, by rw [hpos, Assembly.start_assembly hwf, start_nextIndex hel]⟩

theorem WellFormed.poised_start (hwf : p.WellFormed) (hentry : p.expanded.Continues 0) {t : Tape}
    (hfit : p.assembly.image.length ≤ t.capacity.toNat) :
    p.assembly.Poised (Machine.start p.assembly.image (some t)) (p.expanded.nextIndex 0) := by
  obtain ⟨hloaded, -, -⟩ := Machine.start_of_fits hfit
  exact ⟨hloaded, exists_faces hwf hentry rfl, fun n i opcode hi hop => hwf.intact_start hfit hi hop⟩

/-- Going on comes to the next operation, but for a jump that is always taken. -/
theorem Tame.faces_next (htame : p.expanded.Tame) (hwf : p.WellFormed) (hm : p.assembly.Poised m n)
    (hf : p.assembly.Faces m n i opcode) (hhalt : opcode ≠ .halt)
    (hpassed : ∀ condition, opcode.condition? = some condition →
      ∃ c, m.load ((i.fields opcode).mode 0) 0 = .ok c ∧ condition c = false) :
    p.expanded.Continues (n + 1) ∧
      (m.next opcode).position = UInt64.ofNat (p.expanded.start (n + 1)) := by
  have hel := elementary_of_faces hwf hf
  have hi : p.expanded[n]? = some i := hf.instruction
  refine ⟨?_, ?_⟩
  · rcases htame.continues n i opcode hi hf.operation hhalt with hnext | ⟨rfl, ho⟩
    · exact hnext
    · -- a jump that is always taken tests the immediate 1, which no store reaches
      obtain ⟨c, hc, hfalse⟩ := hpassed _ rfl
      have hon : (Operand.imm 1).OnTape p.expanded.table m := trivial
      rw [(stands_of_poised hwf hm hf).load_eq hel hf.operation ho hon] at hc
      cases hc
      simp [Operand.valueIn, Operand.imm] at hfalse
  · rw [hel.next_position hf.operation, hf.position, Assembly.start_assembly hwf, start_succ hi,
      hel.layout_size, UInt64.ofNat_add]

/-- A jump that is taken comes to the operation after its label. -/
theorem Tame.faces_jump (htame : p.expanded.Tame) (hwf : p.WellFormed) (hm : p.assembly.Poised m n)
    (hf : p.assembly.Faces m n i opcode) (hjump : opcode.isJump = true) {d : Word} {x : Address}
    (hd : m.load ((i.fields opcode).mode 1) 1 = .ok d) (hx : Word.address? d = some x) :
    ∃ l, p.expanded.Follows n (p.expanded.nextIndex (l + 1)) ∧ p.expanded.Continues (l + 1) ∧
      x = UInt64.ofNat (p.expanded.start (l + 1)) := by
  have hel := elementary_of_faces hwf hf
  have hi : p.expanded[n]? = some i := hf.instruction
  have hk : 1 < i.operands.length := by
    rw [hel.arity, hf.operation]
    cases opcode <;> cases hjump <;> decide
  have ho := List.getElem?_eq_getElem hk
  obtain ⟨hkind, l, j, hl, hlabel, hname, hnext⟩ :=
    htame.jumps i (List.mem_of_getElem? hi) opcode _ hf.operation hjump ho
  have hon : i.operands[1].OnTape p.expanded.table m := by simp [Operand.OnTape, hkind]
  rw [(stands_of_poised hwf hm hf).load_eq hel hf.operation ho hon] at hd
  have hword : d = Int64.ofInt (p.expanded.start l : Nat) := by
    rw [← Except.ok.inj hd, Operand.valueIn, hkind, ← hname, SymbolTable.word,
      address?_of_label hwf.distinct hl hlabel, Option.getD_some]
  obtain ⟨-, rfl⟩ := Word.address?_eq_some_iff.1 hx
  have hsize := Instruction.size_of_label
    (elementary_expanded hwf.instructions j (List.mem_of_getElem? hl)) hlabel
  refine ⟨l, .jump hi hf.operation hjump ho hl hlabel hname, hnext, ?_⟩
  rw [hword, start_succ hl, hsize, Nat.add_zero]
  exact Word.toUInt64_ofInt_natCast _

theorem Tame.intact_apply (htame : p.expanded.Tame) (hwf : p.WellFormed)
    (hsize : p.assembly.image.length < 2 ^ 64) (hm : p.assembly.Poised m n)
    (hf : p.assembly.Faces m n i opcode) {e : Effect}
    (he : m.Performs (i.fields opcode).mode opcode e) {n' : Nat} {j : Instruction} {opcode' : Opcode}
    (hj : p.expanded[n']? = some j) (hop : j.mnemonic = .op opcode') :
    p.assembly.Intact n' (m.apply e) := by
  have hwords := hm.intact n' j opcode' hj hop
  have htape := m.tape_apply e
  cases hstore : e.store with
  | none =>
    rw [hstore] at htape
    exact hwords.of_tape htape
  | some s =>
    obtain ⟨x, w⟩ := s
    have hel := elementary_of_faces hwf hf
    obtain ⟨k, hslot, htarget⟩ := he.store_eq hstore
    have hk : k < i.operands.length := by
      rw [hel.arity, hf.operation]
      exact Opcode.writeSlot_lt hslot
    have ho := List.getElem?_eq_getElem hk
    obtain ⟨hkind, hname⟩ :=
      htame.stores i (List.mem_of_getElem? hf.instruction) opcode k _ hf.operation hslot ho
    obtain rfl := (stands_of_poised hwf hm hf).eq_of_target hel hf.operation ho hkind htarget
    rw [hstore] at htape
    exact (hwf.intact_poke hsize hname hj hop hwords w).of_tape htape

/-- A tick that does something comes to an operation that follows. -/
theorem Tame.exists_follows (htame : p.expanded.Tame) (hwf : p.WellFormed)
    (hsize : p.assembly.image.length < 2 ^ 64) (hm : p.assembly.Poised m n) {e : Effect}
    (he : m.plan = .ok e) :
    ∃ n', p.expanded.Follows n n' ∧ p.assembly.Poised (m.apply e) n' := by
  obtain ⟨i, opcode, hf⟩ := hm.faces
  rw [(stands_of_poised hwf hm hf).plan_eq (elementary_of_faces hwf hf) hf.operation] at he
  have hperforms := Machine.effect_eq_ok_iff.1 he
  have hintact : ∀ n' j opcode', p.expanded[n']? = some j → j.mnemonic = .op opcode' →
      p.assembly.Intact n' (m.apply e) :=
    fun _ _ _ hj hop => htame.intact_apply hwf hsize hm hf hperforms hj hop
  rcases hperforms.position_eq with ⟨hnext, hpassed⟩ | ⟨condition, d, hcond, hd, hx⟩
  · obtain ⟨hcontinues, hpos⟩ := htame.faces_next hwf hm hf hperforms.ne_halt hpassed
    exact ⟨_, .next, hm.loaded, exists_faces hwf hcontinues (hnext.trans hpos), hintact⟩
  · obtain ⟨l, hfollows, hcontinues, hpos⟩ :=
      htame.faces_jump hwf hm hf (Opcode.isJump_of_condition hcond) hd hx
    exact ⟨_, hfollows, hm.loaded, exists_faces hwf hcontinues hpos, hintact⟩

end Program
end TapeMachine
