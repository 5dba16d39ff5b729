import TapeMachine.Proofs.Image.Legibility
import TapeMachine.Proofs.Image.Walk
import TapeMachine.Proofs.Program.Spelling

/-! The disassembly of an assembled program. Where no data lies before an operation, it starts with the
operations of the program in their order, each with the operands that it was given, and whatever else it
shows is data. -/

namespace TapeMachine

/-- How an operand of this kind is shown, from its word in decimal. -/
def OperandKind.enclose (kind : OperandKind) (number : String) : String :=
  match kind with
  | .immediate | .immediateAnchor | .labelRef => number
  | .position | .positionAnchor => "[" ++ number ++ "]"
  | .relative => "rb[" ++ number ++ "]"

/-- What is shown of an operand: its value, or the address of its name. -/
inductive Operand.Shown (t : SymbolTable) (o : Operand) : String → Prop
  | enclosed {w : Word} (word : o.Spells t w) : Shown t o (o.kind.enclose w.decimal)

inductive Instruction.Shown (t : SymbolTable) (i : Instruction) : String → Prop
  | phrase {texts : List String} (operands : List.Forall₂ (Operand.Shown t) i.operands texts) :
      Shown t i (phrase i.mnemonic.name texts)

namespace ListingLine

/-- Whether a line shows an instruction at the place where the instruction with its index starts. -/
def ShowsAt (t : SymbolTable) (start : Nat → Nat) (x : Instruction × Nat) (line : ListingLine) : Prop :=
  ∃ text, x.1.Shown t text ∧ line.text = (start x.2).repr ++ ": " ++ text

/-- Whether all that a line covers are words of data. -/
def CoversData (q : Program) (start : Nat → Nat) (line : ListingLine) : Prop :=
  ∀ address, line.address ≤ address → address < line.address + line.item.width →
    ∃ n i, q[n]? = some i ∧ i.mnemonic = .data ∧ address = start n

end ListingLine

/-- The operations of a program, from this index on, with their indices. -/
def Program.operationsAt (q : Program) (n : Nat) : List (Instruction × Nat) :=
  (q.zipIdx n).filter fun x => !x.1.mnemonic.isPseudo

/-- What stands where in a disassembly: lines for the operations, then lines for data. -/
structure Assembly.Disassembles (a : Assembly) (code data : List ListingLine) : Prop where
  listing : a.image.listing = code ++ data
  lines : Text.lines a.image.disassembly.toList = (code ++ data).map fun line => line.text.toList
  code : List.Forall₂ (ListingLine.ShowsAt a.symbols a.start) (a.lowered.operationsAt 0) code
  data : ∀ line ∈ data, line.CoversData a.lowered a.start

/-- Whether nothing but data and labels comes after data. -/
def Program.DataLast (p : Program) : Prop :=
  p.Pairwise fun i j => i.mnemonic = .data → j.mnemonic.isPseudo = true

instance (p : Program) : Decidable p.DataLast := inferInstanceAs (Decidable (List.Pairwise _ _))

namespace Operand

def listed (o : Operand) (t : SymbolTable) : ListedOperand := ⟨o.mode, o.word t⟩

theorem format_listed (o : Operand) (t : SymbolTable) :
    (o.listed t).format = o.kind.enclose (o.word t).decimal := by
  cases hk : o.kind <;> simp [listed, ListedOperand.format, mode, OperandKind.enclose, hk]

end Operand

namespace Instruction

variable {i : Instruction} {opcode : Opcode} {t : SymbolTable}

theorem Elementary.shows_words (h : i.Elementary) (hm : i.mnemonic = .op opcode) (rest : List Word) :
    (ListedItem.instruction opcode (i.operands.map fun o => o.listed t)).Shows (i.words t ++ rest) := by
  have hfields := h.ofWord?_fields hm
  have hwords : i.words t ++ rest =
      (i.fields opcode).toWord :: (i.operands.map (fun o => o.word t) ++ rest) := by
    rw [words, head_eq_of_op hm]
    rfl
  rw [hwords]
  refine .instruction ⟨OpFields.nonneg_of_ofWord? hfields, ?_, ?_, ?_, ?_⟩
  · rw [← OpFields.opcode?_of_ofWord? hfields]
    exact Opcode.ofCode?_code opcode
  · rw [List.length_map, h.arity, hm, Mnemonic.arity]
  · intro k listed hlisted
    obtain ⟨o, ho, rfl⟩ := Option.map_eq_some_iff.1 (List.getElem?_map .. ▸ hlisted)
    rw [← OpFields.mode?_of_ofWord? hfields]
    exact h.mode?_fields hm ho
  · intro k listed hlisted
    obtain ⟨o, ho, rfl⟩ := Option.map_eq_some_iff.1 (List.getElem?_map .. ▸ hlisted)
    have hk : k < i.operands.length := (List.getElem?_eq_some_iff.1 ho).1
    rw [List.getElem?_append_left (by rwa [List.length_map]), List.getElem?_map, ho]
    rfl

theorem shown_format (hm : i.mnemonic = .op opcode)
    (hknown : ∀ o ∈ i.operands, o.isReference = true → (t.address? o.name).isSome = true) :
    i.Shown t (ListedItem.instruction opcode (i.operands.map fun o => o.listed t)).format := by
  have htexts : List.Forall₂ (Operand.Shown t) i.operands
      (i.operands.map fun o => (o.listed t).format) := by
    rw [List.forall₂_map_right_iff, List.forall₂_same]
    intro o ho
    rw [Operand.format_listed]
    exact .enclosed (Operand.spells_word (hknown o ho))
  have hshown := Shown.phrase htexts
  rw [hm, Mnemonic.name] at hshown
  rw [ListedItem.format_eq_phrase, ListedItem.keyword, ListedItem.arguments, List.map_map]
  exact hshown

theorem Elementary.data_of_size_pos (h : i.Elementary) (hpseudo : i.mnemonic.isPseudo = true)
    (hpos : 0 < i.size) : i.mnemonic = .data ∧ i.size = 1 := by
  cases hm : i.mnemonic with
  | label =>
    rw [size_of_label h hm] at hpos
    cases hpos
  | data =>
    obtain ⟨o, ho, -⟩ := h.operands_data hm
    simp [size, headSize_of_data hm, ho]
  | op | copy | jump | addInPlace | mulInPlace => simp [hm, Mnemonic.isPseudo] at hpseudo

end Instruction

namespace Program

variable {q : Program} {t : SymbolTable} {lines : List ListingLine} {n : Nat}

theorem coversData_of_walk (hel : ∀ i ∈ q, i.Elementary)
    (hpseudo : ∀ i ∈ q.drop n, i.mnemonic.isPseudo = true)
    (hwalk : Image.Walk (q.words t) (q.start n) lines) :
    ∀ line ∈ lines, line.CoversData q q.start := by
  intro line hline address hge hlt
  have hstart := hwalk.tiles.start_le hline
  have hstop := hwalk.tiles.add_width_le hline
  rw [length_words_eq_start] at hstop
  obtain ⟨m, k, i, hi, hk, haddress⟩ := exists_start_add (Nat.lt_of_lt_of_le hlt hstop)
  have hnm : n ≤ m := by
    by_contra hmn
    have := start_add_le hi (Nat.lt_of_not_le hmn)
    omega
  have hmem : i ∈ q.drop n := by
    refine List.mem_of_getElem? (i := m - n) ?_
    rwa [List.getElem?_drop, Nat.add_sub_cancel' hnm]
  obtain ⟨hdata, hsize⟩ :=
    (hel i (List.mem_of_mem_drop hmem)).data_of_size_pos (hpseudo i hmem) (by omega)
  exact ⟨m, i, hi, hdata, by omega⟩

theorem operationsAt_of_isPseudo {i : Instruction} (hi : i.mnemonic.isPseudo = true) :
    operationsAt (i :: q) n = operationsAt q (n + 1) := by
  rw [operationsAt, List.zipIdx_cons, List.filter_cons_of_neg (by simp [hi]), operationsAt]

theorem operationsAt_of_op {i : Instruction} (hi : i.mnemonic.isPseudo = false) :
    operationsAt (i :: q) n = (i, n) :: operationsAt q (n + 1) := by
  rw [operationsAt, List.zipIdx_cons, List.filter_cons_of_pos (by simp [hi]), operationsAt]

theorem operationsAt_eq_nil (h : ∀ i ∈ q, i.mnemonic.isPseudo = true) : operationsAt q n = [] := by
  induction q generalizing n with
  | nil => rfl
  | cons i q ih =>
    rw [List.forall_mem_cons] at h
    rw [operationsAt_of_isPseudo h.1, ih h.2]

/-- A walk through the words of a program, from those of an instruction on, comes to the operations that
are left and then to data. -/
theorem shows_of_walk (hel : ∀ i ∈ q, i.Elementary)
    (hknown : ∀ i ∈ q, ∀ o ∈ i.operands, o.isReference = true → (t.address? o.name).isSome = true)
    {rest : Program} (hrest : q.drop n = rest) (hlast : rest.DataLast)
    (hwalk : Image.Walk (q.words t) (q.start n) lines) :
    ∃ code data, lines = code ++ data ∧
      List.Forall₂ (ListingLine.ShowsAt t q.start) (rest.operationsAt n) code ∧
      ∀ line ∈ data, line.CoversData q q.start := by
  induction rest generalizing n lines with
  | nil =>
    have hpseudo : ∀ i ∈ q.drop n, i.mnemonic.isPseudo = true := by
      rw [hrest]
      exact List.forall_mem_nil _
    exact ⟨[], lines, rfl, .nil, coversData_of_walk hel hpseudo hwalk⟩
  | cons i rest ih =>
    have hi : q[n]? = some i := by rw [← List.head?_drop, hrest, List.head?_cons]
    have hmem : i ∈ q := List.mem_of_getElem? hi
    have hnext : q.drop (n + 1) = rest := by
      rw [← List.drop_drop, hrest, List.drop_succ_cons, List.drop_zero]
    obtain ⟨hlater, hlast⟩ := List.pairwise_cons.1 hlast
    cases hm : i.mnemonic with
    | op opcode =>
      have hshows := (hel i hmem).shows_words hm (t := t) (words t (q.drop (n + 1)))
      rw [← drop_words t hi] at hshows
      obtain ⟨others, rfl, hothers⟩ := hwalk.exists_line hshows
      have hwidth : (ListedItem.instruction opcode (i.operands.map fun o => o.listed t)).width =
          i.size := by
        rw [ListedItem.width, List.length_map, Instruction.size, Instruction.headSize_of_op hm]
      rw [hwidth, ← start_succ hi] at hothers
      obtain ⟨code, data, rfl, hcode, hdata⟩ := ih hnext hlast hothers
      refine ⟨_ :: code, data, rfl, ?_, hdata⟩
      rw [operationsAt_of_op (by simp [hm, Mnemonic.isPseudo])]
      exact .cons ⟨_, Instruction.shown_format hm (hknown i hmem), rfl⟩ hcode
    | label =>
      have hsame : q.start (n + 1) = q.start n := by
        rw [start_succ hi, Instruction.size_of_label (hel i hmem) hm, Nat.add_zero]
      rw [← hsame] at hwalk
      rw [operationsAt_of_isPseudo (by rw [hm, Mnemonic.isPseudo])]
      exact ih hnext hlast hwalk
    | data =>
      have hpseudo : ∀ j ∈ i :: rest, j.mnemonic.isPseudo = true := by
        rw [List.forall_mem_cons]
        exact ⟨by rw [hm, Mnemonic.isPseudo], fun j hj => hlater j hj hm⟩
      rw [operationsAt_eq_nil hpseudo]
      exact ⟨[], lines, rfl, .nil, coversData_of_walk hel (hrest ▸ hpseudo) hwalk⟩
    | copy | jump | addInPlace | mulInPlace =>
      have hprimitive := (hel i hmem).primitive
      simp [hm, Mnemonic.isDerived] at hprimitive

theorem DataLast.expanded {p : Program} (h : p.DataLast) : p.expanded.DataLast := by
  rw [DataLast, Program.expanded, List.pairwise_map]
  refine h.imp ?_
  intro i j hij
  rw [Instruction.expand_eq_data_iff, Instruction.isPseudo_expand]
  exact hij

end Program

/-- Disassembling an assembled program gives its operations back, if no data comes before one of them. -/
theorem disassembles_of_assemble {p : Program} {a : Assembly} (h : p.assemble = .ok a)
    (hlast : p.DataLast) : a.Records p ∧ ∃ code data, a.Disassembles code data := by
  obtain ⟨hwf, rfl⟩ := Program.assemble_eq_ok_iff.1 h
  have hel := Program.elementary_expanded hwf.instructions
  have hstart : p.assembly.start = p.expanded.start := funext (Assembly.start_assembly hwf)
  have hwalk : Image.Walk (p.expanded.words p.expanded.table) (p.expanded.start 0)
      p.assembly.image.listing := p.assembly.image.walk_listing
  obtain ⟨code, data, hlisting, hcode, hdata⟩ := Program.shows_of_walk hel
    (fun i hi o ho => hwf.known hi ho) List.drop_zero hlast.expanded hwalk
  rw [← hstart] at hcode hdata
  have hlines := hlisting ▸ p.assembly.image.lines_disassembly
  exact ⟨hwf.records, code, data, hlisting, hlines, hcode, hdata⟩

theorem disassembles_countdown :
    countdown.assemble = .ok countdown.assembly ∧ countdown.DataLast ∧
      countdown.assembly.image.disassembly =
        "0: OUT [3]\n2: ADD 3, -1, [3]\n6: ADD [3], 0, [14]\n10: JIT [14], 0\n13: HALT\n14: .word 7\n" ∧
      countdown.assembly.Records countdown ∧
      ∃ code data, countdown.assembly.Disassembles code data :=
  ⟨assemble_countdown, by decide, by rfl, disassembles_of_assemble assemble_countdown (by decide)⟩

end TapeMachine
