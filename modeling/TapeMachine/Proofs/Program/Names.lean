import Mathlib.Algebra.Group.Int.Defs
import Mathlib.Algebra.GroupWithZero.Nat
import TapeMachine.Proofs.Program.Validity
import TapeMachine.Proofs.SymbolTable

/-! The names of a program: which it declares, in the order of instructions and operands, and which
it refers to. For elementary instructions the layouts declare just these names, each at the address
of the word that carries it. -/

namespace TapeMachine

/-- A name with the line of the instruction that holds it. -/
structure Mention where
  name : String
  line : UInt32
  deriving DecidableEq

def Symbol.mention (s : Symbol) : Mention := ⟨s.name, s.line⟩

namespace Instruction

def declared (i : Instruction) : List Mention :=
  match i.mnemonic with
  | .label => [⟨i.label, i.line⟩]
  | _ => (i.operands.filter Operand.isAnchor).map fun o => ⟨o.name, i.line⟩

def referred (i : Instruction) : List Mention :=
  (i.operands.filter Operand.isReference).map fun o => ⟨o.name, i.line⟩

/-- How many words come before the words of the operands. -/
def headSize (i : Instruction) : Nat :=
  match i.mnemonic with
  | .op _ => 1
  | _ => 0

/-- How many words an elementary instruction takes. -/
def size (i : Instruction) : Nat := i.headSize + i.operands.length

/-- What an elementary instruction that starts at `start` declares. -/
def symbols (i : Instruction) (start : Nat) : List Symbol :=
  match i.mnemonic with
  | .label => [⟨i.label, start, i.line⟩]
  | _ => i.operands.zipIdx.filterMap fun (o, k) =>
    o.anchorName?.map fun name => ⟨name, ((start + i.headSize + k : Nat) : Int), i.line⟩

theorem Elementary.operands_data {i : Instruction} (h : i.Elementary) (hm : i.mnemonic = .data) :
    ∃ o, i.operands = [o] ∧ o.kind = .immediateAnchor := by
  have hlen := h.arity
  rw [hm, Mnemonic.arity, List.length_eq_one_iff] at hlen
  obtain ⟨o, ho⟩ := hlen
  exact ⟨o, ho, h.data hm o (by simp [ho])⟩

theorem Elementary.operands_label {i : Instruction} (h : i.Elementary) (hm : i.mnemonic = .label) :
    i.operands = [] := by
  simpa [hm, Mnemonic.arity] using h.arity

theorem Elementary.length_le {i : Instruction} {opcode : Opcode} (h : i.Elementary)
    (hm : i.mnemonic = .op opcode) : i.operands.length ≤ maxOperands := by
  rw [h.arity, hm]
  exact opcode.operandCount_le

theorem Elementary.layout_eq {i : Instruction} (h : i.Elementary) : i.layout = i.primitiveLayout := by
  rw [layout, lower, h.primitive]
  rfl

theorem Elementary.layout_size {i : Instruction} (h : i.Elementary) : i.layout.size = i.size := by
  rw [h.layout_eq]
  cases hm : i.mnemonic with
  | op opcode => simp [primitiveLayout, size, headSize, hm]
  | label => simp [primitiveLayout, size, headSize, hm, h.operands_label hm]
  | data =>
    obtain ⟨o, ho, -⟩ := h.operands_data hm
    simp [primitiveLayout, size, headSize, hm, ho]
  | copy | jump | addInPlace | mulInPlace => simpa [hm, Mnemonic.isDerived] using h.primitive

theorem toList_anchors (i : Instruction) :
    i.primitiveLayout.anchors.toList =
      match i.mnemonic with
      | .label => [some i.label, none, none]
      | .data => [i.operands.head?.map (·.name), none, none]
      | _ => [0, 1, 2].map fun slot => i.operands[slot]?.bind Operand.anchorName? := by
  cases hm : i.mnemonic <;> simp only [primitiveLayout, hm] <;> rfl

theorem Elementary.layout_declarations {i : Instruction} (h : i.Elementary) (start : Nat) :
    i.layout.declarations start i.line = i.symbols start := by
  rw [h.layout_eq, Layout.declarations, toList_anchors]
  cases hm : i.mnemonic with
  | op opcode =>
    -- there are three slots whatever the number of operands
    have hlen := h.length_le hm
    match hops : i.operands with
    | [] | [_] | [_, _] | [_, _, _] =>
      simp [primitiveLayout, symbols, headSize, hm, hops, List.filterMap_cons]
    | _ :: _ :: _ :: _ :: _ =>
      simp only [hops, List.length_cons, maxOperands] at hlen
      omega
  | label => simp [primitiveLayout, symbols, hm]
  | data =>
    obtain ⟨o, ho, hk⟩ := h.operands_data hm
    simp [primitiveLayout, symbols, headSize, hm, ho, hk, Operand.anchorName?, Operand.isAnchor]
  | copy | jump | addInPlace | mulInPlace => simpa [hm, Mnemonic.isDerived] using h.primitive

theorem map_mention_zipIdx (operands : List Operand) (base n : Nat) (line : UInt32) :
    ((operands.zipIdx n).filterMap fun (o, k) =>
        o.anchorName?.map fun name => (⟨name, ((base + k : Nat) : Int), line⟩ : Symbol)).map
          Symbol.mention =
      (operands.filter Operand.isAnchor).map fun o => ⟨o.name, line⟩ := by
  induction operands generalizing n with
  | nil => rfl
  | cons o operands ih =>
    have ih := ih (n + 1)
    cases ho : o.isAnchor <;> simp_all [Operand.anchorName?, Symbol.mention]

theorem map_mention_symbols (i : Instruction) (start : Nat) :
    (i.symbols start).map Symbol.mention = i.declared := by
  unfold symbols declared
  split
  · rfl
  · exact map_mention_zipIdx i.operands (start + i.headSize) 0 i.line

theorem mem_declared_iff {i : Instruction} (hl : i.mnemonic ≠ .label) {m : Mention} :
    m ∈ i.declared ↔ ∃ o ∈ i.operands, o.isAnchor = true ∧ ⟨o.name, i.line⟩ = m := by
  unfold declared
  split
  · exact absurd ‹_› hl
  · simp [and_assoc]

end Instruction

namespace Program

def declared (q : Program) : List Mention := q.flatMap Instruction.declared

def referred (q : Program) : List Mention := q.flatMap Instruction.referred

def declaredNames (q : Program) : List String := q.declared.map (·.name)

theorem mem_referred {q : Program} {i : Instruction} {o : Operand} (hi : i ∈ q) (ho : o ∈ i.operands)
    (hr : o.isReference = true) : ⟨o.name, i.line⟩ ∈ q.referred :=
  List.mem_flatMap.2 ⟨i, hi, List.mem_map.2 ⟨o, List.mem_filter.2 ⟨ho, hr⟩, rfl⟩⟩

theorem mem_declaredNames {q : Program} {i : Instruction} {o : Operand} (hi : i ∈ q)
    (hl : i.mnemonic ≠ .label) (ho : o ∈ i.operands) (ha : o.isAnchor = true) :
    o.name ∈ q.declaredNames := by
  have hmem : ⟨o.name, i.line⟩ ∈ i.declared :=
    (Instruction.mem_declared_iff hl).2 ⟨o, ho, ha, rfl⟩
  exact List.mem_map.2 ⟨_, List.mem_flatMap.2 ⟨i, hi, hmem⟩, rfl⟩

def symbolsFrom (start : Nat) : Program → List Symbol
  | [] => []
  | i :: rest => i.symbols start ++ symbolsFrom (start + i.size) rest

theorem map_mention_symbolsFrom (q : Program) (start : Nat) :
    (q.symbolsFrom start).map Symbol.mention = q.declared := by
  induction q generalizing start with
  | nil => rfl
  | cons i q ih => simp [symbolsFrom, declared, Instruction.map_mention_symbols, ih]

theorem names_symbolsFrom (q : Program) (start : Nat) :
    (SymbolTable.mk (q.symbolsFrom start)).names = q.declaredNames := by
  rw [declaredNames, ← map_mention_symbolsFrom q start, List.map_map]
  rfl

theorem declarations_zip_layouts {q : Program} (h : ∀ i ∈ q, i.Elementary) (start : Nat) :
    declarations start (q.zip q.layouts) = q.symbolsFrom start := by
  induction q generalizing start with
  | nil => rfl
  | cons i q ih =>
    have hi : i.Elementary := h i (by simp)
    have ih := ih (fun j hj => h j (by simp [hj])) (start + i.size)
    rw [layouts, List.map_cons, List.zip_cons_cons, declarations, hi.layout_declarations,
      hi.layout_size, ← layouts, ← Int.natCast_add, ih, symbolsFrom]

theorem total_layouts {q : Program} (h : ∀ i ∈ q, i.Elementary) :
    Layout.total q.layouts = (q.map Instruction.size).sum := by
  rw [Layout.total, layouts, List.foldr_map, List.sum_eq_foldr, List.foldr_map]
  exact List.foldr_ext _ _ 0 fun i hi n => by rw [(h i hi).layout_size]

end Program
end TapeMachine
