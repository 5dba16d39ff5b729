import Mathlib.Data.List.Forall2
import TapeMachine.Proofs.Program.Acceptance

/-! Lowering seen from the other passes. Only shorthands are looked at when they are lowered, so a
program may be lowered without being well formed; whatever else is done with the program comes to the
same before and after, down to the error it is refused with. -/

namespace TapeMachine

theorem Mnemonic.isInPlace_eq_false {m : Mnemonic} (h : m.isDerived = false) : m.isInPlace = false := by
  cases m <;> first | rfl | cases h

namespace Instruction

variable {i : Instruction}

theorem Lowerable.isDerived_expand (h : i.Lowerable) : i.expand.mnemonic.isDerived = false := by
  rcases hd : i.mnemonic.isDerived with _ | _
  · rw [expand_of_not_derived hd, hd]
  · exact (h hd).elementary_expand.primitive

theorem WellFormed.wellFormed_expand (h : i.WellFormed) : i.expand.WellFormed := by
  have hel := h.elementary_expand
  refine ⟨hel.arity, fun hl => ?_, hel.data, fun o ho hk => ?_, fun k o hk ho => ?_⟩
  · have hm := (expand_eq_label_iff i).1 hl
    rw [expand_of_not_derived (by rw [hm]; rfl)]
    exact h.label hm
  · rcases mem_operands_expand_cases ho with ho | himm | ⟨t, ht, htk, rfl⟩
    · exact h.names o ho hk
    · exact absurd himm hk
    · exact h.names t ht (by simp [htk])
  · rw [canWrite, Mnemonic.isInPlace_eq_false hel.primitive]
    exact hel.target k o hk ho

theorem Lowerable.check_expand (h : i.Lowerable) : i.expand.check = i.check := by
  -- what is no shorthand stays as it is, faults included; a shorthand has none before and after
  rcases hd : i.mnemonic.isDerived with _ | _
  · rw [expand_of_not_derived hd]
  · rw [(check_eq_ok_iff _).2 (h hd).wellFormed_expand, (check_eq_ok_iff _).2 (h hd)]

theorem Lowerable.lower_expand (h : i.Lowerable) : i.expand.lower = .ok i.expand := by
  have hderived := h.isDerived_expand
  refine lower_eq_ok_iff.2 ⟨fun hd => ?_, (expand_of_not_derived hderived).symm⟩
  rw [hderived] at hd
  cases hd

theorem Lowerable.layout_expand (h : i.Lowerable) : i.expand.layout = i.layout := by
  rw [layout, layout, h.lower_expand, lower_eq_ok_iff.2 ⟨h, rfl⟩]

end Instruction

namespace Program

variable {p q : Program}

theorem lower_eq_ok_iff : p.lower = .ok q ↔ (∀ i ∈ p, i.Lowerable) ∧ q = p.expanded := by
  have hlower (h : ∀ i ∈ p, i.Lowerable) : p.lower = .ok p.expanded :=
    mapM_eq_ok fun i hi => Instruction.lower_eq_ok_iff.2 ⟨h i hi, rfl⟩
  constructor
  · intro h
    have hall : ∀ i ∈ p, i.Lowerable := by
      intro i hi
      obtain ⟨j, hj⟩ := forall_of_mapM_eq_ok h i hi
      exact (Instruction.lower_eq_ok_iff.1 hj).1
    rw [hlower hall] at h
    exact ⟨hall, (Except.ok.inj h).symm⟩
  · rintro ⟨h, rfl⟩
    exact hlower h

theorem lower_expanded (h : ∀ i ∈ p, i.Lowerable) : p.expanded.lower = .ok p.expanded := by
  have heach := mapM_eq_ok (l := p.expanded) (f := Instruction.lower) (g := id) ?_
  · rwa [List.map_id] at heach
  · exact List.forall_mem_map.2 fun i hi => (h i hi).lower_expand

theorem check_expanded (h : ∀ i ∈ p, i.Lowerable) : p.expanded.check = p.check := by
  calc p.expanded.check = p.forM fun i => i.expand.check := by
        simp only [check, expanded, List.forM_eq_forM, List.forM_map]
    _ = p.check := forM_congr fun i hi => (h i hi).check_expand

theorem layouts_expanded (h : ∀ i ∈ p, i.Lowerable) : p.expanded.layouts = p.layouts := by
  rw [layouts, layouts, expanded, List.map_map]
  exact List.map_congr_left fun i hi => (h i hi).layout_expand

theorem declarations_expanded (p : Program) (layouts : List Layout) (start : Int) :
    declarations start (p.expanded.zip layouts) = declarations start (p.zip layouts) := by
  induction p generalizing layouts start with
  | nil => rfl
  | cons i p ih =>
    rcases layouts with _ | ⟨l, layouts⟩
    · rfl
    · have hrest := ih layouts (start + l.size)
      rw [expanded] at hrest
      rw [expanded, List.map_cons, List.zip_cons_cons, List.zip_cons_cons, declarations, declarations,
        i.line_expand, hrest]

theorem symbolTable_expanded (p : Program) (layouts : List Layout) :
    p.expanded.symbolTable layouts = p.symbolTable layouts := by
  have hlength : p.expanded.length = p.length := List.length_map _
  rw [symbolTable, symbolTable, hlength, declarations_expanded]

theorem assemble_expanded (h : ∀ i ∈ p, i.Lowerable) : p.expanded.assemble = p.assemble := by
  rw [assemble, assemble, check_expanded h, lower_expanded h, lower_eq_ok_iff.2 ⟨h, rfl⟩]

/-- What lowering does to a program, and what it leaves as it was. -/
structure Lowered (p q : Program) : Prop where
  instructions : List.Forall₂
    (fun i j => i.lower = .ok j ∧ j.line = i.line ∧ j.mnemonic.isDerived = false) p q
  lower : q.lower = .ok q
  check : q.check = p.check
  layouts : q.layouts = p.layouts
  symbolTable : q.symbolTable q.layouts = p.symbolTable p.layouts
  assemble : q.assemble = p.assemble

/-- Where lowering goes through, and it does on a program that passes its checks, nothing else can
tell the program from the lowered one. -/
theorem lowered_of_lower :
    (∀ p q : Program, p.lower = .ok q → p.Lowered q) ∧
      ∀ p : Program, p.check = .ok () → ∃ q, p.lower = .ok q := by
  refine ⟨fun p q h => ?_, fun p h => ?_⟩
  · obtain ⟨hall, rfl⟩ := lower_eq_ok_iff.1 h
    refine ⟨?_, lower_expanded hall, check_expanded hall, layouts_expanded hall, ?_,
      assemble_expanded hall⟩
    · rw [expanded, List.forall₂_map_right_iff, List.forall₂_same]
      intro i hi
      exact ⟨Instruction.lower_eq_ok_iff.2 ⟨hall i hi, rfl⟩, i.line_expand, (hall i hi).isDerived_expand⟩
    · rw [symbolTable_expanded, layouts_expanded hall]
  · exact ⟨_, lower_eq_ok ((check_eq_ok_iff p).1 h)⟩

def shorthands : Program :=
  [{ mnemonic := .copy, operands := [.posAnchor "there" 4, .rel "x"], line := 2 },
    { mnemonic := .mulInPlace, operands := [.immAnchor "x" 5, .ref "there"], line := 3 },
    { mnemonic := .addInPlace, operands := [.pos "x", .imm (-1)], line := 5 },
    { mnemonic := .jump, operands := [.pos "x"], line := 6 }]

/-- Ends in an output of nothing, which lowering does not look at. -/
def incomplete : Program := shorthands ++ [{ mnemonic := .op .output, line := 8 }]

theorem lowered_incomplete :
    incomplete.lower = .ok incomplete.expanded ∧ incomplete.Lowered incomplete.expanded ∧
      incomplete.expanded.assemble =
        .error { cause := .operandCount (.op .output) 0, line := 8 } ∧
      shorthands.check = .ok () ∧ ∃ q, shorthands.lower = .ok q := by
  have hlower : incomplete.lower = .ok incomplete.expanded := by decide +kernel
  have hcheck : shorthands.check = .ok () := by decide +kernel
  exact ⟨hlower, lowered_of_lower.1 _ _ hlower, by decide +kernel, hcheck, lowered_of_lower.2 _ hcheck⟩

end Program
end TapeMachine
