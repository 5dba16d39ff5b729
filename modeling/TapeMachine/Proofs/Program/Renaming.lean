import Mathlib.Logic.Equiv.Basic
import TapeMachine.Proofs.Program.Placement
import TapeMachine.Proofs.Program.Relabelling

/-! Names are told apart and otherwise not looked at. Under other names a program is assembled to the
same image, with the new names in its layouts and in its symbol table, or is refused for the same
kind of reason at the same line. -/

namespace TapeMachine

def Operand.renamed (r : String → String) (o : Operand) : Operand := { o with name := r o.name }

def Symbol.renamed (r : String → String) (s : Symbol) : Symbol := { s with name := r s.name }

namespace Instruction

def renamed (r : String → String) (i : Instruction) : Instruction :=
  { i with operands := i.operands.map (Operand.renamed r), label := r i.label }

theorem relabels_renamed (r : String → String) (i : Instruction) :
    i.Relabels ⟨r, id⟩ (i.renamed r) := by
  refine ⟨rfl, ?_, fun _ => rfl, rfl⟩
  exact List.forall₂_map_right_iff.2 (List.forall₂_same.2 fun o _ => ⟨rfl, rfl, fun _ => rfl⟩)

end Instruction

namespace Program

def renamed (r : String → String) (p : Program) : Program := p.map (Instruction.renamed r)

theorem relabels_renamed (r : String → String) (p : Program) : p.Relabels ⟨r, id⟩ (p.renamed r) :=
  List.forall₂_map_right_iff.2 (List.forall₂_same.2 fun i _ => i.relabels_renamed r)

end Program

/-- Names do not matter: under other names, told apart as before and valid as before, a program comes
to the same image, with the new names in its layouts and symbols, or is refused for the same kind of
reason at the same line. -/
theorem assemble_renamed {r : String → String} (hr : Function.Injective r)
    (hvalid : ∀ s, Text.isIdentifier (r s) = Text.isIdentifier s) (p : Program) :
    ((∃ b, (p.renamed r).assemble = .ok b) ↔ ∃ a, p.assemble = .ok a) ∧
      (∀ a b, p.assemble = .ok a → (p.renamed r).assemble = .ok b →
        b.image = a.image ∧ b.layouts = a.layouts.map (Layout.renamed r) ∧
          b.symbols = a.symbols.map (Symbol.renamed r)) ∧
      ∀ e f, p.assemble = .error e → (p.renamed r).assemble = .error f →
        f.kind = e.kind ∧ f.line = e.line := by
  have hrelabels := p.relabels_renamed r
  rcases p.wellFormed_or_refusal with hwf | ⟨e, he⟩
  · have hwf' := hrelabels.wellFormed hr hvalid hwf
    have hlayouts := hrelabels.expanded.layouts_eq (Program.elementary_expanded hwf.instructions)
      (Program.elementary_expanded hwf'.instructions)
    rw [hwf.assemble_eq_ok, hwf'.assemble_eq_ok]
    refine ⟨by simp, ?_, by simp⟩
    rintro a b ⟨⟩ ⟨⟩
    exact ⟨hrelabels.expanded.words_table_eq hr, hlayouts, hrelabels.expanded.table_eq⟩
  · obtain ⟨f, hf, hkind, hline⟩ := he.relabelled hr hvalid hrelabels
    rw [he.assemble_eq_error, hf.assemble_eq_error]
    refine ⟨by simp, by simp, ?_⟩
    rintro e' f' ⟨⟩ ⟨⟩
    exact ⟨hkind, hline⟩

/-- The number that is counted down is called like an operation. -/
theorem assemble_countdown_renamed :
    Function.Injective (Equiv.swap "n" "ADD") ∧
      (∀ s, Text.isIdentifier (Equiv.swap "n" "ADD" s) = Text.isIdentifier s) ∧
      ∃ b, (countdown.renamed (Equiv.swap "n" "ADD")).assemble = .ok b ∧
        b.image = countdown.assembly.image ∧
        b.symbols.symbols.map (·.name) = ["loop", "ADD", "x"] := by
  have hr : Function.Injective (Equiv.swap "n" "ADD") := (Equiv.swap "n" "ADD").injective
  have hvalid (s : String) : Text.isIdentifier (Equiv.swap "n" "ADD" s) = Text.isIdentifier s := by
    rw [Equiv.swap_apply_def]
    split
    · rename_i hs
      rw [hs]
      decide
    · split
      · rename_i hs
        rw [hs]
        decide
      · rfl
  obtain ⟨hok, hsame, -⟩ := assemble_renamed hr hvalid countdown
  obtain ⟨b, hb⟩ := hok.2 ⟨_, assemble_countdown⟩
  obtain ⟨himage, -, hsymbols⟩ := hsame _ _ assemble_countdown hb
  refine ⟨hr, hvalid, b, hb, himage, ?_⟩
  rw [hsymbols]
  decide

end TapeMachine
