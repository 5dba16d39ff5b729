import TapeMachine.Proofs.Program.Relabelling

/-! Line numbers decide nothing but where an error points. Without them a program is assembled to the
same image and the same addresses, or refused with an error of the same kind. -/

namespace TapeMachine

namespace Instruction

def onLine (i : Instruction) (line : UInt32) : Instruction := { i with line }

theorem relabels_onLine (i : Instruction) (line : UInt32) :
    i.Relabels ⟨id, fun _ => line⟩ (i.onLine line) :=
  ⟨rfl, List.forall₂_same.2 fun _ _ => ⟨rfl, rfl, fun _ => rfl⟩, fun _ => rfl, rfl⟩

theorem check_onLine (i : Instruction) (line : UInt32) :
    (i.onLine line).check = .ok () ↔ i.check = .ok () := by
  rw [check_eq_ok_iff, check_eq_ok_iff, (i.relabels_onLine line).wellFormed_iff fun _ => rfl]

end Instruction

namespace Program

def unlined (p : Program) : Program := p.map (·.onLine 0)

theorem relabels_unlined (p : Program) : p.Relabels ⟨id, fun _ => 0⟩ p.unlined :=
  List.forall₂_map_right_iff.2 (List.forall₂_same.2 fun i _ => i.relabels_onLine 0)

end Program

namespace Assembly

def content (a : Assembly) : Image × List (String × Int) :=
  (a.image, a.symbols.symbols.map fun s => (s.name, s.address))

end Assembly

/-- What comes of an assembly, apart from where its errors and symbols stand in a text. -/
def outcome : Except Error Assembly → Except ErrorKind (Image × List (String × Int))
  | .ok a => .ok a.content
  | .error e => .error e.kind

namespace Program

theorem content_unlined (p : Program) : p.unlined.assembly.content = p.assembly.content := by
  have hexpanded := p.relabels_unlined.expanded
  have himage : p.unlined.assembly.image = p.assembly.image :=
    hexpanded.words_table_eq Function.injective_id
  have hsymbols : p.unlined.assembly.symbols = p.assembly.symbols.map _ := hexpanded.table_eq
  rw [Assembly.content, Assembly.content, himage, hsymbols, SymbolTable.map, List.map_map]
  rfl

theorem outcome_unlined (p : Program) : outcome p.unlined.assemble = outcome p.assemble := by
  have hvalid (s : String) : Text.isIdentifier (id s) = Text.isIdentifier s := rfl
  rcases p.wellFormed_or_refusal with h | ⟨e, he⟩
  · have h' := p.relabels_unlined.wellFormed Function.injective_id hvalid h
    rw [h.assemble_eq_ok, h'.assemble_eq_ok, outcome, outcome, content_unlined]
  · obtain ⟨f, hf, hkind, -⟩ := he.relabelled Function.injective_id hvalid p.relabels_unlined
    rw [he.assemble_eq_error, hf.assemble_eq_error, outcome, outcome, hkind]

/-- Where the instructions stand in a text makes no difference. -/
theorem outcome_congr {p q : Program} (h : p.unlined = q.unlined) :
    outcome p.assemble = outcome q.assemble := by
  rw [← outcome_unlined p, h, outcome_unlined]

end Program
end TapeMachine
