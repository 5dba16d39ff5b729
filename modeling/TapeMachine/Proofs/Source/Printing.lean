import TapeMachine.Program.Draft
import TapeMachine.Proofs.Source.Line

/-! Programs as texts, one instruction a line. A program whose instructions are shown in full when
they are printed is read back from its text, and the text is assembled like the program; programs made
by a draft's own calls are of this kind. -/

namespace TapeMachine

namespace Program

def print (p : Program) : String := "\n".intercalate (p.map Instruction.format)

/-- The program as it stands in its text. -/
def numbered (p : Program) : Program := (p.zipIdx 1).map fun (i, n) => i.onLine (UInt32.ofNat n)

theorem lines_print {p : Program} (h : ∀ i ∈ p, i.Printable) :
    Text.lines p.print.toList = p.map (String.toList ∘ Instruction.format) := by
  rw [print, String.toList_intercalate, List.map_map]
  refine Text.lines_intercalate (List.forall_mem_map.2 fun i hi => ?_)
  exact (h i hi).isLine_format

/-- Each line is read without regard to the others, so the text is read line by line. -/
theorem read_print {p : Program} (h : ∀ i ∈ p, i.Printable) : read p.print = .ok p.numbered := by
  have hlines : ((p.map (String.toList ∘ Instruction.format)).zipIdx 1).mapM
      (fun line => Instruction.readLine line.1 (UInt32.ofNat line.2)) = .ok (p.numbered.map some) := by
    rw [List.zipIdx_map, List.mapM_map, numbered, List.map_map]
    apply mapM_eq_ok
    rintro ⟨i, n⟩ hin
    exact (h i (List.fst_mem_of_mem_zipIdx hin)).readLine_format _
  calc read p.print
      = (do
          let instructions ← ((p.map (String.toList ∘ Instruction.format)).zipIdx 1).mapM
            fun line => Instruction.readLine line.1 (UInt32.ofNat line.2)
          return instructions.filterMap id) := by
        rw [read, lines_print h]
        rfl
    _ = .ok p.numbered := by
        rw [hlines, ok_bind, List.filterMap_map]
        simp

theorem unlined_numbered (p : Program) : p.numbered.unlined = p.unlined := by
  calc p.numbered.unlined = (p.zipIdx 1).map fun (i, _) => i.onLine 0 := by
        rw [unlined, numbered, List.map_map]
        rfl
    _ = ((p.zipIdx 1).map Prod.fst).map (·.onLine 0) := by
        rw [List.map_map]
        rfl
    _ = p.unlined := by rw [List.zipIdx_map_fst, unlined]

end Program

namespace Draft

/-- A draft made without adding instructions as they are, from operands that carry nothing but what
their kind uses. -/
inductive Built : Draft → Prop
  | empty : Built {}
  | emit {d} (h : Built d) (m : Mnemonic) {operands : List Operand}
    (normal : ∀ o ∈ operands, o.normal = o) : Built (d.emit m operands)
  | label {d} (h : Built d) (name : String) : Built (d.label name)
  | data {d} (h : Built d) (name : String) (initial : Word) : Built (d.data name initial)

theorem Built.instructions {d : Draft} (h : d.Built) :
    ∀ i ∈ d.instructions, (∀ o ∈ i.operands, o.normal = o) ∧ (i.mnemonic ≠ .label → i.label = "") := by
  induction h with
  | empty => simp
  | emit h m normal ih => exact List.forall_mem_append.2 ⟨ih, by simpa using normal⟩
  | label h name ih => exact List.forall_mem_append.2 ⟨ih, by simp [Instruction.ofLabel]⟩
  | data h name initial ih => exact List.forall_mem_append.2 ⟨ih, by simp [Instruction.ofData]; rfl⟩

theorem checkAt_eq_ok_iff (i : Instruction) (index : Nat) :
    checkAt i index = .ok () ↔ i.check = .ok () := by
  rw [checkAt]
  rcases i.check with e | ⟨⟩ <;> simp [Except.mapError]

theorem finish_eq_ok {d : Draft} {p : Program} (h : d.finish = .ok p) :
    p = d.instructions ∧ ∀ i ∈ p, i.check = .ok () := by
  unfold finish at h
  rcases hforM : (d.instructions.zipIdx.forM fun (i, index) => checkAt i index) with e | ⟨⟩
  · rw [hforM] at h
    cases h
  · rw [hforM] at h
    cases h
    refine ⟨rfl, fun i hi => ?_⟩
    obtain ⟨index, hindex⟩ := List.getElem?_of_mem hi
    have hat := forM_eq_ok_iff.1 hforM (i, index) (List.mem_zipIdx_iff_getElem?.2 hindex)
    exact (checkAt_eq_ok_iff i index).1 hat

end Draft

/-- Printing loses nothing of a program that is printed in full, and reading finds nothing more. -/
theorem printed_read_back :
    (∀ p : Program, (∀ i ∈ p, i.Printable) → Program.read p.print = .ok p.numbered ∧
      outcome p.numbered.assemble = outcome p.assemble) ∧
    ∀ (d : Draft) (p : Program), d.Built → d.finish = .ok p → ∀ i ∈ p, i.Printable := by
  constructor
  · intro p hp
    exact ⟨Program.read_print hp, Program.outcome_congr p.unlined_numbered⟩
  · intro d p hbuilt hfinish i hi
    obtain ⟨rfl, hcheck⟩ := Draft.finish_eq_ok hfinish
    obtain ⟨hnormal, hlabel⟩ := hbuilt.instructions i hi
    exact ⟨hcheck i hi, hnormal, hlabel⟩

/-- A draft with operands of every kind, and both ends of the range of words. -/
def sampler : Draft :=
  (((((Draft.label {} "loop").emit
    (.op .equal) [.imm (-9223372036854775808), .immAnchor "a" (-5), .posAnchor "b" 0]).emit
    .addInPlace [.immAnchor "c_1" 0, .rel "a"]).emit
    (.op .adjustBase) [.imm 9223372036854775807]).emit
    (.op .jumpIfTrue) [.pos "c_1", .ref "loop"]).data "x" 7

theorem built_sampler : sampler.Built :=
  .data (.emit (.emit (.emit (.emit (.label .empty "loop") _ (by decide)) _ (by decide)) _ (by decide))
    _ (by decide)) "x" 7

theorem printed_read_back_sampler :
    sampler.Built ∧ sampler.finish = .ok sampler.instructions ∧
      sampler.instructions.map Instruction.format =
        ["LBL loop", "EQ -9223372036854775808 [-5]#a &#b", "IADD #c_1 @a",
          "ARB 9223372036854775807", "JIT &c_1 $loop", "VAR x 7"] ∧
      (∀ i ∈ sampler.instructions, i.Printable) ∧
      Program.read sampler.instructions.print = .ok sampler.instructions.numbered ∧
      outcome sampler.instructions.numbered.assemble = outcome sampler.instructions.assemble := by
  have hfinish : sampler.finish = .ok sampler.instructions := by decide +kernel
  have hprintable := printed_read_back.2 sampler _ built_sampler hfinish
  exact ⟨built_sampler, hfinish, by decide +kernel, hprintable, printed_read_back.1 _ hprintable⟩

end TapeMachine
