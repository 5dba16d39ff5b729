import TapeMachine.Proofs.Program.Lines
import TapeMachine.Proofs.Source.Operand

/-! A line that holds a printed instruction is read back as that instruction, under the number of the
line. -/

namespace TapeMachine

namespace Instruction

/-- A well-formed instruction that carries nothing but what is written when it is printed. -/
structure Printable (i : Instruction) : Prop where
  check : i.check = .ok ()
  normal : ∀ o ∈ i.operands, o.normal = o
  label : i.mnemonic ≠ .label → i.label = ""

def arguments (i : Instruction) : List String :=
  match i.mnemonic, i.operands with
  | .label, _ => [i.label]
  | .data, [o] => o.name :: if o.value = 0 then [] else [o.value.decimal]
  | _, operands => operands.map Operand.format

theorem format_eq (i : Instruction) :
    i.format = " ".intercalate (i.mnemonic.name :: i.arguments) := by
  obtain ⟨m, operands, label, line⟩ := i
  match m, operands with
  | .label, _ => simp [format, arguments]
  | .data, [o] =>
    by_cases hzero : o.value = 0 <;>
      simp [format, arguments, formatData, hzero, String.append_assoc]
  | .data, [] | .data, _ :: _ :: _ => rfl
  | .op _, _ | .copy, _ | .jump, _ | .addInPlace, _ | .mulInPlace, _ => rfl

theorem arguments_of_ne {i : Instruction} (hl : i.mnemonic ≠ .label) (hd : i.mnemonic ≠ .data) :
    i.arguments = i.operands.map Operand.format := by
  unfold arguments
  split
  · exact absurd ‹_› hl
  · exact absurd ‹_› hd
  · rfl

theorem readArguments_of_ne {m : Mnemonic} (hl : m ≠ .label) (hd : m ≠ .data)
    (arguments : List (List Char)) :
    readArguments m arguments = do
      return { mnemonic := m, operands := ← arguments.mapM Operand.read } := by
  unfold readArguments
  split <;> first | rfl | contradiction

variable {i : Instruction}

theorem Printable.plain (h : i.Printable) : ∀ o ∈ i.operands, o.Plain := by
  intro o ho
  have hwf := (check_eq_ok_iff i).1 h.check
  exact Operand.plain_of_normal (h.normal o ho) (hwf.names o ho)

theorem Printable.form (h : i.Printable) :
    (∃ name, Text.isIdentifier name = true ∧ i = (ofLabel name).onLine i.line) ∨
    (∃ name value, Text.isIdentifier name = true ∧ i = (ofData name value).onLine i.line) ∨
    (i.mnemonic ≠ .label ∧ i.mnemonic ≠ .data) := by
  have hwf := (check_eq_ok_iff i).1 h.check
  have hplain := h.plain
  have hlabel := h.label
  obtain ⟨m, operands, label, line⟩ := i
  by_cases hl : m = .label
  · subst hl
    obtain rfl : operands = [] := List.length_eq_zero_iff.1 hwf.arity
    exact .inl ⟨label, hwf.label rfl, rfl⟩
  · by_cases hd : m = .data
    · subst hd
      obtain rfl : label = "" := hlabel (by simp)
      obtain ⟨o, rfl⟩ := List.length_eq_one_iff.1 hwf.arity
      have hkind := hwf.data rfl o (by simp)
      rcases hplain o (by simp) with _ | _ | _ | _ | @⟨name, value, hname⟩ | _
      case immAnchor => exact .inr (.inl ⟨name, value, hname, rfl⟩)
      all_goals cases hkind
    · exact .inr (.inr ⟨hl, hd⟩)

theorem Printable.isToken_arguments (h : i.Printable) :
    ∀ argument ∈ i.arguments, IsToken argument.toList := by
  rcases h.form with ⟨name, hname, hi⟩ | ⟨name, value, hname, hi⟩ | ⟨hl, hd⟩
  · rw [hi]
    simpa [arguments, ofLabel, onLine] using isToken_identifier hname
  · have hvalue := isToken_decimal value
    rw [hi]
    by_cases hzero : value = 0 <;>
      simp [arguments, ofData, onLine, Operand.immAnchor, hzero, hvalue, isToken_identifier hname]
  · rw [arguments_of_ne hl hd]
    intro argument hargument
    obtain ⟨o, ho, rfl⟩ := List.mem_map.1 hargument
    exact Operand.isToken_format (h.plain o ho)

theorem Printable.readArguments_eq (h : i.Printable) :
    readArguments i.mnemonic (i.arguments.map String.toList) = .ok (i.onLine 0) := by
  rcases h.form with ⟨name, hname, hi⟩ | ⟨name, value, hname, hi⟩ | ⟨hl, hd⟩
  · rw [hi]
    change ofLabel <$> readName .label name.toList = _
    rw [readName_eq_ok .label hname]
    rfl
  · rw [hi]
    by_cases hzero : value = 0 <;>
      simp [arguments, ofData, onLine, Operand.immAnchor, hzero, readArguments, readData,
        readName_eq_ok .data hname, Word.ofDecimal?_decimal]
  · have hread : (i.operands.map (String.toList ∘ Operand.format)).mapM Operand.read =
        .ok i.operands := by
      have h : i.operands.mapM (Operand.read ∘ String.toList ∘ Operand.format) =
          .ok (i.operands.map id) := mapM_eq_ok fun o ho => Operand.read_format (h.plain o ho)
      rw [List.mapM_map, h, List.map_id]
    rw [arguments_of_ne hl hd, readArguments_of_ne hl hd, List.map_map, hread, onLine, h.label hl]
    rfl

theorem toList_format (i : Instruction) :
    i.format.toList = [' '].intercalate (i.mnemonic.name.toList :: i.arguments.map String.toList) := by
  rw [format_eq, String.toList_intercalate]
  rfl

theorem Printable.isToken (h : i.Printable) :
    ∀ part ∈ i.mnemonic.name.toList :: i.arguments.map String.toList, IsToken part := by
  simpa [Mnemonic.isToken_name] using h.isToken_arguments

theorem Printable.tokens_format (h : i.Printable) :
    tokens i.format.toList = i.mnemonic.name.toList :: i.arguments.map String.toList := by
  rw [toList_format, tokens_intercalate h.isToken]

theorem Printable.isLine_format (h : i.Printable) :
    i.format.toList ≠ [] ∧ '\n' ∉ i.format.toList := by
  constructor
  · intro hnil
    have htokens := h.tokens_format
    rw [hnil] at htokens
    cases htokens
  · rw [toList_format]
    exact lineFeed_notMem_intercalate h.isToken

/-- A line is read back, and what has been printed is still well formed where it stands now. -/
theorem Printable.readLine_format (h : i.Printable) (line : UInt32) :
    readLine i.format.toList line = .ok (some (i.onLine line)) := by
  have hcheck : (i.onLine line).check = .ok () := (check_onLine i line).2 h.check
  rw [readLine, h.tokens_format]
  simp only [readTokens, Mnemonic.ofName?_name, h.readArguments_eq]
  change (do (i.onLine line).check; return some (i.onLine line)) = _
  rw [hcheck]
  rfl

end Instruction
end TapeMachine
