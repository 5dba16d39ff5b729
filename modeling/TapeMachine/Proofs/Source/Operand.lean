import TapeMachine.Proofs.Source.Form
import TapeMachine.Proofs.Source.Token

/-! Operands are read back as they are written, those apart that carry parts which their kind does
not use: these are not written. -/

namespace TapeMachine

theorem isToken_decimal (w : Word) : IsToken w.decimal.toList := by
  have hdigits : IsToken (Word.digits w) :=
    ⟨Nat.toDigits_ne_nil, fun c hc => inToken_of_isDigit (Word.isDigit_of_mem_digits hc)⟩
  rw [Word.toList_decimal]
  split
  · exact hdigits.cons rfl
  · exact hdigits

theorem isToken_identifier {name : String} (h : Text.isIdentifier name = true) :
    IsToken name.toList :=
  isToken_of_isName h

theorem readName_eq_ok (role : NameRole) {name : String} (h : Text.isIdentifier name = true) :
    readName role name.toList = .ok name :=
  readName_eq_ok_iff.2 ⟨Text.isName_iff.1 h, String.ofList_toList.symm⟩

namespace Operand

/-- An operand with a valid name, if its kind uses one, and without the parts that it does not use. -/
inductive Plain : Operand → Prop
  | imm (value : Word) : Plain (imm value)
  | pos {name : String} (h : Text.isIdentifier name = true) : Plain (pos name)
  | rel {name : String} (h : Text.isIdentifier name = true) : Plain (rel name)
  | ref {name : String} (h : Text.isIdentifier name = true) : Plain (ref name)
  | immAnchor {name : String} (value : Word) (h : Text.isIdentifier name = true) :
    Plain (immAnchor name value)
  | posAnchor {name : String} (value : Word) (h : Text.isIdentifier name = true) :
    Plain (posAnchor name value)

theorem plain_of_normal {o : Operand} (hnormal : o.normal = o)
    (hname : o.kind ≠ .immediate → Text.isIdentifier o.name = true) : o.Plain := by
  rw [← hnormal, normal]
  split
  case h_1 => exact .imm _
  all_goals
    rename_i hk
    have hname := hname (by simp [hk])
  case h_2 => exact .pos hname
  case h_3 => exact .rel hname
  case h_4 => exact .ref hname
  case h_5 => exact .immAnchor _ hname
  case h_6 => exact .posAnchor _ hname

theorem toList_formatInitial (v : Word) :
    (formatInitial v).toList = if v = 0 then [] else '[' :: (v.decimal.toList ++ [']']) := by
  rw [formatInitial]
  split <;> simp

theorem inToken_formatInitial (v : Word) : ∀ c ∈ (formatInitial v).toList, inToken c = true := by
  rw [toList_formatInitial]
  split
  · simp
  · have hclosing : IsToken [']'] := ⟨by simp, List.forall_mem_singleton.2 rfl⟩
    exact ((hclosing.append_left (isToken_decimal v).2).cons rfl).2

theorem isToken_format {o : Operand} (h : o.Plain) : IsToken o.format.toList := by
  rcases h with v | hname | hname | hname | ⟨v, hname⟩ | ⟨v, hname⟩
  · exact isToken_decimal v
  all_goals have hname := isToken_identifier hname
  · simpa [format, pos] using hname.cons (c := '&') rfl
  · simpa [format, rel] using hname.cons (c := '@') rfl
  · simpa [format, ref] using hname.cons (c := '$') rfl
  · have hinitial := inToken_formatInitial v
    simpa [format, immAnchor] using (hname.cons (c := '#') rfl).append_left hinitial
  · have hinitial := inToken_formatInitial v
    have hanchor := (hname.cons (c := '#') rfl).cons (c := '&') rfl
    simpa [format, posAnchor] using hanchor.append_left hinitial

theorem initial_formatInitial (v : Word) : Initial (formatInitial v).toList v := by
  rw [toList_formatInitial]
  split
  · rename_i hv
    rw [hv]
    exact .absent
  · exact .value (Word.numeral_decimal v)

theorem form_format {o : Operand} (h : o.Plain) : Form o.format.toList o := by
  rcases h with v | hname | hname | hname | ⟨v, hname⟩ | ⟨v, hname⟩
  · exact .immediate (Word.numeral_decimal v)
  all_goals have hname := Text.isName_iff.1 hname
  · simpa [format, pos] using Form.position hname
  · simpa [format, rel] using Form.relative hname
  · simpa [format, ref] using Form.label hname
  · simpa [format, immAnchor] using Form.anchor (initial_formatInitial v) (.immediate hname)
  · simpa [format, posAnchor] using Form.anchor (initial_formatInitial v) (.position hname)

theorem read_format {o : Operand} (h : o.Plain) : read o.format.toList = .ok o := (form_format h).read_eq

theorem Form.plain {token : List Char} {o : Operand} (h : Form token o) : o.Plain := by
  have hvalid {name : List Char} (h : Text.Identifier name) :
      Text.isIdentifier (String.ofList name) = true := by
    rw [Text.isIdentifier, String.toList_ofList, Text.isName_iff]
    exact h
  cases h with
  | immediate => exact .imm _
  | position valid => exact .pos (hvalid valid)
  | relative valid => exact .rel (hvalid valid)
  | label valid => exact .ref (hvalid valid)
  | anchor _ anchor =>
    cases anchor with
    | immediate valid => exact .immAnchor _ (hvalid valid)
    | position valid => exact .posAnchor _ (hvalid valid)

theorem Plain.normal_eq {o : Operand} (h : o.Plain) : o.normal = o := by
  cases h <;> rfl

/-- The tokens that are read are those of the grammar, each as the operand that the grammar gives, and
what is read is read again from what is printed of it. -/
theorem read_exactly_forms : (∀ token o, read token = .ok o ↔ Form token o) ∧
    ∀ token o, read token = .ok o → read o.format.toList = .ok o := by
  refine ⟨fun token o => read_eq_ok_iff, fun token o h => ?_⟩
  exact read_format (form_of_read h).plain

/-- Leading zeros, and a sign before them, are not printed again. -/
theorem read_format_padded :
    read "[-007]&#a_1".toList = .ok (posAnchor "a_1" (-7)) ∧
      (posAnchor "a_1" (-7)).format = "[-7]&#a_1" ∧
      read (posAnchor "a_1" (-7)).format.toList = .ok (posAnchor "a_1" (-7)) := by
  have hread : read "[-007]&#a_1".toList = .ok (posAnchor "a_1" (-7)) := by decide +kernel
  exact ⟨hread, by decide +kernel, read_exactly_forms.2 _ _ hread⟩

end Operand
end TapeMachine
