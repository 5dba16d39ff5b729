import TapeMachine.Proofs.Passes
import TapeMachine.Proofs.Word.Decimal
import TapeMachine.Source.Operand

/-! The grammar of written operands. What is read as an operand is what the grammar has, under the kind,
the name and the value that it gives. -/

namespace TapeMachine

namespace Text

def Leading (c : Char) : Prop := 'A' ≤ c ∧ c ≤ 'Z' ∨ 'a' ≤ c ∧ c ≤ 'z' ∨ c = '_'

/-- A letter or an underscore, and then letters, underscores and digits. -/
inductive Identifier : List Char → Prop
  | intro {c : Char} {cs : List Char} (first : Leading c)
      (others : ∀ d ∈ cs, Leading d ∨ '0' ≤ d ∧ d ≤ '9') : Identifier (c :: cs)

theorem isNameStart_iff {c : Char} : isNameStart c = true ↔ Leading c := by
  have halpha : c.isAlpha = (decide ('A' ≤ c ∧ c ≤ 'Z') || (decide ('a' ≤ c) && decide (c ≤ 'z'))) := rfl
  simp [isNameStart, Leading, halpha, or_assoc]

theorem isNameChar_iff {c : Char} : isNameChar c = true ↔ Leading c ∨ '0' ≤ c ∧ c ≤ '9' := by
  rw [← isNameStart_iff]
  simp [isNameChar, isNameStart, Char.isAlphanum, Char.isDigit, Char.le_def, or_right_comm]

theorem isName_iff {cs : List Char} : isName cs = true ↔ Identifier cs := by
  cases cs with
  | nil => exact iff_of_false Bool.false_ne_true nofun
  | cons c cs =>
    rw [isName, Bool.and_eq_true, isNameStart_iff, List.all_eq_true]
    simp only [isNameChar_iff]
    constructor
    · rintro ⟨hfirst, hothers⟩
      exact .intro hfirst hothers
    · rintro ⟨hfirst, hothers⟩
      exact ⟨hfirst, hothers⟩

end Text

theorem readName_eq_ok_iff {role : NameRole} {name : List Char} {s : String} :
    readName role name = .ok s ↔ Text.Identifier name ∧ s = String.ofList name := by
  rw [← Text.isName_iff, readName]
  split <;> simp [*, eq_comm]

theorem map_readName_eq_ok_iff {α : Type} {role : NameRole} {name : List Char} {f : String → α} {a : α} :
    f <$> readName role name = .ok a ↔ Text.Identifier name ∧ a = f (String.ofList name) := by
  constructor
  · intro h
    obtain ⟨s, hs, rfl⟩ := exists_of_map_eq_ok h
    obtain ⟨hname, rfl⟩ := readName_eq_ok_iff.1 hs
    exact ⟨hname, rfl⟩
  · rintro ⟨hname, rfl⟩
    rw [readName_eq_ok_iff.2 ⟨hname, rfl⟩]
    rfl

namespace Operand

/-- What may stand before an anchor, and the initial value that it gives. -/
inductive Initial : List Char → Word → Prop
  | absent : Initial [] 0
  | empty : Initial ['[', ']'] 0
  | value {literal : List Char} {w : Word} (numeral : Word.Numeral literal w) :
      Initial ('[' :: (literal ++ [']'])) w

/-- An anchor with this initial value, without what may stand before it. -/
inductive Anchor (w : Word) : List Char → Operand → Prop
  | immediate {name : List Char} (valid : Text.Identifier name) :
      Anchor w ('#' :: name) (immAnchor (String.ofList name) w)
  | position {name : List Char} (valid : Text.Identifier name) :
      Anchor w ('&' :: '#' :: name) (posAnchor (String.ofList name) w)

/-- How operands are written. -/
inductive Form : List Char → Operand → Prop
  | immediate {literal : List Char} {w : Word} (numeral : Word.Numeral literal w) : Form literal (imm w)
  | position {name : List Char} (valid : Text.Identifier name) :
      Form ('&' :: name) (pos (String.ofList name))
  | relative {name : List Char} (valid : Text.Identifier name) :
      Form ('@' :: name) (rel (String.ofList name))
  | label {name : List Char} (valid : Text.Identifier name) :
      Form ('$' :: name) (ref (String.ofList name))
  | anchor {before rest : List Char} {w : Word} {o : Operand} (initial : Initial before w)
      (anchor : Anchor w rest o) : Form (before ++ rest) o

variable {token rest : List Char} {w : Word} {o : Operand}

theorem readAnchor_eq_ok_iff : readAnchor token w rest = .ok o ↔ Anchor w rest o := by
  constructor
  · intro h
    unfold readAnchor at h
    split at h
    · obtain ⟨hname, rfl⟩ := map_readName_eq_ok_iff.1 h
      exact .position hname
    · obtain ⟨hname, rfl⟩ := map_readName_eq_ok_iff.1 h
      exact .immediate hname
    · cases h
  · rintro (hname | hname)
    · exact map_readName_eq_ok_iff.2 ⟨hname, rfl⟩
    · exact map_readName_eq_ok_iff.2 ⟨hname, rfl⟩

theorem readInteger_eq_ok_iff :
    readInteger token = .ok o ↔ ∃ w, Word.Numeral token w ∧ o = imm w := by
  simp only [← Word.ofDecimal?_eq_some_iff]
  unfold readInteger
  split <;> simp [*, eq_comm]

theorem initial_of_readInitial {literal : List Char} (h : readInitial literal = .ok w) :
    Initial ('[' :: (literal ++ [']'])) w := by
  unfold readInitial at h
  split at h
  · rename_i hempty
    obtain rfl := List.isEmpty_iff.1 hempty
    cases h
    exact .empty
  · split at h
    · rename_i hvalue
      cases h
      exact .value (Word.ofDecimal?_eq_some_iff.1 hvalue)
    · cases h

theorem read_brackets {inner : List Char} (h : ']' ∉ inner) :
    read ('[' :: (inner ++ ']' :: rest)) =
      (readInitial inner >>= fun w => readAnchor ('[' :: (inner ++ ']' :: rest)) w rest) := by
  have hstop : ∀ c ∈ inner, decide (c ≠ ']') = true := by
    intro c hc
    have hne : c ≠ ']' := fun heq => h (heq ▸ hc)
    simpa using hne
  rw [read, List.dropWhile_append_of_pos hstop, List.takeWhile_append_of_pos hstop]
  simp

theorem Anchor.read_eq (h : Anchor 0 token o) : read token = .ok o := by
  rcases h with hname | hname
  · exact map_readName_eq_ok_iff.2 ⟨hname, rfl⟩
  · exact map_readName_eq_ok_iff.2 ⟨hname, rfl⟩

theorem Initial.read_eq {before : List Char} (h : Initial before w) (hanchor : Anchor w rest o) :
    read (before ++ rest) = .ok o := by
  have hrest (token : List Char) : readAnchor token w rest = .ok o := readAnchor_eq_ok_iff.2 hanchor
  cases h with
  | absent => exact hanchor.read_eq
  | empty =>
    change read ('[' :: ([] ++ ']' :: rest)) = _
    rw [read_brackets List.not_mem_nil]
    exact hrest _
  | @value literal _ numeral =>
    have hbracket : ']' ∉ literal := numeral.notMem rfl (by decide)
    have hinitial : readInitial literal = .ok w := by
      simp [readInitial, numeral.ne_nil, numeral.ofDecimal?]
    rw [List.cons_append, List.append_assoc, List.singleton_append, read_brackets hbracket, hinitial]
    exact hrest _

/-- A name does not start with the sign of an anchor, so after `&` it stands for itself. -/
theorem read_position {name : List Char} (h : Text.Identifier name) :
    read ('&' :: name) = pos <$> readName .position name := by
  obtain @⟨c, cs, hfirst, -⟩ := h
  have hc : c ≠ '#' := by
    rintro rfl
    revert hfirst
    unfold Text.Leading
    decide
  simp [read, hc]

theorem read_eq_readInteger {c : Char} {cs : List Char} (h : c = '-' ∨ c.isDigit = true) :
    read (c :: cs) = readInteger (c :: cs) := by
  unfold read
  split
  case h_8 heq =>
    obtain ⟨rfl, -⟩ := List.cons.inj heq
    rw [if_pos (by simpa using h)]
  all_goals
    rename_i heq
    cases heq <;> simp at h

theorem read_numeral (h : Word.Numeral token w) : read token = .ok (imm w) := by
  have hinteger : readInteger token = .ok (imm w) := readInteger_eq_ok_iff.2 ⟨w, h, rfl⟩
  obtain ⟨c, cs, rfl⟩ := List.exists_cons_of_ne_nil h.ne_nil
  rw [read_eq_readInteger (h.mem List.mem_cons_self), hinteger]

theorem Form.read_eq (h : Form token o) : read token = .ok o := by
  cases h with
  | immediate numeral => exact read_numeral numeral
  | position valid =>
    rw [read_position valid]
    exact map_readName_eq_ok_iff.2 ⟨valid, rfl⟩
  | relative valid | label valid => exact map_readName_eq_ok_iff.2 ⟨valid, rfl⟩
  | anchor initial anchor => exact initial.read_eq anchor

theorem form_of_read (h : read token = .ok o) : Form token o := by
  unfold read at h
  split at h
  case h_1 => cases h
  case h_2 inner =>
    split at h
    · cases h
    · rename_i c rest hrest
      obtain ⟨w, hinitial, hanchor⟩ := exists_of_bind_eq_ok h
      have hclosing := List.head?_dropWhile_not (· ≠ ']') inner
      rw [hrest] at hclosing
      obtain rfl : c = ']' := by simpa using hclosing
      have hinner : inner = inner.takeWhile (· ≠ ']') ++ ']' :: rest := by
        rw [← hrest, List.takeWhile_append_dropWhile]
      have hform := Form.anchor (initial_of_readInitial hinitial) (readAnchor_eq_ok_iff.1 hanchor)
      rwa [List.cons_append, List.append_assoc, List.singleton_append, ← hinner] at hform
  case h_3 =>
    obtain ⟨valid, rfl⟩ := map_readName_eq_ok_iff.1 h
    exact .anchor .absent (.position valid)
  case h_4 =>
    obtain ⟨valid, rfl⟩ := map_readName_eq_ok_iff.1 h
    exact .anchor .absent (.immediate valid)
  case h_5 =>
    obtain ⟨valid, rfl⟩ := map_readName_eq_ok_iff.1 h
    exact .position valid
  case h_6 =>
    obtain ⟨valid, rfl⟩ := map_readName_eq_ok_iff.1 h
    exact .relative valid
  case h_7 =>
    obtain ⟨valid, rfl⟩ := map_readName_eq_ok_iff.1 h
    exact .label valid
  case h_8 =>
    split at h
    · obtain ⟨w, numeral, rfl⟩ := readInteger_eq_ok_iff.1 h
      exact .immediate numeral
    · cases h

/-- What is read as an operand is just what the grammar has. -/
theorem read_eq_ok_iff : read token = .ok o ↔ Form token o := ⟨form_of_read, Form.read_eq⟩

end Operand
end TapeMachine
