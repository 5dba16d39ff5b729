import Mathlib.Data.List.TakeWhile
import TapeMachine.Source.Program

/-! The lines of a text and the tokens of a line, seen from the one who writes them: lines joined by
line feeds and tokens joined by spaces are read back as they were. -/

namespace TapeMachine

namespace Text

theorem mem_intercalate {separator : List Char} {c : Char} {parts : List (List Char)}
    (h : c ∈ separator.intercalate parts) : c ∈ separator ∨ ∃ part ∈ parts, c ∈ part := by
  induction parts with
  | nil => simp at h
  | cons part parts ih =>
    cases parts with
    | nil => exact .inr ⟨part, by simp, by simpa using h⟩
    | cons next parts =>
      rw [List.intercalate_cons_cons, List.append_assoc, List.mem_append, List.mem_append] at h
      rcases h with h | h | h
      · exact .inr ⟨part, by simp, h⟩
      · exact .inl h
      · rcases ih h with h | ⟨other, hother, h⟩
        · exact .inl h
        · exact .inr ⟨other, List.mem_cons_of_mem _ hother, h⟩

section Pieces

variable {isSeparator : Char → Bool}

/-- A separator parts a text in two that have nothing to do with one another. -/
theorem pieces_separated {c : Char} (hc : isSeparator c = true) (before after : List Char) :
    pieces isSeparator (before ++ c :: after) = pieces isSeparator before ++ pieces isSeparator after := by
  rw [pieces, List.splitOnP_append_cons _ _ hc, List.filter_append]
  rfl

theorem pieces_cons {c : Char} (hc : isSeparator c = true) (cs : List Char) :
    pieces isSeparator (c :: cs) = pieces isSeparator cs :=
  pieces_separated hc [] cs

theorem pieces_eq_singleton {part : List Char} (hne : part ≠ [])
    (hpart : ∀ c ∈ part, isSeparator c = false) : pieces isSeparator part = [part] := by
  simp [pieces, List.splitOnP_eq_singleton hpart, hne]

theorem pieces_append {separator : List Char} (h : ∀ c ∈ separator, isSeparator c = true)
    (cs : List Char) : pieces isSeparator (separator ++ cs) = pieces isSeparator cs := by
  induction separator with
  | nil => rfl
  | cons c separator ih =>
    rw [List.forall_mem_cons] at h
    rw [List.cons_append, pieces_cons h.1, ih h.2]

theorem pieces_append_cons {part : List Char} (hne : part ≠ [])
    (hpart : ∀ c ∈ part, isSeparator c = false) {c : Char} (hc : isSeparator c = true)
    (cs : List Char) : pieces isSeparator (part ++ c :: cs) = part :: pieces isSeparator cs := by
  rw [pieces_separated hc, pieces_eq_singleton hne hpart]
  rfl

theorem pieces_intercalate {separator : List Char} (hne : separator ≠ [])
    (hseparator : ∀ c ∈ separator, isSeparator c = true) {parts : List (List Char)}
    (h : ∀ part ∈ parts, part ≠ [] ∧ ∀ c ∈ part, isSeparator c = false) :
    pieces isSeparator (separator.intercalate parts) = parts := by
  obtain ⟨c, separator, rfl⟩ := List.exists_cons_of_ne_nil hne
  rw [List.forall_mem_cons] at hseparator
  induction parts with
  | nil => simp [pieces]
  | cons part parts ih =>
    obtain ⟨hne, hpart⟩ := h part (by simp)
    cases parts with
    | nil => simpa using pieces_eq_singleton hne hpart
    | cons next parts =>
      have ih := ih fun other hother => h other (List.mem_cons_of_mem _ hother)
      rw [List.intercalate_cons_cons, List.append_assoc, List.cons_append,
        pieces_append_cons hne hpart hseparator.1, pieces_append hseparator.2, ih]

end Pieces

theorem lines_intercalate {parts : List (List Char)} (h : ∀ part ∈ parts, part ≠ [] ∧ '\n' ∉ part) :
    lines (['\n'].intercalate parts) = parts := by
  by_cases hnil : parts = []
  · subst hnil
    rfl
  · have hlast : parts.getLast? ≠ some [] := fun hl => (h [] (List.mem_of_getLast? hl)).1 rfl
    simp only [lines, List.splitOn_intercalate '\n' (fun part hpart => (h part hpart).2) hnil,
      if_neg hlast]

theorem lines_flatMap {parts : List (List Char)} (h : ∀ part ∈ parts, '\n' ∉ part) :
    lines (parts.flatMap (· ++ ['\n'])) = parts := by
  have hsplit : (parts.flatMap (· ++ ['\n'])).splitOn '\n' = parts ++ [[]] := by
    induction parts with
    | nil => rfl
    | cons part parts ih =>
      rw [List.forall_mem_cons] at h
      have hpart : ∀ c ∈ part, (c == '\n') = false := by
        intro c hc
        rw [beq_eq_false_iff_ne]
        rintro rfl
        exact h.1 hc
      rw [List.splitOn] at ih ⊢
      rw [List.flatMap_cons, List.append_assoc, List.singleton_append,
        List.splitOnP_append_cons_of_forall_mem hpart '\n' rfl, ih h.2, List.cons_append]
  simp [lines, hsplit]

end Text

/-- Whether a character goes on with a token: it neither separates tokens nor starts a comment. -/
def inToken (c : Char) : Bool := !Instruction.isSeparator c && c ≠ ';'

/-- A text that is one token wherever it stands. -/
def IsToken (token : List Char) : Prop := token ≠ [] ∧ ∀ c ∈ token, inToken c = true

theorem IsToken.cons {c : Char} {token : List Char} (hc : inToken c = true) (h : IsToken token) :
    IsToken (c :: token) :=
  ⟨by simp, by simpa [hc] using h.2⟩

theorem IsToken.append_left {token rest : List Char} (h : IsToken token)
    (hrest : ∀ c ∈ rest, inToken c = true) : IsToken (rest ++ token) := by
  refine ⟨by simp [h.1], fun c hc => ?_⟩
  rcases List.mem_append.1 hc with hc | hc
  · exact hrest c hc
  · exact h.2 c hc

theorem isSeparator_eq_false {c : Char} (h : inToken c = true) :
    Instruction.isSeparator c = false ∧ c ≠ ';' := by
  simpa [inToken] using h

theorem IsToken.piece {token : List Char} (h : IsToken token) :
    token ≠ [] ∧ ∀ c ∈ token, Instruction.isSeparator c = false :=
  ⟨h.1, fun c hc => (isSeparator_eq_false (h.2 c hc)).1⟩

theorem IsToken.lineFeed_notMem {token : List Char} (h : IsToken token) : '\n' ∉ token := by
  intro hmem
  cases h.2 _ hmem

theorem of_toNat_le (P : Char → Prop) {bound : Nat} (h : ∀ n ≤ bound, P (Char.ofNat n)) {c : Char}
    (hc : c.toNat ≤ bound) : P c := by
  have hcode := h c.toNat hc
  rwa [Char.ofNat_toNat] at hcode

/-- Letters, digits and the underscore lie above the separators, with the comment sign between. -/
theorem inToken_of_isNameChar {c : Char} (h : Text.isNameChar c = true) : inToken c = true := by
  have hne : c ≠ ' ' ∧ c ≠ ',' ∧ c ≠ ';' := by
    refine ⟨?_, ?_, ?_⟩ <;> rintro rfl <;> revert h <;> decide
  have hcode : 13 < c.toNat := by
    by_contra hle
    have hsmall : Text.isNameChar c = false :=
      of_toNat_le (Text.isNameChar · = false) (by decide) (Nat.le_of_not_lt hle)
    rw [h] at hsmall
    cases hsmall
  simp [inToken, Instruction.isSeparator, Text.isBlank, hne, hcode]

theorem inToken_of_isDigit {c : Char} (h : c.isDigit = true) : inToken c = true :=
  inToken_of_isNameChar (by simp [Text.isNameChar, Char.isAlphanum, h])

theorem isToken_of_isName {name : List Char} (h : Text.isName name = true) : IsToken name := by
  cases name with
  | nil => cases h
  | cons c cs =>
    rw [Text.isName, Bool.and_eq_true, List.all_eq_true] at h
    refine ⟨by simp, fun d hd => inToken_of_isNameChar ?_⟩
    rcases List.mem_cons.1 hd with rfl | hd
    · have hstart := h.1
      simp only [Text.isNameStart, Text.isNameChar, Char.isAlphanum, Bool.or_eq_true] at hstart ⊢
      exact hstart.imp_left .inl
    · exact h.2 d hd

namespace Mnemonic

theorem ofName?_name (m : Mnemonic) : ofName? m.name.toList = some m := by
  rcases m with op | _
  · cases op <;> decide +kernel
  all_goals decide +kernel

theorem isToken_name (m : Mnemonic) : IsToken m.name.toList := by
  apply isToken_of_isName
  rcases m with op | _
  · cases op <;> decide +kernel
  all_goals decide +kernel

end Mnemonic

namespace Instruction

/-- Tokens that are joined by spaces are the tokens of the line, which is all one line. -/
theorem tokens_intercalate {parts : List (List Char)} (h : ∀ part ∈ parts, IsToken part) :
    tokens ([' '].intercalate parts) = parts := by
  have hcomment : ([' '].intercalate parts).takeWhile (· ≠ ';') = [' '].intercalate parts := by
    refine List.takeWhile_eq_self_iff.2 fun c hc => ?_
    rcases Text.mem_intercalate hc with hc | ⟨part, hpart, hc⟩
    · obtain rfl := List.mem_singleton.1 hc
      rfl
    · simpa using (isSeparator_eq_false ((h part hpart).2 c hc)).2
  rw [tokens, hcomment]
  exact Text.pieces_intercalate (List.cons_ne_nil _ _) (by simp [isSeparator, Text.isBlank])
    fun part hpart => (h part hpart).piece

theorem lineFeed_notMem_intercalate {parts : List (List Char)} (h : ∀ part ∈ parts, IsToken part) :
    '\n' ∉ [' '].intercalate parts := by
  intro hmem
  rcases Text.mem_intercalate hmem with hc | ⟨part, hpart, hc⟩
  · cases List.mem_singleton.1 hc
  · exact (h part hpart).lineFeed_notMem hc

end Instruction
end TapeMachine
