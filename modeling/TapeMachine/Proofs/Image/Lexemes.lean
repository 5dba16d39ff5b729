import Mathlib.Data.List.Basic
import Mathlib.Data.List.TakeWhile
import TapeMachine.Image.Reader
import TapeMachine.Proofs.Word.Decimal
import TapeMachine.Source.Program

/-! The lexemes of an image text. A text is cut into its lexemes at blanks and commas, and what is cut
out is read as words just where these follow each other with no more than a comma in between. -/

namespace TapeMachine

namespace Text

/-- Whether a text holds nothing but blanks, perhaps none. -/
def Blank (cs : List Char) : Prop := ∀ c ∈ cs, isBlank c = true

theorem blank_nil : Blank [] := List.forall_mem_nil _

end Text

open Text (Blank)

namespace Image

/-- Where a text cannot go on with the word before it. -/
def Ends (rest : List Char) : Prop := ∀ c, rest.head? = some c → Instruction.isSeparator c = true

theorem isSeparator_of_isBlank {c : Char} (h : Text.isBlank c = true) :
    Instruction.isSeparator c = true := by
  simp [Instruction.isSeparator, h]

theorem lexemes_comma (offset : Nat) (cs : List Char) :
    lexemes [] offset (',' :: cs) = .comma :: lexemes [] (offset + ','.utf8Size) cs := rfl

theorem lexemes_blanks {blanks : List Char} (h : Blank blanks) (offset : Nat) (cs : List Char) :
    lexemes [] offset (blanks ++ cs) = lexemes [] (offset + Text.bytes blanks) cs := by
  induction blanks generalizing offset with
  | nil => rfl
  | cons c blanks ih =>
    have hc : Text.isBlank c = true := h c List.mem_cons_self
    have hcomma : c ≠ ',' := by
      rintro rfl
      cases hc
    have hbytes : offset + Text.bytes (c :: blanks) = offset + c.utf8Size + Text.bytes blanks :=
      (Nat.add_assoc _ _ _).symm
    rw [List.cons_append, lexemes, if_neg hcomma, if_pos hc, ih fun d hd => h d (List.mem_cons_of_mem _ hd),
      hbytes]
    rfl

theorem ends_of_blank {blanks : List Char} (h : Blank blanks) : Ends blanks :=
  fun c hc => isSeparator_of_isBlank (h c (List.mem_of_head? hc))

theorem lexemes_of_blank {blanks : List Char} (h : Blank blanks) (offset : Nat) :
    lexemes [] offset blanks = [] := by
  rw [← List.append_nil blanks, lexemes_blanks h]
  rfl

/-- A word is complete where the text cannot go on with it. -/
theorem lexemes_of_ends {rest : List Char} (h : Ends rest) (reversed : List Char) (offset : Nat) :
    lexemes reversed offset rest = pending reversed offset ++ lexemes [] offset rest := by
  cases rest with
  | nil => simp [lexemes, pending]
  | cons c rest =>
    have hc := h c rfl
    rw [Instruction.isSeparator, Bool.or_eq_true] at hc
    by_cases hcomma : c = ','
    · simp [lexemes, hcomma, pending]
    · have hblank : Text.isBlank c = true := by simpa [hcomma] using hc
      simp [lexemes, hcomma, hblank, pending]

theorem lexemes_append {cs : List Char} (h : ∀ c ∈ cs, Instruction.isSeparator c = false)
    (reversed : List Char) (offset : Nat) (rest : List Char) :
    lexemes reversed offset (cs ++ rest) =
      lexemes (cs.reverse ++ reversed) (offset + Text.bytes cs) rest := by
  induction cs generalizing reversed offset with
  | nil => rfl
  | cons c cs ih =>
    rw [List.forall_mem_cons] at h
    obtain ⟨hc, hcs⟩ := h
    rw [Instruction.isSeparator, Bool.or_eq_false_iff] at hc
    have hcomma : ¬ c = ',' := by simpa using hc.2
    have hblank : ¬ Text.isBlank c = true := by simp [hc.1]
    have hbytes : offset + Text.bytes (c :: cs) = offset + c.utf8Size + Text.bytes cs :=
      (Nat.add_assoc _ _ _).symm
    rw [List.cons_append, lexemes, if_neg hcomma, if_neg hblank, ih hcs, hbytes, List.reverse_cons,
      List.append_assoc, List.singleton_append]

theorem lexemes_word {cs rest : List Char} (hne : cs ≠ [])
    (h : ∀ c ∈ cs, Instruction.isSeparator c = false) (hrest : Ends rest) (offset : Nat) :
    lexemes [] offset (cs ++ rest) =
      .word cs (offset + Text.bytes cs) :: lexemes [] (offset + Text.bytes cs) rest := by
  rw [lexemes_append h, lexemes_of_ends hrest]
  simp [pending, hne]

/-- A text cut at its separators: blanks before each of its lexemes. -/
inductive Cut : List Char → List Lexeme → Prop
  | blank {blanks : List Char} (blank : Blank blanks) : Cut blanks []
  | comma {blanks rest : List Char} {ls : List Lexeme} (blank : Blank blanks) (others : Cut rest ls) :
      Cut (blanks ++ ',' :: rest) (.comma :: ls)
  | word {blanks cs rest : List Char} {stop : Nat} {ls : List Lexeme} (blank : Blank blanks)
      (ends : Ends rest) (others : Cut rest ls) : Cut (blanks ++ cs ++ rest) (.word cs stop :: ls)

theorem exists_blanks (cs : List Char) :
    ∃ blanks rest, Blank blanks ∧ cs = blanks ++ rest ∧
      ∀ c, rest.head? = some c → Text.isBlank c = false := by
  refine ⟨cs.takeWhile Text.isBlank, cs.dropWhile Text.isBlank, ?_, ?_, ?_⟩
  · intro c hc
    exact List.mem_takeWhile_imp hc
  · exact List.takeWhile_append_dropWhile.symm
  · intro c hc
    simpa [hc] using List.head?_dropWhile_not Text.isBlank cs

theorem exists_word (cs : List Char) :
    ∃ word rest, (∀ c ∈ word, Instruction.isSeparator c = false) ∧ Ends rest ∧ cs = word ++ rest := by
  refine ⟨cs.takeWhile (!Instruction.isSeparator ·), cs.dropWhile (!Instruction.isSeparator ·), ?_, ?_, ?_⟩
  · intro c hc
    simpa using List.mem_takeWhile_imp hc
  · intro c hc
    simpa [hc] using List.head?_dropWhile_not (!Instruction.isSeparator ·) cs
  · exact List.takeWhile_append_dropWhile.symm

theorem cut_lexemes (offset : Nat) (cs : List Char) : Cut cs (lexemes [] offset cs) := by
  -- what is left behind the first lexeme is shorter, wherever it starts
  induction hn : cs.length using Nat.strong_induction_on generalizing cs offset with
  | _ n ih =>
    obtain ⟨blanks, rest, hblank, rfl, hfirst⟩ := exists_blanks cs
    rw [lexemes_blanks hblank]
    cases rest with
    | nil =>
      rw [List.append_nil]
      exact .blank hblank
    | cons c rest =>
      simp only [List.length_append, List.length_cons] at hn
      by_cases hcomma : c = ','
      · subst hcomma
        rw [lexemes_comma]
        exact .comma hblank (ih _ (by omega) _ _ rfl)
      · obtain ⟨word, post, hword, hends, hsplit⟩ := exists_word (c :: rest)
        have hne : word ≠ [] := by
          rintro rfl
          obtain rfl : c :: rest = post := hsplit
          have hsep := hends c rfl
          simp [Instruction.isSeparator, hfirst c rfl, hcomma] at hsep
        have hlength : (c :: rest).length = word.length + post.length := by
          rw [hsplit, List.length_append]
        have hpos := List.length_pos_iff.2 hne
        simp only [List.length_cons] at hlength
        rw [hsplit, lexemes_word hne hword hends, ← List.append_assoc]
        exact .word hblank hends (ih _ (by omega) _ _ rfl)

/-- Lexemes are cut apart where a word is complete. -/
theorem lexemes_append_of_ends {rest : List Char} (h : Ends rest) (cs reversed : List Char)
    (offset : Nat) : ∃ offset', lexemes reversed offset (cs ++ rest) =
      lexemes reversed offset cs ++ lexemes [] offset' rest := by
  induction cs generalizing reversed offset with
  | nil => exact ⟨offset, lexemes_of_ends h reversed offset⟩
  | cons c cs ih =>
    rw [List.cons_append]
    simp only [lexemes]
    split
    · obtain ⟨offset', hcs⟩ := ih [] (offset + c.utf8Size)
      exact ⟨offset', by rw [hcs]; simp⟩
    · split
      · obtain ⟨offset', hcs⟩ := ih [] (offset + c.utf8Size)
        exact ⟨offset', by rw [hcs]; simp⟩
      · exact ih (c :: reversed) (offset + c.utf8Size)

theorem lexemes_append_comma (cs rest : List Char) (offset : Nat) :
    ∃ offset', lexemes [] offset (cs ++ ',' :: rest) =
      lexemes [] offset cs ++ .comma :: lexemes [] offset' rest := by
  have hends : Ends (',' :: rest) := by
    rintro c ⟨⟩
    rfl
  obtain ⟨offset', hcs⟩ := lexemes_append_of_ends hends cs [] offset
  exact ⟨_, by rw [hcs, lexemes_comma]⟩

theorem lexemes_append_of_separated {pre : List Char}
    (h : ∀ c, pre.getLast? = some c → Instruction.isSeparator c = true) (rest : List Char)
    (offset : Nat) : ∃ offset' ls, lexemes [] offset (pre ++ rest) = ls ++ lexemes [] offset' rest := by
  rcases pre.eq_nil_or_concat' with rfl | ⟨pre, c, rfl⟩
  · exact ⟨offset, [], rfl⟩
  · have hc : Instruction.isSeparator c = true := h c (by simp)
    rw [List.append_assoc, List.singleton_append]
    by_cases hcomma : c = ','
    · subst hcomma
      obtain ⟨offset', hcs⟩ := lexemes_append_comma pre rest offset
      exact ⟨offset', lexemes [] offset pre ++ [.comma], by rw [hcs]; simp⟩
    · have hblank : Blank [c] := by simpa [Blank, Instruction.isSeparator, hcomma] using hc
      have hends : Ends ([c] ++ rest) := by
        rintro d ⟨⟩
        exact hc
      obtain ⟨offset', hcs⟩ := lexemes_append_of_ends hends pre [] offset
      exact ⟨_, lexemes [] offset pre, by rw [← List.singleton_append, hcs, lexemes_blanks hblank]⟩

/-- Words with no more than a comma between any two. -/
inductive Sequence : List Lexeme → Image → Prop
  | last {cs : List Char} {stop : Nat} {w : Word} (word : Word.Numeral cs w) :
      Sequence [.word cs stop] [w]
  | blanks {cs : List Char} {stop : Nat} {w : Word} {ls : List Lexeme} {ws : Image}
      (word : Word.Numeral cs w) (others : Sequence ls ws) : Sequence (.word cs stop :: ls) (w :: ws)
  | comma {cs : List Char} {stop : Nat} {w : Word} {ls : List Lexeme} {ws : Image}
      (word : Word.Numeral cs w) (others : Sequence ls ws) :
      Sequence (.word cs stop :: .comma :: ls) (w :: ws)

theorem Sequence.readLexemes {ls : List Lexeme} {ws : Image} (h : Sequence ls ws) (words : List Word)
    (afterComma : Bool) : readLexemes words afterComma ls = .ok (words.reverse ++ ws) := by
  induction h generalizing words afterComma with
  | last word =>
    rw [Image.readLexemes, word.ofDecimal?]
    simp [Image.readLexemes]
  | @blanks cs stop w ls ws word others ih =>
    rw [Image.readLexemes, word.ofDecimal?]
    simpa using ih (w :: words) false
  | @comma cs stop w ls ws word others ih =>
    rw [Image.readLexemes, word.ofDecimal?]
    simpa [Image.readLexemes] using ih (w :: words) true

/-- What is read behind some words is a sequence, perhaps with a comma in front, or nothing. -/
theorem sequence_of_readLexemes {words : List Word} {afterComma : Bool} {ls : List Lexeme}
    {image : Image} (h : readLexemes words afterComma ls = .ok image) :
    ∃ ws, image = words.reverse ++ ws ∧
      (Sequence ls ws ∨ afterComma = false ∧
        (ls = [] ∧ ws = [] ∨ words ≠ [] ∧ ∃ rest, ls = .comma :: rest ∧ Sequence rest ws)) := by
  induction ls generalizing words afterComma with
  | nil =>
    cases afterComma with
    | true => cases h
    | false =>
      cases h
      exact ⟨[], by simp, .inr ⟨rfl, .inl ⟨rfl, rfl⟩⟩⟩
  | cons l ls ih =>
    cases l with
    | comma =>
      rw [readLexemes] at h
      split at h
      · cases h
      · rename_i hstate
        obtain ⟨hcomma, hwords⟩ : afterComma = false ∧ words ≠ [] := by simpa using hstate
        obtain ⟨ws, rfl, hrest⟩ := ih h
        have hseq : Sequence ls ws := by simpa using hrest
        exact ⟨ws, rfl, .inr ⟨hcomma, .inr ⟨hwords, ls, rfl, hseq⟩⟩⟩
    | word cs stop =>
      rw [readLexemes] at h
      cases hw : Word.ofDecimal? cs with
      | none =>
        rw [hw] at h
        cases h
      | some w =>
        rw [hw] at h
        have hword := Word.ofDecimal?_eq_some_iff.1 hw
        obtain ⟨ws, rfl, hrest⟩ := ih h
        refine ⟨w :: ws, by simp, .inl ?_⟩
        rcases hrest with hrest | ⟨-, ⟨rfl, rfl⟩ | ⟨-, rest, rfl, hrest⟩⟩
        · exact .blanks hword hrest
        · exact .last hword
        · exact .comma hword hrest

theorem readLexemes_eq_ok_iff {ls : List Lexeme} {image : Image} :
    readLexemes [] false ls = .ok image ↔ ls = [] ∧ image = [] ∨ Sequence ls image := by
  constructor
  · intro h
    obtain ⟨ws, rfl, hseq | ⟨-, hnil | ⟨hne, -⟩⟩⟩ := sequence_of_readLexemes h
    · exact .inr hseq
    · exact .inl hnil
    · exact absurd rfl hne
  · rintro (⟨rfl, rfl⟩ | h)
    · rfl
    · exact h.readLexemes [] false

theorem Sequence.behind_comma {ls : List Lexeme} {image : Image} (h : Sequence ls image)
    {pre rest : List Lexeme} (hsplit : ls = pre ++ .comma :: rest) : ∃ ws, Sequence rest ws := by
  induction h generalizing pre with
  | last => rcases pre with _ | ⟨_, _ | ⟨_, pre⟩⟩ <;> cases hsplit
  | blanks _ _ ih =>
    rcases pre with _ | ⟨l, pre⟩
    · cases hsplit
    · exact ih (List.cons.inj hsplit).2
  | comma _ others ih =>
    rcases pre with _ | ⟨l, _ | ⟨l', pre⟩⟩
    · cases hsplit
    · cases hsplit
      exact ⟨_, others⟩
    · exact ih (List.cons.inj (List.cons.inj hsplit).2).2

theorem Sequence.exists_numeral {ls : List Lexeme} {image : Image} (h : Sequence ls image)
    {cs : List Char} {stop : Nat} (hmem : .word cs stop ∈ ls) : ∃ w, Word.Numeral cs w := by
  induction h with
  | last word =>
    cases List.mem_singleton.1 hmem
    exact ⟨_, word⟩
  | blanks word others ih =>
    rcases List.mem_cons.1 hmem with heq | hmem
    · cases heq
      exact ⟨_, word⟩
    · exact ih hmem
  | comma word others ih =>
    rcases List.mem_cons.1 hmem with heq | hmem
    · cases heq
      exact ⟨_, word⟩
    · exact ih (List.mem_of_ne_of_mem (by simp) hmem)

end Image
end TapeMachine
