import Mathlib.Data.List.DropRight
import TapeMachine.Proofs.Image.Lexemes
import TapeMachine.Proofs.Source.Token

/-! The texts that an image is read from: words with blanks or one comma between them, the whole
between blanks, in square brackets or not. A text of this form is read as its words in their order,
and every other text is refused. -/

namespace TapeMachine

open Text (Blank)

/-- Whether `core` is what is left of a text without the blanks at its two ends. -/
structure Text.Trims (text core : List Char) : Prop where
  around : ∃ before after, Blank before ∧ Blank after ∧ text = before ++ core ++ after
  first : ∀ c, core.head? = some c → isBlank c = false
  last : ∀ c, core.getLast? = some c → isBlank c = false

namespace Image

inductive Separator : List Char → Prop
  | blanks {cs : List Char} (nonempty : cs ≠ []) (blank : Blank cs) : Separator cs
  | comma {before after : List Char} (left : Blank before) (right : Blank after) :
      Separator (before ++ ',' :: after)

/-- One or more words with a separator between any two, and what they are read as. -/
inductive Words : List Char → Image → Prop
  | last {cs : List Char} {w : Word} (word : Word.Numeral cs w) : Words cs [w]
  | cons {cs separator rest : List Char} {w : Word} {ws : Image} (word : Word.Numeral cs w)
      (apart : Separator separator) (others : Words rest ws) :
      Words (cs ++ separator ++ rest) (w :: ws)

inductive Body : List Char → Image → Prop
  | blank {cs : List Char} (blank : Blank cs) : Body cs []
  | words {before cs after : List Char} {image : Image} (left : Blank before)
      (words : Words cs image) (right : Blank after) : Body (before ++ cs ++ after) image

/-- What a text without blanks at its ends holds, with its brackets taken off. A text that opens a
bracket and does not close it holds nothing. -/
inductive Encloses : List Char → List Char → Prop
  | bare {body : List Char} (first : body.head? ≠ some '[') : Encloses body body
  | bracketed {body : List Char} : Encloses ('[' :: body ++ [']']) body

/-- A comma without a word of its own on either side, or something between separators that is no
word. -/
inductive Faulty (body : List Char) : Prop
  | leading {before rest : List Char} (blank : Blank before) (split : body = before ++ ',' :: rest)
  | trailing {rest after : List Char} (blank : Blank after) (split : body = rest ++ ',' :: after)
  | doubled {pre between post : List Char} (blank : Blank between)
      (split : body = pre ++ ',' :: (between ++ ',' :: post))
  | word {pre cs post : List Char} (nonempty : cs ≠ [])
      (inner : ∀ c ∈ cs, Instruction.isSeparator c = false)
      (left : ∀ c, pre.getLast? = some c → Instruction.isSeparator c = true)
      (right : ∀ c, post.head? = some c → Instruction.isSeparator c = true)
      (invalid : ∀ w, ¬ Word.Numeral cs w) (split : body = pre ++ cs ++ post)

theorem isSeparator_of_mem_numeral {cs : List Char} {w : Word} (h : Word.Numeral cs w) {c : Char}
    (hc : c ∈ cs) : Instruction.isSeparator c = false := by
  rcases h.mem hc with rfl | hdigit
  · rfl
  · exact (isSeparator_eq_false (inToken_of_isDigit hdigit)).1

theorem Words.not_ends {cs after : List Char} {image : Image} (h : Words cs image) :
    ¬ Ends (cs ++ after) := by
  have hword {cs rest : List Char} {w : Word} (h : Word.Numeral cs w) : ¬ Ends (cs ++ rest) := by
    intro hends
    obtain ⟨c, cs, rfl⟩ := List.exists_cons_of_ne_nil h.ne_nil
    have hc := hends c rfl
    rw [isSeparator_of_mem_numeral h List.mem_cons_self] at hc
    cases hc
  cases h with
  | last word => exact hword word
  | cons word => rw [List.append_assoc, List.append_assoc]; exact hword word

theorem Sequence.words {ls : List Lexeme} {image : Image} (h : Sequence ls image) {cs : List Char}
    (hcut : Cut cs ls) : ∃ before core after, Blank before ∧ Words core image ∧ Blank after ∧
      cs = before ++ core ++ after := by
  induction h generalizing cs with
  | last word =>
    obtain _ | _ | ⟨hblank, hends, hrest⟩ := hcut
    cases hrest with
    | blank hafter => exact ⟨_, _, _, hblank, .last word, hafter, rfl⟩
  | @blanks cs stop w ls ws word others ih =>
    obtain _ | _ | ⟨hblank, hends, hrest⟩ := hcut
    obtain ⟨before, core, after, hbefore, hcore, hafter, rfl⟩ := ih hrest
    have hne : before ≠ [] := by
      rintro rfl
      exact hcore.not_ends hends
    refine ⟨_, _, _, hblank, .cons word (.blanks hne hbefore) hcore, hafter, ?_⟩
    simp
  | @comma cs stop w ls ws word others ih =>
    obtain _ | _ | ⟨hblank, hends, hrest⟩ := hcut
    obtain _ | ⟨hblank', hrest⟩ | _ := hrest
    obtain ⟨before, core, after, hbefore, hcore, hafter, rfl⟩ := ih hrest
    refine ⟨_, _, _, hblank, .cons word (.comma hblank' hbefore) hcore, hafter, ?_⟩
    simp

theorem Separator.ends {separator : List Char} (h : Separator separator) (rest : List Char) :
    Ends (separator ++ rest) := by
  intro c hc
  cases h with
  | blanks nonempty blank =>
    rw [List.head?_append_of_ne_nil _ nonempty] at hc
    exact ends_of_blank blank c hc
  | @comma before after left right =>
    cases before with
    | nil =>
      cases hc
      rfl
    | cons d before => exact ends_of_blank left c hc

theorem Words.sequence {cs : List Char} {image : Image} (h : Words cs image) {after : List Char}
    (hafter : Blank after) (offset : Nat) : Sequence (lexemes [] offset (cs ++ after)) image := by
  induction h generalizing offset with
  | last word =>
    rw [lexemes_word word.ne_nil (fun c => isSeparator_of_mem_numeral word)
      (ends_of_blank hafter), lexemes_of_blank hafter]
    exact .last word
  | cons word apart others ih =>
    rw [List.append_assoc, List.append_assoc, lexemes_word word.ne_nil
      (fun c => isSeparator_of_mem_numeral word) (apart.ends _)]
    cases apart with
    | blanks nonempty blank =>
      rw [lexemes_blanks blank]
      exact .blanks word (ih _)
    | comma left right =>
      rw [List.append_assoc, lexemes_blanks left, List.cons_append, lexemes_comma, lexemes_blanks right]
      exact .comma word (ih _)

theorem readBody_eq_ok_iff {offset : Nat} {body : List Char} {image : Image} :
    readBody offset body = .ok image ↔ Body body image := by
  rw [readBody, readLexemes_eq_ok_iff]
  have hcut := cut_lexemes offset body
  constructor
  · rintro (⟨hnil, rfl⟩ | hseq)
    · rw [hnil] at hcut
      cases hcut with
      | blank hblank => exact .blank hblank
    · obtain ⟨before, core, after, hbefore, hcore, hafter, rfl⟩ := hseq.words hcut
      exact .words hbefore hcore hafter
  · intro h
    cases h with
    | blank hblank => exact .inl ⟨lexemes_of_blank hblank offset, rfl⟩
    | words left words right =>
      rw [List.append_assoc, lexemes_blanks left]
      exact .inr (words.sequence right _)

theorem Faulty.not_body {body : List Char} (h : Faulty body) (image : Image) : ¬ Body body image := by
  intro hbody
  have hread := readLexemes_eq_ok_iff.1 (readBody_eq_ok_iff.2 hbody : readBody 0 body = .ok image)
  cases h with
  | leading blank split =>
    rw [split, lexemes_blanks blank, lexemes_comma] at hread
    obtain ⟨hnil, -⟩ | hseq := hread
    · cases hnil
    · cases hseq
  | @trailing rest after blank split =>
    obtain ⟨offset', hcs⟩ := lexemes_append_comma rest after 0
    rw [split, hcs, lexemes_of_blank blank] at hread
    obtain ⟨hnil, -⟩ | hseq := hread
    · simp at hnil
    · obtain ⟨ws, hseq⟩ := hseq.behind_comma rfl
      cases hseq
  | @doubled pre between post blank split =>
    obtain ⟨offset', hcs⟩ := lexemes_append_comma pre (between ++ ',' :: post) 0
    rw [split, hcs, lexemes_blanks blank, lexemes_comma] at hread
    obtain ⟨hnil, -⟩ | hseq := hread
    · simp at hnil
    · obtain ⟨ws, hseq⟩ := hseq.behind_comma rfl
      cases hseq
  | @word pre cs post nonempty inner left right invalid split =>
    obtain ⟨offset', ls, hcs⟩ := lexemes_append_of_separated left (cs ++ post) 0
    rw [split, List.append_assoc, hcs, lexemes_word nonempty inner right] at hread
    obtain ⟨hnil, -⟩ | hseq := hread
    · simp at hnil
    · obtain ⟨w, hw⟩ := hseq.exists_numeral (List.mem_append_right _ List.mem_cons_self)
      exact invalid w hw

theorem dropWhile_isBlank_of_head? {cs : List Char}
    (h : ∀ c, cs.head? = some c → Text.isBlank c = false) : cs.dropWhile Text.isBlank = cs := by
  cases cs with
  | nil => rfl
  | cons c cs => rw [List.dropWhile_cons_of_neg (by simp [h c rfl])]

/-- What lies between blanks, and neither starts nor ends with one, is what is left without them. -/
theorem trimRight_dropWhile {before cs after : List Char}
    (hbefore : ∀ c ∈ before, Text.isBlank c = true) (hafter : ∀ c ∈ after, Text.isBlank c = true)
    (hfirst : ∀ c, cs.head? = some c → Text.isBlank c = false)
    (hlast : ∀ c, cs.getLast? = some c → Text.isBlank c = false) :
    trimRight ((before ++ cs ++ after).dropWhile Text.isBlank) = cs := by
  rw [List.append_assoc, List.dropWhile_append_of_pos hbefore]
  cases cs with
  | nil =>
    rw [List.nil_append, List.dropWhile_eq_nil_iff.2 hafter]
    rfl
  | cons c cs =>
    have hbehind : ∀ c ∈ after.reverse, Text.isBlank c = true :=
      fun c hc => hafter c (List.mem_reverse.1 hc)
    have hreverse : (c :: cs).reverse.dropWhile Text.isBlank = (c :: cs).reverse :=
      dropWhile_isBlank_of_head? fun d hd => hlast d (by rwa [List.head?_reverse] at hd)
    have hkept : (c :: cs ++ after).dropWhile Text.isBlank = c :: cs ++ after :=
      dropWhile_isBlank_of_head? fun d hd => hfirst d hd
    rw [hkept, trimRight, List.reverse_append, List.dropWhile_append_of_pos hbehind, hreverse,
      List.reverse_reverse]

theorem exists_trims (text : List Char) : ∃ core, Text.Trims text core := by
  obtain ⟨before, rest, hbefore, rfl, hfirst⟩ := exists_blanks text
  refine ⟨rest.rdropWhile Text.isBlank, ⟨before, rest.rtakeWhile Text.isBlank, hbefore, ?_, ?_⟩, ?_, ?_⟩
  · intro c hc
    exact List.mem_rtakeWhile_imp hc
  · rw [List.append_assoc, List.rdropWhile_append_rtakeWhile]
  · intro c hc
    obtain ⟨after, hrest⟩ := List.rdropWhile_prefix Text.isBlank (l := rest)
    exact hfirst c (hrest ▸ List.mem_head?_append_of_mem_head? hc)
  · intro c hc
    obtain ⟨hne, rfl⟩ := List.mem_getLast?_eq_getLast hc
    simpa using List.rdropWhile_last_not Text.isBlank rest hne

theorem encloses_cons_iff {inner body : List Char} :
    Encloses ('[' :: inner) body ↔ inner = body ++ [']'] := by
  constructor
  · intro h
    cases h with
    | bare first => exact absurd rfl first
    | bracketed => rfl
  · rintro rfl
    exact .bracketed

theorem encloses_iff_eq {core body : List Char} (h : core.head? ≠ some '[') :
    Encloses core body ↔ core = body := by
  constructor
  · intro henclosed
    cases henclosed with
    | bare => rfl
    | bracketed => exact absurd rfl h
  · rintro rfl
    exact .bare h

theorem Encloses.unique {core body body' : List Char} (h : Encloses core body)
    (h' : Encloses core body') : body = body' := by
  cases h with
  | bare first => exact (encloses_iff_eq first).1 h'
  | bracketed => exact List.append_cancel_right (encloses_cons_iff.1 h')

theorem read_eq_ok_iff {text : String} {core : List Char} (h : Text.Trims text.toList core)
    (image : Image) : read text = .ok image ↔ ∃ body, Encloses core body ∧ Body body image := by
  obtain ⟨⟨before, after, hbefore, hafter, hsplit⟩, hfirst, hlast⟩ := h
  have htrim : trimRight (text.toList.dropWhile Text.isBlank) = core := by
    rw [hsplit]
    exact trimRight_dropWhile hbefore hafter hfirst hlast
  unfold read
  dsimp only
  rw [htrim]
  split
  · rename_i inner
    simp only [encloses_cons_iff]
    split
    · rename_i hclosed
      obtain ⟨body, rfl⟩ := List.getLast?_eq_some_iff.1 hclosed
      rw [List.dropLast_concat, readBody_eq_ok_iff]
      simp
    · rename_i hopen
      constructor
      · intro herror
        cases herror
      · rintro ⟨body, rfl, -⟩
        exact absurd List.getLast?_concat hopen
  · rename_i hbare
    have hhead : core.head? ≠ some '[' := by
      intro hhead
      obtain ⟨inner, hinner⟩ := List.head?_eq_some_iff.1 hhead
      exact hbare inner hinner
    simp only [encloses_iff_eq hhead, exists_eq_left', readBody_eq_ok_iff]

/-- A text is read just where what is left of it, without the blanks at its ends and a pair of brackets,
is of the form of a body, and as the words of that body. No stray comma and nothing that is no word is
let through, wherever it stands. -/
theorem read_of_trims (text : String) :
    (∃ core, Text.Trims text.toList core) ∧
    ∀ core, Text.Trims text.toList core →
      (∀ image, read text = .ok image ↔ ∃ body, Encloses core body ∧ Body body image) ∧
      ∀ body, Encloses core body → Faulty body → ∃ e, read text = .error e := by
  refine ⟨exists_trims text.toList, ?_⟩
  intro core hcore
  refine ⟨read_eq_ok_iff hcore, ?_⟩
  intro body hbody hfaulty
  cases hread : read text with
  | error e => exact ⟨e, rfl⟩
  | ok image =>
    obtain ⟨body', hbody', himage⟩ := (read_eq_ok_iff hcore image).1 hread
    rw [← hbody.unique hbody'] at himage
    exact absurd himage (hfaulty.not_body image)

example : read " [ 1 ,-2\n03 ] " = .ok [1, -2, 3] := by rfl

example : read "1, ,2" = .error .emptyWord := by rfl

end Image
end TapeMachine
