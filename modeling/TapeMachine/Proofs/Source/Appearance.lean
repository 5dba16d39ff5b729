import Mathlib.Logic.Relation
import TapeMachine.Proofs.Source.Lines

/-! How a text looks does not matter for what it says. Separators keep tokens apart, however many there
are and whichever; nothing of a comment is read; a mnemonic is the same in small letters and in capitals;
and the last line may end with a line feed or without one. -/

namespace TapeMachine

namespace Text

theorem splitOnP_append {isSeparator : Char → Bool} {word cs head : List Char} {tail : List (List Char)}
    (hword : ∀ c ∈ word, isSeparator c = false) (h : cs.splitOnP isSeparator = head :: tail) :
    (word ++ cs).splitOnP isSeparator = (word ++ head) :: tail := by
  induction word with
  | nil => exact h
  | cons c word ih =>
    rw [List.forall_mem_cons] at hword
    rw [List.cons_append, List.splitOnP_cons_eq_if_modifyHead, if_neg (by simp [hword.1]), ih hword.2]
    rfl

theorem exists_pieces_append (isSeparator : Char → Bool) (cs : List Char) :
    ∃ head tail, ∀ word : List Char, word ≠ [] → (∀ c ∈ word, isSeparator c = false) →
      pieces isSeparator (word ++ cs) = (word ++ head) :: tail := by
  obtain ⟨head, tail, hsplit⟩ := List.exists_cons_of_ne_nil (List.splitOnP_ne_nil isSeparator cs)
  refine ⟨head, tail.filter fun piece => !piece.isEmpty, fun word hne hword => ?_⟩
  simp [pieces, splitOnP_append hword hsplit, hne]

end Text

/-- Letters are in a token in either case, and nothing else has a case. -/
theorem inToken_toUpper (c : Char) : inToken c.toUpper = inToken c := by
  by_cases hle : c.toNat ≤ 122
  · exact of_toNat_le (fun c => inToken c.toUpper = inToken c) (by decide +kernel) hle
  · have hself : c.toUpper = c := dif_neg fun h => hle h.2
    rw [hself]

theorem forall_inToken_congr {word word' : List Char}
    (h : word.map Char.toUpper = word'.map Char.toUpper) :
    (∀ c ∈ word, inToken c = true) ↔ ∀ c ∈ word', inToken c = true := by
  have hmap (cs : List Char) :
      (∀ c ∈ cs.map Char.toUpper, inToken c = true) ↔ ∀ c ∈ cs, inToken c = true := by
    simp [inToken_toUpper]
  rw [← hmap, h, hmap]

theorem Mnemonic.ofName?_congr {word word' : List Char}
    (h : word.map Char.toUpper = word'.map Char.toUpper) : ofName? word = ofName? word' := by
  rw [ofName?, ofName?, h]

def Error.place (e : Error) : ErrorKind × UInt32 := (e.kind, e.line)

namespace Instruction

def separators : List Char := [' ', '\t', '\x0b', '\x0c', '\r', ',']

/-- A run of separators, which may be empty. -/
def Gap (cs : List Char) : Prop := ∀ c ∈ cs, c ∈ separators

instance (cs : List Char) : Decidable (Gap cs) := List.decidableBAll _ cs

theorem Gap.isSeparator {gap : List Char} (h : Gap gap) : ∀ c ∈ gap, isSeparator c = true := by
  have hall : ∀ c ∈ separators, Instruction.isSeparator c = true := by
    simp [separators, Instruction.isSeparator, Text.isBlank]
  exact fun c hc => hall c (h c hc)

theorem Gap.ne_comment {gap : List Char} (h : Gap gap) : ∀ c ∈ gap, decide (c ≠ ';') = true := by
  have hall : ∀ c ∈ separators, decide (c ≠ ';') = true := by simp [separators]
  exact fun c hc => hall c (h c hc)

/-- One edit of the way a line looks. Done backwards, an edit takes away what it adds, so that whatever
stands before a comment is edited while the comment is away. -/
inductive Edit : List Char → List Char → Prop
  | between (before gap gap' after : List Char) (hgap : Gap gap) (hne : gap ≠ []) (hgap' : Gap gap')
      (hne' : gap' ≠ []) : Edit (before ++ (gap ++ after)) (before ++ (gap' ++ after))
  | leading (gap rest : List Char) (hgap : Gap gap) : Edit rest (gap ++ rest)
  | trailing (code gap : List Char) (hgap : Gap gap) : Edit code (code ++ gap)
  | comment (code text : List Char) : Edit code (code ++ ';' :: text)
  /-- Of the first token, or of its first letters. -/
  | letters (gap word word' rest : List Char) (hgap : Gap gap) (hword : ∀ c ∈ word, inToken c = true)
      (hsame : word.map Char.toUpper = word'.map Char.toUpper) :
      Edit (gap ++ (word ++ rest)) (gap ++ (word' ++ rest))

theorem tokens_comment (code text : List Char) : tokens (code ++ ';' :: text) = tokens code := by
  rw [tokens, tokens, List.takeWhile_append]
  split
  · rename_i hlength
    rw [(List.takeWhile_prefix _).eq_of_length hlength]
    simp
  · rfl

theorem tokens_leading {gap : List Char} (hgap : Gap gap) (rest : List Char) :
    tokens (gap ++ rest) = tokens rest := by
  rw [tokens, List.takeWhile_append_of_pos hgap.ne_comment, Text.pieces_append hgap.isSeparator]
  rfl

theorem tokens_gap {gap : List Char} (hgap : Gap gap) (hne : gap ≠ []) (before after : List Char) :
    tokens (before ++ (gap ++ after)) = tokens before ++ if ';' ∈ before then [] else tokens after := by
  by_cases hmem : ';' ∈ before
  · obtain ⟨code, text, rfl⟩ := List.append_of_mem hmem
    rw [if_pos hmem, List.append_nil, List.append_assoc, List.cons_append, tokens_comment, tokens_comment]
  · have hcode : ∀ c ∈ before, decide (c ≠ ';') = true := by
      intro c hc
      rw [decide_eq_true_iff]
      rintro rfl
      exact hmem hc
    obtain ⟨c, gap, rfl⟩ := List.exists_cons_of_ne_nil hne
    have hgap' : Gap gap := fun d hd => hgap d (List.mem_cons_of_mem _ hd)
    have hself : before.takeWhile (· ≠ ';') = before := List.takeWhile_eq_self_iff.2 hcode
    rw [if_neg hmem, tokens, List.takeWhile_append_of_pos hcode,
      List.takeWhile_append_of_pos hgap.ne_comment, List.cons_append,
      Text.pieces_separated (hgap.isSeparator c List.mem_cons_self),
      Text.pieces_append hgap'.isSeparator, tokens, tokens, hself]

theorem tokens_trailing {gap : List Char} (hgap : Gap gap) (code : List Char) :
    tokens (code ++ gap) = tokens code := by
  by_cases hnil : gap = []
  · rw [hnil, List.append_nil]
  · have htokens := tokens_gap hgap hnil code []
    rwa [List.append_nil, show tokens [] = [] from rfl, ite_self, List.append_nil] at htokens

/-- What a line says, however it looks: its tokens, with the first one in capitals. -/
def gist (chars : List Char) : List (List Char) := (tokens chars).modifyHead (List.map Char.toUpper)

theorem gist_letters {word word' : List Char} (hword : ∀ c ∈ word, inToken c = true)
    (hsame : word.map Char.toUpper = word'.map Char.toUpper) (rest : List Char) :
    gist (word ++ rest) = gist (word' ++ rest) := by
  by_cases hnil : word = []
  · have hnil' : word' = [] := by simpa [hnil] using hsame
    rw [hnil, hnil']
  · have hnil' : word' ≠ [] := by
      rintro rfl
      exact hnil (by simpa using hsame)
    obtain ⟨head, tail, hpieces⟩ := Text.exists_pieces_append isSeparator (rest.takeWhile (· ≠ ';'))
    have htokens (w : List Char) (hne : w ≠ []) (hw : ∀ c ∈ w, inToken c = true) :
        tokens (w ++ rest) = (w ++ head) :: tail := by
      have hcode : ∀ c ∈ w, decide (c ≠ ';') = true := fun c hc =>
        decide_eq_true (isSeparator_eq_false (hw c hc)).2
      rw [tokens, List.takeWhile_append_of_pos hcode, hpieces w hne (IsToken.piece ⟨hne, hw⟩).2]
    rw [gist, gist, htokens word hnil hword,
      htokens word' hnil' ((forall_inToken_congr hsame).1 hword), List.modifyHead_cons,
      List.modifyHead_cons, List.map_append, List.map_append, hsame]

theorem Edit.gist_eq {chars chars' : List Char} (h : Edit chars chars') : gist chars = gist chars' := by
  cases h with
  | between before gap gap' after hgap hne hgap' hne' =>
    rw [gist, gist, tokens_gap hgap hne, tokens_gap hgap' hne']
  | leading gap rest hgap => rw [gist, gist, tokens_leading hgap]
  | trailing code gap hgap => rw [gist, gist, tokens_trailing hgap]
  | comment code text => rw [gist, gist, tokens_comment]
  | letters gap word word' rest hgap hword hsame =>
    have hrest := gist_letters hword hsame rest
    rw [gist, gist] at hrest ⊢
    rw [tokens_leading hgap, tokens_leading hgap, hrest]

/-- A mnemonic that is known in one case is known in another, and one that is not is refused in both. -/
theorem readLine_gist {chars chars' : List Char} (h : gist chars = gist chars') (line : UInt32) :
    (readLine chars line).mapError Error.place = (readLine chars' line).mapError Error.place := by
  rw [gist, gist] at h
  unfold readLine
  generalize tokens chars = words at h ⊢
  generalize tokens chars' = words' at h ⊢
  rcases words with _ | ⟨word, arguments⟩ <;> rcases words' with _ | ⟨word', arguments'⟩
  · rfl
  · cases h
  · cases h
  · obtain ⟨hword, rfl⟩ := List.cons.inj h
    simp only [readTokens, Mnemonic.ofName?_congr hword]
    cases Mnemonic.ofName? word' <;> rfl

end Instruction

namespace Program

theorem readLines_congr {chars chars' : List Char} (before after : List (List Char)) (k : Nat)
    (h : ∀ line, (Instruction.readLine chars line).mapError Error.place =
      (Instruction.readLine chars' line).mapError Error.place) :
    (readLines ((before ++ chars :: after).zipIdx k)).mapError Error.place =
      (readLines ((before ++ chars' :: after).zipIdx k)).mapError Error.place := by
  simp only [List.zipIdx_append, List.zipIdx_cons, readLines_append, readLines_cons, mapError_bind, h]

theorem read_ending (text : String) : read (text ++ "\n") = read text := by
  have hread := read_append text "" rfl
  rw [String.append_empty] at hread
  rw [hread, show read "" = .ok [] from rfl]
  rcases read text with e | p
  · rfl
  · exact congrArg Except.ok p.append_nil

/-- One edit of the way a text looks: that of one of its lines, or that of its end. -/
inductive Edit : String → String → Prop
  | line (text text' : String) (before after : List (List Char)) (chars chars' : List Char)
      (htext : text.toList.splitOn '\n' = before ++ chars :: after)
      (htext' : text'.toList.splitOn '\n' = before ++ chars' :: after)
      (h : Instruction.Edit chars chars') : Edit text text'
  | ending (text : String) : Edit text (text ++ "\n")

theorem Edit.mapError_read {text text' : String} (h : Edit text text') :
    (read text).mapError Error.place = (read text').mapError Error.place := by
  cases h with
  | line _ before after _ _ htext htext' h =>
    rw [read_eq_readLines, read_eq_readLines, htext, htext']
    exact readLines_congr before after 1 (Instruction.readLine_gist h.gist_eq)
  | ending => rw [read_ending]

/-- Texts that differ only in their looks are read as the same program, or have a fault of the same kind
on the same line. -/
theorem read_restyled {text text' : String} (h : Relation.EqvGen Edit text text') :
    (∃ p, read text = .ok p ∧ read text' = .ok p) ∨
      ∃ e e', read text = .error e ∧ read text' = .error e' ∧ e.kind = e'.kind ∧ e.line = e'.line := by
  have hread : (read text).mapError Error.place = (read text').mapError Error.place := by
    induction h with
    | rel _ _ h => exact h.mapError_read
    | refl _ => rfl
    | symm _ _ _ ih => exact ih.symm
    | trans _ _ _ _ _ ih ih' => exact ih.trans ih'
  generalize read text = r at hread ⊢
  generalize read text' = r' at hread ⊢
  rcases r with e | p <;> rcases r' with e' | p'
  · obtain ⟨hkind, hline⟩ := Prod.mk.inj (Except.error.inj hread)
    exact .inr ⟨e, e', rfl, rfl, hkind, hline⟩
  · cases hread
  · cases hread
  · exact .inl ⟨p, rfl, congrArg Except.ok (Except.ok.inj hread).symm⟩

/-- Spelled with a mnemonic in small letters, with a comment and with line feeds after carriage returns. -/
theorem read_restyled_commented :
    Relation.EqvGen Edit "LBL x\nOUT 7" "lbl\t,x;y\nOUT 7\r\n" ∧
      read "lbl\t,x;y\nOUT 7\r\n" = .ok [(Instruction.ofLabel "x").onLine 1,
        { mnemonic := .op .output, operands := [Operand.imm 7], line := 2 }] := by
  have hletters : Edit "LBL x\nOUT 7" "lbl x\nOUT 7" :=
    .line _ _ [] ["OUT 7".toList] _ _ (by decide +kernel) (by decide +kernel)
      (.letters [] "LBL".toList "lbl".toList " x".toList (by decide)
        (isToken_of_isName (by decide +kernel)).2 (by decide +kernel))
  have hbetween : Edit "lbl x\nOUT 7" "lbl\t,x\nOUT 7" :=
    .line _ _ [] ["OUT 7".toList] _ _ (by decide +kernel) (by decide +kernel)
      (.between "lbl".toList [' '] ['\t', ','] "x".toList (by decide) (by decide) (by decide) (by decide))
  have hcomment : Edit "lbl\t,x\nOUT 7" "lbl\t,x;y\nOUT 7" :=
    .line _ _ [] ["OUT 7".toList] _ _ (by decide +kernel) (by decide +kernel)
      (.comment "lbl\t,x".toList "y".toList)
  have htrailing : Edit "lbl\t,x;y\nOUT 7" "lbl\t,x;y\nOUT 7\r" :=
    .line _ _ ["lbl\t,x;y".toList] [] _ _ (by decide +kernel) (by decide +kernel)
      (.trailing "OUT 7".toList ['\r'] (by decide))
  have hending : Edit "lbl\t,x;y\nOUT 7\r" "lbl\t,x;y\nOUT 7\r\n" := .ending _
  have hedits : Relation.EqvGen Edit "LBL x\nOUT 7" "lbl\t,x;y\nOUT 7\r\n" :=
    .trans _ _ _ (.rel _ _ hletters) <| .trans _ _ _ (.rel _ _ hbetween) <|
      .trans _ _ _ (.rel _ _ hcomment) <| .trans _ _ _ (.rel _ _ htrailing) (.rel _ _ hending)
  have hplain : read "LBL x\nOUT 7" = .ok [(Instruction.ofLabel "x").onLine 1,
      { mnemonic := .op .output, operands := [Operand.imm 7], line := 2 }] := by decide +kernel
  refine ⟨hedits, ?_⟩
  rcases read_restyled hedits with ⟨p, hp, hp'⟩ | ⟨e, e', he, -⟩
  · rw [hp', ← hp, hplain]
  · rw [hplain] at he
    cases he

end Program
end TapeMachine
