import Mathlib.Data.List.Basic
import TapeMachine.Image.Listing
import TapeMachine.Proofs.Source.Operand

/-! The text of a listing is as good as the listing. Its lines can be told apart, and so can the address,
the name and the operands within a line. -/

namespace TapeMachine

theorem Opcode.name_injective : Function.Injective Opcode.name := by
  intro opcode opcode' h
  have hread := Mnemonic.ofName?_name (.op opcode)
  rw [Mnemonic.name, h] at hread
  have hread' := Mnemonic.ofName?_name (.op opcode')
  rw [Mnemonic.name, hread] at hread'
  exact Mnemonic.op.inj (Option.some.inj hread')

theorem Word.decimal_injective : Function.Injective Word.decimal := by
  intro w w' h
  have hread := Word.ofDecimal?_decimal w
  rw [h, Word.ofDecimal?_decimal] at hread
  exact (Option.some.inj hread).symm

namespace ListedOperand

theorem toList_format (o : ListedOperand) :
    o.format.toList =
      match o.mode with
      | .position => '[' :: (o.word.decimal.toList ++ [']'])
      | .immediate => o.word.decimal.toList
      | .relative => 'r' :: 'b' :: '[' :: (o.word.decimal.toList ++ [']']) := by
  cases hm : o.mode <;> simp [format, hm]

theorem isToken_format (o : ListedOperand) : IsToken o.format.toList := by
  have hdecimal := isToken_decimal o.word
  have hclosed : IsToken (o.word.decimal.toList ++ [']']) :=
    IsToken.append_left ⟨List.cons_ne_nil _ _, List.forall_mem_singleton.2 rfl⟩ hdecimal.2
  rw [toList_format]
  cases o.mode with
  | position => exact hclosed.cons rfl
  | immediate => exact hdecimal
  | relative => exact ((hclosed.cons rfl).cons rfl).cons rfl

theorem bracket_mem_format (o : ListedOperand) : '[' ∈ o.format.toList ↔ o.mode ≠ .immediate := by
  have hword : '[' ∉ o.word.decimal.toList := Word.notMem_decimal _ rfl (by decide)
  rw [toList_format]
  cases o.mode <;> simp [hword]

theorem letter_mem_format (o : ListedOperand) : 'r' ∈ o.format.toList ↔ o.mode = .relative := by
  have hword : 'r' ∉ o.word.decimal.toList := Word.notMem_decimal _ rfl (by decide)
  rw [toList_format]
  cases o.mode <;> simp [hword]

theorem format_injective : Function.Injective format := by
  intro o o' h
  have hmode : o.mode = o'.mode := by
    have hbracket := o.bracket_mem_format
    have hletter := o.letter_mem_format
    rw [h, bracket_mem_format] at hbracket
    rw [h, letter_mem_format] at hletter
    cases hm : o.mode <;> cases hm' : o'.mode <;> simp_all
  have hdecimal : o.word.decimal.toList = o'.word.decimal.toList := by
    have hlists := congrArg String.toList h
    rw [toList_format, toList_format, hmode] at hlists
    cases hm : o'.mode <;> simpa [hm] using hlists
  have hword : o.word = o'.word := Word.decimal_injective (String.toList_injective hdecimal)
  cases o
  cases o'
  cases hmode
  cases hword
  rfl

end ListedOperand

/-- A name, and what it is applied to if there is anything. -/
def phrase (name : String) : List String → String
  | [] => name
  | arguments => name ++ " " ++ ", ".intercalate arguments

section Phrases

variable {name : String} {arguments : List String}

theorem toList_phrase (hne : arguments ≠ []) :
    (phrase name arguments).toList =
      name.toList ++ ' ' :: [',', ' '].intercalate (arguments.map String.toList) := by
  obtain ⟨argument, arguments, rfl⟩ := List.exists_cons_of_ne_nil hne
  simp [phrase]

/-- The name and the arguments can be told apart. -/
theorem pieces_phrase (hname : IsToken name.toList)
    (harguments : ∀ argument ∈ arguments, IsToken argument.toList) :
    Text.pieces Instruction.isSeparator (phrase name arguments).toList =
      name.toList :: arguments.map String.toList := by
  rcases eq_or_ne arguments [] with rfl | hne
  · have hsingle := Text.pieces_intercalate (List.cons_ne_nil ' ' [])
      (List.forall_mem_singleton.2 rfl) (List.forall_mem_singleton.2 hname.piece)
    simpa [phrase] using hsingle
  · have hseparator : ∀ c ∈ [',', ' '], Instruction.isSeparator c = true :=
      List.forall_mem_cons.2 ⟨rfl, List.forall_mem_singleton.2 rfl⟩
    rw [toList_phrase hne, Text.pieces_append_cons hname.piece.1 hname.piece.2 rfl,
      Text.pieces_intercalate (List.cons_ne_nil _ _) hseparator]
    exact List.forall_mem_map.2 fun argument hargument => (harguments argument hargument).piece

theorem lineFeed_notMem_phrase (hname : IsToken name.toList)
    (harguments : ∀ argument ∈ arguments, IsToken argument.toList) :
    '\n' ∉ (phrase name arguments).toList := by
  rcases eq_or_ne arguments [] with rfl | hne
  · exact hname.lineFeed_notMem
  · rw [toList_phrase hne, List.mem_append, List.mem_cons]
    rintro (hmem | hmem | hmem)
    · exact hname.lineFeed_notMem hmem
    · cases hmem
    · rcases Text.mem_intercalate hmem with hmem | ⟨part, hpart, hmem⟩
      · revert hmem
        decide
      · obtain ⟨argument, hargument, rfl⟩ := List.mem_map.1 hpart
        exact (harguments argument hargument).lineFeed_notMem hmem

end Phrases

namespace ListedItem

def keyword : ListedItem → String
  | word _ => ".word"
  | instruction opcode _ => opcode.name

def arguments : ListedItem → List String
  | word w => [w.decimal]
  | instruction _ operands => operands.map ListedOperand.format

theorem format_eq_phrase (item : ListedItem) : item.format = phrase item.keyword item.arguments := by
  cases item with
  | word w => simp [format, keyword, arguments, phrase]
  | instruction opcode operands => cases operands <;> rfl

theorem isToken_keyword (item : ListedItem) : IsToken item.keyword.toList := by
  have hword : IsToken ".word".toList := ⟨by decide, List.all_eq_true.1 rfl⟩
  cases item with
  | word w => exact hword
  | instruction opcode => exact Mnemonic.isToken_name (.op opcode)

theorem isToken_argument {item : ListedItem} :
    ∀ argument ∈ item.arguments, IsToken argument.toList := by
  cases item with
  | word w => exact List.forall_mem_singleton.2 (isToken_decimal w)
  | instruction opcode operands => exact List.forall_mem_map.2 fun o _ => o.isToken_format

theorem eq_of_arguments {item item' : ListedItem} (hkeyword : item.keyword = item'.keyword)
    (harguments : item.arguments = item'.arguments) : item = item' := by
  have hword (opcode : Opcode) : opcode.name ≠ ".word" := by cases opcode <;> decide
  cases item with
  | word w =>
    cases item' with
    | word w' => rw [Word.decimal_injective (List.cons.inj harguments).1]
    | instruction opcode operands => exact absurd hkeyword.symm (hword opcode)
  | instruction opcode operands =>
    cases item' with
    | word w' => exact absurd hkeyword (hword opcode)
    | instruction opcode' operands' =>
      rw [Opcode.name_injective hkeyword,
        (List.map_inj_right ListedOperand.format_injective).1 harguments]

end ListedItem

namespace ListingLine

def text (line : ListingLine) : String := line.address.repr ++ ": " ++ line.item.format

theorem toList_text (line : ListingLine) :
    line.text.toList = (line.address.repr ++ ":").toList ++ ' ' :: line.item.format.toList := by
  simp [text]

theorem isToken_address (line : ListingLine) : IsToken (line.address.repr ++ ":").toList := by
  have hdigits : ∀ c ∈ Nat.toDigits 10 line.address, inToken c = true :=
    fun c hc => inToken_of_isDigit (Nat.isDigit_of_mem_toDigits (by decide) (by decide) hc)
  have hcolon : IsToken [':'] := ⟨List.cons_ne_nil _ _, List.forall_mem_singleton.2 rfl⟩
  simpa using hcolon.append_left hdigits

theorem pieces_text (line : ListingLine) :
    Text.pieces Instruction.isSeparator line.text.toList =
      ((line.address.repr ++ ":") :: line.item.keyword :: line.item.arguments).map String.toList := by
  have haddress := line.isToken_address.piece
  rw [toList_text, Text.pieces_append_cons haddress.1 haddress.2 rfl, ListedItem.format_eq_phrase,
    pieces_phrase line.item.isToken_keyword ListedItem.isToken_argument, List.map_cons, List.map_cons]

theorem text_injective : Function.Injective text := by
  intro line line' h
  have hpieces := line.pieces_text
  rw [h, pieces_text, List.map_inj_right fun _ _ => String.toList_injective] at hpieces
  obtain ⟨haddress, hitem⟩ := List.cons.inj hpieces
  obtain ⟨hkeyword, harguments⟩ := List.cons.inj hitem
  have haddress : line.address = line'.address := by
    have hdigits : Nat.toDigits 10 line'.address = Nat.toDigits 10 line.address := by
      simpa using congrArg String.toList haddress
    have hread := congrArg (Nat.ofDigitChars 10 · 0) hdigits
    simpa [Nat.ofDigitChars_toDigits] using hread.symm
  have hitem : line.item = line'.item := (ListedItem.eq_of_arguments hkeyword harguments).symm
  cases line
  cases line'
  cases haddress
  cases hitem
  rfl

theorem lineFeed_notMem_text (line : ListingLine) : '\n' ∉ line.text.toList := by
  rw [toList_text, List.mem_append, List.mem_cons, ListedItem.format_eq_phrase]
  rintro (hmem | hmem | hmem)
  · exact line.isToken_address.lineFeed_notMem hmem
  · cases hmem
  · exact lineFeed_notMem_phrase line.item.isToken_keyword ListedItem.isToken_argument hmem

end ListingLine

namespace Image

theorem lines_disassembly (image : Image) :
    Text.lines image.disassembly.toList = image.listing.map fun line => line.text.toList := by
  have htext : image.disassembly.toList =
      (image.listing.map fun line => line.text.toList).flatMap (· ++ ['\n']) := by
    rw [disassembly, String.toList_join, List.flatMap_map, List.flatMap_map]
    apply List.flatMap_congr
    intro line _
    exact String.toList_append
  rw [htext]
  apply Text.lines_flatMap
  intro part hpart
  obtain ⟨line, -, rfl⟩ := List.mem_map.1 hpart
  exact line.lineFeed_notMem_text

theorem disassembly_eq_iff {image image' : Image} :
    image.disassembly = image'.disassembly ↔ image.listing = image'.listing := by
  constructor
  · intro h
    have hlines := image.lines_disassembly
    rw [h, lines_disassembly] at hlines
    have hinjective : Function.Injective fun line : ListingLine => line.text.toList :=
      fun _ _ heq => ListingLine.text_injective (String.toList_injective heq)
    exact ((List.map_inj_right hinjective).1 hlines).symm
  · intro h
    rw [disassembly, disassembly, h]

end Image
end TapeMachine
