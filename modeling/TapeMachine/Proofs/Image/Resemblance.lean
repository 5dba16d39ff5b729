import TapeMachine.Proofs.Image.Legibility
import TapeMachine.Proofs.Image.Walk

/-! What the disassembly of an image tells of the image. It covers the whole of it, and it leaves out
nothing but those digits of an opcode word that the machine does not look at either. -/

namespace TapeMachine

/-- Whether two opcode words tell this operation the same: they may differ above the mode digits of the
operands that it has. -/
structure Opcode.Alike (opcode : Opcode) (w w' : Word) : Prop where
  nonneg : 0 ≤ w ∧ 0 ≤ w'
  code : Word.code w = Word.code w'
  digits : ∀ k < opcode.operandCount, Word.digit w k = Word.digit w' k

theorem Opcode.Alike.refl {opcode : Opcode} {w : Word} (h : 0 ≤ w) : opcode.Alike w w :=
  ⟨⟨h, h⟩, rfl, fun _ _ => rfl⟩

namespace ListedItem

/-- Whether two words are the same to an item, as the ones at this distance from its address. -/
def Conceals (item : ListedItem) (k : Nat) (w w' : Word) : Prop :=
  w = w' ∨ k = 0 ∧ ∃ opcode operands, item = .instruction opcode operands ∧ opcode.Alike w w'

variable {item : ListedItem} {ws ws' : List Word}

theorem Starts.exists_of_length {w : Word} {rest rest' : List Word} {opcode : Opcode}
    {operands : List ListedOperand} (h : Starts w rest opcode operands)
    (hlength : rest.length = rest'.length) : ∃ operands', Starts w rest' opcode operands' := by
  have hroom := h.room
  have hcount := h.count
  refine ⟨List.zipWith (fun o v => ⟨o.mode, v⟩) operands rest', h.nonneg, h.code, ?_, ?_, ?_⟩
  · rw [List.length_zipWith]
    omega
  · intro k o ho
    obtain ⟨o', v, ho', -, rfl⟩ := List.getElem?_zipWith_eq_some.1 ho
    exact h.modes k o' ho'
  · intro k o ho
    obtain ⟨o', v, -, hv, rfl⟩ := List.getElem?_zipWith_eq_some.1 ho
    exact hv

theorem Starts.alike {w w' : Word} {rest rest' : List Word} {opcode : Opcode}
    {operands : List ListedOperand} (h : Starts w rest opcode operands)
    (h' : Starts w' rest' opcode operands) : opcode.Alike w w' := by
  refine ⟨⟨h.nonneg, h'.nonneg⟩, ?_, ?_⟩
  · rw [← Opcode.code_of_ofCode? h.code, Opcode.code_of_ofCode? h'.code]
  · intro k hk
    have ho := List.getElem?_eq_getElem (h.count ▸ hk)
    rw [← Mode.code_of_ofCode? (h.modes k _ ho), Mode.code_of_ofCode? (h'.modes k _ ho)]

theorem Starts.words_congr {w : Word} {rest rest' : List Word} {opcode : Opcode}
    {operands : List ListedOperand} (h : Starts w rest opcode operands)
    (hlength : rest.length = rest'.length)
    (hsame : ∀ k < operands.length, ∀ v v', rest[k]? = some v → rest'[k]? = some v' → v = v')
    (k : Nat) (o : ListedOperand) (ho : operands[k]? = some o) : rest'[k]? = some o.word := by
  have hk : k < operands.length := (List.getElem?_eq_some_iff.1 ho).1
  have hroom := h.room
  have hcount := h.count
  have hv := List.getElem?_eq_getElem (show k < rest'.length by omega)
  rw [hv, hsame k hk _ _ (h.words k o ho) hv]

theorem Starts.of_alike {w w' : Word} {rest rest' : List Word} {opcode : Opcode}
    {operands : List ListedOperand} (h : Starts w rest opcode operands) (halike : opcode.Alike w w')
    (hwords : ∀ (k : Nat) (o : ListedOperand), operands[k]? = some o → rest'[k]? = some o.word) :
    Starts w' rest' opcode operands := by
  refine ⟨halike.nonneg.2, halike.code ▸ h.code, h.count, ?_, hwords⟩
  intro k o ho
  have hk : k < opcode.operandCount := h.count ▸ (List.getElem?_eq_some_iff.1 ho).1
  rw [← halike.digits k hk]
  exact h.modes k o ho

theorem Shows.conceals (h : item.Shows ws) (h' : item.Shows ws') {k : Nat} (hk : k < item.width)
    {w w' : Word} (hw : ws[k]? = some w) (hw' : ws'[k]? = some w') : item.Conceals k w w' := by
  cases h with
  | word =>
    cases h' with
    | word =>
      obtain rfl : k = 0 := by simpa [width] using hk
      exact .inl (by simpa using hw.symm.trans hw')
  | @instruction _ _ opcode operands starts =>
    cases h' with
    | instruction starts' =>
      cases k with
      | zero =>
        obtain rfl : _ = w := by simpa using hw
        obtain rfl : _ = w' := by simpa using hw'
        exact .inr ⟨rfl, opcode, operands, rfl, starts.alike starts'⟩
      | succ k =>
        have hk : k < operands.length := by
          rw [width] at hk
          omega
        have ho := List.getElem?_eq_getElem hk
        rw [List.getElem?_cons_succ, starts.words k _ ho] at hw
        rw [List.getElem?_cons_succ, starts'.words k _ ho] at hw'
        exact .inl (Option.some.inj (hw.symm.trans hw'))

theorem Shows.of_conceals (h : item.Shows ws) (hlength : ws.length = ws'.length)
    (hwords : ∀ (k : Nat) (w w' : Word), k < item.width → ws[k]? = some w → ws'[k]? = some w' →
      item.Conceals k w w') : item.Shows ws' := by
  cases ws' with
  | nil =>
    rw [List.eq_nil_of_length_eq_zero hlength] at h
    cases h
  | cons w' rest' =>
    have hfirst (w : Word) (hw : ws[0]? = some w) := hwords 0 w w' item.width_pos hw rfl
    cases h with
    | @word w rest none =>
      obtain rfl | ⟨-, opcode, operands, hitem, -⟩ := hfirst w rfl
      · refine .word ?_
        intro opcode operands hstarts
        obtain ⟨operands', hstarts⟩ := hstarts.exists_of_length (Nat.succ.inj hlength).symm
        exact none opcode operands' hstarts
      · cases hitem
    | @instruction w rest opcode operands starts =>
      refine .instruction (starts.of_alike ?_ ?_)
      · obtain rfl | ⟨-, opcode', operands', hitem, halike⟩ := hfirst w rfl
        · exact .refl starts.nonneg
        · cases hitem
          exact halike
      · refine starts.words_congr (Nat.succ.inj hlength) ?_
        intro k hk v v' hv hv'
        have hwidth : k + 1 < (ListedItem.instruction opcode operands).width := by
          rw [width]
          omega
        obtain heq | ⟨hzero, -⟩ := hwords (k + 1) v v' hwidth hv hv'
        · exact heq
        · cases hzero

end ListedItem

namespace Image

/-- Whether lines look the same with either of two words at this address. -/
def Conceal (lines : List ListingLine) (address : Nat) (w w' : Word) : Prop :=
  w = w' ∨ ∃ opcode operands, ⟨address, .instruction opcode operands⟩ ∈ lines ∧ opcode.Alike w w'

/-- Equal, but for digits of an opcode word that its operation does not use. -/
structure Resembles (image image' : Image) : Prop where
  length : image.length = image'.length
  words (address : Nat) (w w' : Word) : image[address]? = some w → image'[address]? = some w' →
    Conceal image.listing address w w'

/-- The lines of a disassembly, how they lie on the image, and what they show of it. -/
structure Tiled (image : Image) : Prop where
  lines : Text.lines image.disassembly.toList = image.listing.map fun line => line.text.toList
  tiles : Tiles 0 image.listing image.length
  increasing : image.listing.Pairwise fun line line' => line.address < line'.address
  operands : ∀ line ∈ image.listing, ∀ opcode operands, line.item = .instruction opcode operands →
    operands.length = opcode.operandCount
  shows : ∀ line ∈ image.listing, line.item.Shows (image.drop line.address)

section Lines

variable {line : ListingLine} {lines : List ListingLine} {address : Nat} {w w' : Word}

theorem Conceal.cons (h : Conceal lines address w w') : Conceal (line :: lines) address w w' := by
  obtain heq | ⟨opcode, operands, hmem, halike⟩ := h
  · exact .inl heq
  · exact .inr ⟨opcode, operands, List.mem_cons_of_mem _ hmem, halike⟩

theorem Conceal.of_cons (h : Conceal (line :: lines) address w w') (hne : line.address ≠ address) :
    Conceal lines address w w' := by
  obtain heq | ⟨opcode, operands, hmem, halike⟩ := h
  · exact .inl heq
  · rcases List.mem_cons.1 hmem with rfl | hmem
    · exact absurd rfl hne
    · exact .inr ⟨opcode, operands, hmem, halike⟩

theorem Conceal.conceals {start stop k : Nat} {item : ListedItem}
    (h : Conceal (⟨start, item⟩ :: lines) (start + k) w w')
    (htiles : Tiles (start + item.width) lines stop) (hk : k < item.width) : item.Conceals k w w' := by
  obtain heq | ⟨opcode, operands, hmem, halike⟩ := h
  · exact .inl heq
  · rcases List.mem_cons.1 hmem with hline | hmem
    · obtain ⟨hstart, rfl⟩ := ListingLine.mk.inj hline
      exact .inr ⟨by omega, opcode, operands, rfl, halike⟩
    · have hbehind := htiles.start_le hmem
      dsimp only at hbehind
      omega

end Lines

variable {image image' : Image} {start : Nat} {lines : List ListingLine}

/-- Where the same lines are found, the words are the same but for what the lines conceal. -/
theorem Walk.conceal (h : image.Walk start lines) (h' : image'.Walk start lines) {address : Nat}
    (haddress : start ≤ address) {w w' : Word} (hw : image[address]? = some w)
    (hw' : image'[address]? = some w') : Conceal lines address w w' := by
  induction h with
  | stop =>
    rw [List.getElem?_eq_none haddress] at hw
    cases hw
  | @line start item lines here others ih =>
    cases h' with
    | line here' others' =>
      rcases Nat.lt_or_ge address (start + item.width) with hlt | hge
      · obtain ⟨k, rfl⟩ := Nat.exists_eq_add_of_le haddress
        rw [← List.getElem?_drop] at hw hw'
        obtain heq | ⟨rfl, opcode, operands, rfl, halike⟩ :=
          here.conceals here' (Nat.lt_of_add_lt_add_left hlt) hw hw'
        · exact .inl heq
        · exact .inr ⟨opcode, operands, List.mem_cons_self, halike⟩
      · exact (ih others' hge).cons

/-- Words that differ only in what the lines conceal make no difference to the walk. -/
theorem Walk.of_conceal (h : image.Walk start lines) (hlength : image.length = image'.length)
    (hwords : ∀ (address : Nat) (w w' : Word), start ≤ address → image[address]? = some w →
      image'[address]? = some w' → Conceal lines address w w') : image'.Walk start lines := by
  induction h with
  | stop =>
    rw [hlength]
    exact .stop
  | @line start item lines here others ih =>
    refine .line (here.of_conceals ?_ ?_) (ih ?_)
    · rw [List.length_drop, List.length_drop, hlength]
    · intro k w w' hk hw hw'
      rw [List.getElem?_drop] at hw hw'
      exact (hwords (start + k) w w' (Nat.le_add_right _ _) hw hw').conceals others.tiles hk
    · intro address w w' haddress hw hw'
      have hpos := item.width_pos
      exact (hwords address w w' (by omega) hw hw').of_cons (by dsimp only; omega)

theorem listing_eq_iff_resembles : image.listing = image'.listing ↔ image.Resembles image' := by
  have hwalk := image.walk_listing
  constructor
  · intro h
    have hwalk' := image'.walk_listing
    rw [← h] at hwalk'
    refine ⟨hwalk.tiles.stop_unique hwalk'.tiles, ?_⟩
    intro address w w' hw hw'
    exact hwalk.conceal hwalk' (Nat.zero_le _) hw hw'
  · intro h
    exact (hwalk.of_conceal h.length fun address w w' _ => h.words address w w').eq_listing

theorem tiled (image : Image) : image.Tiled := by
  have hwalk := image.walk_listing
  have hshows : ∀ line ∈ image.listing, line.item.Shows (image.drop line.address) :=
    fun line hline => hwalk.shows hline
  refine ⟨image.lines_disassembly, hwalk.tiles, hwalk.tiles.increasing, ?_, hshows⟩
  intro line hline opcode operands hitem
  have hshows := hshows line hline
  rw [hitem] at hshows
  exact hshows.count

/-- The lines of a disassembly cover its image, and two images have the same disassembly just where they
are equal up to digits that are not used. -/
theorem disassembly_determines :
    (∀ image : Image, image.Tiled) ∧
      ∀ image image' : Image, image.disassembly = image'.disassembly ↔ image.Resembles image' := by
  refine ⟨tiled, ?_⟩
  intro image image'
  rw [disassembly_eq_iff, listing_eq_iff_resembles]

example : disassembly [104, 7, 21001, 1] = "0: OUT 7\n2: .word 21001\n3: .word 1\n" := by rfl

example : disassembly [31104, 7] = disassembly [104, 7] := by rfl

end Image
end TapeMachine
