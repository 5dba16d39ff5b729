import Mathlib.Data.Option.Basic
import TapeMachine.Image.Listing
import TapeMachine.Proofs.Opcode.Fields
import TapeMachine.Proofs.Passes

/-! The lines of a listing, found by walking through the image: each line starts where the one before it
stops, the first one at address 0, and the last one stops where the image does. -/

namespace TapeMachine

/-- Lines that lie end to end, from one address up to another. -/
inductive Tiles : Nat → List ListingLine → Nat → Prop
  | nil {start : Nat} : Tiles start [] start
  | cons {start stop : Nat} {line : ListingLine} {lines : List ListingLine}
      (here : line.address = start) (others : Tiles (start + line.item.width) lines stop) :
      Tiles start (line :: lines) stop

namespace ListedItem

/-- What the words from an address on have to be for an instruction to be listed there. -/
structure Starts (w : Word) (rest : List Word) (opcode : Opcode) (operands : List ListedOperand) :
    Prop where
  nonneg : 0 ≤ w
  code : Opcode.ofCode? (Word.code w) = some opcode
  count : operands.length = opcode.operandCount
  modes (k : Nat) (o : ListedOperand) :
    operands[k]? = some o → Mode.ofCode? (Word.digit w k) = some o.mode
  words (k : Nat) (o : ListedOperand) : operands[k]? = some o → rest[k]? = some o.word

/-- What is shown of the words from an address on: an instruction where one starts, else a word. -/
inductive Shows : ListedItem → List Word → Prop
  | word {w : Word} {rest : List Word} (none : ∀ opcode operands, ¬ Starts w rest opcode operands) :
      Shows (.word w) (w :: rest)
  | instruction {w : Word} {rest : List Word} {opcode : Opcode} {operands : List ListedOperand}
      (starts : Starts w rest opcode operands) : Shows (.instruction opcode operands) (w :: rest)

section Instructions

variable {w : Word} {rest : List Word} {opcode : Opcode} {operands : List ListedOperand}

theorem Starts.room (h : Starts w rest opcode operands) : opcode.operandCount ≤ rest.length := by
  have hcount := h.count
  by_contra hroom
  have hk : rest.length < operands.length := by omega
  have hword := h.words _ _ (List.getElem?_eq_getElem hk)
  simp at hword

theorem instruction?_eq_some_iff {item : ListedItem} :
    instruction? w rest = some item ↔
      ∃ opcode operands, item = .instruction opcode operands ∧ Starts w rest opcode operands := by
  simp only [instruction?, Option.bind_eq_bind, Option.bind_eq_some_iff, Option.pure_def,
    Option.some_inj, option_mapM_range_eq_some_iff, Option.guard_eq_some', exists_const]
  constructor
  · rintro ⟨f, hf, opcode, hopcode, hroom, modes, ⟨hcount, hmodes⟩, rfl⟩
    refine ⟨opcode, _, rfl, OpFields.nonneg_of_ofWord? hf, ?_, ?_, ?_, ?_⟩
    · rw [← OpFields.opcode?_of_ofWord? hf, hopcode]
    · rw [List.length_zipWith]
      omega
    · intro k o ho
      obtain ⟨mode, v, hmode, -, rfl⟩ := List.getElem?_zipWith_eq_some.1 ho
      rw [← OpFields.mode?_of_ofWord? hf, hmodes k mode hmode]
    · intro k o ho
      obtain ⟨mode, v, -, hv, rfl⟩ := List.getElem?_zipWith_eq_some.1 ho
      exact hv
  · rintro ⟨opcode, operands, rfl, h⟩
    obtain ⟨f, hf⟩ := OpFields.exists_of_not_neg (Int64.not_lt.2 h.nonneg)
    have hopcode : f.opcode? = some opcode := by rw [OpFields.opcode?_of_ofWord? hf, h.code]
    refine ⟨f, hf, opcode, hopcode, h.room, operands.map (·.mode), ⟨?_, ?_⟩, ?_⟩
    · rw [List.length_map, h.count]
    · intro k mode hmode
      obtain ⟨o, ho, rfl⟩ := by simpa using hmode
      rw [OpFields.mode?_of_ofWord? hf, h.modes k o ho]
    · rw [ListedItem.instruction.injEq]
      refine ⟨rfl, List.ext_getElem? ?_⟩
      intro k
      rcases Nat.lt_or_ge k operands.length with hk | hk
      · have ho := List.getElem?_eq_getElem hk
        simp [List.getElem?_zipWith, ho, h.words k _ ho]
      · rw [List.getElem?_eq_none hk, List.getElem?_eq_none]
        rw [List.length_zipWith, List.length_map]
        omega

theorem ofWords_eq_iff {item : ListedItem} : ofWords w rest = item ↔ item.Shows (w :: rest) := by
  rw [ofWords]
  cases hitem : instruction? w rest with
  | none =>
    have hnone (opcode operands) : ¬ Starts w rest opcode operands := by
      intro h
      rw [instruction?_eq_some_iff.2 ⟨opcode, operands, rfl, h⟩] at hitem
      cases hitem
    rw [Option.getD_none]
    constructor
    · rintro rfl
      exact .word hnone
    · intro h
      cases h with
      | word => rfl
      | instruction starts => exact absurd starts (hnone _ _)
  | some item' =>
    obtain ⟨opcode, operands, rfl, hstarts⟩ := instruction?_eq_some_iff.1 hitem
    rw [Option.getD_some]
    constructor
    · rintro rfl
      exact .instruction hstarts
    · intro h
      cases h with
      | word none => exact absurd hstarts (none _ _)
      | instruction starts =>
        rw [instruction?_eq_some_iff.2 ⟨_, _, rfl, starts⟩] at hitem
        exact (Option.some.inj hitem).symm

end Instructions

theorem width_pos (item : ListedItem) : 0 < item.width := by
  cases item <;> simp [width, Nat.add_comm]

theorem Shows.width_le {item : ListedItem} {ws : List Word} (h : item.Shows ws) :
    item.width ≤ ws.length := by
  cases h with
  | word => simp [width]
  | instruction starts =>
    have hcount := starts.count
    have hroom := starts.room
    rw [width, List.length_cons]
    omega

theorem Shows.count {opcode : Opcode} {operands : List ListedOperand} {ws : List Word}
    (h : (ListedItem.instruction opcode operands).Shows ws) : operands.length = opcode.operandCount := by
  cases h with
  | instruction starts => exact starts.count

theorem Shows.unique {item item' : ListedItem} {ws : List Word} (h : item.Shows ws)
    (h' : item'.Shows ws) : item = item' := by
  cases ws with
  | nil => cases h
  | cons w rest => rw [← ofWords_eq_iff.2 h, ofWords_eq_iff.2 h']

end ListedItem

namespace Image

/-- The lines for the words of an image from an address on: one for what is shown there, then those
for the words behind it. -/
inductive Walk (image : Image) : Nat → List ListingLine → Prop
  | stop : Walk image image.length []
  | line {address : Nat} {item : ListedItem} {lines : List ListingLine}
      (here : item.Shows (image.drop address)) (others : Walk image (address + item.width) lines) :
      Walk image address (⟨address, item⟩ :: lines)

theorem listingFrom_skip (address skip : Nat) (ws : List Word) :
    listingFrom address skip ws = listingFrom (address + skip) 0 (ws.drop skip) := by
  induction ws generalizing address skip with
  | nil => simp [listingFrom]
  | cons w rest ih =>
    cases skip with
    | zero => rfl
    | succ skip =>
      rw [listingFrom, if_neg (Nat.succ_ne_zero skip), Nat.add_sub_cancel, ih, List.drop_succ_cons,
        Nat.add_assoc, Nat.add_comm 1 skip]

theorem listingFrom_cons (address : Nat) (w : Word) (rest : List Word) :
    listingFrom address 0 (w :: rest) = ⟨address, .ofWords w rest⟩ ::
      listingFrom (address + (ListedItem.ofWords w rest).width) 0
        ((w :: rest).drop (ListedItem.ofWords w rest).width) := by
  obtain ⟨n, hn⟩ := Nat.exists_eq_add_one.2 (ListedItem.ofWords w rest).width_pos
  simp only [listingFrom, if_pos]
  rw [listingFrom_skip (address + 1), hn, Nat.add_sub_cancel, List.drop_succ_cons, Nat.add_assoc,
    Nat.add_comm 1 n]

theorem walk_listingFrom {image : Image} {address : Nat} (h : address ≤ image.length) :
    image.Walk address (listingFrom address 0 (image.drop address)) := by
  -- every line takes at least one word off what is left
  induction hn : image.length - address using Nat.strongRecOn generalizing address with
  | ind n ih =>
    cases hws : image.drop address with
    | nil =>
      obtain rfl : address = image.length := by
        have := List.drop_eq_nil_iff.1 hws
        omega
      exact .stop
    | cons w rest =>
      have hshows := ListedItem.ofWords_eq_iff.1 (rfl : ListedItem.ofWords w rest = _)
      rw [listingFrom_cons, ← hws, List.drop_drop]
      rw [← hws] at hshows
      have hpos := (ListedItem.ofWords w rest).width_pos
      have hle := hshows.width_le
      rw [List.length_drop] at hle
      exact .line hshows (ih _ (by omega) (by omega) rfl)

theorem walk_listing (image : Image) : image.Walk 0 image.listing := walk_listingFrom (Nat.zero_le _)

variable {image : Image} {address : Nat} {lines : List ListingLine}

theorem Walk.exists_line (h : image.Walk address lines) {item : ListedItem}
    (hitem : item.Shows (image.drop address)) :
    ∃ lines', lines = ⟨address, item⟩ :: lines' ∧ image.Walk (address + item.width) lines' := by
  cases h with
  | stop =>
    rw [List.drop_length] at hitem
    cases hitem
  | line here others =>
    cases here.unique hitem
    exact ⟨_, rfl, others⟩

theorem Walk.eq_nil (h : image.Walk address lines) (haddress : image.length ≤ address) :
    lines = [] := by
  cases h with
  | stop => rfl
  | line here =>
    rw [List.drop_eq_nil_of_le haddress] at here
    cases here

theorem Walk.unique {lines' : List ListingLine} (h : image.Walk address lines)
    (h' : image.Walk address lines') : lines = lines' := by
  induction h generalizing lines' with
  | stop => exact (h'.eq_nil (Nat.le_refl _)).symm
  | line here _ ih =>
    obtain ⟨rest, rfl, hrest⟩ := h'.exists_line here
    rw [ih hrest]

theorem Walk.eq_listing (h : image.Walk 0 lines) : lines = image.listing := h.unique image.walk_listing

theorem Walk.tiles (h : image.Walk address lines) : Tiles address lines image.length := by
  induction h with
  | stop => exact .nil
  | line _ _ ih => exact .cons rfl ih

theorem Walk.shows (h : image.Walk address lines) {line : ListingLine} (hline : line ∈ lines) :
    line.item.Shows (image.drop line.address) := by
  induction h with
  | stop => cases hline
  | line here _ ih =>
    rcases List.mem_cons.1 hline with rfl | hline
    · exact here
    · exact ih hline

end Image

variable {start stop : Nat} {lines : List ListingLine}

theorem Tiles.start_le (h : Tiles start lines stop) {line : ListingLine} (hline : line ∈ lines) :
    start ≤ line.address := by
  induction h with
  | nil => cases hline
  | cons here _ ih =>
    rcases List.mem_cons.1 hline with rfl | hline
    · exact Nat.le_of_eq here.symm
    · exact Nat.le_of_add_right_le (ih hline)

theorem Tiles.le_stop (h : Tiles start lines stop) : start ≤ stop := by
  induction h with
  | nil => exact Nat.le_refl _
  | cons _ _ ih => exact Nat.le_of_add_right_le ih

theorem Tiles.add_width_le (h : Tiles start lines stop) {line : ListingLine} (hline : line ∈ lines) :
    line.address + line.item.width ≤ stop := by
  induction h with
  | nil => cases hline
  | cons here others ih =>
    rcases List.mem_cons.1 hline with rfl | hline
    · rw [here]
      exact others.le_stop
    · exact ih hline

theorem Tiles.stop_unique {stop' : Nat} (h : Tiles start lines stop) (h' : Tiles start lines stop') :
    stop = stop' := by
  induction h with
  | nil =>
    cases h'
    rfl
  | cons _ _ ih =>
    cases h' with
    | cons _ others' => exact ih others'

theorem Tiles.increasing (h : Tiles start lines stop) :
    lines.Pairwise fun line line' => line.address < line'.address := by
  induction h with
  | nil => exact .nil
  | cons here others ih =>
    refine .cons ?_ ih
    intro line hline
    have hstart := others.start_le hline
    rw [here]
    exact Nat.lt_of_lt_of_le (Nat.lt_add_of_pos_right (ListedItem.width_pos _)) hstart

end TapeMachine
