import TapeMachine.Proofs.Image.Legibility
import TapeMachine.Proofs.Image.Walk
import TapeMachine.Proofs.Machine.Frame
import TapeMachine.Proofs.Machine.Reachable

/-! What a tick makes of the line of a listing that is at its position. The listing asks of an opcode
word whether there is room for the operands behind it, and the machine whether it can store through the
one that it stores through; in all else they take the same words for instructions. -/

namespace TapeMachine

theorem Tiles.add_width_eq {start stop k : Nat} {lines : List ListingLine} {line : ListingLine}
    (h : Tiles start lines stop) (hline : lines[k]? = some line) :
    line.address + line.item.width = (lines[k + 1]?.map (·.address)).getD stop := by
  induction h generalizing k with
  | nil => cases hline
  | cons here others ih =>
    cases k with
    | succ k => exact ih hline
    | zero =>
      cases hline
      rw [here]
      cases others with
      | nil => rfl
      | cons here' _ => exact here'.symm

theorem ListedOperand.format_eq_decimal_iff (o : ListedOperand) :
    o.format = o.word.decimal ↔ o.mode = .immediate := by
  constructor
  · intro h
    by_contra hmode
    have hbracket := o.bracket_mem_format.2 hmode
    rw [h] at hbracket
    exact Word.notMem_decimal o.word rfl (by decide) hbracket
  · intro h
    rw [format, h]

theorem Mode.ofCode?_eq_some_getD {n : Nat} (h : n ≤ 2) :
    ofCode? n = some ((ofCode? n).getD position) := by
  match n with
  | 0 | 1 | 2 => rfl
  | n + 3 => omega

namespace ListedItem

variable {w : Word} {rest : List Word} {opcode : Opcode} {operands : List ListedOperand} {k : Nat}

theorem Starts.digit_eq (h : Starts w rest opcode operands) {o : ListedOperand}
    (ho : operands[k]? = some o) : Word.digit w k = o.mode.code :=
  (Mode.code_of_ofCode? (h.modes k o ho)).symm

theorem Starts.exists_operand (h : Starts w rest opcode operands) (hk : k < opcode.operandCount) :
    ∃ o, operands[k]? = some o :=
  ⟨_, List.getElem?_eq_getElem (h.count ▸ hk)⟩

theorem Starts.digit_le (h : Starts w rest opcode operands) (hk : k < opcode.operandCount) :
    Word.digit w k ≤ 2 := by
  obtain ⟨o, ho⟩ := h.exists_operand hk
  rw [h.digit_eq ho]
  exact o.mode.code_le

theorem Starts.immediate_iff (h : Starts w rest opcode operands) :
    (∃ k, opcode.writeSlot? = some k ∧ Word.digit w k = 1) ↔
      ∃ k o, opcode.writeSlot? = some k ∧ operands[k]? = some o ∧ o.format = o.word.decimal := by
  constructor
  · rintro ⟨k, hslot, hdigit⟩
    obtain ⟨o, ho⟩ := h.exists_operand (Opcode.writeSlot_lt hslot)
    rw [h.digit_eq ho, Mode.code_eq_one_iff] at hdigit
    exact ⟨k, o, hslot, ho, o.format_eq_decimal_iff.2 hdigit⟩
  · rintro ⟨k, o, hslot, ho, hformat⟩
    refine ⟨k, hslot, ?_⟩
    rw [h.digit_eq ho, Mode.code_eq_one_iff]
    exact o.format_eq_decimal_iff.1 hformat

theorem exists_starts (hw : 0 ≤ w) (hcode : Opcode.ofCode? (Word.code w) = some opcode)
    (hdigits : ∀ k < opcode.operandCount, Word.digit w k ≤ 2) (hroom : opcode.operandCount ≤ rest.length) :
    ∃ operands, Starts w rest opcode operands := by
  let modes (k : Nat) : Mode := (Mode.ofCode? (Word.digit w k)).getD .position
  refine ⟨List.zipWith ListedOperand.mk ((List.range opcode.operandCount).map modes) rest, hw, hcode,
    ?_, ?_, ?_⟩
  · simpa using Nat.min_eq_left hroom
  · intro k o ho
    obtain ⟨mode, v, hmode, -, rfl⟩ := List.getElem?_zipWith_eq_some.1 ho
    obtain ⟨j, hj, rfl⟩ : ∃ j, (List.range opcode.operandCount)[k]? = some j ∧ modes j = mode := by
      simpa using hmode
    obtain ⟨hlt, rfl⟩ : k < opcode.operandCount ∧ k = j := by
      simpa [List.getElem?_eq_some_iff] using hj
    exact Mode.ofCode?_eq_some_getD (hdigits k hlt)
  · intro k o ho
    obtain ⟨mode, v, -, hv, rfl⟩ := List.getElem?_zipWith_eq_some.1 ho
    exact hv

end ListedItem

namespace Machine

/-- A machine that is loaded, with an image at the start of its tape. -/
structure Carries (m : Machine) (image : Image) : Prop where
  loaded : m.loadError = none
  room : image.length ≤ m.capacity
  words (k : Nat) (w : Word) : image[k]? = some w → m.contents (UInt64.ofNat k) = w

/-- Whether a tick takes the words at the position for this instruction, to go on at this address. -/
structure Takes (m : Machine) (opcode : Opcode) (operands : List ListedOperand) (next : Nat) : Prop where
  code : m.tick.1.status ≠ .invalidOpcode
  mode : m.tick.1.status = .invalidMode ↔
    ∃ k o, opcode.writeSlot? = some k ∧ operands[k]? = some o ∧ o.format = o.word.decimal
  passed : m.tick.1.status = .ok ∨ m.tick.1.status = .output →
    m.jumps opcode (Word.digit (m.contents m.position)) = false → m.tick.2.position.toNat = next

/-- Whether a tick takes a word for no instruction, unless its operands would run past an address. -/
def Declines (m : Machine) (w : Word) (stop : Nat) : Prop :=
  m.tick.1.status = .invalidOpcode ∨ m.tick.1.status = .invalidMode ∨
    0 ≤ w ∧ ∃ opcode, Opcode.ofCode? (Word.code w) = some opcode ∧
      (∀ k < opcode.operandCount, Word.digit w k ≤ 2) ∧
      stop < m.position.toNat + 1 + opcode.operandCount

variable {m : Machine} {image : Image} {w : Word} {rest : List Word} {opcode : Opcode}
  {operands : List ListedOperand} {mode : Nat → Mode} {d : Nat → Nat} {e : Effect}

theorem verdictOn_of_code (hw : 0 ≤ w) (hcode : Opcode.ofCode? (Word.code w) = some opcode) :
    m.verdictOn w = m.verdictOf opcode (Word.digit w) := by
  have hsign : ¬ w < 0 := by simpa using hw
  rw [verdictOn, if_neg hsign, hcode]

theorem Performs.position_of_not_jumps (h : m.Performs mode opcode e)
    (hd : ∀ k < opcode.operandCount, (mode k).code = d k) (hj : m.jumps opcode d = false) :
    e.position = m.operandAddress opcode.operandCount := by
  cases h with
  | combine | input | output | passed | adjustBase => rfl
  | @taken _ condition c _ _ jump test holds =>
    have hcount : 0 < opcode.operandCount := by cases opcode <;> cases jump <;> decide
    have hload := m.comesTo_load (mode 0) 0
    rw [test, hd 0 hcount] at hload
    rw [jumps_eq jump, ← hload.eq_of_ok.2, holds] at hj
    cases hj

theorem carries_start {t : Tape} (h : image.length ≤ t.capacity.toNat) :
    (start image (some t)).Carries image := by
  obtain ⟨hloaded, -, hwords⟩ := start_of_fits h
  refine ⟨hloaded, ?_, ?_⟩
  · simpa [capacity, start, reset] using h
  · intro k w hw
    obtain ⟨hk, rfl⟩ := List.getElem?_eq_some_iff.1 hw
    rw [contents, hwords k hk, Option.getD_some]

theorem length_eq_of_drop {n : Nat} (h : image.drop n = w :: rest) :
    image.length = n + 1 + rest.length := by
  have hlength := congrArg List.length h
  rw [List.length_drop, List.length_cons] at hlength
  omega

theorem Carries.status_eq (h : m.Carries image) (hdrop : image.drop m.position.toNat = w :: rest) :
    m.contents m.position = w ∧ m.tick.1.status = (m.verdictOn w).1 := by
  have hw : image[m.position.toNat]? = some w := by rw [← List.head?_drop, hdrop, List.head?_cons]
  have hinside : ¬ m.capacity ≤ m.position.toNat := by
    have hlength := length_eq_of_drop hdrop
    have hroom := h.room
    omega
  have hword : m.contents m.position = w := by simpa using h.words _ w hw
  have hverdict := congrArg Prod.fst (tick_eq_verdict h.loaded)
  rw [verdict, if_neg hinside, hword] at hverdict
  exact ⟨hword, hverdict⟩

theorem position_of_not_jumps (hcode : Opcode.ofCode? (Word.code (m.contents m.position)) = some opcode)
    (h : m.advances = true) (hj : m.jumps opcode (Word.digit (m.contents m.position)) = false) :
    m.tick.2.position = m.operandAddress opcode.operandCount := by
  obtain ⟨e, hplan⟩ := exists_effect_of_advances h
  obtain ⟨fields, opcode', hfetch, hcheck, hperforms⟩ := plan_eq_ok_iff.1 hplan
  obtain ⟨hfields, hopcode⟩ := decode_eq_ok_iff.1 (word_of_fetch hfetch).2
  rw [OpFields.opcode?_of_ofWord? hfields, hcode] at hopcode
  cases hopcode
  rw [tick_of_plan_ok hplan]
  refine hperforms.position_of_not_jumps (fun k hk => ?_) hj
  rw [((modes_of_checkModes hcheck).1 k hk).2, OpFields.digit_of_ofWord? hfields]

theorem Carries.takes (h : m.Carries image) (hdrop : image.drop m.position.toNat = w :: rest)
    (hstarts : ListedItem.Starts w rest opcode operands) :
    m.Takes opcode operands (m.position.toNat + 1 + opcode.operandCount) := by
  obtain ⟨hword, hstatus⟩ := h.status_eq hdrop
  rw [verdictOn_of_code hstarts.nonneg hstarts.code] at hstatus
  refine ⟨?_, ?_, ?_⟩
  · rw [hstatus]
    exact m.verdictOf_ne_invalidOpcode opcode (Word.digit w)
  · have hdigits : ¬ ∃ k < opcode.operandCount, 2 < Word.digit w k := by
      rintro ⟨k, hk, hlt⟩
      have hle := hstarts.digit_le hk
      omega
    rw [hstatus, verdictOf_eq_invalidMode_iff, or_iff_right hdigits]
    exact hstarts.immediate_iff
  · intro hdone hj
    have hcode : Opcode.ofCode? (Word.code (m.contents m.position)) = some opcode := by
      rw [hword, hstarts.code]
    have hadvances : m.advances = true := by simpa [advances] using hdone
    have hbound : m.position.toNat + 1 + opcode.operandCount < UInt64.size := by
      have hlength := length_eq_of_drop hdrop
      have hrest := hstarts.room
      have hroom := h.room
      have hcapacity : m.capacity < UInt64.size := UInt64.toNat_lt _
      omega
    rw [position_of_not_jumps hcode hadvances hj, toNat_operandAddress_of_lt hbound]

theorem Carries.declines (h : m.Carries image) (hdrop : image.drop m.position.toNat = w :: rest)
    (hnone : ∀ opcode operands, ¬ ListedItem.Starts w rest opcode operands) :
    m.Declines w image.length := by
  obtain ⟨-, hstatus⟩ := h.status_eq hdrop
  by_cases hsign : w < 0
  · rw [verdictOn, if_pos hsign] at hstatus
    exact .inl hstatus
  have hnonneg : 0 ≤ w := by simpa using hsign
  rcases hcode : Opcode.ofCode? (Word.code w) with _ | opcode
  · rw [verdictOn, if_neg hsign, hcode] at hstatus
    exact .inl hstatus
  rw [verdictOn_of_code hnonneg hcode] at hstatus
  by_cases hdigits : ∃ k < opcode.operandCount, 2 < Word.digit w k
  · exact .inr (.inl (hstatus.trans (verdictOf_eq_invalidMode_iff.2 (.inl hdigits))))
  · have hdigits : ∀ k < opcode.operandCount, Word.digit w k ≤ 2 := by simpa using hdigits
    refine .inr (.inr ⟨hnonneg, opcode, hcode, hdigits, ?_⟩)
    by_contra hroom
    have hlength := length_eq_of_drop hdrop
    have hcount : opcode.operandCount ≤ rest.length := by omega
    obtain ⟨operands, hstarts⟩ := ListedItem.exists_starts hnonneg hcode hdigits hcount
    exact hnone opcode operands hstarts

/-- What a tick makes of a line that is listed at the position, the next line starting at an address. -/
def Heeds (m : Machine) (image : Image) (next : Nat) : ListedItem → Prop
  | .instruction opcode operands => m.Takes opcode operands next
  | .word w => m.Declines w image.length

/-- Where a machine has an image on its tape and is at a line of its listing, it takes that line for what
it is shown as. -/
theorem tick_heeds_line {k : Nat} {line : ListingLine} (h : m.Carries image)
    (hline : image.listing[k]? = some line) (hposition : m.position.toNat = line.address) :
    (Text.lines image.disassembly.toList)[k]? = some line.text.toList ∧
      m.Heeds image ((image.listing[k + 1]?.map (·.address)).getD image.length) line.item := by
  have hwalk := image.walk_listing
  have hshows := hwalk.shows (List.mem_of_getElem? hline)
  rw [← hwalk.tiles.add_width_eq hline]
  rw [← hposition] at hshows ⊢
  refine ⟨by simp [image.lines_disassembly, hline], ?_⟩
  generalize line.item = item at hshows
  generalize hdrop : image.drop m.position.toNat = ws at hshows
  cases hshows with
  | word hnone => exact h.declines hdrop hnone
  | instruction hstarts =>
    rw [ListedItem.width, hstarts.count, ← Nat.add_assoc]
    exact h.takes hdrop hstarts

/-- Adds to a word that it cannot store into, puts out a word, and ends in words that are no instructions
of its own: the last but one is an addition whose operands run past the end. -/
def ragged : Image := [11101, 5, 6, 7, 104, 9, -1, 1, 2]

def raggedAt (a : Address) : Machine := { start ragged (some (.blank .growable 16)) with position := a }

theorem carries_raggedAt (a : Address) : (raggedAt a).Carries ragged := by
  have hstart : (start ragged (some (.blank .growable 16))).Carries ragged :=
    carries_start (by decide)
  exact ⟨hstart.loaded, hstart.room, hstart.words⟩

theorem heeds_ragged :
    ragged.listing.map (·.text) =
        ["0: ADD 5, 6, 7", "4: OUT 9", "6: .word -1", "7: .word 1", "8: .word 2"] ∧
      (raggedAt 0).tick.1.status = .invalidMode ∧
      (raggedAt 4).tick.1.status = .output ∧ (raggedAt 4).tick.2.position.toNat = 6 ∧
      (raggedAt 6).Declines (-1) 9 ∧ (raggedAt 7).Declines 1 9 ∧ (raggedAt 7).tick.1.status = .ok := by
  have hadd : (raggedAt 0).Takes .add [⟨.immediate, 5⟩, ⟨.immediate, 6⟩, ⟨.immediate, 7⟩] 4 :=
    (tick_heeds_line (k := 0) (carries_raggedAt 0) rfl rfl).2
  have hout : (raggedAt 4).Takes .output [⟨.immediate, 9⟩] 6 :=
    (tick_heeds_line (k := 1) (carries_raggedAt 4) rfl rfl).2
  have hword : (raggedAt 6).Declines (-1) 9 := (tick_heeds_line (k := 2) (carries_raggedAt 6) rfl rfl).2
  have hcut : (raggedAt 7).Declines 1 9 := (tick_heeds_line (k := 3) (carries_raggedAt 7) rfl rfl).2
  have houtput : (raggedAt 4).tick.1.status = .output := by decide
  exact ⟨by decide +kernel, hadd.mode.2 ⟨2, _, rfl, rfl, rfl⟩, houtput, hout.passed (.inr houtput) rfl, hword,
    hcut, by decide⟩

end Machine
end TapeMachine
