import TapeMachine.Proofs.Machine.Operand
import TapeMachine.Proofs.Machine.Potential
import TapeMachine.Proofs.Machine.Verdict

/-! The frame of a tick: all that an instruction changes, told from the machine as it was before. What
is stored, where, and where the machine goes on is settled before anything is written, so it makes no
difference whether the instruction overwrites its operands, or its own words. -/

namespace TapeMachine
namespace Machine

/-- What an operation with these mode digits makes of a machine. -/
structure CarriesOut (m : Machine) (opcode : Opcode) (d : Nat → Nat) (m' : Machine) : Prop where
  modes : ∀ k < opcode.operandCount, d k ≤ 2
  stores : ∀ k, opcode.writeSlot? = some k → d k ≠ 1
  needed : ∀ x ∈ m.needed opcode d, 0 ≤ x ∧ x < m.capacity
  ticks : m'.ticks.toNat = (m.ticks.toNat + 1) % 2 ^ 64
  kept : opcode ∉ [.add, .mul, .less, .equal, .input] → m'.tape = m.tape
  written : ∀ k, opcode.writeSlot? = some k → m.OnTape (m.pointer (d k) k) ∧ ∀ a, m'.peek? a =
    if a = (m.pointer (d k) k).toUInt64 then some (m.stored opcode d) else m.peek? a
  taken : opcode = .input → m.input = m.stored opcode d :: m'.input
  queue : opcode ≠ .input → m'.input = m.input
  rebased : opcode = .adjustBase → m'.base = Int64.ofInt (m.base.toInt + (m.argument (d 0) 0).toInt)
  base : opcode ≠ .adjustBase → m'.base = m.base
  jumped : m.jumps opcode d = true → (m'.position.toNat : Int) = (m.argument (d 1) 1).toInt
  passed : m.jumps opcode d = false → m'.position.toNat = m.position.toNat + 1 + opcode.operandCount
  image : m'.image = m.image
  loadError : m'.loadError = m.loadError

variable {m : Machine} {opcode : Opcode} {d : Nat → Nat} {k : Nat} {w : Word} {fields : OpFields}

theorem misses_eq_false_iff {x : Int} : m.misses x = false ↔ 0 ≤ x ∧ x < m.capacity := by
  simp [misses]

theorem onTape_of_misses (h : m.misses w.toInt = false) : m.OnTape w := by
  by_cases hw : w < 0
  · rw [m.misses_of_neg hw] at h
    cases h
  · have hsign : 0 ≤ w := by simpa using hw
    exact ⟨hsign, by simpa [m.misses_toInt hsign] using h⟩

theorem trap?_eq_none_iff : m.trap? opcode d = none ↔ (∀ x ∈ m.needed opcode d, m.misses x = false) ∧
    (m.jumps opcode d = true → 0 ≤ m.argument (d 1) 1) := by
  simp [trap?, Option.or_eq_none_iff]

theorem operandAddress_mem_needed (hk : k < opcode.operandCount) :
    ((m.operandAddress k).toNat : Int) ∈ m.needed opcode d :=
  List.mem_flatMap.2 ⟨k, List.mem_range.2 hk, List.mem_cons_self⟩

theorem pointer_mem_needed (hk : k < opcode.operandCount) (hd : d k ≠ 1) :
    (m.pointer (d k) k).toInt ∈ m.needed opcode d := by
  refine List.mem_flatMap.2 ⟨k, List.mem_range.2 hk, ?_⟩
  rw [needs, if_neg hd]
  simp

/-- The words of an instruction that are on the tape lie in a row. -/
theorem toNat_operandAddress (hposition : m.holds m.position = true)
    (h : ∀ j < k, m.holds (m.operandAddress j) = true) :
    (m.operandAddress k).toNat = m.position.toNat + 1 + k := by
  -- what is on the tape lies below its capacity, which is an address, so going on does not wrap
  have hsucc (a : Address) (ha : m.holds a = true) : (a + 1).toNat = a.toNat + 1 := by
    cases ht : m.tape with
    | none => simp [holds, ht] at ha
    | some t => exact Tape.toNat_add_one ((t.holds_iff a).1 (by simpa [holds, ht] using ha))
  induction k with
  | zero => simpa [operandAddress] using hsucc m.position hposition
  | succ k ih =>
    have hnext : m.operandAddress (k + 1) = m.operandAddress k + 1 := by
      simp [operandAddress, UInt64.ofNat_add, UInt64.add_assoc]
    rw [hnext, hsucc _ (h k (by omega)), ih fun j hj => h j (by omega)]
    omega

theorem next_position (m : Machine) (opcode : Opcode) :
    (m.next opcode).position = m.operandAddress opcode.operandCount := rfl

theorem store_intent (m : Machine) (opcode : Opcode) (d : Nat → Nat) : (m.intent opcode d).store =
    opcode.writeSlot?.map fun k => ((m.pointer (d k) k).toUInt64, m.stored opcode d) := rfl

theorem carriesOut_apply (hposition : m.holds m.position = true)
    (hinput : opcode = .input → m.input ≠ []) (hmodes : ∀ k < opcode.operandCount, d k ≤ 2)
    (hstore : ∀ k, opcode.writeSlot? = some k → d k ≠ 1) (htrap : m.trap? opcode d = none) :
    m.CarriesOut opcode d (m.apply (m.intent opcode d)) := by
  obtain ⟨hneeded, hjump⟩ := trap?_eq_none_iff.1 htrap
  have hwords (j : Nat) (hj : j < opcode.operandCount) : m.holds (m.operandAddress j) = true := by
    simpa [misses_toNat] using hneeded _ (operandAddress_mem_needed hj)
  refine
    { modes := hmodes, stores := hstore
      needed := fun x hx => misses_eq_false_iff.1 (hneeded x hx)
      ticks := ?ticks, kept := ?kept, written := ?written, taken := ?taken, queue := ?queue
      rebased := ?rebased, base := ?base, jumped := ?jumped, passed := ?passed
      image := rfl, loadError := rfl }
  case ticks => exact UInt64.toNat_add m.ticks 1
  case kept =>
    intro hopcode
    have hslot : opcode.writeSlot? = none := by cases opcode <;> simp_all [Opcode.writeSlot?]
    rw [tape_apply, store_intent, hslot]
    rfl
  case written =>
    intro k hslot
    have hpointer := onTape_of_misses
      (hneeded _ (pointer_mem_needed (Opcode.writeSlot_lt hslot) (hstore k hslot)))
    have htape : (m.apply (m.intent opcode d)).tape =
        (m.poke (m.pointer (d k) k).toUInt64 (m.stored opcode d)).1.tape := by
      rw [tape_apply, store_intent, hslot]
      rfl
    refine ⟨hpointer, fun a => ?_⟩
    rw [peek?_of_tape htape, peek?_poke]
    simp [hpointer.2, eq_comm]
  case taken =>
    intro hopcode
    obtain ⟨w, ws, hqueue⟩ := List.exists_cons_of_ne_nil (hinput hopcode)
    simp [apply, intent, stored, hopcode, hqueue]
  case queue =>
    intro hopcode
    simp [apply, intent, hopcode]
  case rebased =>
    intro hopcode
    simp [apply, intent, hopcode]
  case base =>
    intro hopcode
    simp [apply, intent, hopcode]
  case jumped =>
    intro hjumps
    rw [← Word.toNat_toUInt64 (hjump hjumps)]
    simp [apply, intent, hjumps]
  case passed =>
    intro hjumps
    rw [← toNat_operandAddress hposition hwords, ← next_position]
    simp [apply, intent, next, hjumps]

theorem decode_eq_ok_iff : decode w = .ok (fields, opcode) ↔
    OpFields.ofWord? w = some fields ∧ fields.opcode? = some opcode := by
  unfold decode
  constructor
  · intro h
    split at h
    · cases h
    · split at h <;> cases h
      exact ⟨‹_›, ‹_›⟩
  · rintro ⟨hfields, hopcode⟩
    simp only [hfields, hopcode]

theorem word_of_fetch (h : m.fetch = .ok (fields, opcode)) :
    m.holds m.position = true ∧ decode (m.contents m.position) = .ok (fields, opcode) := by
  unfold fetch at h
  split at h
  · cases h
  · obtain ⟨w, hread, hdecode⟩ := exists_of_bind_eq_ok h
    have hpeek : m.peek? m.position = some w := by
      unfold read at hread
      split at hread <;> cases hread
      assumption
    have hword : m.contents m.position = w := by rw [contents, hpeek, Option.getD_some]
    have hholds : m.holds m.position = true := by rw [← isSome_peek?, hpeek, Option.isSome_some]
    exact ⟨hholds, by rw [hword, hdecode]⟩

/-- An instruction that is carried out changes what its opcode and its operands say, and nothing else. -/
theorem tick_carriesOut (h : m.tick.1.status = .ok ∨ m.tick.1.status = .output) :
    m.holds m.position = true ∧ 0 ≤ m.contents m.position ∧
      ∃ opcode, Opcode.ofCode? (Word.code (m.contents m.position)) = some opcode ∧
        m.CarriesOut opcode (Word.digit (m.contents m.position)) m.tick.2 := by
  have hadvances : m.advances = true := by simpa [advances] using h
  obtain ⟨e, hplan⟩ := exists_effect_of_advances hadvances
  obtain ⟨fields, opcode, hfetch, hcheck, hperforms⟩ := plan_eq_ok_iff.1 hplan
  obtain ⟨hposition, hdecode⟩ := word_of_fetch hfetch
  obtain ⟨hfields, hopcode⟩ := decode_eq_ok_iff.1 hdecode
  obtain ⟨hmodes, hstore⟩ := modes_of_checkModes hcheck
  have hdigit : fields.digit = Word.digit (m.contents m.position) :=
    funext (OpFields.digit_of_ofWord? hfields)
  have hqueue : opcode = .input → m.input ≠ [] := by
    rintro rfl hempty
    have hwaits : m.effect .input fields.mode = .error .inputRequired := by simp [effect, hempty]
    rw [hperforms.effect_eq] at hwaits
    cases hwaits
  obtain ⟨r, heffect, hr⟩ := exists_comesTo hperforms.ne_halt hqueue (fun k hk => (hmodes k hk).2)
    fun k hk => (hstore k hk).1
  rw [hperforms.effect_eq, eq_comm] at heffect
  rw [eq_ok_of_mapError heffect] at hr
  obtain ⟨htrap, rfl⟩ := hr.eq_of_ok
  refine ⟨hposition, OpFields.nonneg_of_ofWord? hfields, opcode, ?_, ?_⟩
  · rw [← OpFields.code_of_ofWord? hfields]
    exact hopcode
  · rw [tick_of_plan_ok hplan, ← hdigit]
    exact carriesOut_apply hposition hqueue (fun k hk => (hmodes k hk).1)
      (fun k hk => (hstore k hk).2) htrap

def overwriting : Machine := start [101, 9223372036854775807, 0, 0] (some (.blank .fixed 4))

/-- The opcode word is replaced by the sum that it is a part of, which wraps. -/
theorem carriesOut_overwriting : overwriting.tick.1.status = .ok ∧
    overwriting.tick.2.peek? 0 = some (-9223372036854775708) ∧ overwriting.tick.2.position = 4 := by
  have hok : overwriting.tick.1.status = .ok := by decide
  obtain ⟨-, -, opcode, hopcode, hframe⟩ := tick_carriesOut (.inl hok)
  cases hopcode.symm.trans (show _ = some Opcode.add by decide)
  refine ⟨hok, ?_, UInt64.toNat_inj.1 (hframe.passed rfl)⟩
  rw [(hframe.written 2 rfl).2]
  decide

end Machine
end TapeMachine
