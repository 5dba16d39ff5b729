import TapeMachine.Machine.Run
import TapeMachine.Proofs.Machine.Plan

/-! One tick, opcode by opcode: `Performs` says which effect an operation has once its operands are
read, `Fails` why there is none. -/

namespace TapeMachine
namespace Opcode

/-- What the operation computes from its first two operands, where it stores a result. -/
def function? : Opcode → Option (Word → Word → Word)
  | add => some fun a b => a + b
  | mul => some fun a b => a * b
  | less => some fun a b => Word.ofBool (a < b)
  | equal => some fun a b => Word.ofBool (a = b)
  | input | output | jumpIfTrue | jumpIfFalse | adjustBase | halt => none

/-- On which words the operation jumps, where it is a jump. -/
def condition? : Opcode → Option (Word → Bool)
  | jumpIfTrue => some fun w => w ≠ 0
  | jumpIfFalse => some fun w => w = 0
  | add | mul | input | output | less | equal | adjustBase | halt => none

theorem writeSlot?_of_function {opcode : Opcode} {f : Word → Word → Word}
    (h : opcode.function? = some f) : opcode.writeSlot? = some 2 := by
  cases opcode <;> cases h <;> rfl

theorem isJump_of_condition {opcode : Opcode} {condition : Word → Bool}
    (h : opcode.condition? = some condition) : opcode.isJump = true := by
  cases opcode <;> cases h <;> rfl

end Opcode

namespace Machine

variable {m : Machine} {opcode : Opcode} {mode : Nat → Mode}

/-- The effects of an operation, with what its operands gave. -/
inductive Performs (m : Machine) (mode : Nat → Mode) : Opcode → Effect → Prop
  | combine {opcode f a b t} (function : opcode.function? = some f) (left : m.load (mode 0) 0 = .ok a)
      (right : m.load (mode 1) 1 = .ok b) (target : m.target (mode 2) 2 = .ok t) :
      Performs m mode opcode { m.next opcode with store := some (t, f a b) }
  | input {w ws t} (queue : m.input = w :: ws) (target : m.target (mode 0) 0 = .ok t) :
      Performs m mode .input { m.next .input with store := some (t, w), takesInput := true }
  | output {w} (source : m.load (mode 0) 0 = .ok w) :
      Performs m mode .output { m.next .output with output := some w }
  | taken {opcode condition c d a} (jump : opcode.condition? = some condition)
      (test : m.load (mode 0) 0 = .ok c) (holds : condition c = true)
      (destination : m.load (mode 1) 1 = .ok d) (address : Word.address? d = some a) :
      Performs m mode opcode { m.next opcode with position := a }
  | passed {opcode condition c d} (jump : opcode.condition? = some condition)
      (test : m.load (mode 0) 0 = .ok c) (fails : condition c = false)
      (destination : m.load (mode 1) 1 = .ok d) : Performs m mode opcode (m.next opcode)
  | adjustBase {w} (source : m.load (mode 0) 0 = .ok w) :
      Performs m mode .adjustBase { m.next .adjustBase with base := m.base + w }

/-- The reasons for which an operation with good modes has no effect. -/
inductive Fails (m : Machine) (mode : Nat → Mode) : Opcode → Stop → Prop
  | halt : Fails m mode .halt (.halted ((m.peek? 0).getD 0))
  | noInput (queue : m.input = []) : Fails m mode .input .inputRequired
  | load {opcode k cause} (bound : k < opcode.operandCount) (source : opcode.writeSlot? ≠ some k)
      (failed : m.load (mode k) k = .error cause) :
      Fails m mode opcode (.fault ⟨cause, m.position, some opcode, m.base⟩)
  | target {opcode k cause} (slot : opcode.writeSlot? = some k)
      (failed : m.target (mode k) k = .error cause) :
      Fails m mode opcode (.fault ⟨cause, m.position, some opcode, m.base⟩)
  | destination {opcode condition c d} (jump : opcode.condition? = some condition)
      (test : m.load (mode 0) 0 = .ok c) (holds : condition c = true)
      (destination : m.load (mode 1) 1 = .ok d) (negative : Word.address? d = none) :
      Fails m mode opcode (.fault ⟨.negativeTarget d, m.position, some opcode, m.base⟩)

theorem effect_of_function {f : Word → Word → Word} (h : opcode.function? = some f) :
    m.effect opcode mode = m.attempt (some opcode) (m.combine opcode mode f) := by
  cases opcode <;> cases h <;> rfl

theorem effect_of_condition {condition : Word → Bool} (h : opcode.condition? = some condition) :
    m.effect opcode mode = m.attempt (some opcode) (m.jump opcode mode condition) := by
  cases opcode <;> cases h <;> rfl

theorem Performs.effect_eq {e : Effect} (h : m.Performs mode opcode e) :
    m.effect opcode mode = .ok e := by
  cases h with
  | combine hf ha hb ht =>
    rw [effect_of_function hf]
    simp [Machine.combine, ha, hb, ht]
  | input hq ht => simp [effect, hq, ht]
  | output hw => simp [effect, hw]
  | taken hj hc hh hd ha =>
    rw [effect_of_condition hj]
    simp [jump, hc, hh, hd, ha]
  | passed hj hc hh hd =>
    rw [effect_of_condition hj]
    simp [jump, hc, hh, hd]
  | adjustBase hw => simp [effect, hw]

/-- Whether an operation has an effect. -/
def Decided (m : Machine) (mode : Nat → Mode) (opcode : Opcode) : Prop :=
  (∃ e, m.Performs mode opcode e) ∨ ∃ s, m.Fails mode opcode s ∧ m.effect opcode mode = .error s

theorem decided_of_function {f : Word → Word → Word} (h : opcode.function? = some f) :
    m.Decided mode opcode := by
  have hcount : opcode.operandCount = 3 := by cases opcode <;> cases h <;> rfl
  have hslot := Opcode.writeSlot?_of_function h
  have heffect : m.effect opcode mode = _ := effect_of_function h
  cases ha : m.load (mode 0) 0 with
  | error c =>
    exact .inr ⟨_, .load (by omega) (by simp [hslot]) ha, by simp [heffect, combine, ha]⟩
  | ok a =>
    cases hb : m.load (mode 1) 1 with
    | error c =>
      exact .inr ⟨_, .load (by omega) (by simp [hslot]) hb, by simp [heffect, combine, ha, hb]⟩
    | ok b =>
      cases ht : m.target (mode 2) 2 with
      | error c => exact .inr ⟨_, .target hslot ht, by simp [heffect, combine, ha, hb, ht]⟩
      | ok t => exact .inl ⟨_, .combine h ha hb ht⟩

theorem decided_of_condition {condition : Word → Bool} (h : opcode.condition? = some condition) :
    m.Decided mode opcode := by
  have hcount : opcode.operandCount = 2 := by cases opcode <;> cases h <;> rfl
  have hslot : opcode.writeSlot? = none := by cases opcode <;> cases h <;> rfl
  have heffect : m.effect opcode mode = _ := effect_of_condition h
  cases hc : m.load (mode 0) 0 with
  | error c =>
    exact .inr ⟨_, .load (by omega) (by simp [hslot]) hc, by simp [heffect, jump, hc]⟩
  | ok c =>
    cases hd : m.load (mode 1) 1 with
    | error x =>
      exact .inr ⟨_, .load (by omega) (by simp [hslot]) hd, by simp [heffect, jump, hc, hd]⟩
    | ok d =>
      cases hh : condition c with
      | false => exact .inl ⟨_, .passed h hc hh hd⟩
      | true =>
        cases ha : Word.address? d with
        | some a => exact .inl ⟨_, .taken h hc hh hd ha⟩
        | none => exact .inr ⟨_, .destination h hc hh hd ha, by simp [heffect, jump, hc, hd, hh, ha]⟩

theorem decided (m : Machine) (mode : Nat → Mode) (opcode : Opcode) : m.Decided mode opcode := by
  cases opcode with
  | add | mul | less | equal => exact decided_of_function rfl
  | jumpIfTrue | jumpIfFalse => exact decided_of_condition rfl
  | halt => exact .inr ⟨_, .halt, rfl⟩
  | input =>
    cases hq : m.input with
    | nil => exact .inr ⟨_, .noInput hq, by simp [effect, hq]⟩
    | cons w ws =>
      cases ht : m.target (mode 0) 0 with
      | error c => exact .inr ⟨_, .target rfl ht, by simp [effect, hq, ht]⟩
      | ok t => exact .inl ⟨_, .input hq ht⟩
  | output =>
    cases hw : m.load (mode 0) 0 with
    | error c => exact .inr ⟨_, .load (by decide) (by decide) hw, by simp [effect, hw]⟩
    | ok w => exact .inl ⟨_, .output hw⟩
  | adjustBase =>
    cases hw : m.load (mode 0) 0 with
    | error c => exact .inr ⟨_, .load (by decide) (by decide) hw, by simp [effect, hw]⟩
    | ok w => exact .inl ⟨_, .adjustBase hw⟩

theorem effect_eq_ok_iff {e : Effect} : m.effect opcode mode = .ok e ↔ m.Performs mode opcode e := by
  constructor
  · intro he
    rcases m.decided mode opcode with ⟨e', h⟩ | ⟨s, -, hs⟩
    · cases h.effect_eq.symm.trans he
      exact h
    · cases hs.symm.trans he
  · exact Performs.effect_eq

theorem fails_of_effect {s : Stop} (h : m.effect opcode mode = .error s) : m.Fails mode opcode s := by
  rcases m.decided mode opcode with ⟨e, he⟩ | ⟨s', hf, hs⟩
  · cases he.effect_eq.symm.trans h
  · cases hs.symm.trans h
    exact hf

theorem Performs.store_eq {e : Effect} {a : Address} {w : Word} (h : m.Performs mode opcode e)
    (he : e.store = some (a, w)) : ∃ k, opcode.writeSlot? = some k ∧ m.target (mode k) k = .ok a := by
  cases h with
  | combine hf _ _ ht =>
    cases he
    exact ⟨2, Opcode.writeSlot?_of_function hf, ht⟩
  | input _ ht =>
    cases he
    exact ⟨0, rfl, ht⟩
  | output | taken | passed | adjustBase => cases he

/-- An operation goes on, unless it is a jump that is taken. -/
theorem Performs.position_eq {e : Effect} (h : m.Performs mode opcode e) :
    (e.position = (m.next opcode).position ∧ ∀ condition, opcode.condition? = some condition →
      ∃ c, m.load (mode 0) 0 = .ok c ∧ condition c = false) ∨
    ∃ condition d, opcode.condition? = some condition ∧ m.load (mode 1) 1 = .ok d ∧
      Word.address? d = some e.position := by
  cases h with
  | combine hf => exact .inl ⟨rfl, fun _ hc => by cases opcode <;> cases hf <;> cases hc⟩
  | input | output | adjustBase => exact .inl ⟨rfl, fun _ hc => by cases hc⟩
  | taken hj _ _ hd ha => exact .inr ⟨_, _, hj, hd, ha⟩
  | passed hj hc hf =>
    refine .inl ⟨rfl, fun _ hj' => ?_⟩
    cases hj.symm.trans hj'
    exact ⟨_, hc, hf⟩

theorem toNat_operandAddress_of_lt {k : Nat} (h : m.position.toNat + 1 + k < UInt64.size) :
    (m.operandAddress k).toNat = m.position.toNat + 1 + k := by
  have hk : k < UInt64.size := by omega
  rw [UInt64.size] at h
  rw [operandAddress, UInt64.toNat_add, UInt64.toNat_add, UInt64.toNat_ofNat_of_lt' hk, UInt64.toNat_one]
  omega

theorem Performs.ne_halt {e : Effect} (h : m.Performs mode opcode e) : opcode ≠ .halt := by
  rintro rfl
  cases h with
  | combine hf => cases hf
  | taken hj | passed hj => cases hj

theorem holds_of_target {mode : Mode} {k : Nat} {a : Address} (h : m.target mode k = .ok a) :
    m.holds a = true := by
  unfold target at h
  cases hr : m.read (m.operandAddress k) with
  | error c => simp [hr] at h
  | ok w =>
    cases he : m.effective mode w with
    | error c => simp [hr, he] at h
    | ok b =>
      simp only [hr, he, ok_bind] at h
      split at h
      · cases h
        assumption
      · cases h

theorem status_of_load {mode : Mode} {k : Nat} {cause : FaultCause}
    (h : m.load mode k = .error cause) : cause.status = .memoryFault := by
  have hread (a : Address) (c : FaultCause) (h : m.read a = .error c) : c.status = .memoryFault := by
    unfold read at h
    split at h <;> cases h
    rfl
  unfold load at h
  cases hw : m.read (m.operandAddress k) with
  | error c =>
    simp only [hw, error_bind] at h
    cases h
    exact hread _ _ hw
  | ok w =>
    simp only [hw, ok_bind] at h
    split at h
    · cases h
    · unfold effective at h
      dsimp only at h
      split at h
      · exact hread _ _ h
      · cases h
        rfl

theorem plan_of_decode {w : Word} {fields : OpFields} (hloaded : m.loadError = none)
    (hread : m.peek? m.position = some w) (hdecode : decode w = .ok (fields, opcode))
    (hmodes : checkModes fields opcode = .ok ()) : m.plan = m.effect opcode fields.mode := by
  have hfetch : m.fetch = .ok (fields, opcode) := by
    rw [fetch, hloaded]
    simp [read, hread, hdecode]
  simp [plan, hfetch, hmodes]

/-- What a tick does is the effect of the operation at the position. -/
theorem plan_eq_ok_iff {e : Effect} :
    m.plan = .ok e ↔ ∃ fields opcode, m.fetch = .ok (fields, opcode) ∧
      checkModes fields opcode = .ok () ∧ m.Performs fields.mode opcode e := by
  unfold plan
  constructor
  · intro h
    rcases hf : m.fetch with c | ⟨fields, opcode⟩
    · simp [hf] at h
    · rcases hc : checkModes fields opcode with c | ⟨⟩
      · simp [hf, hc] at h
      · simp only [hf, hc, attempt_ok, ok_bind] at h
        exact ⟨fields, opcode, rfl, hc, effect_eq_ok_iff.1 h⟩
  · rintro ⟨fields, opcode, hf, hc, h⟩
    simp only [hf, hc, attempt_ok, ok_bind]
    exact effect_eq_ok_iff.2 h

theorem performs_of_plan {e : Effect} (h : m.plan = .ok e) :
    ∃ mode opcode, m.Performs mode opcode e := by
  obtain ⟨fields, opcode, -, -, hperforms⟩ := plan_eq_ok_iff.1 h
  exact ⟨fields.mode, opcode, hperforms⟩

theorem tick_of_stopped {m m' : Machine} {s : Stop} (h : m.tick = (.stopped s, m')) :
    m.plan = .error s ∧ m' = m := by
  cases hp : m.plan with
  | error s' =>
    rw [tick_of_plan_error hp] at h
    cases h
    exact ⟨rfl, rfl⟩
  | ok e =>
    rw [tick_of_plan_ok hp] at h
    cases ho : e.output <;> simp [ho] at h

theorem isSome_peek? (m : Machine) (a : Address) : (m.peek? a).isSome = m.holds a := by
  cases ht : m.tape with
  | none => simp [peek?, holds, ht]
  | some t => simp [peek?, holds, ht, Tape.isSome_read?]

theorem peek?_poke (m : Machine) (a b : Address) (w : Word) :
    (m.poke a w).1.peek? b = if a = b ∧ m.holds a = true then some w else m.peek? b := by
  cases ht : m.tape with
  | none => simp [poke, peek?, holds, ht]
  | some t => simp [poke, peek?, holds, ht, Tape.read?_write]

@[simp] theorem holds_poke (m : Machine) (a b : Address) (w : Word) :
    (m.poke a w).1.holds b = m.holds b := by
  cases ht : m.tape <;> simp [poke, holds, ht]

theorem peek?_of_tape {m m' : Machine} (h : m'.tape = m.tape) (a : Address) :
    m'.peek? a = m.peek? a := by
  rw [peek?, peek?, h]

@[simp] theorem holds_apply (m : Machine) (e : Effect) (a : Address) :
    (m.apply e).holds a = m.holds a := by
  rw [holds, tape_apply]
  cases e.store with
  | none => rfl
  | some s => exact holds_poke m s.1 a s.2

end Machine
end TapeMachine
