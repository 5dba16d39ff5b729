import TapeMachine.Machine.Tick
import TapeMachine.Proofs.Passes
import TapeMachine.Proofs.Tape

/-! The plan of a tick: what an instruction will do, or why it will stop, worked out beforehand from
the machine as it is. A tick that changes its machine part by part comes to what the plan says, so
it changes all or nothing. -/

namespace TapeMachine

/-- All that an instruction changes. -/
structure Effect where
  position : Address
  base : Word
  store : Option (Address × Word) := none
  takesInput : Bool := false
  output : Option Word := none
  deriving DecidableEq

namespace Machine

def holds (m : Machine) (a : Address) : Bool := m.tape.any (·.holds a)

/-- The address that an operand stores into. -/
def target (m : Machine) (mode : Mode) (i : Nat) : Except FaultCause Address := do
  let a ← m.effective mode (← m.read (m.operandAddress i))
  if m.holds a then .ok a else .error (.writeOutside a)

/-- The effect of going on to the next instruction. -/
def next (m : Machine) (opcode : Opcode) : Effect :=
  { position := m.position + 1 + UInt64.ofNat opcode.operandCount, base := m.base }

def combine (m : Machine) (opcode : Opcode) (mode : Nat → Mode) (f : Word → Word → Word) :
    Except FaultCause Effect := do
  let a ← m.load (mode 0) 0
  let b ← m.load (mode 1) 1
  let t ← m.target (mode 2) 2
  return { m.next opcode with store := some (t, f a b) }

def jump (m : Machine) (opcode : Opcode) (mode : Nat → Mode) (taken : Word → Bool) :
    Except FaultCause Effect := do
  let condition ← m.load (mode 0) 0
  let destination ← m.load (mode 1) 1
  if taken condition then
    match Word.address? destination with
    | some a => return { m.next opcode with position := a }
    | none => .error (.negativeTarget destination)
  else return m.next opcode

/-- Names the place where a fault arose. -/
def attempt {α : Type} (m : Machine) (opcode : Option Opcode) (r : Except FaultCause α) :
    Except Stop α :=
  r.mapError fun cause => .fault ⟨cause, m.position, opcode, m.base⟩

/-- The effect of an instruction whose modes are known to be good. -/
def effect (m : Machine) (opcode : Opcode) (mode : Nat → Mode) : Except Stop Effect :=
  match opcode with
  | .add => m.attempt opcode (m.combine opcode mode fun a b => a + b)
  | .mul => m.attempt opcode (m.combine opcode mode fun a b => a * b)
  | .less => m.attempt opcode (m.combine opcode mode fun a b => Word.ofBool (a < b))
  | .equal => m.attempt opcode (m.combine opcode mode fun a b => Word.ofBool (a = b))
  | .input =>
    match m.input with
    | [] => .error .inputRequired
    | w :: _ => m.attempt opcode do
      return { m.next opcode with store := some (← m.target (mode 0) 0, w), takesInput := true }
  | .output => m.attempt opcode do
    return { m.next opcode with output := some (← m.load (mode 0) 0) }
  | .jumpIfTrue => m.attempt opcode (m.jump opcode mode fun w => w ≠ 0)
  | .jumpIfFalse => m.attempt opcode (m.jump opcode mode fun w => w = 0)
  | .adjustBase => m.attempt opcode do
    return { m.next opcode with base := m.base + (← m.load (mode 0) 0) }
  | .halt => .error (.halted ((m.peek? 0).getD 0))

def fetch (m : Machine) : Except FaultCause (OpFields × Opcode) :=
  match m.loadError with
  | some e => .error (.notLoaded e)
  | none => do decode (← m.read m.position)

def plan (m : Machine) : Except Stop Effect := do
  let (fields, opcode) ← m.attempt none m.fetch
  m.attempt opcode (checkModes fields opcode)
  m.effect opcode fields.mode

def apply (m : Machine) (e : Effect) : Machine :=
  { m with
    tape :=
      match e.store with
      | some (a, w) => m.tape.map fun t => (t.write a w).1
      | none => m.tape
    input := if e.takesInput then m.input.tail else m.input
    position := e.position
    base := e.base
    ticks := m.ticks + 1 }

variable {m : Machine} {opcode : Opcode} {mode : Nat → Mode}

@[simp] theorem attempt_ok {α : Type} (m : Machine) (o : Option Opcode) (a : α) :
    m.attempt o (.ok a) = .ok a := rfl

@[simp] theorem attempt_error {α : Type} (m : Machine) (o : Option Opcode) (c : FaultCause) :
    m.attempt o (.error c : Except FaultCause α) = .error (.fault ⟨c, m.position, o, m.base⟩) := rfl

/-- Poking changes the tape only. -/
theorem poke_eq (m : Machine) (a : Address) (w : Word) :
    m.poke a w = ({ m with tape := m.tape.map fun t => (t.write a w).1 }, m.holds a) := by
  obtain ⟨image, tape, _⟩ := m
  cases tape with
  | none => rfl
  | some t => simp [poke, holds, Tape.write_snd]

@[simp] theorem image_poke (m : Machine) (a : Address) (w : Word) :
    (m.poke a w).1.image = m.image := by
  rw [poke_eq]

@[simp] theorem position_poke (m : Machine) (a : Address) (w : Word) :
    (m.poke a w).1.position = m.position := by
  rw [poke_eq]

@[simp] theorem input_poke (m : Machine) (a : Address) (w : Word) :
    (m.poke a w).1.input = m.input := by
  rw [poke_eq]

theorem tape_apply (m : Machine) (e : Effect) :
    (m.apply e).tape = (e.store.elim m fun (a, w) => (m.poke a w).1).tape := by
  unfold apply
  split <;> simp [*, poke_eq]

theorem poke_of_not_holds {a : Address} (h : m.holds a = false) (w : Word) :
    m.poke a w = (m, false) := by
  obtain ⟨image, tape, _⟩ := m
  cases tape with
  | none => rfl
  | some t =>
    have ha : ¬ a < t.capacity := by simpa [holds, Tape.holds] using h
    simp [poke, Tape.write_of_not_lt ha]

end Machine

namespace Action

variable {p : Processor} {opcode : Opcode} {mode : Nat → Mode}

/-- What an action comes to that changes nothing but finds something out. -/
def found {α : Type} (p : Processor) : Except Stop α → EStateM.Result Stop Processor α
  | .ok a => .ok a p
  | .error s => .error s p

/-- What an action comes to that has an effect or changes nothing. -/
def done (p : Processor) : Except Stop Effect → EStateM.Result Stop Processor Outcome
  | .ok e => .ok (e.output.elim .ok .output) { p with toMachine := p.apply e }
  | .error s => .error s p

theorem run_query {α : Type} (question : Machine → Except FaultCause α) (p : Processor) :
    (query question).run p = found p (p.attempt p.current (question p.toMachine)) := by
  simp only [query, EStateM.run_bind, EStateM.run_get]
  cases question p.toMachine <;> rfl

theorem run_storeOperand {mode : Mode} (h : mode ≠ .immediate) (i : Nat) (w : Word) (p : Processor) :
    (storeOperand mode i w).run p =
      match p.attempt p.current (p.target mode i) with
      | .ok a => .ok () { p with toMachine := (p.poke a w).1 }
      | .error s => .error s p := by
  rw [storeOperand, if_neg h]
  simp only [EStateM.run_bind, run_query, Machine.target]
  cases p.read (p.operandAddress i) with
  | error c => rfl
  | ok word =>
    simp only [found, Machine.attempt_ok, ok_bind]
    cases p.effective mode word with
    | error c => rfl
    | ok a =>
      simp only [Machine.attempt_ok, ok_bind]
      cases hholds : p.holds a with
      | false =>
        -- the write is tried before it is known to fail, and then it has changed nothing
        have hpoke := Machine.poke_of_not_holds hholds w
        simp [store, hpoke, fault]
      | true => simp [store, Machine.poke_eq, hholds]

theorem run_combine (h : mode 2 ≠ .immediate) (hcurrent : p.current = some opcode)
    (f : Word → Word → Word) :
    (finish (combine mode (p.next opcode).position f)).run p =
      done p (p.attempt opcode (p.combine opcode mode f)) := by
  rw [← hcurrent]
  simp only [finish, combine, EStateM.run_bind, run_query, run_storeOperand h, Machine.combine]
  cases p.load (mode 0) 0 with
  | error c => rfl
  | ok a =>
    simp only [found, Machine.attempt_ok, ok_bind]
    cases p.load (mode 1) 1 with
    | error c => rfl
    | ok b =>
      simp only [Machine.attempt_ok, ok_bind]
      cases p.target (mode 2) 2 with
      | error c => rfl
      | ok t => simp [Machine.poke_eq, moveTo, countTick, done, Machine.apply, Machine.next]

theorem run_jump (hcurrent : p.current = some opcode) (taken : Word → Bool) :
    (finish (jump mode (p.next opcode).position taken)).run p =
      done p (p.attempt opcode (p.jump opcode mode taken)) := by
  rw [← hcurrent]
  simp only [finish, jump, EStateM.run_bind, run_query, Machine.jump]
  cases p.load (mode 0) 0 with
  | error c => rfl
  | ok c =>
    simp only [found, Machine.attempt_ok, ok_bind]
    cases p.load (mode 1) 1 with
    | error c => rfl
    | ok d =>
      simp only [Machine.attempt_ok, ok_bind]
      cases taken c with
      | false => rfl
      | true => cases Word.address? d <;> rfl

/-- Where the operation may store as its mode says, carrying it out has the effect that was planned. -/
theorem run_execute (hslot : ∀ k, opcode.writeSlot? = some k → mode k ≠ .immediate)
    (hcurrent : p.current = some opcode) :
    (execute opcode mode).run p = done p (p.effect opcode mode) := by
  simp only [execute, EStateM.run_bind, EStateM.run_get]
  cases opcode with
  | add | mul | less | equal => exact run_combine (hslot 2 rfl) hcurrent _
  | jumpIfTrue | jumpIfFalse => exact run_jump hcurrent _
  | halt => rfl
  | input =>
    simp only [finish, input, EStateM.run_bind, EStateM.run_get, Machine.effect]
    cases hqueue : p.input with
    | nil => rfl
    | cons w ws =>
      simp only [run_storeOperand (hslot 0 rfl), hcurrent, EStateM.run_bind]
      cases p.target (mode 0) 0 with
      | error c => rfl
      | ok t =>
        simp [Machine.poke_eq, moveTo, countTick, done, Machine.apply, Machine.next, hqueue, hcurrent]
  | output =>
    simp only [output, EStateM.run_bind, run_query, hcurrent, Machine.effect]
    cases p.load (mode 0) 0 <;> rfl
  | adjustBase =>
    simp only [finish, adjustBase, EStateM.run_bind, run_query, hcurrent, Machine.effect]
    cases p.load (mode 0) 0 <;> rfl

theorem mode_ne_immediate {fields : OpFields} (h : Machine.checkModes fields opcode = .ok ()) {k : Nat}
    (hk : opcode.writeSlot? = some k) : fields.mode k ≠ .immediate := by
  unfold Machine.checkModes at h
  split at h
  · cases h
  · split at h
    · cases h
    · simp_all

/-- A tick comes to what was planned, whichever opcode is remembered from before. -/
theorem run_tick (m : Machine) (before : Option Opcode) :
    ∃ current, tick.run ⟨m, before⟩ = done ⟨m, current⟩ m.plan := by
  simp only [tick, remember, fetch, EStateM.run_bind, EStateM.run_modify, run_query, Machine.plan,
    Machine.fetch]
  cases m.loadError with
  | some e => exact ⟨none, rfl⟩
  | none =>
    cases m.read m.position with
    | error c => exact ⟨none, rfl⟩
    | ok w =>
      simp only [found, Machine.attempt_ok, ok_bind]
      cases Machine.decode w with
      | error c => exact ⟨none, rfl⟩
      | ok f =>
        obtain ⟨fields, opcode⟩ := f
        refine ⟨some opcode, ?_⟩
        simp only [Machine.attempt_ok, ok_bind]
        cases hmodes : Machine.checkModes fields opcode with
        | error c => rfl
        | ok _ =>
          exact run_execute (fun _ => mode_ne_immediate hmodes) rfl

end Action

namespace Machine

variable {m : Machine}

theorem tick_of_plan_ok {e : Effect} (h : m.plan = .ok e) :
    m.tick = (e.output.elim .ok .output, m.apply e) := by
  obtain ⟨current, hrun⟩ := Action.run_tick m none
  rw [tick, Processor.tick, hrun, h]
  rfl

theorem tick_of_plan_error {s : Stop} (h : m.plan = .error s) : m.tick = (.stopped s, m) := by
  obtain ⟨current, hrun⟩ := Action.run_tick m none
  rw [tick, Processor.tick, hrun, h]
  rfl

end Machine

/-- What a tick comes to does not depend on the opcode that is remembered from the tick before. -/
theorem Processor.tick_toMachine (p : Processor) :
    p.tick.1 = p.toMachine.tick.1 ∧ p.tick.2.toMachine = p.toMachine.tick.2 := by
  obtain ⟨current, hrun⟩ := Action.run_tick p.toMachine p.current
  cases hplan : p.plan with
  | error s =>
    rw [tick, hrun, hplan, Machine.tick_of_plan_error hplan]
    exact ⟨rfl, rfl⟩
  | ok e =>
    rw [tick, hrun, hplan, Machine.tick_of_plan_ok hplan]
    exact ⟨rfl, rfl⟩

end TapeMachine
