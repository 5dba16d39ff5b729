import TapeMachine.Proofs.Machine.Step

/-! Machines that are alike but for their tapes. What one of them is about to do shows in what it
reads, so another that reads the same words is about to do the same. The two may part where the one
reads nothing at all, if memory faults are excused. -/

namespace TapeMachine

/-- Whether a computation comes out as another one, unless that one fails in an excused way. -/
def Follows {ε α : Type} (excused : ε → Prop) (r r' : Except ε α) : Prop :=
  (∀ e, r = .error e → ¬ excused e) → r' = r

namespace Follows

variable {ε α β : Type} {excused : ε → Prop}

theorem of_eq {r r' : Except ε α} (h : r' = r) : Follows excused r r' := fun _ => h

theorem of_excused {e : ε} {r r' : Except ε α} (hr : r = .error e) (h : excused e) :
    Follows excused r r' :=
  fun hnot => absurd h (hnot e hr)

theorem bind {r r' : Except ε α} {f f' : α → Except ε β} (hr : Follows excused r r')
    (hf : ∀ a, r = .ok a → Follows excused (f a) (f' a)) :
    Follows excused (r >>= f) (r' >>= f') := by
  intro h
  cases r with
  | error e =>
    have hr' : r' = .error e := hr fun e' he => h e' (by cases he; rfl)
    rw [hr', error_bind, error_bind]
  | ok a =>
    have hr' : r' = .ok a := hr (by simp)
    rw [hr']
    exact hf a rfl h

end Follows

namespace Machine

variable {excused : Status → Prop} {m m' : Machine}

/-- Whether a machine reads what another one reads. -/
structure Mimics (excused : Status → Prop) (m m' : Machine) : Prop where
  loadError : m'.loadError = m.loadError
  input : m'.input = m.input
  position : m'.position = m.position
  base : m'.base = m.base
  peek : ∀ a, m'.peek? a = m.peek? a ∨ (m.peek? a = none ∧ excused .memoryFault)
  first : (m.peek? m.position).isSome = true → m'.peek? 0 = m.peek? 0

namespace Mimics

theorem operandAddress (h : m.Mimics excused m') (i : Nat) :
    m'.operandAddress i = m.operandAddress i := by
  rw [Machine.operandAddress, Machine.operandAddress, h.position]

theorem effective (h : m.Mimics excused m') (mode : Mode) (w : Word) :
    m'.effective mode w = m.effective mode w := by
  rw [Machine.effective, Machine.effective, h.base]

theorem next (h : m.Mimics excused m') (opcode : Opcode) : m'.next opcode = m.next opcode := by
  rw [Machine.next, Machine.next, h.position, h.base]

theorem read (h : m.Mimics excused m') (a : Address) :
    Follows (excused ·.status) (m.read a) (m'.read a) := by
  rcases h.peek a with heq | ⟨hnone, hexcused⟩
  · exact .of_eq (by rw [Machine.read, Machine.read, heq])
  · have hfault : m.read a = .error (.readOutside a) := by rw [Machine.read, hnone]
    exact .of_excused hfault hexcused

theorem load (h : m.Mimics excused m') (mode : Mode) (i : Nat) :
    Follows (excused ·.status) (m.load mode i) (m'.load mode i) := by
  unfold Machine.load
  rw [h.operandAddress]
  refine (h.read _).bind fun w _ => ?_
  split
  · exact .of_eq rfl
  · rw [h.effective]
    exact .bind (.of_eq rfl) fun a _ => h.read a

theorem target (h : m.Mimics excused m') (mode : Mode) (i : Nat) :
    Follows (excused ·.status) (m.target mode i) (m'.target mode i) := by
  unfold Machine.target
  rw [h.operandAddress]
  refine (h.read _).bind fun w _ => ?_
  rw [h.effective]
  refine .bind (.of_eq rfl) fun a _ => ?_
  rw [← isSome_peek?, ← isSome_peek?]
  rcases h.peek a with heq | ⟨hnone, hexcused⟩
  · exact .of_eq (by rw [heq])
  · rw [hnone]
    have hfault : (FaultCause.writeOutside a).status = .memoryFault := rfl
    exact .of_excused rfl (hfault ▸ hexcused)

theorem combine (h : m.Mimics excused m') (opcode : Opcode) (mode : Nat → Mode)
    (f : Word → Word → Word) :
    Follows (excused ·.status) (m.combine opcode mode f) (m'.combine opcode mode f) := by
  unfold Machine.combine
  rw [h.next]
  refine (h.load _ 0).bind fun a _ => (h.load _ 1).bind fun b _ => (h.target _ 2).bind fun t _ => ?_
  exact .of_eq rfl

theorem jump (h : m.Mimics excused m') (opcode : Opcode) (mode : Nat → Mode) (taken : Word → Bool) :
    Follows (excused ·.status) (m.jump opcode mode taken) (m'.jump opcode mode taken) := by
  unfold Machine.jump
  rw [h.next]
  refine (h.load _ 0).bind fun c _ => (h.load _ 1).bind fun d _ => ?_
  exact .of_eq rfl

theorem attempt {α : Type} (h : m.Mimics excused m') (opcode : Option Opcode)
    {r r' : Except FaultCause α} (hr : Follows (excused ·.status) r r') :
    Follows (excused ·.status) (m.attempt opcode r) (m'.attempt opcode r') := by
  intro hnot
  have hr' : r' = r := hr fun c hc => by
    rw [hc, attempt_error] at hnot
    exact hnot _ rfl
  rw [hr', Machine.attempt, Machine.attempt, h.position, h.base]

theorem effect (h : m.Mimics excused m') (opcode : Opcode) (mode : Nat → Mode)
    (hfirst : m'.peek? 0 = m.peek? 0) :
    Follows (excused ·.status) (m.effect opcode mode) (m'.effect opcode mode) := by
  cases opcode with
  | add | mul | less | equal => exact h.attempt _ (h.combine _ mode _)
  | jumpIfTrue | jumpIfFalse => exact h.attempt _ (h.jump _ mode _)
  | halt => exact .of_eq (by rw [Machine.effect, Machine.effect, hfirst])
  | input =>
    unfold Machine.effect
    rw [h.input]
    cases m.input with
    | nil => exact .of_eq rfl
    | cons w ws =>
      refine h.attempt _ ((h.target _ 0).bind fun t _ => ?_)
      exact .of_eq (by rw [h.next])
  | output =>
    refine h.attempt _ ((h.load _ 0).bind fun w _ => ?_)
    exact .of_eq (by rw [h.next])
  | adjustBase =>
    refine h.attempt _ ((h.load _ 0).bind fun w _ => ?_)
    exact .of_eq (by rw [h.next, h.base])

theorem fetch (h : m.Mimics excused m') :
    Follows (excused ·.status) m.fetch m'.fetch := by
  unfold Machine.fetch
  rw [h.loadError, h.position]
  cases m.loadError with
  | some e => exact .of_eq rfl
  | none => exact (h.read _).bind fun w _ => .of_eq rfl

theorem peek?_zero_of_fetch (h : m.Mimics excused m') {f : OpFields × Opcode}
    (hf : m.fetch = .ok f) : m'.peek? 0 = m.peek? 0 := by
  refine h.first ?_
  unfold Machine.fetch at hf
  split at hf
  · cases hf
  · cases hp : m.peek? m.position with
    | none => simp [Machine.read, hp] at hf
    | some w => rfl

theorem plan (h : m.Mimics excused m') : Follows (excused ·.status) m.plan m'.plan := by
  unfold Machine.plan
  refine (h.attempt none h.fetch).bind fun f hf => ?_
  have hfetch : m.fetch = .ok f := by
    cases hm : m.fetch with
    | error c => simp [hm] at hf
    | ok f' => simpa [hm] using hf
  refine (h.attempt _ (.of_eq rfl)).bind fun _ _ => ?_
  exact h.effect f.2 f.1.mode (h.peek?_zero_of_fetch hfetch)

end Mimics

theorem reset_of_tape {t : Tape} (h : m.tape = some t) :
    m.reset =
      { image := m.image
        tape := some (t.cleared.load 0 m.image).1
        loadError :=
          if (t.cleared.load 0 m.image).2 = true then none
          else some (.tooSmall m.image.length t.capacity) } := by
  rw [reset, h]

/-- Whether two machines are the same but for their tapes, which are related. -/
structure Alike (R : Tape → Tape → Prop) (m m' : Machine) : Prop where
  image : m'.image = m.image
  tapes : ∃ t t', m.tape = some t ∧ m'.tape = some t' ∧ R t t'
  input : m'.input = m.input
  position : m'.position = m.position
  base : m'.base = m.base
  ticks : m'.ticks = m.ticks
  loadError : m'.loadError = m.loadError

namespace Alike

variable {R : Tape → Tape → Prop}

theorem pushAll (h : m.Alike R m') (ws : List Word) : (m.pushAll ws).Alike R (m'.pushAll ws) := by
  have hinput : m'.input ++ ws = m.input ++ ws := by rw [h.input]
  exact ⟨h.image, h.tapes, hinput, h.position, h.base, h.ticks, h.loadError⟩

theorem poke (h : m.Alike R m') {a : Address} {w : Word}
    (hwrite : ∀ t t', m.tape = some t → R t t' → R (t.write a w).1 (t'.write a w).1) :
    (m.poke a w).1.Alike R (m'.poke a w).1 := by
  obtain ⟨t, t', ht, ht', hR⟩ := h.tapes
  rw [poke_eq, poke_eq]
  refine ⟨h.image, ⟨(t.write a w).1, (t'.write a w).1, ?_, ?_, hwrite t t' ht hR⟩, h.input,
    h.position, h.base, h.ticks, h.loadError⟩
  · rw [ht, Option.map_some]
  · rw [ht', Option.map_some]

theorem apply (h : m.Alike R m') {e : Effect} (hwrite : ∀ a w t t', e.store = some (a, w) →
    m.tape = some t → R t t' → R (t.write a w).1 (t'.write a w).1) :
    (m.apply e).Alike R (m'.apply e) := by
  refine ⟨h.image, ?_, ?_, rfl, rfl, ?_, h.loadError⟩
  · rw [tape_apply, tape_apply]
    cases hs : e.store with
    | none => exact h.tapes
    | some s => exact (h.poke fun t t' => hwrite s.1 s.2 t t' hs).tapes
  · simp only [Machine.apply, h.input]
  · simp only [Machine.apply, h.ticks]

theorem tick (h : m.Alike R m') (hplan : m'.plan = m.plan)
    (hwrite : ∀ e a w t t', m.plan = .ok e → e.store = some (a, w) → m.tape = some t → R t t' →
      R (t.write a w).1 (t'.write a w).1) :
    m'.tick.1 = m.tick.1 ∧ m.tick.2.Alike R m'.tick.2 := by
  cases hp : m.plan with
  | error s =>
    rw [tick_of_plan_error hp, tick_of_plan_error (hplan.trans hp)]
    exact ⟨rfl, h⟩
  | ok e =>
    rw [tick_of_plan_ok hp, tick_of_plan_ok (hplan.trans hp)]
    exact ⟨rfl, h.apply fun a w t t' => hwrite e a w t t' hp⟩

end Alike

end Machine
end TapeMachine
