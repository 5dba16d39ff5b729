import TapeMachine.Proofs.Machine.Feeding
import TapeMachine.Proofs.Machine.Session

/-! Machines at rest. A tick that stops changes nothing, so it stops again for the same reason, and
so does every tick and run after it, whatever input comes; but a machine that waits for input goes
on once there is some. -/

namespace TapeMachine
namespace Machine

/-- The stop that a tick or a run comes to, with the machine that it leaves behind. -/
inductive StopsAt (m : Machine) : Stop → Machine → Prop
  | tick {s m'} (stopped : m.tick = (.stopped s, m')) : StopsAt m s m'
  | run {n r} (finished : m.run n = some r) : StopsAt m r.stop r.machine

/-- Whether the next tick stops the machine. -/
def Rests (m : Machine) (s : Stop) : Prop := m.tick = (.stopped s, m)

/-- The answers of a machine at rest to requests that do not intervene. -/
inductive Repeats (m : Machine) (s : Stop) : Request → Answer → Prop
  | tick : Repeats m s .tick (.ticked (.stopped s))
  | run : Repeats m s .run (.ran [] s)
  | peek (x) : Repeats m s (.peek x) (.found (m.peek? x))
  | push (w) : Repeats m s (.push w) .pushed
  | pushAll (ws) : Repeats m s (.pushAll ws) .pushed

variable {m m' : Machine} {s : Stop} {q : Request} {a : Answer}

theorem StopsAt.rests (h : m.StopsAt s m') : m'.Rests s := by
  cases h with
  | tick ht =>
    obtain ⟨-, rfl⟩ := tick_of_stopped ht
    exact ht
  | run hr => exact (ends_of_run hr).tick_eq

theorem tick_eq_self_of_status (hok : m.tick.1.status ≠ .ok) (houtput : m.tick.1.status ≠ .output) :
    m.tick.2 = m := by
  rcases m.tick_cases with ⟨s, h⟩ | ⟨m', h⟩ | ⟨w, m', h⟩
  · rw [h]
  · exact absurd (by rw [h]; rfl) hok
  · exact absurd (by rw [h]; rfl) houtput

theorem Rests.pushAll (h : m.Rests s) {ws : List Word} (hs : s = .inputRequired → ws = []) :
    (m.pushAll ws).Rests s := by
  by_cases hi : s = .inputRequired
  · rw [hs hi, pushAll_nil]
    exact h
  · exact tick_pushAll h (by simpa using hi) ws

/-- A machine at rest answers every request that does not intervene, and stays the machine it is
but for the input that is pushed. -/
theorem Rests.answers_iff (h : m.Rests s) (hq : q.intervenes = false) :
    m.Answers q a m' ↔ m.Repeats s q a ∧ m' = m.pushAll q.input := by
  have hnone : m = m.pushAll [] := (pushAll_nil m).symm
  have htick : m.tick = (.stopped s, m) := h
  constructor
  · intro ha
    cases ha with
    | tick =>
      rw [htick]
      exact ⟨.tick, hnone⟩
    | run hr =>
      cases (ends_of_run hr).unique (.stop htick)
      exact ⟨.run, hnone⟩
    | push w => exact ⟨.push w, rfl⟩
    | pushAll ws => exact ⟨.pushAll ws, rfl⟩
    | peek x => exact ⟨.peek x, hnone⟩
    | poke | reset => cases hq
  · rintro ⟨ha, rfl⟩
    cases ha with
    | tick =>
      have hanswer : m.Answers .tick (.ticked m.tick.1) m.tick.2 := .tick
      rw [htick] at hanswer
      simpa [Request.input] using hanswer
    | run =>
      have hanswer : m.Answers .run (.ran [] s) m := .run (run_succ_of_stopped htick 0)
      simpa [Request.input] using hanswer
    | peek x =>
      have hanswer : m.Answers (.peek x) (.found (m.peek? x)) m := .peek x
      simpa [Request.input] using hanswer
    | push w => exact .push w
    | pushAll ws => exact .pushAll ws

theorem repeats_pushAll (ws : List Word) : (m.pushAll ws).Repeats s q a ↔ m.Repeats s q a := by
  have hpeek (x : Address) : (m.pushAll ws).peek? x = m.peek? x := rfl
  constructor
  · rintro (_ | _ | x | w | ws')
    exacts [.tick, .run, .peek x, .push w, .pushAll ws']
  · rintro (_ | _ | x | w | ws')
    exacts [.tick, .run, hpeek x ▸ .peek x, .push w, .pushAll ws']

theorem Rests.session_iff {log : List (Request × Answer)} (h : m.Rests s)
    (hq : ∀ entry ∈ log, entry.1.intervenes = false)
    (hs : s = .inputRequired → log.flatMap (·.1.input) = []) :
    m.Session log m' ↔
      (∀ entry ∈ log, m.Repeats s entry.1 entry.2) ∧ m' = m.pushAll (log.flatMap (·.1.input)) := by
  induction log generalizing m with
  | nil =>
    constructor
    · rintro ⟨⟩
      simp
    · rintro ⟨-, rfl⟩
      simpa using Session.nil
  | cons entry log ih =>
    obtain ⟨q, a⟩ := entry
    have hfirst : q.intervenes = false := hq (q, a) (by simp)
    have hlog : ∀ entry ∈ log, entry.1.intervenes = false := fun entry he => hq entry (by simp [he])
    have hinput : s = .inputRequired → q.input = [] ∧ log.flatMap (·.1.input) = [] := fun hi => by
      simpa using hs hi
    have hnext := ih (h.pushAll fun hi => (hinput hi).1) hlog fun hi => (hinput hi).2
    simp only [repeats_pushAll, pushAll_pushAll] at hnext
    rw [List.forall_mem_cons, List.flatMap_cons]
    constructor
    · rintro (_ | ⟨ha, hrest⟩)
      obtain ⟨hrepeats, rfl⟩ := (h.answers_iff hfirst).1 ha
      obtain ⟨hall, rfl⟩ := hnext.1 hrest
      exact ⟨⟨hrepeats, hall⟩, rfl⟩
    · rintro ⟨⟨hrepeats, hall⟩, rfl⟩
      exact .cons ((h.answers_iff hfirst).2 ⟨hrepeats, rfl⟩) (hnext.2 ⟨hall, rfl⟩)

/-- A tick does all or nothing, whichever opcode is remembered from the tick before, and a machine
that has stopped goes on giving the same answers: for good if it has halted or faulted, until
something is pushed if it waits for input. -/
theorem session_of_stopsAt :
    (∀ m : Machine, m.tick.1.status ≠ .ok → m.tick.1.status ≠ .output → m.tick.2 = m) ∧
    (∀ p : Processor, p.tick.1 = p.toMachine.tick.1 ∧ p.tick.2.toMachine = p.toMachine.tick.2) ∧
    ∀ (m m₁ m₂ : Machine) (s : Stop) (log : List (Request × Answer)), m.StopsAt s m₁ →
      (∀ entry ∈ log, entry.1.intervenes = false) →
      (s = .inputRequired → log.flatMap (·.1.input) = []) →
      (m₁.Session log m₂ ↔
        (∀ entry ∈ log, m₁.Repeats s entry.1 entry.2) ∧
          m₂ = m₁.pushAll (log.flatMap (·.1.input))) :=
  ⟨fun _ => tick_eq_self_of_status, Processor.tick_toMachine,
    fun _ _ _ _ _ hstop => hstop.rests.session_iff⟩

/-- Has input, and an instruction that would store it at a negative address. -/
def misdirected : Machine := (start [3, -1] (some (.blank .fixed 4))).push 5

def misdirection : Stop := .fault ⟨.negativeAddress (-1), 0, some .input, 0⟩

theorem session_misdirected :
    misdirected.StopsAt misdirection misdirected ∧
      misdirected.Session
        [(.push 7, .pushed), (.tick, .ticked (.stopped misdirection)), (.peek 1, .found (some (-1))),
          (.run, .ran [] misdirection)] (misdirected.pushAll [7]) := by
  have hstop : misdirected.StopsAt misdirection misdirected := .tick rfl
  refine ⟨hstop, (session_of_stopsAt.2.2 _ _ _ _ _ hstop (by decide) (by decide)).2 ⟨?_, rfl⟩⟩
  have hpeek : misdirected.Repeats misdirection (.peek 1) (.found (some (-1))) := .peek 1
  simp only [List.forall_mem_cons]
  exact ⟨.push 7, .tick, hpeek, .run, by simp⟩

end Machine
end TapeMachine
