import TapeMachine.Proofs.Machine.Likeness
import TapeMachine.Proofs.Machine.Session
import TapeMachine.Proofs.Tape.Store

/-! Machines whose tapes hold the same words, however they store them. Such machines do the same at
every tick and stay such machines, whatever is asked of them, so nothing that they answer and nothing
that shows of them tells one kind of tape from another. -/

namespace TapeMachine
namespace Tape

variable {t t' : Tape}

theorem Agrees.symm (h : t.Agrees t') : t'.Agrees t := ⟨h.capacity.symm, fun a => (h.read a).symm⟩

theorem Agrees.holds_eq (h : t.Agrees t') (a : Address) : t'.holds a = t.holds a := by
  rw [holds, holds, h.capacity]

theorem Agrees.write (h : t.Agrees t') (a : Address) (w : Word) :
    (t.write a w).1.Agrees (t'.write a w).1 :=
  (h.perform (.write a w)).2

theorem Agrees.cleared (h : t.Agrees t') : t.cleared.Agrees t'.cleared := (h.perform .clear).2

/-- Loading comes to the same end on both tapes, also where not all words fit. -/
theorem Agrees.load (h : t.Agrees t') (a : Address) (ws : List Word) :
    (t.load a ws).1.Agrees (t'.load a ws).1 ∧ (t'.load a ws).2 = (t.load a ws).2 := by
  induction ws generalizing t t' a with
  | nil => exact ⟨h, rfl⟩
  | cons w ws ih =>
    rw [Tape.load_cons, Tape.load_cons, h.holds_eq]
    split
    · exact ih (h.write a w) (a + 1)
    · exact ⟨h.write a w, rfl⟩

end Tape

structure Run.Twins (r r' : Run) : Prop where
  outputs : r'.outputs = r.outputs
  stop : r'.stop = r.stop
  machine : r.machine.Alike Tape.Agrees r'.machine

namespace Machine

/-- Whether two machines differ in nothing but how their tapes store the words on them. -/
abbrev Twins (m m' : Machine) : Prop := m.Alike Tape.Agrees m'

variable {m m' : Machine}

namespace Twins

theorem symm (h : m.Twins m') : m'.Twins m := by
  obtain ⟨t, t', ht, ht', hR⟩ := h.tapes
  exact ⟨h.image.symm, ⟨t', t, ht', ht, hR.symm⟩, h.input.symm, h.position.symm, h.base.symm,
    h.ticks.symm, h.loadError.symm⟩

theorem peek?_eq (h : m.Twins m') (a : Address) : m'.peek? a = m.peek? a := by
  obtain ⟨t, t', ht, ht', hR⟩ := h.tapes
  rw [peek?, peek?, ht, ht']
  exact (hR.read a).symm

theorem holds_eq (h : m.Twins m') (a : Address) : m'.holds a = m.holds a := by
  rw [← isSome_peek?, ← isSome_peek?, h.peek?_eq]

theorem poke (h : m.Twins m') (a : Address) (w : Word) : (m.poke a w).1.Twins (m'.poke a w).1 :=
  Alike.poke h fun _ _ _ hR => hR.write a w

theorem reset (h : m.Twins m') : m.reset.Twins m'.reset := by
  obtain ⟨t, t', ht, ht', hR⟩ := h.tapes
  obtain ⟨htape, hcomplete⟩ := hR.cleared.load 0 m.image
  rw [reset_of_tape ht, reset_of_tape ht', h.image, hcomplete, hR.capacity]
  exact ⟨rfl, ⟨_, _, rfl, rfl, htape⟩, rfl, rfl, rfl, rfl, rfl⟩

theorem plan_eq (h : m.Twins m') : m'.plan = m.plan := by
  have hmimics : m.Mimics (fun _ => False) m' :=
    ⟨h.loadError, h.input, h.position, h.base, fun a => .inl (h.peek?_eq a), fun _ => h.peek?_eq 0⟩
  exact hmimics.plan fun _ _ => id

theorem tick (h : m.Twins m') : m'.tick.1 = m.tick.1 ∧ m.tick.2.Twins m'.tick.2 :=
  Alike.tick h h.plan_eq fun _ a w _ _ _ _ _ hR => hR.write a w

theorem runFrom (h : m.Twins m') (outputs : List Word) (n : Nat) :
    Option.Rel Run.Twins (Machine.runFrom outputs n m) (Machine.runFrom outputs n m') := by
  induction n generalizing m m' outputs with
  | zero => exact .none
  | succ n ih =>
    obtain ⟨houtcome, hnext⟩ := h.tick
    rw [Machine.runFrom, Machine.runFrom]
    generalize m.tick = x, m'.tick = x' at houtcome hnext
    obtain ⟨o, m₁⟩ := x
    obtain ⟨o', m₁'⟩ := x'
    obtain rfl : o' = o := houtcome
    cases o' with
    | ok => exact ih hnext outputs
    | output w => exact ih hnext (w :: outputs)
    | stopped s => exact .some ⟨rfl, rfl, hnext⟩

theorem exists_run (h : m.Twins m') {n : Nat} {r : Run} (hr : m.run n = some r) :
    ∃ r', m'.run n = some r' ∧ r.Twins r' := by
  have hrel : Option.Rel Run.Twins (m.run n) (m'.run n) := h.runFrom [] n
  rw [hr] at hrel
  generalize m'.run n = o at hrel
  cases hrel with
  | some htwins => exact ⟨_, rfl, htwins⟩

theorem answers (h : m.Twins m') {q : Request} {a : Answer} {m₁ : Machine} (ha : m.Answers q a m₁) :
    ∃ m₁', m'.Answers q a m₁' ∧ m₁.Twins m₁' := by
  cases ha with
  | tick =>
    obtain ⟨houtcome, hnext⟩ := h.tick
    rw [← houtcome]
    exact ⟨_, .tick, hnext⟩
  | run hr =>
    obtain ⟨r', hr', htwins⟩ := h.exists_run hr
    rw [← htwins.outputs, ← htwins.stop]
    exact ⟨_, .run hr', htwins.machine⟩
  | push w => exact ⟨_, .push w, h.pushAll [w]⟩
  | pushAll ws => exact ⟨_, .pushAll ws, h.pushAll ws⟩
  | peek a =>
    rw [← h.peek?_eq]
    exact ⟨_, .peek a, h⟩
  | poke a w =>
    have hdone : (m'.poke a w).2 = (m.poke a w).2 := by rw [poke_eq, poke_eq, h.holds_eq]
    rw [← hdone]
    exact ⟨_, .poke a w, h.poke a w⟩
  | reset =>
    rw [← h.reset.loadError]
    exact ⟨_, .reset, h.reset⟩

theorem gauges_eq (h : m.Twins m') : m'.gauges = m.gauges := by
  rw [gauges, gauges, h.position, h.base, h.ticks, pending, pending, h.input]

theorem transcript (h : m.Twins m') {log : List (Request × Answer × Gauges)}
    (hlog : m.Transcript log) : m'.Transcript log := by
  induction hlog generalizing m' with
  | nil => exact .nil
  | cons ha _ ih =>
    obtain ⟨m₁', ha', hnext⟩ := h.answers ha
    rw [← hnext.gauges_eq]
    exact .cons ha' (ih hnext)

end Twins

/-- Twins are made by putting one image on two tapes that read alike. -/
theorem twins_start (image : Image) {t t' : Tape} (h : t.Agrees t') :
    (start image (some t)).Twins (start image (some t')) := by
  have hbefore : Twins { image, tape := some t } { image, tape := some t' } :=
    ⟨rfl, ⟨t, t', rfl, rfl, h⟩, rfl, rfl, rfl, rfl, rfl⟩
  exact hbefore.reset

end Machine

/-- Whether two executions have the same result. -/
structure Execution.Matches (e e' : Execution) : Prop where
  status : e'.status = e.status
  value : e'.value = e.value
  message : e'.message = e.message
  outputs : e'.outputs = e.outputs

theorem execute_twins (image : Image) {t t' : Tape} (h : t.Agrees t') (n : Nat)
    (inputs : List Word) :
    Option.Rel Execution.Matches (image.execute n (some t) inputs)
      (image.execute n (some t') inputs) := by
  have htwins := Machine.twins_start image h
  simp only [Image.execute, htwins.loadError]
  cases (Machine.start image (some t)).loadError with
  | some e => exact .some ⟨rfl, rfl, rfl, rfl⟩
  | none =>
    have hpushed : Machine.Twins _ _ := htwins.pushAll inputs
    have hruns := hpushed.runFrom [] n
    simp only [Machine.run]
    revert hruns
    generalize Machine.runFrom [] n ((Machine.start image (some t)).pushAll inputs) = o
    generalize Machine.runFrom [] n ((Machine.start image (some t')).pushAll inputs) = o'
    rintro (hr | _)
    · exact .some ⟨congrArg Stop.status hr.stop, congrArg Stop.value hr.stop,
        congrArg Stop.message hr.stop, hr.outputs⟩
    · exact .none

/-- A machine is the same machine on a tape of any kind. -/
theorem same_on_tapes (image : Image) (limit : Address) (kind kind' : TapeKind) :
    (∀ log, (Machine.start image (some (.blank kind limit))).Transcript log ↔
      (Machine.start image (some (.blank kind' limit))).Transcript log) ∧
    (∀ log log', (Machine.start image (some (.blank kind limit))).Transcript log →
      (Machine.start image (some (.blank kind' limit))).Transcript log' →
      log.map (·.1) = log'.map (·.1) → log = log') ∧
    ∀ n inputs, Option.Rel Execution.Matches
      (image.execute n (some (.blank kind limit)) inputs)
      (image.execute n (some (.blank kind' limit)) inputs) := by
  have hagrees := Tape.agrees_blank kind kind' limit
  have htwins := Machine.twins_start image hagrees
  refine ⟨fun log => ⟨htwins.transcript, htwins.symm.transcript⟩, fun log log' hlog hlog' => ?_,
    execute_twins image hagrees⟩
  exact (htwins.transcript hlog).unique hlog'

/-- Stores a zero over its last word, which would have halted it. -/
def eraser : Image := [1101, 0, 0, 6, 4, 6, 99]

def erasure : Stop := .fault ⟨.badOpcode 0, 6, none, 0⟩

/-- A zero that is stored is found, and is gone after a reset. -/
def eraserTranscript : List (Request × Answer × Gauges) :=
  [(.run, .ran [0] erasure, ⟨6, 0, 0, 2⟩), (.peek 6, .found (some 0), ⟨6, 0, 0, 2⟩),
    (.reset, .reset none, ⟨0, 0, 0, 0⟩)]

theorem transcript_eraser :
    (Machine.start eraser (some (.blank .fixed 8))).Transcript eraserTranscript ∧
      (Machine.start eraser (some (.blank .sparse 8))).Transcript eraserTranscript := by
  have hfixed : (Machine.start eraser (some (.blank .fixed 8))).Transcript eraserTranscript := by
    obtain ⟨r, hr, houtputs, hstop, hgauges, hpeek, herror, hzero⟩ :
        ∃ r, (Machine.start eraser (some (.blank .fixed 8))).run 3 = some r ∧ r.outputs = [0] ∧
          r.stop = erasure ∧ r.machine.gauges = ⟨6, 0, 0, 2⟩ ∧ r.machine.peek? 6 = some 0 ∧
          r.machine.reset.loadError = none ∧ r.machine.reset.gauges = ⟨0, 0, 0, 0⟩ :=
      ⟨_, rfl, rfl, rfl, rfl, rfl, rfl, rfl⟩
    rw [eraserTranscript, ← hgauges, ← houtputs, ← hstop, ← hpeek, ← herror, ← hzero]
    exact .cons (.run hr) (.cons (.peek 6) (.cons .reset .nil))
  exact ⟨hfixed, ((same_on_tapes eraser 8 .fixed .sparse).1 _).1 hfixed⟩

end TapeMachine
