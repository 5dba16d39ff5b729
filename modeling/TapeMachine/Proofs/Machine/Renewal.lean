import TapeMachine.Proofs.Machine.Reachable
import TapeMachine.Proofs.Machine.Session

/-! Machines that are used again. No request changes what a reset makes of the machine, so a machine
that is reset is the machine that it was when it was new, whatever was done with it before. -/

namespace TapeMachine

/-- Why an image cannot be loaded onto a tape, if it cannot. -/
def Image.refusal? (image : Image) : Option Tape → Option LoadError
  | none => some .noTape
  | some t => if image.length ≤ t.capacity.toNat then none else some (.tooSmall image.length t.capacity)

namespace Machine

variable {m m' : Machine}

theorem loadError_start (image : Image) (tape : Option Tape) :
    (start image tape).loadError = image.refusal? tape := by
  rcases tape with _ | t
  · rfl
  · simp only [start, reset, Image.refusal?, Tape.load_zero_iff, Tape.capacity_cleared]

/-- A reset looks at nothing but the image and what the tape is when it is cleared. -/
theorem reset_congr (himage : m'.image = m.image)
    (htape : m'.tape.map Tape.cleared = m.tape.map Tape.cleared) : m'.reset = m.reset := by
  rcases ht : m.tape with _ | t <;> rcases ht' : m'.tape with _ | t' <;> rw [ht, ht'] at htape
  · rw [reset, reset, ht, ht', himage]
  · cases htape
  · cases htape
  · have hcleared : t'.cleared = t.cleared := Option.some.inj htape
    have hcapacity : t'.capacity = t.capacity := by
      rw [← t'.capacity_cleared, hcleared, t.capacity_cleared]
    rw [reset, reset, ht, ht', himage]
    simp only [hcleared, hcapacity]

theorem reset_eq_start (m : Machine) : m.reset = start m.image (m.tape.map Tape.cleared) := by
  refine reset_congr rfl ?_
  simp [Function.comp_def]

theorem reset_reset (m : Machine) : m.reset.reset = m.reset := by
  refine reset_congr ?_ ?_
  · rcases ht : m.tape with _ | t <;> rw [reset, ht]
  · rcases ht : m.tape with _ | t <;> rw [reset, ht]
    simp

theorem reset_poke (m : Machine) (a : Address) (w : Word) : (m.poke a w).1.reset = m.reset := by
  refine reset_congr (m.image_poke a w) ?_
  simp [poke_eq, Function.comp_def]

theorem reset_apply (m : Machine) (e : Effect) : (m.apply e).reset = m.reset := by
  rcases hs : e.store with _ | ⟨a, w⟩
  · refine reset_congr rfl ?_
    rw [tape_apply, hs]
    rfl
  · have hpoke : (m.apply e).reset = (m.poke a w).1.reset := by
      refine reset_congr (m.image_poke a w).symm ?_
      rw [tape_apply, hs]
      rfl
    rw [hpoke, reset_poke]

theorem reset_tick (m : Machine) : m.tick.2.reset = m.reset := by
  rcases hp : m.plan with s | e
  · rw [tick_of_plan_error hp]
  · rw [tick_of_plan_ok hp]
    exact m.reset_apply e

/-- No request changes what a reset makes of the machine. -/
theorem Answers.reset_eq {q : Request} {a : Answer} (h : m.Answers q a m') : m'.reset = m.reset := by
  rcases h with _ | hrun | _ | _ | _ | _ | _
  case tick => exact m.reset_tick
  case run =>
    have htick (x : Machine) (hx : x.reset = m.reset) : x.tick.2.reset = m.reset :=
      x.reset_tick.trans hx
    exact (runFrom_preserves htick rfl hrun).1
  case push w | pushAll ws => exact reset_congr rfl rfl
  case peek a => rfl
  case poke a w => exact m.reset_poke a w
  case reset => exact m.reset_reset

theorem Session.reset_eq {log : List (Request × Answer)} (h : m.Session log m') :
    m'.reset = m.reset := by
  induction h with
  | nil => rfl
  | cons ha _ ih => exact ih.trans ha.reset_eq

/-- What a session makes of a machine is gone with a reset: it goes on as a session of a new machine
with the same image, on a blank tape of the same kind and capacity, and comes to the same machine,
tape and all. -/
theorem session_after_reset (image : Image) (tape : Option Tape) :
    (start image (tape.map fun t => .blank t.kind t.capacity)).loadError = image.refusal? tape ∧
    ∀ before after a m, (start image tape).Session (before ++ (.reset, a) :: after) m ↔
      (∃ m', (start image tape).Session before m') ∧ a = .reset (image.refusal? tape) ∧
        (start image (tape.map fun t => .blank t.kind t.capacity)).Session after m := by
  have hnew : start image (tape.map fun t => .blank t.kind t.capacity) = start image tape :=
    (reset_eq_start { image, tape }).symm
  have hreset {m before} (h : (start image tape).Session before m) : m.reset = start image tape :=
    h.reset_eq.trans (reset_reset _)
  refine ⟨by rw [hnew, loadError_start], fun before after a m => ?_⟩
  rw [hnew, session_append_iff, ← loadError_start]
  -- cut at the reset: whatever came before it, the rest starts from the new machine
  constructor
  · rintro ⟨m', hbefore, _ | ⟨ha, hafter⟩⟩
    rcases ha with _ | _ | _ | _ | _ | _ | _
    rw [hreset hbefore] at hafter ⊢
    exact ⟨⟨m', hbefore⟩, rfl, hafter⟩
  · rintro ⟨⟨m', hbefore⟩, rfl, hafter⟩
    have ha : m'.Answers .reset (.reset m'.reset.loadError) m'.reset := .reset
    rw [hreset hbefore] at ha
    exact ⟨m', hbefore, .cons ha hafter⟩

end Machine
end TapeMachine
