import TapeMachine.Proofs.Machine.Step

/-! The states that a machine comes to when it is started on an image, ticked, run and given input.
What holds at the start and is kept by a tick and by new input holds in all of them. -/

namespace TapeMachine
namespace Machine

theorem start_of_fits {image : Image} {t : Tape} (h : image.length ≤ t.capacity.toNat) :
    (start image (some t)).loadError = none ∧
      (∀ a, (start image (some t)).holds a = t.holds a) ∧
      ∀ n, (hn : n < image.length) → (start image (some t)).peek? (UInt64.ofNat n) = some image[n] := by
  have hroom : (0 : Address).toNat + image.length ≤ t.cleared.capacity.toNat := by simpa using h
  have hload := Tape.load_of_fits hroom
  refine ⟨?_, fun a => ?_, fun n hn => ?_⟩
  · simp [start, reset, hload.1]
  · simp [start, reset, holds, Tape.holds]
  · have hn' : n < UInt64.size := by
      have hcap := t.capacity.toNat_lt
      rw [UInt64.size]
      omega
    have hread := hload.2 (UInt64.ofNat n)
    rw [UInt64.toNat_ofNat_of_lt' hn'] at hread
    simpa [start, reset, peek?, hn] using hread

/-- The states of a machine between the calls made to it. A run that does not finish comes to none. -/
inductive Reachable (m₀ : Machine) : Machine → Prop
  | start : Reachable m₀ m₀
  | tick {m} (before : Reachable m₀ m) : Reachable m₀ m.tick.2
  | run {m n r} (before : Reachable m₀ m) (finished : m.run n = some r) : Reachable m₀ r.machine
  | push {m} (before : Reachable m₀ m) (w : Word) : Reachable m₀ (m.push w)
  | pushAll {m} (before : Reachable m₀ m) (ws : List Word) : Reachable m₀ (m.pushAll ws)

variable {P : Machine → Prop}

theorem runFrom_preserves (htick : ∀ m, P m → P m.tick.2) {outputs : List Word} {n : Nat}
    {m : Machine} {r : Run} (hm : P m) (hr : runFrom outputs n m = some r) :
    P r.machine ∧ r.machine.tick = (.stopped r.stop, r.machine) := by
  induction n generalizing outputs m with
  | zero => cases hr
  | succ n ih =>
    have hnext := htick m hm
    unfold runFrom at hr
    split at hr
    · rename_i m' heq
      rw [heq] at hnext
      exact ih hnext hr
    · rename_i w m' heq
      rw [heq] at hnext
      exact ih hnext hr
    · -- the tick that ends a run leaves the machine as it was
      rename_i stop m' heq
      obtain ⟨-, rfl⟩ := tick_of_stopped heq
      cases hr
      exact ⟨hm, heq⟩

theorem Reachable.induction {m₀ m : Machine} (h : m₀.Reachable m) (hstart : P m₀)
    (htick : ∀ m, P m → P m.tick.2) (hpush : ∀ m ws, P m → P (m.pushAll ws)) : P m := by
  induction h with
  | start => exact hstart
  | tick _ ih => exact htick _ ih
  | run _ hr ih => exact (runFrom_preserves htick ih hr).1
  | push _ w ih => exact hpush _ [w] ih
  | pushAll _ ws ih => exact hpush _ ws ih

end Machine
end TapeMachine
