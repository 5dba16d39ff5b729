import TapeMachine.Proofs.Machine.Step

/-! Runs without a number of ticks to stop within: a run ends where one of its ticks stops the
machine, and puts out on the way what its ticks put out. A run has one end at most. -/

namespace TapeMachine
namespace Machine

inductive Ends : Machine → Run → Prop
  | stop {m m' s} (tick : m.tick = (.stopped s, m')) : Ends m ⟨[], s, m'⟩
  | ok {m m' r} (tick : m.tick = (.ok, m')) (rest : Ends m' r) : Ends m r
  | output {m m' r w} (tick : m.tick = (.output w, m')) (rest : Ends m' r) :
      Ends m { r with outputs := w :: r.outputs }

variable {m m' : Machine} {r r' : Run} {s : Stop}

/-- A tick stops the machine and leaves it as it was, or goes on, with or without an output. -/
theorem tick_cases (m : Machine) :
    (∃ s, m.tick = (.stopped s, m)) ∨ (∃ m', m.tick = (.ok, m')) ∨
      ∃ w m', m.tick = (.output w, m') := by
  cases hp : m.plan with
  | error s => exact .inl ⟨s, tick_of_plan_error hp⟩
  | ok e =>
    rw [tick_of_plan_ok hp]
    cases e.output with
    | none => exact .inr (.inl ⟨_, rfl⟩)
    | some w => exact .inr (.inr ⟨w, _, rfl⟩)

theorem runFrom_eq (outputs : List Word) (n : Nat) (m : Machine) :
    runFrom outputs n m =
      (m.run n).map fun r => { r with outputs := outputs.reverse ++ r.outputs } := by
  induction n generalizing outputs m with
  | zero => rfl
  | succ n ih =>
    rw [run, runFrom, runFrom]
    rcases m.tick_cases with ⟨s, h⟩ | ⟨m', h⟩ | ⟨w, m', h⟩
    · simp [h]
    · simp only [h]
      exact ih outputs m'
    · simp only [h]
      rw [ih (w :: outputs), ih [w], Option.map_map]
      simp [Function.comp_def]

theorem run_succ_of_ok (h : m.tick = (.ok, m')) (n : Nat) : m.run (n + 1) = m'.run n := by
  rw [run, runFrom, h]
  rfl

theorem run_succ_of_output {w : Word} (h : m.tick = (.output w, m')) (n : Nat) :
    m.run (n + 1) = (m'.run n).map fun r => { r with outputs := w :: r.outputs } := by
  rw [run, runFrom, h]
  exact runFrom_eq [w] n m'

theorem run_succ_of_stopped (h : m.tick = (.stopped s, m')) (n : Nat) :
    m.run (n + 1) = some ⟨[], s, m'⟩ := by
  rw [run, runFrom, h]
  rfl

theorem ends_of_run {n : Nat} (h : m.run n = some r) : m.Ends r := by
  induction n generalizing m r with
  | zero => cases h
  | succ n ih =>
    rcases m.tick_cases with ⟨s, ht⟩ | ⟨m', ht⟩ | ⟨w, m', ht⟩
    · rw [run_succ_of_stopped ht] at h
      cases h
      exact .stop ht
    · rw [run_succ_of_ok ht] at h
      exact .ok ht (ih h)
    · rw [run_succ_of_output ht] at h
      obtain ⟨r, hr, rfl⟩ := Option.map_eq_some_iff.1 h
      exact .output ht (ih hr)

theorem Ends.exists_run (h : m.Ends r) : ∃ n, m.run n = some r := by
  induction h with
  | stop ht => exact ⟨1, run_succ_of_stopped ht 0⟩
  | ok ht _ ih =>
    obtain ⟨n, hn⟩ := ih
    exact ⟨n + 1, (run_succ_of_ok ht n).trans hn⟩
  | output ht _ ih =>
    obtain ⟨n, hn⟩ := ih
    exact ⟨n + 1, by rw [run_succ_of_output ht, hn, Option.map_some]⟩

theorem Ends.unique (h : m.Ends r) (h' : m.Ends r') : r = r' := by
  induction h generalizing r' with
  | stop ht => cases h' with | stop ht' | ok ht' | output ht' => cases ht.symm.trans ht' <;> rfl
  | ok ht _ ih =>
    cases h' with
    | stop ht' | output ht' => cases ht.symm.trans ht'
    | ok ht' h' =>
      cases ht.symm.trans ht'
      exact ih h'
  | output ht _ ih =>
    cases h' with
    | stop ht' | ok ht' => cases ht.symm.trans ht'
    | output ht' h' =>
      cases ht.symm.trans ht'
      rw [ih h']

/-- A run ends where the next tick would stop again. -/
theorem Ends.tick_eq (h : m.Ends r) : r.machine.tick = (.stopped r.stop, r.machine) := by
  induction h with
  | stop ht =>
    obtain ⟨-, rfl⟩ := tick_of_stopped ht
    exact ht
  | ok _ _ ih => exact ih
  | output _ _ ih => exact ih

end Machine
end TapeMachine
