import TapeMachine.Proofs.Machine.Delivery

/-! Machines that run down. Where every instruction that is carried out lowers a number that goes with
the machine, that number bounds how many there are, in a run and in a whole session. -/

namespace TapeMachine
namespace Machine

/-- Whether the next tick carries out an instruction. -/
def advances (m : Machine) : Bool := m.tick.1.status = .ok || m.tick.1.status = .output

/-- Whether the numbers that go with machines are lowered by every tick that carries out an
instruction, and kept when input is pushed. -/
structure RunsDown (P : Machine → Nat → Prop) : Prop where
  tick : ∀ {m k}, P m k → m.advances = true → ∃ k', k' < k ∧ P m.tick.2 k'
  pushAll : ∀ {m k}, P m k → ∀ ws, P (m.pushAll ws) k

variable {m m' : Machine} {s : Stop} {w : Word} {ms : List Machine}

theorem advances_of_ok (h : m.tick = (.ok, m')) : m.advances = true := by
  rw [advances, h]
  rfl

theorem advances_of_output (h : m.tick = (.output w, m')) : m.advances = true := by
  rw [advances, h]
  rfl

theorem advances_of_stopped (h : m.tick = (.stopped s, m')) : m.advances = false := by
  rw [advances, h]
  cases s with
  | halted | inputRequired => rfl
  | fault f => cases hc : f.cause <;> simp [Outcome.status, Stop.status, FaultCause.status, hc]

theorem exists_effect_of_advances (h : m.advances = true) : ∃ e, m.plan = .ok e := by
  cases hplan : m.plan with
  | ok e => exact ⟨e, rfl⟩
  | error s =>
    rw [advances_of_stopped (tick_of_plan_error hplan)] at h
    cases h

namespace RunsDown

variable {P : Machine → Nat → Prop} {k : Nat}

theorem exists_run (h : RunsDown P) (hm : P m k) {n : Nat} (hk : k < n) : ∃ r, m.run n = some r := by
  induction n generalizing m k with
  | zero => omega
  | succ n ih =>
    rcases m.tick_cases with ⟨s, ht⟩ | ⟨m', ht⟩ | ⟨w, m', ht⟩
    · exact ⟨_, run_succ_of_stopped ht n⟩
    · obtain ⟨k', hlt, hm'⟩ := h.tick hm (advances_of_ok ht)
      rw [ht] at hm'
      obtain ⟨r, hr⟩ := ih hm' (by omega)
      exact ⟨r, (run_succ_of_ok ht n).trans hr⟩
    · obtain ⟨k', hlt, hm'⟩ := h.tick hm (advances_of_output ht)
      rw [ht] at hm'
      obtain ⟨r, hr⟩ := ih hm' (by omega)
      exact ⟨_, by rw [run_succ_of_output ht, hr, Option.map_some]⟩

theorem countP_tick (h : RunsDown P) (hm : P m k) :
    ∃ k', P m.tick.2 k' ∧ [m].countP advances + k' ≤ k := by
  rcases ha : m.advances with _ | _
  · have hself : m.tick.2 = m := by
      rcases m.tick_cases with ⟨s, ht⟩ | ⟨m', ht⟩ | ⟨w, m', ht⟩
      · rw [ht]
      · rw [advances_of_ok ht] at ha
        cases ha
      · rw [advances_of_output ht] at ha
        cases ha
    exact ⟨k, hself.symm ▸ hm, by simp [ha]⟩
  · obtain ⟨k', hlt, hm'⟩ := h.tick hm ha
    exact ⟨k', hm', by simp [ha]; omega⟩

theorem countP_visits (h : RunsDown P) (hm : P m k) (hms : m.Visits ms) {r : Run} (hr : m.Ends r) :
    ∃ k', P r.machine k' ∧ ms.countP advances + k' ≤ k := by
  induction hms generalizing k r with
  | @stop m m' s htick =>
    rcases hr with htick' | ⟨htick', -⟩ | ⟨htick', -⟩ <;> cases htick.symm.trans htick'
    obtain ⟨k', hm', hle⟩ := h.countP_tick hm
    rw [htick] at hm'
    exact ⟨k', hm', hle⟩
  | @ok m m' ms htick _ ih | @output m m' ms w htick _ ih =>
    rcases hr with htick' | ⟨htick', hr'⟩ | ⟨htick', hr'⟩ <;> cases htick.symm.trans htick'
    obtain ⟨k₁, hm₁, hle₁⟩ := h.countP_tick hm
    rw [htick] at hm₁
    obtain ⟨k₂, hm₂, hle₂⟩ := ih hm₁ hr'
    refine ⟨k₂, hm₂, ?_⟩
    rw [← List.singleton_append, List.countP_append]
    omega

theorem countP_answers (h : RunsDown P) (hm : P m k) {q : Request} {a : Answer}
    (ha : m.Answers q a m') (hms : m.TicksOn q ms) (hq : q.intervenes = false) :
    ∃ k', P m' k' ∧ ms.countP advances + k' ≤ k := by
  rcases ha with _ | hrun | _ | _ | _ | _ | _
  case tick =>
    rcases hms with _ | _ | ⟨htick, -⟩
    · exact h.countP_tick hm
    · exact absurd rfl htick
  case run =>
    rcases hms with _ | hvisits | ⟨-, hrun'⟩
    · exact h.countP_visits hm hvisits (ends_of_run hrun)
    · exact absurd rfl hrun'
  case push w | pushAll ws =>
    cases hms
    exact ⟨k, h.pushAll hm _, by simp⟩
  case peek =>
    cases hms
    exact ⟨k, hm, by simp⟩
  case poke | reset => cases hq

/-- However a machine is driven, it carries out no more instructions than its number says. -/
theorem countP_ticked (h : RunsDown P) (hm : P m k) {log : List (Request × Answer)}
    (hms : m.Ticked log ms m') (hlog : ∀ entry ∈ log, entry.1.intervenes = false) :
    ∃ k', P m' k' ∧ ms.countP advances + k' ≤ k := by
  induction hms generalizing k with
  | nil => exact ⟨k, hm, by simp⟩
  | cons ha hticks _ ih =>
    rw [List.forall_mem_cons] at hlog
    obtain ⟨k₁, hm₁, hle₁⟩ := h.countP_answers hm ha hticks hlog.1
    obtain ⟨k₂, hm₂, hle₂⟩ := ih hm₁ hlog.2
    refine ⟨k₂, hm₂, ?_⟩
    rw [List.countP_append]
    omega

theorem exists_answer (h : RunsDown P) (hm : P m k) (q : Request) : ∃ a m', m.Answers q a m' := by
  cases q with
  | run =>
    obtain ⟨r, hr⟩ := h.exists_run hm (Nat.lt_succ_self k)
    exact ⟨_, _, .run hr⟩
  | tick => exact ⟨_, _, .tick⟩
  | push w => exact ⟨_, _, .push w⟩
  | pushAll ws => exact ⟨_, _, .pushAll ws⟩
  | peek a => exact ⟨_, _, .peek a⟩
  | poke a w => exact ⟨_, _, .poke a w⟩
  | reset => exact ⟨_, _, .reset⟩

theorem exists_ticked (h : RunsDown P) (hm : P m k) (requests : List Request)
    (hrequests : ∀ q ∈ requests, q.intervenes = false) :
    ∃ log ms m', log.map (·.1) = requests ∧ m.Ticked log ms m' := by
  induction requests generalizing m k with
  | nil => exact ⟨[], [], m, rfl, .nil⟩
  | cons q requests ih =>
    rw [List.forall_mem_cons] at hrequests
    obtain ⟨a, m₁, ha⟩ := h.exists_answer hm q
    obtain ⟨ms₁, hms₁⟩ := ha.exists_ticksOn
    obtain ⟨k₁, hm₁, -⟩ := h.countP_answers hm ha hms₁ hrequests.1
    obtain ⟨log, ms, m', hlog, hms⟩ := ih hm₁ hrequests.2
    exact ⟨(q, a) :: log, ms₁ ++ ms, m', by rw [List.map_cons, hlog], .cons ha hms₁ hms⟩

end RunsDown
end Machine
end TapeMachine
