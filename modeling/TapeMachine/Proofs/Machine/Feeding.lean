import TapeMachine.Proofs.Machine.Ending

/-! Input that comes late. New input is put behind what is there, so it makes no difference to a tick
but one that waits for it; a run that has stopped goes on from there as if all its input had been
there from the start. -/

namespace TapeMachine

/-- A run with another that goes on where it stopped. -/
def Run.andThen (r r' : Run) : Run := { r' with outputs := r.outputs ++ r'.outputs }

namespace Machine

/-- The runs of a machine whose input comes in pieces, one after each piece. -/
inductive Feeds : Machine → List (List Word) → List Run → Prop
  | nil {m} : Feeds m [] []
  | cons {m piece pieces n r rs} (run : (m.pushAll piece).run n = some r)
      (rest : Feeds r.machine pieces rs) : Feeds m (piece :: pieces) (r :: rs)

variable {m : Machine} {r r' : Run} {ws : List Word}

@[simp] theorem pushAll_nil (m : Machine) : m.pushAll [] = m := by
  simp [pushAll]

@[simp] theorem pushAll_pushAll (m : Machine) (ws ws' : List Word) :
    (m.pushAll ws).pushAll ws' = m.pushAll (ws ++ ws') := by
  simp [pushAll, List.append_assoc]

theorem effect_pushAll {opcode : Opcode} {mode : Nat → Mode} (ws : List Word)
    (h : m.effect opcode mode ≠ .error .inputRequired) :
    (m.pushAll ws).effect opcode mode = m.effect opcode mode := by
  cases opcode with
  | input =>
    cases hq : m.input with
    | nil => exact absurd (by simp [effect, hq]) h
    | cons w rest =>
      have hq' : (m.pushAll ws).input = w :: (rest ++ ws) := by rw [pushAll, hq, List.cons_append]
      simp only [effect, hq, hq']
      rfl
  | add | mul | output | jumpIfTrue | jumpIfFalse | less | equal | adjustBase | halt => rfl

theorem plan_pushAll (ws : List Word) (h : m.plan ≠ .error .inputRequired) :
    (m.pushAll ws).plan = m.plan := by
  have hfetch : (m.pushAll ws).fetch = m.fetch := rfl
  unfold plan at h ⊢
  rw [hfetch]
  cases hf : m.fetch with
  | error c => rfl
  | ok f =>
    obtain ⟨fields, opcode⟩ := f
    cases hc : checkModes fields opcode with
    | error c =>
      simp only [attempt_ok, ok_bind, hc]
      rfl
    | ok u =>
      simp only [hf, hc, attempt_ok, ok_bind] at h ⊢
      exact effect_pushAll ws h

/-- An effect takes the word at the front, which new input leaves where it is. -/
theorem apply_pushAll {e : Effect} (h : m.plan = .ok e) (ws : List Word) :
    (m.pushAll ws).apply e = (m.apply e).pushAll ws := by
  have hinput : e.takesInput = true → m.input ≠ [] := by
    intro htakes hnil
    obtain ⟨mode, opcode, hperforms⟩ := performs_of_plan h
    cases hperforms with
    | input hq => simp [hnil] at hq
    | combine | output | taken | passed | adjustBase => cases htakes
  cases ht : e.takesInput with
  | false => simp [apply, pushAll, ht]
  | true => simp [apply, pushAll, ht, List.tail_append_of_ne_nil (hinput ht)]

theorem tick_pushAll {o : Outcome} {m' : Machine} (h : m.tick = (o, m'))
    (ho : o ≠ .stopped .inputRequired) (ws : List Word) :
    (m.pushAll ws).tick = (o, m'.pushAll ws) := by
  have hplan : m.plan ≠ .error .inputRequired := by
    intro hp
    rw [tick_of_plan_error hp] at h
    cases h
    exact ho rfl
  have hplan' := plan_pushAll ws hplan
  cases hp : m.plan with
  | error s =>
    rw [tick_of_plan_error hp] at h
    cases h
    exact tick_of_plan_error (hplan'.trans hp)
  | ok e =>
    rw [tick_of_plan_ok hp] at h
    cases h
    rw [tick_of_plan_ok (hplan'.trans hp), apply_pushAll hp]

theorem Ends.pushAll (h : m.Ends r) (hnext : (r.machine.pushAll ws).Ends r') :
    (m.pushAll ws).Ends (r.andThen r') := by
  induction h with
  | stop ht =>
    obtain ⟨-, rfl⟩ := tick_of_stopped ht
    exact hnext
  | ok ht _ ih => exact .ok (tick_pushAll ht (by simp) ws) (ih hnext)
  | output ht _ ih => exact .output (tick_pushAll ht (by simp) ws) (ih hnext)

theorem exists_andThen_of_run {n : Nat} (h : (m.pushAll ws).run n = some r) :
    ∃ r₁ r₂, m.Ends r₁ ∧ (r₁.machine.pushAll ws).Ends r₂ ∧ r = r₁.andThen r₂ := by
  induction n generalizing m r with
  | zero => cases h
  | succ n ih =>
    rcases m.tick_cases with ⟨s, ht⟩ | ⟨m', ht⟩ | ⟨w, m', ht⟩
    · exact ⟨⟨[], s, m⟩, r, .stop ht, ends_of_run h, rfl⟩
    · rw [run_succ_of_ok (tick_pushAll ht (by simp) ws)] at h
      obtain ⟨r₁, r₂, h₁, h₂, rfl⟩ := ih h
      exact ⟨r₁, r₂, .ok ht h₁, h₂, rfl⟩
    · rw [run_succ_of_output (tick_pushAll ht (by simp) ws)] at h
      obtain ⟨r', hr', rfl⟩ := Option.map_eq_some_iff.1 h
      obtain ⟨r₁, r₂, h₁, h₂, rfl⟩ := ih hr'
      exact ⟨_, r₂, .output ht h₁, h₂, rfl⟩

theorem ends_pushAll_iff :
    (m.pushAll ws).Ends r ↔
      ∃ r₁ r₂, m.Ends r₁ ∧ (r₁.machine.pushAll ws).Ends r₂ ∧ r = r₁.andThen r₂ := by
  constructor
  · intro h
    obtain ⟨n, hn⟩ := h.exists_run
    exact exists_andThen_of_run hn
  · rintro ⟨r₁, r₂, h₁, h₂, rfl⟩
    exact h₁.pushAll h₂

theorem Feeds.ends {piece : List Word} {pieces : List (List Word)} {rs : List Run}
    (h : m.Feeds (piece :: pieces) rs) :
    ∃ last, rs.getLast? = some last ∧
      (m.pushAll (piece ++ pieces.flatten)).Ends ⟨rs.flatMap (·.outputs), last.stop, last.machine⟩ := by
  induction pieces generalizing m piece rs with
  | nil =>
    obtain _ | ⟨hrun, hrest⟩ := h
    cases hrest
    exact ⟨_, rfl, by simpa using ends_of_run hrun⟩
  | cons next pieces ih =>
    obtain _ | @⟨_, _, _, _, r, rs, hrun, hrest⟩ := h
    obtain ⟨last, hlast, hends⟩ := ih hrest
    refine ⟨last, by simp [List.getLast?_cons, hlast], ?_⟩
    rw [List.flatten_cons, ← pushAll_pushAll]
    exact (ends_of_run hrun).pushAll hends

/-- A run on all of the input can be made in pieces. -/
theorem Ends.exists_feeds {piece : List Word} {pieces : List (List Word)}
    (h : (m.pushAll (piece ++ pieces.flatten)).Ends r) : ∃ rs, m.Feeds (piece :: pieces) rs := by
  induction pieces generalizing m piece r with
  | nil =>
    obtain ⟨n, hn⟩ := h.exists_run
    exact ⟨[r], .cons (by simpa using hn) .nil⟩
  | cons next pieces ih =>
    rw [List.flatten_cons, ← pushAll_pushAll, ends_pushAll_iff] at h
    obtain ⟨r₁, r₂, h₁, h₂, rfl⟩ := h
    obtain ⟨n, hn⟩ := h₁.exists_run
    obtain ⟨rs, hrs⟩ := ih h₂
    exact ⟨r₁ :: rs, .cons hn hrs⟩

/-- Input that comes in pieces, with a run after each, leads to the same end as input that is all
there from the start. -/
theorem run_in_pieces (m : Machine) (piece : List Word) (pieces : List (List Word)) :
    ((∃ n r, (m.pushAll (piece :: pieces).flatten).run n = some r) ↔
      ∃ rs, m.Feeds (piece :: pieces) rs) ∧
    ∀ n r rs, (m.pushAll (piece :: pieces).flatten).run n = some r → m.Feeds (piece :: pieces) rs →
      rs.flatMap (·.outputs) = r.outputs ∧
        ∃ last, rs.getLast? = some last ∧ last.stop = r.stop ∧ last.machine = r.machine := by
  rw [List.flatten_cons]
  refine ⟨⟨?_, ?_⟩, fun n r rs hr hrs => ?_⟩
  · rintro ⟨n, r, hr⟩
    exact (ends_of_run hr).exists_feeds
  · rintro ⟨rs, hrs⟩
    obtain ⟨last, -, hends⟩ := hrs.ends
    obtain ⟨n, hn⟩ := hends.exists_run
    exact ⟨n, _, hn⟩
  · obtain ⟨last, hlast, hends⟩ := hrs.ends
    obtain rfl := (ends_of_run hr).unique hends
    exact ⟨rfl, last, hlast, rfl, rfl⟩

/-- Reads two words and puts out their sum. -/
def adder : Machine := start [3, 13, 3, 14, 1, 13, 14, 15, 4, 15, 99] (some (.blank .fixed 16))

/-- The adder is given one word, then none, then another. -/
theorem feeds_adder :
    ∃ rs last, adder.Feeds [[20], [], [22]] rs ∧ rs.flatMap (·.outputs) = [42] ∧
      rs.getLast? = some last ∧ last.stop = .halted 3 := by
  obtain ⟨r, hr, houtputs, hstop⟩ : ∃ r, (adder.pushAll [20, 22]).run 6 = some r ∧
      r.outputs = [42] ∧ r.stop = .halted 3 := ⟨_, rfl, rfl, rfl⟩
  obtain ⟨hends, hagree⟩ := run_in_pieces adder [20] [[], [22]]
  obtain ⟨rs, hrs⟩ := hends.1 ⟨6, r, hr⟩
  obtain ⟨hall, last, hlast, hlaststop, -⟩ := hagree 6 r rs hr hrs
  exact ⟨rs, last, hrs, hall.trans houtputs, hlast, hlaststop.trans hstop⟩

end Machine
end TapeMachine
