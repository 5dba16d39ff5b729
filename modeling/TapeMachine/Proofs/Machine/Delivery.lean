import TapeMachine.Proofs.Machine.Session

/-! Where the input of a machine goes. A tick that carries out an input instruction stores the word at
the front of the queue and takes it off; no other tick touches the queue. So the words that were
stored, in their order, and the words that still wait are the words that were pushed. -/

namespace TapeMachine
namespace Machine

/-- Whether the next tick carries out an input instruction. -/
def accepts (m : Machine) : Bool :=
  match m.fetch with
  | .ok (_, .input) => m.tick.1 = .ok
  | _ => false

/-- Where the next instruction stores its input, if it is an input instruction. -/
def destination? (m : Machine) : Option Address :=
  match m.fetch with
  | .ok (fields, .input) => (m.target (fields.mode 0) 0).toOption
  | _ => none

/-- The word that is found where the input goes once the next tick has carried it out. -/
def delivery? (m : Machine) : Option Word :=
  if m.accepts then m.destination?.bind m.tick.2.peek? else none

/-- The machines on which the ticks of a run are made, in their order. -/
inductive Visits : Machine → List Machine → Prop
  | stop {m m' s} (tick : m.tick = (.stopped s, m')) : Visits m [m]
  | ok {m m' ms} (tick : m.tick = (.ok, m')) (rest : Visits m' ms) : Visits m (m :: ms)
  | output {m m' ms w} (tick : m.tick = (.output w, m')) (rest : Visits m' ms) : Visits m (m :: ms)

/-- The machines on which ticks are made to answer a request. -/
inductive TicksOn (m : Machine) : Request → List Machine → Prop
  | tick : TicksOn m .tick [m]
  | run {ms} (visits : m.Visits ms) : TicksOn m .run ms
  | other {q} (tick : q ≠ .tick) (run : q ≠ .run) : TicksOn m q []

/-- A session with the machines on which its ticks are made. -/
inductive Ticked : Machine → List (Request × Answer) → List Machine → Machine → Prop
  | nil {m} : Ticked m [] [] m
  | cons {m q a m' log m'' ms ms'} (first : m.Answers q a m') (ticks : m.TicksOn q ms)
      (rest : Ticked m' log ms' m'') : Ticked m ((q, a) :: log) (ms ++ ms') m''

variable {m m' : Machine} {ms : List Machine}

theorem accepts_iff : m.accepts = true ↔ (∃ fields, m.fetch = .ok (fields, .input)) ∧ m.tick.1 = .ok := by
  unfold accepts
  split
  · rename_i fields hfetch
    simp [hfetch]
  · rename_i hfetch
    simpa using fun fields h => absurd h (hfetch fields)

theorem Performs.takesInput_iff {mode : Nat → Mode} {opcode : Opcode} {e : Effect}
    (h : m.Performs mode opcode e) : e.takesInput = true ↔ opcode = .input := by
  rcases h with hf | _ | _ | hj | hj | _
  case combine => cases opcode <;> cases hf <;> simp [next]
  case taken | passed => cases opcode <;> cases hj <;> simp [next]
  case input | output | adjustBase => simp [next]

theorem input_tick_of_not_accepts (h : m.accepts = false) : m.tick.2.input = m.input := by
  rcases hplan : m.plan with s | e
  · rw [tick_of_plan_error hplan]
  · obtain ⟨fields, opcode, hfetch, -, hperforms⟩ := plan_eq_ok_iff.1 hplan
    have htakes : e.takesInput = false := by
      rw [← Bool.not_eq_true, hperforms.takesInput_iff]
      rintro rfl
      have haccepts : m.accepts = true := by
        rcases hperforms with _ | _ | _ | _ | _ | _
        case combine hf => cases hf
        case taken hj | passed hj => cases hj
        case input =>
          refine accepts_iff.2 ⟨⟨fields, hfetch⟩, ?_⟩
          rw [tick_of_plan_ok hplan]
          rfl
      rw [h] at haccepts
      cases haccepts
    rw [tick_of_plan_ok hplan]
    simp [apply, htakes]

/-- A tick that carries out an input instruction leaves the front of the queue in the tape, where the
instruction says, and the rest of it in the queue. -/
theorem exists_delivery_of_accepts (h : m.accepts = true) :
    ∃ w, m.delivery? = some w ∧ m.input = w :: m.tick.2.input := by
  obtain ⟨⟨fields, hfetch⟩, htick⟩ := accepts_iff.1 h
  rcases hplan : m.plan with s | e
  · rw [tick_of_plan_error hplan] at htick
    cases htick
  · obtain ⟨fields', opcode, hfetch', -, hperforms⟩ := plan_eq_ok_iff.1 hplan
    cases hfetch.symm.trans hfetch'
    rcases hperforms with _ | ⟨hqueue, htarget⟩ | _ | _ | _ | _
    case combine hf => cases hf
    case taken hj | passed hj => cases hj
    case input w ws t =>
      refine ⟨w, ?_, ?_⟩
      · have hdestination : m.destination? = some t := by
          simp [destination?, hfetch, htarget, Except.toOption]
        rw [delivery?, if_pos h, hdestination, Option.bind_some, tick_of_plan_ok hplan,
          peek?_of_tape (m.tape_apply _)]
        simp [peek?_poke, holds_of_target htarget]
      · rw [tick_of_plan_ok hplan]
        simp [apply, hqueue]

/-- What a tick delivers comes off the front of the queue. -/
theorem input_tick (m : Machine) : m.input = m.delivery?.toList ++ m.tick.2.input := by
  rcases h : m.accepts
  · rw [delivery?, h, input_tick_of_not_accepts h]
    rfl
  · obtain ⟨w, hdelivery, hinput⟩ := exists_delivery_of_accepts h
    rw [hdelivery, hinput]
    rfl

theorem isSome_delivery? (m : Machine) : m.delivery?.isSome = m.accepts := by
  rcases h : m.accepts
  · simp [delivery?, h]
  · obtain ⟨w, hdelivery, -⟩ := exists_delivery_of_accepts h
    simp [hdelivery]

/-- There are as many deliveries as input instructions that were carried out. -/
theorem length_deliveries (ms : List Machine) :
    (ms.filterMap delivery?).length = ms.countP accepts := by
  rw [List.length_filterMap_eq_countP]
  exact List.countP_congr fun m _ => by rw [isSome_delivery?]

theorem filterMap_delivery?_cons (m : Machine) (ms : List Machine) :
    (m :: ms).filterMap delivery? = m.delivery?.toList ++ ms.filterMap delivery? := by
  rcases h : m.delivery? with _ | w <;> simp [h]

theorem Ends.exists_visits {r : Run} (h : m.Ends r) : ∃ ms, m.Visits ms := by
  induction h with
  | stop htick => exact ⟨_, .stop htick⟩
  | ok htick _ ih =>
    obtain ⟨ms, hms⟩ := ih
    exact ⟨_, .ok htick hms⟩
  | output htick _ ih =>
    obtain ⟨ms, hms⟩ := ih
    exact ⟨_, .output htick hms⟩

theorem Visits.input_eq (h : m.Visits ms) {r : Run} (hends : m.Ends r) :
    m.input = ms.filterMap delivery? ++ r.machine.input := by
  -- the ticks of the run are the ticks of its end, since each tick has one outcome
  induction h generalizing r with
  | @stop m m' s htick =>
    rcases hends with htick' | ⟨htick', -⟩ | ⟨htick', -⟩ <;> cases htick.symm.trans htick'
    rw [filterMap_delivery?_cons, List.filterMap_nil, List.append_nil, m.input_tick, htick]
  | @ok m m' ms htick _ ih | @output m m' ms w htick _ ih =>
    rcases hends with htick' | ⟨htick', hends'⟩ | ⟨htick', hends'⟩ <;>
      cases htick.symm.trans htick'
    rw [filterMap_delivery?_cons, List.append_assoc, ← ih hends', m.input_tick, htick]

theorem Answers.exists_ticksOn {q : Request} {a : Answer} (h : m.Answers q a m') :
    ∃ ms, m.TicksOn q ms := by
  rcases h with _ | hrun | _ | _ | _ | _ | _
  case tick => exact ⟨_, .tick⟩
  case run =>
    obtain ⟨ms, hms⟩ := (ends_of_run hrun).exists_visits
    exact ⟨ms, .run hms⟩
  case push | pushAll | peek | poke | reset => exact ⟨[], .other nofun nofun⟩

/-- What comes with a request goes to the end of the queue, what it delivers comes off the front. -/
theorem Answers.input_eq {q : Request} {a : Answer} (h : m.Answers q a m') (hms : m.TicksOn q ms)
    (hreset : q ≠ .reset) : m.input ++ q.input = ms.filterMap delivery? ++ m'.input := by
  rcases h with _ | hrun | _ | _ | _ | _ | _
  case tick =>
    rcases hms with _ | _ | ⟨htick, -⟩
    · rw [filterMap_delivery?_cons, List.filterMap_nil, List.append_nil, ← m.input_tick]
      exact List.append_nil _
    · exact absurd rfl htick
  case run r =>
    rcases hms with _ | hvisits | ⟨-, hrun'⟩
    · rw [← hvisits.input_eq (ends_of_run hrun)]
      exact List.append_nil _
    · exact absurd rfl hrun'
  case push | pushAll => cases hms; rfl
  case peek | poke =>
    cases hms
    simp [Request.input]
  case reset => exact absurd rfl hreset

theorem Session.exists_ticked {log : List (Request × Answer)} (h : m.Session log m') :
    ∃ ms, m.Ticked log ms m' := by
  induction h with
  | nil => exact ⟨[], .nil⟩
  | cons ha _ ih =>
    obtain ⟨ms, hms⟩ := ha.exists_ticksOn
    obtain ⟨ms', hms'⟩ := ih
    exact ⟨ms ++ ms', .cons ha hms hms'⟩

theorem Ticked.input_eq {log : List (Request × Answer)} (h : m.Ticked log ms m')
    (hlog : ∀ entry ∈ log, entry.1 ≠ .reset) :
    m.input ++ log.flatMap (·.1.input) = ms.filterMap delivery? ++ m'.input := by
  induction h with
  | nil => simp
  | cons ha hms _ ih =>
    rw [List.forall_mem_cons] at hlog
    rw [List.flatMap_cons, ← List.append_assoc, ha.input_eq hms hlog.1, List.append_assoc, ih hlog.2,
      List.filterMap_append, List.append_assoc]

theorem input_reset (m : Machine) : m.reset.input = [] := by
  rcases ht : m.tape with _ | t <;> rw [reset, ht]

/-- Since the last reset, which is where a new machine starts, the words that the input instructions
stored, in the order in which they were carried out, and then the words that wait are the words that
were pushed. An instruction that stops the machine takes none. -/
theorem input_delivered_in_order {m₀ : Machine} {log : List (Request × Answer)}
    (hsession : m₀.reset.Session log m) (hlog : ∀ entry ∈ log, entry.1 ≠ .reset) :
    (∃ ms, m₀.reset.Ticked log ms m) ∧ ∀ ms, m₀.reset.Ticked log ms m →
      ms.filterMap delivery? ++ m.input = log.flatMap (·.1.input) ∧
      m.pending + ms.countP accepts = (log.flatMap (·.1.input)).length ∧
      ∀ x ∈ ms, x.accepts = false → x.tick.2.input = x.input := by
  refine ⟨hsession.exists_ticked, fun ms hms => ?_⟩
  have hinput : ms.filterMap delivery? ++ m.input = log.flatMap (·.1.input) := by
    rw [← hms.input_eq hlog, input_reset, List.nil_append]
  refine ⟨hinput, ?_, fun x _ hx => input_tick_of_not_accepts hx⟩
  rw [← hinput, List.length_append, length_deliveries, pending, Nat.add_comm]

def collector : Image := [3, 7, 3, 8, 3, -1]

def collecting : List (Request × Answer) :=
  [(.push 10, .pushed), (.run, .ran [] .inputRequired), (.pushAll [20, 30], .pushed),
    (.tick, .ticked .ok), (.tick, .ticked (.stopped (.fault ⟨.negativeAddress (-1), 4, some .input, 0⟩)))]

theorem delivered_collecting :
    ∃ m ms, (start collector (some (.blank .fixed 9))).Ticked collecting ms m ∧
      m.input = [30] ∧ ms.filterMap delivery? = [10, 20] ∧ ms.countP accepts = 2 := by
  obtain ⟨m, hsession, hinput⟩ :
      ∃ m, (start collector (some (.blank .fixed 9))).Session collecting m ∧ m.input = [30] := by
    refine ⟨_, .cons (.push 10) (.cons (.run (n := 2) (r := ⟨[], .inputRequired, _⟩) rfl)
      (.cons (.pushAll [20, 30]) (.cons .tick (.cons .tick .nil)))), ?_⟩
    rfl
  have hlog : ∀ entry ∈ collecting, entry.1 ≠ .reset := by simp [collecting]
  obtain ⟨⟨ms, hms⟩, hall⟩ := input_delivered_in_order hsession hlog
  obtain ⟨hdelivered, hcount, -⟩ := hall ms hms
  refine ⟨m, ms, hms, hinput, ?_, ?_⟩
  · rw [hinput] at hdelivered
    exact List.append_cancel_right hdelivered
  · rw [pending, hinput] at hcount
    exact Nat.add_left_cancel hcount

end Machine
end TapeMachine
