import TapeMachine.Proofs.Machine.Ending

/-! Sessions: what may be asked of a machine, what it answers, and which machine it is then. A run
that has no end is not answered, every other request is. A transcript of a session holds what can be
seen of it from outside. -/

namespace TapeMachine

inductive Request where
  | tick
  | run
  | push (w : Word)
  | pushAll (ws : List Word)
  | peek (a : Address)
  | poke (a : Address) (w : Word)
  | reset
  deriving DecidableEq

inductive Answer where
  | ticked (outcome : Outcome)
  | ran (outputs : List Word) (stop : Stop)
  | pushed
  | found (word : Option Word)
  | poked (done : Bool)
  | reset (refused : Option LoadError)
  deriving DecidableEq

namespace Request

def input : Request → List Word
  | push w => [w]
  | pushAll ws => ws
  | tick | run | peek _ | poke _ _ | reset => []

/-- Whether a request changes the tape other than by an instruction. -/
def intervenes : Request → Bool
  | poke _ _ | reset => true
  | tick | run | push _ | pushAll _ | peek _ => false

end Request

/-- What shows of a machine between requests. -/
structure Gauges where
  position : Address
  base : Word
  pending : Nat
  ticks : UInt64
  deriving DecidableEq

namespace Machine

def gauges (m : Machine) : Gauges := ⟨m.position, m.base, m.pending, m.ticks⟩

inductive Answers (m : Machine) : Request → Answer → Machine → Prop
  | tick : Answers m .tick (.ticked m.tick.1) m.tick.2
  | run {n r} (finished : m.run n = some r) : Answers m .run (.ran r.outputs r.stop) r.machine
  | push (w) : Answers m (.push w) .pushed (m.push w)
  | pushAll (ws) : Answers m (.pushAll ws) .pushed (m.pushAll ws)
  | peek (a) : Answers m (.peek a) (.found (m.peek? a)) m
  | poke (a w) : Answers m (.poke a w) (.poked (m.poke a w).2) (m.poke a w).1
  | reset : Answers m .reset (.reset m.reset.loadError) m.reset

/-- Requests with their answers, one after another. -/
inductive Session : Machine → List (Request × Answer) → Machine → Prop
  | nil {m} : Session m [] m
  | cons {m q a m' log m''} (first : m.Answers q a m') (rest : Session m' log m'') :
      Session m ((q, a) :: log) m''

/-- Requests with their answers and with what shows after each. -/
inductive Transcript : Machine → List (Request × Answer × Gauges) → Prop
  | nil {m} : Transcript m []
  | cons {m q a m' log} (first : m.Answers q a m') (rest : Transcript m' log) :
      Transcript m ((q, a, m'.gauges) :: log)

variable {m m₁ m₂ : Machine}

theorem Answers.unique {q : Request} {a b : Answer} (h : m.Answers q a m₁) (h' : m.Answers q b m₂) :
    a = b ∧ m₁ = m₂ := by
  cases h with
  | run hr =>
    cases h' with
    | run hr' =>
      obtain rfl := (ends_of_run hr).unique (ends_of_run hr')
      exact ⟨rfl, rfl⟩
  | tick | push | pushAll | peek | poke | reset =>
    cases h'
    exact ⟨rfl, rfl⟩

theorem Session.unique {log log' : List (Request × Answer)} (h : m.Session log m₁)
    (h' : m.Session log' m₂) (hsame : log.map (·.1) = log'.map (·.1)) : log = log' ∧ m₁ = m₂ := by
  induction h generalizing log' with
  | nil =>
    obtain rfl : log' = [] := by simpa using hsame
    cases h'
    exact ⟨rfl, rfl⟩
  | cons ha _ ih =>
    cases h' with
    | nil => simp at hsame
    | cons ha' hrest' =>
      rw [List.map_cons, List.map_cons, List.cons.injEq] at hsame
      obtain ⟨rfl, hsame⟩ := hsame
      obtain ⟨rfl, rfl⟩ := ha.unique ha'
      obtain ⟨rfl, rfl⟩ := ih hrest' hsame
      exact ⟨rfl, rfl⟩

theorem session_append_iff {log log' : List (Request × Answer)} :
    m.Session (log ++ log') m₂ ↔ ∃ m', m.Session log m' ∧ m'.Session log' m₂ := by
  constructor
  · intro h
    induction log generalizing m with
    | nil => exact ⟨m, .nil, h⟩
    | cons entry log ih =>
      rcases h with _ | ⟨ha, hrest⟩
      obtain ⟨m', hlog, hlog'⟩ := ih hrest
      exact ⟨m', .cons ha hlog, hlog'⟩
  · rintro ⟨m', hlog, hlog'⟩
    induction hlog with
    | nil => exact hlog'
    | cons ha _ ih => exact .cons ha (ih hlog')

theorem Transcript.unique {log log' : List (Request × Answer × Gauges)} (h : m.Transcript log)
    (h' : m.Transcript log') (hsame : log.map (·.1) = log'.map (·.1)) : log = log' := by
  induction h generalizing log' with
  | nil => exact (by simpa using hsame : log' = []).symm
  | cons ha _ ih =>
    cases h' with
    | nil => simp at hsame
    | cons ha' hrest' =>
      rw [List.map_cons, List.map_cons, List.cons.injEq] at hsame
      obtain ⟨rfl, hsame⟩ := hsame
      obtain ⟨rfl, rfl⟩ := ha.unique ha'
      rw [ih hrest' hsame]

end Machine
end TapeMachine
