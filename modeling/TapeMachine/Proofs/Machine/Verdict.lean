import TapeMachine.Proofs.Machine.Needs
import TapeMachine.Proofs.OpcodeWord

/-! The rules that decide what comes of a tick, the first one that applies winning. They read the
instruction off the tape; no check that the machine makes, and no order in which it makes them, is
left to be looked up elsewhere. -/

namespace TapeMachine
namespace Machine

section Rules

variable (m : Machine)

/-- What comes of an operation whose mode digits are good ones. -/
def carriedOut (opcode : Opcode) (digits : Nat → Nat) : Status × Word :=
  if opcode = .halt then (.halted, m.contents 0)
  else if opcode = .input ∧ m.input = [] then (.inputRequired, 0)
  else
    match m.trap? opcode digits with
    | some x => (.memoryFault, Int64.ofInt x)
    | none => if opcode = .output then (.output, m.argument (digits 0) 0) else (.ok, 0)

def verdictOf (opcode : Opcode) (digits : Nat → Nat) : Status × Word :=
  match ((List.range opcode.operandCount).map digits).find? fun digit => 2 < digit with
  | some digit => (.invalidMode, Int64.ofNat digit)
  | none =>
    if opcode.writeSlot?.any fun k => digits k = 1 then (.invalidMode, 1)
    else m.carriedOut opcode digits

/-- What comes of an opcode word at the position. -/
def verdictOn (w : Word) : Status × Word :=
  if w < 0 then (.invalidOpcode, w)
  else
    match Opcode.ofCode? (Word.code w) with
    | none => (.invalidOpcode, w)
    | some opcode => m.verdictOf opcode (Word.digit w)

/-- What comes of a tick of a machine that is loaded. -/
def verdict : Status × Word :=
  if m.capacity ≤ m.position.toNat then (.memoryFault, m.position.toInt64)
  else m.verdictOn (m.contents m.position)

end Rules

end Machine

namespace Mode

theorem isNone_ofCode? (n : Nat) : (ofCode? n).isNone = decide (2 < n) := by
  match n with
  | 0 | 1 | 2 => rfl
  | n + 3 => simp [ofCode?]

theorem getD_ofCode?_eq_immediate_iff (n : Nat) : (ofCode? n).getD position = immediate ↔ n = 1 := by
  match n with
  | 0 | 1 | 2 => simp [ofCode?]
  | n + 3 => simp [ofCode?]

theorem code_getD_ofCode? {n : Nat} (h : n ≤ 2) : ((ofCode? n).getD position).code = n := by
  match n with
  | 0 | 1 | 2 => rfl
  | n + 3 => omega

end Mode

namespace Machine

variable {m : Machine} {opcode : Opcode} {fields : OpFields} {digits digits' : Nat → Nat}

theorem checkModes_eq (fields : OpFields) (opcode : Opcode) :
    checkModes fields opcode =
      match (List.range opcode.operandCount).find? fun k => 2 < fields.digit k with
      | some k => .error (.badMode (fields.digit k) k)
      | none =>
        if opcode.writeSlot?.any fun k => fields.digit k = 1 then .error .immediateStore
        else .ok () := by
  have hbad : fields.badMode? opcode =
      (List.range opcode.operandCount).find? fun k => 2 < fields.digit k := by
    simp only [OpFields.badMode?, OpFields.mode?, Mode.isNone_ofCode?]
  have hstore : (fun k => decide (fields.mode k = .immediate)) = fun k => decide (fields.digit k = 1) :=
    funext fun k => decide_eq_decide.2 (Mode.getD_ofCode?_eq_immediate_iff _)
  cases hfound : (List.range opcode.operandCount).find? fun k => 2 < fields.digit k with
  | some k => simp only [checkModes, hbad, hfound]
  | none => simp only [checkModes, hbad, hfound, hstore]

/-- Modes that pass the checks are those of their digits, and the one stored through is no immediate. -/
theorem modes_of_checkModes (h : checkModes fields opcode = .ok ()) :
    (∀ k < opcode.operandCount, fields.digit k ≤ 2 ∧ (fields.mode k).code = fields.digit k) ∧
      ∀ k, opcode.writeSlot? = some k → fields.mode k ≠ .immediate ∧ fields.digit k ≠ 1 := by
  rw [checkModes_eq] at h
  split at h
  · cases h
  · rename_i hdigits
    split at h
    · cases h
    · rename_i hstore
      refine ⟨fun k hk => ?_, fun k hk => ?_⟩
      · have hle : fields.digit k ≤ 2 := by simpa using List.find?_eq_none.1 hdigits k (by simpa using hk)
        exact ⟨hle, Mode.code_getD_ofCode? hle⟩
      · have hne : fields.digit k ≠ 1 := by simpa [hk] using hstore
        exact ⟨fun hm => hne ((Mode.getD_ofCode?_eq_immediate_iff _).1 hm), hne⟩

theorem plan_of_fetch (h : m.fetch = .ok (fields, opcode)) :
    m.plan = (m.attempt opcode (checkModes fields opcode) >>= fun _ => m.effect opcode fields.mode) := by
  simp [plan, h]

theorem tick_of_plan_error_eq {s : Stop} (h : m.plan = .error s) :
    (m.tick.1.status, m.tick.1.value) = (s.status, s.value) := by
  rw [tick_of_plan_error h]
  rfl

theorem tick_of_effect {modes : Nat → Mode} (hplan : m.plan = m.effect opcode modes)
    (hdigits : ∀ k < opcode.operandCount, (modes k).code = digits k)
    (hstore : ∀ k, opcode.writeSlot? = some k → modes k ≠ .immediate) :
    (m.tick.1.status, m.tick.1.value) = m.carriedOut opcode digits := by
  rw [carriedOut]
  by_cases hhalt : opcode = .halt
  · subst hhalt
    rw [if_pos rfl, tick_of_plan_error_eq hplan]
    rfl
  by_cases hinput : opcode = .input ∧ m.input = []
  · obtain ⟨rfl, hqueue⟩ := hinput
    have hstop : m.plan = .error .inputRequired := by simp [hplan, effect, hqueue]
    rw [if_neg hhalt, if_pos ⟨rfl, hqueue⟩, tick_of_plan_error_eq hstop]
    rfl
  rw [if_neg hhalt, if_neg hinput]
  obtain ⟨r, heffect, hr⟩ :=
    exists_comesTo hhalt (fun hi hqueue => hinput ⟨hi, hqueue⟩) hdigits hstore
  rw [heffect] at hplan
  generalize htrap : m.trap? opcode digits = trap at hr
  cases hr with
  | ok =>
    rw [tick_of_plan_ok hplan]
    by_cases houtput : opcode = .output
    · simp [intent, houtput, Outcome.status, Outcome.value]
    · simp [intent, houtput, Outcome.status, Outcome.value]
  | fault hstatus hvalue =>
    have hfault := tick_of_plan_error_eq hplan
    simpa [Stop.status, Stop.value, hstatus, hvalue] using hfault

theorem carriedOut_ne_invalid (m : Machine) (opcode : Opcode) (digits : Nat → Nat) :
    (m.carriedOut opcode digits).1 ≠ .invalidOpcode ∧ (m.carriedOut opcode digits).1 ≠ .invalidMode := by
  unfold carriedOut
  split
  · simp
  · split
    · simp
    · split
      · simp
      · split <;> simp

theorem verdictOf_ne_invalidOpcode (m : Machine) (opcode : Opcode) (digits : Nat → Nat) :
    (m.verdictOf opcode digits).1 ≠ .invalidOpcode := by
  unfold verdictOf
  split
  · simp
  · split
    · simp
    · exact (m.carriedOut_ne_invalid opcode digits).1

theorem verdictOf_eq_invalidMode_iff : (m.verdictOf opcode digits).1 = .invalidMode ↔
    (∃ k < opcode.operandCount, 2 < digits k) ∨ ∃ k, opcode.writeSlot? = some k ∧ digits k = 1 := by
  have hcarried := (m.carriedOut_ne_invalid opcode digits).2
  unfold verdictOf
  split
  · rename_i digit hfound
    have hdigit := List.find?_some hfound
    obtain ⟨k, hk, rfl⟩ := List.mem_map.1 (List.mem_of_find?_eq_some hfound)
    exact iff_of_true rfl (.inl ⟨k, List.mem_range.1 hk, by simpa using hdigit⟩)
  · rename_i hfound
    have hnone : ¬ ∃ k < opcode.operandCount, 2 < digits k := by simpa using hfound
    rw [or_iff_right hnone]
    cases opcode.writeSlot? with
    | none => simpa using hcarried
    | some k => by_cases hk : digits k = 1 <;> simp [hk, hcarried]

theorem tick_of_fetch (h : m.fetch = .ok (fields, opcode)) :
    (m.tick.1.status, m.tick.1.value) = m.verdictOf opcode fields.digit := by
  have hplan := plan_of_fetch h
  have hcheck := checkModes_eq fields opcode
  rw [verdictOf, List.find?_map, Function.comp_def]
  cases hbad : (List.range opcode.operandCount).find? fun k => 2 < fields.digit k with
  | some k =>
    simp only [hbad] at hcheck
    rw [hcheck] at hplan
    rw [tick_of_plan_error_eq hplan]
    rfl
  | none =>
    simp only [hbad] at hcheck
    cases hstore : opcode.writeSlot?.any fun k => fields.digit k = 1 with
    | true =>
      rw [hstore, if_pos rfl] at hcheck
      rw [hcheck] at hplan
      rw [tick_of_plan_error_eq hplan]
      rfl
    | false =>
      rw [hstore, if_neg (by simp)] at hcheck
      obtain ⟨hdigits, hmodes⟩ := modes_of_checkModes hcheck
      rw [hcheck] at hplan
      exact tick_of_effect hplan (fun k hk => (hdigits k hk).2) fun k hk => (hmodes k hk).1

theorem plan_of_fetch_error {cause : FaultCause} (h : m.fetch = .error cause) :
    m.plan = .error (.fault ⟨cause, m.position, none, m.base⟩) := by
  simp [plan, h]

/-- Once its opcode and its modes are accepted, an instruction can fail for want of memory only. -/
theorem tick_ne_invalid {w : Word} (hread : m.peek? m.position = some w)
    (hdecode : decode w = .ok (fields, opcode)) (hmodes : checkModes fields opcode = .ok ()) :
    m.tick.1.status ≠ .invalidOpcode ∧ m.tick.1.status ≠ .invalidMode := by
  cases hloaded : m.loadError with
  | some e =>
    have hfetch : m.fetch = .error (.notLoaded e) := by rw [fetch, hloaded]
    have hfault : m.tick.1.status = .memoryFault :=
      congrArg Prod.fst (tick_of_plan_error_eq (plan_of_fetch_error hfetch))
    simp [hfault]
  | none =>
    obtain ⟨hdigits, hstore⟩ := modes_of_checkModes hmodes
    have htick := tick_of_effect (plan_of_decode hloaded hread hdecode hmodes)
      (fun k hk => (hdigits k hk).2) fun k hk => (hstore k hk).1
    have hstatus : m.tick.1.status = (m.carriedOut opcode fields.digit).1 := congrArg Prod.fst htick
    rw [hstatus]
    exact m.carriedOut_ne_invalid opcode fields.digit

theorem tick_of_decode {w : Word} (h : m.fetch = decode w) :
    (m.tick.1.status, m.tick.1.value) = m.verdictOn w := by
  rw [verdictOn]
  unfold decode at h
  by_cases hw : w < 0
  · have hfields : OpFields.ofWord? w = none := by rw [OpFields.ofWord?, if_pos hw]
    simp only [hfields] at h
    rw [if_pos hw, tick_of_plan_error_eq (plan_of_fetch_error h)]
    rfl
  · obtain ⟨fields, hfields⟩ := OpFields.exists_of_not_neg hw
    have hopcode := OpFields.opcode?_of_ofWord? hfields
    have hdigit : fields.digit = Word.digit w := funext (OpFields.digit_of_ofWord? hfields)
    simp only [hfields, hopcode] at h
    rw [if_neg hw]
    cases hcode : Opcode.ofCode? (Word.code w) with
    | none =>
      simp only [hcode] at h
      rw [tick_of_plan_error_eq (plan_of_fetch_error h)]
      rfl
    | some opcode =>
      simp only [hcode] at h
      rw [tick_of_fetch h, hdigit]

theorem holds_iff_lt_capacity (m : Machine) (a : Address) : m.holds a = true ↔ a.toNat < m.capacity := by
  have hmiss := m.misses_toNat a
  cases hholds : m.holds a <;> simp [misses, hholds] at hmiss ⊢ <;> omega

/-- The rules decide what comes of a tick. -/
theorem tick_eq_verdict (h : m.loadError = none) :
    (m.tick.1.status, m.tick.1.value) = m.verdict := by
  rw [verdict]
  have hfetch : m.fetch = m.read m.position >>= decode := by rw [fetch, h]
  have hpeek := m.isSome_peek? m.position
  cases hp : m.peek? m.position with
  | none =>
    have houtside : m.capacity ≤ m.position.toNat := by
      rw [hp, eq_comm, Option.isSome_none, ← Bool.not_eq_true, holds_iff_lt_capacity] at hpeek
      omega
    rw [read, hp, error_bind] at hfetch
    rw [if_pos houtside, tick_of_plan_error_eq (plan_of_fetch_error hfetch)]
    rfl
  | some w =>
    have hinside : ¬ m.capacity ≤ m.position.toNat := by
      rw [hp, eq_comm, Option.isSome_some, holds_iff_lt_capacity] at hpeek
      omega
    have hword : m.contents m.position = w := by rw [contents, hp, Option.getD_some]
    rw [read, hp, ok_bind] at hfetch
    rw [if_neg hinside, hword, tick_of_decode hfetch]

theorem needed_congr (h : ∀ k < opcode.operandCount, digits k = digits' k) :
    m.needed opcode digits = m.needed opcode digits' :=
  List.flatMap_congr fun k hk => by rw [h k (List.mem_range.1 hk)]

theorem trap?_congr (h : ∀ k < opcode.operandCount, digits k = digits' k) :
    m.trap? opcode digits = m.trap? opcode digits' := by
  cases hj : opcode.isJump with
  | false => rw [trap?_of_not_jump hj, trap?_of_not_jump hj, needed_congr h]
  | true =>
    have hcount : opcode.operandCount = 2 := by cases opcode <;> cases hj <;> rfl
    have hjumps : m.jumps opcode digits = m.jumps opcode digits' := by
      cases opcode <;> simp [jumps, h 0 (by omega)]
    rw [trap?, trap?, needed_congr h, hjumps, h 1 (by omega)]

theorem verdictOf_congr (h : ∀ k < opcode.operandCount, digits k = digits' k) :
    m.verdictOf opcode digits = m.verdictOf opcode digits' := by
  have hdigits : (List.range opcode.operandCount).map digits =
      (List.range opcode.operandCount).map digits' :=
    List.map_congr_left fun k hk => h k (List.mem_range.1 hk)
  have hstore : (opcode.writeSlot?.any fun k => digits k = 1) =
      opcode.writeSlot?.any fun k => digits' k = 1 := by
    cases hslot : opcode.writeSlot? with
    | none => rfl
    | some k => simp [h k (Opcode.writeSlot_lt hslot)]
  have hcarried : m.carriedOut opcode digits = m.carriedOut opcode digits' := by
    rw [carriedOut, carriedOut, trap?_congr h]
    by_cases houtput : opcode = .output
    · rw [h 0 (by simp [houtput, Opcode.operandCount])]
    · simp only [if_neg houtput]
  rw [verdictOf, verdictOf, hdigits, hstore, hcarried]

/-- The first rule that applies decides what comes of a tick, and the same comes of every opcode word
that has the code and the mode digits of the one at the position. -/
theorem tick_follows_verdict (h : m.loadError = none) :
    (m.tick.1.status, m.tick.1.value) = m.verdict ∧
      ∀ w opcode, m.position.toNat < m.capacity → 0 ≤ m.contents m.position → 0 ≤ w →
        Word.code w = Word.code (m.contents m.position) → Opcode.ofCode? (Word.code w) = some opcode →
        (∀ k < opcode.operandCount, Word.digit w k = Word.digit (m.contents m.position) k) →
        (m.tick.1.status, m.tick.1.value) = m.verdictOn w := by
  have htick := tick_eq_verdict h
  refine ⟨htick, fun w opcode hinside hword hw hcode hopcode hdigits => ?_⟩
  have hsame : m.verdictOn w = m.verdictOn (m.contents m.position) := by
    have hword' : ¬ m.contents m.position < 0 := by simpa using hword
    have hw' : ¬ w < 0 := by simpa using hw
    simp only [verdictOn, if_neg hword', if_neg hw', ← hcode, hopcode]
    exact verdictOf_congr hdigits
  rw [htick, verdict, if_neg (by omega), hsame]

/-- Adds to its second word the one behind the end of its tape, to store the sum in front of it. -/
def strayed : Machine := start [20101, 5, 7, -1] (some (.blank .fixed 6))

/-- The address behind the end comes before the negative one, and the digits above the modes of three
operands are not looked at. -/
theorem verdict_strayed :
    (strayed.tick.1.status, strayed.tick.1.value) = (.memoryFault, 7) ∧
      strayed.verdictOn 4320101 = (.memoryFault, 7) := by
  obtain ⟨hverdict, hdigits⟩ := tick_follows_verdict (m := strayed) rfl
  have hfault : strayed.verdict = (.memoryFault, 7) := by decide
  refine ⟨hverdict.trans hfault, ?_⟩
  rw [← hdigits 4320101 .add (by decide) (by decide) (by decide) (by decide) (by decide) (by decide),
    hverdict, hfault]

end Machine
end TapeMachine
