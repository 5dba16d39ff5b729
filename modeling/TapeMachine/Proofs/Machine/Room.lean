import TapeMachine.Proofs.Machine.Likeness
import TapeMachine.Proofs.Machine.Reachable
import TapeMachine.Proofs.Machine.Session

/-! Machines with more room on their tapes. Room that is never asked for makes no difference: a
machine that comes to no memory fault on a tape does the same on a larger one, and leaves nothing but
zeros in the part that it did not have before. -/

namespace TapeMachine
namespace Tape

/-- Whether a tape of one capacity is found again in a tape of another, with zeros behind it. -/
structure Extends (limit limit' : Address) (t t' : Tape) : Prop where
  le : limit ≤ limit'
  capacity : t.capacity = limit
  capacity' : t'.capacity = limit'
  same : ∀ a, a < limit → t'.read? a = t.read? a
  zero : ∀ a, limit ≤ a → a < limit' → t'.read? a = some 0

variable {limit limit' a : Address} {t t' : Tape}

theorem extends_blank (kind kind' : TapeKind) (h : limit ≤ limit') :
    Extends limit limit' (blank kind limit) (blank kind' limit') := by
  refine ⟨h, by cases kind <;> rfl, by cases kind' <;> rfl, fun a ha => ?_, fun a _ ha' => ?_⟩
  · rw [read?_blank, read?_blank, if_pos ha, if_pos (UInt64.lt_of_lt_of_le ha h)]
  · rw [read?_blank, if_pos ha']

theorem cleared_blank (kind : TapeKind) (limit : Address) :
    (blank kind limit).cleared = blank kind limit := by
  cases kind <;> rfl

theorem Extends.holds_iff (h : Extends limit limit' t t') : t.holds a = true ↔ a < limit := by
  rw [Tape.holds_iff, h.capacity]

theorem Extends.holds (h : Extends limit limit' t t') (ha : a < limit) : t'.holds a = true := by
  rw [Tape.holds_iff, h.capacity']
  exact UInt64.lt_of_lt_of_le ha h.le

theorem Extends.write (h : Extends limit limit' t t') (ha : a < limit) (w : Word) :
    Extends limit limit' (t.write a w).1 (t'.write a w).1 := by
  refine ⟨h.le, by simp [h.capacity], by simp [h.capacity'], fun b hb => ?_, fun b hb hb' => ?_⟩
  · rw [read?_write, read?_write, h.holds_iff.2 ha, h.holds ha, h.same b hb]
  · have hne : ¬ a = b := by
      rintro rfl
      exact UInt64.not_lt.2 hb ha
    rw [read?_write, if_neg (fun hw => hne hw.1), h.zero b hb hb']

theorem Extends.load (h : Extends limit limit' t t') {ws : List Word}
    (hfits : a.toNat + ws.length ≤ limit.toNat) :
    Extends limit limit' (t.load a ws).1 (t'.load a ws).1 := by
  induction ws generalizing t t' a with
  | nil => exact h
  | cons w ws ih =>
    rw [List.length_cons] at hfits
    have ha : a < limit := by rw [UInt64.lt_iff_toNat_lt]; omega
    have hnext := toNat_add_one ha
    rw [Tape.load_cons, Tape.load_cons, if_pos (h.holds_iff.2 ha), if_pos (h.holds ha)]
    exact ih (h.write ha w) (by omega)

end Tape

namespace Machine

variable {limit limit' : Address} {m m' m₁ : Machine}

/-- Whether two machines differ in nothing but the room on their tapes. -/
abbrev Fits (limit limit' : Address) (m m' : Machine) : Prop :=
  m.Alike (Tape.Extends limit limit') m'

namespace Fits

/-- Only memory faults are excused: where they do not come up, the smaller tape had what it took. -/
theorem mimics (h : m.Fits limit limit' m') : m.Mimics (· = .memoryFault) m' := by
  obtain ⟨t, t', ht, ht', hR⟩ := h.tapes
  have hpeek (a : Address) (ha : a < limit) : m'.peek? a = m.peek? a := by
    rw [peek?, peek?, ht, ht']
    exact hR.same a ha
  refine ⟨h.loadError, h.input, h.position, h.base, fun a => ?_, fun hfirst => hpeek 0 ?_⟩
  · by_cases ha : a < limit
    · exact .inl (hpeek a ha)
    · have hnone : (m.peek? a).isSome = false := by
        rw [isSome_peek?, holds, ht]
        simpa [ha] using hR.holds_iff (a := a)
      exact .inr ⟨by simpa using hnone, rfl⟩
  · rw [isSome_peek?, holds, ht] at hfirst
    have hposition : m.position < limit := hR.holds_iff.1 hfirst
    rw [UInt64.lt_iff_toNat_lt] at hposition ⊢
    exact Nat.lt_of_le_of_lt (Nat.zero_le _) hposition

theorem tick (h : m.Fits limit limit' m') (hfault : m.tick.1.status ≠ .memoryFault) :
    m'.tick.1 = m.tick.1 ∧ m.tick.2.Fits limit limit' m'.tick.2 := by
  have hplan : m'.plan = m.plan := by
    refine h.mimics.plan fun s hs => ?_
    rwa [tick_of_plan_error hs] at hfault
  refine Alike.tick h hplan fun e a w t t' he hstore ht hR => hR.write ?_ w
  obtain ⟨mode, opcode, hperforms⟩ := performs_of_plan he
  obtain ⟨k, -, htarget⟩ := hperforms.store_eq hstore
  have hholds := holds_of_target htarget
  rw [holds, ht] at hholds
  exact hR.holds_iff.1 hholds

theorem session (h : m.Fits limit limit' m') {log : List (Request × Answer)}
    (hsession : m.Session log m₁) (hlog : ∀ entry ∈ log, entry.1 = .tick ∨ ∃ w, entry.1 = .push w)
    (hfaults : ∀ outcome, (.tick, .ticked outcome) ∈ log → outcome.status ≠ .memoryFault) :
    ∃ m₁', m'.Session log m₁' ∧ m₁.Fits limit limit' m₁' := by
  induction hsession generalizing m' with
  | nil => exact ⟨m', .nil, h⟩
  | cons ha _ ih =>
    rw [List.forall_mem_cons] at hlog
    have hfaults' := fun outcome ho => hfaults outcome (List.mem_cons_of_mem _ ho)
    rcases hlog.1 with hq | ⟨w, hq⟩
    · obtain rfl := hq
      cases ha
      obtain ⟨houtcome, hnext⟩ := h.tick (hfaults _ (by simp))
      obtain ⟨m₁', hsession', hfits⟩ := ih hnext hlog.2 hfaults'
      rw [← houtcome]
      exact ⟨m₁', .cons .tick hsession', hfits⟩
    · obtain rfl := hq
      cases ha
      obtain ⟨m₁', hsession', hfits⟩ := ih (h.pushAll [w]) hlog.2 hfaults'
      exact ⟨m₁', .cons (.push w) hsession', hfits⟩

end Fits

theorem fits_start {image : Image} (kind kind' : TapeKind) (himage : image.length ≤ limit.toNat)
    (hlimit : limit ≤ limit') :
    (start image (some (.blank kind limit))).Fits limit limit'
      (start image (some (.blank kind' limit'))) := by
  have hblank := Tape.extends_blank kind kind' hlimit
  have hroom : (0 : Address).toNat + image.length ≤ limit.toNat := by simpa using himage
  have hcomplete : ((Tape.blank kind limit).load 0 image).2 = true :=
    (Tape.load_of_fits (by rwa [hblank.capacity])).1
  have hcomplete' : ((Tape.blank kind' limit').load 0 image).2 = true := by
    rw [UInt64.le_iff_toNat_le] at hlimit
    exact (Tape.load_of_fits (by rw [hblank.capacity']; omega)).1
  rw [start, start, reset_of_tape rfl, reset_of_tape rfl]
  simp only [Tape.cleared_blank, hcomplete, hcomplete', if_true]
  exact ⟨rfl, ⟨_, _, rfl, rfl, hblank.load hroom⟩, rfl, rfl, rfl, rfl, rfl⟩

/-- What a machine does without a fault does not depend on how much room it has beyond that. -/
theorem session_with_more_room {image : Image} {kind kind' : TapeKind} {inputs : List Word}
    {log : List (Request × Answer)} (himage : image.length ≤ limit.toNat) (hlimit : limit ≤ limit')
    (hsession : ((start image (some (.blank kind limit))).pushAll inputs).Session log m)
    (hlog : ∀ entry ∈ log, entry.1 = .tick ∨ ∃ w, entry.1 = .push w)
    (hfaults : ∀ outcome, (.tick, .ticked outcome) ∈ log → outcome.status ≠ .memoryFault) :
    ∃ m', ((start image (some (.blank kind' limit'))).pushAll inputs).Session log m' ∧
      (∀ log' m'', ((start image (some (.blank kind' limit'))).pushAll inputs).Session log' m'' →
        log'.map (·.1) = log.map (·.1) → log' = log ∧ m'' = m') ∧
      m'.position = m.position ∧ m'.base = m.base ∧ m'.input = m.input ∧ m'.ticks = m.ticks ∧
      (∀ a, a < limit → m'.peek? a = m.peek? a) ∧
      ∀ a, limit ≤ a → a < limit' → m'.peek? a = some 0 := by
  have hstart : Fits _ _ _ _ := (fits_start kind kind' himage hlimit).pushAll inputs
  obtain ⟨m', hsession', hfits⟩ := hstart.session hsession hlog hfaults
  obtain ⟨t, t', ht, ht', hR⟩ := hfits.tapes
  refine ⟨m', hsession', fun log' m'' h hsame => h.unique hsession' hsame, hfits.position, hfits.base,
    hfits.input, hfits.ticks, fun a ha => ?_, fun a ha ha' => ?_⟩
  · rw [peek?, peek?, ht, ht']
    exact hR.same a ha
  · rw [peek?, ht']
    exact hR.zero a ha ha'

/-- Puts out the double of its input, and uses its tape up to address 15 on the way. -/
def doubler : Image := [3, 15, 1, 15, 15, 14, 4, 14, 99]

def doubling : List (Request × Answer) :=
  [(.tick, .ticked (.stopped .inputRequired)), (.push 21, .pushed), (.tick, .ticked .ok),
    (.tick, .ticked .ok), (.tick, .ticked (.output 42)), (.tick, .ticked (.stopped (.halted 3)))]

theorem session_doubler :
    ∃ m', ((start doubler (some (.blank .sparse 20))).pushAll []).Session doubling m' ∧
      m'.peek? 15 = some 21 ∧ m'.peek? 19 = some 0 := by
  obtain ⟨m, hsession, hpeek⟩ :
      ∃ m, ((start doubler (some (.blank .fixed 16))).pushAll []).Session doubling m ∧
        m.peek? 15 = some 21 :=
    ⟨_, .cons .tick (.cons (.push 21) (.cons .tick (.cons .tick (.cons .tick (.cons .tick .nil))))), rfl⟩
  have hlog : ∀ entry ∈ doubling, entry.1 = .tick ∨ ∃ w, entry.1 = .push w := by
    simp [doubling]
  have hfaults : ∀ outcome, (.tick, .ticked outcome) ∈ doubling → outcome.status ≠ .memoryFault := by
    simp [doubling, Outcome.status, Stop.status]
  obtain ⟨m', hsession', -, -, -, -, -, hsame, hzero⟩ :=
    session_with_more_room (by decide) (by decide : (16 : Address) ≤ 20) hsession hlog hfaults
  exact ⟨m', hsession', (hsame 15 (by decide)).trans hpeek, hzero 19 (by decide) (by decide)⟩

end Machine
end TapeMachine
