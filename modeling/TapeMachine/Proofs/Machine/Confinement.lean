import TapeMachine.Proofs.Machine.Reachable
import TapeMachine.Proofs.Machine.Session
import TapeMachine.Proofs.Word

/-! The upper half of the addresses, which no word names. Nothing is ever stored there, so it reads
zero, and zero is no opcode word: the position gets there by a jump to the last address of the lower
half, or by going on past it, and stays. It never comes near the end of the address range. -/

namespace TapeMachine
namespace Word

theorem toNat_lt_of_address? {w : Word} {a : Address} (h : address? w = some a) :
    a.toNat < 2 ^ 63 := by
  obtain ⟨hsign, rfl⟩ := address?_eq_some_iff.1 h
  have hlt := w.toInt_lt
  rw [Int64.toNat_toUInt64_of_le hsign]
  change w.toInt.toNat < 2 ^ 63
  omega

end Word

namespace Tape

/-- Loading leaves the words behind those that are loaded as they were, whether all of them fit or
not. -/
theorem read?_load_of_le {t : Tape} {a b : Address} {ws : List Word}
    (h : a.toNat + ws.length ≤ b.toNat) : (t.load a ws).1.read? b = t.read? b := by
  induction ws generalizing t a with
  | nil => rfl
  | cons w ws ih =>
    rw [List.length_cons] at h
    have hne : ¬ a = b := by
      rintro rfl
      omega
    have hkept : (t.write a w).1.read? b = t.read? b := by
      rw [read?_write, if_neg fun hw => hne hw.1]
    rw [load_cons]
    split
    · rename_i hholds
      rw [ih (by rw [toNat_add_one ((t.holds_iff a).1 hholds)]; omega), hkept]
    · exact hkept

end Tape

namespace Machine

/-- Whether a machine has not left the lower half of the addresses by more than one instruction, and
has nothing but zeros in the upper half. -/
structure Confined (m : Machine) : Prop where
  image : m.image.length ≤ 2 ^ 63
  position : m.position.toNat ≤ 2 ^ 63 + 3
  blank : ∀ a : Address, 2 ^ 63 ≤ a.toNat → ∀ w, m.peek? a = some w → w = 0

variable {m m' : Machine} {opcode : Opcode} {mode : Nat → Mode} {e : Effect}

theorem toNat_lt_of_target {mode : Mode} {k : Nat} {a : Address} (h : m.target mode k = .ok a) :
    a.toNat < 2 ^ 63 := by
  unfold target at h
  rcases hr : m.read (m.operandAddress k) with c | w
  · simp [hr] at h
  · unfold effective at h
    rcases he : Word.address? (if mode = .relative then m.base + w else w) with _ | b
    · simp [hr, he] at h
    · simp only [hr, he, ok_bind] at h
      split at h
      · cases h
        exact Word.toNat_lt_of_address? he
      · cases h

theorem toNat_position_add {n : Nat} (h : m.position.toNat ≤ 2 ^ 63 + 3) (hn : n ≤ maxOperands) :
    (m.position + 1 + UInt64.ofNat n).toNat = m.position.toNat + 1 + n := by
  unfold maxOperands at hn
  refine toNat_operandAddress_of_lt ?_
  rw [UInt64.size]
  omega

/-- An instruction goes on by four words at most, or jumps where a word says. -/
theorem Performs.toNat_position_le (h : m.Performs mode opcode e) (hm : m.position.toNat < 2 ^ 63) :
    e.position.toNat ≤ 2 ^ 63 + 3 := by
  rcases h.position_eq with ⟨hnext, -⟩ | ⟨-, d, -, -, haddr⟩
  · have hcount : opcode.operandCount ≤ 3 := opcode.operandCount_le
    have hadd := toNat_position_add (m := m) (by omega) hcount
    rw [hnext]
    change (m.position + 1 + UInt64.ofNat opcode.operandCount).toNat ≤ _
    omega
  · have hlt := Word.toNat_lt_of_address? haddr
    omega

theorem Confined.position_lt (h : m.Confined) {f : OpFields × Opcode} (hf : m.fetch = .ok f) :
    m.position.toNat < 2 ^ 63 := by
  by_contra hle
  unfold fetch at hf
  split at hf
  · cases hf
  · rcases hp : m.peek? m.position with _ | w
    · simp [read, hp] at hf
    · obtain rfl := h.blank _ (by omega) w hp
      simp only [read, hp, ok_bind] at hf
      cases hf

theorem Confined.poke (h : m.Confined) {a : Address} (ha : a.toNat < 2 ^ 63) (w : Word) :
    (m.poke a w).1.Confined := by
  refine ⟨by simpa using h.image, by simpa using h.position, fun b hb v hv => ?_⟩
  have hne : ¬ a = b := by
    rintro rfl
    omega
  rw [peek?_poke, if_neg fun hw => hne hw.1] at hv
  exact h.blank b hb v hv

theorem Confined.apply (h : m.Confined) (he : m.plan = .ok e) : (m.apply e).Confined := by
  obtain ⟨fields, opcode, hfetch, -, hperforms⟩ := plan_eq_ok_iff.1 he
  refine ⟨h.image, hperforms.toNat_position_le (h.position_lt hfetch), fun b hb v hv => ?_⟩
  rw [peek?_of_tape (m.tape_apply e)] at hv
  rcases hs : e.store with _ | ⟨a, w⟩
  · rw [hs] at hv
    exact h.blank b hb v hv
  · obtain ⟨k, -, htarget⟩ := hperforms.store_eq hs
    rw [hs] at hv
    exact (h.poke (toNat_lt_of_target htarget) w).blank b hb v hv

theorem Confined.tick (h : m.Confined) : m.tick.2.Confined := by
  rcases hp : m.plan with s | e
  · rwa [tick_of_plan_error hp]
  · rw [tick_of_plan_ok hp]
    exact h.apply hp

theorem confined_reset (h : m.image.length ≤ 2 ^ 63) : m.reset.Confined := by
  rcases ht : m.tape with _ | t
  · rw [reset, ht]
    exact ⟨h, Nat.zero_le _, fun a _ w hw => by cases hw⟩
  · rw [reset, ht]
    refine ⟨h, Nat.zero_le _, fun a ha w hw => ?_⟩
    have hread : (t.cleared.load 0 m.image).1.read? a = some w := hw
    have hbehind : (0 : Address).toNat + m.image.length ≤ a.toNat := by
      rw [UInt64.toNat_zero]
      omega
    rw [Tape.read?_load_of_le hbehind, Tape.cleared, Tape.read?_blank] at hread
    split at hread
    · exact (Option.some.inj hread).symm
    · cases hread

theorem Confined.answers (h : m.Confined) {q : Request} {a : Answer} (ha : m.Answers q a m')
    (hq : ∀ x w, q = .poke x w → x.toNat < 2 ^ 63) : m'.Confined := by
  cases ha with
  | tick => exact h.tick
  | run hr => exact (runFrom_preserves (fun _ hx => hx.tick) h hr).1
  | push | pushAll => exact ⟨h.image, h.position, h.blank⟩
  | peek => exact h
  | poke x w => exact h.poke (hq x w rfl) w
  | reset => exact confined_reset h.image

theorem Confined.session (h : m.Confined) {log : List (Request × Answer)} (hs : m.Session log m')
    (hlog : ∀ entry ∈ log, ∀ x w, entry.1 = .poke x w → x.toNat < 2 ^ 63) : m'.Confined := by
  induction hs with
  | nil => exact h
  | cons ha _ ih =>
    rw [List.forall_mem_cons] at hlog
    exact ih (h.answers ha hlog.1) hlog.2

/-- Whatever is done with a machine, short of storing into the upper half by hand, its position stays
so far from the end of the address range that what is added to it to find the operands and the next
instruction never wraps. A run goes through the states of its ticks, which are states of a session
of ticks, so nothing wraps on the way either. -/
theorem position_never_wraps {image : Image} {tape : Option Tape} {log : List (Request × Answer)}
    (himage : image.length < 2 ^ 63) (hsession : (start image tape).Session log m)
    (hlog : ∀ entry ∈ log, ∀ a w, entry.1 = .poke a w → a.toNat < 2 ^ 63) :
    m.position.toNat ≤ 2 ^ 63 + 3 ∧
      (∀ a : Address, 2 ^ 63 ≤ a.toNat → m.read a = .ok 0 ∨ m.read a = .error (.readOutside a)) ∧
      (∀ k < maxOperands, (m.operandAddress k).toNat = m.position.toNat + 1 + k) ∧
      ∀ opcode, (m.next opcode).position.toNat = m.position.toNat + 1 + opcode.operandCount := by
  have hstart : (start image tape).Confined := confined_reset (Nat.le_of_lt himage)
  have hconfined := hstart.session hsession hlog
  have hposition := hconfined.position
  refine ⟨hposition, fun a ha => ?_, fun k hk => ?_, fun opcode => ?_⟩
  · rcases hp : m.peek? a with _ | w
    · exact .inr (by rw [read, hp])
    · obtain rfl := hconfined.blank a ha w hp
      exact .inl (by rw [read, hp])
  · exact toNat_position_add hposition (Nat.le_of_lt hk)
  · exact toNat_position_add hposition opcode.operandCount_le

def leaper : Image := [1105, 1, 0]

def leap : List (Request × Answer) :=
  [(.poke 2 9223372036854775807, .poked true), (.tick, .ticked .ok),
    (.run, .ran [] (.fault ⟨.badOpcode 0, 9223372036854775807, none, 0⟩))]

/-- From the last address of the lower half the operands of an instruction would lie in the upper. -/
theorem leap_never_wraps :
    ∃ m, (start leaper (some (.blank .growable 18446744073709551615))).Session leap m ∧
      m.position.toNat = 2 ^ 63 - 1 ∧ (m.operandAddress 2).toNat = 2 ^ 63 + 2 ∧
      (m.next .add).position.toNat = 2 ^ 63 + 3 := by
  obtain ⟨m, hsession, hposition⟩ :
      ∃ m, (start leaper (some (.blank .growable 18446744073709551615))).Session leap m ∧
        m.position.toNat = 2 ^ 63 - 1 :=
    ⟨_, .cons (.poke 2 9223372036854775807) (.cons .tick
      (.cons (.run (n := 1) (r := ⟨[], .fault ⟨.badOpcode 0, 9223372036854775807, none, 0⟩, _⟩) rfl)
        .nil)), rfl⟩
  have hlog : ∀ entry ∈ leap, ∀ a w, entry.1 = .poke a w → a.toNat < 2 ^ 63 := by
    intro entry he a w hpoke
    simp only [leap, List.mem_cons, List.not_mem_nil, or_false] at he
    rcases he with rfl | rfl | rfl <;> cases hpoke
    decide
  obtain ⟨-, -, hoperand, hnext⟩ := position_never_wraps (by decide) hsession hlog
  refine ⟨m, hsession, hposition, ?_, ?_⟩
  · rw [hoperand 2 (by decide), hposition]
    rfl
  · rw [hnext, hposition]
    rfl

end Machine
end TapeMachine
