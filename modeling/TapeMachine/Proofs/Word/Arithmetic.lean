import Mathlib.Algebra.GroupWithZero.Nat
import Mathlib.Algebra.Ring.Int.Defs
import TapeMachine.Proofs.Passes
import TapeMachine.Proofs.Word.Decimal

/-! The reading of a decimal with its arithmetic taken out. It comes to the same in every arithmetic
that is right where a result has 64 bits, whatever else that arithmetic does: no number that the
reading computes before its test on the range leaves the 64 bits. -/

namespace TapeMachine

/-- The operations on 64-bit numbers; `m` says what may come of one besides its result. -/
structure Arithmetic (m : Type → Type) where
  sub : UInt64 → UInt64 → m UInt64
  div : UInt64 → UInt64 → m UInt64
  mul : UInt64 → UInt64 → m UInt64
  add : UInt64 → UInt64 → m UInt64

namespace Arithmetic

def wrapping : Arithmetic Id where
  sub a b := pure (a - b)
  div a b := pure (a / b)
  mul a b := pure (a * b)
  add a b := pure (a + b)

/-- The integer as a 64-bit number. One that is none is given back. -/
def represent (n : Int) : Except Int UInt64 :=
  if 0 ≤ n ∧ n < 2 ^ 64 then .ok (UInt64.ofNat n.toNat) else .error n

/-- Computes with integers, and stops at the first one that is no 64-bit number. -/
def checked : Arithmetic (Except Int) where
  sub a b := represent (a.toNat - b.toNat)
  div a b := represent (a.toNat / b.toNat)
  mul a b := represent (a.toNat * b.toNat)
  add a b := represent (a.toNat + b.toNat)

/-- Right where the result is a 64-bit number. -/
structure Sound {m : Type → Type} [Monad m] (ops : Arithmetic m) : Prop where
  sub : ∀ a b, b ≤ a → ops.sub a b = pure (a - b)
  div : ∀ a b, ops.div a b = pure (a / b)
  mul : ∀ a b, a.toNat * b.toNat < 2 ^ 64 → ops.mul a b = pure (a * b)
  add : ∀ a b, a.toNat + b.toNat < 2 ^ 64 → ops.add a b = pure (a + b)

theorem sound_wrapping : wrapping.Sound :=
  ⟨fun _ _ _ => rfl, fun _ _ => rfl, fun _ _ _ => rfl, fun _ _ _ => rfl⟩

theorem represent_toNat (a : UInt64) : represent a.toNat = pure a := by
  have ha := a.toNat_lt
  rw [represent, if_pos (by omega), Int.toNat_natCast, UInt64.ofNat_toNat]
  rfl

theorem sound_checked : checked.Sound where
  sub a b h := by
    have hle := UInt64.le_iff_toNat_le.1 h
    rw [checked, ← represent_toNat, UInt64.toNat_sub_of_le _ _ h, Int.ofNat_sub hle]
  div a b := by
    rw [checked, ← represent_toNat, UInt64.toNat_div, Int.natCast_div]
  mul a b h := by
    rw [checked, ← represent_toNat, UInt64.toNat_mul, Nat.mod_eq_of_lt h, Int.natCast_mul]
  add a b h := by
    rw [checked, ← represent_toNat, UInt64.toNat_add, Nat.mod_eq_of_lt h, Int.natCast_add]

end Arithmetic

namespace Word

variable {m : Type → Type} [Monad m] (ops : Arithmetic m)

def pushDigitIn (limit magnitude digit : UInt64) : m (Option UInt64) := do
  let room ← ops.sub limit digit
  let most ← ops.div room 10
  if magnitude > most then return none
  let shifted ← ops.mul magnitude 10
  let next ← ops.add shifted digit
  return some next

def magnitudeIn (limit magnitude : UInt64) : List Char → m (Option UInt64)
  | [] => return some magnitude
  | c :: cs => do
    if !c.isDigit then return none
    match ← pushDigitIn ops limit magnitude (digitValue c) with
    | none => return none
    | some next => magnitudeIn limit next cs

def unsignedIn (negative : Bool) : List Char → m (Option UInt64)
  | [] => return none
  | digits => magnitudeIn ops (maxMagnitude negative) 0 digits

/-- `ofDecimal?` in an arithmetic. The negation stays out of it: it comes after the test on the range and
is meant to wrap. -/
def ofDecimalIn : List Char → m (Option Word)
  | '-' :: digits => do
    let magnitude ← unsignedIn ops true digits
    return magnitude.map fun n => (0 - n).toInt64
  | digits => do
    let magnitude ← unsignedIn ops false digits
    return magnitude.map fun n => n.toInt64

variable [LawfulMonad m] {ops}

/-- The difference is exact since no digit is above the limit, the product and the sum are since the test
has come before them. -/
theorem pushDigitIn_eq (h : ops.Sound) {limit magnitude digit : UInt64} (hdigit : digit ≤ limit) :
    pushDigitIn ops limit magnitude digit = pure (pushDigit? limit magnitude digit) := by
  have hten : (10 : UInt64).toNat = 10 := rfl
  have hlimit := limit.toNat_lt
  rw [pushDigitIn, pushDigit?, h.sub _ _ hdigit, pure_bind, h.div, pure_bind]
  split
  · rfl
  · rename_i htest
    have hroom := Nat.not_lt.1 (mt (gt_room_iff hdigit).2 htest)
    have hproduct : magnitude.toNat * (10 : UInt64).toNat < 2 ^ 64 := by
      rw [hten]
      omega
    have hsum : (magnitude * 10).toNat + digit.toNat < 2 ^ 64 := by
      rw [UInt64.toNat_mul, Nat.mod_eq_of_lt hproduct, hten]
      omega
    rw [h.mul _ _ hproduct, pure_bind, h.add _ _ hsum, pure_bind]

-- in 64 bits the step has the operations of `pushDigit?`, not just its results
example (limit magnitude digit : UInt64) :
    (pushDigitIn .wrapping limit magnitude digit).run = pushDigit? limit magnitude digit := by rfl

theorem magnitudeIn_eq (h : ops.Sound) {limit : UInt64} (hlimit : 9 ≤ limit.toNat)
    (magnitude : UInt64) (digits : List Char) :
    magnitudeIn ops limit magnitude digits = pure (digits.foldlM
      (fun n c => if c.isDigit then pushDigit? limit n (digitValue c) else none) magnitude) := by
  induction digits generalizing magnitude with
  | nil => rfl
  | cons c cs ih =>
    rw [magnitudeIn, List.foldlM_cons]
    by_cases hc : c.isDigit = true
    · rw [if_pos hc, pushDigitIn_eq h (digitValue_le hlimit hc)]
      cases hpush : pushDigit? limit magnitude (digitValue c) with
      | none => simp [hc]
      | some next => simp [hc, ih]
    · simp [hc]

theorem unsignedIn_eq (h : ops.Sound) (negative : Bool) (digits : List Char) :
    unsignedIn ops negative digits = pure (unsigned? negative digits) := by
  cases digits with
  | nil => rfl
  | cons c cs => exact magnitudeIn_eq h (nine_le_maxMagnitude negative) 0 (c :: cs)

/-- What is read does not hang on what comes of results beyond 64 bits: there are none. -/
theorem ofDecimalIn_eq (h : ops.Sound) (cs : List Char) : ofDecimalIn ops cs = pure (ofDecimal? cs) := by
  unfold ofDecimalIn
  split
  · rw [unsignedIn_eq h, pure_bind]
    rfl
  · rename_i hunsigned
    have hhead : cs.head? ≠ some '-' := by
      intro hhead
      obtain ⟨digits, hcs⟩ := List.head?_eq_some_iff.1 hhead
      exact hunsigned digits hcs
    rw [unsignedIn_eq h, pure_bind, ofDecimal?_of_ne hhead]

end Word
end TapeMachine
