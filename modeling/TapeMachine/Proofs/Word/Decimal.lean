import TapeMachine.Word.Decimal

/-! Reading and printing of decimal words. The test on each digit comes to one test on the number
that the digits stand for, so what is in range is read as it is and all else is refused. -/

namespace TapeMachine
namespace Word

theorem isDigit_bounds {c : Char} (h : c.isDigit = true) : 48 ≤ c.toNat ∧ c.toNat ≤ 57 :=
  Char.isDigit_iff_toNat.1 h

theorem digitValue_toNat {c : Char} (h : c.isDigit = true) :
    (digitValue c).toNat = c.toNat - '0'.toNat := by
  have hc := isDigit_bounds h
  have hzero : '0'.toNat = 48 := rfl
  rw [digitValue, UInt64.toNat_ofNat_of_lt' (by rw [UInt64.size]; omega)]

/-- The test on a digit refuses just the numbers beyond the limit. -/
theorem gt_room_iff {limit m d : UInt64} (h : d ≤ limit) :
    m > (limit - d) / 10 ↔ limit.toNat < 10 * m.toNat + d.toNat := by
  have hle := UInt64.le_iff_toNat_le.1 h
  have hroom : ((limit - d) / 10).toNat = (limit.toNat - d.toNat) / 10 := by
    rw [UInt64.toNat_div, UInt64.toNat_sub_of_le _ _ h]
    rfl
  rw [gt_iff_lt, UInt64.lt_iff_toNat_lt, hroom]
  omega

theorem pushDigit?_eq {limit m d : UInt64} (h : d ≤ limit) :
    pushDigit? limit m d =
      if 10 * m.toNat + d.toNat ≤ limit.toNat then some (UInt64.ofNat (10 * m.toNat + d.toNat))
      else none := by
  rw [pushDigit?]
  by_cases hle : 10 * m.toNat + d.toNat ≤ limit.toNat
  · have hsum : m * 10 + d = UInt64.ofNat (10 * m.toNat + d.toNat) := by
      simp [UInt64.mul_comm]
    rw [if_neg (fun htest => Nat.not_lt.2 hle ((gt_room_iff h).1 htest)), if_pos hle, hsum]
  · rw [if_pos ((gt_room_iff h).2 (Nat.not_le.1 hle)), if_neg hle]

theorem digitValue_le {limit : UInt64} (hlimit : 9 ≤ limit.toNat) {c : Char} (h : c.isDigit = true) :
    digitValue c ≤ limit := by
  have hbounds := isDigit_bounds h
  have hzero : '0'.toNat = 48 := rfl
  rw [UInt64.le_iff_toNat_le, digitValue_toNat h]
  omega

theorem le_ofDigitChars (digits : List Char) (n : Nat) : n ≤ Nat.ofDigitChars 10 digits n := by
  induction digits generalizing n with
  | nil => simp
  | cons c cs ih =>
    rw [Nat.ofDigitChars_cons]
    have := ih (10 * n + (c.toNat - '0'.toNat))
    omega

theorem foldlM_digits {limit : UInt64} (hlimit : 9 ≤ limit.toNat) (digits : List Char) (m : UInt64)
    (hm : m.toNat ≤ limit.toNat) :
    (digits.foldlM (fun m c => if c.isDigit then pushDigit? limit m (digitValue c) else none) m) =
      if digits.all Char.isDigit = true ∧ Nat.ofDigitChars 10 digits m.toNat ≤ limit.toNat then
        some (UInt64.ofNat (Nat.ofDigitChars 10 digits m.toNat))
      else none := by
  induction digits generalizing m with
  | nil => simp [hm]
  | cons c cs ih =>
    rw [List.foldlM_cons, Nat.ofDigitChars_cons, List.all_cons]
    by_cases hc : c.isDigit = true
    · rw [if_pos hc, pushDigit?_eq (digitValue_le hlimit hc), digitValue_toNat hc]
      by_cases hle : 10 * m.toNat + (c.toNat - '0'.toNat) ≤ limit.toNat
      · have hnat : (UInt64.ofNat (10 * m.toNat + (c.toNat - '0'.toNat))).toNat =
            10 * m.toNat + (c.toNat - '0'.toNat) :=
          UInt64.toNat_ofNat_of_lt' (Nat.lt_of_le_of_lt hle limit.toNat_lt)
        rw [if_pos hle, Option.bind_eq_bind, Option.bind_some, ih _ (by omega), hnat]
        simp only [hc, Bool.true_and]
      · have hgrows := le_ofDigitChars cs (10 * m.toNat + (c.toNat - '0'.toNat))
        rw [if_neg hle, if_neg (fun h => hle (Nat.le_trans hgrows h.2))]
        rfl
    · simp [hc]

theorem magnitude?_eq {limit : UInt64} (hlimit : 9 ≤ limit.toNat) (digits : List Char) :
    magnitude? limit digits =
      if digits.all Char.isDigit = true ∧ Nat.ofDigitChars 10 digits 0 ≤ limit.toNat then
        some (UInt64.ofNat (Nat.ofDigitChars 10 digits 0))
      else none :=
  foldlM_digits hlimit digits 0 (Nat.zero_le _)

theorem toInt64_ofNat (n : Nat) : (UInt64.ofNat n).toInt64 = Int64.ofInt n := by
  simp [Int64.ofInt_eq_ofNat]

theorem toInt64_zero_sub_ofNat (n : Nat) : (0 - UInt64.ofNat n).toInt64 = -Int64.ofInt n := by
  simp [Int64.ofInt_eq_ofNat]

/-- How a word is written: digits, leading zeros or not, behind a minus sign or none. A number that
lies outside the range of a word is that of no word. -/
inductive Numeral : List Char → Word → Prop
  | unsigned {cs : List Char} {w : Word} (nonempty : cs ≠ [])
      (digits : ∀ c ∈ cs, c.isDigit = true) (value : w.toInt = Nat.ofDigitChars 10 cs 0) :
      Numeral cs w
  | negative {cs : List Char} {w : Word} (nonempty : cs ≠ [])
      (digits : ∀ c ∈ cs, c.isDigit = true) (value : w.toInt = -Nat.ofDigitChars 10 cs 0) :
      Numeral ('-' :: cs) w

theorem Numeral.ne_nil {cs : List Char} {w : Word} (h : Numeral cs w) : cs ≠ [] := by
  cases h with
  | unsigned nonempty => exact nonempty
  | negative => exact List.cons_ne_nil _ _

theorem Numeral.mem {cs : List Char} {w : Word} (h : Numeral cs w) {c : Char} (hc : c ∈ cs) :
    c = '-' ∨ c.isDigit = true := by
  cases h with
  | unsigned _ digits => exact .inr (digits c hc)
  | negative _ digits => exact (List.mem_cons.1 hc).imp_right (digits c)

theorem Numeral.notMem {cs : List Char} {w : Word} (h : Numeral cs w) {c : Char}
    (hdigit : c.isDigit = false) (hminus : c ≠ '-') : c ∉ cs := by
  intro hc
  rcases h.mem hc with heq | hc
  · exact hminus heq
  · rw [hdigit] at hc
    cases hc

theorem nine_le_maxMagnitude (negative : Bool) : 9 ≤ (maxMagnitude negative).toNat := by
  cases negative <;> decide

theorem unsigned?_eq_some_iff {negative : Bool} {cs : List Char} {m : UInt64} :
    unsigned? negative cs = some m ↔
      cs ≠ [] ∧ (∀ c ∈ cs, c.isDigit = true) ∧
        Nat.ofDigitChars 10 cs 0 ≤ (maxMagnitude negative).toNat ∧
        m = UInt64.ofNat (Nat.ofDigitChars 10 cs 0) := by
  cases cs with
  | nil => simp [unsigned?]
  | cons c cs =>
    rw [unsigned?, magnitude?_eq (nine_le_maxMagnitude negative), Option.ite_none_right_eq_some, List.all_eq_true, and_assoc,
      Option.some_inj, eq_comm (a := m)]
    · exact (and_iff_right (List.cons_ne_nil c cs)).symm
    · exact List.cons_ne_nil c cs

theorem toInt_unsigned {n : Nat} (h : n ≤ (maxMagnitude false).toNat) :
    (UInt64.ofNat n).toInt64.toInt = n := by
  have hlimit : (maxMagnitude false).toNat = 2 ^ 63 - 1 := rfl
  rw [toInt64_ofNat]
  exact Int64.toInt_ofInt_of_le (by omega) (by omega)

theorem toInt_negative {n : Nat} (h : n ≤ (maxMagnitude true).toNat) :
    (0 - UInt64.ofNat n).toInt64.toInt = -n := by
  have hlimit : (maxMagnitude true).toNat = 2 ^ 63 := rfl
  rw [toInt64_zero_sub_ofNat, ← Int64.ofInt_neg]
  exact Int64.toInt_ofInt_of_le (by omega) (by omega)

theorem ofDecimal?_of_ne {cs : List Char} (h : cs.head? ≠ some '-') :
    ofDecimal? cs = (unsigned? false cs).map fun m => m.toInt64 := by
  unfold ofDecimal?
  split
  · exact absurd rfl h
  · rfl

theorem Numeral.ofDecimal? {cs : List Char} {w : Word} (h : Numeral cs w) : ofDecimal? cs = some w := by
  have hlower := w.le_toInt
  have hupper := w.toInt_lt
  cases h with
  | unsigned nonempty digits value =>
    have hlimit : (maxMagnitude false).toNat = 2 ^ 63 - 1 := rfl
    have hle : Nat.ofDigitChars 10 cs 0 ≤ (maxMagnitude false).toNat := by omega
    have hhead : cs.head? ≠ some '-' := by
      intro hhead
      have := digits _ (List.mem_of_head? hhead)
      cases this
    rw [ofDecimal?_of_ne hhead, unsigned?_eq_some_iff.2 ⟨nonempty, digits, hle, rfl⟩, Option.map_some,
      Option.some_inj, ← Int64.toInt_inj, toInt_unsigned hle, value]
  | @negative cs _ nonempty digits value =>
    have hlimit : (maxMagnitude true).toNat = 2 ^ 63 := rfl
    have hle : Nat.ofDigitChars 10 cs 0 ≤ (maxMagnitude true).toNat := by omega
    rw [Word.ofDecimal?, unsigned?_eq_some_iff.2 ⟨nonempty, digits, hle, rfl⟩, Option.map_some,
      Option.some_inj, ← Int64.toInt_inj, toInt_negative hle, value]

theorem ofDecimal?_eq_some_iff {cs : List Char} {w : Word} : ofDecimal? cs = some w ↔ Numeral cs w := by
  constructor
  · intro h
    by_cases hhead : cs.head? = some '-'
    · obtain ⟨digits, rfl⟩ := List.head?_eq_some_iff.1 hhead
      obtain ⟨m, hm, rfl⟩ := Option.map_eq_some_iff.1 h
      obtain ⟨hne, hdigits, hle, rfl⟩ := unsigned?_eq_some_iff.1 hm
      exact .negative hne hdigits (toInt_negative hle)
    · rw [ofDecimal?_of_ne hhead] at h
      obtain ⟨m, hm, rfl⟩ := Option.map_eq_some_iff.1 h
      obtain ⟨hne, hdigits, hle, rfl⟩ := unsigned?_eq_some_iff.1 hm
      exact .unsigned hne hdigits (toInt_unsigned hle)
  · exact Numeral.ofDecimal?

/-- The characters of a decimal, but for a minus sign. -/
def digits (w : Word) : List Char := Nat.toDigits 10 w.toInt.natAbs

theorem isDigit_of_mem_digits {w : Word} {c : Char} (h : c ∈ digits w) : c.isDigit = true :=
  Nat.isDigit_of_mem_toDigits (by decide) (by decide) h

theorem toList_decimal (w : Word) :
    w.decimal.toList = if w < 0 then '-' :: digits w else digits w := by
  rw [decimal]
  split <;> simp [digits]

theorem ofDigitChars_digits (w : Word) : Nat.ofDigitChars 10 (digits w) 0 = w.toInt.natAbs :=
  Nat.ofDigitChars_toDigits (by decide) (by decide)

theorem numeral_decimal (w : Word) : Numeral w.decimal.toList w := by
  have hne : digits w ≠ [] := Nat.toDigits_ne_nil
  have hdigits : ∀ c ∈ digits w, c.isDigit = true := fun c => isDigit_of_mem_digits
  rw [toList_decimal]
  split
  · rename_i hneg
    have hneg : w.toInt < 0 := by simpa using Int64.lt_iff_toInt_lt.1 hneg
    exact .negative hne hdigits (by rw [ofDigitChars_digits]; omega)
  · rename_i hneg
    have hneg : 0 ≤ w.toInt := by simpa [Int64.lt_iff_toInt_lt] using hneg
    exact .unsigned hne hdigits (by rw [ofDigitChars_digits]; omega)

theorem notMem_decimal (w : Word) {c : Char} (hdigit : c.isDigit = false) (hminus : c ≠ '-') :
    c ∉ w.decimal.toList :=
  (numeral_decimal w).notMem hdigit hminus

theorem ofDecimal?_decimal (w : Word) : ofDecimal? w.decimal.toList = some w :=
  (numeral_decimal w).ofDecimal?

end Word
end TapeMachine
