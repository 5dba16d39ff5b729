import TapeMachine.Proofs.Word.Arithmetic

/-! Reading a decimal is exact, however long it is: what is read are the decimals of the numbers in the
range of a word, each as its number. A string of bytes is taken as the characters of their codes, and it
makes no difference whether the bytes of a text are read or its characters. -/

namespace TapeMachine

namespace Text

/-- The bytes of a text, each as the character of its code. -/
def byBytes (text : String) : List Char := text.toByteArray.data.toList.map Char.ofUInt8

theorem byBytes_eq (text : String) :
    byBytes text = text.toList.flatMap fun c => (String.utf8EncodeChar c).map Char.ofUInt8 := by
  rw [byBytes, ← String.utf8Encode_toList, List.utf8Encode, List.data_toByteArray, List.map_flatMap]

theorem toNat_ofUInt8 (b : UInt8) : (Char.ofUInt8 b).toNat = b.toNat := rfl

theorem encoding_of_lt {c : Char} (h : c.toNat < 128) :
    (String.utf8EncodeChar c).map Char.ofUInt8 = [c] := by
  have hcode : c.toNat ≤ 127 := Nat.le_of_lt_succ h
  have hbyte : Char.ofUInt8 (UInt8.ofNat c.toNat) = c := by
    rw [← Char.toNat_inj, toNat_ofUInt8, UInt8.toNat_ofNat_of_lt' (by rw [UInt8.size]; omega)]
  simp [String.utf8EncodeChar, hcode, hbyte]

theorem exists_of_not_lt {c : Char} (h : ¬ c.toNat < 128) :
    ∃ d ∈ (String.utf8EncodeChar c).map Char.ofUInt8, ¬ d.toNat < 128 := by
  have hcode : ¬ c.val.toNat ≤ 127 := fun hle => h (Nat.lt_succ_of_le hle)
  refine ⟨Char.ofUInt8 (UInt8.ofNat (c.val.toNat % 64 + 128)), ?_, ?_⟩
  · unfold String.utf8EncodeChar
    dsimp only
    rw [if_neg hcode]
    split
    · simp
    · split <;> simp
  · rw [toNat_ofUInt8, UInt8.toNat_ofNat_of_lt' (by rw [UInt8.size]; omega)]
    omega

theorem byBytes_of_forall {text : String} (h : ∀ c ∈ text.toList, c.toNat < 128) :
    byBytes text = text.toList := by
  rw [byBytes_eq]
  generalize text.toList = cs at h
  induction cs with
  | nil => rfl
  | cons c cs ih =>
    rw [List.forall_mem_cons] at h
    rw [List.flatMap_cons, encoding_of_lt h.1, ih h.2, List.singleton_append]

end Text

namespace Word

/-- The number that a decimal stands for, be it a word or beyond the words: digits, leading zeros or not,
behind a minus sign or none. -/
inductive Denotes : List Char → Int → Prop
  | unsigned {cs : List Char} (nonempty : cs ≠ []) (digits : ∀ c ∈ cs, c.isDigit = true) :
      Denotes cs (Nat.ofDigitChars 10 cs 0)
  | negative {cs : List Char} (nonempty : cs ≠ []) (digits : ∀ c ∈ cs, c.isDigit = true) :
      Denotes ('-' :: cs) (-Nat.ofDigitChars 10 cs 0)

variable {cs : List Char} {w : Word} {n n' : Int}

theorem numeral_iff_denotes : Numeral cs w ↔ Denotes cs w.toInt := by
  constructor
  · rintro (⟨nonempty, digits, value⟩ | ⟨nonempty, digits, value⟩)
    · rw [value]
      exact .unsigned nonempty digits
    · rw [value]
      exact .negative nonempty digits
  · generalize hn : w.toInt = n
    rintro (⟨nonempty, digits⟩ | ⟨nonempty, digits⟩)
    · exact .unsigned nonempty digits hn
    · exact .negative nonempty digits hn

theorem Denotes.unique (h : Denotes cs n) (h' : Denotes cs n') : n = n' := by
  have hminus : '-'.isDigit = false := rfl
  cases h with
  | unsigned _ digits =>
    cases h' with
    | unsigned => rfl
    | negative => simp [hminus] at digits
  | negative =>
    cases h' with
    | unsigned _ digits => simp [hminus] at digits
    | negative => rfl

theorem ofDecimal?_eq_some_iff_denotes : ofDecimal? cs = some w ↔ Denotes cs w.toInt :=
  ofDecimal?_eq_some_iff.trans numeral_iff_denotes

theorem exists_toInt_eq_iff : (∃ w : Word, w.toInt = n) ↔ -2 ^ 63 ≤ n ∧ n ≤ 2 ^ 63 - 1 := by
  constructor
  · rintro ⟨w, rfl⟩
    have hlower := w.le_toInt
    have hupper := w.toInt_lt
    omega
  · rintro ⟨hlower, hupper⟩
    exact ⟨Int64.ofInt n, Int64.toInt_ofInt_of_le hlower (by omega)⟩

theorem isSome_ofDecimal?_iff :
    (ofDecimal? cs).isSome = true ↔ ∃ n, Denotes cs n ∧ -2 ^ 63 ≤ n ∧ n ≤ 2 ^ 63 - 1 := by
  simp only [Option.isSome_iff_exists, ofDecimal?_eq_some_iff_denotes, ← exists_toInt_eq_iff]
  constructor
  · rintro ⟨w, hw⟩
    exact ⟨_, hw, w, rfl⟩
  · rintro ⟨_, hw, w, rfl⟩
    exact ⟨w, hw⟩

theorem ofDecimal?_eq_none_of_not_lt {c : Char} (hc : c ∈ cs) (h : ¬ c.toNat < 128) :
    ofDecimal? cs = none := by
  refine Option.eq_none_iff_forall_ne_some.2 ?_
  intro w hw
  rcases (ofDecimal?_eq_some_iff.1 hw).mem hc with rfl | hdigit
  · exact h (by decide)
  · have hbounds := isDigit_bounds hdigit
    omega

theorem ofDecimal?_byBytes (text : String) : ofDecimal? (Text.byBytes text) = parse? text := by
  by_cases hascii : ∀ c ∈ text.toList, c.toNat < 128
  · rw [Text.byBytes_of_forall hascii, parse?]
  · simp only [not_forall] at hascii
    obtain ⟨c, hc, hcode⟩ := hascii
    -- a character beyond ASCII leaves a byte beyond ASCII, and neither is in a decimal
    obtain ⟨d, hd, hbyte⟩ := Text.exists_of_not_lt hcode
    have hmem : d ∈ Text.byBytes text := by
      rw [Text.byBytes_eq]
      exact List.mem_flatMap.2 ⟨c, hc, hd⟩
    rw [parse?, ofDecimal?_eq_none_of_not_lt hc hcode, ofDecimal?_eq_none_of_not_lt hmem hbyte]

/-- Reading these characters as a decimal is exact. The reading with its arithmetic taken out is the same
in 64 bits and in integers, and the integers show that nothing has wrapped. -/
structure Exact (cs : List Char) : Prop where
  accepted : (ofDecimal? cs).isSome = true ↔ ∃ n, Denotes cs n ∧ -2 ^ 63 ≤ n ∧ n ≤ 2 ^ 63 - 1
  value : ∀ w n, ofDecimal? cs = some w → Denotes cs n → w.toInt = n
  wrapping : (ofDecimalIn .wrapping cs).run = ofDecimal? cs
  checked : ofDecimalIn .checked cs = .ok (ofDecimal? cs)

/-- Whatever the bytes of a string are, it is read just where it is the decimal of a number in the range
of a word, and as this number, without a wrap before the test on the range. Every word is read from the
decimal that is printed for it. -/
theorem decimals_read_exactly : (∀ cs, Exact cs) ∧
    (∀ text, parse? text = ofDecimal? (Text.byBytes text)) ∧ ∀ w : Word, parse? w.decimal = some w := by
  refine ⟨fun cs => ?_, fun text => (ofDecimal?_byBytes text).symm, ofDecimal?_decimal⟩
  refine ⟨isSome_ofDecimal?_iff, ?_, ?_, ?_⟩
  · intro w n hw hn
    exact (ofDecimal?_eq_some_iff_denotes.1 hw).unique hn
  · rw [ofDecimalIn_eq Arithmetic.sound_wrapping]
    rfl
  · exact ofDecimalIn_eq Arithmetic.sound_checked cs

example : ofDecimal? "-0009223372036854775808".toList = some (-9223372036854775808) := by rfl

example : ofDecimal? "9223372036854775808".toList = none := by rfl

end Word
end TapeMachine
