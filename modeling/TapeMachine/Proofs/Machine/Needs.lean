import TapeMachine.Proofs.Machine.Step
import TapeMachine.Proofs.Opcode.Fields
import TapeMachine.Proofs.Word
import TapeMachine.Proofs.Word.Decimal

/-! What an instruction needs of the tape. Its operands are read off the tape and off the decimal
digits of its opcode word; the addresses that this takes, in the order in which they are looked at,
are the ones it can fault at. It faults at the first that the tape does not have, and where there is
none it does what its operands say. -/

namespace TapeMachine
namespace Word

theorem ofInt_toNat (a : Address) : Int64.ofInt (a.toNat : Int) = a.toInt64 := by
  rw [← toInt64_ofNat, UInt64.ofNat_toNat]

theorem toNat_toUInt64 {w : Word} (h : 0 ≤ w) : (w.toUInt64.toNat : Int) = w.toInt := by
  have hsign : 0 ≤ w.toInt := by simpa using Int64.le_iff_toInt_le.1 h
  rw [Int64.toNat_toUInt64_of_le h]
  exact Int.toNat_of_nonneg hsign

theorem neg_iff_toInt (w : Word) : w < 0 ↔ w.toInt < 0 := by
  simpa using Int64.lt_iff_toInt_lt (x := w) (y := 0)

end Word

theorem Mode.code_eq_one_iff {mode : Mode} : mode.code = 1 ↔ mode = .immediate := by
  cases mode <;> decide

namespace Opcode

/-- What an operation computes from the values of its first two operands, where it stores a result. -/
def compute (opcode : Opcode) (x y : Int) : Int :=
  match opcode with
  | .add => x + y
  | .mul => x * y
  | .less => if x < y then 1 else 0
  | .equal => if x = y then 1 else 0
  | .input | .output | .jumpIfTrue | .jumpIfFalse | .adjustBase | .halt => 0

theorem ofInt_compute {opcode : Opcode} {f : Word → Word → Word} (h : opcode.function? = some f)
    (v w : Word) : Int64.ofInt (opcode.compute v.toInt w.toInt) = f v w := by
  cases opcode with
  | add | mul =>
    cases h
    simp [compute]
  | less =>
    cases h
    by_cases hlt : v < w <;> simp [compute, Word.ofBool, hlt, ← Int64.lt_iff_toInt_lt]
  | equal =>
    cases h
    by_cases heq : v = w <;> simp [compute, Word.ofBool, heq, Int64.toInt_inj]
  | input | output | jumpIfTrue | jumpIfFalse | adjustBase | halt => cases h

end Opcode

namespace Machine

section Operands

variable (m : Machine)

/-- How many words the tape has, none if there is no tape. -/
def capacity : Nat := (m.tape.elim 0 Tape.capacity).toNat

/-- The word at an address, 0 at an address that the tape does not have. -/
def contents (a : Address) : Word := (m.peek? a).getD 0

def operandWord (k : Nat) : Word := m.contents (m.operandAddress k)

/-- The address, as a word, that an operand with this mode digit stands for. -/
def pointer (d k : Nat) : Word :=
  if d = 2 then Int64.ofInt (m.base.toInt + (m.operandWord k).toInt) else m.operandWord k

/-- The value of an operand with this mode digit. -/
def argument (d k : Nat) : Word :=
  if d = 1 then m.operandWord k else m.contents (m.pointer d k).toUInt64

/-- Whether a number is no address of the tape. -/
def misses (x : Int) : Bool := x < 0 || (m.capacity : Int) ≤ x

/-- The addresses that are looked at for an operand with this mode digit: that of its word, and the
one that it stands for. -/
def needs (d k : Nat) : List Int :=
  (m.operandAddress k).toNat :: if d = 1 then [] else [(m.pointer d k).toInt]

variable (opcode : Opcode) (d : Nat → Nat)

/-- The addresses that are looked at for all operands. -/
def needed : List Int := (List.range opcode.operandCount).flatMap fun k => m.needs (d k) k

def jumps : Bool :=
  match opcode with
  | .jumpIfTrue => m.argument (d 0) 0 ≠ 0
  | .jumpIfFalse => m.argument (d 0) 0 = 0
  | _ => false

/-- The first number that the operation faults at, if there is one: an address that it needs and the
tape does not have, or else a negative one to jump to. -/
def trap? : Option Int :=
  ((m.needed opcode d).find? m.misses).or
    (if m.jumps opcode d = true ∧ m.argument (d 1) 1 < 0 then some (m.argument (d 1) 1).toInt else none)

/-- The word that the operation stores, if it stores one. -/
def stored : Word :=
  if opcode = .input then m.input.headD 0
  else Int64.ofInt (opcode.compute (m.argument (d 0) 0).toInt (m.argument (d 1) 1).toInt)

/-- What the operation does where nothing is amiss. -/
def intent : Effect where
  position :=
    if m.jumps opcode d then (m.argument (d 1) 1).toUInt64
    else m.position + 1 + UInt64.ofNat opcode.operandCount
  base :=
    if opcode = .adjustBase then Int64.ofInt (m.base.toInt + (m.argument (d 0) 0).toInt) else m.base
  store := opcode.writeSlot?.map fun k => ((m.pointer (d k) k).toUInt64, m.stored opcode d)
  takesInput := opcode = .input
  output := if opcode = .output then some (m.argument (d 0) 0) else none

end Operands

/-- Whether a step comes to a result, or to a memory fault at a number, if there is one to fault at. -/
inductive ComesTo {α : Type} (a : α) : Option Int → Except FaultCause α → Prop
  | ok : ComesTo a none (.ok a)
  | fault {x cause} (status : cause.status = .memoryFault) (value : cause.value = Int64.ofInt x) :
      ComesTo a (some x) (.error cause)

namespace ComesTo

variable {α β : Type} {a : α} {b : β} {x y : Option Int} {r : Except FaultCause α}

theorem bind {f : α → Except FaultCause β} (h : ComesTo a x r) (h' : ComesTo b y (f a)) :
    ComesTo b (x.or y) (r >>= f) := by
  cases h with
  | ok => simpa using h'
  | fault hstatus hvalue => exact .fault hstatus hvalue

theorem eq_of_ok {c : α} (h : ComesTo a x (.ok c)) : x = none ∧ c = a := by
  cases h
  exact ⟨rfl, rfl⟩

end ComesTo

variable {m : Machine} {opcode : Opcode} {mode : Mode} {d k : Nat}

theorem misses_toNat (m : Machine) (a : Address) : m.misses a.toNat = !m.holds a := by
  have hsign : ¬ (a.toNat : Int) < 0 := by omega
  cases ht : m.tape with
  | none => simp [misses, capacity, holds, ht, hsign]
  | some t =>
    have hcapacity : m.capacity = t.capacity.toNat := by rw [capacity, ht, Option.elim_some]
    have hholds : m.holds a = decide (a < t.capacity) := by rw [holds, ht, Option.any_some, Tape.holds]
    rw [misses, hcapacity, hholds, decide_eq_false hsign, Bool.false_or, ← decide_not, decide_eq_decide,
      UInt64.lt_iff_toNat_lt]
    omega

theorem comesTo_read (m : Machine) (a : Address) :
    ComesTo (m.contents a) ([(a.toNat : Int)].find? m.misses) (m.read a) := by
  rw [read, contents, List.find?_singleton, misses_toNat, ← isSome_peek?]
  cases m.peek? a with
  | some w => exact .ok
  | none => exact .fault rfl (Word.ofInt_toNat a).symm

theorem misses_toInt (m : Machine) {w : Word} (h : 0 ≤ w) : m.misses w.toInt = !m.holds w.toUInt64 := by
  rw [← Word.toNat_toUInt64 h, misses_toNat]

theorem misses_of_neg (m : Machine) {w : Word} (h : w < 0) : m.misses w.toInt = true := by
  simp [misses, (Word.neg_iff_toInt w).1 h]

theorem pointer_code (m : Machine) (mode : Mode) (k : Nat) :
    m.pointer mode.code k =
      if mode = .relative then m.base + m.operandWord k else m.operandWord k := by
  cases mode <;> simp [pointer, Mode.code]

/-- What is done at the address that an operand stands for is done if no negative word names it. -/
theorem comesTo_effective {α : Type} {a : α} {f : Address → Except FaultCause α} (m : Machine)
    (mode : Mode) (k : Nat)
    (h : ComesTo a ([((m.pointer mode.code k).toUInt64.toNat : Int)].find? m.misses)
      (f (m.pointer mode.code k).toUInt64)) :
    ComesTo a ([(m.pointer mode.code k).toInt].find? m.misses)
      (m.effective mode (m.operandWord k) >>= f) := by
  unfold effective
  rw [← pointer_code]
  dsimp only
  by_cases hw : m.pointer mode.code k < 0
  · have haddress : Word.address? (m.pointer mode.code k) = none := by simp [Word.address?, hw]
    rw [List.find?_singleton, m.misses_of_neg hw, haddress]
    exact .fault rfl (Int64.ofInt_toInt _).symm
  · have hsign : 0 ≤ m.pointer mode.code k := by simpa using hw
    rw [Word.address?_eq_some_iff.2 ⟨hsign, rfl⟩, ← Word.toNat_toUInt64 hsign]
    exact h

theorem comesTo_load (m : Machine) (mode : Mode) (k : Nat) :
    ComesTo (m.argument mode.code k) ((m.needs mode.code k).find? m.misses) (m.load mode k) := by
  rw [needs, ← List.singleton_append, List.find?_append]
  refine (m.comesTo_read (m.operandAddress k)).bind ?_
  by_cases hm : mode = .immediate
  · subst hm
    exact .ok
  · have hcode : ¬ mode.code = 1 := Mode.code_eq_one_iff.not.2 hm
    rw [if_neg hm, if_neg hcode, argument, if_neg hcode]
    exact m.comesTo_effective mode k (m.comesTo_read _)

theorem comesTo_holds (m : Machine) (a : Address) :
    ComesTo a ([(a.toNat : Int)].find? m.misses)
      (if m.holds a = true then .ok a else .error (.writeOutside a)) := by
  rw [List.find?_singleton, misses_toNat]
  cases m.holds a
  · exact .fault rfl (Word.ofInt_toNat a).symm
  · exact .ok

theorem comesTo_target (m : Machine) {mode : Mode} (k : Nat) (hm : mode ≠ .immediate) :
    ComesTo (m.pointer mode.code k).toUInt64 ((m.needs mode.code k).find? m.misses)
      (m.target mode k) := by
  have hcode : ¬ mode.code = 1 := Mode.code_eq_one_iff.not.2 hm
  rw [needs, if_neg hcode, ← List.singleton_append, List.find?_append]
  refine (m.comesTo_read (m.operandAddress k)).bind ?_
  exact m.comesTo_effective mode k (m.comesTo_holds _)

variable {opcode : Opcode} {modes : Nat → Mode} {digits : Nat → Nat}

theorem trap?_of_not_jump (hj : opcode.isJump = false) :
    m.trap? opcode digits = (m.needed opcode digits).find? m.misses := by
  have hjumps : m.jumps opcode digits = false := by cases opcode <;> simp_all [jumps, Opcode.isJump]
  simp [trap?, hjumps]

theorem comesTo_combine {f : Word → Word → Word} (hf : opcode.function? = some f)
    (hdigits : ∀ k < opcode.operandCount, (modes k).code = digits k) (hstore : modes 2 ≠ .immediate) :
    ComesTo (m.intent opcode digits) (m.trap? opcode digits) (m.combine opcode modes f) := by
  have hcount : opcode.operandCount = 3 := by cases opcode <;> cases hf <;> rfl
  have hneeded : m.trap? opcode digits = ((m.needs (digits 0) 0).find? m.misses).or
      (((m.needs (digits 1) 1).find? m.misses).or
        (((m.needs (digits 2) 2).find? m.misses).or none)) := by
    rw [trap?_of_not_jump (by cases opcode <;> cases hf <;> rfl), needed, hcount]
    simp [List.range_succ, List.find?_append]
  have hintent : m.intent opcode digits = { m.next opcode with
      store := some ((m.pointer (digits 2) 2).toUInt64,
        f (m.argument (digits 0) 0) (m.argument (digits 1) 1)) } := by
    rw [← Opcode.ofInt_compute hf]
    cases opcode <;> cases hf <;> simp [intent, next, jumps, stored, Opcode.writeSlot?]
  rw [hneeded, hintent, ← hdigits 0 (by omega), ← hdigits 1 (by omega), ← hdigits 2 (by omega)]
  exact (m.comesTo_load (modes 0) 0).bind
    ((m.comesTo_load (modes 1) 1).bind ((m.comesTo_target 2 hstore).bind .ok))

theorem jumps_eq {condition : Word → Bool} (hj : opcode.condition? = some condition) :
    m.jumps opcode digits = condition (m.argument (digits 0) 0) := by
  cases opcode <;> cases hj <;> rfl

theorem comesTo_jump {condition : Word → Bool} (hj : opcode.condition? = some condition)
    (hdigits : ∀ k < opcode.operandCount, (modes k).code = digits k) :
    ComesTo (m.intent opcode digits) (m.trap? opcode digits) (m.jump opcode modes condition) := by
  have hcount : opcode.operandCount = 2 := by cases opcode <;> cases hj <;> rfl
  have hneeded : m.trap? opcode digits = ((m.needs (digits 0) 0).find? m.misses).or
      (((m.needs (digits 1) 1).find? m.misses).or (if condition (m.argument (digits 0) 0) = true ∧
        m.argument (digits 1) 1 < 0 then some (m.argument (digits 1) 1).toInt else none)) := by
    rw [trap?, jumps_eq hj, needed, hcount, ← Option.or_assoc]
    simp [List.range_succ, List.find?_append]
  have hintent : m.intent opcode digits = if condition (m.argument (digits 0) 0) = true then
      { m.next opcode with position := (m.argument (digits 1) 1).toUInt64 } else m.next opcode := by
    rw [intent, jumps_eq hj]
    cases opcode <;> cases hj <;> simp [next, Opcode.writeSlot?] <;> split <;> rfl
  rw [hneeded, hintent, ← hdigits 0 (by omega), ← hdigits 1 (by omega)]
  refine (m.comesTo_load (modes 0) 0).bind ((m.comesTo_load (modes 1) 1).bind ?_)
  generalize m.argument (modes 1).code 1 = w
  cases condition (m.argument (modes 0).code 0) with
  | false => exact .ok
  | true =>
    by_cases hw : w < 0
    · have haddress : Word.address? w = none := by simp [Word.address?, hw]
      simp only [hw, haddress, and_self, if_true]
      exact .fault rfl (Int64.ofInt_toInt w).symm
    · have haddress := Word.address?_eq_some_iff.2 ⟨by simpa using hw, rfl⟩
      simp only [hw, haddress, and_false, if_true, if_false]
      exact .ok

theorem trap?_of_operandCount (hcount : opcode.operandCount = 1) :
    m.trap? opcode digits = ((m.needs (digits 0) 0).find? m.misses).or none := by
  rw [trap?_of_not_jump (by cases opcode <;> simp_all [Opcode.operandCount, Opcode.isJump]), needed,
    hcount]
  simp [List.range_succ]

/-- An operation that neither halts nor waits for input does what its operands say, or faults at the
first number that there is to fault at. -/
theorem exists_comesTo (hhalt : opcode ≠ .halt) (hinput : opcode = .input → m.input ≠ [])
    (hdigits : ∀ k < opcode.operandCount, (modes k).code = digits k)
    (hstore : ∀ k, opcode.writeSlot? = some k → modes k ≠ .immediate) :
    ∃ r, m.effect opcode modes = m.attempt (some opcode) r ∧
      ComesTo (m.intent opcode digits) (m.trap? opcode digits) r := by
  cases opcode with
  | add | mul | less | equal =>
    exact ⟨_, effect_of_function rfl, comesTo_combine rfl hdigits (hstore 2 rfl)⟩
  | jumpIfTrue | jumpIfFalse => exact ⟨_, effect_of_condition rfl, comesTo_jump rfl hdigits⟩
  | halt => exact absurd rfl hhalt
  | input =>
    obtain ⟨w, ws, hqueue⟩ := List.exists_cons_of_ne_nil (hinput rfl)
    have heffect : m.effect .input modes = m.attempt (some .input) (m.target (modes 0) 0 >>= fun t =>
        .ok { m.next .input with store := some (t, w), takesInput := true }) := by
      rw [effect, hqueue]
      rfl
    refine ⟨_, heffect, ?_⟩
    have hintent : m.intent .input digits = { m.next .input with
        store := some ((m.pointer (digits 0) 0).toUInt64, w), takesInput := true } := by
      simp [intent, next, jumps, stored, Opcode.writeSlot?, hqueue]
    rw [hintent, trap?_of_operandCount rfl, ← hdigits 0 (by decide)]
    exact (m.comesTo_target 0 (hstore 0 rfl)).bind .ok
  | output =>
    refine ⟨_, rfl, ?_⟩
    have hintent : m.intent .output digits = { m.next .output with
        output := some (m.argument (digits 0) 0) } := by
      simp [intent, next, jumps, Opcode.writeSlot?]
    rw [hintent, trap?_of_operandCount rfl, ← hdigits 0 (by decide)]
    exact (m.comesTo_load (modes 0) 0).bind .ok
  | adjustBase =>
    refine ⟨_, rfl, ?_⟩
    have hintent : m.intent .adjustBase digits = { m.next .adjustBase with
        base := m.base + m.argument (digits 0) 0 } := by
      simp [intent, next, jumps, Opcode.writeSlot?]
    rw [hintent, trap?_of_operandCount rfl, ← hdigits 0 (by decide)]
    exact (m.comesTo_load (modes 0) 0).bind .ok

end Machine
end TapeMachine
