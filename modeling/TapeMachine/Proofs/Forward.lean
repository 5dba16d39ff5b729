import TapeMachine.Proofs.Advance
import TapeMachine.Proofs.Machine.Potential

/-! Static programs that jump ahead only. The position moves on from operation to operation and never
back, so every operation is executed once at most, and a machine stops within as many ticks as there
are operations. -/

namespace TapeMachine
namespace Program

/-- A static program in which every jump leads to a label further down. -/
structure Forward (p : Program) : Prop extends p.Static where
  ahead : ∀ (n : Nat) (i : Instruction) (k : Nat) (o : Operand), p[n]? = some i →
    i.mnemonic.jumpSlot? = some k → i.operands[k]? = some o →
      ∃ (l : Nat) (j : Instruction), p[l]? = some j ∧ n < l ∧ j.mnemonic = .label ∧ j.label = o.name

instance (p : Program) : Decidable p.Forward :=
  have hlabel (n : Nat) (o : Operand) := exists_getElem?_iff (p := p) (P := fun l j =>
    n < l ∧ j.mnemonic = .label ∧ j.label = o.name)
  have hahead := forall_getElem?_iff (p := p) (P := fun n i => ∀ k ∈ i.mnemonic.jumpSlot?,
    ∀ o ∈ i.operands[k]?, ∃ y ∈ p.zipIdx, n < y.2 ∧ y.1.mnemonic = .label ∧ y.1.label = o.name)
  decidable_of_iff
    (p.Static ∧ ∀ x ∈ p.zipIdx, ∀ k ∈ x.1.mnemonic.jumpSlot?, ∀ o ∈ x.1.operands[k]?,
      ∃ y ∈ p.zipIdx, x.2 < y.2 ∧ y.1.mnemonic = .label ∧ y.1.label = o.name)
    ⟨fun h => ⟨h.1, fun n i k o hi hk ho => (hlabel n o).2 (hahead.2 h.2 n i hi k hk o ho)⟩,
    fun h => ⟨h.toStatic, hahead.1 fun n i hi k hk o ho => (hlabel n o).1 (h.ahead n i k o hi hk ho)⟩⟩

def operations (p : Program) : Nat := p.countP fun i => !i.mnemonic.isPseudo

def operationsFrom (p : Program) (n : Nat) : Nat := operations (p.drop n)

variable {p q : Program} {n n' : Nat} {i : Instruction} {opcode : Opcode} {o : Operand}

theorem operations_expanded (p : Program) : p.expanded.operations = p.operations := by
  rw [operations, expanded, List.countP_map]
  exact List.countP_congr fun i _ => by rw [Function.comp_apply, Instruction.isPseudo_expand]

theorem operationsFrom_le (q : Program) (n : Nat) : q.operationsFrom n ≤ q.operations :=
  (List.drop_sublist n q).countP_le

theorem operationsFrom_lt (hi : q[n]? = some i) (hm : i.mnemonic = .op opcode) (hn : n < n') :
    q.operationsFrom n' < q.operationsFrom n := by
  obtain ⟨hlt, rfl⟩ := List.getElem?_eq_some_iff.1 hi
  have hhead : q.operationsFrom n = q.operationsFrom (n + 1) + 1 := by
    rw [operationsFrom, operations, List.drop_eq_getElem_cons hlt, List.countP_cons, hm]
    rfl
  have hrest : q.operationsFrom n' ≤ q.operationsFrom (n + 1) :=
    (List.drop_sublist_drop_left q hn).countP_le
  omega

theorem le_nextIndex (q : Program) (n : Nat) : n ≤ q.nextIndex n := Nat.le_add_right _ _

/-- Lowering leaves the labels where they are. -/
theorem Forward.ahead_expanded (h : p.Forward) (hwf : p.WellFormed) (hi : p.expanded[n]? = some i)
    (hm : i.mnemonic = .op opcode) (hjump : opcode.isJump = true) (ho : i.operands[1]? = some o) :
    ∃ l j, p.expanded[l]? = some j ∧ n < l ∧ j.mnemonic = .label ∧ j.label = o.name := by
  obtain ⟨written, hwritten, rfl⟩ := exists_of_getElem?_expanded hi
  have hwfi := hwf.instructions written (List.mem_of_getElem? hwritten)
  obtain ⟨k, hk, ho⟩ := hwfi.exists_jumpSlot hm hjump ho
  obtain ⟨l, j, hj, hlt, hlabel, hname⟩ := h.ahead n written k o hwritten hk ho
  have hexpand : j.expand = j :=
    Instruction.expand_of_not_derived (by simp [hlabel, Mnemonic.isDerived])
  exact ⟨l, j, hexpand ▸ getElem?_expanded hj, hlt, hlabel, hname⟩

theorem Forward.lt_of_follows (h : p.Forward) (hwf : p.WellFormed) (hf : p.expanded.Follows n n') :
    n < n' := by
  cases hf with
  | next => exact p.expanded.le_nextIndex (n + 1)
  | @jump i opcode o l j hi hm hjump ho hl hlabel hname =>
    obtain ⟨l', j', hl', hlt, hlabel', hname'⟩ := h.ahead_expanded hwf hi hm hjump ho
    -- the label that is jumped to and the one further down have one name, and so one address
    have hl := address?_of_label hwf.distinct hl hlabel
    have hl' := address?_of_label hwf.distinct hl' hlabel'
    rw [hname] at hl
    rw [hname', hl] at hl'
    have hstart : p.expanded.start l = p.expanded.start l' := by exact_mod_cast Option.some.inj hl'
    have hafter := start_add_le hi hlt
    have hsize := Instruction.size_pos_of_op hm
    have hindex : n < l := by
      by_contra hle
      have hbefore := start_le_of_le (q := p.expanded) (Nat.le_of_not_lt hle)
      omega
    exact Nat.lt_of_lt_of_le (Nat.lt_succ_of_lt hindex) (p.expanded.le_nextIndex (l + 1))

/-- Whether a machine is at an operation with at most so many to come after it. -/
def ToCome (p : Program) (m : Machine) (k : Nat) : Prop :=
  ∃ n, p.assembly.Poised m n ∧ p.expanded.operationsFrom n ≤ k + 1

theorem Forward.runsDown (h : p.Forward) (hwf : p.WellFormed)
    (hsize : p.assembly.image.length < 2 ^ 64) : Machine.RunsDown p.ToCome where
  tick := by
    rintro m k ⟨n, hm, hk⟩ hadvances
    obtain ⟨e, he⟩ := Machine.exists_effect_of_advances hadvances
    obtain ⟨n', hfollows, hm'⟩ := (h.tame hwf.instructions).exists_follows hwf hsize hm he
    have hlt : p.expanded.operationsFrom n' < p.expanded.operationsFrom n := by
      obtain ⟨i, opcode, hf⟩ := hm.faces
      exact operationsFrom_lt hf.instruction hf.operation (h.lt_of_follows hwf hfollows)
    have hpos : 0 < p.expanded.operationsFrom n' := by
      obtain ⟨j, opcode', hf'⟩ := hm'.faces
      exact Nat.zero_lt_of_lt (operationsFrom_lt hf'.instruction hf'.operation (Nat.lt_succ_self n'))
    rw [Machine.tick_of_plan_ok he]
    exact ⟨k - 1, by omega, n', hm', by omega⟩
  pushAll := by
    rintro m k ⟨n, hm, hk⟩ ws
    exact ⟨n, hm.pushAll ws, hk⟩

theorem Forward.toCome_start (h : p.Forward) (hwf : p.WellFormed) {t : Tape}
    (hfit : p.assembly.image.length ≤ t.capacity.toNat) :
    ∃ k, k < p.operations ∧ p.ToCome (Machine.start p.assembly.image (some t)) k := by
  have hm := hwf.poised_start h.entry.expanded hfit
  obtain ⟨i, opcode, hf⟩ := hm.faces
  have hpos := operationsFrom_lt (q := p.expanded) hf.instruction hf.operation (Nat.lt_succ_self _)
  have hle := operationsFrom_le p.expanded (p.expanded.nextIndex 0)
  rw [operations_expanded] at hle
  exact ⟨p.operations - 1, by omega, _, hm, by omega⟩

end Program

/-- A program that jumps ahead only stops within as many ticks as it has operations. However it is
driven before it is reset, it answers every request and carries out fewer instructions than that. -/
theorem stops_of_forward {p : Program} {a : Assembly} {t : Tape} (h : p.assemble = .ok a)
    (hforward : p.Forward) (hfit : a.image.length < t.capacity.toNat) :
    (∀ ws, ∃ r, ((Machine.start a.image (some t)).pushAll ws).run p.operations = some r) ∧
      (∀ requests, (∀ q ∈ requests, q.intervenes = false) → ∃ log ms m,
        log.map (·.1) = requests ∧ (Machine.start a.image (some t)).Ticked log ms m) ∧
      ∀ log ms m, (Machine.start a.image (some t)).Ticked log ms m →
        (∀ entry ∈ log, entry.1.intervenes = false) →
        ms.countP Machine.advances < p.operations ∧ ∃ r, m.run p.operations = some r := by
  obtain ⟨hwf, rfl⟩ := Program.assemble_eq_ok_iff.1 h
  have hcapacity := t.capacity.toNat_lt
  have hruns := hforward.runsDown hwf (by omega)
  obtain ⟨k, hk, hm⟩ := hforward.toCome_start hwf (Nat.le_of_lt hfit)
  refine ⟨fun ws => hruns.exists_run (hruns.pushAll hm ws) hk, hruns.exists_ticked hm, ?_⟩
  intro log ms m hms hlog
  obtain ⟨k', hm', hle⟩ := hruns.countP_ticked hm hms hlog
  exact ⟨by omega, hruns.exists_run hm' (by omega)⟩

/-- Adds forty to its input, which is not to be zero, and puts out the sum or zero. -/
def fortyMore : Program :=
  [{ mnemonic := .op .input, operands := [.pos "x"] },
    { mnemonic := .op .jumpIfFalse, operands := [.pos "x", .ref "none"] },
    { mnemonic := .addInPlace, operands := [.immAnchor "n" 40, .pos "x"] },
    { mnemonic := .op .output, operands := [.pos "n"] },
    { mnemonic := .jump, operands := [.ref "end"] },
    .ofLabel "none",
    { mnemonic := .op .output, operands := [.imm 0] },
    .ofLabel "end",
    { mnemonic := .op .halt },
    .ofData "x" 0]

theorem forward_fortyMore : fortyMore.Forward := by decide

theorem stops_fortyMore :
    fortyMore.operations = 7 ∧ fortyMore.assembly.image.length = 18 ∧
      ∃ r, ((Machine.start fortyMore.assembly.image (some (.blank .sparse 19))).pushAll [2]).run 7 =
        some r := by
  have hassemble : fortyMore.assemble = .ok fortyMore.assembly := by rfl
  have hstops := stops_of_forward (t := .blank .sparse 19) hassemble forward_fortyMore (by decide)
  exact ⟨rfl, rfl, hstops.1 [2]⟩

end TapeMachine
