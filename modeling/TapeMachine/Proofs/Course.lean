import TapeMachine.Proofs.Advance

/-! The course of a static program. Its code stays as it was emitted, the position stays at the start
of an operation, and the machine stops for good reasons only: it halts, it waits for input, or an
operand leads it off the tape through a word or a base that the program computed. -/

namespace TapeMachine
namespace Assembly

structure OnCourse (a : Assembly) (m : Machine) : Prop where
  loaded : m.loadError = none
  room : ∀ x, x ≤ a.image.length → m.holds (UInt64.ofNat x) = true
  position : ∃ n i opcode, a.Faces m n i opcode
  intact : ∀ n i opcode, a.lowered[n]? = some i → i.mnemonic = .op opcode → a.Intact n m

theorem OnCourse.poised {a : Assembly} {m : Machine} {n : Nat} {i : Instruction} {opcode : Opcode}
    (h : a.OnCourse m) (hf : a.Faces m n i opcode) : a.Poised m n :=
  ⟨h.loaded, ⟨i, opcode, hf⟩, h.intact⟩

/-- The stops that a machine on course may come to. -/
inductive Excused (a : Assembly) (m : Machine) : Stop → Prop
  | halted {n i} (faces : a.Faces m n i .halt) : Excused a m (.halted (m.wordAt 0))
  | inputRequired {n i} (faces : a.Faces m n i .input) (queue : m.input = []) :
      Excused a m .inputRequired
  | fault {n i opcode k o f} (faces : a.Faces m n i opcode) (operand : i.operands[k]? = some o)
      (source : opcode.writeSlot? ≠ some k) (kind : o.kind = .relative ∨ o.kind = .positionAnchor)
      (failed : m.load o.mode k = .error f.cause) (status : f.cause.status = .memoryFault) :
      Excused a m (.fault f)

end Assembly

namespace Program

/-- A program that is assembled, to an image that fits into memory, and whose lowering is tame. An
address of more than 63 bits would be no word. -/
structure Sealed (p : Program) : Prop where
  wellFormed : p.WellFormed
  tame : p.expanded.Tame
  size : p.assembly.image.length < 2 ^ 63

variable {p : Program} {m : Machine} {n : Nat} {i : Instruction} {opcode : Opcode} {o : Operand}

theorem Sealed.elementary (h : p.Sealed) (hf : p.assembly.Faces m n i opcode) : i.Elementary :=
  elementary_of_faces h.wellFormed hf

theorem Sealed.stands (h : p.Sealed) (hm : p.assembly.OnCourse m) (hf : p.assembly.Faces m n i opcode) :
    i.Stands opcode p.expanded.table m :=
  stands_of_poised h.wellFormed (hm.poised hf) hf

theorem Sealed.onTape_word (h : p.Sealed) (hm : p.assembly.OnCourse m) {name : String}
    (hname : name ∈ p.expanded.declaredNames) : m.OnTape (p.expanded.table.word name) := by
  have hsize := h.size
  have hsome : (p.expanded.table.address? name).isSome = true := by
    rwa [SymbolTable.address?_isSome_iff, table, names_symbolsFrom]
  obtain ⟨y, hy⟩ := Option.isSome_iff_exists.1 hsome
  obtain ⟨hpos, hle, -⟩ := h.wellFormed.address_bounds hy
  obtain ⟨x, rfl⟩ := Int.eq_ofNat_of_zero_le hpos
  have hx : x < 2 ^ 63 := by omega
  obtain ⟨hsign, haddr⟩ := Word.address?_eq_some_iff.1 (Word.address?_ofInt_natCast hx)
  rw [SymbolTable.word, hy, Option.getD_some]
  exact ⟨hsign, haddr ▸ hm.room x (by omega)⟩

/-- Only a relative operand or a position anchor can lead off the tape. -/
theorem Sealed.onTape_operand (h : p.Sealed) (hm : p.assembly.OnCourse m)
    (hf : p.assembly.Faces m n i opcode) (ho : o ∈ i.operands) (hr : o.kind ≠ .relative)
    (ha : o.kind ≠ .positionAnchor) : o.OnTape p.expanded.table m := by
  have hi : i ∈ p.expanded := List.mem_of_getElem? hf.instruction
  cases hk : o.kind with
  | immediate | labelRef => simp [Operand.OnTape, hk]
  | relative => exact absurd hk hr
  | positionAnchor => exact absurd hk ha
  | position =>
    have hname : o.name ∈ p.expanded.declaredNames :=
      h.wellFormed.closed ⟨o.name, i.line⟩ (mem_referred hi ho (by simp [Operand.isReference, hk]))
    simpa [Operand.OnTape, hk] using h.onTape_word hm hname
  | immediateAnchor =>
    have hname := mem_declaredNames hi (by simp [hf.operation]) ho (by simp [Operand.isAnchor, hk])
    simpa [Operand.OnTape, hk] using h.onTape_word hm hname

/-- The destination of a store, which is the address of a word that some operand declares. -/
theorem Sealed.target_eq (h : p.Sealed) (hm : p.assembly.OnCourse m)
    (hf : p.assembly.Faces m n i opcode) {k : Nat} (hslot : opcode.writeSlot? = some k) :
    ∃ name, p.expanded.DeclaresWord name ∧
      m.target ((i.fields opcode).mode k) k = .ok (p.expanded.table.word name).toUInt64 := by
  have hel := h.elementary hf
  have hk : k < i.operands.length := by
    rw [hel.arity, hf.operation]
    exact Opcode.writeSlot_lt hslot
  have ho := List.getElem?_eq_getElem hk
  have hi : i ∈ p.expanded := List.mem_of_getElem? hf.instruction
  obtain ⟨hkind, hname⟩ := h.tame.stores i hi opcode k _ hf.operation hslot ho
  have hon := h.onTape_operand hm hf (List.getElem_mem hk) (by simp [hkind]) (by simp [hkind])
  refine ⟨_, hname, ?_⟩
  rw [(h.stands hm hf).target_eq hel hf.operation ho (by simp [Operand.isWritable, hkind]) hon]
  simp [Operand.targetIn, hkind]

theorem Sealed.destination_eq (h : p.Sealed) (hm : p.assembly.OnCourse m)
    (hf : p.assembly.Faces m n i opcode) (hjump : opcode.isJump = true) :
    ∃ d n' j opcode', m.load ((i.fields opcode).mode 1) 1 = .ok d ∧
      p.expanded[n']? = some j ∧ j.mnemonic = .op opcode' ∧
      Word.address? d = some (UInt64.ofNat (p.assembly.start n')) := by
  have hel := h.elementary hf
  have hels := elementary_expanded h.wellFormed.instructions
  have hi : i ∈ p.expanded := List.mem_of_getElem? hf.instruction
  have hk : 1 < i.operands.length := by
    rw [hel.arity, hf.operation]
    cases opcode <;> cases hjump <;> decide
  have ho := List.getElem?_eq_getElem hk
  obtain ⟨hkind, n', l, hl, hlabel, hname, hnext⟩ :=
    h.tame.jumps i hi opcode _ hf.operation hjump ho
  obtain ⟨n'', j, opcode', hj, hop, hstart⟩ := hnext.exists_op hels
  have hplace : p.assembly.start n'' = p.expanded.start n' := by
    rw [Assembly.start_assembly h.wellFormed, hstart, start_succ hl,
      Instruction.size_of_label (hels l (List.mem_of_getElem? hl)) hlabel, Nat.add_zero]
  have hfit : p.expanded.start n' + l.size ≤ p.assembly.image.length :=
    start_add_size_le hl p.expanded.table
  have hsize := h.size
  have hon := h.onTape_operand hm hf (List.getElem_mem hk) (by simp [hkind]) (by simp [hkind])
  have haddr := address?_of_label h.wellFormed.distinct hl hlabel
  refine ⟨_, n'', j, opcode', (h.stands hm hf).load_eq hel hf.operation ho hon, hj, hop, ?_⟩
  simp only [Operand.valueIn, hkind]
  rw [← hname, SymbolTable.word, haddr, hplace]
  exact Word.address?_ofInt_natCast (by omega)

theorem Sealed.excused (h : p.Sealed) (hm : p.assembly.OnCourse m) {s : Stop} (hs : m.plan = .error s) :
    p.assembly.Excused m s := by
  obtain ⟨n, i, opcode, hf⟩ := hm.position
  have hst := h.stands hm hf
  have hel := h.elementary hf
  rw [hst.plan_eq hel hf.operation] at hs
  cases Machine.fails_of_effect hs with
  | halt => exact .halted hf
  | noInput hq => exact .inputRequired hf hq
  | @load _ k cause hk hsource hfailed =>
    have hk : k < i.operands.length := by rwa [hel.arity, hf.operation]
    have ho := List.getElem?_eq_getElem hk
    have hkind : i.operands[k].kind = .relative ∨ i.operands[k].kind = .positionAnchor := by
      by_contra hne
      push Not at hne
      have hon := h.onTape_operand hm hf (List.getElem_mem hk) hne.1 hne.2
      rw [hst.load_eq hel hf.operation ho hon] at hfailed
      cases hfailed
    rw [hel.mode_fields hf.operation ho] at hfailed
    exact .fault hf ho hsource hkind hfailed (Machine.status_of_load hfailed)
  | target hslot hfailed =>
    obtain ⟨name, -, htarget⟩ := h.target_eq hm hf hslot
    cases htarget.symm.trans hfailed
  | destination hjump _ _ hd hneg =>
    obtain ⟨d, n', j, opcode', hload, -, -, haddr⟩ :=
      h.destination_eq hm hf (Opcode.isJump_of_condition hjump)
    cases hload.symm.trans hd
    cases haddr.symm.trans hneg

theorem Sealed.onCourse_tick (h : p.Sealed) (hm : p.assembly.OnCourse m) :
    p.assembly.OnCourse m.tick.2 := by
  have hsize := h.size
  obtain ⟨n, i, opcode, hf⟩ := hm.position
  cases hplan : m.plan with
  | error s => rwa [Machine.tick_of_plan_error hplan]
  | ok e =>
    rw [Machine.tick_of_plan_ok hplan]
    obtain ⟨n', -, hnext⟩ := h.tame.exists_follows h.wellFormed (by omega) (hm.poised hf) hplan
    refine ⟨hnext.loaded, fun x hx => ?_, ⟨n', hnext.faces⟩, hnext.intact⟩
    rw [Machine.holds_apply, hm.room x hx]

theorem Sealed.onCourse_start (h : p.Sealed) {t : Tape}
    (hfit : p.assembly.image.length < t.capacity.toNat) :
    p.assembly.OnCourse (Machine.start p.assembly.image (some t)) := by
  obtain ⟨-, hholds, -⟩ := Machine.start_of_fits hfit.le
  have hstart := h.wellFormed.poised_start h.tame.entry hfit.le
  refine ⟨hstart.loaded, fun x hx => ?_, ⟨_, hstart.faces⟩, hstart.intact⟩
  have hcap := t.capacity.toNat_lt
  have hx' : x < UInt64.size := by
    rw [UInt64.size]
    omega
  rw [hholds, Tape.holds_iff, UInt64.lt_iff_toNat_lt, UInt64.toNat_ofNat_of_lt' hx']
  omega

/-- What a machine does to which nothing happens but ticks, runs and input is on course. -/
theorem Sealed.onCourse_of_reachable (h : p.Sealed) {t : Tape}
    (hfit : p.assembly.image.length < t.capacity.toNat)
    (hr : (Machine.start p.assembly.image (some t)).Reachable m) : p.assembly.OnCourse m :=
  hr.induction (h.onCourse_start hfit) (fun _ hm => h.onCourse_tick hm)
    fun _ ws hm => by
      obtain ⟨n, i, opcode, hf⟩ := hm.position
      have hpushed := (hm.poised hf).pushAll ws
      exact ⟨hm.loaded, hm.room, ⟨n, hpushed.faces⟩, hpushed.intact⟩

end Program

/-- A machine that executes a static program stays on course, and stops for a good reason only. An
image is held in memory, so it never has `2 ^ 63` words. -/
theorem onCourse_of_static {p : Program} {a : Assembly} {t : Tape} {m : Machine}
    (h : p.assemble = .ok a) (hstatic : p.Static) (hsize : a.image.length < 2 ^ 63)
    (hfit : a.image.length < t.capacity.toNat) (hr : (Machine.start a.image (some t)).Reachable m) :
    a.Records p ∧ a.OnCourse m ∧ (∀ s m', m.tick = (.stopped s, m') → a.Excused m s) ∧
      ∀ n r, m.run n = some r → a.Excused r.machine r.stop := by
  obtain ⟨hwf, rfl⟩ := Program.assemble_eq_ok_iff.1 h
  have hsealed : p.Sealed := ⟨hwf, hstatic.tame hwf.instructions, hsize⟩
  have hm := hsealed.onCourse_of_reachable hfit hr
  refine ⟨hwf.records, hm, fun s m' hs => ?_, fun n r hrun => ?_⟩
  · exact hsealed.excused hm (Machine.tick_of_stopped hs).1
  · obtain ⟨hend, hstop⟩ := Machine.runFrom_preserves (fun _ hm => hsealed.onCourse_tick hm) hm hrun
    exact hsealed.excused hend (Machine.tick_of_stopped hstop).1

theorem static_countdown : countdown.Static := by decide

def counted : Machine :=
  (Machine.start countdown.assembly.image (some (.blank .growable 64))).tick.2.tick.2

theorem onCourse_countdown :
    counted.peek? 3 = some 2 ∧ countdown.assembly.Records countdown ∧
      countdown.assembly.OnCourse counted := by
  have hr : (Machine.start countdown.assembly.image (some (.blank .growable 64))).Reachable counted :=
    .tick (.tick .start)
  obtain ⟨hrecords, hcourse, -⟩ :=
    onCourse_of_static assemble_countdown static_countdown (by decide) (by decide) hr
  exact ⟨by decide +kernel, hrecords, hcourse⟩

end TapeMachine
