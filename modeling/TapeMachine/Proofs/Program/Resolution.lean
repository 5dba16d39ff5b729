import TapeMachine.Proofs.Machine.Operand
import TapeMachine.Proofs.Machine.Verdict
import TapeMachine.Proofs.Program.Spelling

/-! Programs that resolve, whether or not anything has checked them. What resolution lets through is
emitted, takes the words that it was laid out for, and has opcode words that the machine accepts. -/

namespace TapeMachine

/-- Whether a word reads back as an operation on these cells, with modes that it may have. -/
structure OpFields.ReadFrom (fields : OpFields) (w : Word) (opcode : Opcode) (cells : List Cell) :
    Prop where
  decode : Machine.decode w = .ok (fields, opcode)
  count : cells.length = opcode.operandCount
  digits : ∀ k c, cells[k]? = some c → fields.digit k = c.mode ∧ c.mode ≤ 2
  stores : ∀ k, opcode.writeSlot? = some k → fields.digit k ≠ 1

namespace OpFields.ReadFrom

variable {fields : OpFields} {w : Word} {opcode : Opcode} {cells : List Cell}

theorem checkModes (h : fields.ReadFrom w opcode cells) : Machine.checkModes fields opcode = .ok () := by
  have hdigits : ((List.range opcode.operandCount).find? fun k => 2 < fields.digit k) = none := by
    refine List.find?_eq_none.2 fun k hk => ?_
    have hk : k < cells.length := by rwa [h.count, ← List.mem_range]
    obtain ⟨hmode, hle⟩ := h.digits k _ (List.getElem?_eq_getElem hk)
    simpa [hmode] using hle
  have hstores : (opcode.writeSlot?.any fun k => fields.digit k = 1) = false := by
    cases hslot : opcode.writeSlot? with
    | none => rfl
    | some k => simpa using h.stores k hslot
  rw [Machine.checkModes_eq]
  simp only [hdigits, hstores, Bool.false_eq_true, if_false]

/-- A machine takes such a word for an instruction, whatever comes of it. -/
theorem tick_ne_invalid (h : fields.ReadFrom w opcode cells) {m : Machine}
    (hread : m.peek? m.position = some w) :
    m.tick.1.status ≠ .invalidOpcode ∧ m.tick.1.status ≠ .invalidMode :=
  Machine.tick_ne_invalid hread h.decode h.checkModes

end OpFields.ReadFrom

namespace Instruction

variable {i : Instruction} {opcode : Opcode} {t : SymbolTable} {r : Resolved}

theorem isWritable_of_immediateTarget? (h : i.immediateTarget? opcode = none) {k : Nat} {o : Operand}
    (hslot : opcode.writeSlot? = some k) (ho : i.operands[k]? = some o) : o.isWritable = true := by
  by_contra hwrite
  have hmode := Operand.mode_of_not_isWritable (Bool.eq_false_iff.2 hwrite)
  simp [immediateTarget?, hslot, ho, hmode] at h

theorem elementary_of_resolve (hm : i.mnemonic = .op opcode) (h : i.resolve t = .ok r) :
    i.Elementary ∧ r = i.resolved t := by
  simp only [resolve, hm, resolveOp] at h
  split at h
  · cases h
  · rename_i hcount
    obtain ⟨cells, hcells, h⟩ := exists_of_bind_eq_ok h
    cases htarget : i.immediateTarget? opcode with
    | some o =>
      rw [htarget] at h
      cases h
    | none =>
      rw [htarget] at h
      rw [mapM_resolve] at hcells
      split at hcells
      · cases hcells
      · cases hcells
        cases h
        constructor
        · refine ⟨by rw [hm]; rfl, ?_, by simp [hm], ?_⟩
          · rw [hm]
            exact Decidable.of_not_not hcount
          · intro k o hslot ho
            rw [hm] at hslot
            exact isWritable_of_immediateTarget? htarget hslot ho
        · simp [resolved, hm]

theorem exists_op_of_resolve (hpseudo : i.mnemonic.isPseudo = false) (h : i.resolve t = .ok r) :
    ∃ opcode, i.mnemonic = .op opcode := by
  cases hm : i.mnemonic with
  | op opcode => exact ⟨opcode, rfl⟩
  | label | data => simp [hm, Mnemonic.isPseudo] at hpseudo
  | copy | jump | addInPlace | mulInPlace => simp [resolve, hm, fail] at h

theorem exists_emit (h : i.resolve t = .ok r) : ∃ ws, r.emit = .ok ws ∧ ws.length = i.layout.size := by
  cases hm : i.mnemonic with
  | op opcode =>
    obtain ⟨hel, rfl⟩ := elementary_of_resolve hm h
    exact ⟨i.words t, hel.emit_resolved t, by rw [length_words, hel.layout_size]⟩
  | label =>
    have hr : r = .marker := by simpa [resolve, hm, eq_comm] using h
    subst hr
    exact ⟨[], rfl, by simp [layout, lower, primitiveLayout, hm, Mnemonic.isDerived]⟩
  | data =>
    have hsize : i.layout.size = 1 := by simp [layout, lower, primitiveLayout, hm, Mnemonic.isDerived]
    rcases ho : i.operands with _ | ⟨o, _ | ⟨o', os⟩⟩
    · simp [resolve, hm, ho, fail] at h
    · have hr : r = .data o.value := by simpa [resolve, hm, ho, eq_comm] using h
      subst hr
      exact ⟨[o.value], rfl, hsize.symm⟩
    · simp [resolve, hm, ho, fail] at h
  | copy | jump | addInPlace | mulInPlace => simp [resolve, hm, fail] at h

theorem opcodeWord_of_resolve (hm : i.mnemonic = .op opcode) (h : i.resolve t = .ok r) :
    ∃ cells w ws fields, r = .op opcode.code cells ∧ r.emit = .ok (w :: ws) ∧
      OpFields.ReadFrom fields w opcode cells := by
  obtain ⟨hel, rfl⟩ := elementary_of_resolve hm h
  refine ⟨i.operands.map (·.cell t), (i.fields opcode).toWord, i.operands.map (·.word t),
    i.fields opcode, by simp [resolved, hm], ?_, hel.decode_fields hm, ?_, ?_, ?_⟩
  · rw [hel.emit_resolved t, words, head_eq_of_op hm]
    rfl
  · rw [List.length_map, hel.arity, hm, Mnemonic.arity]
  · intro k c hc
    rw [List.getElem?_map] at hc
    obtain ⟨o, ho, rfl⟩ := Option.map_eq_some_iff.1 hc
    rw [hel.digit_fields hm ho, ← o.code_mode]
    exact ⟨rfl, o.mode.code_le⟩
  · intro k hslot
    exact ((Machine.modes_of_checkModes (hel.checkModes_fields hm)).2 k hslot).2

end Instruction

theorem Image.emit_cons {r : Resolved} {rs : List Resolved} {ws : List Word} {image : Image}
    (hr : r.emit = .ok ws) (hrs : Image.emit rs = .ok image) :
    Image.emit (r :: rs) = .ok (ws ++ image) := by
  obtain ⟨wss, hwss, rfl⟩ := exists_of_map_eq_ok (show List.flatten <$> rs.mapM Resolved.emit = _ from hrs)
  simp [Image.emit, hr, hwss]

namespace Program

variable {q : Program} {t : SymbolTable} {rs : List Resolved}

theorem emit_of_resolve (h : q.resolve t = .ok rs) :
    ∃ image, Image.emit rs = .ok image ∧ image.length = Layout.total q.layouts ∧
      ∀ (n : Nat) (i : Instruction), q[n]? = some i → ∃ r ws rest, rs[n]? = some r ∧
        i.resolve t = .ok r ∧ r.emit = .ok ws ∧
        image.drop (Layout.total (q.layouts.take n)) = ws ++ rest := by
  induction q generalizing rs with
  | nil =>
    cases h
    exact ⟨[], rfl, rfl, by simp⟩
  | cons i q ih =>
    obtain ⟨r, rs, hr, hrs, rfl⟩ := exists_of_mapM_cons_eq_ok h
    obtain ⟨ws, hws, hsize⟩ := Instruction.exists_emit hr
    obtain ⟨image, himage, hlength, hplaces⟩ := ih hrs
    refine ⟨ws ++ image, Image.emit_cons hws himage, ?_, ?_⟩
    · rw [List.length_append, hsize, hlength]
      rfl
    · intro n j hj
      cases n with
      | zero =>
        cases hj
        exact ⟨r, ws, image, rfl, hr, hws, rfl⟩
      | succ n =>
        -- dropping what the first instruction was laid out for leaves the image of the others
        obtain ⟨r', ws', rest, hr', hj', hws', hdrop⟩ := hplaces n j hj
        refine ⟨r', ws', rest, hr', hj', hws', ?_⟩
        have htotal : Layout.total ((layouts (i :: q)).take (n + 1)) =
            ws.length + Layout.total ((layouts q).take n) := by
          rw [hsize]
          rfl
        rw [htotal, List.drop_append, List.drop_eq_nil_of_le (by omega), Nat.add_sub_cancel_left,
          List.nil_append, hdrop]

/-- A program that resolves is emitted at the size of its layouts, and each of its operations starts
with a word that reads back as what it resolved to, and that no machine finds invalid. -/
theorem emitted_of_resolve (h : q.resolve t = .ok rs) :
    ∃ image, Image.emit rs = .ok image ∧ image.length = Layout.total q.layouts ∧
      ∀ (n : Nat) (i : Instruction), q[n]? = some i → i.mnemonic.isPseudo = false →
        ∃ opcode cells w fields, i.mnemonic = .op opcode ∧ rs[n]? = some (.op opcode.code cells) ∧
          image[Layout.total (q.layouts.take n)]? = some w ∧
          OpFields.ReadFrom fields w opcode cells ∧
          ∀ m : Machine, m.peek? m.position = some w →
            m.tick.1.status ≠ .invalidOpcode ∧ m.tick.1.status ≠ .invalidMode := by
  obtain ⟨image, himage, hlength, hplaces⟩ := emit_of_resolve h
  refine ⟨image, himage, hlength, ?_⟩
  intro n i hi hpseudo
  obtain ⟨r, ws, rest, hr, hresolve, hws, hdrop⟩ := hplaces n i hi
  obtain ⟨opcode, hm⟩ := Instruction.exists_op_of_resolve hpseudo hresolve
  obtain ⟨cells, w, operands, fields, rfl, hemit, hread⟩ :=
    Instruction.opcodeWord_of_resolve hm hresolve
  cases hemit.symm.trans hws
  have hword : image[Layout.total (q.layouts.take n)]? = some w := by
    rw [← Nat.add_zero (Layout.total _), ← List.getElem?_drop, hdrop]
    rfl
  exact ⟨opcode, cells, w, fields, hm, hr, hword, hread, fun m hpeek => hread.tick_ne_invalid hpeek⟩

/-- A label with an operand, data that is a reference, and a sum that refers in front of the tape. -/
def unchecked : Program :=
  [{ mnemonic := .label, operands := [.pos "nowhere"] }, { mnemonic := .data, operands := [.rel "a"] },
    { mnemonic := .op .add, operands := [.pos "a", .ref "b", .rel "a"] }]

/-- The sum lies behind the one word of the data. -/
theorem emitted_unchecked :
    unchecked.resolve ⟨[⟨"a", -3, 0⟩, ⟨"b", 9, 0⟩]⟩ =
        .ok [.marker, .data 0, .op 1 [⟨0, -3⟩, ⟨1, 9⟩, ⟨2, -3⟩]] ∧
      Layout.total unchecked.layouts = 5 ∧
      ∀ m : Machine, m.peek? m.position = some 21001 →
        m.tick.1.status ≠ .invalidOpcode ∧ m.tick.1.status ≠ .invalidMode := by
  have hresolve : unchecked.resolve ⟨[⟨"a", -3, 0⟩, ⟨"b", 9, 0⟩]⟩ =
      .ok [.marker, .data 0, .op 1 [⟨0, -3⟩, ⟨1, 9⟩, ⟨2, -3⟩]] := by rfl
  obtain ⟨image, himage, hlength, hoperations⟩ := emitted_of_resolve hresolve
  have hemit : Image.emit [.marker, .data 0, .op 1 [⟨0, -3⟩, ⟨1, 9⟩, ⟨2, -3⟩]] =
      .ok [0, 21001, -3, 9, -3] := by rfl
  cases hemit.symm.trans himage
  refine ⟨hresolve, hlength.symm, ?_⟩
  obtain ⟨opcode, cells, w, fields, -, -, hword, -, htick⟩ := hoperations 2 _ rfl rfl
  cases hword
  exact htick

end Program
end TapeMachine
