import TapeMachine.Program.Assembly
import TapeMachine.Proofs.Program.Encoding

/-! Which programs are assembled, what becomes of them, and why the others are refused: for the
first instruction that is not well formed; if there is none, for the first name that was declared
before; if there is none, for the first reference to a name that is not declared. -/

namespace TapeMachine

/-- Whether an assembly records how this program was lowered, laid out and searched for names. -/
structure Assembly.Records (a : Assembly) (p : Program) : Prop where
  lowered : p.lower = .ok a.lowered
  layouts : a.layouts = a.lowered.layouts
  symbols : a.lowered.symbolTable a.layouts = .ok a.symbols

namespace Program

/-- The program with every shorthand replaced by its operation. -/
def expanded (p : Program) : Program := p.map Instruction.expand

def table (q : Program) : SymbolTable := ⟨q.symbolsFrom 0⟩

structure WellFormed (p : Program) : Prop where
  instructions : ∀ i ∈ p, i.WellFormed
  distinct : p.expanded.declaredNames.Nodup
  closed : ∀ r ∈ p.expanded.referred, r.name ∈ p.expanded.declaredNames

def assembly (p : Program) : Assembly :=
  { lowered := p.expanded
    layouts := p.expanded.layouts
    symbols := p.expanded.table
    image := p.expanded.words p.expanded.table }

/-- The errors that a program can be refused with. -/
inductive Refusal (p : Program) : Error → Prop
  | malformed {pre i post e} (split : p = pre ++ i :: post) (valid : ∀ j ∈ pre, j.check = .ok ())
      (fault : i.check = .error e) : Refusal p e
  | duplicate {pre d post first} (valid : ∀ i ∈ p, i.check = .ok ())
      (split : p.expanded.declared = pre ++ d :: post) (distinct : (pre.map (·.name)).Nodup)
      (earlier : first ∈ pre) (same : first.name = d.name) :
      Refusal p { cause := .duplicate d.name first.line, line := d.line }
  | undefined {pre r post} (valid : ∀ i ∈ p, i.check = .ok ())
      (distinct : p.expanded.declaredNames.Nodup) (split : p.expanded.referred = pre ++ r :: post)
      (known : ∀ s ∈ pre, s.name ∈ p.expanded.declaredNames)
      (unknown : r.name ∉ p.expanded.declaredNames) :
      Refusal p { cause := .undefined r.name, line := r.line }

theorem elementary_expanded {p : Program} (h : ∀ i ∈ p, i.WellFormed) :
    ∀ j ∈ p.expanded, j.Elementary := by
  intro j hj
  obtain ⟨i, hi, rfl⟩ := List.mem_map.1 hj
  exact (h i hi).elementary_expand

theorem forall_check_eq_ok_iff {p : Program} :
    (∀ i ∈ p, i.check = .ok ()) ↔ ∀ i ∈ p, i.WellFormed := by
  simp only [Instruction.check_eq_ok_iff]

theorem contains_table (q : Program) (name : String) :
    q.table.contains name = true ↔ name ∈ q.declaredNames := by
  rw [SymbolTable.contains_iff, table, names_symbolsFrom]

theorem isSome_address?_table (q : Program) (name : String) :
    (q.table.address? name).isSome = true ↔ name ∈ q.declaredNames := by
  rw [SymbolTable.address?_isSome_iff, table, names_symbolsFrom]

theorem symbolTable_eq {q : Program} (h : ∀ i ∈ q, i.Elementary) :
    q.symbolTable q.layouts = (q.symbolsFrom 0).foldlM SymbolTable.declare {} := by
  have hlen : ¬ q.layouts.length ≠ q.length := by simp [layouts]
  have hdecl := declarations_zip_layouts h 0
  rw [symbolTable, if_neg hlen, ← hdecl]
  rfl

theorem symbolTable_eq_ok {q : Program} (h : ∀ i ∈ q, i.Elementary)
    (hdistinct : q.declaredNames.Nodup) : q.symbolTable q.layouts = .ok q.table := by
  rw [symbolTable_eq h]
  exact SymbolTable.foldlM_declare_eq_ok (t := {}) (by simpa [names_symbolsFrom] using hdistinct)

theorem symbolTable_eq_error {q : Program} (h : ∀ i ∈ q, i.Elementary) {pre post : List Mention}
    {d first : Mention} (hsplit : q.declared = pre ++ d :: post)
    (hdistinct : (pre.map (·.name)).Nodup) (hfirst : first ∈ pre) (hname : first.name = d.name) :
    q.symbolTable q.layouts =
      .error { cause := .duplicate d.name first.line, line := d.line } := by
  rw [← map_mention_symbolsFrom q 0, List.map_eq_append_iff] at hsplit
  obtain ⟨spre, srest, hsymbols, rfl, hrest⟩ := hsplit
  obtain ⟨s, spost, rfl, rfl, -⟩ := List.map_eq_cons_iff.1 hrest
  obtain ⟨f, hf, rfl⟩ := List.mem_map.1 hfirst
  rw [List.map_map] at hdistinct
  rw [symbolTable_eq h, hsymbols]
  exact SymbolTable.foldlM_declare_eq_error hdistinct hf hname

theorem find?_unknown_eq_none_iff (q : Program) :
    q.referred.find? (fun r => !q.table.contains r.name) = none ↔
      ∀ r ∈ q.referred, r.name ∈ q.declaredNames := by
  simp [List.find?_eq_none, contains_table]

theorem find?_unknown_eq_some {q : Program} {pre post : List Mention} {r : Mention}
    (hsplit : q.referred = pre ++ r :: post) (hknown : ∀ s ∈ pre, s.name ∈ q.declaredNames)
    (hunknown : r.name ∉ q.declaredNames) :
    q.referred.find? (fun r => !q.table.contains r.name) = some r := by
  have hr : (!q.table.contains r.name) = true := by
    rw [← contains_table] at hunknown
    simpa using hunknown
  refine List.find?_eq_some_iff_append.2 ⟨hr, pre, post, hsplit, fun s hs => ?_⟩
  simpa using (contains_table q s.name).2 (hknown s hs)

/-- Once every instruction is well formed only the names matter. -/
theorem assemble_of_valid {p : Program} (h : ∀ i ∈ p, i.WellFormed) :
    p.assemble = (do
      let symbols ← p.expanded.symbolTable p.expanded.layouts
      let resolved ← p.expanded.resolve symbols
      let image ← Image.emit resolved
      if image.length = Layout.total p.expanded.layouts then
        .ok { lowered := p.expanded, layouts := p.expanded.layouts, symbols, image }
      else .error { cause := .sizeMismatch }) := by
  rw [assemble, (check_eq_ok_iff p).2 h, ok_bind, lower_eq_ok h, ok_bind]
  rfl

theorem WellFormed.assemble_eq_ok {p : Program} (h : p.WellFormed) :
    p.assemble = .ok p.assembly := by
  have hel := elementary_expanded h.instructions
  have hresolve : p.expanded.resolve p.expanded.table =
      .ok (p.expanded.map (Instruction.resolved p.expanded.table)) := by
    rw [resolve_eq hel, (find?_unknown_eq_none_iff _).2 h.closed]
  have hlen : (p.expanded.words p.expanded.table).length = Layout.total p.expanded.layouts := by
    rw [length_words, total_layouts hel]
  rw [assemble_of_valid h.instructions, symbolTable_eq_ok hel h.distinct, ok_bind, hresolve, ok_bind,
    emit_map_resolved hel, ok_bind, if_pos hlen]
  rfl

theorem WellFormed.records {p : Program} (h : p.WellFormed) : p.assembly.Records p :=
  ⟨lower_eq_ok h.instructions, rfl,
    symbolTable_eq_ok (elementary_expanded h.instructions) h.distinct⟩

theorem Refusal.assemble_eq_error {p : Program} {e : Error} (h : p.Refusal e) :
    p.assemble = .error e := by
  cases h with
  | @malformed pre i post e hsplit hvalid hfault =>
    have hcheck : p.check = .error e := by
      rw [hsplit]
      exact forM_eq_error hvalid hfault
    rw [assemble, hcheck, error_bind]
  | duplicate hvalid hsplit hdistinct hfirst hname =>
    have hwf := forall_check_eq_ok_iff.1 hvalid
    rw [assemble_of_valid hwf,
      symbolTable_eq_error (elementary_expanded hwf) hsplit hdistinct hfirst hname, error_bind]
  | undefined hvalid hdistinct hsplit hknown hunknown =>
    have hwf := forall_check_eq_ok_iff.1 hvalid
    have hel := elementary_expanded hwf
    rw [assemble_of_valid hwf, symbolTable_eq_ok hel hdistinct, ok_bind, resolve_eq hel,
      find?_unknown_eq_some hsplit hknown hunknown]
    rfl

/-- A program is well formed, or there is an error it is refused with. -/
theorem wellFormed_or_refusal (p : Program) : p.WellFormed ∨ ∃ e, p.Refusal e := by
  by_cases hvalid : ∀ i ∈ p, i.check = .ok ()
  · by_cases hdistinct : p.expanded.declaredNames.Nodup
    · by_cases hclosed : ∀ r ∈ p.expanded.referred, r.name ∈ p.expanded.declaredNames
      · exact .inl ⟨forall_check_eq_ok_iff.1 hvalid, hdistinct, hclosed⟩
      · push Not at hclosed
        obtain ⟨pre, r, post, hsplit, hknown, hunknown⟩ := exists_first hclosed
        refine .inr ⟨_, .undefined hvalid hdistinct hsplit (fun s hs => ?_) hunknown⟩
        exact not_not.1 (hknown s hs)
    · obtain ⟨pre, d, post, first, hsplit, hpre, hfirst, hname⟩ := exists_first_repeated hdistinct
      exact .inr ⟨_, .duplicate hvalid hsplit hpre hfirst hname⟩
  · push Not at hvalid
    obtain ⟨pre, i, post, hsplit, hpre, hi⟩ := exists_first hvalid
    cases hcheck : i.check with
    | ok u => exact absurd hcheck hi
    | error e => exact .inr ⟨e, .malformed hsplit (fun j hj => not_not.1 (hpre j hj)) hcheck⟩

theorem assemble_eq_ok_iff {p : Program} {a : Assembly} :
    p.assemble = .ok a ↔ p.WellFormed ∧ a = p.assembly := by
  constructor
  · intro ha
    rcases wellFormed_or_refusal p with h | ⟨e, he⟩
    · exact ⟨h, by simpa [h.assemble_eq_ok] using ha.symm⟩
    · simp [he.assemble_eq_error] at ha
  · rintro ⟨h, rfl⟩
    exact h.assemble_eq_ok

theorem assemble_eq_error_iff {p : Program} {e : Error} : p.assemble = .error e ↔ p.Refusal e := by
  constructor
  · intro he
    rcases wellFormed_or_refusal p with h | ⟨e', he'⟩
    · simp [h.assemble_eq_ok] at he
    · cases he'.assemble_eq_error.symm.trans he
      exact he'
  · exact Refusal.assemble_eq_error

/-- What comes of a program that may be anything, and that nothing but names is left to refuse once
its instructions pass their checks: lowering refuses only what they refuse. -/
theorem assemble_outcome (p : Program) :
    (∀ e, p.assemble = .error e ↔ p.Refusal e) ∧
    ((∃ a, p.assemble = .ok a) ↔ (∀ i ∈ p, i.check = .ok ()) ∧ p.expanded.declaredNames.Nodup ∧
      ∀ r ∈ p.expanded.referred, r.name ∈ p.expanded.declaredNames) ∧
    (∀ i ∈ p, ∀ e, i.check = .error e → e.kind = .malformedOperand ∧ e.line = i.line) ∧
    (∀ i ∈ p, ∀ e, i.lower = .error e ↔ i.mnemonic.isDerived = true ∧ i.check = .error e) ∧
    ((∀ i ∈ p, i.check = .ok ()) → p.lower = .ok p.expanded ∧ ∀ e, p.assemble = .error e →
      (∃ name line, e.cause = .duplicate name line) ∨ ∃ name, e.cause = .undefined name) := by
  refine ⟨fun e => assemble_eq_error_iff, ?_, fun i _ e => Instruction.check_eq_error,
    fun i _ e => Instruction.lower_eq_error_iff, fun h => ?_⟩
  · constructor
    · rintro ⟨a, ha⟩
      obtain ⟨hwf, -⟩ := assemble_eq_ok_iff.1 ha
      exact ⟨forall_check_eq_ok_iff.2 hwf.instructions, hwf.distinct, hwf.closed⟩
    · rintro ⟨hi, hdistinct, hclosed⟩
      have hwf : p.WellFormed := ⟨forall_check_eq_ok_iff.1 hi, hdistinct, hclosed⟩
      exact ⟨_, hwf.assemble_eq_ok⟩
  · refine ⟨lower_eq_ok (forall_check_eq_ok_iff.1 h), fun e he => ?_⟩
    cases assemble_eq_error_iff.1 he with
    | @malformed pre i post e hsplit _ hfault =>
      have hi : i ∈ p := by simp [hsplit]
      cases (h i hi).symm.trans hfault
    | duplicate => exact .inl ⟨_, _, rfl⟩
    | undefined => exact .inr ⟨_, rfl⟩

end Program
end TapeMachine
