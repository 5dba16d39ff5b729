import Mathlib.Data.List.Forall2
import Mathlib.Data.List.Nodup
import TapeMachine.Proofs.Program.Acceptance

/-! Names are told apart and otherwise not looked at, and lines are not looked at at all. Under other
names and on other lines a program is assembled to the same image, with the new names in its layouts
and its symbol table, or is refused for the same kind of reason at the line of the same instruction. -/

namespace TapeMachine

section Related

variable {α β γ : Type} {R : α → β → Prop} {l : List α} {l' : List β}

theorem map_eq_of_forall₂ {f : α → γ} {g : β → γ} (h : List.Forall₂ R l l')
    (hfg : ∀ a b, R a b → g b = f a) : l'.map g = l.map f := by
  induction h with
  | nil => rfl
  | cons hab _ ih => rw [List.map_cons, List.map_cons, hfg _ _ hab, ih]

theorem forall_mem_iff_of_forall₂ {P : α → Prop} {Q : β → Prop} (h : List.Forall₂ R l l')
    (hPQ : ∀ a b, R a b → (Q b ↔ P a)) : (∀ b ∈ l', Q b) ↔ ∀ a ∈ l, P a := by
  induction h with
  | nil => simp
  | cons hab _ ih => rw [List.forall_mem_cons, List.forall_mem_cons, hPQ _ _ hab, ih]

theorem exists_split_of_forall₂ {pre post : List α} {a : α} (h : List.Forall₂ R (pre ++ a :: post) l') :
    ∃ pre' b post', l' = pre' ++ b :: post' ∧ List.Forall₂ R pre pre' ∧ R a b := by
  induction pre generalizing l' with
  | nil =>
    obtain ⟨b, post', hab, -, rfl⟩ := List.forall₂_cons_left_iff.1 h
    exact ⟨[], b, post', rfl, .nil, hab⟩
  | cons x pre ih =>
    obtain ⟨y, rest, hxy, hrest, rfl⟩ := List.forall₂_cons_left_iff.1 h
    obtain ⟨pre', b, post', rfl, hpre, hab⟩ := ih hrest
    exact ⟨y :: pre', b, post', rfl, .cons hxy hpre, hab⟩

theorem forall_getElem?_iff_of_forall₂ {P : α → Prop} {Q : β → Prop} (h : List.Forall₂ R l l')
    (hPQ : ∀ a b, R a b → (Q b ↔ P a)) (k : Nat) :
    (∀ b, l'[k]? = some b → Q b) ↔ ∀ a, l[k]? = some a → P a := by
  induction h generalizing k with
  | nil => simp
  | cons hab _ ih =>
    cases k with
    | zero => simpa using hPQ _ _ hab
    | succ k => simpa using ih k

end Related

structure Relabelling where
  name : String → String
  line : UInt32 → UInt32

def Mention.relabelled (ρ : Relabelling) (m : Mention) : Mention := ⟨ρ.name m.name, ρ.line m.line⟩

def Symbol.relabelled (ρ : Relabelling) (s : Symbol) : Symbol :=
  ⟨ρ.name s.name, s.address, ρ.line s.line⟩

def Layout.renamed (r : String → String) (l : Layout) : Layout :=
  { l with anchors := l.anchors.map (Option.map r) }

theorem Layout.renamed_first (r : String → String) (size : Nat) (adjust : Int) (a : Option String) :
    Layout.renamed r { size, adjust, anchors := #v[a, none, none] } =
      { size, adjust, anchors := #v[a.map r, none, none] } := by
  have hanchors : Vector.map (Option.map r) (#v[a, none, none] : Vector (Option String) maxOperands) =
      #v[a.map r, none, none] :=
    Vector.toArray_inj.1 (by simp)
  exact congrArg (Layout.mk size adjust) hanchors

theorem SymbolTable.address?_map_relabelled {ρ : Relabelling} (hr : Function.Injective ρ.name)
    (t : SymbolTable) (name : String) :
    (t.map (Symbol.relabelled ρ)).address? (ρ.name name) = t.address? name := by
  simp only [address?, find?, map, List.find?_map, Function.comp_def, Symbol.relabelled, hr.eq_iff,
    Option.map_map]

namespace Operand

/-- Whether an operand is another one under its new name. An immediate has no name, whatever it
carries. -/
structure Renames (r : String → String) (o o' : Operand) : Prop where
  kind : o'.kind = o.kind
  value : o'.value = o.value
  name : o.kind ≠ .immediate → o'.name = r o.name

variable {r : String → String} {o o' : Operand}

theorem renames_imm (r : String → String) (w : Word) : (imm w).Renames r (imm w) :=
  ⟨rfl, rfl, fun h => absurd rfl h⟩

theorem Renames.isAnchor_eq (h : o.Renames r o') : o'.isAnchor = o.isAnchor := by
  rw [isAnchor, isAnchor, h.kind]

theorem Renames.isReference_eq (h : o.Renames r o') : o'.isReference = o.isReference := by
  rw [isReference, isReference, h.kind]

theorem Renames.mode_eq (h : o.Renames r o') : o'.mode = o.mode := by
  rw [mode, mode, h.kind]

theorem Renames.canWrite_eq (h : o.Renames r o') (m : Mnemonic) :
    Instruction.canWrite m o' = Instruction.canWrite m o := by
  simp only [Instruction.canWrite, isUpdatable, isWritable, h.kind]

theorem Renames.anchorName?_eq (h : o.Renames r o') : o'.anchorName? = o.anchorName?.map r := by
  rw [anchorName?, anchorName?, h.isAnchor_eq]
  split
  · rename_i ha
    have hk : o.kind ≠ .immediate := fun hk => by simp [isAnchor, hk] at ha
    rw [h.name hk, Option.map_some]
  · rfl

theorem Renames.updateTarget (h : o.Renames r o') : o.updateTarget.Renames r o'.updateTarget := by
  rw [Operand.updateTarget, Operand.updateTarget, h.kind]
  split
  · rename_i hk
    exact ⟨rfl, rfl, fun _ => h.name (by simp [hk])⟩
  · exact h

theorem Renames.word_eq (h : o.Renames r o') {t t' : SymbolTable}
    (ht : ∀ name, t'.word (r name) = t.word name) : o'.word t' = o.word t := by
  rw [word, word, h.isReference_eq, h.value]
  split
  · rename_i hr
    have hk : o.kind ≠ .immediate := fun hk => by simp [isReference, hk] at hr
    rw [h.name hk, ht]
  · rfl

end Operand

namespace Instruction

/-- Whether an instruction is another one under new names and on a new line. -/
structure Relabels (ρ : Relabelling) (i j : Instruction) : Prop where
  mnemonic : j.mnemonic = i.mnemonic
  operands : List.Forall₂ (Operand.Renames ρ.name) i.operands j.operands
  label : i.mnemonic = .label → j.label = ρ.name i.label
  line : j.line = ρ.line i.line

variable {ρ : Relabelling} {i j : Instruction}

/-- An operation has no label of its own to rename. -/
theorem relabels_op {opcode : Opcode} {operands operands' : List Operand} (line : UInt32)
    (h : List.Forall₂ (Operand.Renames ρ.name) operands operands') :
    Relabels ρ { mnemonic := .op opcode, operands, line }
      { mnemonic := .op opcode, operands := operands', line := ρ.line line } :=
  ⟨rfl, h, (nomatch ·), rfl⟩

theorem Relabels.expand (h : i.Relabels ρ j) : i.expand.Relabels ρ j.expand := by
  obtain ⟨m, operands, label, line⟩ := i
  obtain ⟨m', operands', label', line'⟩ := j
  obtain ⟨hm, hops, hlabel, hline⟩ := h
  dsimp only at hm hops hlabel hline
  subst hm hline
  have hsame (hi : expand ⟨m', operands, label, line⟩ = ⟨m', operands, label, line⟩)
      (hj : expand ⟨m', operands', label', ρ.line line⟩ = ⟨m', operands', label', ρ.line line⟩) :
      Relabels ρ (expand ⟨m', operands, label, line⟩)
        (expand ⟨m', operands', label', ρ.line line⟩) := by
    rw [hi, hj]
    exact ⟨rfl, hops, hlabel, rfl⟩
  -- as many operands on both sides, so the same shorthand is expanded on both or on neither
  cases m' with
  | op | label | data => exact hsame rfl rfl
  | jump =>
    rcases hops with _ | ⟨hd, _ | _⟩
    · exact hsame rfl rfl
    · exact relabels_op line (.cons (Operand.renames_imm ρ.name 1) (.cons hd .nil))
    · exact hsame rfl rfl
  | copy =>
    rcases hops with _ | ⟨hd, _ | ⟨hs, _ | _⟩⟩
    · exact hsame rfl rfl
    · exact hsame rfl rfl
    · exact relabels_op line (.cons hs (.cons (Operand.renames_imm ρ.name 0) (.cons hd .nil)))
    · exact hsame rfl rfl
  | addInPlace | mulInPlace =>
    rcases hops with _ | ⟨hd, _ | ⟨hv, _ | _⟩⟩
    · exact hsame rfl rfl
    · exact hsame rfl rfl
    · exact relabels_op line (.cons hd (.cons hv (.cons hd.updateTarget .nil)))
    · exact hsame rfl rfl

theorem Relabels.wellFormed_iff (h : i.Relabels ρ j)
    (hvalid : ∀ s, Text.isIdentifier (ρ.name s) = Text.isIdentifier s) :
    j.WellFormed ↔ i.WellFormed := by
  have hlabel : (j.mnemonic = .label → Text.isIdentifier j.label = true) ↔
      (i.mnemonic = .label → Text.isIdentifier i.label = true) := by
    rw [h.mnemonic]
    exact forall_congr' fun hm => by rw [h.label hm, hvalid]
  have hdata : (∀ o ∈ j.operands, o.kind = .immediateAnchor) ↔
      ∀ o ∈ i.operands, o.kind = .immediateAnchor :=
    forall_mem_iff_of_forall₂ h.operands fun o o' ho => by rw [ho.kind]
  have hnames : (∀ o ∈ j.operands, o.kind ≠ .immediate → Text.isIdentifier o.name = true) ↔
      ∀ o ∈ i.operands, o.kind ≠ .immediate → Text.isIdentifier o.name = true := by
    refine forall_mem_iff_of_forall₂ h.operands fun o o' ho => ?_
    rw [ho.kind]
    exact forall_congr' fun hk => by rw [ho.name hk, hvalid]
  have htarget (k : Nat) :=
    forall_getElem?_iff_of_forall₂ h.operands (P := fun o => canWrite i.mnemonic o = true)
      (Q := fun o => canWrite i.mnemonic o = true) (fun o o' ho => by rw [ho.canWrite_eq]) k
  have hlength := h.operands.length_eq
  constructor
  · intro hj
    refine ⟨?_, hlabel.1 hj.label, fun hm => hdata.1 (hj.data (h.mnemonic.trans hm)), hnames.1 hj.names,
      fun k o hk ho => ?_⟩
    · rw [hlength, hj.arity, h.mnemonic]
    · have htargets := hj.target k
      rw [h.mnemonic] at htargets
      exact (htarget k).1 (fun o' ho' => htargets o' hk ho') o ho
  · intro hi
    refine ⟨?_, hlabel.2 hi.label, fun hm => hdata.2 (hi.data (h.mnemonic.symm.trans hm)),
      hnames.2 hi.names, fun k o hk ho => ?_⟩
    · rw [← hlength, hi.arity, h.mnemonic]
    · rw [h.mnemonic] at hk ⊢
      exact (htarget k).2 (fun o' ho' => hi.target k o' hk ho') o ho

theorem Relabels.exists_check_eq_error (h : i.Relabels ρ j)
    (hvalid : ∀ s, Text.isIdentifier (ρ.name s) = Text.isIdentifier s) {e : Error}
    (he : i.check = .error e) : ∃ f, j.check = .error f ∧ f.kind = e.kind ∧ f.line = ρ.line e.line := by
  have hbad : ¬ j.check = .ok () := by
    rw [check_eq_ok_iff, h.wellFormed_iff hvalid, ← check_eq_ok_iff, he]
    exact fun h => nomatch h
  cases hcheck : j.check with
  | ok u => exact absurd hcheck hbad
  | error f =>
    obtain ⟨hkind, hline⟩ := check_eq_error he
    obtain ⟨hkind', hline'⟩ := check_eq_error hcheck
    exact ⟨f, rfl, hkind'.trans hkind.symm, by rw [hline', h.line, hline]⟩

theorem Relabels.headSize_eq (h : i.Relabels ρ j) : j.headSize = i.headSize := by
  rw [headSize, headSize, h.mnemonic]

theorem Relabels.size_eq (h : i.Relabels ρ j) : j.size = i.size := by
  rw [size, size, h.headSize_eq, h.operands.length_eq]

theorem symbols_of_forall₂ {l l' : List Operand} (h : List.Forall₂ (Operand.Renames ρ.name) l l')
    (base n : Nat) (line : UInt32) :
    ((l'.zipIdx n).filterMap fun (o, k) =>
        o.anchorName?.map fun name => (⟨name, ((base + k : Nat) : Int), ρ.line line⟩ : Symbol)) =
      ((l.zipIdx n).filterMap fun (o, k) =>
        o.anchorName?.map fun name => (⟨name, ((base + k : Nat) : Int), line⟩ : Symbol)).map
          (Symbol.relabelled ρ) := by
  induction h generalizing n with
  | nil => rfl
  | @cons o o' l l' ho _ ih =>
    have ih := ih (n + 1)
    cases ha : o.anchorName? <;> simp_all [ho.anchorName?_eq, Symbol.relabelled]

theorem Relabels.symbols_eq (h : i.Relabels ρ j) (start : Nat) :
    j.symbols start = (i.symbols start).map (Symbol.relabelled ρ) := by
  unfold symbols
  rw [h.mnemonic, h.headSize_eq, h.line]
  split
  · rw [h.label ‹_›]
    rfl
  · exact symbols_of_forall₂ h.operands (start + i.headSize) 0 i.line

theorem Relabels.declared_eq (h : i.Relabels ρ j) :
    j.declared = i.declared.map (Mention.relabelled ρ) := by
  rw [← map_mention_symbols _ 0, ← map_mention_symbols i 0, h.symbols_eq, List.map_map, List.map_map]
  rfl

theorem referred_of_forall₂ {l l' : List Operand} (h : List.Forall₂ (Operand.Renames ρ.name) l l')
    (line : UInt32) :
    (l'.filter Operand.isReference).map (fun o => (⟨o.name, ρ.line line⟩ : Mention)) =
      ((l.filter Operand.isReference).map fun o => ⟨o.name, line⟩).map (Mention.relabelled ρ) := by
  induction h with
  | nil => rfl
  | @cons o o' l l' ho _ ih =>
    have hname (hr : o.isReference = true) : o'.name = ρ.name o.name :=
      ho.name fun hk => by simp [Operand.isReference, hk] at hr
    cases hr : o.isReference <;> simp_all [ho.isReference_eq, Mention.relabelled]

theorem Relabels.referred_eq (h : i.Relabels ρ j) :
    j.referred = i.referred.map (Mention.relabelled ρ) := by
  rw [referred, referred, h.line]
  exact referred_of_forall₂ h.operands i.line

theorem Relabels.words_eq (h : i.Relabels ρ j) {t t' : SymbolTable}
    (ht : ∀ name, t'.word (ρ.name name) = t.word name) : j.words t' = i.words t := by
  have hmodes : j.operands.map (·.mode.code) = i.operands.map (·.mode.code) :=
    map_eq_of_forall₂ h.operands fun o o' ho => by rw [ho.mode_eq]
  have hhead : j.head = i.head := by rw [head, head, h.mnemonic, hmodes]
  rw [words, words, hhead, map_eq_of_forall₂ h.operands fun o o' ho => ho.word_eq ht]

theorem anchor_of_forall₂ {l l' : List Operand} (h : List.Forall₂ (Operand.Renames ρ.name) l l')
    (k : Nat) :
    l'[k]?.bind Operand.anchorName? = (l[k]?.bind Operand.anchorName?).map ρ.name := by
  induction h generalizing k with
  | nil => rfl
  | cons ho _ ih =>
    cases k with
    | zero => simpa using ho.anchorName?_eq
    | succ k => simpa using ih k

theorem Relabels.layout_eq (h : i.Relabels ρ j) (hi : i.Elementary) (hj : j.Elementary) :
    j.layout = i.layout.renamed ρ.name := by
  rw [hi.layout_eq, hj.layout_eq, primitiveLayout, primitiveLayout, h.mnemonic]
  cases hm : i.mnemonic with
  | label => rw [Layout.renamed_first, h.label hm, Option.map_some]
  | data =>
    obtain ⟨o, hops, hk⟩ := hi.operands_data hm
    obtain ⟨o', hops', -⟩ := hj.operands_data (h.mnemonic.trans hm)
    have ho : o.Renames ρ.name o' := by simpa [hops, hops'] using h.operands
    simp [Layout.renamed_first, hops, hops', ho.name (by simp [hk])]
  | op | copy | jump | addInPlace | mulInPlace =>
    simp only [Layout.renamed, h.operands.length_eq, anchor_of_forall₂ h.operands, Vector.map_ofFn,
      Function.comp_def]

end Instruction

namespace Program

/-- Whether a program is another one under new names and on new lines. -/
def Relabels (ρ : Relabelling) (p q : Program) : Prop := List.Forall₂ (Instruction.Relabels ρ) p q

variable {ρ : Relabelling} {p q : Program}

theorem Relabels.expanded (h : p.Relabels ρ q) : p.expanded.Relabels ρ q.expanded :=
  List.forall₂_map_right_iff.2 (List.forall₂_map_left_iff.2 (h.imp fun _ _ hi => hi.expand))

theorem Relabels.declared_eq (h : p.Relabels ρ q) :
    q.declared = p.declared.map (Mention.relabelled ρ) := by
  rw [declared, declared, List.map_flatMap, List.flatMap_def, List.flatMap_def,
    map_eq_of_forall₂ h fun _ _ hi => hi.declared_eq]

theorem Relabels.referred_eq (h : p.Relabels ρ q) :
    q.referred = p.referred.map (Mention.relabelled ρ) := by
  rw [referred, referred, List.map_flatMap, List.flatMap_def, List.flatMap_def,
    map_eq_of_forall₂ h fun _ _ hi => hi.referred_eq]

theorem Relabels.declaredNames_eq (h : p.Relabels ρ q) :
    q.declaredNames = p.declaredNames.map ρ.name := by
  rw [declaredNames, h.declared_eq, declaredNames, List.map_map, List.map_map]
  rfl

theorem Relabels.symbolsFrom_eq (h : p.Relabels ρ q) (start : Nat) :
    q.symbolsFrom start = (p.symbolsFrom start).map (Symbol.relabelled ρ) := by
  induction h generalizing start with
  | nil => rfl
  | cons hi _ ih => rw [symbolsFrom, symbolsFrom, hi.symbols_eq, hi.size_eq, ih, List.map_append]

theorem Relabels.table_eq (h : p.Relabels ρ q) : q.table = p.table.map (Symbol.relabelled ρ) := by
  rw [table, h.symbolsFrom_eq]
  rfl

theorem Relabels.layouts_eq (h : p.Relabels ρ q) (hp : ∀ i ∈ p, i.Elementary)
    (hq : ∀ j ∈ q, j.Elementary) : q.layouts = p.layouts.map (Layout.renamed ρ.name) := by
  induction h with
  | nil => rfl
  | cons hi _ ih =>
    rw [List.forall_mem_cons] at hp hq
    have ih := ih hp.2 hq.2
    rw [layouts, layouts] at ih ⊢
    rw [List.map_cons, List.map_cons, List.map_cons, hi.layout_eq hp.1 hq.1, ih]

theorem Relabels.check_iff (h : p.Relabels ρ q)
    (hvalid : ∀ s, Text.isIdentifier (ρ.name s) = Text.isIdentifier s) :
    (∀ j ∈ q, j.check = .ok ()) ↔ ∀ i ∈ p, i.check = .ok () := by
  refine forall_mem_iff_of_forall₂ h fun i j hi => ?_
  rw [Instruction.check_eq_ok_iff, Instruction.check_eq_ok_iff, hi.wellFormed_iff hvalid]

section Injective

variable (hr : Function.Injective ρ.name)
include hr

theorem Relabels.words_table_eq (h : p.Relabels ρ q) : q.words q.table = p.words p.table := by
  have hword (name : String) : q.table.word (ρ.name name) = p.table.word name := by
    rw [SymbolTable.word, h.table_eq, SymbolTable.address?_map_relabelled hr, SymbolTable.word]
  rw [words, words, List.flatMap_def, List.flatMap_def,
    map_eq_of_forall₂ h fun _ _ hi => hi.words_eq hword]

theorem Relabels.mem_declaredNames_iff (h : p.Relabels ρ q) {name : String} :
    ρ.name name ∈ q.declaredNames ↔ name ∈ p.declaredNames := by
  rw [h.declaredNames_eq, List.mem_map_of_injective hr]

theorem Relabels.nodup_declaredNames_iff (h : p.Relabels ρ q) :
    q.declaredNames.Nodup ↔ p.declaredNames.Nodup := by
  rw [h.declaredNames_eq, List.nodup_map_iff hr]

variable (hvalid : ∀ s, Text.isIdentifier (ρ.name s) = Text.isIdentifier s)
include hvalid

theorem Relabels.wellFormed (h : p.Relabels ρ q) (hwf : p.WellFormed) : q.WellFormed := by
  have hexpanded := h.expanded
  constructor
  case instructions =>
    exact forall_check_eq_ok_iff.1
      ((h.check_iff hvalid).2 (forall_check_eq_ok_iff.2 hwf.instructions))
  case distinct => exact (hexpanded.nodup_declaredNames_iff hr).2 hwf.distinct
  case closed =>
    rw [hexpanded.referred_eq]
    refine List.forall_mem_map.2 fun s hs => ?_
    exact (hexpanded.mem_declaredNames_iff hr).2 (hwf.closed s hs)

/-- What a program is refused for is what it is refused for under other names and on other lines. -/
theorem Refusal.relabelled {e : Error} (he : p.Refusal e) (h : p.Relabels ρ q) :
    ∃ f, q.Refusal f ∧ f.kind = e.kind ∧ f.line = ρ.line e.line := by
  have hexpanded := h.expanded
  cases he with
  | @malformed pre i post e hsplit hpre hfault =>
    rw [hsplit] at h
    obtain ⟨pre', j, post', hsplit', hrelabels, hij⟩ := exists_split_of_forall₂ h
    have hpre' := (Relabels.check_iff hrelabels hvalid).2 hpre
    obtain ⟨f, hf, hkind, hline⟩ := hij.exists_check_eq_error hvalid hfault
    exact ⟨f, .malformed hsplit' hpre' hf, hkind, hline⟩
  | @duplicate pre d post first hall hsplit hdistinct hfirst hname =>
    have hsplit' : q.expanded.declared =
        pre.map (Mention.relabelled ρ) ++ d.relabelled ρ :: post.map (Mention.relabelled ρ) := by
      rw [hexpanded.declared_eq, hsplit, List.map_append, List.map_cons]
    have hdistinct' : ((pre.map (Mention.relabelled ρ)).map (·.name)).Nodup := by
      have hnames := (List.nodup_map_iff hr).2 hdistinct
      rw [List.map_map] at hnames ⊢
      exact hnames
    have hfirst' := List.mem_map_of_mem hfirst (f := Mention.relabelled ρ)
    have hall' := (h.check_iff hvalid).2 hall
    exact ⟨_, .duplicate hall' hsplit' hdistinct' hfirst' (congrArg ρ.name hname), rfl, rfl⟩
  | @undefined pre s post hall hdistinct hsplit hknown hunknown =>
    have hsplit' : q.expanded.referred =
        pre.map (Mention.relabelled ρ) ++ s.relabelled ρ :: post.map (Mention.relabelled ρ) := by
      rw [hexpanded.referred_eq, hsplit, List.map_append, List.map_cons]
    have hdistinct' := (hexpanded.nodup_declaredNames_iff hr).2 hdistinct
    have hunknown' := mt (hexpanded.mem_declaredNames_iff hr).1 hunknown
    refine ⟨_, .undefined ((h.check_iff hvalid).2 hall) hdistinct' hsplit' ?_ hunknown', rfl, rfl⟩
    refine List.forall_mem_map.2 fun s hs => ?_
    exact (hexpanded.mem_declaredNames_iff hr).2 (hknown s hs)

end Injective
end Program
end TapeMachine
