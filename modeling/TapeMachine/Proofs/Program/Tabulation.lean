import Mathlib.Algebra.Group.Int.Defs
import Mathlib.Algebra.GroupWithZero.Nat
import Mathlib.Data.List.Nodup
import Mathlib.Data.Prod.Lex
import TapeMachine.Proofs.SymbolTable

/-! The symbol table of any program with any layouts, however these were made. Names are declared in
the order of the instructions and, within an instruction, of the slots. If no name comes twice they
are all there, each with the address that the sizes before it give; otherwise the first that was
there before is refused. -/

namespace TapeMachine

/-- The index of an instruction and a slot of its layout, ordered by the index, then by the slot. -/
abbrev Site := ℕ ×ₗ ℕ

namespace Program

/-- What a program with these layouts declares, and where. -/
inductive Declares (p : Program) (layouts : List Layout) : Site → Symbol → Prop
  | anchor {index slot : Nat} {i l name} (instruction : p[index]? = some i)
      (layout : layouts[index]? = some l) (named : l.anchors[slot]? = some (some name)) :
      Declares p layouts (toLex (index, slot))
        ⟨name, (Layout.total (layouts.take index) : Int) + 1 + slot + l.adjust, i.line⟩

def NamedOnce (p : Program) (layouts : List Layout) : Prop :=
  ∀ site site' s s', p.Declares layouts site s → p.Declares layouts site' s' →
    s.name = s'.name → site = site'

/-- Whether a table holds what is declared, each name once, and nothing else. -/
structure Tabulated (p : Program) (layouts : List Layout) (t : SymbolTable) : Prop where
  once : t.names.Nodup
  symbols : ∀ s, s ∈ t.symbols ↔ ∃ site, p.Declares layouts site s
  found : ∀ name s, t.find? name = some s ↔ s.name = name ∧ ∃ site, p.Declares layouts site s

/-- Whether an error is about the first site whose name stands at an earlier one, and cites the first
site of that name. -/
structure Clash (p : Program) (layouts : List Layout) (earlier site : Site) (first s : Symbol)
    (e : Error) : Prop where
  original : p.Declares layouts earlier first
  repeated : p.Declares layouts site s
  before : earlier < site
  same : first.name = s.name
  foremost : ∀ other < earlier, ∀ o, p.Declares layouts other o → o.name ≠ s.name
  leftmost : ∀ other < site, ∀ o, p.Declares layouts other o →
    ∀ other' < other, ∀ o', p.Declares layouts other' o' → o'.name ≠ o.name
  kind : e.kind = .duplicateAnchor
  line : e.line = s.line
  message : e.message = "anchor " ++ ErrorCause.quote s.name ++ " already declared" ++
    if first.line = 0 then "" else " at line " ++ first.line.toNat.repr

end Program

namespace Layout

variable {l : Layout} {index : Nat} {start : Int} {line : UInt32}

def sited (l : Layout) (index : Nat) (start : Int) (line : UInt32) : List (Site × Symbol) :=
  l.anchors.toList.zipIdx.filterMap fun (anchor, slot) =>
    anchor.map fun name => (toLex (index, slot), ⟨name, start + 1 + slot + l.adjust, line⟩)

theorem map_snd_sited : (l.sited index start line).map (·.2) = l.declarations start line := by
  simp [sited, declarations, List.map_filterMap, Function.comp_def]

theorem mem_sited {x : Site × Symbol} :
    x ∈ l.sited index start line ↔
      ∃ (slot : Nat) (name : String), l.anchors[slot]? = some (some name) ∧
        x = (toLex (index, slot), ⟨name, start + 1 + slot + l.adjust, line⟩) := by
  rw [sited, List.mem_filterMap]
  constructor
  · rintro ⟨⟨anchor, slot⟩, hmem, hx⟩
    obtain ⟨name, rfl, rfl⟩ := Option.map_eq_some_iff.1 hx
    exact ⟨slot, name, by simpa using List.mem_zipIdx_iff_getElem?.1 hmem, rfl⟩
  · rintro ⟨slot, name, hslot, rfl⟩
    exact ⟨(some name, slot), List.mem_zipIdx_iff_getElem?.2 (by simpa using hslot), rfl⟩

theorem pairwise_sited : (l.sited index start line).Pairwise (·.1 < ·.1) := by
  have hslots : l.anchors.toList.zipIdx.Pairwise (·.2 < ·.2) := by
    rw [← List.pairwise_map, List.zipIdx_map_snd]
    exact List.pairwise_lt_range'
  refine List.Pairwise.filterMap _ ?_ hslots
  intro a b hab x hx y hy
  obtain ⟨name, -, rfl⟩ := Option.map_eq_some_iff.1 hx
  obtain ⟨name', -, rfl⟩ := Option.map_eq_some_iff.1 hy
  exact Prod.Lex.toLex_lt_toLex.2 (.inr ⟨rfl, hab⟩)

end Layout

namespace Program

def sited (index : Nat) (start : Int) : List (Instruction × Layout) → List (Site × Symbol)
  | [] => []
  | (i, l) :: rest => l.sited index start i.line ++ sited (index + 1) (start + l.size) rest

variable {p : Program} {layouts : List Layout} {site : Site} {s : Symbol}

theorem map_snd_sited (index : Nat) (start : Int) (pairs : List (Instruction × Layout)) :
    (sited index start pairs).map (·.2) = declarations start pairs := by
  induction pairs generalizing index start with
  | nil => rfl
  | cons pair rest ih => rw [sited, List.map_append, Layout.map_snd_sited, ih, declarations]

theorem mem_sited {index : Nat} {start : Int} {x : Site × Symbol} :
    x ∈ sited index start (p.zip layouts) ↔
      ∃ (n slot : Nat) (i : Instruction) (l : Layout) (name : String), p[n]? = some i ∧
        layouts[n]? = some l ∧ l.anchors[slot]? = some (some name) ∧
        x = (toLex (index + n, slot),
          ⟨name, start + Layout.total (layouts.take n) + 1 + slot + l.adjust, i.line⟩) := by
  induction p generalizing layouts index start with
  | nil => simp [sited]
  | cons j p ih =>
    cases layouts with
    | nil => simp [sited]
    | cons m layouts =>
      have htotal (n : Nat) : start + (Layout.total ((m :: layouts).take (n + 1)) : Int) =
          start + m.size + Layout.total (layouts.take n) := by
        rw [Int.add_assoc, ← Int.natCast_add]
        rfl
      rw [List.zip_cons_cons, sited, List.mem_append, ih, Layout.mem_sited]
      constructor
      · rintro (⟨slot, name, hslot, rfl⟩ | ⟨n, slot, i, l, name, hi, hl, hslot, rfl⟩)
        · refine ⟨0, slot, j, m, name, rfl, rfl, hslot, ?_⟩
          simp [Layout.total]
        · refine ⟨n + 1, slot, i, l, name, hi, hl, hslot, ?_⟩
          rw [htotal, Nat.add_right_comm, Nat.add_assoc]
      · rintro ⟨n, slot, i, l, name, hi, hl, hslot, rfl⟩
        cases n with
        | zero =>
          cases hi
          cases hl
          refine .inl ⟨slot, name, hslot, ?_⟩
          simp [Layout.total]
        | succ n =>
          refine .inr ⟨n, slot, i, l, name, hi, hl, hslot, ?_⟩
          rw [htotal, Nat.add_right_comm, Nat.add_assoc]

theorem mem_sited_iff : (site, s) ∈ sited 0 0 (p.zip layouts) ↔ p.Declares layouts site s := by
  rw [mem_sited]
  constructor
  · rintro ⟨n, slot, i, l, name, hi, hl, hslot, heq⟩
    simp only [Nat.zero_add, Int.zero_add] at heq
    cases heq
    exact .anchor hi hl hslot
  · rintro ⟨hi, hl, hslot⟩
    refine ⟨_, _, _, _, _, hi, hl, hslot, ?_⟩
    simp only [Nat.zero_add, Int.zero_add]

theorem le_of_mem_sited {index : Nat} {start : Int} {pairs : List (Instruction × Layout)}
    {x : Site × Symbol} (h : x ∈ sited index start pairs) : index ≤ (ofLex x.1).1 := by
  induction pairs generalizing index start with
  | nil => cases h
  | cons pair rest ih =>
    rw [sited, List.mem_append] at h
    rcases h with h | h
    · obtain ⟨slot, name, -, rfl⟩ := Layout.mem_sited.1 h
      exact le_rfl
    · have := ih h
      omega

theorem pairwise_sited (index : Nat) (start : Int) (pairs : List (Instruction × Layout)) :
    (sited index start pairs).Pairwise (·.1 < ·.1) := by
  induction pairs generalizing index start with
  | nil => exact .nil
  | cons pair rest ih =>
    rw [sited, List.pairwise_append]
    refine ⟨Layout.pairwise_sited, ih _ _, ?_⟩
    intro x hx y hy
    obtain ⟨slot, name, -, rfl⟩ := Layout.mem_sited.1 hx
    have hy := le_of_mem_sited hy
    exact Prod.Lex.lt_iff.2 (.inl hy)

theorem mem_of_lt {α : Type} {pre post : List (Site × α)} {x y : Site × α}
    (h : (pre ++ x :: post).Pairwise (·.1 < ·.1)) (hy : y ∈ pre ++ x :: post) (hlt : y.1 < x.1) :
    y ∈ pre := by
  rw [List.pairwise_append, List.pairwise_cons] at h
  rcases List.mem_append.1 hy with hy | hy
  · exact hy
  · rcases List.mem_cons.1 hy with rfl | hy
    · exact absurd hlt (lt_irrefl _)
    · exact absurd hlt (lt_asymm (h.2.1.1 y hy))

theorem symbolTable_of_length_eq (h : layouts.length = p.length) :
    p.symbolTable layouts = ((sited 0 0 (p.zip layouts)).map (·.2)).foldlM SymbolTable.declare {} := by
  rw [symbolTable, if_neg (not_not.2 h), map_snd_sited]

theorem nodup_names_sited_iff :
    ((sited 0 0 (p.zip layouts)).map (·.2.name)).Nodup ↔ p.NamedOnce layouts := by
  constructor
  · intro h site site' s s' hs hs' hname
    have heq := List.inj_on_of_nodup_map h (mem_sited_iff.2 hs) (mem_sited_iff.2 hs') hname
    exact congrArg Prod.fst heq
  · intro h
    rw [List.Nodup, List.pairwise_map]
    refine (pairwise_sited 0 0 (p.zip layouts)).imp_of_mem ?_
    intro x y hx hy hlt hname
    exact hlt.ne (h _ _ _ _ (mem_sited_iff.1 hx) (mem_sited_iff.1 hy) hname)

theorem tabulated_sited (h : p.NamedOnce layouts) :
    p.Tabulated layouts ⟨(sited 0 0 (p.zip layouts)).map (·.2)⟩ := by
  have hnodup : (SymbolTable.mk ((sited 0 0 (p.zip layouts)).map (·.2))).names.Nodup := by
    rw [SymbolTable.names, List.map_map]
    exact nodup_names_sited_iff.2 h
  have hsymbols : ∀ s, s ∈ (sited 0 0 (p.zip layouts)).map (·.2) ↔ ∃ site, p.Declares layouts site s := by
    intro s
    simp only [List.mem_map, Prod.exists, exists_eq_right, mem_sited_iff]
  refine ⟨hnodup, hsymbols, ?_⟩
  intro name s
  rw [← hsymbols]
  constructor
  · intro hs
    obtain ⟨hmem, hname⟩ := SymbolTable.mem_of_find?_eq_some hs
    exact ⟨hname, hmem⟩
  · rintro ⟨rfl, hmem⟩
    exact SymbolTable.find?_eq_some_of_mem hnodup hmem

theorem exists_clash (hlength : layouts.length = p.length) (h : ¬ p.NamedOnce layouts) :
    ∃ earlier site first s e, p.symbolTable layouts = .error e ∧
      p.Clash layouts earlier site first s e := by
  rw [← nodup_names_sited_iff] at h
  obtain ⟨pre, ⟨site, s⟩, post, ⟨earlier, first⟩, hsplit, hpre, hfirst, hname⟩ := exists_first_repeated h
  have hsorted := pairwise_sited 0 0 (p.zip layouts)
  rw [hsplit] at hsorted
  have hbefore : ∀ other ∈ pre, other.1 < site :=
    fun other hother => (List.pairwise_append.1 hsorted).2.2 other hother _ List.mem_cons_self
  have hin : ∀ other < site, ∀ o, p.Declares layouts other o → (other, o) ∈ pre := by
    intro other hlt o ho
    exact mem_of_lt hsorted (hsplit ▸ mem_sited_iff.2 ho) hlt
  have hlt := hbefore _ hfirst
  have htable : p.symbolTable layouts =
      .error { cause := .duplicate s.name first.line, line := s.line } := by
    rw [symbolTable_of_length_eq hlength, hsplit, List.map_append, List.map_cons]
    refine SymbolTable.foldlM_declare_eq_error ?_ (List.mem_map_of_mem hfirst) hname
    rwa [SymbolTable.names, List.map_map]
  refine ⟨earlier, site, first, s, _, htable, ?_⟩
  constructor
  case original => exact mem_sited_iff.1 (hsplit ▸ List.mem_append_left _ hfirst)
  case repeated => exact mem_sited_iff.1 (hsplit ▸ List.mem_append_right _ List.mem_cons_self)
  case before => exact hlt
  case same => exact hname
  case foremost =>
    intro other hother o ho hsame
    have heq := List.inj_on_of_nodup_map hpre (hin other (hother.trans hlt) o ho) hfirst
      (hsame.trans hname.symm)
    exact hother.ne (congrArg Prod.fst heq)
  case leftmost =>
    intro other hother o ho other' hother' o' ho' hsame
    have heq := List.inj_on_of_nodup_map hpre (hin other' (hother'.trans hother) o' ho')
      (hin other hother o ho) hsame
    exact hother'.ne (congrArg Prod.fst heq)
  case kind => rfl
  case line => rfl
  case message => rfl

theorem total_take_le {size : Nat} (h : ∀ l ∈ layouts, l.size < size) (n : Nat) :
    Layout.total (layouts.take n) ≤ n * (size - 1) := by
  induction n generalizing layouts with
  | zero => simp [Layout.total]
  | succ n ih =>
    cases layouts with
    | nil => simp [Layout.total]
    | cons l layouts =>
      rw [List.forall_mem_cons] at h
      have hrest := ih h.2
      have htotal : Layout.total ((l :: layouts).take (n + 1)) =
          l.size + Layout.total (layouts.take n) := rfl
      rw [htotal, Nat.succ_mul]
      omega

/-- Sizes and adjustments that 32 bits can hold, fewer than `2 ^ 31` of them, take no address out of the
range of a word. -/
theorem Declares.toInt_ofInt_address (h : p.Declares layouts site s) (hp : p.length < 2 ^ 31)
    (hl : ∀ l ∈ layouts, l.size < 2 ^ 32 ∧ -2 ^ 31 ≤ l.adjust ∧ l.adjust < 2 ^ 31) :
    (Int64.ofInt s.address).toInt = s.address := by
  cases h with
  | @anchor index slot i l name hi hlayout hslot =>
    have hindex : index < p.length := (List.getElem?_eq_some_iff.1 hi).1
    have hslot : slot < 3 := (Vector.getElem?_eq_some_iff.1 hslot).1
    have htotal := total_take_le (fun l hmem => (hl l hmem).1) index
    have hmul : index * (2 ^ 32 - 1) ≤ (2 ^ 31 - 2) * (2 ^ 32 - 1) :=
      Nat.mul_le_mul_right _ (by omega)
    obtain ⟨-, hlower, hupper⟩ := hl l (List.mem_of_getElem? hlayout)
    exact Int64.toInt_ofInt_of_le (by dsimp only; omega) (by dsimp only; omega)

/-- Whatever the layouts, all names are tabulated if they match the program in number and no name stands
twice; otherwise the program is refused, in the second case for the first name that stood before. -/
theorem symbolTable_of_layouts (p : Program) (layouts : List Layout) :
    (layouts.length ≠ p.length →
      ∃ e, p.symbolTable layouts = .error e ∧ e.kind = .malformedOperand) ∧
    (layouts.length = p.length → p.NamedOnce layouts →
      ∃ t, p.symbolTable layouts = .ok t ∧ p.Tabulated layouts t) ∧
    (layouts.length = p.length → ¬ p.NamedOnce layouts →
      ∃ earlier site first s e, p.symbolTable layouts = .error e ∧
        p.Clash layouts earlier site first s e) ∧
    (p.length < 2 ^ 31 → (∀ l ∈ layouts, l.size < 2 ^ 32 ∧ -2 ^ 31 ≤ l.adjust ∧ l.adjust < 2 ^ 31) →
      ∀ site s, p.Declares layouts site s → (Int64.ofInt s.address).toInt = s.address) := by
  refine ⟨?_, ?_, exists_clash, ?_⟩
  · intro h
    exact ⟨_, if_pos h, rfl⟩
  · intro hlength h
    refine ⟨_, ?_, tabulated_sited h⟩
    rw [symbolTable_of_length_eq hlength]
    refine SymbolTable.foldlM_declare_eq_ok (t := {}) ?_
    exact (tabulated_sited h).once
  · intro hp hl site s hs
    exact hs.toInt_ofInt_address hp hl

example : symbolTable [.ofLabel "a", .ofLabel "b"]
    [{ size := 5, anchors := #v[none, some "x", none] },
      { size := 0, adjust := -2, anchors := #v[some "y", none, none] }] =
    .ok ⟨[⟨"x", 2, 0⟩, ⟨"y", 4, 0⟩]⟩ := by rfl

end Program
end TapeMachine
