import Mathlib.Data.List.TakeWhile
import TapeMachine.Proofs.Program.Acceptance

/-! Where the instructions of an assembled program lie in the image, and which address each name is
given. An instruction starts after the words of all instructions before it; a name that an operand
declares is the address of that operand's word, a label that of the next word to come. -/

namespace TapeMachine
namespace Program

/-- The number of words before the `n`th instruction. -/
def start (q : Program) (n : Nat) : Nat := ((q.take n).map Instruction.size).sum

/-- The index of the first instruction from `n` on that is no label, the length if there is none. -/
def nextIndex (q : Program) (n : Nat) : Nat :=
  n + ((q.drop n).takeWhile fun i => i.mnemonic = .label).length

/-- Whether some operand declares the name for its own word. -/
def DeclaresWord (q : Program) (name : String) : Prop :=
  ∃ i ∈ q, ∃ o ∈ i.operands, o.isAnchor = true ∧ o.name = name

theorem start_succ {q : Program} {n : Nat} {i : Instruction} (h : q[n]? = some i) :
    q.start (n + 1) = q.start n + i.size := by
  simp [start, List.take_add_one, h]

theorem start_le_of_le {q : Program} {n m : Nat} (h : n ≤ m) : q.start n ≤ q.start m := by
  obtain ⟨d, rfl⟩ := Nat.exists_eq_add_of_le h
  simp [start, List.take_add]

theorem start_add_le {q : Program} {n m : Nat} {i : Instruction} (h : q[n]? = some i) (hnm : n < m) :
    q.start n + i.size ≤ q.start m := by
  rw [← start_succ h]
  exact start_le_of_le hnm

theorem length_words_eq_start (t : SymbolTable) (q : Program) :
    (q.words t).length = q.start q.length := by
  rw [length_words, start, List.take_length]

theorem start_add_size_le {q : Program} {n : Nat} {i : Instruction} (h : q[n]? = some i)
    (t : SymbolTable) : q.start n + i.size ≤ (q.words t).length := by
  rw [length_words_eq_start]
  exact start_add_le h (List.getElem?_eq_some_iff.1 h).1

theorem words_split {q : Program} {n : Nat} {i : Instruction} (t : SymbolTable) (h : q[n]? = some i) :
    q.words t = words t (q.take n) ++ (i.words t ++ words t (q.drop (n + 1))) := by
  obtain ⟨hn, rfl⟩ := List.getElem?_eq_some_iff.1 h
  calc q.words t = words t (q.take n ++ q.drop n) := by rw [List.take_append_drop]
    _ = words t (q.take n) ++ (q[n].words t ++ words t (q.drop (n + 1))) := by
      rw [List.drop_eq_getElem_cons hn, words, List.flatMap_append, List.flatMap_cons]
      rfl

/-- A word of an instruction lies at its place after the words of all instructions before it. -/
theorem getElem?_words {q : Program} {n k : Nat} {i : Instruction} (t : SymbolTable)
    (h : q[n]? = some i) (hk : k < i.size) : (q.words t)[q.start n + k]? = (i.words t)[k]? := by
  have hpre : (words t (q.take n)).length = q.start n := length_words t _
  have hk' : k < (i.words t).length := by rwa [Instruction.length_words]
  rw [words_split t h, ← hpre, List.getElem?_append_right (by omega), Nat.add_sub_cancel_left,
    List.getElem?_append_left hk']

/-- A place in the image belongs to one word of one instruction. -/
theorem start_add_inj {q : Program} {n m k l : Nat} {i j : Instruction} (hi : q[n]? = some i)
    (hj : q[m]? = some j) (hk : k < i.size) (hl : l < j.size)
    (h : q.start n + k = q.start m + l) : n = m ∧ k = l := by
  rcases Nat.lt_trichotomy n m with hnm | rfl | hnm
  · have := start_add_le hi hnm
    omega
  · exact ⟨rfl, by omega⟩
  · have := start_add_le hj hnm
    omega

theorem exists_start_add {q : Program} {x : Nat} (hx : x < q.start q.length) :
    ∃ (n k : Nat) (i : Instruction), q[n]? = some i ∧ k < i.size ∧ x = q.start n + k := by
  induction q generalizing x with
  | nil => cases hx
  | cons i q ih =>
    by_cases hi : x < i.size
    · exact ⟨0, x, i, rfl, hi, by simp [start]⟩
    · have hrest : x - i.size < start q q.length := by
        simp only [start, List.length_cons, List.take_succ_cons, List.map_cons, List.sum_cons] at hx
        rw [start]
        omega
      obtain ⟨n, k, j, hj, hk, hxk⟩ := ih hrest
      refine ⟨n + 1, k, j, hj, hk, ?_⟩
      simp only [start, List.take_succ_cons, List.map_cons, List.sum_cons] at hxk ⊢
      omega

theorem mem_symbolsFrom {q : Program} {base : Nat} {s : Symbol} :
    s ∈ q.symbolsFrom base ↔
      ∃ (n : Nat) (i : Instruction), q[n]? = some i ∧ s ∈ i.symbols (base + q.start n) := by
  induction q generalizing base with
  | nil => simp [symbolsFrom]
  | cons i q ih =>
    rw [symbolsFrom, List.mem_append, ih]
    constructor
    · rintro (h | ⟨n, j, hj, h⟩)
      · exact ⟨0, i, rfl, h⟩
      · exact ⟨n + 1, j, hj, by simpa [start, Nat.add_assoc] using h⟩
    · rintro ⟨n, j, hj, h⟩
      cases n with
      | zero =>
        cases hj
        exact .inl h
      | succ n => exact .inr ⟨n, j, hj, by simpa [start, Nat.add_assoc] using h⟩

end Program

namespace Instruction

theorem mem_symbols_of_label {i : Instruction} (hm : i.mnemonic = .label) (start : Nat) :
    i.symbols start = [⟨i.label, start, i.line⟩] := by
  rw [symbols, hm]

theorem mem_symbols_of_anchor {i : Instruction} (hm : i.mnemonic ≠ .label) {k : Nat} {o : Operand}
    (ho : i.operands[k]? = some o) (ha : o.isAnchor = true) (start : Nat) :
    ⟨o.name, ((start + i.headSize + k : Nat) : Int), i.line⟩ ∈ i.symbols start := by
  unfold symbols
  split
  · exact absurd ‹_› hm
  · refine List.mem_filterMap.2 ⟨(o, k), List.mem_zipIdx_iff_getElem?.2 (by simpa using ho), ?_⟩
    simp [Operand.anchorName?, ha]

theorem length_head (i : Instruction) : i.head.length = i.headSize := by
  cases hm : i.mnemonic <;> simp [head, headSize, hm]

theorem getElem?_words_head (t : SymbolTable) {i : Instruction} {k : Nat} (hk : k < i.headSize) :
    (i.words t)[k]? = i.head[k]? := by
  rw [words, List.getElem?_append_left (by rwa [length_head])]

theorem getElem?_words_operand (t : SymbolTable) {i : Instruction} {k : Nat} {o : Operand}
    (ho : i.operands[k]? = some o) : (i.words t)[i.headSize + k]? = some (o.word t) := by
  have hhead := length_head i
  rw [words, List.getElem?_append_right (by omega), hhead, Nat.add_sub_cancel_left]
  simp [ho]

theorem size_of_label {i : Instruction} (h : i.Elementary) (hm : i.mnemonic = .label) :
    i.size = 0 := by
  simp [size, headSize, hm, h.operands_label hm]

theorem slot_lt_size {i : Instruction} {k : Nat} {o : Operand} (ho : i.operands[k]? = some o) :
    i.headSize + k < i.size := by
  have := (List.getElem?_eq_some_iff.1 ho).1
  unfold size
  omega

@[simp] theorem headSize_of_op {i : Instruction} {opcode : Opcode} (hm : i.mnemonic = .op opcode) :
    i.headSize = 1 := by
  rw [headSize, hm]

@[simp] theorem headSize_of_data {i : Instruction} (hm : i.mnemonic = .data) : i.headSize = 0 := by
  rw [headSize, hm]

theorem size_pos_of_op {i : Instruction} {opcode : Opcode} (hm : i.mnemonic = .op opcode) :
    0 < i.size := by
  rw [size, headSize_of_op hm]
  omega

/-- No name that an instruction declares lies outside it, at worst right behind it. -/
theorem address_le_of_mem_symbols {i : Instruction} {start : Nat} {s : Symbol}
    (h : s ∈ i.symbols start) : 0 ≤ s.address ∧ s.address ≤ (start + i.size : Nat) := by
  unfold symbols at h
  split at h
  · obtain rfl := List.mem_singleton.1 h
    dsimp only
    omega
  · obtain ⟨⟨o, k⟩, hok, hs⟩ := List.mem_filterMap.1 h
    obtain ⟨name, -, rfl⟩ := Option.map_eq_some_iff.1 hs
    have hk : i.operands[k]? = some o := by simpa using List.mem_zipIdx_iff_getElem?.1 hok
    have := slot_lt_size hk
    dsimp only
    omega

theorem head_eq_of_op {i : Instruction} {opcode : Opcode} (hm : i.mnemonic = .op opcode) :
    i.head = [(OpFields.ofModes opcode.code (i.operands.map (·.mode.code))).toWord] := by
  rw [head, hm]

end Instruction

namespace Program

theorem start_nextIndex {q : Program} (h : ∀ i ∈ q, i.Elementary) (n : Nat) :
    q.start (q.nextIndex n) = q.start n := by
  have hlabels : ∀ i ∈ (q.drop n).takeWhile fun i => i.mnemonic = .label, i.size = 0 := by
    intro i hi
    have hm : i.mnemonic = .label := by simpa using List.mem_takeWhile_imp hi
    have hmem : i ∈ q := List.mem_of_mem_drop ((List.takeWhile_sublist _).subset hi)
    exact Instruction.size_of_label (h i hmem) hm
  have hprefix : (q.drop n).take ((q.drop n).takeWhile fun i => i.mnemonic = .label).length =
      (q.drop n).takeWhile fun i => i.mnemonic = .label :=
    List.prefix_iff_eq_take.1 (List.takeWhile_prefix _) |>.symm
  rw [start, nextIndex, List.take_add, hprefix, List.map_append, List.sum_append, start]
  have hsum : (((q.drop n).takeWhile fun i => i.mnemonic = .label).map Instruction.size).sum = 0 :=
    List.sum_eq_zero_iff_forall_eq_nat.2 (by simpa using hlabels)
  rw [hsum, Nat.add_zero]

theorem not_label_nextIndex {q : Program} {n : Nat} {i : Instruction}
    (h : q[q.nextIndex n]? = some i) : i.mnemonic ≠ .label := by
  set isLabel : Instruction → Bool := fun i => i.mnemonic = .label
  have hdrop (l : List Instruction) : l.drop (l.takeWhile isLabel).length = l.dropWhile isLabel :=
    calc l.drop (l.takeWhile isLabel).length
        = (l.takeWhile isLabel ++ l.dropWhile isLabel).drop (l.takeWhile isLabel).length := by
          rw [List.takeWhile_append_dropWhile]
      _ = l.dropWhile isLabel := List.drop_left
  have hhead : ((q.drop n).dropWhile isLabel).head? = some i := by
    rw [← hdrop, List.head?_drop, List.getElem?_drop]
    exact h
  have hnot := List.head?_dropWhile_not isLabel (q.drop n)
  simpa [hhead, isLabel] using hnot

theorem mem_table {q : Program} {s : Symbol} :
    s ∈ q.table.symbols ↔ ∃ (n : Nat) (i : Instruction), q[n]? = some i ∧ s ∈ i.symbols (q.start n) := by
  rw [table, mem_symbolsFrom]
  simp only [Nat.zero_add]

theorem address?_of_mem {q : Program} (hdistinct : q.declaredNames.Nodup) {n : Nat} {i : Instruction}
    (hi : q[n]? = some i) {s : Symbol} (hs : s ∈ i.symbols (q.start n)) :
    q.table.address? s.name = some s.address :=
  SymbolTable.address?_eq_some_of_mem (by rwa [table, names_symbolsFrom]) (mem_table.2 ⟨n, i, hi, hs⟩)

theorem address?_of_anchor {q : Program} (hdistinct : q.declaredNames.Nodup) {n k : Nat}
    {i : Instruction} {o : Operand} (hi : q[n]? = some i) (hm : i.mnemonic ≠ .label)
    (ho : i.operands[k]? = some o) (ha : o.isAnchor = true) :
    q.table.address? o.name = some ((q.start n + (i.headSize + k) : Nat) : Int) := by
  have hs := Instruction.mem_symbols_of_anchor hm ho ha (q.start n)
  rw [address?_of_mem hdistinct hi hs, Nat.add_assoc]

theorem address?_of_label {q : Program} (hdistinct : q.declaredNames.Nodup) {n : Nat}
    {i : Instruction} (hi : q[n]? = some i) (hm : i.mnemonic = .label) :
    q.table.address? i.label = some ((q.start n : Nat) : Int) := by
  have hs : ⟨i.label, (q.start n : Int), i.line⟩ ∈ i.symbols (q.start n) := by
    simp [Instruction.mem_symbols_of_label hm]
  exact address?_of_mem hdistinct hi hs

theorem getElem?_operand {q : Program} (t : SymbolTable) {n k : Nat} {i : Instruction} {o : Operand}
    (hi : q[n]? = some i) (ho : i.operands[k]? = some o) :
    (q.words t)[q.start n + (i.headSize + k)]? = some (o.word t) := by
  rw [getElem?_words t hi (Instruction.slot_lt_size ho), Instruction.getElem?_words_operand t ho]

theorem getElem?_anchor {q : Program} (t : SymbolTable) {n k : Nat} {i : Instruction} {o : Operand}
    (hi : q[n]? = some i) (ho : i.operands[k]? = some o) (ha : o.isAnchor = true) :
    (q.words t)[q.start n + (i.headSize + k)]? = some o.value := by
  rw [getElem?_operand t hi ho, Operand.word_of_isAnchor ha]

end Program

namespace Assembly

/-- The offset of an instruction: the sizes that the layouts give to all before it. -/
def start (a : Assembly) (n : Nat) : Nat := Layout.total (a.layouts.take n)

/-- Where the words of an assembled program lie. -/
structure Placed (a : Assembly) : Prop where
  declared : ∀ name, (a.symbols.address? name).isSome = true ↔ name ∈ a.lowered.declaredNames
  anchor : ∀ (n : Nat) (i : Instruction) (opcode : Opcode) (k : Nat) (o : Operand),
    a.lowered[n]? = some i → i.mnemonic = .op opcode → i.operands[k]? = some o →
      o.isAnchor = true → a.symbols.address? o.name = some ((a.start n + 1 + k : Nat) : Int) ∧
        a.image[a.start n + 1 + k]? = some o.value
  data : ∀ (n : Nat) (i : Instruction), a.lowered[n]? = some i → i.mnemonic = .data →
    ∃ o, i.operands = [o] ∧ a.symbols.address? o.name = some ((a.start n : Nat) : Int) ∧
      a.image[a.start n]? = some o.value
  label : ∀ (n : Nat) (i : Instruction), a.lowered[n]? = some i → i.mnemonic = .label →
    a.symbols.address? i.label = some ((a.start (a.lowered.nextIndex n) : Nat) : Int)
  length : a.start a.lowered.length = a.image.length
  bounded : ∀ name x, a.symbols.address? name = some x → 0 ≤ x ∧ x ≤ a.image.length ∧
    (a.lowered.DeclaresWord name → x < a.image.length)
  distinct : ∀ name name' x, a.lowered.DeclaresWord name → a.lowered.DeclaresWord name' →
    a.symbols.address? name = some x → a.symbols.address? name' = some x → name = name'
  apart : ∀ name x (n : Nat) (i : Instruction) (opcode : Opcode), a.lowered.DeclaresWord name →
    a.symbols.address? name = some x → a.lowered[n]? = some i → i.mnemonic = .op opcode →
      x ≠ a.start n

theorem start_assembly {p : Program} (h : p.WellFormed) (n : Nat) :
    p.assembly.start n = p.expanded.start n := by
  have htake : ∀ i ∈ p.expanded.take n, i.Elementary := fun i hi =>
    Program.elementary_expanded h.instructions i (List.mem_of_mem_take hi)
  rw [Program.start, ← Program.total_layouts htake, Program.layouts, List.map_take]
  rfl

end Assembly

namespace Program

variable {p : Program}

theorem WellFormed.exists_place (h : p.WellFormed) {name : String}
    (hname : p.expanded.DeclaresWord name) :
    ∃ (n k : Nat) (i : Instruction) (o : Operand), p.expanded[n]? = some i ∧
      i.operands[k]? = some o ∧ o.isAnchor = true ∧ o.name = name ∧
      p.expanded.table.address? name =
        some ((p.expanded.start n + (i.headSize + k) : Nat) : Int) := by
  obtain ⟨i, hi, o, ho, ha, rfl⟩ := hname
  obtain ⟨n, hn, rfl⟩ := List.getElem_of_mem hi
  obtain ⟨k, hk, rfl⟩ := List.getElem_of_mem ho
  have hel := elementary_expanded h.instructions _ hi
  have hm : p.expanded[n].mnemonic ≠ .label := fun hm => by simp [hel.operands_label hm] at hk
  have hn' : p.expanded[n]? = some p.expanded[n] := List.getElem?_eq_getElem hn
  have hk' := List.getElem?_eq_getElem hk
  exact ⟨n, k, _, _, hn', hk', ha, rfl, address?_of_anchor h.distinct hn' hm hk' ha⟩

/-- No address lies outside the image, and only that of a label lies right behind it. -/
theorem WellFormed.address_bounds (h : p.WellFormed) {name : String} {x : Int}
    (hx : p.expanded.table.address? name = some x) :
    0 ≤ x ∧ x ≤ p.assembly.image.length ∧
      (p.expanded.DeclaresWord name → x < p.assembly.image.length) := by
  obtain ⟨s, hs, rfl⟩ := Option.map_eq_some_iff.1 hx
  obtain ⟨n, i, hi, hmem⟩ := mem_table.1 (SymbolTable.mem_of_find?_eq_some hs).1
  have haddr := Instruction.address_le_of_mem_symbols hmem
  have hfit : p.expanded.start n + i.size ≤ p.assembly.image.length :=
    start_add_size_le hi p.expanded.table
  refine ⟨haddr.1, by omega, fun hname => ?_⟩
  obtain ⟨m, k, j, o, hj, ho, -, -, hplace⟩ := h.exists_place hname
  have hslot := Instruction.slot_lt_size ho
  have hfit : p.expanded.start m + j.size ≤ p.assembly.image.length :=
    start_add_size_le hj p.expanded.table
  have hx : s.address = ((p.expanded.start m + (j.headSize + k) : Nat) : Int) :=
    Option.some.inj (hx.symm.trans hplace)
  omega

theorem WellFormed.name_inj (h : p.WellFormed) {name name' : String} {x : Int}
    (hname : p.expanded.DeclaresWord name) (hname' : p.expanded.DeclaresWord name')
    (hx : p.expanded.table.address? name = some x) (hx' : p.expanded.table.address? name' = some x) :
    name = name' := by
  obtain ⟨n, k, i, o, hi, ho, -, rfl, hplace⟩ := h.exists_place hname
  obtain ⟨m, l, j, o', hj, ho', -, rfl, hplace'⟩ := h.exists_place hname'
  have heq := Option.some.inj (hplace.symm.trans (hx.trans (hx'.symm.trans hplace')))
  obtain ⟨rfl, hkl⟩ := start_add_inj hi hj (Instruction.slot_lt_size ho)
    (Instruction.slot_lt_size ho') (by exact_mod_cast heq)
  cases hi.symm.trans hj
  cases Nat.add_left_cancel hkl
  cases ho.symm.trans ho'
  rfl

theorem WellFormed.address_ne_start (h : p.WellFormed) {name : String} {x : Int} {n : Nat}
    {i : Instruction} {opcode : Opcode} (hname : p.expanded.DeclaresWord name)
    (hx : p.expanded.table.address? name = some x) (hi : p.expanded[n]? = some i)
    (hm : i.mnemonic = .op opcode) : x ≠ p.expanded.start n := by
  rintro rfl
  obtain ⟨n', k, i', o, hi', ho, -, -, hplace⟩ := h.exists_place hname
  have heq := Option.some.inj (hplace.symm.trans hx)
  obtain ⟨rfl, hk⟩ := start_add_inj hi' hi (Instruction.slot_lt_size ho)
    (Instruction.size_pos_of_op hm) (by exact_mod_cast heq)
  cases hi'.symm.trans hi
  simp [hm] at hk

theorem WellFormed.placed (h : p.WellFormed) : p.assembly.Placed := by
  have hel := elementary_expanded h.instructions
  have hstart := Assembly.start_assembly h
  constructor
  case declared =>
    intro name
    change (p.expanded.table.address? name).isSome = true ↔ _
    rw [SymbolTable.address?_isSome_iff, table, names_symbolsFrom]
    rfl
  case anchor =>
    intro n i opcode k o hi hm ho ha
    have haddr := address?_of_anchor h.distinct hi (by simp [hm]) ho ha
    have himage := getElem?_anchor (q := p.expanded) p.expanded.table hi ho ha
    rw [Instruction.headSize_of_op hm, ← Nat.add_assoc, ← hstart n] at haddr himage
    exact ⟨haddr, himage⟩
  case data =>
    intro n i hi hm
    obtain ⟨o, hops, hk⟩ := (hel i (List.mem_of_getElem? hi)).operands_data hm
    have ho : i.operands[0]? = some o := by simp [hops]
    have ha : o.isAnchor = true := by simp [Operand.isAnchor, hk]
    have haddr := address?_of_anchor h.distinct hi (by simp [hm]) ho ha
    have himage := getElem?_anchor (q := p.expanded) p.expanded.table hi ho ha
    simp only [Instruction.headSize_of_data hm, Nat.add_zero, ← hstart n] at haddr himage
    exact ⟨o, hops, haddr, himage⟩
  case label =>
    intro n i hi hm
    have haddr := address?_of_label h.distinct hi hm
    rw [← start_nextIndex hel, ← hstart] at haddr
    exact haddr
  case length =>
    rw [hstart]
    exact (length_words_eq_start _ _).symm
  case bounded => exact fun name x hx => h.address_bounds hx
  case distinct => exact fun name name' x hname hname' => h.name_inj hname hname'
  case apart =>
    intro name x n i opcode hname hx hi hm
    rw [hstart]
    exact h.address_ne_start hname hx hi hm

end Program

/-- The addresses of the symbol table are the places where the image holds what they name. -/
theorem placed_of_assemble {p : Program} {a : Assembly} (h : p.assemble = .ok a) :
    a.Records p ∧ a.Placed := by
  obtain ⟨hwf, rfl⟩ := Program.assemble_eq_ok_iff.1 h
  exact ⟨hwf.records, hwf.placed⟩

/-- Counts down in a word of its own code, and puts out the numbers. -/
def countdown : Program :=
  [.ofLabel "loop",
    { mnemonic := .op .output, operands := [.pos "n"] },
    { mnemonic := .addInPlace, operands := [.immAnchor "n" 3, .imm (-1)] },
    { mnemonic := .copy, operands := [.pos "x", .pos "n"] },
    { mnemonic := .op .jumpIfTrue, operands := [.pos "x", .ref "loop"] },
    { mnemonic := .op .halt },
    .ofData "x" 7]

theorem assemble_countdown : countdown.assemble = .ok countdown.assembly := by rfl

theorem placed_countdown :
    countdown.assemble = .ok countdown.assembly ∧ countdown.assembly.Records countdown ∧
      countdown.assembly.Placed :=
  ⟨assemble_countdown, placed_of_assemble assemble_countdown⟩

end TapeMachine
