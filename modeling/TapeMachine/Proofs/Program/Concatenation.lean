import TapeMachine.Proofs.Program.Static

/-! Programs that have no name in common, one after the other: the words of the second follow those of
the first, and just the words that stand for its addresses are moved by the length of the first. -/

namespace TapeMachine

def Symbol.shift (s : Symbol) (d : Nat) : Symbol := { s with address := s.address + d }

namespace Instruction

theorem symbols_add (i : Instruction) (start d : Nat) :
    i.symbols (start + d) = (i.symbols start).map (·.shift d) := by
  unfold symbols
  split
  · simp [Symbol.shift]
  · rw [List.map_filterMap]
    congr 1
    funext ⟨o, k⟩
    have haddress : ((start + d + i.headSize + k : Nat) : Int) =
        (start + i.headSize + k : Nat) + (d : Int) := by omega
    simp only [Option.map_map, Function.comp_def, Symbol.shift, haddress]

theorem mem_operands_of_expand {i : Instruction} {o : Operand} (ho : o ∈ i.expand.operands)
    (ha : o.isAnchor = true) : o ∈ i.operands := by
  rcases mem_operands_expand_cases ho with h | hk | ⟨t, -, -, rfl⟩
  · exact h
  · simp [Operand.isAnchor, hk] at ha
  · cases ha

theorem declared_expand_subset (i : Instruction) : i.expand.declared ⊆ i.declared := by
  by_cases hd : i.mnemonic.isDerived = true
  · intro m hm
    have hl : i.mnemonic ≠ .label := fun hl => by simp [hl, Mnemonic.isDerived] at hd
    have hl' : i.expand.mnemonic ≠ .label := fun hl' => hl ((expand_eq_label_iff i).1 hl')
    obtain ⟨o, ho, ha, rfl⟩ := (mem_declared_iff hl').1 hm
    refine (mem_declared_iff hl).2 ⟨o, mem_operands_of_expand ho ha, ha, ?_⟩
    rw [line_expand]
  · rw [expand_of_not_derived (by simpa using hd)]
    exact List.Subset.refl _

end Instruction

namespace Program

variable {p q : Program}

theorem symbolsFrom_add (q : Program) (start d : Nat) :
    q.symbolsFrom (start + d) = (q.symbolsFrom start).map (·.shift d) := by
  induction q generalizing start with
  | nil => rfl
  | cons i q ih =>
    rw [symbolsFrom, symbolsFrom, List.map_append, i.symbols_add, ← ih, Nat.add_right_comm]

theorem symbolsFrom_append (p q : Program) (base : Nat) :
    symbolsFrom base (p ++ q) = p.symbolsFrom base ++ q.symbolsFrom (base + p.start p.length) := by
  -- for any base, as the rest of `p` starts behind its first instruction
  induction p generalizing base with
  | nil => rfl
  | cons i p ih =>
    have hstart : start (i :: p) (i :: p).length = i.size + start p p.length := by simp [start]
    rw [List.cons_append, symbolsFrom, ih, symbolsFrom, List.append_assoc, hstart, Nat.add_assoc]

theorem table_append (p q : Program) :
    table (p ++ q) = ⟨p.table.symbols ++ (q.table.map (·.shift (p.start p.length))).symbols⟩ := by
  rw [table, symbolsFrom_append, symbolsFrom_add]
  rfl

theorem address?_table_append (p q : Program) (name : String) :
    (table (p ++ q)).address? name =
      (p.table.address? name).or ((q.table.address? name).map (· + (p.start p.length : Int))) := by
  have hshift := SymbolTable.address?_map (f := (·.shift (p.start p.length)))
    (g := (· + (p.start p.length : Int))) (fun _ => rfl) (fun _ => rfl) q.table name
  rw [table_append, SymbolTable.address?_append, ← hshift]

theorem declaredNames_append (p q : Program) :
    declaredNames (p ++ q) = p.declaredNames ++ q.declaredNames := by
  simp [declaredNames, declared]

theorem referred_append (p q : Program) : referred (p ++ q) = p.referred ++ q.referred := by
  simp [referred]

theorem expanded_append (p q : Program) : expanded (p ++ q) = p.expanded ++ q.expanded := by
  simp [expanded]

theorem mem_declaredNames_of_expanded {name : String} (h : name ∈ p.expanded.declaredNames) :
    name ∈ p.declaredNames := by
  obtain ⟨m, hm, rfl⟩ := List.mem_map.1 h
  obtain ⟨j, hj, hmj⟩ := List.mem_flatMap.1 hm
  obtain ⟨i, hi, rfl⟩ := List.mem_map.1 hj
  exact List.mem_map_of_mem (List.mem_flatMap.2 ⟨i, hi, i.declared_expand_subset hmj⟩)

theorem words_table_append (hclosed : ∀ r ∈ p.referred, r.name ∈ p.declaredNames) :
    p.words (table (p ++ q)) = p.words p.table := by
  apply words_congr
  intro r hr
  obtain ⟨x, hx⟩ := Option.isSome_iff_exists.1 ((isSome_address?_table p r.name).2 (hclosed r hr))
  rw [address?_table_append, hx, Option.some_or]

theorem word_table_append {name : String} (hq : name ∈ q.declaredNames) (hp : name ∉ p.declaredNames) :
    (table (p ++ q)).word name = q.table.word name + Int64.ofNat (p.start p.length) := by
  obtain ⟨x, hx⟩ := Option.isSome_iff_exists.1 ((isSome_address?_table q name).2 hq)
  have hnone : p.table.address? name = none := by
    rwa [← isSome_address?_table, Option.not_isSome_iff_eq_none] at hp
  rw [SymbolTable.word, address?_table_append, hnone, hx, SymbolTable.word, hx]
  simp only [Option.none_or, Option.map_some, Option.getD_some]
  rw [Int64.ofInt_add, Int64.ofInt_eq_ofNat]

theorem WellFormed.append (hp : p.WellFormed) (hq : q.WellFormed)
    (hdisjoint : ∀ name ∈ p.expanded.declaredNames, name ∉ q.expanded.declaredNames) :
    WellFormed (p ++ q) := by
  constructor
  case instructions => exact List.forall_mem_append.2 ⟨hp.instructions, hq.instructions⟩
  case distinct =>
    rw [expanded_append, declaredNames_append, List.nodup_append]
    refine ⟨hp.distinct, hq.distinct, fun name hname other hother heq => ?_⟩
    exact hdisjoint name hname (heq ▸ hother)
  case closed =>
    rw [expanded_append, declaredNames_append, referred_append]
    refine List.forall_mem_append.2 ⟨fun r hr => ?_, fun r hr => ?_⟩
    · exact List.mem_append_left _ (hp.closed r hr)
    · exact List.mem_append_right _ (hq.closed r hr)

/-- Words that stand for no address do not depend on where names are. -/
theorem getElem?_words_congr {x : Nat} (t t' : SymbolTable)
    (h : ∀ (n k : Nat) (i : Instruction) (o : Operand), q[n]? = some i → i.operands[k]? = some o →
      x = q.start n + (i.headSize + k) → o.isReference = false) :
    (q.words t)[x]? = (q.words t')[x]? := by
  by_cases hx : x < q.start q.length
  · obtain ⟨n, k, i, hi, hk, rfl⟩ := exists_start_add hx
    rw [getElem?_words t hi hk, getElem?_words t' hi hk]
    -- the place is that of an opcode word, or of an operand, which is no reference
    by_cases hhead : k < i.headSize
    · rw [Instruction.getElem?_words_head t hhead, Instruction.getElem?_words_head t' hhead]
    · obtain ⟨l, rfl⟩ := Nat.exists_eq_add_of_le (Nat.le_of_not_lt hhead)
      have hl : l < i.operands.length := by
        unfold Instruction.size at hk
        omega
      have ho := List.getElem?_eq_getElem hl
      have hword (t : SymbolTable) : i.operands[l].word t = i.operands[l].value := by
        rw [Operand.word, h n l i _ hi ho rfl]
        rfl
      rw [Instruction.getElem?_words_operand t ho, Instruction.getElem?_words_operand t' ho, hword, hword]
  · rw [List.getElem?_eq_none (by rw [length_words_eq_start]; omega),
      List.getElem?_eq_none (by rw [length_words_eq_start]; omega)]

end Program

namespace Assembly

/-- The word at `x` stands for the address of a name. -/
def Refers (b : Assembly) (x : Nat) : Prop :=
  ∃ (n k : Nat) (i : Instruction) (o : Operand), b.lowered[n]? = some i ∧ i.operands[k]? = some o ∧
    o.isReference = true ∧ x = b.start n + (i.headSize + k)

/-- The third assembly is the first, followed by the second moved to where the first ends. -/
structure Joined (a b c : Assembly) : Prop where
  first : a.image <+: c.image
  length : c.image.length = a.image.length + b.image.length
  moved : ∀ x w, b.image[x]? = some w → b.Refers x →
    c.image[a.image.length + x]? = some (w + Int64.ofNat a.image.length)
  kept : ∀ x w, b.image[x]? = some w → ¬ b.Refers x → c.image[a.image.length + x]? = some w
  symbols : c.symbols.symbols =
    a.symbols.symbols ++ (b.symbols.map (·.shift a.image.length)).symbols

end Assembly

namespace Program

variable {p q : Program}

theorem WellFormed.joined (hp : p.WellFormed) (hq : q.WellFormed)
    (hdisjoint : ∀ name ∈ p.expanded.declaredNames, name ∉ q.expanded.declaredNames) :
    p.assembly.Joined q.assembly (assembly (p ++ q)) := by
  have hlength : p.expanded.start p.expanded.length = p.assembly.image.length :=
    (length_words_eq_start _ _).symm
  have hword {name : String} (hname : name ∈ q.expanded.declaredNames) :=
    word_table_append hname fun h => hdisjoint name h hname
  have htable := table_append p.expanded q.expanded
  have himage : (assembly (p ++ q)).image =
      p.assembly.image ++ q.expanded.words (table (p.expanded ++ q.expanded)) := by
    have hfirst : p.expanded.words (table (p.expanded ++ q.expanded)) = p.assembly.image :=
      words_table_append hp.closed
    change words (table (expanded (p ++ q))) (expanded (p ++ q)) = _
    rw [expanded_append, ← hfirst]
    exact List.flatMap_append
  have hlast (x : Nat) : (assembly (p ++ q)).image[p.assembly.image.length + x]? =
      (q.expanded.words (table (p.expanded ++ q.expanded)))[x]? := by
    rw [himage, List.getElem?_append_right (by omega), Nat.add_sub_cancel_left]
  rw [hlength] at hword htable
  constructor
  case first => exact himage ▸ List.prefix_append _ _
  case length =>
    have hsecond : q.assembly.image = q.expanded.words q.expanded.table := rfl
    rw [himage, List.length_append, hsecond, length_words, length_words]
  case moved =>
    rintro x w hw ⟨n, k, i, o, hi, ho, hr, rfl⟩
    have hi : q.expanded[n]? = some i := hi
    have hknown := hq.closed _ (mem_referred (List.mem_of_getElem? hi) (List.mem_of_getElem? ho) hr)
    rw [Assembly.start_assembly hq] at hw ⊢
    cases (getElem?_operand q.expanded.table hi ho).symm.trans hw
    rw [hlast, getElem?_operand _ hi ho, Operand.word, Operand.word, if_pos hr, if_pos hr,
      hword hknown]
  case kept =>
    intro x w hw hnot
    rw [hlast, ← hw]
    refine getElem?_words_congr _ _ fun n k i o hi ho hx => ?_
    by_contra hr
    exact hnot ⟨n, k, i, o, hi, ho, by simpa using hr, by rwa [Assembly.start_assembly hq]⟩
  case symbols =>
    change (table (expanded (p ++ q))).symbols = _
    rw [expanded_append, htable]
    rfl

end Program

/-- Programs may be assembled one by one and put one after the other. -/
theorem joined_of_assemble {p q : Program} {a b : Assembly} (hp : p.assemble = .ok a)
    (hq : q.assemble = .ok b) (hdisjoint : ∀ name ∈ p.declaredNames, name ∉ q.declaredNames) :
    ∃ c, Program.assemble (p ++ q) = .ok c ∧ a.Joined b c := by
  obtain ⟨hwp, rfl⟩ := Program.assemble_eq_ok_iff.1 hp
  obtain ⟨hwq, rfl⟩ := Program.assemble_eq_ok_iff.1 hq
  have hexpanded : ∀ name ∈ p.expanded.declaredNames, name ∉ q.expanded.declaredNames := by
    intro name hname hname'
    exact hdisjoint name (Program.mem_declaredNames_of_expanded hname)
      (Program.mem_declaredNames_of_expanded hname')
  exact ⟨_, (hwp.append hwq hexpanded).assemble_eq_ok, hwp.joined hwq hexpanded⟩

/-- Doubles a word of its own code until nothing is left of it. -/
def overflowing : Program :=
  [.ofLabel "again",
    { mnemonic := .mulInPlace, operands := [.immAnchor "m" 5, .imm 2] },
    { mnemonic := .copy, operands := [.pos "y", .pos "m"] },
    { mnemonic := .op .jumpIfTrue, operands := [.pos "y", .ref "again"] },
    { mnemonic := .op .halt },
    .ofData "y" 0]

theorem joined_countdown_overflowing :
    countdown.assemble = .ok countdown.assembly ∧ overflowing.assemble = .ok overflowing.assembly ∧
      overflowing.assembly.image = [1102, 5, 2, 1, 1001, 1, 0, 12, 1005, 12, 0, 99, 0] ∧
      (∀ name ∈ countdown.declaredNames, name ∉ overflowing.declaredNames) ∧
      ∃ c, Program.assemble (countdown ++ overflowing) = .ok c ∧
        countdown.assembly.Joined overflowing.assembly c := by
  have hoverflowing : overflowing.assemble = .ok overflowing.assembly := by rfl
  have hdisjoint : ∀ name ∈ countdown.declaredNames, name ∉ overflowing.declaredNames := by decide
  exact ⟨assemble_countdown, hoverflowing, by decide, hdisjoint,
    joined_of_assemble assemble_countdown hoverflowing hdisjoint⟩

end TapeMachine
