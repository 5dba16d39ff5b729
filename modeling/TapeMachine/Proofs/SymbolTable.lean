import TapeMachine.Program.Resolved
import TapeMachine.Proofs.Passes

/-! Symbol tables as lists of symbols with distinct names. Declaring symbols one after another adds
them all if no name comes twice; otherwise it refuses the first whose name is there already. -/

namespace TapeMachine
namespace SymbolTable

def names (t : SymbolTable) : List String := t.symbols.map (·.name)

theorem find?_eq_some_of_mem {t : SymbolTable} (h : t.names.Nodup) {s : Symbol}
    (hs : s ∈ t.symbols) : t.find? s.name = some s :=
  find?_key_eq_some h hs

theorem mem_of_find?_eq_some {t : SymbolTable} {name : String} {s : Symbol}
    (h : t.find? name = some s) : s ∈ t.symbols ∧ s.name = name :=
  ⟨List.mem_of_find?_eq_some h, by simpa using List.find?_some h⟩

theorem contains_iff (t : SymbolTable) (name : String) : t.contains name = true ↔ name ∈ t.names := by
  rw [contains, find?, List.find?_isSome]
  simp [names]

theorem address?_isSome_iff (t : SymbolTable) (name : String) :
    (t.address? name).isSome = true ↔ name ∈ t.names := by
  rw [← contains_iff, address?, contains, Option.isSome_map]

theorem address?_eq_some_of_mem {t : SymbolTable} (h : t.names.Nodup) {s : Symbol}
    (hs : s ∈ t.symbols) : t.address? s.name = some s.address := by
  rw [address?, find?_eq_some_of_mem h hs, Option.map_some]

theorem lineOf_eq_of_mem {t : SymbolTable} (h : t.names.Nodup) {s : Symbol} (hs : s ∈ t.symbols) :
    t.lineOf s.name = s.line := by
  rw [lineOf, find?_eq_some_of_mem h hs]

def map (t : SymbolTable) (f : Symbol → Symbol) : SymbolTable := ⟨t.symbols.map f⟩

/-- What is done to every symbol but its name shows in the address that is found. -/
theorem address?_map {f : Symbol → Symbol} {g : Int → Int} (hname : ∀ s, (f s).name = s.name)
    (haddress : ∀ s, (f s).address = g s.address) (t : SymbolTable) (name : String) :
    (t.map f).address? name = (t.address? name).map g := by
  simp only [address?, find?, map, List.find?_map, Function.comp_def, hname, Option.map_map, haddress]

/-- A name is looked for among later symbols where earlier ones do not have it. -/
theorem address?_append (symbols rest : List Symbol) (name : String) :
    address? ⟨symbols ++ rest⟩ name = (address? ⟨symbols⟩ name).or (address? ⟨rest⟩ name) := by
  simp only [address?, find?, List.find?_append, Option.map_or]

theorem declare_eq_ok {t : SymbolTable} {s : Symbol} (h : s.name ∉ t.names) :
    t.declare s = .ok ⟨t.symbols ++ [s]⟩ := by
  have hc : ¬ t.contains s.name = true := by rwa [contains_iff]
  rw [declare, insert?, if_neg hc]

theorem declare_eq_error {t : SymbolTable} {s : Symbol} (h : s.name ∈ t.names) :
    t.declare s = .error { cause := .duplicate s.name (t.lineOf s.name), line := s.line } := by
  rw [declare, insert?, if_pos ((contains_iff t _).2 h)]

theorem foldlM_declare_eq_ok {l : List Symbol} {t : SymbolTable}
    (h : (names ⟨t.symbols ++ l⟩).Nodup) : l.foldlM declare t = .ok ⟨t.symbols ++ l⟩ := by
  induction l generalizing t with
  | nil => simp
  | cons s l ih =>
    have hs : s.name ∉ t.names := by
      intro hmem
      rw [names, List.map_append, List.nodup_append] at h
      exact h.2.2 _ hmem s.name (by simp) rfl
    have hl : (names ⟨(t.symbols ++ [s]) ++ l⟩).Nodup := by simpa [names] using h
    rw [List.foldlM_cons, declare_eq_ok hs, ok_bind, ih (t := ⟨t.symbols ++ [s]⟩) hl]
    simp

theorem foldlM_declare_eq_error {pre post : List Symbol} {s first : Symbol}
    (hpre : (names ⟨pre⟩).Nodup) (hfirst : first ∈ pre) (hname : first.name = s.name) :
    (pre ++ s :: post).foldlM declare {} =
      .error { cause := .duplicate s.name first.line, line := s.line } := by
  have h : pre.foldlM declare {} = .ok ⟨pre⟩ := foldlM_declare_eq_ok (t := {}) hpre
  have hmem : s.name ∈ names ⟨pre⟩ := hname ▸ List.mem_map_of_mem hfirst
  have hline : lineOf ⟨pre⟩ s.name = first.line := hname ▸ lineOf_eq_of_mem hpre hfirst
  rw [List.foldlM_append, h, ok_bind, List.foldlM_cons, declare_eq_error hmem, error_bind, hline]

end SymbolTable
end TapeMachine
