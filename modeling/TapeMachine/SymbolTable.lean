import TapeMachine.Error
import TapeMachine.Layout

/-! The names that a program declares, with their addresses. A name is declared once; the table
keeps its symbols in the order of their declarations. -/

namespace TapeMachine

structure Symbol where
  name : String
  address : Int
  line : UInt32
  deriving DecidableEq

structure SymbolTable where
  symbols : List Symbol := []
  deriving DecidableEq

namespace SymbolTable

def find? (t : SymbolTable) (name : String) : Option Symbol := t.symbols.find? (·.name = name)

def contains (t : SymbolTable) (name : String) : Bool := (t.find? name).isSome

def address? (t : SymbolTable) (name : String) : Option Int := (t.find? name).map (·.address)

/-- The line of a declaration, 0 for a name that is not declared. -/
def lineOf (t : SymbolTable) (name : String) : UInt32 :=
  match t.find? name with
  | some s => s.line
  | none => 0

def size (t : SymbolTable) : Nat := t.symbols.length

def insert? (t : SymbolTable) (s : Symbol) : Option SymbolTable :=
  if t.contains s.name then none else some ⟨t.symbols ++ [s]⟩

def sorted (t : SymbolTable) : List Symbol := t.symbols.mergeSort fun a b => a.name ≤ b.name

end SymbolTable

namespace Layout

def declarations (l : Layout) (start : Int) (line : UInt32) : List Symbol :=
  l.anchors.toList.zipIdx.filterMap fun (anchor, slot) =>
    anchor.map fun name => ⟨name, start + 1 + slot + l.adjust, line⟩

end Layout

namespace SymbolTable

def declare (t : SymbolTable) (s : Symbol) : Except Error SymbolTable :=
  match t.insert? s with
  | some t => .ok t
  | none => .error { cause := .duplicate s.name (t.lineOf s.name), line := s.line }

end SymbolTable

namespace Program

def declarations (start : Int) : List (Instruction × Layout) → List Symbol
  | [] => []
  | (i, l) :: rest => l.declarations start i.line ++ declarations (start + l.size) rest

def symbolTable (p : Program) (layouts : List Layout) : Except Error SymbolTable :=
  if layouts.length ≠ p.length then .error { cause := .layoutCount }
  else (declarations 0 (p.zip layouts)).foldlM SymbolTable.declare {}

end Program
end TapeMachine
