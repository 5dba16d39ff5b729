import Std.Data.HashMap
import TapeMachine.Word

/-! Tapes: words at the addresses below a capacity, all zero at first. Three representations hold
the same words; `Tape.read?` is the view through which they agree. -/

namespace TapeMachine

inductive TapeKind where
  | fixed
  | growable
  | sparse
  deriving DecidableEq

namespace TapeKind

def all : List TapeKind := [fixed, growable, sparse]

def name : TapeKind → String
  | fixed => "fixed"
  | growable => "growable"
  | sparse => "sparse"

end TapeKind

/-- A fixed tape stores every word. A growable one stores the words up to the last address that was
given something other than zero, a sparse one the words other than zero. -/
inductive Tape where
  | fixed (limit : Address) (words : Vector Word limit.toNat)
  | growable (limit : Address) (words : Array Word)
  | sparse (limit : Address) (words : Std.HashMap Address Word)

namespace Tape

def defaultLimit : Address := 16777216

def blank (kind : TapeKind) (limit : Address) : Tape :=
  match kind with
  | .fixed => fixed limit (.replicate _ 0)
  | .growable => growable limit #[]
  | .sparse => sparse limit ∅

def kind : Tape → TapeKind
  | fixed _ _ => .fixed
  | growable _ _ => .growable
  | sparse _ _ => .sparse

def capacity : Tape → Address
  | fixed limit _ | growable limit _ | sparse limit _ => limit

def cleared (t : Tape) : Tape := blank t.kind t.capacity

def read? (t : Tape) (a : Address) : Option Word :=
  match t with
  | fixed limit words => if h : a < limit then some words[a.toNat] else none
  | growable limit words => if a < limit then some (words.getD a.toNat 0) else none
  | sparse limit words => if a < limit then some (words.getD a 0) else none

/-- Writes a word and says whether the tape has that address; where it does not, nothing changes. A
growable tape is made longer only for a word other than zero, a sparse one forgets a zero. -/
def write (t : Tape) (a : Address) (w : Word) : Tape × Bool :=
  match t with
  | fixed limit words =>
    if h : a < limit then (fixed limit (words.set a.toNat w h), true) else (fixed limit words, false)
  | growable limit words =>
    if a < limit then
      if a.toNat < words.size then (growable limit (words.setIfInBounds a.toNat w), true)
      else if w = 0 then (growable limit words, true)
      else (growable limit ((words ++ Array.replicate (a.toNat - words.size) 0).push w), true)
    else (growable limit words, false)
  | sparse limit words =>
    if a < limit then
      if w = 0 then (sparse limit (words.erase a), true) else (sparse limit (words.insert a w), true)
    else (sparse limit words, false)

/-- How many words are stored; a fixed tape does not count them. -/
def used? : Tape → Option Nat
  | fixed _ _ => none
  | growable _ words => some words.size
  | sparse _ words => some words.size

/-- Writes words from an address on, until one cannot be written, and says whether all of them
were. -/
def load (t : Tape) (a : Address) : List Word → Tape × Bool
  | [] => (t, true)
  | w :: ws =>
    match t.write a w with
    | (t, true) => t.load (a + 1) ws
    | (t, false) => (t, false)

end Tape
end TapeMachine
