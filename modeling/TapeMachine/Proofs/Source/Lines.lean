import TapeMachine.Proofs.Program.Lines
import TapeMachine.Proofs.Source.Token

/-! Texts read line by line. A line is read the same wherever it stands, and what stands before a text
only moves it down: a text that is put before another one decides by itself if it has a fault, and else
leaves the other one to be read as it is by itself, that many lines further down. -/

namespace TapeMachine

namespace Text

theorem length_splitOn (cs : List Char) : (cs.splitOn '\n').length = 1 + cs.count '\n' := by
  induction cs with
  | nil => rfl
  | cons c cs ih =>
    rw [List.splitOn_cons_eq_if_modifyHead, List.count_cons]
    split
    · rw [List.length_cons, ih, Nat.add_assoc]
    · rw [List.length_modifyHead, ih, Nat.add_zero]

/-- An empty piece at the end is all that is left out of the lines. -/
theorem splitOn_eq_lines (cs : List Char) :
    cs.splitOn '\n' = lines cs ∨ cs.splitOn '\n' = lines cs ++ [[]] := by
  unfold lines
  dsimp only
  split
  · rename_i hlast
    exact .inr (List.dropLast_append_getLast? _ hlast).symm
  · exact .inl rfl

theorem lines_append (a b : List Char) : lines (a ++ '\n' :: b) = a.splitOn '\n' ++ lines b := by
  have hne : b.splitOn '\n' ≠ [] := List.splitOn_ne_nil _ _
  simp only [lines, List.splitOn_append_cons_self, List.getLast?_append_of_ne_nil _ hne]
  split
  · rw [List.dropLast_append_of_ne_nil hne]
  · rfl

end Text

def Error.onLine (e : Error) (line : UInt32) : Error := { e with line }

def Error.later (e : Error) (n : Nat) : Error := e.onLine (UInt32.ofNat n + e.line)

def Instruction.later (i : Instruction) (n : Nat) : Instruction := i.onLine (UInt32.ofNat n + i.line)

namespace Instruction

theorem checkOperands_onLine (i : Instruction) (line : UInt32) :
    (i.onLine line).checkOperands = i.checkOperands.mapError (·.onLine line) := by
  have hwrite : (i.onLine line).unwritable? = i.unwritable? := rfl
  have hoperands : (i.onLine line).operands = i.operands := rfl
  rw [checkOperands, checkOperands, hwrite, hoperands]
  cases misnamed? i.operands <;> cases i.unwritable? <;> rfl

theorem check_onLine_eq (i : Instruction) (line : UInt32) :
    (i.onLine line).check = i.check.mapError (·.onLine line) := by
  have hoperands := i.checkOperands_onLine line
  obtain ⟨m, operands, label, line'⟩ := i
  simp only [onLine] at hoperands ⊢
  unfold check
  dsimp only
  split
  · rfl
  · cases m <;> dsimp only
    case label => split <;> rfl
    case data =>
      split
      · rfl
      · exact hoperands
    all_goals exact hoperands

theorem readLine_eq (chars : List Char) (line : UInt32) :
    readLine chars line =
      ((readLine chars 0).map (Option.map (·.onLine line))).mapError (·.onLine line) := by
  unfold readLine
  split
  · rfl
  · rename_i word arguments _
    cases readTokens word arguments with
    | error cause => rfl
    | ok i =>
      change ((i.onLine line).check >>= fun _ => .ok (some (i.onLine line))) =
        (((i.onLine 0).check >>= fun _ => .ok (some (i.onLine 0))).map (Option.map (·.onLine line))).mapError
          (·.onLine line)
      rw [check_onLine_eq, check_onLine_eq]
      cases i.check <;> rfl

end Instruction

namespace Program

theorem readLines_cons (chars : List Char) (n : Nat) (lines : List (List Char × Nat)) :
    readLines ((chars, n) :: lines) = do
      let i? ← Instruction.readLine chars (UInt32.ofNat n)
      let p ← readLines lines
      return i?.toList ++ p := by
  simp only [readLines, List.mapM_cons]
  cases Instruction.readLine chars (UInt32.ofNat n) with
  | error e => rfl
  | ok i? =>
    cases lines.mapM fun line => Instruction.readLine line.1 (UInt32.ofNat line.2) with
    | error e => rfl
    | ok is => cases i? <;> rfl

theorem readLines_append (lines lines' : List (List Char × Nat)) :
    readLines (lines ++ lines') = do
      let p ← readLines lines
      let q ← readLines lines'
      return p ++ q := by
  induction lines with
  | nil => simp [readLines]
  | cons line lines ih =>
    rw [List.cons_append, readLines_cons, readLines_cons, ih]
    simp only [bind_assoc, pure_bind, List.append_assoc]

theorem readLines_blank (n : Nat) : readLines [([], n)] = .ok [] := rfl

/-- The lines of a text are those that end with a line feed, and one that may be empty. -/
theorem read_eq_readLines (text : String) :
    read text = readLines ((text.toList.splitOn '\n').zipIdx 1) := by
  rw [read]
  rcases Text.splitOn_eq_lines text.toList with h | h
  · rw [h]
  · rw [h, List.zipIdx_append, readLines_append, List.zipIdx_singleton, readLines_blank]
    cases readLines ((Text.lines text.toList).zipIdx 1) <;> simp

theorem readLines_add (lines : List (List Char)) (n k : Nat) :
    readLines (lines.zipIdx (n + k)) =
      ((readLines (lines.zipIdx k)).map (List.map (·.later n))).mapError (·.later n) := by
  have hadd (k : Nat) : UInt32.ofNat (n + k) = UInt32.ofNat n + UInt32.ofNat k := UInt32.ofNat_add n k
  induction lines generalizing k with
  | nil => rfl
  | cons chars lines ih =>
    rw [List.zipIdx_cons, List.zipIdx_cons, readLines_cons, readLines_cons, Nat.add_assoc, ih,
      Instruction.readLine_eq _ (UInt32.ofNat (n + k)), Instruction.readLine_eq _ (UInt32.ofNat k), hadd]
    cases Instruction.readLine chars 0 with
    | error e => rfl
    | ok i? =>
      cases readLines (lines.zipIdx (k + 1)) with
      | error e => rfl
      | ok p => cases i? <;> rfl

def linesTold : Except Error Program → List UInt32
  | .error e => [e.line]
  | .ok p => p.map (·.line)

theorem exists_of_mem_linesTold {lines : List (List Char)} {k : Nat} {line : UInt32}
    (h : line ∈ linesTold (readLines (lines.zipIdx k))) :
    ∃ j < lines.length, line = UInt32.ofNat (k + j) := by
  induction lines generalizing k with
  | nil => cases h
  | cons chars lines ih =>
    have hbehind (h : line ∈ linesTold (readLines (lines.zipIdx (k + 1)))) :
        ∃ j < (chars :: lines).length, line = UInt32.ofNat (k + j) := by
      obtain ⟨j, hj, rfl⟩ := ih h
      exact ⟨j + 1, Nat.succ_lt_succ hj, by rw [Nat.add_assoc, Nat.add_comm 1 j]⟩
    rw [List.zipIdx_cons, readLines_cons, Instruction.readLine_eq] at h
    cases hread : Instruction.readLine chars 0 with
    | error e =>
      rw [hread] at h
      exact ⟨0, Nat.succ_pos _, List.mem_singleton.1 h⟩
    | ok i? =>
      rw [hread] at h
      cases hlines : readLines (lines.zipIdx (k + 1)) with
      | error e =>
        rw [hlines] at h hbehind
        exact hbehind h
      | ok p =>
        rw [hlines] at h hbehind
        cases i? with
        | none => exact hbehind h
        | some i =>
          rcases List.mem_cons.1 h with rfl | h
          · exact ⟨0, Nat.succ_pos _, rfl⟩
          · exact hbehind h

/-- One text and then, on the lines below it, another. -/
theorem read_append (a b : String) {n : Nat} (hn : n = 1 + a.toList.count '\n') :
    read (a ++ "\n" ++ b) = do
      let p ← read a
      let q ← ((read b).map (List.map (·.later n))).mapError (·.later n)
      return p ++ q := by
  have htext : (a ++ "\n" ++ b).toList = a.toList ++ '\n' :: b.toList := by simp
  rw [read, htext, Text.lines_append, List.zipIdx_append, readLines_append, ← read_eq_readLines,
    Text.length_splitOn, ← hn, Nat.add_comm 1, readLines_add, ← read]

/-- No line that is told of lies behind the last one of the text. -/
theorem toNat_add_line {a b : String} {n : Nat} (hn : n = 1 + a.toList.count '\n')
    (h : (Text.lines (a ++ "\n" ++ b).toList).length < 2 ^ 32) {line : UInt32}
    (hline : line ∈ linesTold (read b)) : (UInt32.ofNat n + line).toNat = n + line.toNat := by
  have htext : (a ++ "\n" ++ b).toList = a.toList ++ '\n' :: b.toList := by simp
  rw [htext, Text.lines_append, List.length_append, Text.length_splitOn, ← hn] at h
  obtain ⟨j, hj, rfl⟩ := exists_of_mem_linesTold hline
  rw [← UInt32.ofNat_add, UInt32.toNat_ofNat_of_lt' (by rw [UInt32.size]; omega),
    UInt32.toNat_ofNat_of_lt' (by rw [UInt32.size]; omega)]

/-- A text that is put before another one is read as it is alone, and a fault of it is the one that is
found. Where it has none the other one is read as it is alone, further down by the lines before it; the
numbers of the lines do not wrap as long as there are few enough of them. -/
theorem read_joined {a b : String} {n : Nat} (hn : n = 1 + a.toList.count '\n') :
    (∀ e, read a = .error e → read (a ++ "\n" ++ b) = .error e) ∧
      (∀ p e, read a = .ok p → read b = .error e →
        read (a ++ "\n" ++ b) = .error (e.later n) ∧
          (e.later n).kind = e.kind ∧ (e.later n).message = e.message) ∧
      (∀ p q, read a = .ok p → read b = .ok q →
        read (a ++ "\n" ++ b) = .ok (p ++ q.map (·.later n))) ∧
      ((Text.lines (a ++ "\n" ++ b).toList).length < 2 ^ 32 →
        ∀ line ∈ linesTold (read b), (UInt32.ofNat n + line).toNat = n + line.toNat) := by
  have hread := read_append a b hn
  refine ⟨?_, ?_, ?_, ?_⟩
  · intro e ha
    rw [hread, ha]
    rfl
  · intro p e ha hb
    refine ⟨?_, rfl, rfl⟩
    rw [hread, ha, hb]
    rfl
  · intro p q ha hb
    rw [hread, ha, hb]
    rfl
  · exact fun h line => toNat_add_line hn h

/-- A text that ends in an empty line, behind one with an operand too many, before it, and before one
without a fault. -/
theorem read_joined_commented :
    read ("\nout 7, 8" ++ "\n" ++ "LBL x ; here\n") =
        .error { cause := .operandCount (.op .output) 2, line := 2 } ∧
      read ("LBL x ; here\n" ++ "\n" ++ "\nout 7, 8") =
        .error { cause := .operandCount (.op .output) 2, line := 4 } ∧
      read ("LBL x ; here\n" ++ "\n" ++ "VAR y -3\r\n") =
        .ok [(Instruction.ofLabel "x").onLine 1, (Instruction.ofData "y" (-3)).onLine 3] ∧
      (UInt32.ofNat 2 + 2).toNat = 2 + (2 : UInt32).toNat := by
  have hfirst : read "LBL x ; here\n" = .ok [(Instruction.ofLabel "x").onLine 1] := by decide +kernel
  have hfault : read "\nout 7, 8" = .error { cause := .operandCount (.op .output) 2, line := 2 } := by
    decide +kernel
  have hdata : read "VAR y -3\r\n" = .ok [(Instruction.ofData "y" (-3)).onLine 1] := by decide +kernel
  have htold : 2 ∈ linesTold (read "\nout 7, 8") := by
    rw [hfault]
    exact List.mem_singleton_self 2
  refine ⟨?_, ?_, ?_, ?_⟩
  · exact (read_joined rfl).1 _ hfault
  · exact ((read_joined rfl).2.1 _ _ hfirst hfault).1
  · exact (read_joined rfl).2.2.1 _ _ hfirst hdata
  · exact (read_joined (a := "LBL x ; here\n") rfl).2.2.2 (by decide +kernel) 2 htold

end Program
end TapeMachine
