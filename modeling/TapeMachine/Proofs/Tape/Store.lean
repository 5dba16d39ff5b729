import Mathlib.Data.List.Induction
import Mathlib.Data.Set.Card
import TapeMachine.Proofs.Tape

/-! Tapes in use. After any reads, writes and clears a tape holds at each of its addresses the last
word written there since it was cleared. Tapes of all kinds answer alike; how they store their words
shows in nothing but the number that they count. -/

namespace TapeMachine
namespace Tape

inductive Call where
  | read (a : Address)
  | write (a : Address) (w : Word)
  | clear
  deriving DecidableEq

/-- A read outside the tape finds no word, a write there is not done. -/
inductive Answer where
  | word (found : Option Word)
  | stored (done : Bool)
  | cleared
  deriving DecidableEq

def perform (t : Tape) : Call → Answer × Tape
  | .read a => (.word (t.read? a), t)
  | .write a w => (.stored (t.write a w).2, (t.write a w).1)
  | .clear => (.cleared, t.cleared)

/-- The tape that calls leave behind. -/
def after (t : Tape) (calls : List Call) : Tape := calls.foldl (fun t call => (t.perform call).2) t

def answers (t : Tape) : List Call → List Answer
  | [] => []
  | call :: calls => (t.perform call).1 :: (t.perform call).2.answers calls

/-- The words that a call adds to those written at an address of a tape of this capacity. -/
def note (limit a : Address) (words : List Word) : Call → List Word
  | .read _ => words
  | .write b w => if b = a ∧ a < limit then words ++ [w] else words
  | .clear => []

/-- The words written at an address since the last clear, in their order. -/
def written (limit : Address) (calls : List Call) (a : Address) : List Word :=
  calls.foldl (note limit a) []

/-- The addresses that were given something other than zero since the last clear. -/
def marked (limit : Address) (calls : List Call) : Set Address :=
  {a | ∃ w ∈ written limit calls a, w ≠ 0}

/-- The addresses that read as something other than zero. -/
def support (t : Tape) : Set Address := {a | ∃ w, t.read? a = some w ∧ w ≠ 0}

/-- What all tapes of a capacity have in common after the same calls. -/
structure Keeps (limit : Address) (calls : List Call) (t : Tape) : Prop where
  capacity : t.capacity = limit
  read : ∀ a, t.perform (.read a) =
    (.word (if a < limit then some ((written limit calls a).getLastD 0) else none), t)
  write : ∀ a w, (t.perform (.write a w)).1 = .stored (decide (a < limit))
  refused : ∀ a w, ¬ a < limit → (t.perform (.write a w)).2 = t

variable {limit : Address} {calls : List Call} {t t' : Tape}

@[simp] theorem after_nil (t : Tape) : t.after [] = t := rfl

@[simp] theorem after_concat (t : Tape) (calls : List Call) (call : Call) :
    t.after (calls ++ [call]) = ((t.after calls).perform call).2 := by
  simp [after, List.foldl_append]

@[simp] theorem written_nil (limit a : Address) : written limit [] a = [] := rfl

@[simp] theorem written_concat (limit a : Address) (calls : List Call) (call : Call) :
    written limit (calls ++ [call]) a = note limit a (written limit calls a) call := by
  simp [written, List.foldl_append]

@[simp] theorem capacity_blank (kind : TapeKind) (limit : Address) :
    (blank kind limit).capacity = limit := by
  cases kind <;> rfl

theorem capacity_perform (t : Tape) (call : Call) : (t.perform call).2.capacity = t.capacity := by
  cases call <;> simp [perform]

theorem capacity_after (t : Tape) (calls : List Call) : (t.after calls).capacity = t.capacity := by
  induction calls using List.reverseRecOn with
  | nil => rfl
  | append_singleton calls call ih => rw [after_concat, capacity_perform, ih]

theorem read?_after (kind : TapeKind) (limit : Address) (calls : List Call) (a : Address) :
    ((blank kind limit).after calls).read? a =
      if a < limit then some ((written limit calls a).getLastD 0) else none := by
  induction calls using List.reverseRecOn with
  | nil => simp [read?_blank]
  | append_singleton calls call ih =>
    have hcap : ((blank kind limit).after calls).capacity = limit := by
      rw [capacity_after, capacity_blank]
    rw [after_concat, written_concat]
    cases call with
    | read b => exact ih
    | write b w =>
      rw [perform, read?_write, ih, holds, hcap, note]
      by_cases hb : b = a
      · subst hb
        by_cases hlt : b < limit <;> simp [hlt]
      · simp [hb]
    | clear =>
      rw [perform, cleared, read?_blank, hcap]
      rfl

theorem keeps_after (kind : TapeKind) (limit : Address) (calls : List Call) :
    Keeps limit calls ((blank kind limit).after calls) := by
  have hcap : ((blank kind limit).after calls).capacity = limit := by
    rw [capacity_after, capacity_blank]
  refine ⟨hcap, fun a => ?_, fun a w => ?_, fun a w ha => ?_⟩
  · rw [perform, read?_after]
  · rw [perform, write_snd, holds, hcap]
  · rw [perform, write_of_not_lt (by rwa [hcap])]

/-- Whether two tapes cannot be told apart by reading. -/
structure Agrees (t t' : Tape) : Prop where
  capacity : t.capacity = t'.capacity
  read : ∀ a, t.read? a = t'.read? a

theorem Agrees.perform (h : t.Agrees t') (call : Call) :
    (t.perform call).1 = (t'.perform call).1 ∧ (t.perform call).2.Agrees (t'.perform call).2 := by
  have hholds (a : Address) : t.holds a = t'.holds a := by rw [holds, holds, h.capacity]
  cases call with
  | read a => exact ⟨congrArg Answer.word (h.read a), h⟩
  | write a w =>
    refine ⟨?_, ?_, fun b => ?_⟩
    · simp only [Tape.perform, write_snd, hholds]
    · simpa [Tape.perform] using h.capacity
    · simp only [Tape.perform, read?_write, hholds, h.read]
  | clear =>
    refine ⟨rfl, ?_, fun b => ?_⟩
    · simpa [Tape.perform] using h.capacity
    · simp only [Tape.perform, cleared, read?_blank, h.capacity]

theorem Agrees.answers (h : t.Agrees t') (calls : List Call) : t.answers calls = t'.answers calls := by
  induction calls generalizing t t' with
  | nil => rfl
  | cons call calls ih =>
    obtain ⟨hanswer, hnext⟩ := h.perform call
    rw [Tape.answers, Tape.answers, hanswer, ih hnext]

theorem agrees_blank (kind kind' : TapeKind) (limit : Address) :
    (blank kind limit).Agrees (blank kind' limit) :=
  ⟨by simp, fun a => by rw [read?_blank, read?_blank]⟩

theorem written_eq_nil {a : Address} (h : ¬ a < limit) : written limit calls a = [] := by
  induction calls using List.reverseRecOn with
  | nil => rfl
  | append_singleton calls call ih =>
    rw [written_concat, ih]
    cases call <;> simp [note, h]

theorem lt_of_mem_marked {a : Address} (h : a ∈ marked limit calls) : a < limit := by
  obtain ⟨w, hw, -⟩ := h
  by_contra hlt
  rw [written_eq_nil hlt] at hw
  cases hw

@[simp] theorem marked_nil (limit : Address) : marked limit [] = ∅ := by
  simp [marked]

@[simp] theorem marked_read (limit a : Address) (calls : List Call) :
    marked limit (calls ++ [.read a]) = marked limit calls := by
  simp [marked, note]

@[simp] theorem marked_clear (limit : Address) (calls : List Call) :
    marked limit (calls ++ [.clear]) = ∅ := by
  simp [marked, note]

theorem mem_marked_write {a b : Address} {w : Word} :
    b ∈ marked limit (calls ++ [.write a w]) ↔
      b ∈ marked limit calls ∨ (a = b ∧ b < limit ∧ w ≠ 0) := by
  by_cases h : a = b ∧ b < limit
  · simp [marked, note, h, or_and_right, exists_or]
  · have hnot : ¬ (a = b ∧ b < limit ∧ w ≠ 0) := fun hw => h ⟨hw.1, hw.2.1⟩
    simp [marked, note, h, hnot]

theorem size_store (words : Array Word) (i : Nat) (w : Word) :
    (store words i w).size = if w = 0 then words.size else max words.size (i + 1) := by
  unfold store
  split
  · rw [Array.size_setIfInBounds]
    split <;> omega
  · split
    · rfl
    · simp only [Array.size_push, Array.size_append, Array.size_replicate]
      omega

theorem after_growable (limit : Address) (calls : List Call) :
    ∃ words, (blank .growable limit).after calls = growable limit words ∧
      ∀ n, words.size ≤ n ↔ ∀ a ∈ marked limit calls, a.toNat < n := by
  induction calls using List.reverseRecOn with
  | nil => exact ⟨#[], rfl, by simp⟩
  | append_singleton calls call ih =>
    obtain ⟨words, htape, hsize⟩ := ih
    rw [after_concat, htape]
    cases call with
    | read a => exact ⟨words, rfl, by simpa using hsize⟩
    | clear => exact ⟨#[], rfl, by simp⟩
    | write a w =>
      by_cases ha : a < limit
      · refine ⟨store words a.toNat w, by rw [perform, write_growable ha], fun n => ?_⟩
        have hmarked : (∀ b ∈ marked limit (calls ++ [.write a w]), b.toNat < n) ↔
            (∀ b ∈ marked limit calls, b.toNat < n) ∧ (w ≠ 0 → a.toNat < n) := by
          simp only [mem_marked_write, or_imp, forall_and]
          refine and_congr_right fun _ => ⟨fun h hw => h a ⟨rfl, ha, hw⟩, ?_⟩
          rintro h b ⟨rfl, -, hw⟩
          exact h hw
        rw [hmarked, ← hsize, size_store]
        by_cases hw : w = 0
        · simp [hw]
        · simp [hw]
      · have hrefused : (growable limit words).write a w = (growable limit words, false) :=
          write_of_not_lt ha w
        refine ⟨words, by rw [perform, hrefused], fun n => ?_⟩
        have hmarked : marked limit (calls ++ [.write a w]) = marked limit calls := by
          ext b
          rw [mem_marked_write, or_iff_left]
          rintro ⟨rfl, hb, -⟩
          exact ha hb
        rw [hmarked, hsize]

/-- The least number above all addresses of a set is one more than the largest, if there is any. -/
theorem eq_zero_or_isGreatest {s : Set Address} {size : Nat}
    (h : ∀ n, size ≤ n ↔ ∀ a ∈ s, a.toNat < n) :
    (size = 0 ∧ s = ∅) ∨ ∃ a, IsGreatest s a ∧ size = a.toNat + 1 := by
  cases size with
  | zero =>
    refine .inl ⟨rfl, Set.eq_empty_of_forall_notMem fun a ha => ?_⟩
    have := (h 0).1 (by omega) a ha
    omega
  | succ k =>
    have hk : ¬ ∀ a ∈ s, a.toNat < k := fun hk => by
      have := (h k).2 hk
      omega
    push Not at hk
    obtain ⟨a, ha, hka⟩ := hk
    have hlt := (h (k + 1)).1 le_rfl
    have heq : a.toNat = k := by
      have := hlt a ha
      omega
    refine .inr ⟨a, ⟨ha, fun b hb => ?_⟩, by omega⟩
    have := hlt b hb
    rw [UInt64.le_iff_toNat_le]
    omega

theorem after_sparse (limit : Address) (calls : List Call) :
    ∃ words, (blank .sparse limit).after calls = sparse limit words ∧
      ∀ a ∈ words, a < limit ∧ words.getD a 0 ≠ 0 := by
  induction calls using List.reverseRecOn with
  | nil => exact ⟨∅, rfl, by simp⟩
  | append_singleton calls call ih =>
    obtain ⟨words, htape, hwords⟩ := ih
    rw [after_concat, htape]
    cases call with
    | read a => exact ⟨words, rfl, hwords⟩
    | clear => exact ⟨∅, rfl, by simp⟩
    | write a w =>
      by_cases ha : a < limit
      · refine ⟨_, by rw [perform, write_sparse ha], fun b hb => ?_⟩
        by_cases hw : w = 0
        · simp only [hw, if_true, Std.HashMap.mem_erase, Std.HashMap.getD_erase] at hb ⊢
          simpa [hb.1] using hwords b hb.2
        · simp only [hw, if_false, Std.HashMap.mem_insert, Std.HashMap.getD_insert] at hb ⊢
          by_cases hab : a = b
          · simpa [hab, hw] using hab ▸ ha
          · simpa [hab] using hwords b (by simpa [hab] using hb)
      · have hrefused : (sparse limit words).write a w = (sparse limit words, false) :=
          write_of_not_lt ha w
        exact ⟨words, by rw [perform, hrefused], hwords⟩

theorem ncard_support_sparse {words : Std.HashMap Address Word}
    (h : ∀ a ∈ words, a < limit ∧ words.getD a 0 ≠ 0) :
    (sparse limit words).support.ncard = words.size := by
  have hsupport : (sparse limit words).support = (words.keys.toFinset : Set Address) := by
    ext a
    have hzero : a ∉ words → words.getD a 0 = 0 := Std.HashMap.getD_eq_fallback
    by_cases ha : a ∈ words
    · simp [support, read?, ha, h a ha]
    · simp [support, read?, ha, hzero ha]
  have hnodup : words.keys.Nodup := by
    simpa [List.Nodup] using Std.HashMap.distinct_keys (m := words)
  rw [hsupport, Set.ncard_coe_finset, List.toFinset_card_of_nodup hnodup, Std.HashMap.length_keys]

/-- Tapes of every kind are the same store, and count what they store as they should. -/
theorem store_of_calls (limit : Address) (calls : List Call) :
    (∀ kind, Keeps limit calls ((blank kind limit).after calls)) ∧
    (∀ kind kind', (blank kind limit).answers calls = (blank kind' limit).answers calls) ∧
    ((blank .sparse limit).after calls).used? =
      some ((blank .sparse limit).after calls).support.ncard ∧
    ∃ n ≤ limit.toNat, ((blank .growable limit).after calls).used? = some n ∧
      ((n = 0 ∧ marked limit calls = ∅) ∨
        ∃ a, IsGreatest (marked limit calls) a ∧ n = a.toNat + 1) := by
  refine ⟨fun kind => keeps_after kind limit calls, fun kind kind' => ?_, ?_, ?_⟩
  · exact (agrees_blank kind kind' limit).answers calls
  · obtain ⟨words, htape, hwords⟩ := after_sparse limit calls
    rw [htape, ncard_support_sparse hwords]
    rfl
  · obtain ⟨words, htape, hsize⟩ := after_growable limit calls
    have hle : words.size ≤ limit.toNat :=
      (hsize _).2 fun a ha => UInt64.lt_iff_toNat_lt.1 (lt_of_mem_marked ha)
    exact ⟨words.size, hle, by rw [htape]; rfl, eq_zero_or_isGreatest hsize⟩

/-- A zero written over a mark leaves a growable tape as long as it was. -/
example : ((blank .growable 8).after [.write 5 1, .write 5 0]).used? = some 6 := rfl

end Tape
end TapeMachine
