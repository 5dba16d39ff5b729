import TapeMachine.Tape

/-! What the three kinds of tape have in common, as far as reading shows: a write changes the word at
its address and no other, a blank tape reads zero, and loading leaves the words in a row. -/

namespace TapeMachine
namespace Tape

/-- Whether the tape has an address. -/
def holds (t : Tape) (a : Address) : Bool := a < t.capacity

theorem holds_iff (t : Tape) (a : Address) : t.holds a = true ↔ a < t.capacity := by
  simp [holds]

/-- The array with `w` at index `i`, made longer with zeros where it has to be. -/
def store (words : Array Word) (i : Nat) (w : Word) : Array Word :=
  if i < words.size then words.setIfInBounds i w
  else if w = 0 then words
  else (words ++ Array.replicate (i - words.size) 0).push w

theorem write_of_not_lt {t : Tape} {a : Address} (h : ¬ a < t.capacity) (w : Word) :
    t.write a w = (t, false) := by
  cases t with
  | fixed limit words | growable limit words | sparse limit words =>
    have h : ¬ a < limit := h
    simp [write, h]

theorem write_fixed {limit a : Address} (h : a < limit) (words : Vector Word limit.toNat) (w : Word) :
    (fixed limit words).write a w = (fixed limit (words.set a.toNat w h), true) := by
  simp only [write, h, dif_pos]

theorem write_growable {limit a : Address} (h : a < limit) (words : Array Word) (w : Word) :
    (growable limit words).write a w = (growable limit (store words a.toNat w), true) := by
  simp only [write, h, if_true, store]
  split
  · rfl
  · split <;> rfl

theorem write_sparse {limit a : Address} (h : a < limit) (words : Std.HashMap Address Word) (w : Word) :
    (sparse limit words).write a w =
      (sparse limit (if w = 0 then words.erase a else words.insert a w), true) := by
  simp only [write, h, if_true]
  split <;> rfl

/-- Each kind of tape writes where it has the address, and nowhere else. -/
theorem write_snd (t : Tape) (a : Address) (w : Word) : (t.write a w).2 = t.holds a := by
  by_cases h : a < t.capacity
  · rw [(t.holds_iff a).2 h]
    cases t with
    | fixed limit words => exact congrArg Prod.snd (write_fixed h words w)
    | growable limit words => exact congrArg Prod.snd (write_growable h words w)
    | sparse limit words => exact congrArg Prod.snd (write_sparse h words w)
  · rw [write_of_not_lt h, eq_comm, ← Bool.not_eq_true, holds_iff]
    exact h

theorem kind_capacity_write (t : Tape) (a : Address) (w : Word) :
    (t.write a w).1.kind = t.kind ∧ (t.write a w).1.capacity = t.capacity := by
  by_cases h : a < t.capacity
  · cases t with
    | fixed limit words => exact write_fixed h words w ▸ ⟨rfl, rfl⟩
    | growable limit words => exact write_growable h words w ▸ ⟨rfl, rfl⟩
    | sparse limit words => exact write_sparse h words w ▸ ⟨rfl, rfl⟩
  · rw [write_of_not_lt h]
    exact ⟨rfl, rfl⟩

@[simp] theorem capacity_write (t : Tape) (a : Address) (w : Word) :
    (t.write a w).1.capacity = t.capacity := (t.kind_capacity_write a w).2

@[simp] theorem capacity_cleared (t : Tape) : t.cleared.capacity = t.capacity := by
  cases t <;> rfl

@[simp] theorem holds_write (t : Tape) (a b : Address) (w : Word) :
    (t.write a w).1.holds b = t.holds b := by
  rw [holds, holds, capacity_write]

theorem isSome_read? (t : Tape) (a : Address) : (t.read? a).isSome = t.holds a := by
  cases t with
  | fixed limit words => by_cases h : a < limit <;> simp [read?, holds, capacity, h]
  | growable limit words => by_cases h : a < limit <;> simp [read?, holds, capacity, h]
  | sparse limit words => by_cases h : a < limit <;> simp [read?, holds, capacity, h]

theorem getD_push_zeros (words : Array Word) (n j : Nat) (w : Word) (h : words.size ≤ n):
    ((words ++ Array.replicate (n - words.size) 0).push w).getD j 0 =
      if n = j then w else words.getD j 0 := by
  have hsize : (words ++ Array.replicate (n - words.size) 0).size = n := by simp; omega
  simp only [Array.getD_eq_getD_getElem?, Array.getElem?_push, hsize, Array.getElem?_append]
  by_cases hj : n = j
  · simp [hj]
  · rw [if_neg hj, if_neg (Ne.symm hj)]
    by_cases hw : j < words.size
    · simp [hw]
    · by_cases hz : j - words.size < n - words.size <;> simp [hw, hz]

theorem getD_store (words : Array Word) (i j : Nat) (w : Word) :
    (store words i w).getD j 0 = if i = j then w else words.getD j 0 := by
  unfold store
  split
  · rename_i hi
    by_cases hij : i = j
    · subst hij
      simp [hi]
    · simp [hij]
  · rename_i hi
    split
    · rename_i hw
      by_cases hij : i = j
      · subst hij
        simp [hi, hw]
      · simp [hij]
    · exact getD_push_zeros words i j w (by omega)

theorem read?_write (t : Tape) (a b : Address) (w : Word) :
    (t.write a w).1.read? b = if a = b ∧ t.holds a = true then some w else t.read? b := by
  by_cases ha : ¬ a < t.capacity
  · simp [write_of_not_lt ha, holds, ha]
  rw [Decidable.not_not] at ha
  simp only [holds, ha, decide_true, and_true]
  cases t with
  | fixed limit words =>
    -- the bounds of `words` are stated on addresses, so its lemmas apply only up to unfolding
    have ha' : a < limit := ha
    rw [write_fixed ha']
    by_cases hab : a = b
    · subst hab
      simp only [read?, ha', dif_pos, if_true]
      exact congrArg some (Vector.getElem_set_self _)
    · have hne : a.toNat ≠ b.toNat := fun h => hab (UInt64.toNat_inj.1 h)
      by_cases hb : b < limit
      · simp only [read?, hb, hab, dif_pos, if_false]
        exact congrArg some (Vector.getElem_set_ne _ hb hne)
      · simp [read?, hb, hab]
  | growable limit words =>
    have ha' : a < limit := ha
    rw [write_growable ha']
    simp only [read?, getD_store, UInt64.toNat_inj]
    by_cases hab : a = b
    · simp [← hab, ha']
    · simp [hab]
  | sparse limit words =>
    have ha' : a < limit := ha
    rw [write_sparse ha']
    have hget : (if w = 0 then words.erase a else words.insert a w).getD b 0 =
        if a = b then w else words.getD b 0 := by
      split
      · rename_i hw
        rw [Std.HashMap.getD_erase]
        simp [hw]
      · rw [Std.HashMap.getD_insert]
        simp
    simp only [read?, hget]
    by_cases hab : a = b
    · simp [← hab, ha']
    · simp [hab]

theorem load_cons (t : Tape) (a : Address) (w : Word) (ws : List Word) :
    t.load a (w :: ws) =
      if t.holds a = true then (t.write a w).1.load (a + 1) ws else ((t.write a w).1, false) := by
  rw [← write_snd t a w, load]
  rcases t.write a w with ⟨t', done⟩
  cases done <;> rfl

theorem read?_blank (kind : TapeKind) (limit a : Address) :
    (blank kind limit).read? a = if a < limit then some 0 else none := by
  cases kind with
  | fixed =>
    by_cases h : a < limit
    · simp only [blank, read?, h, dif_pos, if_true]
      exact congrArg some (Vector.getElem_replicate h)
    · simp [blank, read?, h]
  | growable => simp [blank, read?]
  | sparse => simp [blank, read?]

@[simp] theorem capacity_load (t : Tape) (a : Address) (ws : List Word) :
    (t.load a ws).1.capacity = t.capacity := by
  induction ws generalizing t a with
  | nil => rfl
  | cons w ws ih =>
    rw [load_cons]
    split
    · rw [ih, capacity_write]
    · exact t.capacity_write a w

theorem toNat_add_one {a b : Address} (h : a < b) : (a + 1).toNat = a.toNat + 1 := by
  have hb := b.toNat_lt
  rw [UInt64.lt_iff_toNat_lt] at h
  rw [UInt64.toNat_add]
  exact Nat.mod_eq_of_lt (by simpa using by omega)

/-- Words that fit are loaded to the last one, in a row, over what was there. -/
theorem load_of_fits {t : Tape} {a : Address} {ws : List Word}
    (h : a.toNat + ws.length ≤ t.capacity.toNat) :
    (t.load a ws).2 = true ∧ ∀ b, (t.load a ws).1.read? b =
      (if a.toNat ≤ b.toNat then ws[b.toNat - a.toNat]? else none).or (t.read? b) := by
  induction ws generalizing t a with
  | nil => simp [load]
  | cons w ws ih =>
    rw [List.length_cons] at h
    have ha : a < t.capacity := by rw [UInt64.lt_iff_toNat_lt]; omega
    have hholds : t.holds a = true := by simpa [holds] using ha
    have hnext := toNat_add_one ha
    obtain ⟨hcomplete, hread⟩ := ih (t := (t.write a w).1) (a := a + 1) (by rw [capacity_write]; omega)
    rw [load_cons, if_pos hholds]
    refine ⟨hcomplete, fun b => ?_⟩
    rw [hread, read?_write, hnext]
    rcases Nat.lt_trichotomy a.toNat b.toNat with hab | hab | hab
    · have hne : ¬ a = b := fun he => by simp [he] at hab
      have hsub : b.toNat - a.toNat = b.toNat - (a.toNat + 1) + 1 := by omega
      have hle : a.toNat ≤ b.toNat := by omega
      have hsucc : a.toNat + 1 ≤ b.toNat := by omega
      simp only [hle, hsucc, hne, hsub, if_true, if_false, false_and, List.getElem?_cons_succ]
    · obtain rfl := UInt64.toNat_inj.1 hab
      have hsucc : ¬ a.toNat + 1 ≤ a.toNat := by omega
      simp [hholds, hsucc]
    · have hne : ¬ a = b := fun he => by simp [he] at hab
      have hle : ¬ a.toNat ≤ b.toNat := by omega
      have hsucc : ¬ a.toNat + 1 ≤ b.toNat := by omega
      simp only [hle, hsucc, hne, if_false, false_and]

theorem fits_of_load {t : Tape} {a : Address} {ws : List Word} (h : (t.load a ws).2 = true) :
    ws = [] ∨ a.toNat + ws.length ≤ t.capacity.toNat := by
  induction ws generalizing t a with
  | nil => exact .inl rfl
  | cons w ws ih =>
    rw [load_cons] at h
    split at h
    · rename_i hholds
      have ha := (t.holds_iff a).1 hholds
      have hnext := toNat_add_one ha
      rw [UInt64.lt_iff_toNat_lt] at ha
      rcases ih h with rfl | hrest
      · exact .inr (by rw [List.length_singleton]; omega)
      · rw [capacity_write] at hrest
        rw [List.length_cons]
        exact .inr (by omega)
    · cases h

theorem load_zero_iff (t : Tape) (ws : List Word) :
    (t.load 0 ws).2 = true ↔ ws.length ≤ t.capacity.toNat := by
  constructor
  · intro h
    rcases fits_of_load h with rfl | hfits
    · exact Nat.zero_le _
    · simpa using hfits
  · intro h
    exact (load_of_fits (a := 0) (by simpa using h)).1

@[simp] theorem cleared_cleared (t : Tape) : t.cleared.cleared = t.cleared := by
  cases t <;> rfl

@[simp] theorem cleared_write (t : Tape) (a : Address) (w : Word) :
    (t.write a w).1.cleared = t.cleared := by
  obtain ⟨hkind, hcapacity⟩ := t.kind_capacity_write a w
  rw [cleared, cleared, hkind, hcapacity]

@[simp] theorem cleared_load (t : Tape) (a : Address) (ws : List Word) :
    (t.load a ws).1.cleared = t.cleared := by
  induction ws generalizing t a with
  | nil => rfl
  | cons w ws ih =>
    rw [load_cons]
    split
    · rw [ih, cleared_write]
    · exact t.cleared_write a w

end Tape
end TapeMachine
