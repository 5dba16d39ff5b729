import Mathlib.Data.List.Induction

/-! Passes over a list that may fail: they end at the first element that fails, and give what the
elements give where none does. -/

namespace TapeMachine

variable {α β ε : Type}

@[simp] theorem ok_bind (a : α) (f : α → Except ε β) : (Except.ok a >>= f) = f a := rfl

@[simp] theorem error_bind (e : ε) (f : α → Except ε β) :
    ((Except.error e : Except ε α) >>= f) = .error e := rfl

@[simp] theorem pure_eq_ok (a : α) : (pure a : Except ε α) = .ok a := rfl

theorem exists_of_bind_eq_ok {x : Except ε α} {f : α → Except ε β} {b : β}
    (h : (x >>= f) = .ok b) : ∃ a, x = .ok a ∧ f a = .ok b := by
  cases x with
  | error e => cases h
  | ok a => exact ⟨a, rfl, h⟩

theorem exists_of_map_eq_ok {x : Except ε α} {f : α → β} {b : β} (h : f <$> x = .ok b) :
    ∃ a, x = .ok a ∧ f a = b := by
  cases x with
  | error e => cases h
  | ok a => exact ⟨a, rfl, Except.ok.inj h⟩

theorem eq_ok_of_mapError {ε' : Type} {x : Except ε α} {f : ε → ε'} {a : α}
    (h : x.mapError f = .ok a) : x = .ok a := by
  cases x with
  | error e => cases h
  | ok b => exact congrArg Except.ok (Except.ok.inj h)

theorem mapError_bind {ε' : Type} (x : Except ε α) (f : α → Except ε β) (g : ε → ε') :
    (x >>= f).mapError g = x.mapError g >>= fun a => (f a).mapError g := by
  cases x <;> rfl

theorem toOption_eq_some_iff {x : Except ε α} {a : α} : x.toOption = some a ↔ x = .ok a := by
  cases x <;> simp [Except.toOption]

theorem exists_first {P : α → Prop} {l : List α} (h : ∃ x ∈ l, P x) :
    ∃ pre x post, l = pre ++ x :: post ∧ (∀ y ∈ pre, ¬ P y) ∧ P x := by
  induction l with
  | nil => simp at h
  | cons a l ih =>
    by_cases ha : P a
    · exact ⟨[], a, l, rfl, by simp, ha⟩
    · have hl : ∃ x ∈ l, P x := by simpa [ha] using h
      obtain ⟨pre, x, post, rfl, hpre, hx⟩ := ih hl
      refine ⟨a :: pre, x, post, rfl, ?_, hx⟩
      intro y hy
      rcases List.mem_cons.1 hy with rfl | hy
      · exact ha
      · exact hpre y hy

/-- A repetition splits a list at the first element whose key was there before. -/
theorem exists_first_repeated {key : α → β} {l : List α} (h : ¬ (l.map key).Nodup) :
    ∃ pre x post y, l = pre ++ x :: post ∧ (pre.map key).Nodup ∧ y ∈ pre ∧ key y = key x := by
  induction l using List.reverseRecOn with
  | nil => simp at h
  | append_singleton l a ih =>
    by_cases hl : (l.map key).Nodup
    · have ha : ∃ y ∈ l, key y = key a := by
        by_contra hne
        refine h ?_
        rw [List.map_append, List.nodup_append]
        exact ⟨hl, by simp, by simpa using fun y hy he => hne ⟨y, hy, he⟩⟩
      obtain ⟨y, hy, he⟩ := ha
      exact ⟨l, a, [], y, rfl, hl, hy, he⟩
    · obtain ⟨pre, x, post, y, rfl, hpre, hy, he⟩ := ih hl
      exact ⟨pre, x, post ++ [a], y, by simp, hpre, hy, he⟩

theorem find?_key_eq_some [DecidableEq β] {key : α → β} {l : List α} {a : α} (h : (l.map key).Nodup)
    (ha : a ∈ l) : l.find? (fun b => key b = key a) = some a := by
  obtain ⟨pre, post, rfl⟩ := List.append_of_mem ha
  refine List.find?_eq_some_iff_append.2 ⟨by simp, pre, post, rfl, ?_⟩
  intro b hb
  rw [List.map_append, List.nodup_append] at h
  have hne := h.2.2 (key b) (List.mem_map_of_mem hb) (key a) (by simp)
  simpa using hne

theorem forM_eq_ok_iff {f : α → Except ε Unit} {l : List α} :
    l.forM f = .ok () ↔ ∀ x ∈ l, f x = .ok () := by
  induction l with
  | nil => simp
  | cons a l ih =>
    simp only [List.forM_eq_forM] at ih
    cases ha : f a <;> simp [ha, ih]

theorem forM_eq_error {f : α → Except ε Unit} {pre post : List α} {x : α} {e : ε}
    (hpre : ∀ y ∈ pre, f y = .ok ()) (hx : f x = .error e) :
    (pre ++ x :: post).forM f = .error e := by
  have h : pre.forM f = .ok () := forM_eq_ok_iff.2 hpre
  simp only [List.forM_eq_forM] at h
  simp [h, hx]

theorem forM_congr {f g : α → Except ε Unit} {l : List α} (h : ∀ x ∈ l, f x = g x) :
    l.forM f = l.forM g := by
  induction l with
  | nil => rfl
  | cons a l ih =>
    rw [List.forall_mem_cons] at h
    simp only [List.forM_eq_forM, List.forM_cons] at ih ⊢
    rw [h.1, ih h.2]

theorem exists_of_mapM_cons_eq_ok {f : α → Except ε β} {a : α} {l : List α} {bs : List β}
    (h : (a :: l).mapM f = .ok bs) : ∃ b bs', f a = .ok b ∧ l.mapM f = .ok bs' ∧ bs = b :: bs' := by
  rw [List.mapM_cons] at h
  obtain ⟨b, hb, h⟩ := exists_of_bind_eq_ok h
  obtain ⟨bs', hbs', h⟩ := exists_of_bind_eq_ok h
  exact ⟨b, bs', hb, hbs', (Except.ok.inj h).symm⟩

theorem forall_of_mapM_eq_ok {f : α → Except ε β} {l : List α} {bs : List β}
    (h : l.mapM f = .ok bs) : ∀ x ∈ l, ∃ b, f x = .ok b := by
  induction l generalizing bs with
  | nil => simp
  | cons a l ih =>
    obtain ⟨b, bs', ha, hl, -⟩ := exists_of_mapM_cons_eq_ok h
    exact List.forall_mem_cons.2 ⟨⟨b, ha⟩, ih hl⟩

theorem mapM_eq_ok {f : α → Except ε β} {g : α → β} {l : List α} (h : ∀ x ∈ l, f x = .ok (g x)) :
    l.mapM f = .ok (l.map g) := by
  induction l with
  | nil => rfl
  | cons a l ih => simp [h a (by simp), ih fun x hx => h x (by simp [hx])]

theorem option_mapM_eq_some_iff {f : α → Option β} {l : List α} {bs : List β} :
    l.mapM f = some bs ↔ l.map f = bs.map some := by
  induction l generalizing bs with
  | nil => cases bs <;> simp
  | cons a l ih => cases bs <;> simp [List.mapM_cons, Option.bind_eq_some_iff, ih]

theorem option_mapM_range_eq_some_iff {f : Nat → Option β} {n : Nat} {bs : List β} :
    (List.range n).mapM f = some bs ↔ bs.length = n ∧ ∀ k b, bs[k]? = some b → f k = some b := by
  rw [option_mapM_eq_some_iff]
  constructor
  · intro h
    have hn : bs.length = n := by simpa using (congrArg List.length h).symm
    refine ⟨hn, ?_⟩
    intro k b hb
    have hk := (List.getElem?_eq_some_iff.1 hb).1
    have hkth := congrArg (·[k]?) h
    simpa [hb, List.getElem?_range (hn ▸ hk)] using hkth
  · rintro ⟨rfl, h⟩
    refine List.ext_getElem (by simp) ?_
    intro k hk hk'
    simpa using h k _ (List.getElem?_eq_getElem (by simpa using hk))

end TapeMachine
