import Mathlib.Tactic

/-!
# Lists changed at an entry

What is found in a list after an entry was changed, or one was appended. The entry is
given by its index (`List.modify`), or is the first one with a property
(`List.modifyFirst`).
-/

namespace List

variable {α : Type*} {l : List α} {f : α → α} {i k : ℕ} {a b : α}

theorem getElem?_modify_eq_some :
    (l.modify i f)[k]? = some b ↔
      (k = i ∧ ∃ a, l[k]? = some a ∧ b = f a) ∨ (k ≠ i ∧ l[k]? = some b) := by
  rw [getElem?_modify]
  by_cases hk : k = i
  · subst hk
    simp only [if_true, Option.map_eq_map, Option.map_eq_some_iff, true_and, ne_eq, not_true_eq_false,
      false_and, or_false]
    exact exists_congr fun a => and_congr_right fun _ => eq_comm
  · simp [hk, Ne.symm hk]

theorem getElem?_concat_eq_some :
    (l ++ [a])[k]? = some b ↔ l[k]? = some b ∨ (k = l.length ∧ b = a) := by
  rw [getElem?_append]
  split_ifs with hk
  · exact ⟨.inl, fun h => h.resolve_right fun h => by omega⟩
  · rw [getElem?_singleton]
    rw [getElem?_eq_none (by omega : l.length ≤ k)]
    split_ifs with h0
    · constructor
      · exact fun h => .inr ⟨by omega, (Option.some.inj h).symm⟩
      · rintro (h | ⟨-, rfl⟩)
        · cases h
        · rfl
    · constructor
      · intro h
        cases h
      · rintro (h | ⟨h, -⟩)
        · cases h
        · omega

theorem getElem?_set_of_eq_some (h : l[i]? = some a) :
    (l.set i b)[k]? = if k = i then some b else l[k]? := by
  have hlt := (getElem?_eq_some_iff.1 h).1
  rw [getElem?_set]
  by_cases hk : k = i
  · rw [if_pos hk.symm, if_pos hlt, if_pos hk]
  · rw [if_neg (Ne.symm hk), if_neg hk]

/-- What holds of the entries of a list, and is kept by the change of one, holds after it. -/
theorem forall_mem_modify {P : α → Prop} (h : ∀ a ∈ l, P a) (hf : ∀ a, l[i]? = some a → P (f a)) :
    ∀ a ∈ l.modify i f, P a := by
  intro b hb
  obtain ⟨k, hk⟩ := mem_iff_getElem?.1 hb
  rcases getElem?_modify_eq_some.1 hk with ⟨rfl, a, ha, rfl⟩ | ⟨-, hk⟩
  · exact hf a ha
  · exact h b (mem_of_getElem? hk)

/-- The sum over a list after the change of an entry. -/
theorem sum_map_modify {g : α → ℕ} (h : l[i]? = some a) :
    ((l.modify i f).map g).sum + g a = (l.map g).sum + g (f a) := by
  induction l generalizing i with
  | nil => cases h
  | cons b l ih =>
    cases i with
    | zero =>
      rw [getElem?_cons_zero, Option.some.injEq] at h
      subst h
      rw [modify_zero_cons, map_cons, map_cons, sum_cons, sum_cons]
      omega
    | succ i =>
      have htail := ih (i := i) h
      rw [modify_succ_cons, map_cons, map_cons, sum_cons, sum_cons]
      omega

/-- In a list of distinct keys, every entry is the one its key finds. -/
theorem find?_key_of_mem {κ : Type*} [DecidableEq κ] {key : α → κ} (hl : (l.map key).Nodup)
    (ha : a ∈ l) : l.find? (fun b => key b = key a) = some a := by
  cases hfind : l.find? fun b => key b = key a with
  | none =>
    have := find?_eq_none.1 hfind a ha
    simp at this
  | some b =>
    have hb : key b = key a := by simpa using find?_some hfind
    rw [inj_on_of_nodup_map hl (mem_of_find?_eq_some hfind) ha hb]

/-! ## The first entry with a property -/

/-- Changing the first entry that satisfies `p`. -/
def modifyFirst (p : α → Bool) (f : α → α) : List α → List α
  | [] => []
  | a :: l => if p a then f a :: l else a :: modifyFirst p f l

variable {p q : α → Bool}

theorem find?_modifyFirst (h : ∀ a, p a = true → p (f a) = true) :
    (l.modifyFirst p f).find? p = (l.find? p).map f := by
  induction l with
  | nil => rfl
  | cons a l ih =>
    by_cases ha : p a = true
    · simp [modifyFirst, ha, h a ha]
    · simp [modifyFirst, ha, ih]

/-- Other searches do not see the change. -/
theorem find?_modifyFirst_of_not (h : ∀ a, p a = true → q a = false ∧ q (f a) = false) :
    (l.modifyFirst p f).find? q = l.find? q := by
  induction l with
  | nil => rfl
  | cons a l ih =>
    by_cases ha : p a = true
    · simp [modifyFirst, ha, h a ha]
    · simp [modifyFirst, ha, find?_cons, ih]

/-- What the change keeps of the entries, it keeps of the list. -/
theorem map_modifyFirst {β : Type*} {g : α → β} (h : ∀ a, p a = true → g (f a) = g a) :
    (l.modifyFirst p f).map g = l.map g := by
  induction l with
  | nil => rfl
  | cons a l ih =>
    by_cases ha : p a = true
    · simp [modifyFirst, ha, h a ha]
    · simp [modifyFirst, ha, ih]

/-- A search that keeps the index finds the same entry, and to set what it has found is to
    change the first entry; also as seen through a map. -/
theorem map_set_of_find?_zipIdx {β : Type*} {g : α → β} {f : β → β} {q : β → Bool} {n : ℕ}
    (h : (l.zipIdx n).find? (fun x => p x.1) = some (a, i)) (hq : ∀ a, q (g a) = p a)
    (hb : g b = f (g a)) :
    (l.map g).find? q = some (g a) ∧ (l.set (i - n) b).map g = (l.map g).modifyFirst q f := by
  induction l generalizing n with
  | nil => cases h
  | cons c l ih =>
    rw [zipIdx_cons, find?_cons] at h
    by_cases hc : p c = true
    · simp only [hc, Option.some.injEq, Prod.mk.injEq] at h
      obtain ⟨rfl, rfl⟩ := h
      simp [modifyFirst, hq, hc, hb]
    · simp only [hc] at h
      obtain ⟨hfind, hset⟩ := ih h
      have hlt : n < i := by
        have := (mem_zipIdx (mem_of_find?_eq_some h)).1
        omega
      obtain ⟨k, rfl⟩ := Nat.exists_eq_add_of_lt hlt
      have hk : n + k + 1 - n = k + 1 := by omega
      have hk' : n + k + 1 - (n + 1) = k := by omega
      rw [hk'] at hset
      simp [modifyFirst, hq, hc, hk, hfind, hset]

/-- A search that keeps the index fails if the search in the map does. -/
theorem find?_map_of_find?_zipIdx {β : Type*} {g : α → β} {q : β → Bool} {n : ℕ}
    (h : (l.zipIdx n).find? (fun x => p x.1) = none) (hq : ∀ a, q (g a) = p a) :
    (l.map g).find? q = none := by
  rw [find?_eq_none]
  rintro _ hb
  obtain ⟨a, ha, rfl⟩ := mem_map.1 hb
  obtain ⟨k, hk⟩ := mem_iff_getElem?.1 ha
  rw [hq]
  exact find?_eq_none.1 h (a, n + k) (mk_add_mem_zipIdx_iff_getElem?.2 hk)

@[simp] theorem length_modifyFirst (l : List α) : (l.modifyFirst p f).length = l.length := by
  have h := congrArg length (map_modifyFirst (l := l) (p := p) (f := f) (g := fun _ => ())
    fun _ _ => rfl)
  rwa [length_map, length_map] at h

end List
