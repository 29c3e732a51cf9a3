import Mathlib.Tactic

/-!
# Intervals that tile a set

A family of half-open intervals, `cell i = some (a, b)` standing for `[a, b)` and
`none` for no interval, is *apart* if no two of them meet, and *tiles* a set if every
element of the set is in exactly one of them and they hold nothing else. Cutting an
interval in two, the upper part getting an index that was free, keeps both
(`Apart.cut`, `Tiles.cut`).
-/

namespace Interval

variable {α ι : Type*}

section Order

variable [LinearOrder α]

/-- The interval `[I.1, I.2)` holds `x`. -/
def Holds (I : α × α) (x : α) : Prop := I.1 ≤ x ∧ x < I.2

/-- No two intervals of the family meet. -/
def Apart (cell : ι → Option (α × α)) : Prop :=
  ∀ (i j : ι) (I J : α × α) (x : α), cell i = some I → cell j = some J → Holds I x → Holds J x →
    i = j

/-- The intervals of the family tile the set `S`. -/
structure Tiles (S : Set α) (cell : ι → Option (α × α)) : Prop where
  cover : ∀ x ∈ S, ∃ i I, cell i = some I ∧ Holds I x
  inside : ∀ i I x, cell i = some I → Holds I x → x ∈ S
  apart : Apart cell

end Order

/-- Cutting the interval `i` at `m`, its upper part becoming the interval `n`. -/
def cut [DecidableEq ι] (cell : ι → Option (α × α)) (i n : ι) (a m b : α) : ι → Option (α × α) :=
  Function.update (Function.update cell i (some (a, m))) n (some (m, b))

section Cut

variable [DecidableEq ι] {cell : ι → Option (α × α)} {S : Set α} {i n : ι} {a m b : α}

/-- An interval after a cut is one of the two parts, or one from before. -/
theorem cut_eq_some {j : ι} {J : α × α} (h : cut cell i n a m b j = some J) :
    (j = n ∧ J = (m, b)) ∨ (j ≠ n ∧ j = i ∧ J = (a, m)) ∨ (j ≠ n ∧ j ≠ i ∧ cell j = some J) := by
  by_cases hn : j = n
  · subst hn
    rw [cut, Function.update_self] at h
    exact .inl ⟨rfl, (Option.some.inj h).symm⟩
  · rw [cut, Function.update_of_ne hn] at h
    by_cases hi : j = i
    · subst hi
      rw [Function.update_self] at h
      exact .inr (.inl ⟨hn, rfl, (Option.some.inj h).symm⟩)
    · rw [Function.update_of_ne hi] at h
      exact .inr (.inr ⟨hn, hi, h⟩)

variable [LinearOrder α]

/-- What an interval holds after a cut, the interval it comes from held before. -/
theorem holds_of_cut (hi : cell i = some (a, b)) (ham : a ≤ m) (hmb : m ≤ b) {j : ι} {J : α × α}
    {x : α} (h : cut cell i n a m b j = some J) (hx : Holds J x) :
    ∃ j₀ I, cell j₀ = some I ∧ Holds I x ∧
      ((j₀ = i ∧ j = n ∧ m ≤ x) ∨ (j₀ = i ∧ j = i ∧ x < m) ∨ (j₀ = j ∧ j ≠ n ∧ j ≠ i)) := by
  rcases cut_eq_some h with ⟨rfl, rfl⟩ | ⟨-, rfl, rfl⟩ | ⟨hn, hne, h⟩
  · exact ⟨i, _, hi, ⟨ham.trans hx.1, hx.2⟩, .inl ⟨rfl, rfl, hx.1⟩⟩
  · exact ⟨j, _, hi, ⟨hx.1, hx.2.trans_le hmb⟩, .inr (.inl ⟨rfl, rfl, hx.2⟩)⟩
  · exact ⟨j, J, h, hx, .inr (.inr ⟨rfl, hn, hne⟩)⟩

theorem Apart.cut (h : Apart cell) (hi : cell i = some (a, b)) (ham : a ≤ m) (hmb : m ≤ b) :
    Apart (cut cell i n a m b) := by
  intro j k J K x hj hk hxj hxk
  obtain ⟨j₀, I, hI, hxI, hj⟩ := holds_of_cut hi ham hmb hj hxj
  obtain ⟨k₀, I', hI', hxI', hk⟩ := holds_of_cut hi ham hmb hk hxk
  -- Both come from the same interval; if it is the one cut, `m` tells the parts apart.
  have heq := h j₀ k₀ I I' x hI hI' hxI hxI'
  rcases hj with ⟨h₁, h₂, h₃⟩ | ⟨h₁, h₂, h₃⟩ | ⟨h₁, h₂, h₃⟩ <;>
    rcases hk with ⟨h₄, h₅, h₆⟩ | ⟨h₄, h₅, h₆⟩ | ⟨h₄, h₅, h₆⟩
  · rw [h₂, h₅]
  · exact absurd h₆ (not_lt.2 h₃)
  · exact absurd (h₄.symm.trans (heq.symm.trans h₁)) h₆
  · exact absurd h₃ (not_lt.2 h₆)
  · rw [h₂, h₅]
  · exact absurd (h₄.symm.trans (heq.symm.trans h₁)) h₆
  · exact absurd (h₁.symm.trans (heq.trans h₄)) h₃
  · exact absurd (h₁.symm.trans (heq.trans h₄)) h₃
  · exact h₁.symm.trans (heq.trans h₄)

theorem Tiles.cut (h : Tiles S cell) (hi : cell i = some (a, b)) (hn : cell n = none) (ham : a ≤ m)
    (hmb : m ≤ b) : Tiles S (cut cell i n a m b) where
  cover x hx := by
    have hin : i ≠ n := by
      rintro rfl
      rw [hi] at hn
      cases hn
    obtain ⟨j, J, hj, hxJ⟩ := h.cover x hx
    have hjn : j ≠ n := by
      rintro rfl
      rw [hj] at hn
      cases hn
    by_cases hji : j = i
    · subst hji
      rw [hi] at hj
      cases hj
      rcases lt_or_ge x m with hxm | hxm
      · exact ⟨j, (a, m), by rw [Interval.cut, Function.update_of_ne hin, Function.update_self],
          hxJ.1, hxm⟩
      · exact ⟨n, (m, b), by rw [Interval.cut, Function.update_self], hxm, hxJ.2⟩
    · exact ⟨j, J, by rw [Interval.cut, Function.update_of_ne hjn, Function.update_of_ne hji, hj],
        hxJ⟩
  inside j J x hj hx := by
    obtain ⟨j₀, I, hI, hxI, -⟩ := holds_of_cut hi ham hmb hj hx
    exact h.inside j₀ I x hI hxI
  apart := h.apart.cut hi ham hmb

end Cut

/-- The intervals of the entries of a list. -/
def cells {β : Type*} (extent : β → α × α) (l : List β) (i : ℕ) : Option (α × α) :=
  (l[i]?).map extent

section Cells

variable {β : Type*} {extent : β → α × α} {l l' : List β} {f : β → β} {i : ℕ} {e e' : β} {m : α}

theorem cells_eq_some {I : α × α} : cells extent l i = some I ↔ ∃ e, l[i]? = some e ∧ extent e = I :=
  Option.map_eq_some_iff

theorem cells_eq_none (h : l.length ≤ i) : cells extent l i = none := by
  rw [cells, List.getElem?_eq_none h]
  rfl

/-- Changing an entry, but not its interval, changes nothing. -/
theorem cells_modify (hf : ∀ e, extent (f e) = extent e) :
    cells extent (l.modify i f) = cells extent l := by
  funext j
  rw [cells, cells, List.getElem?_modify]
  split_ifs with hij
  · subst hij
    cases l[i]? with
    | none => rfl
    | some e => exact congrArg some (hf e)
  · simp

theorem Tiles.modify [LinearOrder α] {S : Set α} (h : Tiles S (cells extent l))
    (hf : ∀ e, extent (f e) = extent e) : Tiles S (cells extent (l.modify i f)) := by
  rw [cells_modify hf]
  exact h

/-- Cutting an entry at `m` and appending one for the rest is a cut. -/
theorem cells_cut (hi : l[i]? = some e) (hf : extent (f e) = ((extent e).1, m))
    (hnew : extent e' = (m, (extent e).2)) :
    cells extent (l.modify i f ++ [e']) =
      cut (cells extent l) i l.length (extent e).1 m (extent e).2 := by
  have hlt : i < l.length := (List.getElem?_eq_some_iff.1 hi).1
  funext j
  rw [cells, cut, List.getElem?_append, List.length_modify]
  rcases lt_trichotomy j l.length with hj | hj | hj
  · rw [if_pos hj, Function.update_of_ne hj.ne, List.getElem?_modify]
    by_cases hij : i = j
    · subst hij
      simp [hi, hf]
    · rw [Function.update_of_ne (Ne.symm hij), cells]
      simp [hij]
  · subst hj
    simp [hnew]
  · rw [if_neg (by omega), Function.update_of_ne hj.ne', Function.update_of_ne (by omega),
      cells_eq_none hj.le, List.getElem?_eq_none (by simp; omega)]
    rfl

/-- The lengths of the intervals that tile the numbers below `n` sum up to `n`. -/
theorem Tiles.sum_length {extent : β → ℕ × ℕ} {n : ℕ} (h : Tiles (Set.Iio n) (cells extent l)) :
    (l.map fun e => (extent e).2 - (extent e).1).sum = n := by
  let I (k : Fin l.length) := extent l[k]
  have hcell (k : Fin l.length) : cells extent l k = some (I k) :=
    cells_eq_some.2 ⟨l[k], List.getElem?_eq_getElem k.2, rfl⟩
  have hunion : Finset.univ.biUnion (fun k => Finset.Ico (I k).1 (I k).2) = Finset.range n := by
    ext x
    simp only [Finset.mem_biUnion, Finset.mem_univ, true_and, Finset.mem_Ico, Finset.mem_range]
    constructor
    · rintro ⟨k, hk⟩
      exact h.inside k (I k) x (hcell k) hk
    · intro hx
      obtain ⟨j, J, hj, hxJ⟩ := h.cover x hx
      obtain ⟨e, he, rfl⟩ := cells_eq_some.1 hj
      obtain ⟨hlt, rfl⟩ := List.getElem?_eq_some_iff.1 he
      exact ⟨⟨j, hlt⟩, hxJ⟩
  have hdisjoint : ∀ j ∈ Finset.univ, ∀ k ∈ Finset.univ, j ≠ k →
      Disjoint (Finset.Ico (I j).1 (I j).2) (Finset.Ico (I k).1 (I k).2) := by
    intro j _ k _ hne
    refine Finset.disjoint_left.2 fun x hj hk => hne (Fin.ext ?_)
    exact h.apart j k (I j) (I k) x (hcell j) (hcell k) (Finset.mem_Ico.1 hj) (Finset.mem_Ico.1 hk)
  have hcard := Finset.card_biUnion hdisjoint
  rw [hunion, Finset.card_range] at hcard
  rw [hcard, ← Fin.sum_univ_fun_getElem]
  exact Finset.sum_congr rfl fun k _ => (Nat.card_Ico _ _).symm

end Cells

end Interval
