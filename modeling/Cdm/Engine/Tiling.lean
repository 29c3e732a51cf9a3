import Cdm.Engine.Orderly
import Cdm.Engine.Session

/-!
# The chunk table tiles the file

The *primary* chunks of the table of a download cover the file, without overlap
(`Tiled`). A split of a slot that was not resumed cuts a primary chunk in two. The slot
of a resumed chunk starts past the start of the chunk, though, so that a split of it
finds no chunk to cut: the chunk appended for the new slot lies within a primary chunk
that keeps its end, and is a *spare* one. A later split may even cut a spare chunk in
place of another one that starts elsewhere, which does no harm.

Which primary chunk the slots of a pool work on (`Owned`) is what makes the next split
keep the tiling, as long as the table has room for the new chunk (`roomForSplit`).
-/

namespace Cdm

variable {n : ℕ} {cs : List DownloadChunk} {prim : ℕ → Prop}

/-- A chunk contains an offset. -/
def DownloadChunk.Contains (c : DownloadChunk) (x : ℕ) : Prop := c.rangeStart ≤ x ∧ x ≤ c.rangeEnd

/-- The chunks with a primary index tile `[0, n)`, and each other chunk lies within a
    primary one that has bytes done. -/
structure Tiled (n : ℕ) (cs : List DownloadChunk) (prim : ℕ → Prop) : Prop where
  lt_length : ∀ i, prim i → i < cs.length
  cover : ∀ x < n, ∃ i c, prim i ∧ cs[i]? = some c ∧ c.Contains x
  meet : ∀ (i j : ℕ) (c c' : DownloadChunk) (x : ℕ), prim i → prim j → cs[i]? = some c → cs[j]? = some c' →
    c.Contains x → c'.Contains x → i = j
  nonempty : ∀ (j : ℕ) (c : DownloadChunk), cs[j]? = some c → c.rangeStart ≤ c.rangeEnd
  spare : ∀ (j : ℕ) (c' : DownloadChunk), cs[j]? = some c' → ¬prim j → ∃ i c, prim i ∧ cs[i]? = some c ∧
    0 < c.bytesDone ∧ c.rangeStart < c'.rangeStart ∧ c'.rangeEnd ≤ c.rangeEnd

/-- The slot `s` works on the primary chunk `c`: on all of it, or on a part past its
    start, if it was resumed. -/
def WorksOn (c : DownloadChunk) (s : PoolSlot) : Prop :=
  c.bytesDone = 0 ∧ s.start = c.rangeStart ∧ s.liveEnd = c.rangeEnd + 1 ∨
    0 < c.bytesDone ∧ c.rangeStart < s.start ∧ s.liveEnd ≤ c.rangeEnd + 1

/-- Every slot works on a primary chunk, alone if the chunk was not resumed. -/
structure Owned (cs : List DownloadChunk) (prim : ℕ → Prop) (slots : List PoolSlot) : Prop where
  start_le : ∀ s ∈ slots, s.start ≤ s.writePos
  nonempty : ∀ s ∈ slots, s.start < s.liveEnd
  owner : ∀ s ∈ slots, ∃ i c, prim i ∧ cs[i]? = some c ∧ WorksOn c s
  alone : ∀ (i : ℕ) (c : DownloadChunk), prim i → cs[i]? = some c → c.bytesDone = 0 →
    ∀ (k k' : ℕ) (s s' : PoolSlot), slots[k]? = some s → slots[k']? = some s' → s.start = c.rangeStart →
      s'.start = c.rangeStart → k = k'

/-- The chunk a slot works on contains the slot. -/
theorem WorksOn.contains {c : DownloadChunk} {s : PoolSlot} {x : ℕ} (h : WorksOn c s)
    (h₁ : s.start ≤ x) (h₂ : x < s.liveEnd) : c.Contains x := by
  rcases h with ⟨-, h, h'⟩ | ⟨-, h, h'⟩
  · exact ⟨by omega, by omega⟩
  · exact ⟨by omega, by omega⟩

/-- A primary chunk is the only one with its start. -/
theorem Tiled.eq_of_start_eq (h : Tiled n cs prim) {i j : ℕ} {c c' : DownloadChunk}
    (hi : prim i) (hc : cs[i]? = some c) (hc' : cs[j]? = some c')
    (hstart : c'.rangeStart = c.rangeStart) : j = i := by
  have hne := h.nonempty _ _ hc
  by_cases hj : prim j
  · exact h.meet j i c' c c.rangeStart hj hi hc' hc
      ⟨hstart.le, hstart ▸ h.nonempty _ _ hc'⟩ ⟨le_rfl, hne⟩
  · obtain ⟨k, e, hk, he, -, hlt, hle⟩ := h.spare j c' hc' hj
    have hne' := h.nonempty _ _ hc'
    have : k = i := h.meet k i e c c.rangeStart hk hi he hc ⟨by omega, by omega⟩ ⟨le_rfl, hne⟩
    subst this
    rw [hc] at he
    cases he
    omega

/-- A slot that starts past the start of its chunk shares its start with no primary
    chunk. -/
theorem Tiled.start_ne (h : Tiled n cs prim) {i j : ℕ} {c c' : DownloadChunk} {x : ℕ}
    (hi : prim i) (hc : cs[i]? = some c) (hlt : c.rangeStart < x) (hle : x ≤ c.rangeEnd)
    (hj : prim j) (hc' : cs[j]? = some c') : c'.rangeStart ≠ x := by
  rintro rfl
  have := h.meet j i c' c _ hj hi hc' hc ⟨le_rfl, h.nonempty _ _ hc'⟩ ⟨hlt.le, hle⟩
  subst this
  rw [hc] at hc'
  cases hc'
  omega

/-! ## Splits -/

section Split

variable {slots : List PoolSlot} {s : PoolSlot} {v : ℕ} {counter : Option ℕ}

/-- The slots after a split. -/
def splitSlots (slots : List PoolSlot) (s : PoolSlot) (v : ℕ) (counter : Option ℕ) :
    List PoolSlot :=
  slots.modify v (fun s => { s with liveEnd := s.middle }) ++
    [⟨s.middle, s.middle, s.liveEnd, true, false, counter⟩]

theorem getElem?_splitSlots {k : ℕ} {s' : PoolSlot} (hv : slots[v]? = some s)
    (h : (splitSlots slots s v counter)[k]? = some s') :
    (k = v ∧ s' = { s with liveEnd := s.middle }) ∨
      (k = slots.length ∧ s' = ⟨s.middle, s.middle, s.liveEnd, true, false, counter⟩) ∨
        (k ≠ v ∧ slots[k]? = some s') := by
  rcases List.getElem?_concat_eq_some.1 h with h | ⟨hk, rfl⟩
  · rcases List.getElem?_modify_eq_some.1 h with ⟨rfl, s₀, hs₀, rfl⟩ | h
    · rw [hv] at hs₀
      cases hs₀
      exact .inl ⟨rfl, rfl⟩
    · exact .inr (.inr h)
  · exact .inr (.inl ⟨by simpa using hk, rfl⟩)

/-- A split of a slot that works on all of its chunk: the chunk is cut in two primary
    ones. -/
theorem Tiled.split_whole (h : Tiled n cs prim) {i : ℕ} {c : DownloadChunk} {m : ℕ}
    (hi : prim i) (hc : cs[i]? = some c) (hdone : c.bytesDone = 0) (hlt : c.rangeStart < m)
    (hle : m ≤ c.rangeEnd) :
    Tiled n (splitChunks cs c.rangeStart m (c.rangeEnd + 1)) (fun j => prim j ∨ j = cs.length) ∧
      (splitChunks cs c.rangeStart m (c.rangeEnd + 1))[i]? = some { c with rangeEnd := m - 1 } ∧
      (splitChunks cs c.rangeStart m (c.rangeEnd + 1))[cs.length]? = some ⟨m, c.rangeEnd, 0⟩ ∧
      ∀ j c', j ≠ i → cs[j]? = some c' →
        (splitChunks cs c.rangeStart m (c.rangeEnd + 1))[j]? = some c' := by
  set cs' := splitChunks cs c.rangeStart m (c.rangeEnd + 1) with hcs'
  have hlen : (cutChunk cs c.rangeStart m).length = cs.length := length_cutChunk
  have hself : cs'[i]? = some { c with rangeEnd := m - 1 } :=
    List.getElem?_concat_eq_some.2 <| .inl <|
      getElem?_cutChunk_self hc rfl fun j c' hc' hs => h.eq_of_start_eq hi hc hc' hs
  have hnew : cs'[cs.length]? = some ⟨m, c.rangeEnd, 0⟩ :=
    List.getElem?_concat_eq_some.2 <| .inr ⟨hlen.symm, by simp⟩
  have hother : ∀ j c', j ≠ i → cs[j]? = some c' → cs'[j]? = some c' := fun j c' hj hc' =>
    List.getElem?_concat_eq_some.2 <| .inl <|
      getElem?_cutChunk_of_ne hc' fun hs => hj (h.eq_of_start_eq hi hc hc' hs)
  have hilt : i < cs.length := h.lt_length i hi
  -- What the table holds after the split.
  have hback : ∀ j c', cs'[j]? = some c' → (j = i ∧ c' = { c with rangeEnd := m - 1 }) ∨
      (j = cs.length ∧ c' = ⟨m, c.rangeEnd, 0⟩) ∨ (j ≠ i ∧ j ≠ cs.length ∧ cs[j]? = some c') := by
    intro j c' hc'
    by_cases hji : j = i
    · subst hji
      rw [hself] at hc'
      cases hc'
      exact .inl ⟨rfl, rfl⟩
    by_cases hjl : j = cs.length
    · subst hjl
      rw [hnew] at hc'
      cases hc'
      exact .inr (.inl ⟨rfl, rfl⟩)
    rcases List.getElem?_concat_eq_some.1 hc' with h' | ⟨h', -⟩
    · obtain ⟨c₀, hc₀, -⟩ := getElem?_cutChunk h'
      have := hother j c₀ hji hc₀
      rw [hc'] at this
      cases this
      exact .inr (.inr ⟨hji, hjl, hc₀⟩)
    · exact absurd (h'.trans hlen) hjl
  have hprim : ∀ j, (prim j ∨ j = cs.length) → j ≠ cs.length → prim j := fun j h hne =>
    h.resolve_right hne
  -- Two chunks that meet after the split met before, or are the two halves.
  have hwas : ∀ j c' x, cs'[j]? = some c' → c'.Contains x → (prim j ∨ j = cs.length) →
      (j = i ∧ x < m ∧ c.Contains x) ∨ (j = cs.length ∧ m ≤ x ∧ c.Contains x) ∨
        (j ≠ i ∧ prim j ∧ cs[j]? = some c') := by
    intro j c' x hc' hx hj
    rcases hback j c' hc' with ⟨rfl, rfl⟩ | ⟨rfl, rfl⟩ | ⟨hji, hjl, hc'⟩
    · refine .inl ⟨rfl, ?_, hx.1, ?_⟩ <;> have := hx.2 <;> simp only at this <;> omega
    · refine .inr (.inl ⟨rfl, hx.1, ?_, hx.2⟩)
      have := hx.1
      simp only at this
      omega
    · exact .inr (.inr ⟨hji, hprim j hj hjl, hc'⟩)
  refine ⟨⟨?_, ?_, ?_, ?_, ?_⟩, hself, hnew, hother⟩
  · rintro j (hj | rfl)
    · have := h.lt_length j hj
      simp only [hcs', splitChunks, List.length_append, hlen, List.length_singleton]
      omega
    · simp only [hcs', splitChunks, List.length_append, hlen, List.length_singleton]
      omega
  · intro x hx
    obtain ⟨j, c', hj, hc', hx⟩ := h.cover x hx
    by_cases hji : j = i
    · subst hji
      rw [hc] at hc'
      cases hc'
      by_cases hxm : x < m
      · exact ⟨j, _, .inl hj, hself, hx.1, by simp only; omega⟩
      · exact ⟨cs.length, _, .inr rfl, hnew, by simp only; omega, hx.2⟩
    · exact ⟨j, c', .inl hj, hother j c' hji hc', hx⟩
  · intro j k c₁ c₂ x hj hk hc₁ hc₂ hx₁ hx₂
    rcases hwas j c₁ x hc₁ hx₁ hj with ⟨rfl, h₁, h₁'⟩ | ⟨rfl, h₁, h₁'⟩ | ⟨h₁, h₁', h₁''⟩ <;>
      rcases hwas k c₂ x hc₂ hx₂ hk with ⟨rfl, h₂, h₂'⟩ | ⟨rfl, h₂, h₂'⟩ | ⟨h₂, h₂', h₂''⟩
    · rfl
    · omega
    · exact absurd (h.meet k j _ _ x h₂' hi h₂'' hc hx₂ h₁') h₂
    · omega
    · rfl
    · exact absurd (h.meet k i _ _ x h₂' hi h₂'' hc hx₂ h₁') h₂
    · exact absurd (h.meet j k _ _ x h₁' hi h₁'' hc hx₁ h₂') h₁
    · exact absurd (h.meet j i _ _ x h₁' hi h₁'' hc hx₁ h₂') h₁
    · exact h.meet j k _ _ x h₁' h₂' h₁'' h₂'' hx₁ hx₂
  · intro j c' hc'
    rcases hback j c' hc' with ⟨rfl, rfl⟩ | ⟨rfl, rfl⟩ | ⟨-, -, hc'⟩
    · simp only
      omega
    · exact hle
    · exact h.nonempty j c' hc'
  · intro j c' hc' hj
    rw [not_or] at hj
    rcases hback j c' hc' with ⟨rfl, rfl⟩ | ⟨rfl, rfl⟩ | ⟨-, -, hc'⟩
    · exact absurd hi hj.1
    · exact absurd rfl hj.2
    · -- The primary chunk around a spare one has bytes done: it is not the one cut.
      obtain ⟨k, e, hk, he, hpos, hlt', hle'⟩ := h.spare j c' hc' hj.1
      refine ⟨k, e, .inl hk, hother k e ?_ he, hpos, hlt', hle'⟩
      rintro rfl
      rw [hc] at he
      cases he
      omega

/-- A split of a slot that works on a part of its chunk: the new chunk is a spare one. -/
theorem Tiled.split_part (h : Tiled n cs prim) {i : ℕ} {c : DownloadChunk} {a m e : ℕ}
    (hi : prim i) (hc : cs[i]? = some c) (hdone : 0 < c.bytesDone) (hlt : c.rangeStart < a)
    (ham : a < m) (hme : m < e) (hle : e ≤ c.rangeEnd + 1) :
    Tiled n (splitChunks cs a m e) prim ∧
      ∀ j c', prim j → cs[j]? = some c' → (splitChunks cs a m e)[j]? = some c' := by
  have hlen : (cutChunk cs a m).length = cs.length := length_cutChunk
  have hkeep : ∀ j c', prim j → cs[j]? = some c' → (splitChunks cs a m e)[j]? = some c' :=
    fun j c' hj hc' => List.getElem?_concat_eq_some.2 <| .inl <|
      getElem?_cutChunk_of_ne hc' (h.start_ne hi hc hlt (by omega) hj hc')
  have hsame : ∀ j c', prim j → (splitChunks cs a m e)[j]? = some c' → cs[j]? = some c' := by
    intro j c' hj hc'
    have hc₀ := List.getElem?_eq_getElem (h.lt_length j hj)
    rw [hkeep j _ hj hc₀] at hc'
    cases hc'
    exact hc₀
  -- The ranges of the spare chunks only shrink, and the new one is within `c`.
  have hback : ∀ j c', (splitChunks cs a m e)[j]? = some c' →
      (c' = ⟨m, e - 1, 0⟩ ∧ j = cs.length) ∨ ∃ c₀, cs[j]? = some c₀ ∧
        c'.rangeStart = c₀.rangeStart ∧
          (c'.rangeEnd = c₀.rangeEnd ∨ c₀.rangeStart = a ∧ c'.rangeEnd = m - 1) := by
    intro j c' hc'
    rcases List.getElem?_concat_eq_some.1 hc' with h' | ⟨hj, rfl⟩
    · obtain ⟨c₀, hc₀, hs, -, he⟩ := getElem?_cutChunk h'
      exact .inr ⟨c₀, hc₀, hs, he⟩
    · exact .inl ⟨rfl, hj.trans hlen⟩
  refine ⟨⟨?_, ?_, ?_, ?_, ?_⟩, hkeep⟩
  · intro j hj
    have := h.lt_length j hj
    simp only [splitChunks, List.length_append, hlen, List.length_singleton]
    omega
  · intro x hx
    obtain ⟨j, c', hj, hc', hx⟩ := h.cover x hx
    exact ⟨j, c', hj, hkeep j c' hj hc', hx⟩
  · intro j k c₁ c₂ x hj hk hc₁ hc₂
    exact h.meet j k c₁ c₂ x hj hk (hsame j c₁ hj hc₁) (hsame k c₂ hk hc₂)
  · intro j c' hc'
    rcases hback j c' hc' with ⟨rfl, -⟩ | ⟨c₀, hc₀, hs, he⟩
    · simp only
      omega
    · have := h.nonempty j c₀ hc₀
      omega
  · intro j c' hc' hj
    rcases hback j c' hc' with ⟨rfl, -⟩ | ⟨c₀, hc₀, hs, he⟩
    · exact ⟨i, c, hi, hkeep i c hi hc, hdone, by simp only; omega, by simp only; omega⟩
    · obtain ⟨k, d, hk, hd, hpos, hlt', hle'⟩ := h.spare j c₀ hc₀ hj
      refine ⟨k, d, hk, hkeep k d hk hd, hpos, by omega, ?_⟩
      rcases he with he | ⟨hstart, he⟩
      · omega
      · -- The spare chunk that is cut lies within `c` too.
        have hne := h.nonempty j c₀ hc₀
        have := h.meet k i d c a hk hi hd hc ⟨by omega, by omega⟩ ⟨by omega, by omega⟩
        subst this
        rw [hc] at hd
        cases hd
        omega

theorem PoolSlot.middle_bounds (hrem : 2 ≤ s.remaining) :
    s.writePos < s.middle ∧ s.middle < s.liveEnd := by
  simp only [PoolSlot.remaining, PoolSlot.middle] at *
  omega

/-- The slots after a split that works out on the table `cs'`, `prim'`. -/
theorem Owned.split {cs' : List DownloadChunk} {prim' : ℕ → Prop} (h : Owned cs prim slots)
    (hv : slots[v]? = some s) (hrem : 2 ≤ s.remaining)
    (hcut : ∃ i c, prim' i ∧ cs'[i]? = some c ∧ WorksOn c { s with liveEnd := s.middle })
    (hnew : ∃ i c, prim' i ∧ cs'[i]? = some c ∧
      WorksOn c ⟨s.middle, s.middle, s.liveEnd, true, false, counter⟩)
    (hother : ∀ k s', k ≠ v → slots[k]? = some s' →
      ∃ i c, prim' i ∧ cs'[i]? = some c ∧ WorksOn c s')
    (halone : ∀ i c, prim' i → cs'[i]? = some c → c.bytesDone = 0 →
      (c.rangeStart = s.middle ∧ ∀ s' ∈ slots, s'.start ≠ s.middle) ∨
        (c.rangeStart ≠ s.middle ∧ ∀ (k k' : ℕ) (s₁ s₂ : PoolSlot), slots[k]? = some s₁ →
          slots[k']? = some s₂ → s₁.start = c.rangeStart → s₂.start = c.rangeStart → k = k')) :
    Owned cs' prim' (splitSlots slots s v counter) := by
  obtain ⟨hwm, hml⟩ := s.middle_bounds hrem
  have hs := h.start_le s (List.mem_of_getElem? hv)
  refine ⟨fun s' hs' => ?_, fun s' hs' => ?_, fun s' hs' => ?_, ?_⟩
  · obtain ⟨k, hk⟩ := List.mem_iff_getElem?.1 hs'
    -- The slot that is cut, the new one, or another.
    rcases getElem?_splitSlots hv hk with ⟨-, rfl⟩ | ⟨-, rfl⟩ | ⟨-, hk⟩
    · exact hs
    · exact le_rfl
    · exact h.start_le s' (List.mem_of_getElem? hk)
  · obtain ⟨k, hk⟩ := List.mem_iff_getElem?.1 hs'
    rcases getElem?_splitSlots hv hk with ⟨-, rfl⟩ | ⟨-, rfl⟩ | ⟨-, hk⟩
    · exact hs.trans_lt hwm
    · exact hml
    · exact h.nonempty s' (List.mem_of_getElem? hk)
  · obtain ⟨k, hk⟩ := List.mem_iff_getElem?.1 hs'
    rcases getElem?_splitSlots hv hk with ⟨-, rfl⟩ | ⟨-, rfl⟩ | ⟨hkv, hk⟩
    · exact hcut
    · exact hnew
    · exact hother k s' hkv hk
  · -- The start of every slot but the new one is the start of a slot before.
    have hold : ∀ (k : ℕ) (s' : PoolSlot), (splitSlots slots s v counter)[k]? = some s' →
        (k = slots.length ∧ s'.start = s.middle) ∨
          ∃ s₀, slots[k]? = some s₀ ∧ s'.start = s₀.start := by
      intro k s' hk
      rcases getElem?_splitSlots hv hk with ⟨rfl, rfl⟩ | ⟨rfl, rfl⟩ | ⟨-, hk⟩
      · exact .inr ⟨s, hv, rfl⟩
      · exact .inl ⟨rfl, rfl⟩
      · exact .inr ⟨s', hk, rfl⟩
    intro i c hi hc hdone k k' s₁ s₂ hk hk' h₁ h₂
    rcases halone i c hi hc hdone with ⟨hm, hno⟩ | ⟨hm, huniq⟩
    · rcases hold k s₁ hk with ⟨rfl, -⟩ | ⟨s₀, hs₀, he⟩
      · rcases hold k' s₂ hk' with ⟨rfl, -⟩ | ⟨s₀, hs₀, he⟩
        · rfl
        · exact absurd (by rw [← he, h₂, hm]) (hno s₀ (List.mem_of_getElem? hs₀))
      · exact absurd (by rw [← he, h₁, hm]) (hno s₀ (List.mem_of_getElem? hs₀))
    · rcases hold k s₁ hk with ⟨-, he⟩ | ⟨s₀, hs₀, he⟩
      · exact absurd (h₁.symm.trans he) hm
      · rcases hold k' s₂ hk' with ⟨-, he'⟩ | ⟨s₀', hs₀', he'⟩
        · exact absurd (h₂.symm.trans he') hm
        · exact huniq k k' s₀ s₀' hs₀ hs₀' (he ▸ h₁) (he' ▸ h₂)

/-- A primary chunk after the split of the slot `s` is one from before that starts
    elsewhere, the one cut, or the new one. -/
def FromSplit (cs : List DownloadChunk) (prim : ℕ → Prop) (s : PoolSlot) (j : ℕ)
    (c : DownloadChunk) : Prop :=
  (prim j ∧ cs[j]? = some c ∧ c.rangeStart ≠ s.start) ∨
    (∃ c₀, prim j ∧ cs[j]? = some c₀ ∧ c₀.rangeStart = s.start ∧
      c = { c₀ with rangeEnd := s.middle - 1 }) ∨
    c = ⟨s.middle, s.liveEnd - 1, 0⟩

/-- A split keeps the table tiled, and the slots on primary chunks. -/
theorem Tiled.split (h : Tiled n cs prim) (ho : Owned cs prim slots) (hv : slots[v]? = some s)
    (hrem : 2 ≤ s.remaining) (counter : Option ℕ) :
    ∃ prim', Tiled n (splitChunks cs s.start s.middle s.liveEnd) prim' ∧
      Owned (splitChunks cs s.start s.middle s.liveEnd) prim' (splitSlots slots s v counter) ∧
      ∀ j c, prim' j → (splitChunks cs s.start s.middle s.liveEnd)[j]? = some c →
        FromSplit cs prim s j c := by
  have hmem := List.mem_of_getElem? hv
  obtain ⟨hwm, hml⟩ := s.middle_bounds hrem
  have hsw := ho.start_le s hmem
  obtain ⟨i, c, hi, hc, hworks⟩ := ho.owner s hmem
  -- The middle lies in no other primary chunk, and no slot starts there.
  have hmid : c.Contains s.middle := hworks.contains (by omega) hml
  have honly : ∀ j c', prim j → cs[j]? = some c' → c'.Contains s.middle → j = i :=
    fun j c' hj hc' hx => h.meet j i c' c _ hj hi hc' hc hx hmid
  rcases hworks with ⟨hdone, hstart, hend⟩ | ⟨hdone, hstart, hend⟩
  · rw [hstart, hend]
    obtain ⟨htiled, hself, hnew, hother⟩ :=
      h.split_whole hi hc hdone (by omega : c.rangeStart < s.middle) hmid.2
    refine ⟨_, htiled, ho.split hv hrem ⟨i, _, .inl hi, hself, .inl ⟨hdone, hstart, ?_⟩⟩
      ⟨cs.length, _, .inr rfl, hnew, .inl ⟨rfl, rfl, hend⟩⟩ (fun k s' hkv hk => ?_) ?_,
      fun j c' hj hc' => ?_⟩
    · simp only
      omega
    · obtain ⟨j, c', hj, hc', hworks'⟩ := ho.owner s' (List.mem_of_getElem? hk)
      refine ⟨j, c', .inl hj, hother j c' ?_ hc', hworks'⟩
      rintro rfl
      rw [hc] at hc'
      cases hc'
      rcases hworks' with ⟨-, hs', -⟩ | ⟨hpos, -⟩
      · exact hkv (ho.alone j c hj hc hdone k v s' s hk hv hs' hstart)
      · omega
    · intro j c' hj hc' hdone'
      by_cases hjl : j = cs.length
      · subst hjl
        rw [hnew] at hc'
        cases hc'
        refine .inl ⟨rfl, fun s' hs' heq => ?_⟩
        -- A slot that starts at the middle would work on the chunk that is cut.
        obtain ⟨k, c', hk, hc', hworks'⟩ := ho.owner s' hs'
        have hki := honly k c' hk hc' (hworks'.contains heq.le (heq ▸ ho.nonempty s' hs'))
        subst hki
        rw [hc] at hc'
        cases hc'
        rcases hworks' with ⟨-, hs', -⟩ | ⟨hpos, -⟩ <;> omega
      · have hj : prim j := hj.resolve_right hjl
        obtain ⟨c₀, hc₀, hs₀, hd₀⟩ : ∃ c₀, cs[j]? = some c₀ ∧ c'.rangeStart = c₀.rangeStart ∧
            c₀.bytesDone = 0 := by
          by_cases hji : j = i
          · subst hji
            rw [hself] at hc'
            cases hc'
            exact ⟨c, hc, rfl, hdone⟩
          · have hc₀ := List.getElem?_eq_getElem (h.lt_length j hj)
            rw [hother j _ hji hc₀] at hc'
            cases hc'
            exact ⟨_, hc₀, rfl, hdone'⟩
        refine .inr ⟨fun heq => ?_, ?_⟩
        · have hne := h.nonempty j c₀ hc₀
          have hji := honly j c₀ hj hc₀ ⟨by omega, by omega⟩
          subst hji
          rw [hc] at hc₀
          cases hc₀
          omega
        · rw [hs₀]
          exact ho.alone j c₀ hj hc₀ hd₀
    · by_cases hji : j = i
      · subst hji
        rw [hself] at hc'
        cases hc'
        exact .inr (.inl ⟨c, hi, hc, hstart.symm, rfl⟩)
      · by_cases hjl : j = cs.length
        · subst hjl
          rw [hnew] at hc'
          cases hc'
          exact .inr (.inr (by rw [hend]; rfl))
        · have hj : prim j := hj.resolve_right hjl
          have hc₀ := List.getElem?_eq_getElem (h.lt_length j hj)
          rw [hother j _ hji hc₀] at hc'
          cases hc'
          refine .inl ⟨hj, hc₀, fun he => hji (h.eq_of_start_eq hi hc hc₀ ?_)⟩
          rw [he, hstart]
  · obtain ⟨htiled, hkeep⟩ := h.split_part hi hc hdone hstart (by omega) hml hend
    refine ⟨prim, htiled, ho.split hv hrem
      ⟨i, c, hi, hkeep i c hi hc, .inr ⟨hdone, hstart, by simp only; omega⟩⟩
      ⟨i, c, hi, hkeep i c hi hc, .inr ⟨hdone, by simp only; omega, hend⟩⟩
      (fun k s' _ hk => ?_) ?_, fun j c' hj hc' => ?_⟩
    · obtain ⟨j, c', hj, hc', hworks'⟩ := ho.owner s' (List.mem_of_getElem? hk)
      exact ⟨j, c', hj, hkeep j c' hj hc', hworks'⟩
    · intro j c' hj hc' hdone'
      have hc₀ := List.getElem?_eq_getElem (h.lt_length j hj)
      rw [hkeep j _ hj hc₀] at hc'
      cases hc'
      refine .inr ⟨fun heq => ?_, ho.alone j _ hj hc₀ hdone'⟩
      have hji := honly j _ hj hc₀ ⟨heq.le, heq ▸ h.nonempty j _ hc₀⟩
      subst hji
      rw [hc] at hc₀
      cases hc₀
      omega
    · have hc₀ := List.getElem?_eq_getElem (h.lt_length j hj)
      rw [hkeep j _ hj hc₀] at hc'
      cases hc'
      exact .inl ⟨hj, hc₀, h.start_ne hi hc hstart (by omega) hj hc₀⟩

end Split

/-- Progress in a slot, or its end, does not change what it works on. -/
theorem Owned.modify {slots : List PoolSlot} {k : ℕ} {f : PoolSlot → PoolSlot}
    (h : Owned cs prim slots) (hstart : ∀ s, (f s).start = s.start)
    (hend : ∀ s, (f s).liveEnd = s.liveEnd) (hpos : ∀ s, s.writePos ≤ (f s).writePos) :
    Owned cs prim (slots.modify k f) := by
  refine ⟨List.forall_mem_modify h.start_le fun s hs => ?_,
    List.forall_mem_modify h.nonempty fun s hs => ?_,
    List.forall_mem_modify h.owner fun s hs => ?_, ?_⟩
  · rw [hstart]
    exact (h.start_le s (List.mem_of_getElem? hs)).trans (hpos s)
  · rw [hstart, hend]
    exact h.nonempty s (List.mem_of_getElem? hs)
  · obtain ⟨i, c, hi, hc, hworks⟩ := h.owner s (List.mem_of_getElem? hs)
    exact ⟨i, c, hi, hc, by rw [WorksOn, hstart, hend]; exact hworks⟩
  · have hold : ∀ (j : ℕ) (s : PoolSlot), (slots.modify k f)[j]? = some s →
        ∃ s₀, slots[j]? = some s₀ ∧ s.start = s₀.start := by
      intro j s hs
      rcases List.getElem?_modify_eq_some.1 hs with ⟨-, s₀, hs₀, rfl⟩ | ⟨-, hs₀⟩
      · exact ⟨s₀, hs₀, hstart s₀⟩
      · exact ⟨s, hs₀, rfl⟩
    intro i c hi hc hdone j j' s s' hj hj' h₁ h₂
    obtain ⟨s₀, hs₀, he⟩ := hold j s hj
    obtain ⟨s₀', hs₀', he'⟩ := hold j' s' hj'
    exact h.alone i c hi hc hdone j j' s₀ s₀' hs₀ hs₀' (he ▸ h₁) (he' ▸ h₂)

/-! ## Plans -/

/-- The chunks of the ranges of a fresh plan. -/
def chunksOfRanges (rs : List Range) : List DownloadChunk := rs.map fun r => ⟨r.start, r.last, 0⟩

/-- The ranges of the segmenter tile the file. -/
theorem tiled_segmenterPlan {size : UInt64} {k : ℕ} (hT : 0 < size.toNat) (hk : 0 < k) :
    Tiled size.toNat (chunksOfRanges (segmenterPlan size k))
      (· < (segmenterPlan size k).length) := by
  obtain ⟨m, chunk, hm, -, hchunk, hle, heq⟩ := segmenterPlan_eq hT hk
  have hget : ∀ i c, (chunksOfRanges (segmenterPlan size k))[i]? = some c ↔ i < m ∧
      c = ⟨i * chunk, if i + 1 = m then size.toNat - 1 else (i + 1) * chunk - 1, 0⟩ := by
    intro i c
    rw [chunksOfRanges, heq, List.map_map, List.getElem?_map]
    by_cases hi : i < m
    · simp [hi, eq_comm]
    · simp [hi]
  have hlen : (segmenterPlan size k).length = m := by
    rw [heq, List.length_map, List.length_range]
  have hmul : ∀ i, (i + 1) * chunk = i * chunk + chunk := fun i => by ring
  have hmono : ∀ i j, i ≤ j → i * chunk ≤ j * chunk := fun i j => Nat.mul_le_mul_right chunk
  rw [hlen]
  refine ⟨fun i hi => ?_, fun x hx => ?_, ?_, ?_, ?_⟩
  · rw [chunksOfRanges, List.length_map, hlen]
    exact hi
  · -- The range of an offset is its quotient, or the last one.
    have hdiv := Nat.div_add_mod x chunk
    have hmod := Nat.mod_lt x hchunk
    rw [Nat.mul_comm] at hdiv
    by_cases hlast : x / chunk + 1 < m
    · refine ⟨x / chunk, _, (by omega : x / chunk < m), (hget _ _).2 ⟨by omega, rfl⟩, ?_, ?_⟩
      · simp only
        omega
      · simp only
        rw [if_neg (by omega), hmul]
        omega
    · refine ⟨m - 1, _, (by omega : m - 1 < m), (hget _ _).2 ⟨by omega, rfl⟩, ?_, ?_⟩
      · have := hmono (m - 1) (x / chunk) (by omega)
        simp only
        omega
      · simp only
        rw [if_pos (by omega)]
        omega
  · intro i j c c' x hi hj hc hc' hx hx'
    obtain ⟨-, rfl⟩ := (hget i c).1 hc
    obtain ⟨-, rfl⟩ := (hget j c').1 hc'
    -- Two ranges do not meet: the one of `a` ends before the one of `b` starts.
    have hbound : ∀ a b, a < b → b < m → b * chunk ≤ x →
        ¬x ≤ if a + 1 = m then size.toNat - 1 else (a + 1) * chunk - 1 := by
      intro a b hab hb h₁ h₂
      rw [if_neg (by omega)] at h₂
      have := hmono (a + 1) b (by omega)
      have := hmul a
      omega
    rcases lt_trichotomy i j with hij | hij | hij
    · exact absurd hx.2 (hbound i j hij hj hx'.1)
    · exact hij
    · exact absurd hx'.2 (hbound j i hij hi hx.1)
  · intro j c hc
    obtain ⟨hj, rfl⟩ := (hget j c).1 hc
    have h₁ := hmul j
    have h₂ := hmono (j + 1) m (by omega)
    simp only
    split_ifs <;> omega
  · intro j c' hc' hj
    exact absurd ((hget j c').1 hc').1 hj

/-- A plan is that of the segmenter, or a single range of the whole file. -/
theorem freshRanges_cases {info : FileInfo} (hT : 0 < info.totalSize.toNat) :
    freshRanges info = segmenterPlan info.totalSize (chooseWorkerCount info.totalSize.toNat) ∧
        info.supportsRanges = true ∨
      freshRanges info = [⟨0, info.totalSize.toNat - 1, 0, true⟩] := by
  by_cases h : info.supportsRanges = true
  · exact .inl ⟨if_pos ⟨hT, h⟩, h⟩
  · refine .inr ((if_neg fun h' => h h'.2).trans ?_)
    rw [if_pos hT]

/-- The chunk table has room for a fresh plan. -/
theorem length_freshRanges_le (info : FileInfo) : (freshRanges info).length ≤ qmMaxChunks := by
  rw [freshRanges]
  by_cases h : 0 < info.totalSize.toNat ∧ info.supportsRanges = true
  · obtain ⟨m, chunk, -, hm, -, -, heq⟩ :=
      segmenterPlan_eq h.1 (chooseWorkerCount_pos info.totalSize.toNat)
    rw [if_pos h, heq, List.length_map, List.length_range]
    exact hm.trans (chooseWorkerCount_le _)
  · rw [if_neg h, List.length_singleton]
    decide

theorem persistPlan_freshRanges (w : World) (info : FileInfo) :
    (persistPlan w (freshRanges info)).d.chunks = chunksOfRanges (freshRanges info) := by
  rw [persistPlan_chunks, List.take_of_length_le (length_freshRanges_le info), chunksOfRanges]

/-- Nothing of a fresh plan is there already. -/
theorem resumeOffset_of_mem_freshRanges {info : FileInfo} {r : Range} (h : r ∈ freshRanges info) :
    r.resumeOffset = 0 := by
  rw [freshRanges] at h
  by_cases hr : 0 < info.totalSize.toNat ∧ info.supportsRanges = true
  · rw [if_pos hr, segmenterPlan] at h
    split_ifs at h
    · cases h
    · obtain ⟨i, -, rfl⟩ := List.mem_map.1 h
      rfl
    · obtain ⟨i, -, rfl⟩ := List.mem_map.1 h
      rfl
  · rw [if_neg hr] at h
    rw [List.mem_singleton.1 h]

/-- The ranges of a fresh plan tile the file. -/
theorem tiled_freshRanges (info : FileInfo) (hT : 0 < info.totalSize.toNat) :
    Tiled info.totalSize.toNat (chunksOfRanges (freshRanges info))
      (· < (freshRanges info).length) := by
  rcases freshRanges_cases hT with ⟨h, -⟩ | h
  · rw [h]
    exact tiled_segmenterPlan hT (chooseWorkerCount_pos _)
  · rw [h]
    refine ⟨fun i hi => hi, fun x hx => ?_, fun i j c c' x hi hj => ?_, ?_, ?_⟩
    · refine ⟨0, ⟨0, info.totalSize.toNat - 1, 0⟩, one_pos, rfl, Nat.zero_le _, ?_⟩
      simp only
      omega
    · simp only [List.length_singleton] at hi hj
      omega
    · intro j c hc
      rw [chunksOfRanges, List.map_singleton, List.getElem?_singleton] at hc
      split_ifs at hc
      cases hc
      exact Nat.zero_le _
    · intro j c' hc' hj
      rw [chunksOfRanges, List.map_singleton, List.getElem?_singleton, if_neg] at hc'
      · cases hc'
      · simp only [List.length_singleton] at hj
        omega

theorem resumeRange_of_ranges {info : FileInfo} (h : info.supportsRanges = true)
    (c : DownloadChunk) :
    resumeRange info c = ⟨c.rangeStart, c.rangeEnd, c.bytesDone, false⟩ := by
  simp [resumeRange, h]

theorem resumeRanges_chunksOfRanges {info : FileInfo} (hr : info.supportsRanges = true)
    {rs : List Range}
    (h : ∀ r ∈ rs, r.start ≤ r.last ∧ r.resumeOffset = 0 ∧ r.wholeFile = false) (i : ℕ) :
    resumeRanges info i (chunksOfRanges rs) = rs.mapIdx fun k r => (i + k, r) := by
  induction rs generalizing i with
  | nil => rfl
  | cons r rs ih =>
    obtain ⟨hle, hoff, hwhole⟩ := h r List.mem_cons_self
    have hnot : chunkIsComplete ⟨r.start, r.last, 0⟩ = false := chunkIsComplete_eq_false.2 hle
    rw [chunksOfRanges, List.map_cons, resumeRanges, hnot, if_neg Bool.false_ne_true,
      resumeRange_of_ranges hr, List.mapIdx_cons, ← chunksOfRanges,
      ih fun r hr => h r (List.mem_cons_of_mem _ hr)]
    congr 2
    · rw [← hoff, ← hwhole]
    · funext k r
      rw [Nat.add_assoc, Nat.add_comm 1]

/-- With range support, to start afresh is to resume the chunks of the fresh plan. -/
theorem freshRanges_mapIdx {info : FileInfo} (hT : 0 < info.totalSize.toNat)
    (hr : info.supportsRanges = true) :
    ((freshRanges info).mapIdx fun i r => (i, r)) =
      resumeRanges info 0 (chunksOfRanges (freshRanges info)) := by
  have htiled := tiled_freshRanges info hT
  rw [resumeRanges_chunksOfRanges hr]
  · simp
  · intro r hmem
    have hne : r.start ≤ r.last := by
      obtain ⟨j, hj⟩ := List.mem_iff_getElem?.1 hmem
      exact htiled.nonempty j ⟨r.start, r.last, 0⟩ (by rw [chunksOfRanges, List.getElem?_map, hj]; rfl)
    refine ⟨hne, ?_⟩
    rw [freshRanges, if_pos ⟨hT, hr⟩, segmenterPlan] at hmem
    split_ifs at hmem
    · cases hmem
    · obtain ⟨i, -, rfl⟩ := List.mem_map.1 hmem
      exact ⟨rfl, rfl⟩
    · obtain ⟨i, -, rfl⟩ := List.mem_map.1 hmem
      exact ⟨rfl, rfl⟩

/-- The slots of the resumed chunks work on primary chunks. -/
theorem Tiled.owned_resumeRanges {info : FileInfo} (h : Tiled n cs prim)
    (hr : info.supportsRanges = true) : Owned cs prim ((resumeRanges info 0 cs).map slotOf) := by
  -- A slot comes from an incomplete chunk, from its first missing byte on.
  have hslot : ∀ (k : ℕ) (s : PoolSlot), ((resumeRanges info 0 cs).map slotOf)[k]? = some s →
      ∃ j c, (resumeRanges info 0 cs)[k]? = some (j, resumeRange info c) ∧ cs[j]? = some c ∧
        s.start = c.rangeStart + c.bytesDone ∧ s.writePos = s.start ∧
          s.liveEnd = c.rangeEnd + 1 ∧ s.start < s.liveEnd := by
    intro k s hs
    rw [List.getElem?_map] at hs
    obtain ⟨⟨j, r⟩, hj, rfl⟩ := Option.map_eq_some_iff.1 hs
    obtain ⟨c, -, hc, hcomp, rfl⟩ := mem_resumeRanges.1 (List.mem_of_getElem? hj)
    refine ⟨j, c, hj, hc, ?_, rfl, ?_, ?_⟩
    · simp [slotOf, Range.offset, resumeRange_of_ranges hr]
    · simp [slotOf, resumeRange_of_ranges hr]
    · rw [chunkIsComplete_eq_false] at hcomp
      simp only [slotOf, Range.offset, resumeRange_of_ranges hr]
      omega
  have howner : ∀ (j : ℕ) (c : DownloadChunk) (s : PoolSlot), cs[j]? = some c →
      s.start = c.rangeStart + c.bytesDone → s.liveEnd = c.rangeEnd + 1 →
        ∃ i c, prim i ∧ cs[i]? = some c ∧ WorksOn c s := by
    intro j c s hc hs he
    by_cases hj : prim j
    · refine ⟨j, c, hj, hc, ?_⟩
      rcases Nat.eq_zero_or_pos c.bytesDone with h0 | h0
      · exact .inl ⟨h0, by omega, he⟩
      · exact .inr ⟨h0, by omega, he.le⟩
    · obtain ⟨i, e, hi, he', hpos, hlt, hle⟩ := h.spare j c hc hj
      exact ⟨i, e, hi, he', .inr ⟨hpos, by omega, by omega⟩⟩
  refine ⟨fun s hs => ?_, fun s hs => ?_, fun s hs => ?_, ?_⟩
  · obtain ⟨k, hk⟩ := List.mem_iff_getElem?.1 hs
    obtain ⟨j, c, -, -, -, hw, -⟩ := hslot k s hk
    exact hw.ge
  · obtain ⟨k, hk⟩ := List.mem_iff_getElem?.1 hs
    obtain ⟨j, c, -, -, -, -, -, hlt⟩ := hslot k s hk
    exact hlt
  · obtain ⟨k, hk⟩ := List.mem_iff_getElem?.1 hs
    obtain ⟨j, c, -, hc, hs, -, he, -⟩ := hslot k s hk
    exact howner j c s hc hs he
  · intro i c hi hc hdone
    -- A slot that starts where the chunk does comes from the chunk.
    have hfrom : ∀ (k : ℕ) (s : PoolSlot), ((resumeRanges info 0 cs).map slotOf)[k]? = some s →
        s.start = c.rangeStart → ∃ r, (resumeRanges info 0 cs)[k]? = some (i, r) := by
      intro k s hk hstart
      obtain ⟨j, c', hj, hc', hs, -, he, hlt⟩ := hslot k s hk
      obtain ⟨i', e, hi', he', hworks⟩ := howner j c' s hc' hs he
      have heq := h.meet i' i e c c.rangeStart hi' hi he' hc
        (hworks.contains (by omega) (by omega)) ⟨le_rfl, h.nonempty i c hc⟩
      subst heq
      rw [hc] at he'
      cases he'
      suffices hji : j = i' by
        subst hji
        exact ⟨_, hj⟩
      by_cases hjp : prim j
      · exact h.meet j i' c' c c.rangeStart hjp hi hc' hc ⟨by omega, by omega⟩
          ⟨le_rfl, h.nonempty i' c hc⟩
      · obtain ⟨k', e', hk', he', hpos, hlt', hle'⟩ := h.spare j c' hc' hjp
        have heq := h.meet k' i' e' c c.rangeStart hk' hi he' hc ⟨by omega, by omega⟩
          ⟨le_rfl, h.nonempty i' c hc⟩
        subst heq
        rw [hc] at he'
        cases he'
        omega
    intro k k' s s' hk hk' hs hs'
    obtain ⟨r, hr⟩ := hfrom k s hk hs
    obtain ⟨r', hr'⟩ := hfrom k' s' hk' hs'
    exact index_eq_of_resumeRanges hr hr'

end Cdm
