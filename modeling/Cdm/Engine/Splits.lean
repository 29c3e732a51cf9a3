import Cdm.Lib.ListUpdate
import Cdm.Engine.Plan

/-!
# What a split does

No slot of a pool is ever orphaned: a slot is released only when it is exhausted
(`RebalancePool.NoOrphan`). So a worker that looks for more to do either finds
nothing, or splits a slot (`Acquired`): the slot of the victim is cut at its middle, a
new slot is added, and the chunk table is changed by `splitChunks`, which cuts the
first chunk that starts where the victim's slot does and appends a chunk for the new
slot.
-/

namespace Cdm

/-! ## The victim -/

namespace RebalancePool

variable {p : RebalancePool}

/-- Every slot is worked on, or exhausted. -/
def NoOrphan (p : RebalancePool) : Prop := ∀ s ∈ p.slots, s.exhausted = true ∨ s.claimed = true

theorem NoOrphan.orphan_eq_none (h : p.NoOrphan) : p.orphan = none := by
  refine List.find?_eq_none.2 fun x hx => ?_
  rcases h _ (List.mem_of_getElem? (List.mk_mem_zipIdx_iff_getElem?.1 hx)) with h | h <;> simp [h]

/-- A slot of the pool that may be stolen from. -/
structure Stealable (p : RebalancePool) (s : PoolSlot) (v : ℕ) : Prop where
  get : p.slots[v]? = some s
  claimed : s.claimed = true
  exhausted : s.exhausted = false

theorem foldl_busier {xs : List (PoolSlot × ℕ)} {best : Option (PoolSlot × ℕ)}
    (hxs : ∀ x ∈ xs, p.slots[x.2]? = some x.1) (hbest : ∀ x ∈ best, p.Stealable x.1 x.2) :
    ∀ x ∈ xs.foldl busier best, p.Stealable x.1 x.2 := by
  induction xs generalizing best with
  | nil => exact hbest
  | cons y ys ih =>
    refine ih (fun x hx => hxs x (List.mem_cons_of_mem _ hx)) fun x hx => ?_
    rw [busier] at hx
    split_ifs at hx with h₁ h₂
    · exact hbest x hx
    · cases hx
      have hy := hxs y List.mem_cons_self
      simp only [Bool.or_eq_true, Bool.not_eq_true', not_or, Bool.not_eq_true,
        Bool.not_eq_false] at h₁
      exact ⟨hy, h₁.2, h₁.1⟩
    · exact hbest x hx

/-- The victim is worked on, has enough to steal, and the pool has room for a slot. -/
theorem victim_spec {s : PoolSlot} {v : ℕ} (h : p.victim = some (s, v)) :
    p.Stealable s v ∧ p.minStealBytes ≤ s.remaining ∧ p.slots.length < maxWorkers := by
  rw [victim] at h
  split at h
  · cases h
  · rename_i x hx
    split_ifs at h with hle
    cases h
    rw [not_or, not_lt, not_le] at hle
    refine ⟨foldl_busier (fun x hx => ?_) (by simp) _ hx, hle⟩
    exact List.mk_mem_zipIdx_iff_getElem?.1 hx

end RebalancePool

/-! ## The chunk table -/

/-- Cutting the first chunk that starts at `victimStart` before `newStart`. -/
def cutChunk (cs : List DownloadChunk) (victimStart newStart : ℕ) : List DownloadChunk :=
  match cs.findIdx? (·.rangeStart = victimStart) with
  | none => cs
  | some j => cs.modify j fun c => { c with rangeEnd := newStart - 1 }

/-- The chunk table after a split, if it has room. -/
def splitChunks (cs : List DownloadChunk) (victimStart newStart newEnd : ℕ) :
    List DownloadChunk :=
  cutChunk cs victimStart newStart ++ [⟨newStart, newEnd - 1, 0⟩]

variable {cs : List DownloadChunk} {victimStart newStart newEnd : ℕ}

theorem length_cutChunk : (cutChunk cs victimStart newStart).length = cs.length := by
  rw [cutChunk]
  split <;> simp

/-- A chunk of the table after a cut is one of the table before, or the one cut. -/
theorem getElem?_cutChunk {j : ℕ} {c : DownloadChunk}
    (h : (cutChunk cs victimStart newStart)[j]? = some c) : ∃ c₀, cs[j]? = some c₀ ∧
      c.rangeStart = c₀.rangeStart ∧ c.bytesDone = c₀.bytesDone ∧
        (c.rangeEnd = c₀.rangeEnd ∨
          c₀.rangeStart = victimStart ∧ c.rangeEnd = newStart - 1) := by
  rw [cutChunk] at h
  split at h
  · exact ⟨c, h, rfl, rfl, .inl rfl⟩
  · rename_i i hi
    obtain ⟨hlt, hstart, -⟩ := List.findIdx?_eq_some_iff_getElem.1 hi
    rcases List.getElem?_modify_eq_some.1 h with ⟨rfl, c₀, hc₀, rfl⟩ | ⟨-, hc₀⟩
    · rw [List.getElem?_eq_getElem hlt] at hc₀
      cases hc₀
      exact ⟨_, List.getElem?_eq_getElem hlt, rfl, rfl, .inr ⟨by simpa using hstart, rfl⟩⟩
    · exact ⟨c, hc₀, rfl, rfl, .inl rfl⟩

/-- A chunk that does not start at `victimStart` is not cut. -/
theorem getElem?_cutChunk_of_ne {j : ℕ} {c : DownloadChunk} (h : cs[j]? = some c)
    (hne : c.rangeStart ≠ victimStart) : (cutChunk cs victimStart newStart)[j]? = some c := by
  rw [cutChunk]
  split
  · exact h
  · rename_i i hi
    obtain ⟨hlt, hstart, -⟩ := List.findIdx?_eq_some_iff_getElem.1 hi
    have hij : i ≠ j := by
      rintro rfl
      rw [List.getElem?_eq_getElem hlt] at h
      cases h
      exact hne (by simpa using hstart)
    rw [List.getElem?_modify_ne _ _ hij]
    exact h

/-- The only chunk that starts at `victimStart` is cut. -/
theorem getElem?_cutChunk_self {j : ℕ} {c : DownloadChunk} (h : cs[j]? = some c)
    (hstart : c.rangeStart = victimStart)
    (huniq : ∀ i c', cs[i]? = some c' → c'.rangeStart = victimStart → i = j) :
    (cutChunk cs victimStart newStart)[j]? = some { c with rangeEnd := newStart - 1 } := by
  rw [cutChunk]
  split
  · rename_i hnone
    have := List.findIdx?_eq_none_iff.1 hnone c (List.mem_of_getElem? h)
    simp [hstart] at this
  · rename_i i hi
    obtain ⟨hlt, hi, -⟩ := List.findIdx?_eq_some_iff_getElem.1 hi
    have hij := huniq i _ (List.getElem?_eq_getElem hlt) (by simpa using hi)
    subst hij
    rw [List.getElem?_modify_eq, h]
    rfl

/-- A cut keeps the starts and the bytes done. -/
theorem exists_getElem?_cutChunk (victimStart newStart : ℕ) {j : ℕ} {c : DownloadChunk}
    (h : cs[j]? = some c) :
    ∃ c', (cutChunk cs victimStart newStart)[j]? = some c' ∧ c'.rangeStart = c.rangeStart := by
  have hlt : j < (cutChunk cs victimStart newStart).length := by
    rw [length_cutChunk]
    exact (List.getElem?_eq_some_iff.1 h).1
  have hc' := List.getElem?_eq_getElem hlt
  obtain ⟨c₀, hc₀, hs, -⟩ := getElem?_cutChunk hc'
  rw [h] at hc₀
  cases hc₀
  exact ⟨_, hc', hs⟩

/-! ## The callback of a split -/

variable {w w' : World} {ps ps' : ℕ → Option ℕ}

@[simp] theorem shrinkVictim_chunks (a b : ℕ) :
    (shrinkVictim w a b).d.chunks = cutChunk w.d.chunks a b := by
  rw [shrinkVictim, cutChunk]
  cases w.d.chunks.findIdx? (·.rangeStart = a) <;> rfl

@[simp] theorem shrinkVictim_frame (a b : ℕ) : (shrinkVictim w a b).d.frame = w.d.frame := by
  rw [shrinkVictim]
  split <;> rfl

@[simp] theorem shrinkVictim_live (a b : ℕ) :
    (shrinkVictim w a b).d.chunkLiveBytes = w.d.chunkLiveBytes := by
  rw [shrinkVictim]
  split <;> rfl

@[simp] theorem shrinkVictim_file (a b : ℕ) :
    (shrinkVictim w a b).disk.file = w.disk.file := by
  rw [shrinkVictim]
  split <;> rfl

theorem shrinkVictim_hasRow (a b : ℕ) (h : w.HasRow) : (shrinkVictim w a b).HasRow := by
  rw [shrinkVictim]
  split
  · exact h
  · exact Db.row_exec_isSome _ h

/-- The rows of the chunks that start where the victim does are cut, if there is such a
    chunk. -/
theorem shrinkVictim_rows (a b : ℕ) :
    ((∀ c ∈ w.d.chunks, c.rangeStart ≠ a) ∧ (shrinkVictim w a b).rows = w.rows) ∨
      (shrinkVictim w a b).rows =
        w.rows.map fun r => if r.rangeStart = a then { r with rangeEnd := b - 1 } else r := by
  rw [shrinkVictim]
  split
  · rename_i hnone
    refine .inl ⟨fun c hc => ?_, rfl⟩
    simpa using List.findIdx?_eq_none_iff.1 hnone c hc
  · exact .inr Db.chunksOf_updateChunkRange

theorem onRebalanceSplit_frame
    (h : onRebalanceSplit w ps victimStart newStart newEnd = (w', ps')) :
    w'.d.frame = w.d.frame ∧ w'.disk.file = w.disk.file := by
  rw [onRebalanceSplit] at h
  split_ifs at h <;> cases h <;> simp

theorem onRebalanceSplit_of_full (h : qmMaxChunks ≤ w.d.chunks.length) :
    onRebalanceSplit w ps victimStart newStart newEnd =
      (shrinkVictim w victimStart newStart, ps) := by
  rw [onRebalanceSplit, if_pos]
  rwa [shrinkVictim_chunks, length_cutChunk]

theorem onRebalanceSplit_of_room (h : w.d.chunks.length < qmMaxChunks) :
    onRebalanceSplit w ps victimStart newStart newEnd =
      (appendChunk (shrinkVictim w victimStart newStart) newStart (newEnd - 1),
        Function.update ps w.d.chunks.length (some w.d.chunks.length)) := by
  rw [onRebalanceSplit, if_neg, shrinkVictim_chunks, length_cutChunk]
  rw [shrinkVictim_chunks, length_cutChunk]
  omega

/-- A chunk after a split is one from before, perhaps cut, or has nothing done. -/
theorem onRebalanceSplit_old {j : ℕ} {c : DownloadChunk}
    (h : onRebalanceSplit w ps victimStart newStart newEnd = (w', ps'))
    (hc : w'.d.chunks[j]? = some c) :
    (∃ c₀, w.d.chunks[j]? = some c₀ ∧ c.rangeStart = c₀.rangeStart ∧
        c.bytesDone = c₀.bytesDone ∧ w'.d.chunkLiveBytes j = w.d.chunkLiveBytes j) ∨
      c.bytesDone = 0 ∧ w'.d.chunkLiveBytes j = 0 := by
  rcases lt_or_ge w.d.chunks.length qmMaxChunks with hroom | hfull
  · rw [onRebalanceSplit_of_room hroom] at h
    obtain ⟨rfl, rfl⟩ := Prod.mk.inj h
    rw [appendChunk_chunks] at hc
    rw [appendChunk_live]
    rcases List.getElem?_concat_eq_some.1 hc with hc | ⟨rfl, rfl⟩
    · have hlt := (List.getElem?_eq_some_iff.1 hc).1
      rw [shrinkVictim_chunks] at hc
      obtain ⟨c₀, hc₀, hs, hb, -⟩ := getElem?_cutChunk hc
      exact .inl ⟨c₀, hc₀, hs, hb, by rw [if_neg hlt.ne, shrinkVictim_live]⟩
    · exact .inr ⟨rfl, if_pos rfl⟩
  · rw [onRebalanceSplit_of_full hfull] at h
    obtain ⟨rfl, rfl⟩ := Prod.mk.inj h
    rw [shrinkVictim_chunks] at hc
    obtain ⟨c₀, hc₀, hs, hb, -⟩ := getElem?_cutChunk hc
    exact .inl ⟨c₀, hc₀, hs, hb, by rw [shrinkVictim_live]⟩

/-- A split keeps the starts of the chunks, and their counters. -/
theorem onRebalanceSplit_keeps {j : ℕ} {c : DownloadChunk}
    (h : onRebalanceSplit w ps victimStart newStart newEnd = (w', ps'))
    (hc : w.d.chunks[j]? = some c) :
    ∃ c', w'.d.chunks[j]? = some c' ∧ c'.rangeStart = c.rangeStart ∧
      w'.d.chunkLiveBytes j = w.d.chunkLiveBytes j := by
  obtain ⟨c', hc', hs⟩ := exists_getElem?_cutChunk victimStart newStart hc
  rcases lt_or_ge w.d.chunks.length qmMaxChunks with hroom | hfull
  · rw [onRebalanceSplit_of_room hroom] at h
    obtain ⟨rfl, rfl⟩ := Prod.mk.inj h
    have hlt := (List.getElem?_eq_some_iff.1 hc).1
    refine ⟨c', ?_, hs, ?_⟩
    · rw [appendChunk_chunks, shrinkVictim_chunks]
      exact List.getElem?_concat_eq_some.2 (.inl hc')
    · rw [appendChunk_live, shrinkVictim_live, shrinkVictim_chunks, length_cutChunk,
        if_neg hlt.ne]
  · rw [onRebalanceSplit_of_full hfull] at h
    obtain ⟨rfl, rfl⟩ := Prod.mk.inj h
    exact ⟨c', by rw [shrinkVictim_chunks]; exact hc', hs, by rw [shrinkVictim_live]⟩

/-! ## Acquiring -/

/-- What a worker that looks for more to do finds, in a pool without orphans. -/
inductive Acquired (w : World) (run : PoolRun) (p : RebalancePool) (i : ℕ) :
    World → PoolRun → Prop
  | nothing : Acquired w run p i w (run.setPhase i (.ended true))
  | split {s : PoolSlot} {v : ℕ} {w' : World} {ps : ℕ → Option ℕ} :
      p.Stealable s v → p.minStealBytes ≤ s.remaining → p.slots.length < maxWorkers →
      p.victim = some (s, v) →
      onRebalanceSplit w run.progressSlots s.start s.middle s.liveEnd = (w', ps) →
      Acquired w run p i w'
        (PoolRun.assign
          { run with pool := some (p.split s v (ps p.slots.length)), progressSlots := ps }
          i p.slots.length s.middle s.liveEnd (ps p.slots.length))

theorem Acquired.of_eq {run run' : PoolRun} {p : RebalancePool} {i : ℕ} (hp : p.NoOrphan)
    (h : rebalancePoolAcquire w run p i = (w', run')) : Acquired w run p i w' run' := by
  simp only [rebalancePoolAcquire, hp.orphan_eq_none] at h
  split at h
  · cases h
    exact .nothing
  · rename_i s v hv
    cases h
    obtain ⟨hs, hmin, hroom⟩ := RebalancePool.victim_spec hv
    exact .split hs hmin hroom hv rfl

/-! ## No orphans -/

namespace RebalancePool

variable {p : RebalancePool}

theorem NoOrphan.modify (h : p.NoOrphan) {k : ℕ} {f : PoolSlot → PoolSlot}
    (hf : ∀ s, s.exhausted = true ∨ s.claimed = true →
      (f s).exhausted = true ∨ (f s).claimed = true) :
    NoOrphan { p with slots := p.slots.modify k f } :=
  List.forall_mem_modify h fun s hs => hf s (h s (List.mem_of_getElem? hs))

theorem noOrphan_create (rs : List (ℕ × Range)) (n : ℕ) : (rebalancePoolCreate rs n).NoOrphan := by
  intro s hs
  obtain ⟨x, -, rfl⟩ := List.mem_map.1 hs
  exact .inr rfl

theorem NoOrphan.split (h : p.NoOrphan) (s : PoolSlot) (v : ℕ) (counter : Option ℕ) :
    (p.split s v counter).NoOrphan := by
  intro x hx
  rcases List.mem_append.1 hx with hx | hx
  · exact h.modify (k := v) (f := fun s => { s with liveEnd := s.middle }) (fun _ h => h) x hx
  · rw [List.mem_singleton.1 hx]
    exact .inr rfl

end RebalancePool

end Cdm
