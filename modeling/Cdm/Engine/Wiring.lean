import Cdm.Engine.Partition

/-!
# Slots and the counters of the chunks

Each slot of a pool adds to the counter of a chunk, and is to add to that of a chunk that
contains it, alone (`Wired`). The counter of the slot a split makes is stored under the
index of its chunk, and read under the index of the slot. If a chunk was complete before
the call, the pool has fewer slots than the table chunks, and the entry that is read was
never assigned (`exists_unassigned`).

A split keeps the slots wired if there are as many slots as chunks and it does not cut
the chunk of another slot (`wiresSplit`), and only then (`wired_of_wiresSplit`), whatever
the chunks are when the call plans its ranges.
-/

namespace Cdm

/-- The slot adds to the counter of the chunk `j`, which contains it. -/
def CountedBy (cs : List DownloadChunk) (s : PoolSlot) (j : ℕ) : Prop :=
  s.progressSlot = some j ∧ ∃ c, cs[j]? = some c ∧ c.rangeStart ≤ s.start ∧
    s.liveEnd ≤ c.rangeEnd + 1

/-- Every slot adds to the counter of a chunk that contains it, and no two slots to the
    same one. -/
structure Wired (cs : List DownloadChunk) (slots : List PoolSlot) : Prop where
  counted : ∀ s ∈ slots, ∃ j, CountedBy cs s j
  apart : ∀ (k k' : ℕ) (s s' : PoolSlot), slots[k]? = some s → slots[k']? = some s' →
    s.progressSlot = s'.progressSlot → k = k'

/-- The chunk that the split of the slot `s` cuts, if any, is that of the slot, or no other
    slot with its counter reaches past the cut. -/
def CutsOwn (cs : List DownloadChunk) (slots : List PoolSlot) (s : PoolSlot) : Prop :=
  ∀ j ∈ cs.findIdx? (·.rangeStart = s.start), s.progressSlot = some j ∨
    ∀ s' ∈ slots, s'.progressSlot = some j → s'.liveEnd ≤ s.middle

instance (cs : List DownloadChunk) (slots : List PoolSlot) (s : PoolSlot) :
    Decidable (CutsOwn cs slots s) :=
  inferInstanceAs (Decidable (∀ j ∈ cs.findIdx? (·.rangeStart = s.start), s.progressSlot = some j ∨
    ∀ s' ∈ slots, s'.progressSlot = some j → s'.liveEnd ≤ s.middle))

/-- A split finds as many slots as chunks, and cuts no chunk another slot is still in. -/
def wiresSplit (s : EngineState) : SessionAct → Bool
  | .engine (.pool (.worker _ .acquire)) =>
    match s.pc with
    | .running _ _ run => run.pool.all fun p => p.victim.all fun x =>
        p.slots.length = s.w.d.chunks.length ∧ CutsOwn s.w.d.chunks p.slots x.1
    | _ => true
  | _ => true

/-- The rebalance pool of the call, while it runs. -/
def EngineState.rebalancePool (s : EngineState) : Option RebalancePool :=
  match s.pc with
  | .running _ _ run => run.pool
  | _ => none

variable {R : ℕ → UInt8} {cs : List DownloadChunk} {slots : List PoolSlot} {s : PoolSlot} {v : ℕ}

/-! ## Splits -/

/-- A chunk other than the one a split cuts. -/
theorem getElem?_cutChunk_of_findIdx? {a m j : ℕ} {c : DownloadChunk}
    (hne : cs.findIdx? (·.rangeStart = a) ≠ some j) (hc : cs[j]? = some c) :
    (cutChunk cs a m)[j]? = some c := by
  rw [cutChunk]
  split
  · exact hc
  · rename_i i hi
    rw [hi] at hne
    rw [List.getElem?_modify_ne _ _ fun h => hne (congrArg some h)]
    exact hc

/-- The chunk a split cuts. -/
theorem getElem?_cutChunk_findIdx? {a m j : ℕ} {c : DownloadChunk}
    (hj : cs.findIdx? (·.rangeStart = a) = some j) (hc : cs[j]? = some c) :
    (cutChunk cs a m)[j]? = some { c with rangeEnd := m - 1 } := by
  rw [cutChunk, hj]
  exact List.getElem?_modify_eq_some.2 (.inl ⟨rfl, c, hc, rfl⟩)

/-- A slot that ends where a chunk is cut, or is of another chunk, stays counted by its
    chunk. -/
theorem CountedBy.cutChunk {s' : PoolSlot} {a m j : ℕ} (h : CountedBy cs s' j)
    (hm : cs.findIdx? (·.rangeStart = a) = some j → s'.liveEnd ≤ m) :
    CountedBy (cutChunk cs a m) s' j := by
  obtain ⟨hj, c, hc, hstart, hend⟩ := h
  by_cases hcut : cs.findIdx? (·.rangeStart = a) = some j
  · have := hm hcut
    refine ⟨hj, _, getElem?_cutChunk_findIdx? hcut hc, hstart, ?_⟩
    simp only
    omega
  · exact ⟨hj, c, getElem?_cutChunk_of_findIdx? hcut hc, hstart, hend⟩

theorem CountedBy.append {cs' : List DownloadChunk} {j : ℕ} (h : CountedBy cs s j) :
    CountedBy (cs ++ cs') s j := by
  obtain ⟨hj, c, hc, hs⟩ := h
  refine ⟨hj, c, ?_, hs⟩
  rw [List.getElem?_append_left (List.getElem?_eq_some_iff.1 hc).1]
  exact hc

/-- The split of the slot `s`, its new chunk having the counter of the new slot. -/
theorem Wired.split (h : Wired cs slots) (hv : slots[v]? = some s) (hrem : 2 ≤ s.remaining)
    (hcut : CutsOwn cs slots s) :
    Wired (splitChunks cs s.start s.middle s.liveEnd)
      (splitSlots slots s v (some cs.length)) := by
  obtain ⟨hwm, hml⟩ := s.middle_bounds hrem
  have hlt : ∀ (s' : PoolSlot) (j : ℕ), CountedBy cs s' j → j < cs.length := fun s' j hj => by
    obtain ⟨-, c, hc, -⟩ := hj
    exact (List.getElem?_eq_some_iff.1 hc).1
  have hfresh : ∀ (k : ℕ) (s' : PoolSlot), slots[k]? = some s' →
      s'.progressSlot ≠ some cs.length := fun k s' hk heq => by
    obtain ⟨j, hj⟩ := h.counted s' (List.mem_of_getElem? hk)
    have := hlt s' j hj
    rw [hj.1] at heq
    cases heq
    omega
  refine ⟨fun s' hs' => ?_, fun k k' s₁ s₂ hk hk' heq => ?_⟩
  · obtain ⟨k, hk⟩ := List.mem_iff_getElem?.1 hs'
    rcases getElem?_splitSlots hv hk with ⟨-, rfl⟩ | ⟨-, rfl⟩ | ⟨hkv, hk⟩
    · obtain ⟨j, hj, c, hc, hstart, hend⟩ := h.counted s (List.mem_of_getElem? hv)
      have hcounted : CountedBy cs { s with liveEnd := s.middle } j :=
        ⟨hj, c, hc, hstart, hml.le.trans hend⟩
      exact ⟨j, (hcounted.cutChunk fun _ => le_rfl).append⟩
    · refine ⟨cs.length, rfl, _, List.getElem?_concat_eq_some.2 (.inr ⟨length_cutChunk.symm, rfl⟩),
        le_rfl, ?_⟩
      simp only
      omega
    · obtain ⟨j, hj⟩ := h.counted s' (List.mem_of_getElem? hk)
      refine ⟨j, (hj.cutChunk fun hfind => ?_).append⟩
      -- The cut chunk is that of the victim, and so of no other slot, or ends past the cut.
      rcases hcut j hfind with hown | hother
      · exact absurd (h.apart k v s' s hk hv (hj.1.trans hown.symm)) hkv
      · exact hother s' (List.mem_of_getElem? hk) hj.1
  · rcases getElem?_splitSlots hv hk with ⟨rfl, rfl⟩ | ⟨rfl, rfl⟩ | ⟨-, h₁⟩ <;>
      rcases getElem?_splitSlots hv hk' with ⟨rfl, rfl⟩ | ⟨rfl, rfl⟩ | ⟨-, h₂⟩
    · rfl
    · exact absurd heq (hfresh _ s hv)
    · exact h.apart _ _ s s₂ hv h₂ heq
    · exact absurd heq.symm (hfresh _ s hv)
    · rfl
    · exact absurd heq.symm (hfresh _ s₂ h₂)
    · exact h.apart _ _ s₁ s h₁ hv heq
    · exact absurd heq (hfresh _ s₁ h₁)
    · exact h.apart _ _ s₁ s₂ h₁ h₂ heq

/-- A split that cuts the chunk of another slot leaves that slot outside of it. -/
theorem Wired.cutsOwn {cs' : List DownloadChunk} {counter : Option ℕ} (hv : slots[v]? = some s)
    (hrem : 2 ≤ s.remaining) (hcs : ∀ j ∈ cs.findIdx? (·.rangeStart = s.start), ∀ c,
      cs'[j]? = some c → c.rangeEnd = s.middle - 1)
    (h : Wired cs' (splitSlots slots s v counter)) : CutsOwn cs slots s := by
  obtain ⟨hwm, hml⟩ := s.middle_bounds hrem
  refine fun j hj => or_iff_not_imp_left.2 fun hne s' hs' hcount => ?_
  obtain ⟨k, hk⟩ := List.mem_iff_getElem?.1 hs'
  have hkv : k ≠ v := by
    rintro rfl
    rw [hv] at hk
    cases hk
    exact hne hcount
  have hmem : s' ∈ splitSlots slots s v counter :=
    List.mem_append_left _ (List.mem_of_getElem? (List.getElem?_modify_eq_some.2 (.inr ⟨hkv, hk⟩)))
  obtain ⟨j', hj', c, hc, -, hend⟩ := h.counted s' hmem
  rw [hcount] at hj'
  cases hj'
  rw [hcs j hj c hc] at hend
  omega

/-! ## Runs of the pool -/

variable {w w' : World} {run run' : PoolRun}

/-- The slots are wired, and no counter is assigned past them. -/
structure WiredRun (w : World) (run : PoolRun) : Prop where
  orderly : Orderly (fun _ _ => True) run
  threshold : ∀ p ∈ run.pool, p.minStealBytes = stealThreshold
  wired : ∀ p ∈ run.pool, Wired w.d.chunks p.slots
  unassigned : ∀ p ∈ run.pool, ∀ i, p.slots.length ≤ i → run.progressSlots i = none

/-- Just the splits that find as many slots as chunks, and cut no chunk of another slot,
    keep the slots wired. -/
theorem WiredRun.split {p : RebalancePool} {ps : ℕ → Option ℕ} (h : WiredRun w run)
    (hp : run.pool = some p) (hv : p.slots[v]? = some s) (hroom : p.slots.length < maxWorkers)
    (hrem : 2 ≤ s.remaining)
    (heq : onRebalanceSplit w run.progressSlots s.start s.middle s.liveEnd = (w', ps)) :
    (Wired w'.d.chunks (splitSlots p.slots s v (ps p.slots.length)) ↔
      p.slots.length = w.d.chunks.length ∧ CutsOwn w.d.chunks p.slots s) ∧
    (p.slots.length = w.d.chunks.length → ∀ i, p.slots.length + 1 ≤ i → ps i = none) := by
  have hunassigned := h.unassigned p hp
  by_cases hlen : p.slots.length = w.d.chunks.length
  · have hroom' : w.d.chunks.length < qmMaxChunks := by
      rw [← hlen]
      exact hroom
    rw [onRebalanceSplit_of_room hroom'] at heq
    obtain ⟨rfl, rfl⟩ := Prod.mk.inj heq
    rw [appendChunk_chunks, shrinkVictim_chunks, hlen, Function.update_self]
    refine ⟨⟨fun hw => ⟨rfl, hw.cutsOwn hv hrem fun j hj c hc => ?_⟩,
      fun hcut => (h.wired p hp).split hv hrem hcut.2⟩, fun _ i hi => ?_⟩
    · obtain ⟨hlt, -, -⟩ := List.findIdx?_eq_some_iff_getElem.1 hj
      have hget := getElem?_cutChunk_findIdx? (m := s.middle) hj (List.getElem?_eq_getElem hlt)
      rw [List.getElem?_append_left (by rw [length_cutChunk]; exact hlt), hget] at hc
      cases hc
      rfl
    · rw [Function.update_of_ne (by omega)]
      exact hunassigned i (by omega)
  · -- The counter of the new slot is read where none was assigned.
    have hnone : ps p.slots.length = none := by
      rcases lt_or_ge w.d.chunks.length qmMaxChunks with hr | hfull
      · rw [onRebalanceSplit_of_room hr] at heq
        obtain ⟨-, rfl⟩ := Prod.mk.inj heq
        rw [Function.update_of_ne hlen]
        exact hunassigned _ le_rfl
      · rw [onRebalanceSplit_of_full hfull] at heq
        obtain ⟨-, rfl⟩ := Prod.mk.inj heq
        exact hunassigned _ le_rfl
    refine ⟨⟨fun hw => ?_, fun hcut => absurd hcut.1 hlen⟩, fun heq => absurd heq hlen⟩
    obtain ⟨j, hj, -⟩ := hw.counted _ (List.mem_append_right _ (List.mem_singleton.2 rfl))
    rw [hnone] at hj
    cases hj

/-- Progress in a slot, or its end, does not change its wiring. -/
theorem Wired.modify {k : ℕ} {f : PoolSlot → PoolSlot} (h : Wired cs slots)
    (hf : ∀ s, (f s).extent = s.extent ∧ (f s).progressSlot = s.progressSlot) :
    Wired cs (slots.modify k f) := by
  have hold : ∀ (i : ℕ) (s : PoolSlot), (slots.modify k f)[i]? = some s →
      ∃ s₀, slots[i]? = some s₀ ∧ s.extent = s₀.extent ∧ s.progressSlot = s₀.progressSlot := by
    intro i s hs
    rcases List.getElem?_modify_eq_some.1 hs with ⟨-, s₀, hs₀, rfl⟩ | ⟨-, hs₀⟩
    · exact ⟨s₀, hs₀, hf s₀⟩
    · exact ⟨s, hs₀, rfl, rfl⟩
  refine ⟨fun s hs => ?_, fun i i' s s' hs hs' heq => ?_⟩
  · obtain ⟨i, hi⟩ := List.mem_iff_getElem?.1 hs
    obtain ⟨s₀, hs₀, hext, hcount⟩ := hold i s hi
    obtain ⟨j, hj, c, hc, hstart, hend⟩ := h.counted s₀ (List.mem_of_getElem? hs₀)
    obtain ⟨h₁, h₂⟩ := Prod.mk.inj hext
    exact ⟨j, hcount.trans hj, c, hc, h₁ ▸ hstart, h₂ ▸ hend⟩
  · obtain ⟨s₀, hs₀, -, hcount⟩ := hold i s hs
    obtain ⟨s₀', hs₀', -, hcount'⟩ := hold i' s' hs'
    exact h.apart i i' s₀ s₀' hs₀ hs₀' (by rw [← hcount, heq, hcount'])

/-- An acquired slot. -/
theorem WiredRun.acquire {p : RebalancePool} {i : ℕ} (h : WiredRun w run) (hp : run.pool = some p)
    (hacq : rebalancePoolAcquire w run p i = (w', run')) :
    ((∀ p' ∈ run'.pool, Wired w'.d.chunks p'.slots) ↔ ∀ x ∈ p.victim,
      p.slots.length = w.d.chunks.length ∧ CutsOwn w.d.chunks p.slots x.1) ∧
    ((∀ x ∈ p.victim, p.slots.length = w.d.chunks.length) → ∀ p' ∈ run'.pool,
      p'.minStealBytes = stealThreshold ∧ ∀ i, p'.slots.length ≤ i → run'.progressSlots i = none) := by
  have horphan := (h.orderly.noOrphan p hp).orphan_eq_none
  cases hv : p.victim with
  | none =>
    simp only [rebalancePoolAcquire, horphan, hv] at hacq
    obtain ⟨rfl, rfl⟩ := Prod.mk.inj hacq
    exact ⟨⟨fun _ x hx => (by cases hx), fun _ => h.wired⟩,
      fun _ p' hp' => ⟨h.threshold p' hp', h.unassigned p' hp'⟩⟩
  | some x =>
    obtain ⟨s, v⟩ := x
    obtain ⟨hs, hmin, hroom⟩ := RebalancePool.victim_spec hv
    have hrem : 2 ≤ s.remaining := by
      rw [h.threshold p hp] at hmin
      exact le_trans (by decide) hmin
    simp only [rebalancePoolAcquire, horphan, hv] at hacq
    obtain ⟨rfl, rfl⟩ := Prod.mk.inj hacq
    obtain ⟨hiff, hnone⟩ := h.split hp hs.get hroom hrem rfl
    refine ⟨⟨fun hw x hx => ?_, fun hx p' hp' => ?_⟩, fun hlen p' hp' => ?_⟩
    · cases hx
      exact hiff.1 (hw _ rfl)
    · cases hp'
      exact hiff.2 (hx _ rfl)
    · cases hp'
      refine ⟨h.threshold p hp, fun i hi => hnone (hlen _ rfl) i ?_⟩
      simpa [RebalancePool.split] using hi

theorem WiredRun.step {a : PoolAct} (h : WiredRun w run) (hst : PoolStep R w run a w' run')
    (hsplit : ∀ i p x, a = .worker i .acquire → run.pool = some p → x ∈ p.victim →
      p.slots.length = w.d.chunks.length ∧ CutsOwn w.d.chunks p.slots x.1) :
    WiredRun w' run' := by
  have horderly := h.orderly.step hst fun _ _ _ _ _ => trivial
  cases hst with
  | data hc hph hn hs hw =>
    refine ⟨horderly, fun p hp => ?_, fun p hp => ?_, fun p hp i hi => ?_⟩ <;>
      obtain ⟨p₀, hp₀, rfl⟩ := Option.map_eq_some_iff.1 hp
    · exact h.threshold p₀ hp₀
    · exact (h.wired p₀ hp₀).modify fun _ => ⟨rfl, rfl⟩
    · exact h.unassigned p₀ hp₀ i (by simpa using hi)
  | @markDone i c p hc hph hp =>
    refine ⟨horderly, fun p' hp' => ?_, fun p' hp' => ?_, fun p' hp' i hi => ?_⟩ <;> cases hp'
    · exact h.threshold p hp
    · exact (h.wired p hp).modify fun _ => ⟨rfl, rfl⟩
    · exact h.unassigned p hp i (by simpa [RebalancePool.markDone] using hi)
  | @acquire i c p hc hph hp =>
    generalize hacq : rebalancePoolAcquire w run p i = x at horderly
    obtain ⟨w', run'⟩ := x
    obtain ⟨hiff, hrest⟩ := h.acquire hp hacq
    have hrest := hrest fun x hx => (hsplit i p x rfl hp hx).1
    exact ⟨horderly, fun p' hp' => (hrest p' hp').1, hiff.2 fun x hx => hsplit i p x rfl hp hx,
      fun p' hp' => (hrest p' hp').2⟩
  | _ => exact ⟨horderly, h.threshold, h.wired, h.unassigned⟩

/-! ## Plans -/

/-- The ranges of a run, each within the chunk it has the index of, no two of one chunk. -/
theorem wiredRun_planned {rs : List (ℕ × Range)}
    (hrs : ∀ x ∈ rs, ∃ c, w.d.chunks[x.1]? = some c ∧ c.rangeStart ≤ x.2.offset ∧
      x.2.last = c.rangeEnd)
    (hapart : ∀ (k k' j : ℕ) (r r' : Range), rs[k]? = some (j, r) → rs[k']? = some (j, r') → k = k')
    (b : Bool) : WiredRun w (plannedRun rs b) := by
  refine ⟨orderly_planned _ _ _, fun p hp => ?_, fun p hp => ⟨fun s hs => ?_, ?_⟩, fun p hp i hi => ?_⟩
  · obtain ⟨rfl, -⟩ := plannedRun_pool hp
    rfl
  · obtain ⟨rfl, -⟩ := plannedRun_pool hp
    obtain ⟨x, hx, rfl⟩ := List.mem_map.1 hs
    obtain ⟨c, hc, hstart, hlast⟩ := hrs x hx
    exact ⟨x.1, rfl, c, hc, hstart, Nat.succ_le_succ hlast.le⟩
  · obtain ⟨rfl, -⟩ := plannedRun_pool hp
    intro k k' s s' hk hk' heq
    simp only [rebalancePoolCreate, List.getElem?_map, Option.map_eq_some_iff] at hk hk'
    obtain ⟨⟨j, r⟩, hj, rfl⟩ := hk
    obtain ⟨⟨j', r'⟩, hj', rfl⟩ := hk'
    cases heq
    exact hapart k k' j r r' hj hj'
  · obtain ⟨rfl, -⟩ := plannedRun_pool hp
    rw [rebalancePoolCreate, List.length_map] at hi
    simp [plannedRun, hi]

theorem wiredRun_resume (info : FileInfo) (b : Bool) :
    WiredRun w (plannedRun (resumeRanges info 0 w.d.chunks) b) := by
  refine wiredRun_planned (fun x hx => ?_) (fun k k' j r r' => index_eq_of_resumeRanges) b
  obtain ⟨c, -, hc, -, hr⟩ := mem_resumeRanges.1 hx
  refine ⟨c, hc, ?_, by rw [hr]; rfl⟩
  rw [hr, Range.offset]
  exact Nat.le_add_right _ _

theorem wiredRun_fresh (info : FileInfo) (b : Bool) :
    WiredRun (persistPlan w (freshRanges info))
      (plannedRun ((freshRanges info).mapIdx fun i r => (i, r)) b) := by
  have hget : ∀ (k j : ℕ) (r : Range), ((freshRanges info).mapIdx fun i r => (i, r))[k]? =
      some (j, r) → j = k ∧ (freshRanges info)[k]? = some r := by
    intro k j r h
    rw [List.getElem?_mapIdx, Option.map_eq_some_iff] at h
    obtain ⟨r', hr', heq⟩ := h
    cases heq
    exact ⟨rfl, hr'⟩
  refine wiredRun_planned (fun x hx => ?_) (fun k k' j r r' hk hk' => ?_) b
  · obtain ⟨j, r⟩ := x
    obtain ⟨k, hk⟩ := List.mem_iff_getElem?.1 hx
    obtain ⟨rfl, hr⟩ := hget k j r hk
    refine ⟨⟨r.start, r.last, 0⟩, ?_, Nat.le_add_right _ _, rfl⟩
    rw [persistPlan_freshRanges, chunksOfRanges, List.getElem?_map, hr]
    rfl
  · obtain ⟨rfl, -⟩ := hget k j r hk
    exact (hget k' j r' hk').1

/-! ## Calls -/

/-- The slots are wired while the pool runs. -/
def WiredPc (w : World) : Pc → Prop
  | .running _ _ run => WiredRun w run
  | .entered | .probing => False
  | _ => True

theorem WiredPc.engine {s s' : EngineState} {a : EngineAct} (h : WiredPc s.w s.pc)
    (hst : EngineStep R s a s') (hin : s.inCall = true)
    (hsplit : wiresSplit s (.engine a) = true) : WiredPc s'.w s'.pc := by
  cases hst with
  | call => cases hin
  | check => cases h
  | headFails => cases h
  | head => cases h
  | plan hplan =>
    cases PlanStep.of_eq hplan with
    | resume => exact wiredRun_resume _ _
    | start => exact wiredRun_fresh _ _
    | _ => trivial
  | @pool w w' info' n run run' a hpool =>
    refine WiredRun.step h hpool fun i p x ha hp hv => ?_
    subst ha
    simpa only [wiresSplit, hp, Option.all_some, Option.mem_def.1 hv, decide_eq_true_eq] using hsplit
  | decide =>
    simp only [engineDecide]
    split_ifs <;> trivial
  | fallbackJoin =>
    simp only
    split_ifs <;> trivial
  | _ => trivial

theorem WiredPc.step {s s' : EngineState} {a : SessionAct} (h : WiredPc s.w s.pc)
    (hst : sessionStep R s a = some s') (hin : s.inCall = true)
    (hsplit : wiresSplit s a = true) : WiredPc s'.w s'.pc := by
  have hcongr : ∀ w', w'.d.chunks = s.w.d.chunks → WiredPc w' s.pc := by
    intro w' hchunks
    obtain ⟨w, pc⟩ := s
    cases pc with
    | running info n run =>
      refine ⟨h.orderly, h.threshold, ?_, h.unassigned⟩
      rw [hchunks]
      exact h.wired
    | _ => exact h
  cases a with
  | engine a =>
    have hfresh : WiredPc (⟨s.w.fresh, s.pc⟩ : EngineState).w s.pc := hcongr _ rfl
    exact hfresh.engine (.of_eq hst) hin hsplit
  | requestCancel b =>
    cases hst
    exact hcongr _ rfl
  | requestPause b =>
    cases hst
    exact hcongr _ rfl
  | restore =>
    obtain ⟨w, pc⟩ := s
    simp only [sessionStep] at hst
    split at hst
    · cases hin
    · cases hst

/-- In every call, resumed or not, whose splits all find as many slots as chunks, and cut
    no chunk another slot is still in, the slots of the pool are wired. Any other split
    leaves a slot that is not. -/
theorem wired_of_wiresSplit {s : EngineState}
    (hs : Run.Reachable (sessionStep R) (fun s => ∃ info, s.pc = .planning info)
      (fun s a => s.inCall = true ∧ wiresSplit s a = true) s)
    {p : RebalancePool} (hp : s.rebalancePool = some p) :
    Wired s.w.d.chunks p.slots ∧
      ∀ i s' p', sessionStep R s (.engine (.pool (.worker i .acquire))) = some s' →
        s'.rebalancePool = some p' →
        (Wired s'.w.d.chunks p'.slots ↔
          wiresSplit s (.engine (.pool (.worker i .acquire))) = true) := by
  have hinv : WiredPc s.w s.pc := by
    refine hs.invariant (I := fun s => WiredPc s.w s.pc) (fun s ⟨info, hpc⟩ => ?_)
      fun s a s' h ok hst => h.step hst ok.1 ok.2
    rw [hpc]
    trivial
  obtain ⟨w, pc⟩ := s
  cases pc with
  | running info n run =>
    refine ⟨hinv.wired p hp, fun i s' p' hst hp' => ?_⟩
    have hrun : WiredRun w.fresh run := ⟨hinv.orderly, hinv.threshold, hinv.wired, hinv.unassigned⟩
    have hst : engineStep R ⟨w, .running info n run⟩ (.pool (.worker i .acquire)) = some s' := hst
    have hst := EngineStep.of_eq hst
    cases hst with
    | pool hpool =>
      cases hpool with
      | @acquire _ c p₁ hc hph hp₁ =>
        obtain rfl : p₁ = p := Option.some.inj (hp₁.symm.trans hp)
        obtain ⟨hiff, -⟩ := hrun.acquire hp₁ (i := i) rfl
        -- The pool after the step is `p'`.
        have hone : (∀ q ∈ (rebalancePoolAcquire w.fresh run p₁ i).2.pool,
            Wired (rebalancePoolAcquire w.fresh run p₁ i).1.d.chunks q.slots) ↔
              Wired (rebalancePoolAcquire w.fresh run p₁ i).1.d.chunks p'.slots :=
          ⟨fun h => h p' hp', fun h q hq => Option.some.inj (hp'.symm.trans hq) ▸ h⟩
        refine hone.symm.trans (hiff.trans ?_)
        simp only [wiresSplit, hp₁, Option.all_some]
        cases p₁.victim with
        | none => simp
        | some x =>
          rw [Option.all_some, decide_eq_true_eq]
          exact ⟨fun h => h x rfl, fun h y hy => (by cases hy; exact h)⟩
  | _ => cases hp

/-- A split in a pool that has a slot for each chunk. -/
theorem wired_of_wiresSplit_all :
    ∃ s, Run.Reachable (sessionStep fun _ => 1) (fun s => ∃ info, s.pc = .planning info)
        (fun s a => s.inCall = true ∧ wiresSplit s a = true) s ∧
      ∃ p, s.rebalancePool = some p ∧ p.slots.length = 5 ∧ Wired s.w.d.chunks p.slots := by
  obtain ⟨s, hs, p, hp, hlen⟩ := Run.exists_reachable_of_exec
    (sessionStep fun _ => 1) (fun s => ∃ info, s.pc = .planning info)
    (fun s a => s.inCall = true ∧ wiresSplit s a = true)
    (fun s => ∃ p ∈ s.rebalancePool, p.slots.length = 5)
    (s := resumingState ⟨8388608, true⟩ fun i => if i = 1 then 1 else 0) ⟨_, rfl⟩
    (takeOver.map .engine) (by decide +kernel)
  exact ⟨s, hs, p, hp, hlen, (wired_of_wiresSplit hs hp).1⟩

/-- Three workers on the eight mebibytes of which the first two are there. -/
def takeOverThree : List EngineAct :=
  planActs 3 ++ gets 0 2097152 ++ [.pool (.worker 0 .acquire)]

/-- With a chunk that was complete before the call, which the others partition the file
    with, the counter of the slot a split makes is one that was never assigned. -/
theorem exists_unassigned :
    ∃ s, Run.Reachable (sessionStep fun _ => 1) (Plans ⟨8388608, true⟩)
        (fun s _ => s.inCall = true) s ∧
      ∃ p, s.rebalancePool = some p ∧ ∃ x ∈ p.slots, x.progressSlot = none ∧
        ¬Wired s.w.d.chunks p.slots := by
  obtain ⟨s, hs, p, hp, x, hx, hnone⟩ := Run.exists_reachable_of_exec
    (sessionStep fun _ => 1) (Plans ⟨8388608, true⟩)
    (fun s _ => s.inCall = true)
    (fun s => ∃ p ∈ s.rebalancePool, ∃ x ∈ p.slots, x.progressSlot = none)
    (plans_resumingState (by decide) fun i => if i = 0 then 2097152 else 0)
    (takeOverThree.map .engine) (by decide +kernel)
  refine ⟨s, hs, p, hp, x, hx, hnone, fun h => ?_⟩
  obtain ⟨j, hj, -⟩ := h.counted x hx
  rw [hnone] at hj
  cases hj

end Cdm
