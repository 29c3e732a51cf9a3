import Cdm.Engine.Partition
import Cdm.Engine.Ranged

/-!
# The pool fetches every byte once

A run of the pool on its own (`engine/worker_pool.c`), on any disjoint ranges and with any
threshold for stealing: threads are created or not, requests are answered in any way, data
arrives in pieces of any length, and cancels and pauses are requested, in any order.

The slots tile what there is to fetch, and what the callbacks have written of a slot is
what lies below its position. So no byte is written twice by writes that are carried out,
and when every worker succeeds, each is written once (`written_once`). A write that fails
after a part of its bytes leaves that part in the file, where the worker that takes it over
writes it again (`exists_written_twice`).
-/

namespace Cdm

open Interval

/-! ## Runs on their own -/

/-- A `pwrite` of a callback: what it wrote, and whether this is all it was to write. -/
structure Write where
  offset : ℕ
  size : ℕ
  complete : Bool

/-- The bytes of a write. -/
def Write.extent (x : Write) : ℕ × ℕ := (x.offset, x.offset + x.size)

/-- The bytes a change of the disk writes, if it is a `pwrite`. -/
def Effect.extent : Effect → Option (ℕ × ℕ)
  | .pwrite offset buf => some (offset, offset + buf.size)
  | _ => none

/-- The times a byte is written. -/
def times (xs : List (ℕ × ℕ)) (x : ℕ) : ℕ := xs.countP fun I => I.1 ≤ x && x < I.2

/-- A run of the pool, with the writes so far. -/
structure Stealing where
  w : World
  run : PoolRun
  writes : List Write

/-- The times a byte was written by writes that were carried out. -/
def Stealing.timesWritten (s : Stealing) (x : ℕ) : ℕ :=
  times ((s.writes.filter (·.complete)).map Write.extent) x

inductive StealAct
  | pool (a : PoolAct)
  | requestCancel (b : Bool)
  | requestPause (b : Bool)

/-- The write of a step of the pool. -/
def writesOf (w : World) (run : PoolRun) : PoolAct → List Write
  | .worker i (.data n wrote) =>
    match run.contexts[i]? with
    | none => []
    | some c =>
      if userStopped w then []
      else if wrote < run.writable c n then [⟨c.current, wrote, false⟩]
      else [⟨c.current, run.writable c n, true⟩]
  | _ => []

def stealStep (R : ℕ → UInt8) (s : Stealing) : StealAct → Option Stealing
  | .pool a => (poolStep R s.w s.run a).map fun x => ⟨x.1, x.2, s.writes ++ writesOf s.w s.run a⟩
  | .requestCancel b => some { s with w := { s.w with d := { s.w.d with cancelRequested := b } } }
  | .requestPause b => some { s with w := { s.w with d := { s.w.d with pauseRequested := b } } }

/-- The run of the pool on the ranges `rs`, each with the index of its chunk. -/
def stealingRun (rs : List (ℕ × Range)) (minStealBytes : ℕ) : PoolRun :=
  { plannedRun rs false with pool := some (rebalancePoolCreate rs minStealBytes) }

/-- The pool is started on the ranges `rs`. -/
structure Starts (rs : List (ℕ × Range)) (minStealBytes : ℕ) (s : Stealing) : Prop where
  run : s.run = stealingRun rs minStealBytes
  log : s.w.log = []
  writes : s.writes = []

/-- The bytes of a range that are not there already. -/
def rangeExtent (x : ℕ × Range) : ℕ × ℕ := (x.2.offset, x.2.last + 1)

/-- What there is to fetch. -/
def toFetch (rs : List (ℕ × Range)) : Set ℕ := { y | ∃ x ∈ rs, Holds (rangeExtent x) y }

variable {R : ℕ → UInt8} {U : Set ℕ} {slots slots' : List PoolSlot} {written : ℕ → ℕ}

theorem times_append (xs ys : List (ℕ × ℕ)) (x : ℕ) :
    times (xs ++ ys) x = times xs x + times ys x := by
  rw [times, List.countP_append]
  rfl

theorem times_singleton (I : ℕ × ℕ) (x : ℕ) :
    times [I] x = if I.1 ≤ x ∧ x < I.2 then 1 else 0 := by
  by_cases h : I.1 ≤ x ∧ x < I.2
  · rw [if_pos h]
    simp [times, h]
  · rw [if_neg h]
    simpa [times] using h

/-! ## Slots -/

/-- The slots tile `U`, and the bytes written are those below their positions, each
    `written` once. -/
structure Once (U : Set ℕ) (slots : List PoolSlot) (written : ℕ → ℕ) : Prop where
  tiles : Tiles U (cells PoolSlot.extent slots)
  bounds : ∀ s ∈ slots, s.start ≤ s.writePos ∧ s.writePos ≤ s.liveEnd
  le_one : ∀ x, written x ≤ 1
  below : ∀ x, written x ≠ 0 ↔ ∃ s ∈ slots, s.start ≤ x ∧ x < s.writePos

/-- A byte not below the position of its slot is not written. -/
theorem Once.written_eq_zero (h : Once U slots written) {k x : ℕ} {s : PoolSlot}
    (hs : slots[k]? = some s) (h₁ : s.writePos ≤ x) (h₂ : x < s.liveEnd) : written x = 0 := by
  by_contra hne
  obtain ⟨s', hs', h₃, h₄⟩ := (h.below x).1 hne
  obtain ⟨k', hk'⟩ := List.mem_iff_getElem?.1 hs'
  have hb := h.bounds s (List.mem_of_getElem? hs)
  have hb' := h.bounds s' hs'
  have heq := h.tiles.apart k k' _ _ x (cells_eq_some.2 ⟨s, hs, rfl⟩)
    (cells_eq_some.2 ⟨s', hk', rfl⟩) ⟨hb.1.trans h₁, h₂⟩ ⟨h₃, h₄.trans_le hb'.2⟩
  subst heq
  rw [hs] at hk'
  cases hk'
  omega

/-- A callback writes the next `m` bytes of a slot. -/
theorem Once.advance (h : Once U slots written) {k m : ℕ} {s : PoolSlot} (hs : slots[k]? = some s)
    (hm : s.writePos + m ≤ s.liveEnd) :
    Once U (slots.modify k fun s => { s with writePos := s.writePos + m })
      fun x => written x + if s.writePos ≤ x ∧ x < s.writePos + m then 1 else 0 := by
  have hmem := List.mem_of_getElem? hs
  have hb := h.bounds s hmem
  have hget : (slots.modify k fun s => { s with writePos := s.writePos + m })[k]? =
      some { s with writePos := s.writePos + m } :=
    List.getElem?_modify_eq_some.2 (.inl ⟨rfl, s, hs, rfl⟩)
  refine ⟨?_, ?_, fun x => ?_, fun x => ?_⟩
  · exact h.tiles.modify fun _ => rfl
  · refine List.forall_mem_modify h.bounds fun s' hs' => ?_
    rw [hs] at hs'
    cases hs'
    exact ⟨by simp only; omega, hm⟩
  · split_ifs with hx
    · rw [h.written_eq_zero hs hx.1 (by omega)]
    · exact h.le_one x
  · constructor
    · intro hne
      split_ifs at hne with hx
      · exact ⟨_, List.mem_of_getElem? hget, by simp only; omega, hx.2⟩
      · obtain ⟨s', hs', h₁, h₂⟩ := (h.below x).1 hne
        obtain ⟨k', hk'⟩ := List.mem_iff_getElem?.1 hs'
        by_cases hk : k' = k
        · subst hk
          rw [hs] at hk'
          cases hk'
          exact ⟨_, List.mem_of_getElem? hget, h₁, by simp only; omega⟩
        · exact ⟨s', List.mem_of_getElem? (List.getElem?_modify_eq_some.2 (.inr ⟨hk, hk'⟩)), h₁, h₂⟩
    · rintro ⟨s', hs', h₁, h₂⟩
      obtain ⟨k', hk'⟩ := List.mem_iff_getElem?.1 hs'
      have hold (h₃ : ∃ s ∈ slots, s.start ≤ x ∧ x < s.writePos) (a : ℕ) : written x + a ≠ 0 := by
        have := (h.below x).2 h₃
        omega
      rcases List.getElem?_modify_eq_some.1 hk' with ⟨rfl, s₀, hs₀, rfl⟩ | ⟨-, hk'⟩
      · rw [hs] at hs₀
        cases hs₀
        by_cases hx : x < s.writePos
        · exact hold ⟨s, hmem, h₁, hx⟩ _
        · rw [if_pos ⟨not_lt.1 hx, h₂⟩]
          exact Nat.succ_ne_zero _
      · exact hold ⟨s', List.mem_of_getElem? hk', h₁, h₂⟩ _

/-- A split of a slot, past its position. -/
theorem Once.split (h : Once U slots written) {v : ℕ} {s : PoolSlot} (hv : slots[v]? = some s)
    (counter : Option ℕ) : Once U (splitSlots slots s v counter) written := by
  have hmem := List.mem_of_getElem? hv
  have hb := h.bounds s hmem
  have hmid : s.writePos ≤ s.middle ∧ s.middle ≤ s.liveEnd := by
    simp only [PoolSlot.middle]
    omega
  refine ⟨?_, fun s' hs' => ?_, h.le_one, fun x => (h.below x).trans ⟨?_, ?_⟩⟩
  · rw [splitSlots, cells_cut (m := s.middle) hv rfl rfl]
    exact h.tiles.cut (cells_eq_some.2 ⟨s, hv, rfl⟩) (cells_eq_none le_rfl)
      (hb.1.trans hmid.1) hmid.2
  · obtain ⟨k, hk⟩ := List.mem_iff_getElem?.1 hs'
    rcases getElem?_splitSlots hv hk with ⟨-, rfl⟩ | ⟨-, rfl⟩ | ⟨-, hk⟩
    · exact ⟨hb.1, hmid.1⟩
    · exact ⟨le_rfl, hmid.2⟩
    · exact h.bounds s' (List.mem_of_getElem? hk)
  · rintro ⟨s', hs', h₁, h₂⟩
    obtain ⟨k, hk⟩ := List.mem_iff_getElem?.1 hs'
    by_cases hkv : k = v
    · subst hkv
      rw [hv] at hk
      cases hk
      exact ⟨_, List.mem_append_left _ (List.mem_of_getElem?
        (List.getElem?_modify_eq_some.2 (.inl ⟨rfl, s, hv, rfl⟩))), h₁, h₂⟩
    · exact ⟨s', List.mem_append_left _ (List.mem_of_getElem?
        (List.getElem?_modify_eq_some.2 (.inr ⟨hkv, hk⟩))), h₁, h₂⟩
  · rintro ⟨s', hs', h₁, h₂⟩
    obtain ⟨k, hk⟩ := List.mem_iff_getElem?.1 hs'
    rcases getElem?_splitSlots hv hk with ⟨-, rfl⟩ | ⟨-, rfl⟩ | ⟨-, hk⟩
    · exact ⟨s, hmem, h₁, h₂⟩
    · exact absurd h₂ (not_lt.2 h₁)
    · exact ⟨s', List.mem_of_getElem? hk, h₁, h₂⟩

/-- Marking a slot. -/
theorem Once.markDone (h : Once U slots written) (k : ℕ) :
    Once U (slots.modify k fun s => { s with exhausted := true, claimed := false }) written := by
  refine ⟨?_, List.forall_mem_modify h.bounds fun s hs => h.bounds s (List.mem_of_getElem? hs),
    h.le_one, fun x => (h.below x).trans ⟨?_, ?_⟩⟩
  · exact h.tiles.modify fun _ => rfl
  · rintro ⟨s, hs, h₁, h₂⟩
    obtain ⟨j, hj⟩ := List.mem_iff_getElem?.1 hs
    by_cases hjk : j = k
    · exact ⟨_, List.mem_of_getElem? (List.getElem?_modify_eq_some.2 (.inl ⟨hjk, s, hj, rfl⟩)),
        h₁, h₂⟩
    · exact ⟨s, List.mem_of_getElem? (List.getElem?_modify_eq_some.2 (.inr ⟨hjk, hj⟩)), h₁, h₂⟩
  · rintro ⟨s, hs, h₁, h₂⟩
    obtain ⟨j, hj⟩ := List.mem_iff_getElem?.1 hs
    rcases List.getElem?_modify_eq_some.1 hj with ⟨-, s₀, hs₀, rfl⟩ | ⟨-, hj⟩
    · exact ⟨s₀, List.mem_of_getElem? hs₀, h₁, h₂⟩
    · exact ⟨s, List.mem_of_getElem? hj, h₁, h₂⟩

/-! ## Workers -/

variable {contexts : List WorkerContext} {c : WorkerContext} {i : ℕ}

/-- The worker is at the position of its slot, which is done if the worker is. -/
def Mans (slots : List PoolSlot) (c : WorkerContext) : Prop :=
  ∃ s, slots[c.slotIndex]? = some s ∧ s.start = c.range.offset ∧ s.writePos = c.current ∧
    (Ranged.finished c.phase = true → s.writePos = s.liveEnd)

/-- Every worker has a slot of its own, and every other slot is done. -/
structure Manned (slots : List PoolSlot) (contexts : List WorkerContext) : Prop where
  mans : ∀ c ∈ contexts, Mans slots c
  apart : ∀ (i i' : ℕ) (c c' : WorkerContext), contexts[i]? = some c → contexts[i']? = some c' →
    c.slotIndex = c'.slotIndex → i = i'
  rest : ∀ (k : ℕ) (s : PoolSlot), slots[k]? = some s → s.writePos = s.liveEnd ∨
    ∃ c ∈ contexts, c.slotIndex = k

/-- A worker changes, and its slot. -/
theorem Manned.modify (h : Manned slots contexts) {f : WorkerContext → WorkerContext}
    (hc : contexts[i]? = some c) (hf : ∀ c, (f c).slotIndex = c.slotIndex)
    (hslots : ∀ k, k ≠ c.slotIndex → slots'[k]? = slots[k]?) (hmans : Mans slots' (f c)) :
    Manned slots' (contexts.modify i f) := by
  have hold : ∀ (k : ℕ) (c' : WorkerContext), (contexts.modify i f)[k]? = some c' →
      (k = i ∧ c' = f c) ∨ (k ≠ i ∧ contexts[k]? = some c') := by
    intro k c' hc'
    rcases List.getElem?_modify_eq_some.1 hc' with ⟨rfl, c₀, hc₀, rfl⟩ | h
    · rw [hc] at hc₀
      cases hc₀
      exact .inl ⟨rfl, rfl⟩
    · exact .inr h
  have hnew : f c ∈ contexts.modify i f :=
    List.mem_of_getElem? (List.getElem?_modify_eq_some.2 (.inl ⟨rfl, c, hc, rfl⟩))
  refine ⟨fun c' hc' => ?_, fun k k' c₁ c₂ h₁ h₂ heq => ?_, fun k s hs => ?_⟩
  · obtain ⟨k, hk⟩ := List.mem_iff_getElem?.1 hc'
    rcases hold k c' hk with ⟨-, rfl⟩ | ⟨hki, hk⟩
    · exact hmans
    · obtain ⟨s, hs, hrest⟩ := h.mans c' (List.mem_of_getElem? hk)
      refine ⟨s, ?_, hrest⟩
      rw [hslots _ fun heq => hki (h.apart k i c' c hk hc heq)]
      exact hs
  · have hget : ∀ (k : ℕ) (c' : WorkerContext), (contexts.modify i f)[k]? = some c' →
        ∃ c₀, contexts[k]? = some c₀ ∧ c'.slotIndex = c₀.slotIndex := by
      intro k c' hc'
      rcases hold k c' hc' with ⟨rfl, rfl⟩ | ⟨-, hk⟩
      · exact ⟨c, hc, hf c⟩
      · exact ⟨c', hk, rfl⟩
    obtain ⟨d₁, hd₁, hs₁⟩ := hget k c₁ h₁
    obtain ⟨d₂, hd₂, hs₂⟩ := hget k' c₂ h₂
    exact h.apart k k' d₁ d₂ hd₁ hd₂ (by rw [← hs₁, heq, hs₂])
  · by_cases hk : k = c.slotIndex
    · exact .inr ⟨f c, hnew, (hf c).trans hk.symm⟩
    · rw [hslots k hk] at hs
      refine (h.rest k s hs).imp_right fun ⟨c', hc', heq⟩ => ?_
      obtain ⟨j, hj⟩ := List.mem_iff_getElem?.1 hc'
      have hji : j ≠ i := by
        rintro rfl
        rw [hc] at hj
        cases hj
        exact hk heq.symm
      exact ⟨c', List.mem_of_getElem? (List.getElem?_modify_eq_some.2 (.inr ⟨hji, hj⟩)), heq⟩

/-- A worker that is not done gets to a phase in which it is not either. -/
theorem Manned.setPhase (h : Manned slots contexts) (hc : contexts[i]? = some c)
    {f : WorkerContext → WorkerContext}
    (hf : ∀ c, (f c).slotIndex = c.slotIndex ∧ (f c).range = c.range ∧
      (f c).bytesDone = c.bytesDone)
    (hfin : Ranged.finished (f c).phase = true → ∀ s, slots[c.slotIndex]? = some s →
      s.writePos = c.current → s.start = c.range.offset → s.writePos = s.liveEnd) :
    Manned slots (contexts.modify i f) := by
  refine h.modify hc (fun c => (hf c).1) (fun _ _ => rfl) ?_
  obtain ⟨s, hs, hstart, hpos, -⟩ := h.mans c (List.mem_of_getElem? hc)
  refine ⟨s, ?_, ?_, ?_, fun hfin' => hfin hfin' s hs hpos hstart⟩
  · rw [(hf c).1]
    exact hs
  · rw [(hf c).2.1]
    exact hstart
  · rw [WorkerContext.current, (hf c).2.1, (hf c).2.2]
    exact hpos

/-- A worker that is done takes over the tail of a slot that is not. -/
theorem Manned.split (h : Manned slots contexts) {v : ℕ} {s : PoolSlot} {counter : Option ℕ}
    {c' : WorkerContext} (hv : slots[v]? = some s) (hrem : 1 ≤ s.remaining)
    (hc : contexts[i]? = some c) (hidle : c.phase = .idle) (hindex : c'.slotIndex = slots.length)
    (hoffset : c'.range.offset = s.middle) (hbytes : c'.bytesDone = 0) (hphase : c'.phase = .request) :
    Manned (splitSlots slots s v counter) (contexts.modify i fun _ => c') := by
  have hopen : s.writePos ≠ s.liveEnd := by
    simp only [PoolSlot.remaining] at hrem
    omega
  -- The slot the worker was done with is done.
  obtain ⟨s₀, hs₀, -, -, hdone⟩ := h.mans c (List.mem_of_getElem? hc)
  have hdone : s₀.writePos = s₀.liveEnd := hdone (by rw [hidle]; rfl)
  have hother : ∀ k s', k ≠ v → slots[k]? = some s' →
      (splitSlots slots s v counter)[k]? = some s' := fun k s' hkv hk =>
    List.getElem?_concat_eq_some.2 (.inl (List.getElem?_modify_eq_some.2 (.inr ⟨hkv, hk⟩)))
  have hcut : (splitSlots slots s v counter)[v]? = some { s with liveEnd := s.middle } :=
    List.getElem?_concat_eq_some.2 (.inl (List.getElem?_modify_eq_some.2 (.inl ⟨rfl, s, hv, rfl⟩)))
  have hnew : (splitSlots slots s v counter)[slots.length]? =
      some ⟨s.middle, s.middle, s.liveEnd, true, false, counter⟩ :=
    List.getElem?_concat_eq_some.2 (.inr ⟨by rw [List.length_modify], rfl⟩)
  have hlt : ∀ c₁ ∈ contexts, c₁.slotIndex < slots.length := fun c₁ hc₁ => by
    obtain ⟨s₁, hs₁, -⟩ := h.mans c₁ hc₁
    exact (List.getElem?_eq_some_iff.1 hs₁).1
  have hold : ∀ (k : ℕ) (c₁ : WorkerContext), (contexts.modify i fun _ => c')[k]? = some c₁ →
      (k = i ∧ c₁ = c') ∨ (k ≠ i ∧ contexts[k]? = some c₁) := by
    intro k c₁ hc₁
    rcases List.getElem?_modify_eq_some.1 hc₁ with ⟨hk, -, -, rfl⟩ | h
    · exact .inl ⟨hk, rfl⟩
    · exact .inr h
  refine ⟨fun c₁ hc₁ => ?_, fun k k' c₁ c₂ h₁ h₂ heq => ?_, fun k s' hk => ?_⟩
  · obtain ⟨k, hk⟩ := List.mem_iff_getElem?.1 hc₁
    rcases hold k c₁ hk with ⟨-, rfl⟩ | ⟨-, hk⟩
    · refine ⟨_, by rw [hindex]; exact hnew, hoffset.symm, ?_, fun hfin => ?_⟩
      · rw [WorkerContext.current, hoffset, hbytes]
        rfl
      · rw [hphase] at hfin
        cases hfin
    · obtain ⟨s₁, hs₁, hstart, hpos, hfin⟩ := h.mans c₁ (List.mem_of_getElem? hk)
      by_cases hkv : c₁.slotIndex = v
      · rw [hkv, hv] at hs₁
        cases hs₁
        exact ⟨{ s with liveEnd := s.middle }, by rw [hkv]; exact hcut, hstart, hpos,
          fun hf => absurd (hfin hf) hopen⟩
      · exact ⟨s₁, hother _ _ hkv hs₁, hstart, hpos, hfin⟩
  · rcases hold k c₁ h₁ with ⟨rfl, rfl⟩ | ⟨-, hc₁⟩ <;>
      rcases hold k' c₂ h₂ with ⟨rfl, rfl⟩ | ⟨-, hc₂⟩
    · rfl
    · have := hlt c₂ (List.mem_of_getElem? hc₂)
      omega
    · have := hlt c₁ (List.mem_of_getElem? hc₁)
      omega
    · exact h.apart k k' c₁ c₂ hc₁ hc₂ heq
  · have hmem : c' ∈ contexts.modify i fun _ => c' :=
      List.mem_of_getElem? (List.getElem?_modify_eq_some.2 (.inl ⟨rfl, c, hc, rfl⟩))
    -- A worker on a slot that is not done is not the one that takes over.
    have hstays : ∀ s₁, slots[k]? = some s₁ → s₁.writePos ≠ s₁.liveEnd →
        ∃ c₁ ∈ contexts.modify i fun _ => c', c₁.slotIndex = k := by
      intro s₁ hs₁ hne
      obtain ⟨c₁, hc₁, heq⟩ := (h.rest k s₁ hs₁).resolve_left hne
      obtain ⟨j, hj⟩ := List.mem_iff_getElem?.1 hc₁
      have hji : j ≠ i := by
        rintro rfl
        rw [hc] at hj
        cases hj
        rw [heq, hs₁] at hs₀
        cases hs₀
        exact hne hdone
      exact ⟨c₁, List.mem_of_getElem? (List.getElem?_modify_eq_some.2 (.inr ⟨hji, hj⟩)), heq⟩
    rcases getElem?_splitSlots hv hk with ⟨rfl, rfl⟩ | ⟨rfl, rfl⟩ | ⟨-, hk⟩
    · exact .inr (hstays s hv hopen)
    · exact .inr ⟨c', hmem, hindex⟩
    · exact or_iff_not_imp_left.2 (hstays s' hk)

/-! ## Runs -/

variable {w w' : World} {run run' : PoolRun}

/-- The invariant of a run: what its pool has written, as `written` counts it. -/
structure Exact (U : Set ℕ) (run : PoolRun) (p : RebalancePool) (written : ℕ → ℕ) : Prop where
  pool : run.pool = some p
  orderly : Orderly (fun _ _ => True) run
  minSteal : 1 ≤ p.minStealBytes
  length_le : p.slots.length ≤ maxWorkers
  once : Once U p.slots written
  manned : Manned p.slots run.contexts

/-- The bytes a step of the pool writes, if the write is carried out. -/
def carriedOut (w : World) (run : PoolRun) (a : PoolAct) (x : ℕ) : ℕ :=
  times (((writesOf w run a).filter (·.complete)).map Write.extent) x

/-- A worker changes that is done only if its slot is. -/
theorem Exact.setPhase {p : RebalancePool} (h : Exact U run p written) (hc : run.contexts[i]? = some c)
    (hpool : run'.pool = run.pool) (horderly : Orderly (fun _ _ => True) run')
    {f : WorkerContext → WorkerContext} (hcontexts : run'.contexts = run.contexts.modify i f)
    (hf : ∀ c, (f c).slotIndex = c.slotIndex ∧ (f c).range = c.range ∧
      (f c).bytesDone = c.bytesDone)
    (hfin : Ranged.finished (f c).phase = true → ∀ s, p.slots[c.slotIndex]? = some s →
      s.writePos = c.current → s.start = c.range.offset → s.writePos = s.liveEnd) :
    Exact U run' p written := by
  refine ⟨hpool.trans h.pool, horderly, h.minSteal, h.length_le, h.once, ?_⟩
  rw [hcontexts]
  exact h.manned.setPhase hc hf hfin

theorem finished_delivered (a : Answer) (pos n ret : ℕ) :
    Ranged.finished (delivered a pos n ret) = false := by
  rw [delivered]
  split_ifs <;> rfl

/-- The limit of a worker is the end of its slot. -/
theorem Exact.limit {p : RebalancePool} (h : Exact U run p written) {s : PoolSlot}
    (hs : p.slots[c.slotIndex]? = some s) : run.limit c = some s.liveEnd := by
  simp [PoolRun.limit, h.pool, hs]

/-- A segment judged successful was written up to the end of its slot. -/
theorem Exact.writePos_eq {p : RebalancePool} (h : Exact U run p written) {s : PoolSlot}
    {status : ℕ} {res : Bool} (hok : segmentOk run c status res = true)
    (hs : p.slots[c.slotIndex]? = some s) (hpos : s.writePos = c.current)
    (hstart : s.start = c.range.offset) : s.writePos = s.liveEnd := by
  simp only [segmentOk, decide_eq_true_eq] at hok
  have hbytes := hok.2.1
  rw [expectedBytes, h.limit hs] at hbytes
  simp only at hbytes
  have hb := h.once.bounds s (List.mem_of_getElem? hs)
  simp only [WorkerContext.current] at hpos
  omega

/-- A callback that writes and counts. -/
theorem Exact.data {p : RebalancePool} (h : Exact U run p written) {n : ℕ}
    {f : WorkerContext → WorkerContext} (hc : run.contexts[i]? = some c)
    (hpool : run'.pool = run.pool.map fun p => { p with
      slots := p.slots.modify c.slotIndex fun s =>
        { s with writePos := s.writePos + run.writable c n } })
    (horderly : Orderly (fun _ _ => True) run') (hcontexts : run'.contexts = run.contexts.modify i f)
    (hf : ∀ c', (f c').slotIndex = c'.slotIndex ∧ (f c').range = c'.range ∧
      (f c').bytesDone = c'.bytesDone + run.writable c n)
    (hfin : Ranged.finished (f c).phase = false) :
    ∃ p', Exact U run' p' fun x =>
      written x + if c.current ≤ x ∧ x < c.current + run.writable c n then 1 else 0 := by
  obtain ⟨s, hs, hstart, hpos, -⟩ := h.manned.mans c (List.mem_of_getElem? hc)
  have hle := (h.once.bounds s (List.mem_of_getElem? hs)).2
  have hm : s.writePos + run.writable c n ≤ s.liveEnd := by
    rw [PoolRun.writable, h.limit hs]
    simp only
    omega
  rw [h.pool, Option.map_some] at hpool
  refine ⟨_, hpool, horderly, h.minSteal, ?_, ?_, ?_⟩
  · rw [List.length_modify]
    exact h.length_le
  · rw [← hpos]
    exact h.once.advance hs hm
  · rw [hcontexts]
    refine h.manned.modify hc (fun c => (hf c).1) (fun k hk => ?_)
      ⟨{ s with writePos := s.writePos + run.writable c n }, ?_, ?_, ?_, fun h' => ?_⟩
    · exact List.getElem?_modify_ne _ _ (Ne.symm hk)
    · rw [(hf c).1]
      exact List.getElem?_modify_eq_some.2 (.inl ⟨rfl, s, hs, rfl⟩)
    · rw [(hf c).2.1]
      exact hstart
    · rw [WorkerContext.current, (hf c).2.1, (hf c).2.2]
      simp only [WorkerContext.current] at hpos ⊢
      omega
    · rw [hfin] at h'
      cases h'

/-- Every step of the pool keeps the invariant, and adds what it writes. -/
theorem Exact.step {a : PoolAct} {p : RebalancePool} (h : Exact U run p written)
    (hst : PoolStep R w run a w' run') :
    ∃ p', Exact U run' p' fun x => written x + carriedOut w run a x := by
  have horderly := h.orderly.step hst fun _ _ _ _ _ => trivial
  -- Most steps write nothing.
  have hnothing {q : RebalancePool} (ha : (writesOf w run a).filter (·.complete) = [])
      (hq : Exact U run' q written) : ∃ p', Exact U run' p' fun x => written x + carriedOut w run a x :=
    ⟨q, by simpa [carriedOut, ha, times] using hq⟩
  cases hst with
  | spawn hb hlt =>
    refine hnothing rfl (h.setPhase (List.getElem?_eq_getElem hlt) rfl horderly rfl
      (fun _ => ⟨rfl, rfl, rfl⟩) fun h' => ?_)
    cases h'
  | spawnFails => exact hnothing rfl ⟨h.pool, horderly, h.minSteal, h.length_le, h.once, h.manned⟩
  | initFails hc hph =>
    refine hnothing rfl (h.setPhase hc rfl horderly rfl (fun _ => ⟨rfl, rfl, rfl⟩) fun h' => ?_)
    cases h'
  | answer hc hph =>
    refine hnothing rfl (h.setPhase hc rfl horderly rfl (fun _ => ⟨rfl, rfl, rfl⟩) fun h' => ?_)
    cases h'
  | dataStopped hc hph hn hs =>
    refine hnothing (by simp [writesOf, hc, hs]) (h.setPhase hc rfl horderly rfl
      (fun _ => ⟨rfl, rfl, rfl⟩) fun h' => ?_)
    rw [finished_delivered] at h'
    cases h'
  | dataFails hc hph hn hs hw =>
    refine hnothing (by simp [writesOf, hc, hs, hw]) (h.setPhase hc rfl horderly rfl
      (fun _ => ⟨rfl, rfl, rfl⟩) fun h' => ?_)
    rw [finished_delivered] at h'
    cases h'
  | @data i c a pos n wrote hc hph hn hs hw =>
    have hout : carriedOut w run (.worker i (.data n wrote)) = fun x =>
        if c.current ≤ x ∧ x < c.current + run.writable c n then 1 else 0 := by
      funext x
      simp [carriedOut, writesOf, hc, hs, not_lt.2 hw, times_singleton, Write.extent]
    rw [hout]
    exact h.data hc rfl horderly rfl (fun _ => ⟨rfl, rfl, rfl⟩) (finished_delivered _ _ _ _)
  | @finish i c a res res' hc hph =>
    refine hnothing rfl (h.setPhase hc rfl horderly rfl (fun _ => ⟨rfl, rfl, rfl⟩)
      fun h' s hs hpos hstart => ?_)
    by_cases hok : segmentOk run c a.status res' = true
    · exact h.writePos_eq hok hs hpos hstart
    · rw [if_neg hok] at h'
      cases h'
  | @markDone i c q hc hph hp =>
    obtain rfl : q = p := Option.some.inj (hp.symm.trans h.pool)
    refine hnothing rfl ⟨rfl, horderly, h.minSteal, ?_, h.once.markDone c.slotIndex, ?_⟩
    · rw [RebalancePool.markDone, List.length_modify]
      exact h.length_le
    · obtain ⟨s, hs, hstart, hpos, hfin⟩ := h.manned.mans c (List.mem_of_getElem? hc)
      refine h.manned.modify hc (fun _ => rfl) (fun k hk => ?_)
        ⟨{ s with exhausted := true, claimed := false }, ?_, hstart, hpos, fun _ => ?_⟩
      · exact List.getElem?_modify_ne _ _ (Ne.symm hk)
      · exact List.getElem?_modify_eq_some.2 (.inl ⟨rfl, s, hs, rfl⟩)
      · exact hfin (by rw [hph]; rfl)
  | segmentEnds hc hph hp =>
    rw [h.pool] at hp
    cases hp
  | @acquire i c q hc hph hp =>
    obtain rfl : q = p := Option.some.inj (hp.symm.trans h.pool)
    generalize hacq : rebalancePoolAcquire w run q i = x at horderly ⊢
    obtain ⟨w', run'⟩ := x
    cases Acquired.of_eq (h.orderly.noOrphan q hp) hacq with
    | nothing =>
      have hsame : Exact U (run.setPhase i (.ended true)) q written := by
        refine h.setPhase hc rfl horderly rfl (fun _ => ⟨rfl, rfl, rfl⟩) fun _ s hs _ _ => ?_
        obtain ⟨s', hs', -, -, hfin⟩ := h.manned.mans c (List.mem_of_getElem? hc)
        rw [hs] at hs'
        cases hs'
        exact hfin (by rw [hph]; rfl)
      exact ⟨q, by simpa [carriedOut, writesOf, times] using hsame⟩
    | @split s v _ ps hs hmin hlt hv heq =>
      refine ⟨q.split s v (ps q.slots.length), ?_⟩
      have hsplit : Exact U (PoolRun.assign { run with
          pool := some (q.split s v (ps q.slots.length)), progressSlots := ps }
          i q.slots.length s.middle s.liveEnd (ps q.slots.length))
          (q.split s v (ps q.slots.length)) written := by
        refine ⟨rfl, horderly, h.minSteal, ?_, h.once.split hs.get _, ?_⟩
        · simp only [RebalancePool.split, List.length_append, List.length_modify,
            List.length_singleton]
          omega
        · exact h.manned.split hs.get (h.minSteal.trans hmin) hc hph rfl rfl rfl rfl
      simpa [carriedOut, writesOf, times] using hsplit

/-- The callback of a split writes nothing to the file. -/
theorem onRebalanceSplit_log {ps ps' : ℕ → Option ℕ} {x y z : ℕ}
    (h : onRebalanceSplit w ps x y z = (w', ps')) :
    w'.log.filterMap Effect.extent = w.log.filterMap Effect.extent := by
  have hshrink : (shrinkVictim w x y).log.filterMap Effect.extent =
      w.log.filterMap Effect.extent := by
    rw [shrinkVictim]
    split
    · rfl
    · simp [Effect.extent]
  rcases lt_or_ge w.d.chunks.length qmMaxChunks with hroom | hfull
  · rw [onRebalanceSplit_of_room hroom] at h
    obtain ⟨rfl, -⟩ := Prod.mk.inj h
    simp [appendChunk, Effect.extent, hshrink]
  · rw [onRebalanceSplit_of_full hfull] at h
    obtain ⟨rfl, -⟩ := Prod.mk.inj h
    exact hshrink

/-- The writes of a step are those of its log. -/
theorem PoolStep.log {a : PoolAct} (hst : PoolStep R w run a w' run')
    (hp : ∀ p ∈ run.pool, p.NoOrphan) :
    w'.log.filterMap Effect.extent =
      w.log.filterMap Effect.extent ++ (writesOf w run a).map Write.extent := by
  cases hst with
  | dataStopped hc hph hn hs => simp [writesOf, hc, hs]
  | dataFails hc hph hn hs hw =>
    simp [writesOf, hc, hs, hw, Effect.extent, Write.extent, received]
  | data hc hph hn hs hw =>
    simp [writesOf, hc, hs, not_lt.2 hw, Effect.extent, Write.extent, received, World.count]
  | @acquire i c p hc hph hp' =>
    generalize hacq : rebalancePoolAcquire w run p i = x
    obtain ⟨w', run'⟩ := x
    cases Acquired.of_eq (hp p hp') hacq with
    | nothing => simp [writesOf]
    | split _ _ _ _ heq => simp [writesOf, onRebalanceSplit_log heq]
  | _ => simp [writesOf]

/-! ## From the start -/

variable {rs : List (ℕ × Range)} {minStealBytes : ℕ}

/-- The slots of disjoint ranges tile what there is to fetch, none of which is written. -/
theorem once_create (hle : ∀ x ∈ rs, x.2.offset ≤ x.2.last)
    (hdisj : rs.Pairwise fun x y => x.2.last < y.2.offset ∨ y.2.last < x.2.offset) :
    Once (toFetch rs) (rs.map slotOf) fun _ => 0 := by
  have hget : ∀ (k : ℕ) (I : ℕ × ℕ), cells PoolSlot.extent (rs.map slotOf) k = some I ↔
      ∃ x, rs[k]? = some x ∧ rangeExtent x = I := by
    intro k I
    rw [cells, List.getElem?_map, Option.map_map]
    exact Option.map_eq_some_iff
  refine ⟨⟨fun y hy => ?_, fun k I y hk hy => ?_, fun k k' I J y hk hk' hy hy' => ?_⟩,
    fun s hs => ?_, fun _ => Nat.zero_le _, fun y => ⟨fun h => absurd rfl h, ?_⟩⟩
  · obtain ⟨x, hx, hy⟩ := hy
    obtain ⟨k, hk⟩ := List.mem_iff_getElem?.1 hx
    exact ⟨k, _, (hget k _).2 ⟨x, hk, rfl⟩, hy⟩
  · obtain ⟨x, hx, rfl⟩ := (hget k I).1 hk
    exact ⟨x, List.mem_of_getElem? hx, hy⟩
  · obtain ⟨x, hx, rfl⟩ := (hget k I).1 hk
    obtain ⟨x', hx', rfl⟩ := (hget k' J).1 hk'
    have hpair := List.pairwise_iff_getElem.1 hdisj
    obtain ⟨hlt, rfl⟩ := List.getElem?_eq_some_iff.1 hx
    obtain ⟨hlt', rfl⟩ := List.getElem?_eq_some_iff.1 hx'
    have h₁ := hy.1
    have h₂ := hy.2
    have h₃ := hy'.1
    have h₄ := hy'.2
    simp only [rangeExtent] at h₁ h₂ h₃ h₄
    rcases lt_trichotomy k k' with hkk | hkk | hkk
    · have := hpair k k' hlt hlt' hkk
      omega
    · exact hkk
    · have := hpair k' k hlt' hlt hkk
      omega
  · obtain ⟨x, hx, rfl⟩ := List.mem_map.1 hs
    exact ⟨le_rfl, (hle x hx).trans (Nat.le_succ _)⟩
  · rintro ⟨s, hs, h₁, h₂⟩
    obtain ⟨x, -, rfl⟩ := List.mem_map.1 hs
    exact absurd h₂ (not_lt.2 h₁)

/-- Each slot has its worker. -/
theorem manned_create (rs : List (ℕ × Range)) :
    Manned (rs.map slotOf) (rs.mapIdx fun i x => contextOf i (some x.1) x.2) := by
  have hget : ∀ (k : ℕ) (c : WorkerContext), (rs.mapIdx fun i x => contextOf i (some x.1) x.2)[k]? =
      some c → ∃ x, rs[k]? = some x ∧ c = contextOf k (some x.1) x.2 := by
    intro k c hc
    rw [List.getElem?_mapIdx, Option.map_eq_some_iff] at hc
    obtain ⟨x, hx, rfl⟩ := hc
    exact ⟨x, hx, rfl⟩
  refine ⟨fun c hc => ?_, fun k k' c c' hk hk' heq => ?_, fun k s hs => .inr ?_⟩
  · obtain ⟨k, hk⟩ := List.mem_iff_getElem?.1 hc
    obtain ⟨x, hx, rfl⟩ := hget k c hk
    refine ⟨slotOf x, ?_, rfl, rfl, fun h => ?_⟩
    · rw [contextOf, List.getElem?_map, hx]
      rfl
    · cases h
  · obtain ⟨x, hx, rfl⟩ := hget k c hk
    obtain ⟨x', hx', rfl⟩ := hget k' c' hk'
    exact heq
  · rw [List.getElem?_map] at hs
    obtain ⟨x, hx, -⟩ := Option.map_eq_some_iff.1 hs
    refine ⟨contextOf k (some x.1) x.2, List.mem_of_getElem? (i := k) ?_, rfl⟩
    rw [List.getElem?_mapIdx, hx]
    rfl

/-- The invariant of the runs on the ranges `rs`. -/
structure StealInv (rs : List (ℕ × Range)) (s : Stealing) : Prop where
  exact : ∃ p, Exact (toFetch rs) s.run p s.timesWritten
  log : s.w.log.filterMap Effect.extent = s.writes.map Write.extent

theorem StealInv.of_starts {s : Stealing} (hs : Starts rs minStealBytes s)
    (hlen : rs.length ≤ maxWorkers) (hle : ∀ x ∈ rs, x.2.offset ≤ x.2.last)
    (hdisj : rs.Pairwise fun x y => x.2.last < y.2.offset ∨ y.2.last < x.2.offset)
    (hmin : 1 ≤ minStealBytes) : StealInv rs s := by
  obtain ⟨w, run, writes⟩ := s
  obtain ⟨rfl, hlog, rfl⟩ := hs
  refine ⟨⟨_, rfl, (orderly_planned _ rs false).withPool _ _ fun p hp => ?_, hmin, ?_,
    once_create hle hdisj, manned_create rs⟩, ?_⟩
  · cases hp
    exact RebalancePool.noOrphan_create _ _
  · rw [rebalancePoolCreate, List.length_map]
    exact hlen
  · simp only at hlog
    rw [hlog]
    rfl

theorem StealInv.step {s s' : Stealing} {a : StealAct} (h : StealInv rs s)
    (hst : stealStep R s a = some s') : StealInv rs s' := by
  cases a with
  | pool a =>
    obtain ⟨⟨w', run'⟩, hpool, rfl⟩ := Option.map_eq_some_iff.1 hst
    have hpool := PoolStep.of_eq hpool
    obtain ⟨p, hexact⟩ := h.exact
    obtain ⟨p', hexact'⟩ := hexact.step hpool
    refine ⟨⟨p', ?_⟩, ?_⟩
    · have hcount : (fun x => s.timesWritten x + carriedOut s.w s.run a x) =
          Stealing.timesWritten ⟨w', run', s.writes ++ writesOf s.w s.run a⟩ := by
        funext x
        simp only [Stealing.timesWritten, carriedOut, List.filter_append, List.map_append,
          times_append]
      rw [← hcount]
      exact hexact'
    · rw [hpool.log hexact.orderly.noOrphan, h.log, List.map_append]
  | requestCancel b =>
    cases hst
    exact ⟨h.exact, h.log⟩
  | requestPause b =>
    cases hst
    exact ⟨h.exact, h.log⟩

/-- Once every worker succeeded, every slot is done. -/
theorem Exact.written_eq_one {p : RebalancePool} (h : Exact U run p written)
    (hok : run.allSucceeded = true) {x : ℕ} (hx : x ∈ U) : written x = 1 := by
  obtain ⟨k, I, hk, hI⟩ := h.once.tiles.cover x hx
  obtain ⟨s, hs, rfl⟩ := cells_eq_some.1 hk
  have hdone : s.writePos = s.liveEnd := by
    refine (h.manned.rest k s hs).elim id fun ⟨c, hc, hck⟩ => ?_
    obtain ⟨s', hs', -, -, hfin⟩ := h.manned.mans c hc
    rw [hck, hs] at hs'
    cases hs'
    rw [PoolRun.allSucceeded, Bool.and_eq_true, List.all_eq_true] at hok
    have hended := hok.2 c hc
    refine hfin ?_
    cases hph : c.phase with
    | ended ok =>
      rw [hph] at hended
      cases ok
      · cases hended
      · rfl
    | _ =>
      rw [hph] at hended
      cases hended
  have hne : written x ≠ 0 := (h.once.below x).2 ⟨s, List.mem_of_getElem? hs, hI.1, hdone ▸ hI.2⟩
  have hle := h.once.le_one x
  omega

/-- In every run of the pool on at most eight disjoint ranges, the slots tile what there is
    to fetch, there are at most eight, every `pwrite` is carried out or fails, those that
    are carried out write no byte twice and none but what there is to fetch, and if every
    worker succeeded, they wrote each byte of it once. -/
theorem written_once (hlen : rs.length ≤ maxWorkers) (hle : ∀ x ∈ rs, x.2.offset ≤ x.2.last)
    (hdisj : rs.Pairwise fun x y => x.2.last < y.2.offset ∨ y.2.last < x.2.offset)
    (hmin : 1 ≤ minStealBytes) {s : Stealing}
    (hs : Run.Reachable (stealStep R) (Starts rs minStealBytes) (fun _ _ => True) s) :
    (∃ p, s.run.pool = some p ∧ Tiles (toFetch rs) (cells PoolSlot.extent p.slots) ∧
      p.slots.length ≤ maxWorkers) ∧
    s.w.log.filterMap Effect.extent = s.writes.map Write.extent ∧
    ∀ x, s.timesWritten x ≤ 1 ∧ (s.timesWritten x ≠ 0 → x ∈ toFetch rs) ∧
      (s.run.allSucceeded = true → x ∈ toFetch rs → s.timesWritten x = 1) := by
  have hinv : StealInv rs s := hs.invariant
    (fun s hs => .of_starts hs hlen hle hdisj hmin) fun s a s' h _ hst => h.step hst
  obtain ⟨p, h⟩ := hinv.exact
  refine ⟨⟨p, h.pool, h.once.tiles, h.length_le⟩, hinv.log, fun x => ⟨h.once.le_one x, fun hne => ?_,
    fun hok hx => h.written_eq_one hok hx⟩⟩
  obtain ⟨sl, hsl, h₁, h₂⟩ := (h.once.below x).1 hne
  obtain ⟨k, hk⟩ := List.mem_iff_getElem?.1 hsl
  exact h.once.tiles.inside k _ x (cells_eq_some.2 ⟨sl, hk, rfl⟩)
    ⟨h₁, h₂.trans_le (h.once.bounds sl hsl).2⟩

/-- The pool started on ranges that have nothing yet, with nothing recorded. -/
def startState (rs : List (ℕ × Range)) (minStealBytes : ℕ) : Stealing :=
  ⟨{ (freshState 1 "http://h/f".toList "/d/f".toList).w with log := [] },
    stealingRun rs minStealBytes, []⟩

theorem starts_startState (rs : List (ℕ × Range)) (minStealBytes : ℕ) :
    Starts rs minStealBytes (startState rs minStealBytes) := ⟨rfl, rfl, rfl⟩

/-- Three ranges, of four bytes and of one each. -/
def threeRanges : List (ℕ × Range) :=
  [(0, ⟨0, 3, 0, false⟩), (1, ⟨4, 4, 0, false⟩), (2, ⟨5, 5, 0, false⟩)]

/-- A worker gets `n` bytes, all of its slot. -/
def fetches (i n : ℕ) : List PoolAct :=
  [.worker i (.answer (.partialContent n)), .worker i (.data n n), .worker i (.finish true),
    .worker i .markDone]

/-- The second worker takes over half of the bytes of the first one, the request of which
    is for all of them. -/
def sharedActs : List PoolAct :=
  [.spawn true, .spawn true, .spawn true] ++ fetches 1 1 ++ [.worker 1 .acquire] ++ fetches 2 1 ++
    [.worker 0 (.answer (.partialContent 4)), .worker 0 (.data 4 4), .worker 0 (.finish false),
      .worker 0 .markDone] ++ fetches 1 2 ++
    [.worker 0 .acquire, .worker 1 .acquire, .worker 2 .acquire]

/-- A run with a split in which every worker succeeds. -/
theorem written_once_shared :
    ∃ s, Run.Reachable (stealStep fun _ => 1) (Starts threeRanges 2) (fun _ _ => True) s ∧
      s.run.allSucceeded = true ∧ s.writes.length = 4 ∧ s.timesWritten 3 = 1 := by
  obtain ⟨s, hs, hok, hlen⟩ := Run.exists_reachable_of_exec
    (stealStep fun _ => 1) (Starts threeRanges 2) (fun _ _ => True)
    (fun s => s.run.allSucceeded = true ∧ s.writes.length = 4)
    (starts_startState _ _) (sharedActs.map .pool) (by decide +kernel)
  refine ⟨s, hs, hok, hlen, ?_⟩
  refine ((written_once (by decide) (by decide) (by decide) (by decide) hs).2.2 3).2.2 hok ?_
  exact ⟨_, List.mem_cons_self, by decide, by decide⟩

/-- Of the two bytes the first worker is left with, it writes one and fails; the others take
    both over, so that it has nothing left to write. -/
def failedActs : List PoolAct :=
  [.spawn true, .spawn true, .spawn true] ++ fetches 1 1 ++ [.worker 1 .acquire] ++
    [.worker 0 (.answer (.partialContent 4)), .worker 0 (.data 4 1)] ++ fetches 1 2 ++
    [.worker 1 .acquire] ++ fetches 2 1 ++ [.worker 2 .acquire] ++ fetches 1 1 ++ fetches 2 1 ++
    [.worker 0 (.finish false), .worker 0 .markDone, .worker 0 .acquire, .worker 1 .acquire,
      .worker 2 .acquire]

/-- Every worker succeeds, and the first byte is written twice. -/
theorem exists_written_twice :
    ∃ s, Run.Reachable (stealStep fun _ => 1) (Starts threeRanges 1) (fun _ _ => True) s ∧
      s.run.allSucceeded = true ∧ times (s.w.log.filterMap Effect.extent) 0 = 2 := by
  obtain ⟨s, hs, hok, htwice⟩ := Run.exists_reachable_of_exec
    (stealStep fun _ => 1) (Starts threeRanges 1) (fun _ _ => True)
    (fun s => s.run.allSucceeded = true ∧ times (s.w.log.filterMap Effect.extent) 0 = 2)
    (starts_startState _ _) (failedActs.map .pool) (by decide +kernel)
  exact ⟨s, hs, hok, htwice⟩

end Cdm
