import Cdm.Lib.Tiles
import Cdm.Engine.Layout

/-!
# Splits and the partition of a file

The chunks of a download partition its file when a call plans its ranges. A split is to
cut the chunk of the slot it takes from, and to record the rest as a chunk of its own.
It finds the chunk by the start of the slot, though, which for a resumed chunk lies past
the start of the chunk; then the rest is recorded, and nothing is cut. And with a full
table, the chunk is cut, and the rest is not recorded. Either breaks the partition
(`exists_overlap`).

A split keeps the partition if it does both, or neither (`cutsAndRecords`), and only
then (`partition_of_cutsAndRecords`).
-/

namespace Cdm

open Interval

/-- The bytes of a chunk. -/
def DownloadChunk.extent (c : DownloadChunk) : ℕ × ℕ := (c.rangeStart, c.rangeEnd + 1)

/-- The bytes of a slot. -/
def PoolSlot.extent (s : PoolSlot) : ℕ × ℕ := (s.start, s.liveEnd)

/-- The ranges of the chunks are not empty, and pairwise disjoint. -/
structure Separate (cs : List DownloadChunk) : Prop where
  nonempty : ∀ c ∈ cs, c.rangeStart ≤ c.rangeEnd
  apart : Apart (cells DownloadChunk.extent cs)

/-- The chunks partition the first `n` bytes into ranges that are not empty. -/
structure Partition (n : ℕ) (cs : List DownloadChunk) : Prop where
  nonempty : ∀ c ∈ cs, c.rangeStart ≤ c.rangeEnd
  tiles : Tiles (Set.Iio n) (cells DownloadChunk.extent cs)

/-- The call that is running has planned its ranges. -/
def EngineState.planned (s : EngineState) : Bool :=
  match s.pc with
  | .running _ _ _ | .flushing _ _ _ | .deciding _ _ _ | .fallback _ _ | .finalizing _ => true
  | _ => false

/-- A call is about to plan the ranges of a resource: afresh, or from chunks that
    partition it. -/
structure Plans (info : FileInfo) (s : EngineState) : Prop where
  planning : s.pc = .planning info
  chunks : s.w.d.chunks = [] ∨ resumeIsStale s.w info = true ∨
    Partition info.totalSize.toNat s.w.d.chunks

/-- A split cuts a chunk, one that starts where the slot does, just when it records a
    new one, for which the table has to have room. -/
def cutsAndRecords (s : EngineState) : SessionAct → Bool
  | .engine (.pool (.worker _ .acquire)) =>
    match s.pc with
    | .running _ _ run => run.pool.all fun p => p.victim.all fun x =>
        s.w.d.chunks.any (·.rangeStart = x.1.start) == decide (s.w.d.chunks.length < qmMaxChunks)
    | _ => true
  | _ => true

variable {R : ℕ → UInt8} {n : ℕ} {cs : List DownloadChunk} {slots : List PoolSlot}

/-! ## Partitions -/

theorem Separate.index_eq (h : Separate cs) {i j : ℕ} {c c' : DownloadChunk} {x : ℕ}
    (hc : cs[i]? = some c) (hc' : cs[j]? = some c') (hx : c.Contains x) (hx' : c'.Contains x) :
    i = j :=
  h.apart i j _ _ x (cells_eq_some.2 ⟨c, hc, rfl⟩) (cells_eq_some.2 ⟨c', hc', rfl⟩)
    ⟨hx.1, Nat.lt_succ_of_le hx.2⟩ ⟨hx'.1, Nat.lt_succ_of_le hx'.2⟩

theorem Partition.separate (h : Partition n cs) : Separate cs := ⟨h.nonempty, h.tiles.apart⟩

theorem Partition.index_eq (h : Partition n cs) {i j : ℕ} {c c' : DownloadChunk} {x : ℕ}
    (hc : cs[i]? = some c) (hc' : cs[j]? = some c') (hx : c.Contains x) (hx' : c'.Contains x) :
    i = j :=
  h.separate.index_eq hc hc' hx hx'

/-- The chunks of a partition are told apart by their starts. -/
theorem Partition.index_eq_of_start (h : Partition n cs) {i j : ℕ} {c c' : DownloadChunk}
    (hc : cs[i]? = some c) (hc' : cs[j]? = some c') (hs : c.rangeStart = c'.rangeStart) : i = j :=
  h.index_eq hc hc' ⟨le_rfl, h.nonempty c (List.mem_of_getElem? hc)⟩
    ⟨hs.ge, hs ▸ h.nonempty c' (List.mem_of_getElem? hc')⟩

theorem Partition.mem_of_contains (h : Partition n cs) {c : DownloadChunk} {x : ℕ} (hc : c ∈ cs)
    (hx : c.Contains x) : x < n := by
  obtain ⟨i, hi⟩ := List.mem_iff_getElem?.1 hc
  exact h.tiles.inside i _ x (cells_eq_some.2 ⟨c, hi, rfl⟩) ⟨hx.1, Nat.lt_succ_of_le hx.2⟩

/-- Recording the progress keeps a partition. -/
theorem Partition.flush (h : Partition n cs) (live : ℕ → ℕ) :
    Partition n (cs.mapIdx fun i c => { c with bytesDone := live i }) := by
  have hcells : cells DownloadChunk.extent (cs.mapIdx fun i c => { c with bytesDone := live i }) =
      cells DownloadChunk.extent cs := by
    funext i
    rw [cells, cells, List.getElem?_mapIdx, Option.map_map]
    rfl
  refine ⟨fun c hc => ?_, hcells ▸ h.tiles⟩
  obtain ⟨i, hi⟩ := List.mem_iff_getElem?.1 hc
  obtain ⟨c₀, hc₀, rfl⟩ := getElem?_flushed.1 hi
  exact h.nonempty c₀ (List.mem_of_getElem? hc₀)

/-- The ranges of a fresh plan end within the file. -/
theorem rangeEnd_lt_of_mem_freshRanges {info : FileInfo} (hT : 0 < info.totalSize.toNat)
    {c : DownloadChunk} (hc : c ∈ chunksOfRanges (freshRanges info)) :
    c.rangeEnd < info.totalSize.toNat := by
  rcases freshRanges_cases hT with ⟨h, -⟩ | h
  · obtain ⟨m, chunk, hm, -, hchunk, hle, heq⟩ :=
      segmenterPlan_eq hT (chooseWorkerCount_pos info.totalSize.toNat)
    rw [h, heq, chunksOfRanges, List.map_map] at hc
    obtain ⟨i, hi, rfl⟩ := List.mem_map.1 hc
    have hi : (i + 1) * chunk ≤ m * chunk := Nat.mul_le_mul_right chunk (List.mem_range.1 hi)
    simp only [Function.comp]
    split_ifs <;> omega
  · rw [h] at hc
    cases List.mem_singleton.1 hc
    simp only
    omega

theorem partition_freshRanges {info : FileInfo} (hT : 0 < info.totalSize.toNat) :
    Partition info.totalSize.toNat (chunksOfRanges (freshRanges info)) := by
  have h := tiled_freshRanges info hT
  have hlen : ∀ (i : ℕ) (c : DownloadChunk), (chunksOfRanges (freshRanges info))[i]? = some c →
      i < (freshRanges info).length := fun i c hc => by
    have := (List.getElem?_eq_some_iff.1 hc).1
    rwa [chunksOfRanges, List.length_map] at this
  refine ⟨fun c hc => ?_, fun x hx => ?_, fun i I x hi hx => ?_, fun i j I J x hi hj hxi hxj => ?_⟩
  · obtain ⟨i, hi⟩ := List.mem_iff_getElem?.1 hc
    exact h.nonempty i c hi
  · obtain ⟨i, c, -, hc, hx⟩ := h.cover x hx
    exact ⟨i, _, cells_eq_some.2 ⟨c, hc, rfl⟩, hx.1, Nat.lt_succ_of_le hx.2⟩
  · obtain ⟨c, hc, rfl⟩ := cells_eq_some.1 hi
    have := rangeEnd_lt_of_mem_freshRanges hT (List.mem_of_getElem? hc)
    exact (Nat.le_of_lt_succ hx.2).trans_lt this
  · obtain ⟨c, hc, rfl⟩ := cells_eq_some.1 hi
    obtain ⟨c', hc', rfl⟩ := cells_eq_some.1 hj
    exact h.meet i j c c' x (hlen i c hc) (hlen j c' hc') hc hc' ⟨hxi.1, Nat.le_of_lt_succ hxi.2⟩
      ⟨hxj.1, Nat.le_of_lt_succ hxj.2⟩

/-! ## Slots and chunks -/

/-- The slot has all of the chunk. -/
def Fills (c : DownloadChunk) (s : PoolSlot) : Prop := s.extent = c.extent

/-- The slot has a part of the chunk that does not begin where the chunk does. -/
def PartOf (c : DownloadChunk) (s : PoolSlot) : Prop :=
  c.rangeStart < s.start ∧ s.liveEnd ≤ c.rangeEnd + 1

/-- The slots are apart, and each has a chunk, or a part of one. -/
structure Housed (cs : List DownloadChunk) (slots : List PoolSlot) : Prop where
  start_le : ∀ s ∈ slots, s.start ≤ s.writePos
  nonempty : ∀ s ∈ slots, s.start < s.liveEnd
  apart : Apart (cells PoolSlot.extent slots)
  home : ∀ s ∈ slots, ∃ c ∈ cs, Fills c s ∨ PartOf c s

theorem Fills.start {c : DownloadChunk} {s : PoolSlot} (h : Fills c s) : s.start = c.rangeStart :=
  (Prod.mk.inj h).1

theorem Fills.liveEnd {c : DownloadChunk} {s : PoolSlot} (h : Fills c s) :
    s.liveEnd = c.rangeEnd + 1 :=
  (Prod.mk.inj h).2

/-- A chunk contains the slots it houses. -/
theorem contains_of_home {c : DownloadChunk} {s : PoolSlot} {x : ℕ} (h : Fills c s ∨ PartOf c s)
    (h₁ : s.start ≤ x) (h₂ : x < s.liveEnd) : c.Contains x := by
  rcases h with h | ⟨h, h'⟩
  · have := h.start
    have := h.liveEnd
    exact ⟨by omega, by omega⟩
  · exact ⟨by omega, by omega⟩

/-- Progress in a slot, or its end, does not move it. -/
theorem Housed.modify {k : ℕ} {f : PoolSlot → PoolSlot} (h : Housed cs slots)
    (hf : ∀ s, (f s).extent = s.extent) (hpos : ∀ s, s.writePos ≤ (f s).writePos) :
    Housed cs (slots.modify k f) := by
  have hstart : ∀ s, (f s).start = s.start := fun s => (Prod.mk.inj (hf s)).1
  have hend : ∀ s, (f s).liveEnd = s.liveEnd := fun s => (Prod.mk.inj (hf s)).2
  refine ⟨List.forall_mem_modify h.start_le fun s hs => ?_,
    List.forall_mem_modify h.nonempty fun s hs => ?_, ?_,
    List.forall_mem_modify h.home fun s hs => ?_⟩
  · rw [hstart]
    exact (h.start_le s (List.mem_of_getElem? hs)).trans (hpos s)
  · rw [hstart, hend]
    exact h.nonempty s (List.mem_of_getElem? hs)
  · rw [cells_modify hf]
    exact h.apart
  · obtain ⟨c, hc, hhome⟩ := h.home s (List.mem_of_getElem? hs)
    refine ⟨c, hc, ?_⟩
    rw [Fills, PartOf, hf, hstart, hend]
    exact hhome

/-- The slots after the split of the slot `s`, given the homes of its two halves. -/
theorem Housed.split {cs' : List DownloadChunk} {s : PoolSlot} {v : ℕ} {counter : Option ℕ}
    (h : Housed cs slots) (hv : slots[v]? = some s) (hrem : 2 ≤ s.remaining)
    (hcut : ∃ c ∈ cs', Fills c { s with liveEnd := s.middle } ∨
      PartOf c { s with liveEnd := s.middle })
    (hnew : ∃ c ∈ cs', Fills c ⟨s.middle, s.middle, s.liveEnd, true, false, counter⟩ ∨
      PartOf c ⟨s.middle, s.middle, s.liveEnd, true, false, counter⟩)
    (hother : ∀ k s', k ≠ v → slots[k]? = some s' → ∃ c ∈ cs', Fills c s' ∨ PartOf c s') :
    Housed cs' (splitSlots slots s v counter) := by
  obtain ⟨hwm, hml⟩ := s.middle_bounds hrem
  have hsw := h.start_le s (List.mem_of_getElem? hv)
  have hall : ∀ s' ∈ splitSlots slots s v counter, s'.start ≤ s'.writePos ∧ s'.start < s'.liveEnd ∧
      ∃ c ∈ cs', Fills c s' ∨ PartOf c s' := by
    intro s' hs'
    obtain ⟨k, hk⟩ := List.mem_iff_getElem?.1 hs'
    rcases getElem?_splitSlots hv hk with ⟨-, rfl⟩ | ⟨-, rfl⟩ | ⟨hkv, hk⟩
    · exact ⟨hsw, hsw.trans_lt hwm, hcut⟩
    · exact ⟨le_rfl, hml, hnew⟩
    · have hmem := List.mem_of_getElem? hk
      exact ⟨h.start_le s' hmem, h.nonempty s' hmem, hother k s' hkv hk⟩
  refine ⟨fun s' hs' => (hall s' hs').1, fun s' hs' => (hall s' hs').2.1, ?_,
    fun s' hs' => (hall s' hs').2.2⟩
  rw [splitSlots, cells_cut (m := s.middle) hv rfl rfl]
  exact h.apart.cut (cells_eq_some.2 ⟨s, hv, rfl⟩) (hsw.trans hwm.le) hml.le

/-! ## Splits -/

section Split

variable {s : PoolSlot} {v : ℕ} {c : DownloadChunk}

/-- The chunk of a slot that has all of it is the one a split cuts. -/
theorem Partition.cutChunk_eq (h : Partition n cs) (hs : Fills c s) {i : ℕ} (hc : cs[i]? = some c)
    (m : ℕ) : cutChunk cs s.start m = cs.modify i fun c => { c with rangeEnd := m - 1 } := by
  rw [cutChunk]
  split
  · rename_i hnone
    have := List.findIdx?_eq_none_iff.1 hnone c (List.mem_of_getElem? hc)
    simp [hs.start] at this
  · rename_i j hj
    obtain ⟨hlt, hstart, -⟩ := List.findIdx?_eq_some_iff_getElem.1 hj
    rw [decide_eq_true_eq] at hstart
    rw [h.index_eq_of_start (List.getElem?_eq_getElem hlt) hc (hstart.trans hs.start)]

/-- No chunk starts where a slot does that has a part of a chunk. -/
theorem Partition.start_ne (h : Partition n cs) (hne : s.start < s.liveEnd) (hc : c ∈ cs)
    (hs : PartOf c s) : ∀ c' ∈ cs, c'.rangeStart ≠ s.start := by
  intro c' hc' heq
  obtain ⟨i, hi⟩ := List.mem_iff_getElem?.1 hc
  obtain ⟨j, hj⟩ := List.mem_iff_getElem?.1 hc'
  have hij := h.index_eq hi hj (contains_of_home (.inr hs) le_rfl hne)
    ⟨heq.le, heq ▸ h.nonempty c' hc'⟩
  subst hij
  rw [hi] at hj
  cases hj
  exact hs.1.ne heq

theorem cutChunk_of_ne (h : ∀ c ∈ cs, c.rangeStart ≠ s.start) (m : ℕ) :
    cutChunk cs s.start m = cs := by
  rw [cutChunk, List.findIdx?_eq_none_iff.2 fun c hc => by simpa using h c hc]

/-- A chunk is cut just when the slot that is split has all of its chunk. -/
theorem Partition.any_start (h : Partition n cs) (hne : s.start < s.liveEnd) (hc : c ∈ cs)
    (hs : Fills c s ∨ PartOf c s) : (cs.any (·.rangeStart = s.start)) = true ↔ Fills c s := by
  rw [List.any_eq_true]
  constructor
  · rintro ⟨c', hc', heq⟩
    rw [decide_eq_true_eq] at heq
    exact hs.resolve_right fun hs => h.start_ne hne hc hs c' hc' heq
  · exact fun hs => ⟨c, hc, by simpa using hs.start.symm⟩

/-- Cutting a chunk and recording the rest keeps the partition. -/
theorem Partition.splitChunks (h : Partition n cs) {i : ℕ} (hc : cs[i]? = some c) (hs : Fills c s)
    {m : ℕ} (h₁ : s.start < m) (h₂ : m < s.liveEnd) :
    Partition n (splitChunks cs s.start m s.liveEnd) := by
  have hstart := hs.start
  have hend := hs.liveEnd
  rw [Cdm.splitChunks, h.cutChunk_eq hs hc]
  refine ⟨fun c' hc' => ?_, ?_⟩
  · rcases List.mem_append.1 hc' with hc' | hc'
    · refine List.forall_mem_modify h.nonempty (fun c₀ hc₀ => ?_) c' hc'
      rw [hc] at hc₀
      cases hc₀
      simp only
      omega
    · rw [List.mem_singleton.1 hc']
      simp only
      omega
  · rw [cells_cut (m := m) hc (by simp only [DownloadChunk.extent]; congr; omega)
      (by simp only [DownloadChunk.extent]; congr; omega)]
    refine h.tiles.cut (cells_eq_some.2 ⟨c, hc, rfl⟩) (cells_eq_none le_rfl) ?_ ?_
    · simp only [DownloadChunk.extent]
      omega
    · simp only [DownloadChunk.extent]
      omega

/-- Recording a part of a chunk that is not cut breaks the partition. -/
theorem not_partition_append (hc : c ∈ cs) {a b : ℕ} (ha : c.Contains a) (hab : a ≤ b) :
    ¬Partition n (cs ++ [⟨a, b, 0⟩]) := by
  intro h'
  obtain ⟨i, hi⟩ := List.mem_iff_getElem?.1 hc
  have hlt := (List.getElem?_eq_some_iff.1 hi).1
  have := h'.index_eq (List.getElem?_concat_eq_some.2 (.inl hi))
    (List.getElem?_concat_eq_some.2 (.inr ⟨rfl, rfl⟩)) ha ⟨le_rfl, hab⟩
  omega

/-- Cutting a chunk without recording the rest breaks the partition. -/
theorem Partition.not_cut (h : Partition n cs) {i : ℕ} (hc : cs[i]? = some c) (hs : Fills c s)
    {m : ℕ} (h₁ : s.start < m) (h₂ : m < s.liveEnd) : ¬Partition n (cutChunk cs s.start m) := by
  intro h'
  have hstart := hs.start
  have hend := hs.liveEnd
  have hm : c.Contains m := ⟨by omega, by omega⟩
  -- What contains `m` after the cut contained it before: it is the chunk that was cut.
  obtain ⟨j, I, hj, hx⟩ := h'.tiles.cover m (h.mem_of_contains (List.mem_of_getElem? hc) hm)
  obtain ⟨c', hc', rfl⟩ := cells_eq_some.1 hj
  rw [h.cutChunk_eq hs hc] at hc'
  rcases List.getElem?_modify_eq_some.1 hc' with ⟨rfl, c₀, hc₀, rfl⟩ | ⟨hne, hc'⟩
  · have := hx.2
    simp only [DownloadChunk.extent] at this
    omega
  · exact hne (h.index_eq hc' hc ⟨hx.1, Nat.le_of_lt_succ hx.2⟩ hm)

end Split

/-! ## Runs of the pool -/

variable {w w' : World} {run run' : PoolRun}

/-- The chunks partition the file, and house the slots of the pool. -/
structure Parted (n : ℕ) (w : World) (run : PoolRun) : Prop where
  partition : Partition n w.d.chunks
  orderly : Orderly (fun _ _ => True) run
  threshold : ∀ p ∈ run.pool, p.minStealBytes = stealThreshold
  housed : ∀ p ∈ run.pool, Housed w.d.chunks p.slots

/-- Just the splits that cut and record, or do neither, keep the partition. -/
theorem Partition.split (h : Partition n w.d.chunks) {s : PoolSlot} {v : ℕ} {ps ps' : ℕ → Option ℕ}
    (hh : Housed w.d.chunks slots) (hv : slots[v]? = some s) (hrem : 2 ≤ s.remaining)
    (heq : onRebalanceSplit w ps s.start s.middle s.liveEnd = (w', ps')) :
    (Partition n w'.d.chunks ↔
      ((w.d.chunks.any (·.rangeStart = s.start)) = true ↔ w.d.chunks.length < qmMaxChunks)) ∧
    (Partition n w'.d.chunks → ∀ counter, Housed w'.d.chunks (splitSlots slots s v counter)) := by
  have hmem := List.mem_of_getElem? hv
  obtain ⟨hwm, hml⟩ := s.middle_bounds hrem
  have hsw := hh.start_le s hmem
  have hne := hh.nonempty s hmem
  obtain ⟨c, hc, hhome⟩ := hh.home s hmem
  obtain ⟨i, hi⟩ := List.mem_iff_getElem?.1 hc
  rw [h.any_start hne hc hhome]
  have hmid : c.Contains s.middle := contains_of_home hhome (by omega) hml
  -- The table has room or is full, and the chunk of the victim starts with its slot or before it.
  rcases lt_or_ge w.d.chunks.length qmMaxChunks with hroom | hfull
  · rw [onRebalanceSplit_of_room hroom] at heq
    obtain ⟨rfl, -⟩ := Prod.mk.inj heq
    rw [appendChunk_chunks, shrinkVictim_chunks]
    rcases hhome with hfills | hpart
    · have hnew : Partition n (Cdm.splitChunks w.d.chunks s.start s.middle s.liveEnd) :=
        h.splitChunks hi hfills (by omega) hml
      refine ⟨⟨fun _ => ⟨fun _ => hroom, fun _ => hfills⟩, fun _ => hnew⟩, fun _ counter => ?_⟩
      have hstart := hfills.start
      have hend := hfills.liveEnd
      rw [h.cutChunk_eq hfills hi]
      refine hh.split hv hrem ⟨{ c with rangeEnd := s.middle - 1 }, ?_, .inl ?_⟩
        ⟨_, List.mem_append_right _ (List.mem_singleton.2 rfl), .inl ?_⟩ fun k s' hkv hk => ?_
      · exact List.mem_append_left _ (List.mem_of_getElem?
          (List.getElem?_modify_eq_some.2 (.inl ⟨rfl, c, hi, rfl⟩)))
      · exact Prod.ext hstart (by simp only [PoolSlot.extent, DownloadChunk.extent]; omega)
      · exact Prod.ext rfl (by simp only [PoolSlot.extent, DownloadChunk.extent]; omega)
      · -- The chunk that is cut houses no other slot: they would meet.
        have hmem' := List.mem_of_getElem? hk
        obtain ⟨c', hc', hhome'⟩ := hh.home s' hmem'
        obtain ⟨j, hj⟩ := List.mem_iff_getElem?.1 hc'
        refine ⟨c', List.mem_append_left _ (List.mem_of_getElem?
          (List.getElem?_modify_eq_some.2 (.inr ⟨?_, hj⟩))), hhome'⟩
        rintro rfl
        rw [hi] at hj
        cases hj
        have hx := contains_of_home hhome' le_rfl (hh.nonempty s' hmem')
        refine hkv (hh.apart k v _ _ s'.start (cells_eq_some.2 ⟨s', hk, rfl⟩)
          (cells_eq_some.2 ⟨s, hv, rfl⟩) ⟨le_rfl, hh.nonempty s' hmem'⟩ ?_)
        exact ⟨hstart.le.trans hx.1, by have := hx.2; simp only [PoolSlot.extent]; omega⟩
    · -- No chunk is cut, and the new one overlaps that of the victim.
      rw [cutChunk_of_ne (h.start_ne hne hc hpart)]
      have hbroken : ¬Partition n (w.d.chunks ++ [⟨s.middle, s.liveEnd - 1, 0⟩]) :=
        not_partition_append hc hmid (by omega)
      refine ⟨⟨fun h' => absurd h' hbroken, fun h' => ?_⟩, fun h' => absurd h' hbroken⟩
      have := (h'.2 hroom).start
      exact absurd this hpart.1.ne'
  · rw [onRebalanceSplit_of_full hfull] at heq
    obtain ⟨rfl, -⟩ := Prod.mk.inj heq
    rw [shrinkVictim_chunks]
    rcases hhome with hfills | hpart
    · -- The chunk is cut, and its second half is nobody's.
      have hbroken := h.not_cut hi hfills (by omega : s.start < s.middle) hml
      refine ⟨⟨fun h' => absurd h' hbroken, fun h' => ?_⟩, fun h' => absurd h' hbroken⟩
      exact absurd (h'.1 hfills) (not_lt.2 hfull)
    · -- Neither is done, and the table stays the same.
      rw [cutChunk_of_ne (h.start_ne hne hc hpart)]
      refine ⟨⟨fun _ => ⟨fun h' => ?_, fun h' => absurd h' (not_lt.2 hfull)⟩, fun _ => h⟩,
        fun _ counter => hh.split hv hrem ⟨c, hc, .inr ⟨hpart.1, ?_⟩⟩ ⟨c, hc, .inr ⟨?_, hpart.2⟩⟩
          fun k s' _ hk => hh.home s' (List.mem_of_getElem? hk)⟩
      · exact absurd h'.start hpart.1.ne'
      · exact hml.le.trans hpart.2
      · exact hpart.1.trans_le (hsw.trans hwm.le)

/-- An acquired slot keeps the partition if it was split off so, and only then. -/
theorem Parted.acquire {p : RebalancePool} {i : ℕ} (h : Parted n w run) (hp : run.pool = some p)
    (hacq : rebalancePoolAcquire w run p i = (w', run')) :
    (Partition n w'.d.chunks ↔ ∀ x ∈ p.victim,
      ((w.d.chunks.any (·.rangeStart = x.1.start)) = true ↔ w.d.chunks.length < qmMaxChunks)) ∧
    (Partition n w'.d.chunks → ∀ p' ∈ run'.pool,
      p'.minStealBytes = stealThreshold ∧ Housed w'.d.chunks p'.slots) := by
  have hthreshold := h.threshold p hp
  have horphan := (h.orderly.noOrphan p hp).orphan_eq_none
  cases hv : p.victim with
  | none =>
    simp only [rebalancePoolAcquire, horphan, hv] at hacq
    obtain ⟨rfl, rfl⟩ := Prod.mk.inj hacq
    refine ⟨⟨fun _ x hx => (by cases hx), fun _ => h.partition⟩, fun _ p' hp' => ?_⟩
    have hp' : run.pool = some p' := hp'
    exact ⟨h.threshold p' hp', h.housed p' hp'⟩
  | some x =>
    obtain ⟨s, v⟩ := x
    obtain ⟨hs, hmin, -⟩ := RebalancePool.victim_spec hv
    have hrem : 2 ≤ s.remaining := by
      rw [hthreshold] at hmin
      exact le_trans (by decide) hmin
    simp only [rebalancePoolAcquire, horphan, hv] at hacq
    obtain ⟨rfl, rfl⟩ := Prod.mk.inj hacq
    obtain ⟨hiff, hhoused⟩ :=
      h.partition.split (h.housed p hp) hs.get hrem rfl
    refine ⟨hiff.trans ⟨fun h' x hx => ?_, fun h' => h' _ rfl⟩, fun h' p' hp' => ?_⟩
    · cases hx
      exact h'
    · cases hp'
      exact ⟨hthreshold, hhoused h' _⟩

theorem Parted.step {a : PoolAct} (h : Parted n w run) (hst : PoolStep R w run a w' run')
    (hsplit : ∀ i p x, a = .worker i .acquire → run.pool = some p → x ∈ p.victim →
      ((w.d.chunks.any (·.rangeStart = x.1.start)) = true ↔ w.d.chunks.length < qmMaxChunks)) :
    Parted n w' run' := by
  have horderly := h.orderly.step hst fun _ _ _ _ _ => trivial
  cases hst with
  | data hc hph hn hs hw =>
    refine ⟨h.partition, horderly, fun p hp => ?_, fun p hp => ?_⟩ <;>
      obtain ⟨p₀, hp₀, rfl⟩ := Option.map_eq_some_iff.1 hp
    · exact h.threshold p₀ hp₀
    · exact (h.housed p₀ hp₀).modify (fun _ => rfl) fun _ => Nat.le_add_right _ _
  | @markDone i c p hc hph hp =>
    refine ⟨h.partition, horderly, fun p' hp' => ?_, fun p' hp' => ?_⟩ <;> cases hp'
    · exact h.threshold p hp
    · exact (h.housed p hp).modify (fun _ => rfl) fun _ => le_rfl
  | @acquire i c p hc hph hp =>
    generalize hacq : rebalancePoolAcquire w run p i = x at horderly
    obtain ⟨w', run'⟩ := x
    obtain ⟨hiff, hpool⟩ := h.acquire hp hacq
    have hpart := hiff.2 fun x hx => hsplit i p x rfl hp hx
    exact ⟨hpart, horderly, fun p' hp' => (hpool hpart p' hp').1,
      fun p' hp' => (hpool hpart p' hp').2⟩
  | _ => exact ⟨h.partition, horderly, h.threshold, h.housed⟩

/-! ## Plans -/

/-- The slot of the range that resumes an incomplete chunk. -/
theorem home_resumeRange {info : FileInfo} {c : DownloadChunk} (j : ℕ)
    (hc : chunkIsComplete c = false) :
    (slotOf (j, resumeRange info c)).start < (slotOf (j, resumeRange info c)).liveEnd ∧
      (Fills c (slotOf (j, resumeRange info c)) ∨ PartOf c (slotOf (j, resumeRange info c))) := by
  rw [chunkIsComplete_eq_false] at hc
  have hoff : (resumeRange info c).offset = c.rangeStart ∨
      (resumeRange info c).offset = c.rangeStart + c.bytesDone := by
    simp only [resumeRange, Range.offset]
    split_ifs
    · exact .inl rfl
    · exact .inr rfl
  refine ⟨?_, ?_⟩
  · simp only [slotOf, resumeRange] at hoff ⊢
    omega
  · by_cases heq : (resumeRange info c).offset = c.rangeStart
    · exact .inl (Prod.ext heq rfl)
    · refine .inr ⟨?_, le_rfl⟩
      simp only [slotOf]
      omega

/-- The slots of the resumed chunks, if these are disjoint. -/
theorem Separate.housed_resumeRanges (h : Separate cs) (info : FileInfo) :
    Housed cs ((resumeRanges info 0 cs).map slotOf) := by
  have hslot : ∀ (k : ℕ) (s : PoolSlot), ((resumeRanges info 0 cs).map slotOf)[k]? = some s →
      ∃ j c, (resumeRanges info 0 cs)[k]? = some (j, resumeRange info c) ∧ cs[j]? = some c ∧
        s = slotOf (j, resumeRange info c) ∧ s.start < s.liveEnd ∧ (Fills c s ∨ PartOf c s) := by
    intro k s hs
    rw [List.getElem?_map] at hs
    obtain ⟨⟨j, r⟩, hj, rfl⟩ := Option.map_eq_some_iff.1 hs
    obtain ⟨c, -, hc, hcomp, rfl⟩ := mem_resumeRanges.1 (List.mem_of_getElem? hj)
    exact ⟨j, c, hj, hc, rfl, home_resumeRange j hcomp⟩
  refine ⟨fun s hs => ?_, fun s hs => ?_, fun k k' I J x hk hk' hxk hxk' => ?_, fun s hs => ?_⟩
  · obtain ⟨x, -, rfl⟩ := List.mem_map.1 hs
    exact le_rfl
  · obtain ⟨k, hk⟩ := List.mem_iff_getElem?.1 hs
    obtain ⟨j, c, -, -, -, hlt, -⟩ := hslot k s hk
    exact hlt
  · -- Slots that meet are in chunks that meet: they are of one chunk.
    obtain ⟨s, hs, rfl⟩ := cells_eq_some.1 hk
    obtain ⟨s', hs', rfl⟩ := cells_eq_some.1 hk'
    obtain ⟨j, c, hj, hc, -, -, hhome⟩ := hslot k s hs
    obtain ⟨j', c', hj', hc', -, -, hhome'⟩ := hslot k' s' hs'
    have hjj := h.index_eq hc hc' (contains_of_home hhome hxk.1 hxk.2)
      (contains_of_home hhome' hxk'.1 hxk'.2)
    subst hjj
    exact index_eq_of_resumeRanges hj hj'
  · obtain ⟨k, hk⟩ := List.mem_iff_getElem?.1 hs
    obtain ⟨j, c, -, hc, -, -, hhome⟩ := hslot k s hk
    exact ⟨c, List.mem_of_getElem? hc, hhome⟩

/-- The pool on the incomplete chunks of a partition. -/
theorem Partition.planned {info : FileInfo} (h : Partition n w.d.chunks) (b : Bool) :
    Parted n w (plannedRun (resumeRanges info 0 w.d.chunks) b) := by
  refine ⟨h, orderly_planned _ _ _, fun p hp => ?_, fun p hp => ?_⟩
  · obtain ⟨rfl, -⟩ := plannedRun_pool hp
    rfl
  · obtain ⟨rfl, -⟩ := plannedRun_pool hp
    exact h.separate.housed_resumeRanges info

/-- The pool on a fresh plan. -/
theorem parted_fresh {info : FileInfo} (hT : 0 < info.totalSize.toNat) (b : Bool) :
    Parted info.totalSize.toNat (persistPlan w (freshRanges info))
      (plannedRun ((freshRanges info).mapIdx fun i r => (i, r)) b) := by
  have hpart : Partition info.totalSize.toNat (persistPlan w (freshRanges info)).d.chunks := by
    rw [persistPlan_freshRanges]
    exact partition_freshRanges hT
  by_cases hr : info.supportsRanges = true
  · rw [freshRanges_mapIdx hT hr, ← persistPlan_freshRanges w]
    exact hpart.planned b
  · have hnone : (plannedRun ((freshRanges info).mapIdx fun i r => (i, r)) b).pool = none := by
      rcases freshRanges_cases hT with ⟨-, h⟩ | h
      · exact absurd h hr
      · rw [h]
        exact plannedRun_pool_eq_none (by simp) b
    refine ⟨hpart, orderly_planned _ _ _, fun p hp => ?_, fun p hp => ?_⟩ <;> rw [hnone] at hp <;>
      cases hp

/-! ## Calls -/

/-- What is known of the chunks where the call is, on the resource `info`. -/
def PartInv (info : FileInfo) (w : World) : Pc → Prop
  | .planning info' => info' = info ∧ Plans info ⟨w, .planning info⟩
  | .running info' _ run => info' = info ∧ Parted info.totalSize.toNat w run
  | .flushing info' _ _ | .deciding info' _ _ | .finalizing info' =>
    info' = info ∧ Partition info.totalSize.toNat w.d.chunks
  | .fallback info' run =>
    info' = info ∧ Partition info.totalSize.toNat w.d.chunks ∧ run.pool = none
  | .idle _ => True
  | .entered | .probing => False

variable {info : FileInfo} {pc : Pc}

theorem PartInv.plan {io : PlanIo} (hT : 0 < info.totalSize.toNat)
    (h : w.d.chunks = [] ∨ resumeIsStale w info = true ∨ Partition info.totalSize.toNat w.d.chunks)
    (hst : PlanStep w info io w' pc) : PartInv info w' pc := by
  have hresumed (hne : w.d.chunks ≠ []) (hs : resumeIsStale w info = false) :
      Partition info.totalSize.toNat (resumed (recordSize w info) info).d.chunks := by
    rcases h with h | h | h
    · exact absurd h hne
    · rw [hs] at h
      cases h
    · exact h
  cases hst with
  | complete hne hs => exact ⟨rfl, hresumed hne hs⟩
  | resume hne hs => exact ⟨rfl, (hresumed hne hs).planned _⟩
  | resumeFails hne hs => exact ⟨rfl, hresumed hne hs⟩
  | allocFails => trivial
  | start => exact ⟨rfl, parted_fresh hT _⟩
  | startFails => exact ⟨rfl, (parted_fresh hT false).partition⟩

/-- The invariant depends on the chunks, the size and the file only. -/
theorem PartInv.congr (h : PartInv info w pc) (hchunks : w'.d.chunks = w.d.chunks)
    (hsize : w'.d.totalSize = w.d.totalSize) (hfile : w'.disk.file = w.disk.file) :
    PartInv info w' pc := by
  cases pc with
  | planning info' =>
    refine ⟨h.1, rfl, ?_⟩
    simp only [resumeIsStale, hchunks, hsize, hfile]
    exact h.2.chunks
  | running info' n run =>
    refine ⟨h.1, ?_, h.2.orderly, h.2.threshold, ?_⟩ <;> rw [hchunks]
    · exact h.2.partition
    · exact h.2.housed
  | flushing | deciding | finalizing =>
    rw [PartInv, hchunks]
    exact h
  | fallback info' run =>
    rw [PartInv, hchunks]
    exact h
  | idle | entered | probing => exact h

theorem PartInv.engine {s s' : EngineState} {a : EngineAct} (hT : 0 < info.totalSize.toNat)
    (h : PartInv info s.w s.pc) (hst : EngineStep R s a s') (hin : s.inCall = true)
    (hsplit : cutsAndRecords s (.engine a) = true) : PartInv info s'.w s'.pc := by
  cases hst with
  | call => cases hin
  | check => cases h
  | headFails => cases h
  | head => cases h
  | plan hplan =>
    obtain ⟨rfl, h⟩ := h
    exact .plan hT h.chunks (.of_eq hplan)
  | @pool w w' info' n run run' a hpool =>
    refine ⟨h.1, h.2.step hpool fun i p x ha hp hv => ?_⟩
    subst ha
    simp only [cutsAndRecords, hp, Option.all_some, Option.mem_def.1 hv, beq_iff_eq] at hsplit
    rw [hsplit, decide_eq_true_eq]
  | join => exact ⟨h.1, h.2.partition⟩
  | flush =>
    rw [PartInv, flushProgress_chunks]
    exact ⟨h.1, h.2.flush _⟩
  | decide =>
    simp only [engineDecide]
    split_ifs
    · exact h
    · trivial
    · exact ⟨h.1, h.2, rfl⟩
    · trivial
  | fallbackPool hpool =>
    obtain ⟨hi, h, hp⟩ := h
    obtain ⟨hchunks, -, -, hp'⟩ := hpool.of_pool_none hp
    rw [PartInv, hchunks]
    exact ⟨hi, h, hp'⟩
  | fallbackJoin =>
    simp only
    split_ifs
    · exact ⟨h.1, h.2.1⟩
    · trivial
  | finalize => trivial
  | finalizeFails => trivial

theorem PartInv.step {s s' : EngineState} {a : SessionAct} (hT : 0 < info.totalSize.toNat)
    (h : PartInv info s.w s.pc) (hst : sessionStep R s a = some s') (hin : s.inCall = true)
    (hsplit : cutsAndRecords s a = true) : PartInv info s'.w s'.pc := by
  cases a with
  | engine a =>
    have hfresh : PartInv info (⟨s.w.fresh, s.pc⟩ : EngineState).w s.pc := h.congr rfl rfl rfl
    exact hfresh.engine hT (.of_eq hst) hin hsplit
  | requestCancel b =>
    cases hst
    exact h.congr rfl rfl rfl
  | requestPause b =>
    cases hst
    exact h.congr rfl rfl rfl
  | restore =>
    obtain ⟨w, pc⟩ := s
    simp only [sessionStep] at hst
    split at hst
    · cases hin
    · cases hst

/-- In every call whose splits all cut and record, or do neither, the chunks partition the
    file from the plan on. Any other split breaks the partition. -/
theorem partition_of_cutsAndRecords (hT : 0 < info.totalSize.toNat) {s : EngineState}
    (hs : Run.Reachable (sessionStep R) (Plans info)
      (fun s a => s.inCall = true ∧ cutsAndRecords s a = true) s) (hplanned : s.planned = true) :
    Partition info.totalSize.toNat s.w.d.chunks ∧
      ∀ i s', sessionStep R s (.engine (.pool (.worker i .acquire))) = some s' →
        (Partition info.totalSize.toNat s'.w.d.chunks ↔
          cutsAndRecords s (.engine (.pool (.worker i .acquire))) = true) := by
  have hinv : PartInv info s.w s.pc := by
    refine hs.invariant (I := fun s => PartInv info s.w s.pc) (fun s hs => ?_)
      fun s a s' h ok hst => h.step hT hst ok.1 ok.2
    obtain ⟨w, pc⟩ := s
    obtain rfl : pc = .planning info := hs.planning
    exact ⟨rfl, rfl, hs.chunks⟩
  obtain ⟨w, pc⟩ := s
  have hpart : Partition info.totalSize.toNat w.d.chunks := by
    cases pc with
    | running => exact hinv.2.partition
    | flushing | deciding | finalizing => exact hinv.2
    | fallback => exact hinv.2.1
    | _ => cases hplanned
  refine ⟨hpart, fun i s' hst => ?_⟩
  have hst := EngineStep.of_eq hst
  cases hst with
  | @pool _ w' _ n run run' _ hpool =>
    have hparted : Parted info.totalSize.toNat w.fresh run :=
      ⟨hinv.2.partition, hinv.2.orderly, hinv.2.threshold, hinv.2.housed⟩
    cases hpool with
    | @acquire _ c p hc hph hp =>
      refine (hparted.acquire hp rfl).1.trans ?_
      simp only [cutsAndRecords, hp, Option.all_some]
      cases p.victim with
      | none => simp
      | some x =>
        rw [Option.all_some, beq_iff_eq, Bool.eq_iff_iff, decide_eq_true_eq]
        exact ⟨fun h => h x rfl, fun h y hy => (by cases hy; exact h)⟩
  | fallbackPool hpool =>
    -- The single connection has no pool to split.
    obtain ⟨hchunks, -⟩ := hpool.of_pool_none hinv.2.2
    rw [hchunks]
    exact ⟨fun _ => rfl, fun _ => hpart⟩

/-- A call about to resume the chunks of a resource, with `live i` bytes of the `i`-th. -/
def resumingState (info : FileInfo) (live : ℕ → ℕ) : EngineState :=
  let w := (freshState 1 "http://h/f".toList "/d/f".toList).w
  let chunks := (chunksOfRanges (freshRanges info)).mapIdx fun i c => { c with bytesDone := live i }
  ⟨{ w with
      d := { w.d with totalSize := info.totalSize.toNat, chunks := chunks }
      disk := ⟨some (File.empty.extend info.totalSize.toNat),
        { w.disk.db with chunks := chunkRows 1 chunks }⟩ },
    .planning info⟩

theorem plans_resumingState (hT : 0 < info.totalSize.toNat) (live : ℕ → ℕ) :
    Plans info (resumingState info live) :=
  ⟨rfl, .inr (.inr ((partition_freshRanges hT).flush live))⟩

/-- The plan of a call, with `k` workers. -/
def planActs (k : ℕ) : List EngineAct :=
  .plan ⟨⟨false, false⟩, false, false⟩ :: List.replicate k (.pool (.spawn true))

/-- A worker gets the `n` bytes it asks for. -/
def gets (i n : ℕ) : List EngineAct :=
  [.pool (.worker i (.answer (.partialContent n))), .pool (.worker i (.data n n)),
    .pool (.worker i (.finish true)), .pool (.worker i .markDone)]

/-- Four workers on eight mebibytes, three of which are done; the first one takes half of
    what the second one has to fetch. -/
def takeOver : List EngineAct :=
  planActs 4 ++ gets 2 2097152 ++ gets 3 2097152 ++ gets 0 2097152 ++
    [.pool (.worker 0 .acquire)]

/-- A split of a chunk resumed from its first byte on. -/
theorem partition_of_cutsAndRecords_whole :
    ∃ s, Run.Reachable (sessionStep fun _ => 1) (Plans ⟨8388608, true⟩)
        (fun s a => s.inCall = true ∧ cutsAndRecords s a = true) s ∧
      s.planned = true ∧ s.w.d.chunks.length = 5 ∧ Partition 8388608 s.w.d.chunks := by
  obtain ⟨s, hs, hplanned, hlen⟩ := Run.exists_reachable_of_exec
    (sessionStep fun _ => 1) (Plans ⟨8388608, true⟩)
    (fun s a => s.inCall = true ∧ cutsAndRecords s a = true)
    (fun s => s.planned = true ∧ s.w.d.chunks.length = 5)
    (plans_resumingState (by decide) fun _ => 0) (takeOver.map .engine) (by decide +kernel)
  exact ⟨s, hs, hplanned, hlen, (partition_of_cutsAndRecords (by decide) hs hplanned).1⟩

/-- A split of a chunk of which a byte is there records a chunk that lies within it. -/
theorem exists_overlap :
    ∃ s, Run.Reachable (sessionStep fun _ => 1) (Plans ⟨8388608, true⟩)
        (fun s _ => s.inCall = true) s ∧
      s.planned = true ∧ ¬Partition 8388608 s.w.d.chunks := by
  obtain ⟨s, hs, hplanned, c, hc, c', hc', h₁, h₂⟩ := Run.exists_reachable_of_exec
    (sessionStep fun _ => 1) (Plans ⟨8388608, true⟩)
    (fun s _ => s.inCall = true)
    (fun s => s.planned = true ∧ ∃ c ∈ s.w.d.chunks[1]?, ∃ c' ∈ s.w.d.chunks[4]?,
      (c.rangeStart ≤ c'.rangeStart ∧ c'.rangeStart ≤ c.rangeEnd) ∧ c'.rangeStart ≤ c'.rangeEnd)
    (plans_resumingState (by decide) fun i => if i = 1 then 1 else 0) (takeOver.map .engine)
    (by decide +kernel)
  refine ⟨s, hs, hplanned, fun h => ?_⟩
  exact absurd (h.index_eq hc hc' h₁ ⟨le_rfl, h₂⟩) (by decide)

end Cdm
