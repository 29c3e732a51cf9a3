import Cdm.Engine.Partition

/-!
# The chunk rows mirror the chunks

Every change of the chunk table goes to the database too, by a statement of its own:
discarding, a fresh plan, the cut and the record of a split, and the progress. A
statement finds its rows by their start, so what keeps the two sides together is that
the chunks are told apart by their starts (`Mirrored`). A split records a chunk that
starts inside of the slot it takes from, and no chunk starts there (`Clear`).
-/

namespace Cdm

open Interval

/-- The chunk a row records. -/
def ChunkRow.chunk (r : ChunkRow) : DownloadChunk := ⟨r.rangeStart, r.rangeEnd, r.bytesDone⟩

/-- The chunk rows of the download are its chunks, as sets. -/
def Mirrors (w : World) : Prop := ∀ c, c ∈ w.rows.map ChunkRow.chunk ↔ c ∈ w.d.chunks

/-- The chunks are told apart by their starts. -/
def DistinctStarts (cs : List DownloadChunk) : Prop := (cs.map (·.rangeStart)).Nodup

/-- A call begins on a download whose chunk rows are its chunks, which are disjoint; the
    database has its row, so that no statement fails. -/
structure Begins (s : EngineState) : Prop where
  entered : s.pc = .entered
  mirrors : Mirrors s.w
  hasRow : s.w.HasRow
  separate : Separate s.w.d.chunks

variable {R : ℕ → UInt8} {cs : List DownloadChunk} {slots : List PoolSlot}
  {w w' : World} {run run' : PoolRun}

/-! ## Chunks -/

theorem Separate.distinctStarts (h : Separate cs) : DistinctStarts cs := by
  refine List.pairwise_map.2 (List.pairwise_iff_getElem.2 fun i j hi hj hij heq => ?_)
  have hne := h.nonempty _ (List.getElem_mem hi)
  have hne' := h.nonempty _ (List.getElem_mem hj)
  have := h.index_eq (List.getElem?_eq_getElem hi) (List.getElem?_eq_getElem hj) ⟨le_rfl, hne⟩
    ⟨heq.ge, heq ▸ hne'⟩
  omega

theorem separate_singleton {c : DownloadChunk} (h : c.rangeStart ≤ c.rangeEnd) : Separate [c] := by
  refine ⟨fun c' hc' => ?_, fun i j I J x hi hj _ _ => ?_⟩
  · rw [List.mem_singleton.1 hc']
    exact h
  · obtain ⟨c₁, hc₁, -⟩ := cells_eq_some.1 hi
    obtain ⟨c₂, hc₂, -⟩ := cells_eq_some.1 hj
    have hi := (List.getElem?_eq_some_iff.1 hc₁).1
    have hj := (List.getElem?_eq_some_iff.1 hc₂).1
    rw [List.length_singleton] at hi hj
    omega

/-- The chunks of a fresh plan, of a resource of known size or not. -/
theorem separate_freshRanges (info : FileInfo) : Separate (chunksOfRanges (freshRanges info)) := by
  rcases Nat.eq_zero_or_pos info.totalSize.toNat with hT | hT
  · rw [freshRanges, hT, if_neg fun h => absurd h.1 (lt_irrefl 0)]
    exact separate_singleton le_rfl
  · exact (partition_freshRanges hT).separate

theorem DistinctStarts.index_eq (h : DistinctStarts cs) {i j : ℕ} {c c' : DownloadChunk}
    (hc : cs[i]? = some c) (hc' : cs[j]? = some c') (heq : c.rangeStart = c'.rangeStart) :
    i = j := by
  obtain ⟨hi, rfl⟩ := List.getElem?_eq_some_iff.1 hc
  obtain ⟨hj, rfl⟩ := List.getElem?_eq_some_iff.1 hc'
  have hi' : i < (cs.map (·.rangeStart)).length := by rwa [List.length_map]
  have hj' : j < (cs.map (·.rangeStart)).length := by rwa [List.length_map]
  refine (List.Nodup.getElem_inj_iff h : _ ↔ i = j).1 (?_ : _[i] = _[j])
  rwa [List.getElem_map, List.getElem_map]

/-- With distinct starts, a cut changes the chunks with that start. -/
theorem DistinctStarts.cutChunk_eq (h : DistinctStarts cs) (a m : ℕ) : cutChunk cs a m =
    cs.map fun c => if c.rangeStart = a then { c with rangeEnd := m - 1 } else c := by
  refine List.ext_getElem? fun i => ?_
  rw [List.getElem?_map]
  cases hc : cs[i]? with
  | none =>
    rw [Option.map_none, List.getElem?_eq_none_iff, length_cutChunk]
    exact List.getElem?_eq_none_iff.1 hc
  | some c =>
    rw [Option.map_some]
    split_ifs with hs
    · exact getElem?_cutChunk_self hc hs fun j c' hc' hs' => h.index_eq hc' hc (hs'.trans hs.symm)
    · exact getElem?_cutChunk_of_ne hc hs

theorem DistinctStarts.map {f : DownloadChunk → DownloadChunk} (h : DistinctStarts cs)
    (hf : ∀ c, (f c).rangeStart = c.rangeStart) : DistinctStarts (cs.map f) := by
  rw [DistinctStarts, List.map_map, show (DownloadChunk.rangeStart ∘ f) = (·.rangeStart) from
    funext hf]
  exact h

theorem DistinctStarts.append (h : DistinctStarts cs) {m e b : ℕ}
    (hm : ∀ c ∈ cs, c.rangeStart ≠ m) : DistinctStarts (cs ++ [⟨m, e, b⟩]) := by
  rw [DistinctStarts, List.map_append, List.nodup_append]
  refine ⟨h, List.nodup_singleton _, fun a ha b hb hab => ?_⟩
  obtain ⟨c, hc, rfl⟩ := List.mem_map.1 ha
  rw [List.map_singleton, List.mem_singleton] at hb
  exact hm c hc (hab.trans hb)

/-! ## Rows -/

/-- The rows and the chunks change alike. -/
theorem Mirrors.map {f : ChunkRow → ChunkRow} {g : DownloadChunk → DownloadChunk} (h : Mirrors w)
    (hrows : w'.rows = w.rows.map f) (hchunks : w'.d.chunks = w.d.chunks.map g)
    (hfg : ∀ r, (f r).chunk = g r.chunk) : Mirrors w' := by
  intro c
  have hcomp : ChunkRow.chunk ∘ f = g ∘ ChunkRow.chunk := funext hfg
  rw [hrows, hchunks, List.map_map, hcomp, ← List.map_map, List.mem_map, List.mem_map]
  exact exists_congr fun c' => and_congr_left fun _ => h c'

theorem mirrors_of_eq (hrows : w.rows = chunkRows w.d.id w.d.chunks) : Mirrors w := by
  intro c
  rw [hrows, chunkRows, List.map_map]
  change c ∈ w.d.chunks.map id ↔ _
  rw [List.map_id]

theorem mirrors_nil (hrows : w.rows = []) (hchunks : w.d.chunks = []) : Mirrors w := by
  intro c
  rw [hrows, hchunks]
  exact Iff.rfl

theorem Mirrors.appendChunk (h : Mirrors w) (hrow : w.HasRow) (a b : ℕ) :
    Mirrors (appendChunk w a b) := by
  intro c
  rw [appendChunk_rows a b hrow, appendChunk_chunks, List.map_append, List.mem_append,
    List.mem_append, h c]
  rfl

theorem Mirrors.shrinkVictim (h : Mirrors w) (hd : DistinctStarts w.d.chunks) (a m : ℕ) :
    Mirrors (shrinkVictim w a m) := by
  rcases shrinkVictim_rows a m with ⟨hne, hrows⟩ | hrows
  · -- No chunk starts there.
    intro c
    have hcut : cutChunk w.d.chunks a m = w.d.chunks := by
      rw [cutChunk, List.findIdx?_eq_none_iff.2 fun c hc => by simpa using hne c hc]
    rw [hrows, shrinkVictim_chunks, hcut]
    exact h c
  · refine h.map hrows ((shrinkVictim_chunks a m).trans (hd.cutChunk_eq a m)) fun r => ?_
    by_cases hr : r.rangeStart = a <;> simp [ChunkRow.chunk, hr]

/-- The bytes recorded for what starts at `start`, after those of the chunks `cs` are. -/
def recordedBytes (cs : List DownloadChunk) (start bytes : ℕ) : ℕ :=
  ((cs.find? (·.rangeStart = start)).map (·.bytesDone)).getD bytes

theorem chunksOf_foldl_updateChunkProgress {id : ℕ} (h : DistinctStarts cs) (db : Db) :
    ((cs.map fun c => .updateChunkProgress id c.rangeStart c.bytesDone).foldl Db.exec db).chunksOf
      id = (db.chunksOf id).map fun r =>
        { r with bytesDone := recordedBytes cs r.rangeStart r.bytesDone } := by
  induction cs generalizing db with
  | nil => exact (List.map_id _).symm
  | cons c cs ih =>
    obtain ⟨hc, hcs⟩ := List.nodup_cons.1 h
    rw [List.map_cons, List.foldl_cons, ih hcs, Db.chunksOf_updateChunkProgress, List.map_map]
    refine List.map_congr_left fun r _ => ?_
    rw [Function.comp_apply]
    split_ifs with hr
    · -- No later chunk has the start of this one.
      have hnone : cs.find? (·.rangeStart = c.rangeStart) = none := by
        refine List.find?_eq_none.2 fun c' hc' => ?_
        rw [decide_eq_true_eq]
        exact fun heq => hc (List.mem_map.2 ⟨c', hc', heq⟩)
      simp [recordedBytes, hr, hnone]
    · simp [recordedBytes, Ne.symm hr]

theorem distinctStarts_flushed {live : ℕ → ℕ} (h : DistinctStarts cs) :
    DistinctStarts (cs.mapIdx fun i c => { c with bytesDone := live i }) := by
  have hstarts : (cs.mapIdx fun i c => { c with bytesDone := live i }).map (·.rangeStart) =
      cs.map (·.rangeStart) := by
    refine List.ext_getElem? fun i => ?_
    rw [List.getElem?_map, List.getElem?_map, List.getElem?_mapIdx, Option.map_map]
    rfl
  rw [DistinctStarts, hstarts]
  exact h

theorem recordedBytes_flushed {live : ℕ → ℕ} {i b : ℕ} {c : DownloadChunk} (h : DistinctStarts cs)
    (hc : cs[i]? = some c) :
    recordedBytes (cs.mapIdx fun i c => { c with bytesDone := live i }) c.rangeStart b =
      live i := by
  have hmem : { c with bytesDone := live i } ∈ cs.mapIdx fun i c => { c with bytesDone := live i } :=
    List.mem_of_getElem? (getElem?_flushed.2 ⟨c, hc, rfl⟩)
  have hfind : (cs.mapIdx fun i c => { c with bytesDone := live i }).find?
      (·.rangeStart = c.rangeStart) = some { c with bytesDone := live i } :=
    List.find?_key_of_mem (distinctStarts_flushed h) hmem
  rw [recordedBytes, hfind]
  rfl

/-- The progress of the chunks is recorded in their rows. -/
theorem Mirrors.flushProgress (h : Mirrors w) (hd : DistinctStarts w.d.chunks) :
    Mirrors (flushProgress w) ∧ DistinctStarts (flushProgress w).d.chunks := by
  obtain ⟨qs, hflush, hqs⟩ := flushProgress_spec w
  set cs := w.d.chunks.mapIdx fun i c => { c with bytesDone := w.d.chunkLiveBytes i } with hcs
  have hd' : DistinctStarts cs := distinctStarts_flushed hd
  rw [hflush]
  refine ⟨h.map (f := fun r => { r with bytesDone := recordedBytes cs r.rangeStart r.bytesDone })
    (g := fun c => { c with bytesDone := recordedBytes cs c.rangeStart c.bytesDone })
    ?_ ?_ fun r => rfl, hd'⟩
  · rw [World.rows, hqs]
    exact chunksOf_foldl_updateChunkProgress hd' _
  · refine List.ext_getElem? fun i => ?_
    rw [List.getElem?_map]
    simp only
    rw [hcs, List.getElem?_mapIdx]
    refine Option.map_congr fun c hc => ?_
    rw [recordedBytes_flushed hd hc]

/-! ## Splits -/

/-- The slots are apart, and no chunk starts inside of one. -/
structure Clear (cs : List DownloadChunk) (slots : List PoolSlot) : Prop where
  start_le : ∀ s ∈ slots, s.start ≤ s.writePos
  apart : Apart (cells PoolSlot.extent slots)
  outside : ∀ s ∈ slots, ∀ c ∈ cs, c.rangeStart ≤ s.start ∨ s.liveEnd ≤ c.rangeStart

/-- Progress in a slot, or its end, does not move it. -/
theorem Clear.modify {k : ℕ} {f : PoolSlot → PoolSlot} (h : Clear cs slots)
    (hf : ∀ s, (f s).extent = s.extent) (hpos : ∀ s, s.writePos ≤ (f s).writePos) :
    Clear cs (slots.modify k f) := by
  have hstart : ∀ s, (f s).start = s.start := fun s => (Prod.mk.inj (hf s)).1
  have hend : ∀ s, (f s).liveEnd = s.liveEnd := fun s => (Prod.mk.inj (hf s)).2
  refine ⟨List.forall_mem_modify h.start_le fun s hs => ?_, ?_,
    List.forall_mem_modify h.outside fun s hs c hc => ?_⟩
  · rw [hstart]
    exact (h.start_le s (List.mem_of_getElem? hs)).trans (hpos s)
  · rw [cells_modify hf]
    exact h.apart
  · rw [hstart, hend]
    exact h.outside s (List.mem_of_getElem? hs) c hc

/-- After a split, chunks start where they did, or in the middle of the slot. -/
theorem Clear.split {cs' : List DownloadChunk} {s : PoolSlot} {v : ℕ} {counter : Option ℕ}
    (h : Clear cs slots) (hv : slots[v]? = some s) (hrem : 2 ≤ s.remaining)
    (hcs : ∀ c ∈ cs', (∃ c₀ ∈ cs, c.rangeStart = c₀.rangeStart) ∨ c.rangeStart = s.middle) :
    Clear cs' (splitSlots slots s v counter) := by
  obtain ⟨hwm, hml⟩ := s.middle_bounds hrem
  have hmem := List.mem_of_getElem? hv
  have hsw := h.start_le s hmem
  refine ⟨fun s' hs' => ?_, ?_, fun s' hs' c hc => ?_⟩
  · obtain ⟨k, hk⟩ := List.mem_iff_getElem?.1 hs'
    rcases getElem?_splitSlots hv hk with ⟨-, rfl⟩ | ⟨-, rfl⟩ | ⟨-, hk⟩
    · exact hsw
    · exact le_rfl
    · exact h.start_le s' (List.mem_of_getElem? hk)
  · rw [splitSlots, cells_cut (m := s.middle) hv rfl rfl]
    exact h.apart.cut (cells_eq_some.2 ⟨s, hv, rfl⟩) (hsw.trans hwm.le) hml.le
  · obtain ⟨k, hk⟩ := List.mem_iff_getElem?.1 hs'
    rcases getElem?_splitSlots hv hk with ⟨-, rfl⟩ | ⟨-, rfl⟩ | ⟨hkv, hk⟩
    · rcases hcs c hc with ⟨c₀, hc₀, heq⟩ | heq
      · rcases h.outside s hmem c₀ hc₀ with hle | hle
        · exact .inl (heq.le.trans hle)
        · exact .inr (heq ▸ hml.le.trans hle)
      · exact .inr heq.ge
    · rcases hcs c hc with ⟨c₀, hc₀, heq⟩ | heq
      · rcases h.outside s hmem c₀ hc₀ with hle | hle
        · exact .inl (heq.le.trans (hle.trans (hsw.trans hwm.le)))
        · exact .inr (heq ▸ hle)
      · exact .inl heq.le
    · have hmem' := List.mem_of_getElem? hk
      rcases hcs c hc with ⟨c₀, hc₀, heq⟩ | heq
      · rw [heq]
        exact h.outside s' hmem' c₀ hc₀
      · -- Another slot that holds the middle would meet the one that is split.
        rw [heq]
        by_contra hin
        rw [not_or, not_le, not_le] at hin
        exact hkv (h.apart k v _ _ s.middle (cells_eq_some.2 ⟨s', hk, rfl⟩)
          (cells_eq_some.2 ⟨s, hv, rfl⟩) ⟨hin.1.le, hin.2⟩ ⟨hsw.trans hwm.le, hml⟩)

/-! ## Runs of the pool -/

/-- The rows are the chunks, which are told apart by their starts. -/
structure Mirrored (w : World) : Prop where
  mirrors : Mirrors w
  hasRow : w.HasRow
  distinct : DistinctStarts w.d.chunks

/-- A run of the pool, which splits slots no chunk starts in. -/
structure MirroredRun (w : World) (run : PoolRun) : Prop extends Mirrored w where
  orderly : Orderly (fun _ _ => True) run
  threshold : ∀ p ∈ run.pool, p.minStealBytes = stealThreshold
  clear : ∀ p ∈ run.pool, Clear w.d.chunks p.slots

/-- What is mirrored depends on the identifier, the chunks and the database only. -/
theorem Mirrored.congr (h : Mirrored w) (hid : w'.d.id = w.d.id)
    (hchunks : w'.d.chunks = w.d.chunks) (hdb : w'.disk.db = w.disk.db) : Mirrored w' := by
  obtain ⟨h₁, h₂, h₃⟩ := h
  refine ⟨?_, ?_, ?_⟩
  · rw [Mirrors, World.rows, hid, hchunks, hdb]
    exact h₁
  · rw [World.HasRow, hid, hdb]
    exact h₂
  · rw [hchunks]
    exact h₃

theorem Mirrored.split {s : PoolSlot} {v : ℕ} {ps ps' : ℕ → Option ℕ} (h : Mirrored w)
    (hclear : Clear w.d.chunks slots) (hv : slots[v]? = some s) (hrem : 2 ≤ s.remaining)
    (heq : onRebalanceSplit w ps s.start s.middle s.liveEnd = (w', ps')) :
    Mirrored w' ∧ ∀ counter, Clear w'.d.chunks (splitSlots slots s v counter) := by
  obtain ⟨hwm, hml⟩ := s.middle_bounds hrem
  have hmem := List.mem_of_getElem? hv
  have hsw := hclear.start_le s hmem
  have hcut : Mirrored (shrinkVictim w s.start s.middle) := by
    refine ⟨h.mirrors.shrinkVictim h.distinct _ _, shrinkVictim_hasRow _ _ h.hasRow, ?_⟩
    rw [shrinkVictim_chunks, h.distinct.cutChunk_eq]
    refine h.distinct.map fun c => ?_
    split_ifs <;> rfl
  have hold : ∀ c ∈ cutChunk w.d.chunks s.start s.middle, ∃ c₀ ∈ w.d.chunks,
      c.rangeStart = c₀.rangeStart := by
    intro c hc
    obtain ⟨j, hj⟩ := List.mem_iff_getElem?.1 hc
    obtain ⟨c₀, hc₀, hs, -⟩ := getElem?_cutChunk hj
    exact ⟨c₀, List.mem_of_getElem? hc₀, hs⟩
  rcases lt_or_ge w.d.chunks.length qmMaxChunks with hroom | hfull
  · rw [onRebalanceSplit_of_room hroom] at heq
    obtain ⟨rfl, -⟩ := Prod.mk.inj heq
    refine ⟨⟨hcut.mirrors.appendChunk hcut.hasRow _ _, appendChunk_hasRow _ _ hcut.hasRow, ?_⟩,
      fun counter => hclear.split hv hrem fun c hc => ?_⟩
    · -- No chunk starts in the middle of the slot yet.
      refine hcut.distinct.append fun c hc => ?_
      rw [shrinkVictim_chunks] at hc
      obtain ⟨c₀, hc₀, hs⟩ := hold c hc
      rw [hs]
      rcases hclear.outside s hmem c₀ hc₀ with hle | hle <;> omega
    · rw [appendChunk_chunks, shrinkVictim_chunks] at hc
      rcases List.mem_append.1 hc with hc | hc
      · exact .inl (hold c hc)
      · rw [List.mem_singleton.1 hc]
        exact .inr rfl
  · rw [onRebalanceSplit_of_full hfull] at heq
    obtain ⟨rfl, -⟩ := Prod.mk.inj heq
    refine ⟨hcut, fun counter => hclear.split hv hrem fun c hc => ?_⟩
    rw [shrinkVictim_chunks] at hc
    exact .inl (hold c hc)

theorem MirroredRun.step {a : PoolAct} (h : MirroredRun w run) (hst : PoolStep R w run a w' run') :
    MirroredRun w' run' := by
  have horderly := h.orderly.step hst fun _ _ _ _ _ => trivial
  cases hst with
  | data hc hph hn hs hw =>
    refine ⟨h.toMirrored.congr rfl rfl rfl, horderly, fun p hp => ?_, fun p hp => ?_⟩ <;>
      obtain ⟨p₀, hp₀, rfl⟩ := Option.map_eq_some_iff.1 hp
    · exact h.threshold p₀ hp₀
    · exact (h.clear p₀ hp₀).modify (fun _ => rfl) fun _ => Nat.le_add_right _ _
  | @markDone i c p hc hph hp =>
    refine ⟨h.toMirrored, horderly, fun p' hp' => ?_, fun p' hp' => ?_⟩ <;> cases hp'
    · exact h.threshold p hp
    · exact (h.clear p hp).modify (fun _ => rfl) fun _ => le_rfl
  | @acquire i c p hc hph hp =>
    generalize hacq : rebalancePoolAcquire w run p i = x at horderly
    obtain ⟨w', run'⟩ := x
    cases Acquired.of_eq (h.orderly.noOrphan p hp) hacq with
    | nothing => exact ⟨h.toMirrored, horderly, h.threshold, h.clear⟩
    | @split s v w' ps hs hmin _ _ hsplit =>
      have hrem : 2 ≤ s.remaining := by
        rw [h.threshold p hp] at hmin
        exact le_trans (by decide) hmin
      obtain ⟨hm, hclear⟩ := h.toMirrored.split (h.clear p hp) hs.get hrem hsplit
      refine ⟨hm, horderly, fun p' hp' => ?_, fun p' hp' => ?_⟩ <;> cases hp'
      · exact h.threshold p hp
      · exact hclear _
  | _ => exact ⟨h.toMirrored.congr rfl rfl rfl, horderly, h.threshold, h.clear⟩

/-! ## Plans -/

/-- The slots of the resumed chunks: no chunk starts inside of another. -/
theorem Separate.clear_resumeRanges (h : Separate cs) (info : FileInfo) :
    Clear cs ((resumeRanges info 0 cs).map slotOf) := by
  have hh := h.housed_resumeRanges info
  refine ⟨hh.start_le, hh.apart, fun s hs c hc => ?_⟩
  obtain ⟨c₀, hc₀, hhome⟩ := hh.home s hs
  by_contra hin
  rw [not_or, not_le, not_le] at hin
  obtain ⟨i, hi⟩ := List.mem_iff_getElem?.1 hc
  obtain ⟨j, hj⟩ := List.mem_iff_getElem?.1 hc₀
  have hij := h.index_eq hi hj ⟨le_rfl, h.nonempty c hc⟩ (contains_of_home hhome hin.1.le hin.2)
  subst hij
  rw [hi] at hj
  cases hj
  rcases hhome with hfills | hpart
  · exact hin.1.ne hfills.start
  · exact lt_asymm hin.1 hpart.1

theorem Mirrored.planned {info : FileInfo} (h : Mirrored w) (hs : Separate w.d.chunks) (b : Bool) :
    MirroredRun w (plannedRun (resumeRanges info 0 w.d.chunks) b) := by
  refine ⟨h, orderly_planned _ _ _, fun p hp => ?_, fun p hp => ?_⟩ <;>
    obtain ⟨rfl, -⟩ := plannedRun_pool hp
  · rfl
  · exact hs.clear_resumeRanges info

/-- The chunks of a fresh plan are recorded. -/
theorem mirrored_persistPlan (info : FileInfo) (h : w.HasRow) :
    Mirrored (persistPlan w (freshRanges info)) := by
  refine ⟨mirrors_of_eq ?_, persistPlan_hasRow _ h, ?_⟩
  · rw [persistPlan_rows _ h, persistPlan_id, persistPlan_chunks]
  · rw [persistPlan_freshRanges]
    exact (separate_freshRanges info).distinctStarts

/-- The pool on a fresh plan: it has slots only if the resource has a size and supports
    ranges. -/
theorem mirroredRun_fresh {info : FileInfo} (h : w.HasRow) (b : Bool) :
    MirroredRun (persistPlan w (freshRanges info))
      (plannedRun ((freshRanges info).mapIdx fun i r => (i, r)) b) := by
  have hm := mirrored_persistPlan info h
  by_cases hr : 0 < info.totalSize.toNat ∧ info.supportsRanges = true
  · have hs : Separate (persistPlan w (freshRanges info)).d.chunks := by
      rw [persistPlan_freshRanges]
      exact separate_freshRanges info
    rw [freshRanges_mapIdx hr.1 hr.2, ← persistPlan_freshRanges w]
    exact hm.planned hs b
  · have hnone : (plannedRun ((freshRanges info).mapIdx fun i r => (i, r)) b).pool = none := by
      rw [freshRanges, if_neg hr]
      exact plannedRun_pool_eq_none (by simp) b
    refine ⟨hm, orderly_planned _ _ _, fun p hp => ?_, fun p hp => ?_⟩ <;> rw [hnone] at hp <;>
      cases hp

/-! ## Calls -/

/-- What is known of the rows where the call is. -/
def MirrorInv (w : World) : Pc → Prop
  | .entered | .probing | .planning _ => Mirrored w ∧ Separate w.d.chunks
  | .running _ _ run => MirroredRun w run
  | .fallback _ run => Mirrored w ∧ run.pool = none
  | .idle _ | .flushing _ _ _ | .deciding _ _ _ | .finalizing _ => Mirrored w

variable {info : FileInfo} {pc : Pc}

theorem MirrorInv.mirrors (h : MirrorInv w pc) : Mirrors w := by
  cases pc with
  | entered | probing | planning | fallback => exact h.1.mirrors
  | running => exact h.toMirrored.mirrors
  | idle | flushing | deciding | finalizing => exact Mirrored.mirrors h

/-- Discarding leaves neither chunks nor rows. -/
theorem mirrored_clearResumeState (h : w.HasRow) (b : Bool) : Mirrored (clearResumeState w b) := by
  refine ⟨mirrors_nil (clearResumeState_rows b) (clearResumeState_chunks b),
    clearResumeState_hasRow b h, ?_⟩
  rw [clearResumeState_chunks]
  exact List.nodup_nil

theorem Mirrored.recordSize (h : Mirrored w) (info : FileInfo) : Mirrored (recordSize w info) :=
  ⟨h.mirrors, recordSize_hasRow h.hasRow, h.distinct⟩

theorem MirrorInv.plan {io : PlanIo} (h : Mirrored w) (hs : Separate w.d.chunks)
    (hst : PlanStep w info io w' pc) : MirrorInv w' pc := by
  have hresumed : Mirrored (resumed (Cdm.recordSize w info) info) :=
    (h.recordSize info).congr rfl rfl rfl
  -- A fresh plan is made on a download without chunks, or whose chunks were discarded.
  have hfresh {w₀ w₁ : World} {n : ℕ} {io : AllocIo} {rc : ℤ} (h₀ : w₀ = w ∧ w.d.chunks = [] ∨
      w₀ = clearResumeState w true ∧ w.d.chunks ≠ [] ∧ resumeIsStale w info = true)
      (halloc : preallocate (Cdm.recordSize w₀ info) n io = (w₁, rc)) : Mirrored w₁ := by
    obtain ⟨hd, hdb, -⟩ := preallocate_spec halloc
    have hw₀ : Mirrored w₀ := by
      rcases h₀ with ⟨rfl, -⟩ | ⟨rfl, -⟩
      · exact h
      · exact mirrored_clearResumeState h.hasRow true
    exact (hw₀.recordSize info).congr (by rw [hd]) (by rw [hd]) hdb
  cases hst with
  | complete => exact hresumed
  | resume => exact hresumed.planned hs _
  | resumeFails => exact hresumed
  | allocFails h₀ halloc => exact hfresh h₀ halloc
  | start h₀ halloc => exact mirroredRun_fresh (hfresh h₀ halloc).hasRow _
  | startFails h₀ halloc => exact mirrored_persistPlan info (hfresh h₀ halloc).hasRow

/-- The invariant depends on the identifier, the chunks and the database only. -/
theorem MirrorInv.congr (h : MirrorInv w pc) (hid : w'.d.id = w.d.id)
    (hchunks : w'.d.chunks = w.d.chunks) (hdb : w'.disk.db = w.disk.db) : MirrorInv w' pc := by
  cases pc with
  | entered | probing | planning => exact ⟨h.1.congr hid hchunks hdb, hchunks ▸ h.2⟩
  | running =>
    exact ⟨h.toMirrored.congr hid hchunks hdb, h.orderly, h.threshold, hchunks ▸ h.clear⟩
  | fallback => exact ⟨h.1.congr hid hchunks hdb, h.2⟩
  | idle | flushing | deciding | finalizing => exact Mirrored.congr h hid hchunks hdb

theorem MirrorInv.engine {s s' : EngineState} {a : EngineAct} (h : MirrorInv s.w s.pc)
    (hst : EngineStep R s a s') (hin : s.inCall = true) : MirrorInv s'.w s'.pc := by
  cases hst with
  | call => cases hin
  | check =>
    simp only [engineCheck]
    split_ifs
    · exact mirrored_clearResumeState h.1.hasRow false
    · exact h
    · exact h.1
  | headFails => exact h.1
  | head => exact h
  | plan hplan => exact .plan h.1 h.2 (.of_eq hplan)
  | pool hpool => exact MirroredRun.step h hpool
  | join => exact h.toMirrored
  | @flush w =>
    have hw : Mirrored w := h
    obtain ⟨hm, hd⟩ := hw.mirrors.flushProgress hw.distinct
    exact ⟨hm, flushProgress_hasRow hw.hasRow, hd⟩
  | decide =>
    simp only [engineDecide]
    split_ifs
    · exact h
    · exact Mirrored.congr h rfl rfl rfl
    · exact ⟨Mirrored.congr h rfl rfl rfl, rfl⟩
    · exact h
  | fallbackPool hpool =>
    obtain ⟨h, hp⟩ := h
    obtain ⟨hchunks, hdb, hid, hp'⟩ := hpool.of_pool_none hp
    exact ⟨h.congr hid hchunks hdb, hp'⟩
  | fallbackJoin =>
    simp only
    split_ifs
    · exact h.1
    · exact h.1
  | finalize => exact h
  | finalizeFails => exact mirrored_clearResumeState (Mirrored.hasRow h) true

theorem MirrorInv.step {s s' : EngineState} {a : SessionAct} (h : MirrorInv s.w s.pc)
    (hst : sessionStep R s a = some s') (hin : s.inCall = true) : MirrorInv s'.w s'.pc := by
  cases a with
  | engine a =>
    have hfresh : MirrorInv (⟨s.w.fresh, s.pc⟩ : EngineState).w s.pc := h.congr rfl rfl rfl
    exact hfresh.engine (.of_eq hst) hin
  | requestCancel b =>
    cases hst
    exact h.congr rfl rfl rfl
  | requestPause b =>
    cases hst
    exact h.congr rfl rfl rfl
  | restore =>
    obtain ⟨w, pc⟩ := s
    simp only [sessionStep] at hst
    split at hst
    · cases hin
    · cases hst

/-- If the chunk rows of a download are its chunks, as sets, when a call begins, and the
    chunks are disjoint, the rows are the chunks throughout the call, and when it returns:
    whatever it returns, and whatever the server, the system and the user do. -/
theorem mirrors_of_begins {s : EngineState}
    (hs : Run.Reachable (sessionStep R) Begins (fun s _ => s.inCall = true) s) : Mirrors s.w := by
  have hinv : MirrorInv s.w s.pc := by
    refine hs.invariant (I := fun s => MirrorInv s.w s.pc) (fun s hs => ?_)
      fun s a s' h hin hst => h.step hst hin
    rw [hs.entered]
    exact ⟨⟨hs.mirrors, hs.hasRow, hs.separate.distinctStarts⟩, hs.separate⟩
  exact hinv.mirrors

/-- A call entered on a download with the chunks of four mebibytes of eight. -/
def enteredState : EngineState :=
  ⟨(resumingState ⟨8388608, true⟩ fun i => if i < 2 then 2097152 else 0).w, .entered⟩

theorem begins_enteredState : Begins enteredState where
  entered := rfl
  mirrors := mirrors_of_eq (by decide +kernel)
  hasRow := by
    rw [World.HasRow]
    decide +kernel
  separate := ((partition_freshRanges (by decide)).flush _).separate

/-- The chunks that are left are resumed, one of them is split, and the call fails. -/
theorem mirrors_of_begins_split :
    ∃ s, Run.Reachable (sessionStep fun _ => 1) Begins (fun s _ => s.inCall = true) s ∧
      s.returned = some (-1) ∧ s.w.d.chunks.length = 5 ∧ Mirrors s.w := by
  obtain ⟨s, hs, hrc, hlen⟩ := Run.exists_reachable_of_exec (sessionStep fun _ => 1) Begins
    (fun s _ => s.inCall = true)
    (fun s => s.returned = some (-1) ∧ s.w.d.chunks.length = 5) begins_enteredState
    (List.map .engine ([.check, .head (some ⟨8388608, true⟩)] ++ planActs 2 ++ gets 0 2097152 ++
      [.pool (.worker 0 .acquire), .pool (.worker 0 .initFails), .pool (.worker 1 .initFails),
        .join, .flush, .decide true]))
    (by decide +kernel)
  exact ⟨s, hs, hrc, hlen, mirrors_of_begins hs⟩

end Cdm
