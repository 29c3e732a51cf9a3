import Cdm.Engine.Tiling

/-!
# The chunk table over a session

In every session against a resource of a fixed size, in which every split finds room
in the table (`roomForSplit`), the chunk table is empty or tiles the file, whatever the
server answers and whichever counters the slots are wired to (`LayoutInv.step`).
-/

namespace Cdm

variable {info : FileInfo} {prim : ℕ → Prop} {w w' : World}

/-- The counters do not go below the recorded bytes. -/
def Grown (w : World) : Prop :=
  ∀ j c, w.d.chunks[j]? = some c → c.bytesDone ≤ w.d.chunkLiveBytes j

/-- The table tiles the file, with a single chunk if the server has no range support. -/
structure Laid (info : FileInfo) (cs : List DownloadChunk) (prim : ℕ → Prop) : Prop
    extends Tiled info.totalSize.toNat cs prim where
  single : info.supportsRanges = false → cs.length ≤ 1

/-- The database has the row of the download, and a row for each primary chunk. -/
structure Stored (info : FileInfo) (w : World) (prim : ℕ → Prop) : Prop where
  laid : Laid info w.d.chunks prim
  hasRow : w.HasRow
  rows : ∀ (i : ℕ) (c : DownloadChunk), prim i → w.d.chunks[i]? = some c →
    ∃ r ∈ w.rows, r.rangeStart = c.rangeStart ∧ r.rangeEnd = c.rangeEnd

/-- While the pool runs, its slots work on primary chunks. -/
structure LaidRun (info : FileInfo) (w : World) (run : PoolRun) (prim : ℕ → Prop) : Prop where
  stored : Stored info w prim
  grown : Grown w
  orderly : Orderly (fun _ _ => True) run
  ranges : ∀ p ∈ run.pool, info.supportsRanges = true
  threshold : ∀ p ∈ run.pool, p.minStealBytes = stealThreshold
  owned : ∀ p ∈ run.pool, Owned w.d.chunks prim p.slots

/-- Nothing is recorded. -/
structure Cleared (w : World) : Prop where
  chunks : w.d.chunks = []
  hasRow : w.HasRow
  rows : w.rows = []

/-- Between runs of the pool. -/
def Recorded (info : FileInfo) (w : World) : Prop := Cleared w ∨ ∃ prim, Stored info w prim

/-- What is known of the table where the call is. -/
def LayoutInv (info : FileInfo) (w : World) : Pc → Prop
  | .planning info' | .deciding info' _ _ | .finalizing info' => info' = info ∧ Recorded info w
  | .running info' _ run => info' = info ∧ ∃ prim, LaidRun info w run prim
  | .flushing info' _ _ => info' = info ∧ ∃ prim, Stored info w prim ∧ Grown w
  | .fallback info' run => info' = info ∧ Recorded info w ∧ run.pool = none
  | .idle _ | .entered | .probing => Recorded info w

/-- A split happens only while the table has room for the new chunk. -/
def roomForSplit (s : EngineState) : SessionAct → Bool
  | .engine (.pool (.worker _ .acquire)) =>
    match s.pc with
    | .running _ _ run => run.pool.all fun p =>
        p.victim.isNone || s.w.d.chunks.length < qmMaxChunks
    | _ => true
  | _ => true

/-! ## Steps of the pool -/

theorem World.le_count (counter : Option ℕ) (m j : ℕ) :
    w.d.chunkLiveBytes j ≤ (w.count counter m).d.chunkLiveBytes j := by
  rw [World.count_live]
  exact Nat.le_add_right _ _

/-- The row of a primary chunk after the split of a slot. -/
theorem Stored.split_rows (h : Stored info w prim) {s : PoolSlot} {j : ℕ} {c : DownloadChunk}
    (hc : FromSplit w.d.chunks prim s j c) :
    ∃ r ∈ (shrinkVictim w s.start s.middle).rows ++
        [⟨(shrinkVictim w s.start s.middle).d.id, s.middle, s.liveEnd - 1, 0⟩],
      r.rangeStart = c.rangeStart ∧ r.rangeEnd = c.rangeEnd := by
  rcases hc with ⟨hj, hc, hne⟩ | ⟨c₀, hj, hc₀, hstart, rfl⟩ | rfl
  · obtain ⟨r, hr, hrs, hre⟩ := h.rows j c hj hc
    refine ⟨r, List.mem_append_left _ ?_, hrs, hre⟩
    rcases shrinkVictim_rows (w := w) s.start s.middle with ⟨-, heq⟩ | heq
    · rw [heq]
      exact hr
    · rw [heq]
      exact List.mem_map.2 ⟨r, hr, if_neg (by omega)⟩
  · obtain ⟨r, hr, hrs, hre⟩ := h.rows j c₀ hj hc₀
    refine ⟨{ r with rangeEnd := s.middle - 1 }, List.mem_append_left _ ?_, hrs, rfl⟩
    rcases shrinkVictim_rows (w := w) s.start s.middle with ⟨hno, -⟩ | heq
    · exact absurd hstart (hno c₀ (List.mem_of_getElem? hc₀))
    · rw [heq]
      exact List.mem_map.2 ⟨r, hr, if_pos (by omega)⟩
  · exact ⟨_, List.mem_append_right _ (List.mem_singleton.2 rfl), rfl, rfl⟩

theorem LaidRun.split {run : PoolRun} {p : RebalancePool} {s : PoolSlot} {v i : ℕ}
    {ps : ℕ → Option ℕ} (h : LaidRun info w run prim) (hp : run.pool = some p)
    (hs : p.Stealable s v) (hmin : p.minStealBytes ≤ s.remaining)
    (hroom : w.d.chunks.length < qmMaxChunks)
    (horderly : Orderly (fun _ _ => True) (PoolRun.assign
      { run with pool := some (p.split s v (ps p.slots.length)), progressSlots := ps }
      i p.slots.length s.middle s.liveEnd (ps p.slots.length)))
    (heq : onRebalanceSplit w run.progressSlots s.start s.middle s.liveEnd = (w', ps)) :
    ∃ prim', LaidRun info w' (PoolRun.assign
      { run with pool := some (p.split s v (ps p.slots.length)), progressSlots := ps }
      i p.slots.length s.middle s.liveEnd (ps p.slots.length)) prim' := by
  have hrem : 2 ≤ s.remaining := by
    rw [h.threshold p hp] at hmin
    exact le_trans (by decide) hmin
  rw [onRebalanceSplit_of_room hroom] at heq
  obtain ⟨rfl, rfl⟩ := Prod.mk.inj heq
  set counter := Function.update run.progressSlots w.d.chunks.length
    (some w.d.chunks.length) p.slots.length
  obtain ⟨prim', htiled, howned, hfrom⟩ :=
    h.stored.laid.split (h.owned p hp) hs.get hrem counter
  have hchunks : (appendChunk (shrinkVictim w s.start s.middle) s.middle (s.liveEnd - 1)).d.chunks =
      splitChunks w.d.chunks s.start s.middle s.liveEnd := by
    rw [appendChunk_chunks, shrinkVictim_chunks, splitChunks]
  have hrow := shrinkVictim_hasRow s.start s.middle h.stored.hasRow
  refine ⟨prim', ⟨⟨by rw [hchunks]; exact htiled, fun hr => ?_⟩, appendChunk_hasRow _ _ hrow,
    fun j c hj hc => ?_⟩, fun j c hc => ?_, horderly, ?_, ?_, ?_⟩
  · rw [h.ranges p hp] at hr
    cases hr
  · -- The rows change as the chunks do.
    rw [hchunks] at hc
    rw [appendChunk_rows _ _ hrow]
    exact h.stored.split_rows (hfrom j c hj hc)
  · rw [appendChunk_chunks] at hc
    rw [appendChunk_live, shrinkVictim_live, shrinkVictim_chunks]
    rcases List.getElem?_concat_eq_some.1 hc with hc | ⟨rfl, rfl⟩
    · rw [shrinkVictim_chunks] at hc
      obtain ⟨c₀, hc₀, -, hb, -⟩ := getElem?_cutChunk hc
      have hlt := (List.getElem?_eq_some_iff.1 hc).1
      rw [if_neg hlt.ne, hb]
      exact h.grown j c₀ hc₀
    · exact Nat.zero_le _
  · intro p' _
    exact h.ranges p hp
  · intro p' hp'
    cases hp'
    exact h.threshold p hp
  · intro p' hp'
    cases hp'
    rw [hchunks]
    exact howned

theorem LaidRun.step {R : ℕ → UInt8} {run run' : PoolRun} {a : PoolAct}
    (h : LaidRun info w run prim) (hst : PoolStep R w run a w' run')
    (hroom : ∀ i p x, a = .worker i .acquire → run.pool = some p → p.victim = some x →
      w.d.chunks.length < qmMaxChunks) :
    ∃ prim', LaidRun info w' run' prim' := by
  have horderly := h.orderly.step hst fun _ _ _ _ _ => trivial
  cases hst with
  | data hc hph hn hs hw =>
    refine ⟨prim, ⟨h.stored.laid, h.stored.hasRow, h.stored.rows⟩, fun j c hc => (h.grown j c hc).trans (World.le_count _ _ _), horderly,
      fun p hp => ?_, fun p hp => ?_, fun p hp => ?_⟩ <;>
      obtain ⟨p₀, hp₀, rfl⟩ := Option.map_eq_some_iff.1 hp
    · exact h.ranges p₀ hp₀
    · exact h.threshold p₀ hp₀
    · exact (h.owned p₀ hp₀).modify (fun _ => rfl) (fun _ => rfl) fun _ => Nat.le_add_right _ _
  | @markDone i c p hc hph hp =>
    refine ⟨prim, h.stored, h.grown, horderly, fun p' hp' => ?_, fun p' hp' => ?_, fun p' hp' => ?_⟩ <;>
      cases hp'
    · exact h.ranges p hp
    · exact h.threshold p hp
    · exact (h.owned p hp).modify (fun _ => rfl) (fun _ => rfl) fun _ => le_rfl
  | @acquire i c p hc hph hp =>
    generalize hacq : rebalancePoolAcquire w run p i = x at horderly
    obtain ⟨w', run'⟩ := x
    cases Acquired.of_eq (h.orderly.noOrphan p hp) hacq with
    | nothing => exact ⟨prim, h.stored, h.grown, horderly, h.ranges, h.threshold, h.owned⟩
    | split hs hmin hlt hv heq => exact h.split hp hs hmin (hroom i p _ rfl hp hv) horderly heq
  | _ => exact ⟨prim, ⟨h.stored.laid, h.stored.hasRow, h.stored.rows⟩, h.grown, horderly, h.ranges,
      h.threshold, h.owned⟩

/-! ## Plans -/

theorem length_resumeRanges_le (info : FileInfo) (i : ℕ) (cs : List DownloadChunk) :
    (resumeRanges info i cs).length ≤ cs.length := by
  induction cs generalizing i with
  | nil => exact le_rfl
  | cons c cs ih =>
    rw [resumeRanges]
    split_ifs
    · exact (ih _).trans (Nat.le_succ _)
    · exact Nat.succ_le_succ (ih _)

theorem plannedRun_pool_eq_none {rs : List (ℕ × Range)} (h : rs.length ≤ 1) (b : Bool) :
    (plannedRun rs b).pool = none := by
  simp only [plannedRun]
  rw [if_neg]
  omega

theorem plannedRun_pool {rs : List (ℕ × Range)} {b : Bool} {p : RebalancePool}
    (h : (plannedRun rs b).pool = some p) :
    p = rebalancePoolCreate rs stealThreshold ∧ 1 < rs.length := by
  simp only [plannedRun] at h
  split_ifs at h with hrs
  cases h
  exact ⟨rfl, hrs.1⟩

/-- The pool started on the incomplete chunks of a table. -/
theorem Stored.planned (h : Stored info w prim) (hg : Grown w) (b : Bool) :
    LaidRun info w (plannedRun (resumeRanges info 0 w.d.chunks) b) prim := by
  have hr : ∀ p ∈ (plannedRun (resumeRanges info 0 w.d.chunks) b).pool,
      info.supportsRanges = true := by
    intro p hp
    by_contra hr
    have hlen := h.laid.single (by simpa using hr)
    have := length_resumeRanges_le info 0 w.d.chunks
    rw [plannedRun_pool_eq_none (by omega)] at hp
    cases hp
  refine ⟨h, hg, orderly_planned _ _ _, hr, fun p hp => ?_, fun p hp => ?_⟩
  · obtain ⟨rfl, -⟩ := plannedRun_pool hp
    rfl
  · obtain ⟨rfl, -⟩ := plannedRun_pool hp
    exact h.laid.owned_resumeRanges (hr _ hp)

theorem resumed_grown : Grown (resumed w info) := by
  intro j c hc
  have hc : w.d.chunks[j]? = some c := hc
  simp [resumed, hc]

theorem persistPlan_grown (rs : List Range) : Grown (persistPlan w rs) := by
  intro j c hc
  rw [persistPlan_chunks, List.getElem?_map] at hc
  obtain ⟨r, -, rfl⟩ := Option.map_eq_some_iff.1 hc
  exact Nat.zero_le _

theorem laid_freshRanges (hT : 0 < info.totalSize.toNat) :
    Laid info (chunksOfRanges (freshRanges info)) (· < (freshRanges info).length) where
  toTiled := tiled_freshRanges info hT
  single := fun hr => by
    rcases freshRanges_cases hT with ⟨-, h⟩ | h
    · rw [hr] at h
      cases h
    · rw [h]
      exact le_rfl

theorem stored_freshRanges (hT : 0 < info.totalSize.toNat) (hrow : w.HasRow) :
    Stored info (persistPlan w (freshRanges info)) (· < (freshRanges info).length) where
  laid := by
    rw [persistPlan_freshRanges]
    exact laid_freshRanges hT
  hasRow := persistPlan_hasRow _ hrow
  rows i c _ hc := by
    rw [persistPlan_rows _ hrow]
    rw [persistPlan_chunks] at hc
    exact ⟨_, List.mem_map.2 ⟨c, List.mem_of_getElem? hc, rfl⟩, rfl, rfl⟩

/-- The pool started on a fresh plan. -/
theorem laidRun_fresh (hT : 0 < info.totalSize.toNat) (hrow : w.HasRow) (b : Bool) :
    LaidRun info (persistPlan w (freshRanges info))
      (plannedRun ((freshRanges info).mapIdx fun i r => (i, r)) b)
      (· < (freshRanges info).length) := by
  have hstored := stored_freshRanges hT hrow
  by_cases hr : info.supportsRanges = true
  · rw [freshRanges_mapIdx hT hr, ← persistPlan_freshRanges w]
    exact hstored.planned (persistPlan_grown _) b
  · have hnone : (plannedRun ((freshRanges info).mapIdx fun i r => (i, r)) b).pool = none := by
      rcases freshRanges_cases hT with ⟨-, h⟩ | h
      · exact absurd h hr
      · rw [h]
        exact plannedRun_pool_eq_none (by simp) b
    refine ⟨hstored, persistPlan_grown _, orderly_planned _ _ _, fun p hp => ?_, fun p hp => ?_,
      fun p hp => ?_⟩ <;> rw [hnone] at hp <;> cases hp

theorem Recorded.hasRow (h : Recorded info w) : w.HasRow := by
  rcases h with h | ⟨prim, h⟩
  · exact h.hasRow
  · exact h.hasRow

theorem Cleared.congr (h : Cleared w) (hid : w'.d.id = w.d.id)
    (hchunks : w'.d.chunks = w.d.chunks) (hdb : w'.disk.db = w.disk.db) : Cleared w' where
  chunks := hchunks.trans h.chunks
  hasRow := by
    rw [World.HasRow, hid, hdb]
    exact h.hasRow
  rows := by
    rw [World.rows, hid, hdb]
    exact h.rows

theorem Stored.congr (h : Stored info w prim) (hid : w'.d.id = w.d.id)
    (hchunks : w'.d.chunks = w.d.chunks) (hdb : w'.disk.db = w.disk.db) :
    Stored info w' prim where
  laid := by
    rw [hchunks]
    exact h.laid
  hasRow := by
    rw [World.HasRow, hid, hdb]
    exact h.hasRow
  rows := by
    rw [World.rows, hid, hdb, hchunks]
    exact h.rows

theorem Recorded.congr (h : Recorded info w) (hid : w'.d.id = w.d.id)
    (hchunks : w'.d.chunks = w.d.chunks) (hdb : w'.disk.db = w.disk.db) : Recorded info w' := by
  rcases h with h | ⟨prim, h⟩
  · exact .inl (h.congr hid hchunks hdb)
  · exact .inr ⟨prim, h.congr hid hchunks hdb⟩

theorem cleared_clearResumeState (b : Bool) (h : w.HasRow) : Cleared (clearResumeState w b) :=
  ⟨clearResumeState_chunks b, clearResumeState_hasRow b h, clearResumeState_rows b⟩

/-- Recording the size keeps the chunk rows. -/
theorem Stored.recordSize (h : Stored info w prim) (info' : FileInfo) :
    Stored info (recordSize w info') prim :=
  ⟨h.laid, recordSize_hasRow h.hasRow, h.rows⟩

theorem Cleared.recordSize (h : Cleared w) (info' : FileInfo) : Cleared (recordSize w info') :=
  ⟨h.chunks, recordSize_hasRow h.hasRow, h.rows⟩

/-- What planning afresh starts from. -/
theorem Recorded.cleared {w₀ w₁ : World} {io : AllocIo} {rc : ℤ} (h : Recorded info w)
    (h₀ : w₀ = w ∧ w.d.chunks = [] ∨
      w₀ = clearResumeState w true ∧ w.d.chunks ≠ [] ∧ resumeIsStale w info = true)
    (halloc : preallocate (recordSize w₀ info) info.totalSize.toNat io = (w₁, rc))
    (hT : 0 < info.totalSize.toNat) : Cleared w₁ := by
  obtain ⟨hd, hdb, -⟩ := preallocate_spec halloc
  have hw₀ : Cleared w₀ := by
    rcases h₀ with ⟨rfl, hnil⟩ | ⟨rfl, -⟩
    · refine h.resolve_right fun ⟨prim, h⟩ => ?_
      -- A table that tiles a file that is not empty is not empty.
      obtain ⟨i, c, -, hc, -⟩ := h.laid.cover 0 hT
      rw [hnil] at hc
      cases hc
    · exact cleared_clearResumeState _ h.hasRow
  exact (hw₀.recordSize info).congr (by rw [hd]) (by rw [hd]) hdb

theorem LayoutInv.plan {io : PlanIo} {pc : Pc} (hT : 0 < info.totalSize.toNat)
    (h : Recorded info w) (hst : PlanStep w info io w' pc) : LayoutInv info w' pc := by
  have hstored (hne : w.d.chunks ≠ []) :
      ∃ prim, Stored info (resumed (recordSize w info) info) prim := by
    obtain ⟨prim, h⟩ := h.resolve_left fun h => hne h.chunks
    exact ⟨prim, (h.recordSize info).congr rfl rfl rfl⟩
  cases hst with
  | complete hne => exact ⟨rfl, .inr (hstored hne)⟩
  | resume hne =>
    obtain ⟨prim, hs⟩ := hstored hne
    exact ⟨rfl, prim, hs.planned resumed_grown _⟩
  | resumeFails hne =>
    obtain ⟨prim, hs⟩ := hstored hne
    exact ⟨rfl, prim, hs, resumed_grown⟩
  | allocFails h₀ halloc => exact .inl (h.cleared h₀ halloc hT)
  | start h₀ halloc => exact ⟨rfl, _, laidRun_fresh hT (h.cleared h₀ halloc hT).hasRow _⟩
  | startFails h₀ halloc =>
    exact ⟨rfl, _, stored_freshRanges hT (h.cleared h₀ halloc hT).hasRow, persistPlan_grown _⟩

/-! ## Steps of the session -/

theorem getElem?_flushed {cs : List DownloadChunk} {live : ℕ → ℕ} {j : ℕ} {c : DownloadChunk} :
    (cs.mapIdx fun i c => { c with bytesDone := live i })[j]? = some c ↔
      ∃ c₀, cs[j]? = some c₀ ∧ c = { c₀ with bytesDone := live j } := by
  rw [List.getElem?_mapIdx, Option.map_eq_some_iff]
  exact exists_congr fun c₀ => and_congr_right fun _ => eq_comm

/-- Recording the progress keeps the table laid. -/
theorem Laid.flush {cs : List DownloadChunk} {live : ℕ → ℕ} (h : Laid info cs prim)
    (hg : ∀ j c, cs[j]? = some c → c.bytesDone ≤ live j) :
    Laid info (cs.mapIdx fun i c => { c with bytesDone := live i }) prim where
  lt_length i hi := by
    rw [List.length_mapIdx]
    exact h.lt_length i hi
  cover x hx := by
    obtain ⟨i, c, hi, hc, hx⟩ := h.cover x hx
    exact ⟨i, _, hi, getElem?_flushed.2 ⟨c, hc, rfl⟩, hx⟩
  meet i j c c' x hi hj hc hc' hx hx' := by
    obtain ⟨c₀, hc₀, rfl⟩ := getElem?_flushed.1 hc
    obtain ⟨c₀', hc₀', rfl⟩ := getElem?_flushed.1 hc'
    exact h.meet i j c₀ c₀' x hi hj hc₀ hc₀' hx hx'
  nonempty j c hc := by
    obtain ⟨c₀, hc₀, rfl⟩ := getElem?_flushed.1 hc
    exact h.nonempty j c₀ hc₀
  spare j c' hc' hj := by
    obtain ⟨c₀', hc₀', rfl⟩ := getElem?_flushed.1 hc'
    obtain ⟨i, c, hi, hc, hpos, hlt, hle⟩ := h.spare j c₀' hc₀' hj
    exact ⟨i, _, hi, getElem?_flushed.2 ⟨c, hc, rfl⟩, hpos.trans_le (hg i c hc), hlt, hle⟩
  single hr := by
    rw [List.length_mapIdx]
    exact h.single hr

/-- Recording the progress does not change the ranges of the rows. -/
theorem Stored.flush (h : Stored info w prim) (hg : Grown w) :
    Stored info (flushProgress w) prim := by
  obtain ⟨qs, hw, hqs⟩ := flushProgress_spec w
  have hid : (flushProgress w).d.id = w.d.id := by rw [hw]
  -- One statement after another.
  have hdb : ∀ (cs : List DownloadChunk) (db : Db), (db.row w.d.id).isSome →
      (((cs.map fun c => DbStmt.updateChunkProgress w.d.id c.rangeStart c.bytesDone).foldl
        Db.exec db).row w.d.id).isSome ∧
      ∀ r ∈ db.chunksOf w.d.id, ∃ r' ∈ ((cs.map fun c =>
          DbStmt.updateChunkProgress w.d.id c.rangeStart c.bytesDone).foldl Db.exec db).chunksOf
            w.d.id, r'.rangeStart = r.rangeStart ∧ r'.rangeEnd = r.rangeEnd := by
    intro cs
    induction cs with
    | nil => exact fun db hrow => ⟨hrow, fun r hr => ⟨r, hr, rfl, rfl⟩⟩
    | cons c cs ih =>
      intro db hrow
      have hrow' := Db.row_exec_isSome (.updateChunkProgress w.d.id c.rangeStart c.bytesDone) hrow
      obtain ⟨h₁, h₂⟩ := ih _ hrow'
      refine ⟨h₁, fun r hr => ?_⟩
      obtain ⟨r', hr', hs, he⟩ := h₂
        (if r.rangeStart = c.rangeStart then { r with bytesDone := c.bytesDone } else r)
        (by rw [Db.chunksOf_updateChunkProgress]; exact List.mem_map.2 ⟨r, hr, rfl⟩)
      exact ⟨r', hr', by rw [hs]; split_ifs <;> rfl, by rw [he]; split_ifs <;> rfl⟩
  obtain ⟨hrow, hrows⟩ := hdb
    (w.d.chunks.mapIdx fun i c => { c with bytesDone := w.d.chunkLiveBytes i }) w.disk.db h.hasRow
  rw [← hqs] at hrow hrows
  refine ⟨by rw [flushProgress_chunks]; exact h.laid.flush hg, ?_, fun i c hi hc => ?_⟩
  · rw [World.HasRow, hid, hw]
    exact hrow
  · rw [flushProgress_chunks] at hc
    obtain ⟨c₀, hc₀, rfl⟩ := getElem?_flushed.1 hc
    obtain ⟨r, hr, hrs, hre⟩ := h.rows i c₀ hi hc₀
    obtain ⟨r', hr', hrs', hre'⟩ := hrows r hr
    refine ⟨r', ?_, hrs'.trans hrs, hre'.trans hre⟩
    rw [World.rows, hid, hw]
    exact hr'

/-- The invariant depends on the chunks, their counters and the database only. -/
theorem LayoutInv.congr {pc : Pc} (h : LayoutInv info w pc) (hid : w'.d.id = w.d.id)
    (hchunks : w'.d.chunks = w.d.chunks) (hlive : w'.d.chunkLiveBytes = w.d.chunkLiveBytes)
    (hdb : w'.disk.db = w.disk.db) : LayoutInv info w' pc := by
  have hg (hg : Grown w) : Grown w' := by
    rw [Grown, hchunks, hlive]
    exact hg
  cases pc with
  | running info' n run =>
    obtain ⟨hi, prim, hl⟩ := h
    refine ⟨hi, prim, hl.stored.congr hid hchunks hdb, hg hl.grown, hl.orderly, hl.ranges,
      hl.threshold, ?_⟩
    rw [hchunks]
    exact hl.owned
  | flushing info' n ok =>
    obtain ⟨hi, prim, hs, hgrown⟩ := h
    exact ⟨hi, prim, hs.congr hid hchunks hdb, hg hgrown⟩
  | fallback info' run => exact ⟨h.1, h.2.1.congr hid hchunks hdb, h.2.2⟩
  | planning info' => exact ⟨h.1, h.2.congr hid hchunks hdb⟩
  | deciding info' n ok => exact ⟨h.1, h.2.congr hid hchunks hdb⟩
  | finalizing info' => exact ⟨h.1, h.2.congr hid hchunks hdb⟩
  | idle rc => exact Recorded.congr h hid hchunks hdb
  | entered => exact Recorded.congr h hid hchunks hdb
  | probing => exact Recorded.congr h hid hchunks hdb

theorem LayoutInv.engine {R : ℕ → UInt8} {s s' : EngineState} {a : EngineAct}
    (hT : 0 < info.totalSize.toNat) (h : LayoutInv info s.w s.pc) (hst : EngineStep R s a s')
    (hhead : ∀ i, a = .head (some i) → i = info)
    (hroom : roomForSplit s (.engine a) = true) : LayoutInv info s'.w s'.pc := by
  cases hst with
  | call => exact h
  | check =>
    simp only [engineCheck]
    split_ifs
    · -- Without a file, what was stored is discarded.
      exact .inl (cleared_clearResumeState false (Recorded.hasRow h))
    · exact h
    · exact h
  | headFails => exact h
  | head => exact ⟨hhead _ rfl, h⟩
  | plan hplan =>
    obtain ⟨rfl, h⟩ := h
    exact .plan hT h (.of_eq hplan)
  | @pool w w' info' n run run' a hpool =>
    obtain ⟨hi, prim, h⟩ := h
    refine ⟨hi, h.step hpool fun i p x ha hp hv => ?_⟩
    subst ha
    simpa [roomForSplit, hp, hv] using hroom
  | join =>
    obtain ⟨hi, prim, h⟩ := h
    exact ⟨hi, prim, h.stored, h.grown⟩
  | flush =>
    obtain ⟨hi, prim, hs, hg⟩ := h
    exact ⟨hi, .inr ⟨prim, hs.flush hg⟩⟩
  | decide =>
    obtain ⟨hi, h⟩ := h
    simp only [engineDecide]
    split_ifs
    · exact ⟨hi, h⟩
    · exact h.congr rfl rfl rfl
    · exact ⟨hi, h.congr rfl rfl rfl, rfl⟩
    · exact h
  | fallbackPool hpool =>
    obtain ⟨hi, h, hp⟩ := h
    obtain ⟨hchunks, hdb, hid, hp'⟩ := hpool.of_pool_none hp
    exact ⟨hi, h.congr hid hchunks hdb, hp'⟩
  | fallbackJoin =>
    obtain ⟨hi, h, -⟩ := h
    simp only
    split_ifs
    · exact ⟨hi, h⟩
    · exact h
  | finalize => exact h.2
  | finalizeFails => exact .inl (cleared_clearResumeState true h.2.hasRow)

/-- The invariant over the steps of a session without a restore. -/
theorem LayoutInv.step {R : ℕ → UInt8} {s s' : EngineState} {a : SessionAct}
    (hT : 0 < info.totalSize.toNat) (h : LayoutInv info s.w s.pc)
    (hst : sessionStep R s a = some s') (hhead : ∀ i, a = .engine (.head (some i)) → i = info)
    (hroom : roomForSplit s a = true) (hrestore : a ≠ .restore) : LayoutInv info s'.w s'.pc := by
  cases a with
  | engine a =>
    have hfresh : LayoutInv info (⟨s.w.fresh, s.pc⟩ : EngineState).w s.pc :=
      h.congr rfl rfl rfl rfl
    exact hfresh.engine hT (.of_eq hst) (fun i ha => hhead i (by rw [ha])) hroom
  | requestCancel b =>
    cases hst
    exact h.congr rfl rfl rfl rfl
  | requestPause b =>
    cases hst
    exact h.congr rfl rfl rfl rfl
  | restore => exact absurd rfl hrestore

theorem LayoutInv.of_fresh {s : EngineState} (h : Fresh s) : LayoutInv info s.w s.pc := by
  rw [h.idle]
  obtain ⟨r, hr, -⟩ := h.row
  exact .inl ⟨h.chunks, by rw [World.HasRow, hr]; rfl, h.rows⟩

/-- The chunk rows of a download cover a file of `n` bytes, if there are any. -/
def RowsCover (n : ℕ) (rows : List ChunkRow) : Prop :=
  rows = [] ∨ ∀ x < n, ∃ r ∈ rows, r.rangeStart ≤ x ∧ x ≤ r.rangeEnd

theorem Stored.rowsCover (h : Stored info w prim) : RowsCover info.totalSize.toNat w.rows := by
  refine .inr fun x hx => ?_
  obtain ⟨i, c, hi, hc, hx₁, hx₂⟩ := h.laid.cover x hx
  obtain ⟨r, hr, hs, he⟩ := h.rows i c hi hc
  exact ⟨r, hr, by omega, by omega⟩

/-- Wherever the call is, the chunk rows cover the file. -/
theorem LayoutInv.rowsCover {pc : Pc} (h : LayoutInv info w pc) :
    RowsCover info.totalSize.toNat w.rows := by
  have hrec (h : Recorded info w) : RowsCover info.totalSize.toNat w.rows := by
    rcases h with h | ⟨prim, h⟩
    · exact .inl h.rows
    · exact h.rowsCover
  cases pc with
  | running info' n run =>
    obtain ⟨-, prim, h⟩ := h
    exact h.stored.rowsCover
  | flushing info' n ok =>
    obtain ⟨-, prim, h, -⟩ := h
    exact h.rowsCover
  | fallback info' run => exact hrec h.2.1
  | planning info' => exact hrec h.2
  | deciding info' n ok => exact hrec h.2
  | finalizing info' => exact hrec h.2
  | idle rc => exact hrec h
  | entered => exact hrec h
  | probing => exact hrec h

end Cdm
