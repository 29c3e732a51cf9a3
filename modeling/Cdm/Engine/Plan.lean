import Cdm.Engine.Steps

/-!
# What the functions of the engine do

One specification per function that changes the world: what it keeps (the *frame* of
the download, the part no function of the engine changes), what it does to the chunk
table and to the file, and what it does to the chunk rows of the download.
-/

namespace Cdm

/-- The part of a download that the engine never changes. -/
def Download.frame (d : Download) : Download :=
  { d with
    chunks := [], totalSize := 0, bytesDownloaded := 0
    chunkLiveBytes := fun _ => 0, cancelRequested := false }

theorem Download.frame_eq {d d' : Download} (h : d'.frame = d.frame) :
    d'.id = d.id ∧ d'.status = d.status ∧ d'.destPath = d.destPath ∧ d'.url = d.url ∧
      d'.reservedFile = d.reservedFile ∧ d'.retryCount = d.retryCount ∧
        d'.nextRetryAt = d.nextRetryAt ∧ d'.pauseRequested = d.pauseRequested ∧
          d'.request = d.request ∧ d'.priority = d.priority := by
  simp only [frame, Download.mk.injEq] at h
  simp [h]

variable {w w' : World} {info : FileInfo} {io : PlanIo}

/-! ## Discarding -/

@[simp] theorem clearResumeState_frame (b : Bool) : (clearResumeState w b).d.frame = w.d.frame := by
  rw [clearResumeState]
  split_ifs <;> rfl

@[simp] theorem clearResumeState_id (b : Bool) : (clearResumeState w b).d.id = w.d.id :=
  (Download.frame_eq (clearResumeState_frame b)).1

@[simp] theorem clearResumeState_chunks (b : Bool) : (clearResumeState w b).d.chunks = [] := by
  rw [clearResumeState]
  split_ifs <;> rfl

theorem clearResumeState_file : (clearResumeState w true).disk.file =
    if w.d.destPath ≠ [] then none else w.disk.file := by
  by_cases h : w.d.destPath = [] <;> simp [clearResumeState, h, Disk.apply]

theorem clearResumeState_db (b : Bool) : (clearResumeState w b).disk.db =
    (w.disk.db.exec (.deleteChunks w.d.id)).exec (.updateTotalSize w.d.id 0) := by
  rw [clearResumeState]
  split_ifs <;> rfl

/-! ## Recording -/

@[simp] theorem recordSize_frame : (recordSize w info).d.frame = w.d.frame := rfl
@[simp] theorem recordSize_id : (recordSize w info).d.id = w.d.id := rfl
@[simp] theorem recordSize_chunks : (recordSize w info).d.chunks = w.d.chunks := rfl
@[simp] theorem recordSize_file : (recordSize w info).disk.file = w.disk.file := rfl

@[simp] theorem appendChunk_frame (a b : ℕ) : (appendChunk w a b).d.frame = w.d.frame := rfl
@[simp] theorem appendChunk_id (a b : ℕ) : (appendChunk w a b).d.id = w.d.id := rfl
@[simp] theorem appendChunk_file (a b : ℕ) : (appendChunk w a b).disk.file = w.disk.file := rfl

@[simp] theorem appendChunk_chunks (a b : ℕ) :
    (appendChunk w a b).d.chunks = w.d.chunks ++ [⟨a, b, 0⟩] := rfl

theorem appendChunk_live (a b i : ℕ) : (appendChunk w a b).d.chunkLiveBytes i =
    if i = w.d.chunks.length then 0 else w.d.chunkLiveBytes i := by
  simp [appendChunk, Function.update_apply]

/-- Recording the ranges `rs` after the chunks there are. -/
def appendChunks (w : World) (rs : List Range) : World :=
  rs.foldl (fun w r => appendChunk w r.start r.last) w

@[simp] theorem appendChunks_frame (rs : List Range) :
    (appendChunks w rs).d.frame = w.d.frame := by
  induction rs generalizing w with
  | nil => rfl
  | cons r rs ih => exact ih.trans (appendChunk_frame _ _)

@[simp] theorem appendChunks_file (rs : List Range) :
    (appendChunks w rs).disk.file = w.disk.file := by
  induction rs generalizing w with
  | nil => rfl
  | cons r rs ih => exact ih.trans (appendChunk_file _ _)

theorem appendChunks_chunks (rs : List Range) : (appendChunks w rs).d.chunks =
    w.d.chunks ++ rs.map fun r => ⟨r.start, r.last, 0⟩ := by
  induction rs generalizing w with
  | nil => exact (List.append_nil _).symm
  | cons r rs ih =>
    refine ih.trans ?_
    rw [appendChunk_chunks, List.append_assoc]
    rfl

theorem appendChunks_live (rs : List Range) (i : ℕ) : (appendChunks w rs).d.chunkLiveBytes i =
    if w.d.chunks.length ≤ i ∧ i < w.d.chunks.length + rs.length then 0
    else w.d.chunkLiveBytes i := by
  induction rs generalizing w with
  | nil =>
    have : ¬(w.d.chunks.length ≤ i ∧ i < w.d.chunks.length + ([] : List Range).length) := by simp
    rw [if_neg this]
    rfl
  | cons r rs ih =>
    refine ih.trans ?_
    rw [appendChunk_chunks, appendChunk_live, List.length_append, List.length_cons, List.length_cons,
      List.length_nil]
    split_ifs <;> first | rfl | omega

/-- The rows of the chunks of a table. -/
def chunkRows (id : ℕ) (cs : List DownloadChunk) : List ChunkRow :=
  cs.map fun c => ⟨id, c.rangeStart, c.rangeEnd, c.bytesDone⟩

/-- The database has the row of the download. -/
def World.HasRow (w : World) : Prop := (w.disk.db.row w.d.id).isSome

/-- The chunk rows of the download. -/
def World.rows (w : World) : List ChunkRow := w.disk.db.chunksOf w.d.id

theorem appendChunk_hasRow (a b : ℕ) (h : w.HasRow) : (appendChunk w a b).HasRow :=
  Db.row_exec_isSome _ h

theorem recordSize_hasRow (h : w.HasRow) : (recordSize w info).HasRow :=
  Db.row_exec_isSome _ h

theorem clearResumeState_hasRow (b : Bool) (h : w.HasRow) : (clearResumeState w b).HasRow := by
  rw [World.HasRow, clearResumeState_id, clearResumeState_db]
  exact Db.row_exec_isSome _ (Db.row_exec_isSome _ h)

theorem clearResumeState_rows (b : Bool) : (clearResumeState w b).rows = [] := by
  rw [World.rows, clearResumeState_id, clearResumeState_db]
  exact Db.chunksOf_deleteChunks

theorem appendChunk_rows (a b : ℕ) (h : w.HasRow) :
    (appendChunk w a b).rows = w.rows ++ [⟨w.d.id, a, b, 0⟩] :=
  Db.chunksOf_insertChunk h

theorem appendChunks_hasRow (rs : List Range) (h : w.HasRow) : (appendChunks w rs).HasRow := by
  induction rs generalizing w with
  | nil => exact h
  | cons r rs ih => exact ih (appendChunk_hasRow _ _ h)

theorem appendChunks_rows (rs : List Range) (h : w.HasRow) : (appendChunks w rs).rows =
    w.rows ++ chunkRows w.d.id (rs.map fun r => ⟨r.start, r.last, 0⟩) := by
  induction rs generalizing w with
  | nil => exact (List.append_nil _).symm
  | cons r rs ih =>
    refine (ih (appendChunk_hasRow _ _ h)).trans ?_
    rw [appendChunk_rows _ _ h, List.append_assoc]
    rfl

theorem persistPlan_eq (w : World) (rs : List Range) :
    persistPlan w rs =
      let w' := appendChunks (World.query { w with d := { w.d with chunks := [] } }
        (.deleteChunks w.d.id)) (rs.take qmMaxChunks)
      { w' with d := { w'.d with bytesDownloaded := 0 } } := rfl

@[simp] theorem persistPlan_frame (rs : List Range) : (persistPlan w rs).d.frame = w.d.frame := by
  rw [persistPlan_eq]
  exact appendChunks_frame _

@[simp] theorem persistPlan_id (rs : List Range) : (persistPlan w rs).d.id = w.d.id :=
  (Download.frame_eq (persistPlan_frame rs)).1

@[simp] theorem persistPlan_file (rs : List Range) :
    (persistPlan w rs).disk.file = w.disk.file := by
  rw [persistPlan_eq]
  exact appendChunks_file _

theorem persistPlan_chunks (rs : List Range) : (persistPlan w rs).d.chunks =
    (rs.take qmMaxChunks).map fun r => ⟨r.start, r.last, 0⟩ := by
  rw [persistPlan_eq]
  exact (appendChunks_chunks _).trans (List.nil_append _)

theorem persistPlan_live (rs : List Range) {i : ℕ} (hi : i < (rs.take qmMaxChunks).length) :
    (persistPlan w rs).d.chunkLiveBytes i = 0 := by
  rw [persistPlan_eq]
  refine (appendChunks_live _ i).trans (if_pos ⟨Nat.zero_le _, ?_⟩)
  rw [World.query_d, List.length_nil, Nat.zero_add]
  exact hi

theorem persistPlan_hasRow (rs : List Range) (h : w.HasRow) : (persistPlan w rs).HasRow := by
  rw [persistPlan_eq]
  exact appendChunks_hasRow _ h

theorem persistPlan_rows (rs : List Range) (h : w.HasRow) : (persistPlan w rs).rows =
    chunkRows w.d.id ((rs.take qmMaxChunks).map fun r => ⟨r.start, r.last, 0⟩) := by
  rw [persistPlan_eq]
  refine (appendChunks_rows _ ?_).trans ?_
  · exact h
  · rw [World.rows, World.query_db, World.query_d, Db.chunksOf_deleteChunks]
    exact List.nil_append _

/-! ## Progress -/

theorem flushProgress_spec (w : World) : ∃ qs,
    flushProgress w = { w with
      d := { w.d with
        chunks := w.d.chunks.mapIdx fun i c => { c with bytesDone := w.d.chunkLiveBytes i } }
      disk := { w.disk with db := qs.foldl Db.exec w.disk.db }
      log := w.log ++ qs.map .stmt } ∧
    qs = (w.d.chunks.mapIdx fun i c => { c with bytesDone := w.d.chunkLiveBytes i }).map
      fun c => .updateChunkProgress w.d.id c.rangeStart c.bytesDone := by
  refine ⟨_, ?_, rfl⟩
  have key : ∀ (cs : List DownloadChunk) (w : World),
      cs.foldl (fun w c => w.query (.updateChunkProgress w.d.id c.rangeStart c.bytesDone)) w =
        { w with
          disk := { w.disk with db := (cs.map fun c =>
            DbStmt.updateChunkProgress w.d.id c.rangeStart c.bytesDone).foldl Db.exec w.disk.db }
          log := w.log ++ (cs.map fun c =>
            Effect.stmt (.updateChunkProgress w.d.id c.rangeStart c.bytesDone)) } := by
    intro cs
    induction cs with
    | nil => intro w; simp
    | cons c cs ih =>
      intro w
      rw [List.foldl_cons, ih]
      simp [World.query, World.emit, Disk.apply]
  rw [flushProgress, key]
  simp [Function.comp_def]

@[simp] theorem flushProgress_frame : (flushProgress w).d.frame = w.d.frame := by
  obtain ⟨qs, h, -⟩ := flushProgress_spec w
  rw [h]
  rfl

@[simp] theorem flushProgress_file : (flushProgress w).disk.file = w.disk.file := by
  obtain ⟨qs, h, -⟩ := flushProgress_spec w
  rw [h]

@[simp] theorem flushProgress_live :
    (flushProgress w).d.chunkLiveBytes = w.d.chunkLiveBytes := by
  obtain ⟨qs, h, -⟩ := flushProgress_spec w
  rw [h]

theorem flushProgress_chunks : (flushProgress w).d.chunks =
    w.d.chunks.mapIdx fun i c => { c with bytesDone := w.d.chunkLiveBytes i } := by
  obtain ⟨qs, h, -⟩ := flushProgress_spec w
  rw [h]

theorem flushProgress_hasRow (h : w.HasRow) : (flushProgress w).HasRow := by
  obtain ⟨qs, hflush, -⟩ := flushProgress_spec w
  rw [hflush]
  exact List.foldlRecOn (motive := fun db : Db => (db.row w.d.id).isSome) qs _ h
    fun _ h q _ => Db.row_exec_isSome q h

/-! ## Planning -/

theorem mem_resumeRanges {i j : ℕ} {cs : List DownloadChunk} {r : Range} :
    (j, r) ∈ resumeRanges info i cs ↔
      ∃ c, i ≤ j ∧ cs[j - i]? = some c ∧ chunkIsComplete c = false ∧ r = resumeRange info c := by
  induction cs generalizing i with
  | nil => simp [resumeRanges]
  | cons c cs ih =>
    have tail : (j, r) ∈ resumeRanges info (i + 1) cs ↔ ∃ c', i < j ∧ (c :: cs)[j - i]? = some c' ∧
        chunkIsComplete c' = false ∧ r = resumeRange info c' := by
      rw [ih]
      refine exists_congr fun c' => and_congr_right fun hij => ?_
      rw [show j - i = (j - (i + 1)) + 1 by omega, List.getElem?_cons_succ]
    rw [resumeRanges]
    split_ifs with hc
    · rw [tail]
      refine exists_congr fun c' => ⟨fun h => ⟨h.1.le, h.2⟩, fun h => ⟨?_, h.2⟩⟩
      rcases h.1.lt_or_eq with hlt | rfl
      · exact hlt
      · rw [Nat.sub_self, List.getElem?_cons_zero] at h
        rw [← Option.some.inj h.2.1, hc] at h
        exact absurd h.2.2.1 (by decide)
    · rw [List.mem_cons, tail, Prod.mk.injEq]
      constructor
      · rintro (⟨rfl, rfl⟩ | ⟨c', h⟩)
        · exact ⟨c, le_rfl, by simp, by simpa using hc, rfl⟩
        · exact ⟨c', h.1.le, h.2⟩
      · rintro ⟨c', h, hc', hr⟩
        rcases h.lt_or_eq with hlt | rfl
        · exact .inr ⟨c', hlt, hc', hr⟩
        · rw [Nat.sub_self, List.getElem?_cons_zero] at hc'
          cases hc'
          exact .inl ⟨rfl, hr.2⟩

theorem resumeRanges_pairwise (info : FileInfo) (i : ℕ) (cs : List DownloadChunk) :
    (resumeRanges info i cs).Pairwise fun x y => x.1 < y.1 := by
  induction cs generalizing i with
  | nil => exact .nil
  | cons c cs ih =>
    rw [resumeRanges]
    split_ifs
    · exact ih _
    · refine List.pairwise_cons.2 ⟨fun y hy => ?_, ih _⟩
      obtain ⟨_, h, _⟩ := mem_resumeRanges.1 hy
      exact h

/-- A chunk has one range. -/
theorem index_eq_of_resumeRanges {i j k k' : ℕ} {cs : List DownloadChunk} {r r' : Range}
    (hk : (resumeRanges info i cs)[k]? = some (j, r))
    (hk' : (resumeRanges info i cs)[k']? = some (j, r')) : k = k' := by
  have hpair := List.pairwise_iff_getElem.1 (resumeRanges_pairwise info i cs)
  obtain ⟨hlt, hk⟩ := List.getElem?_eq_some_iff.1 hk
  obtain ⟨hlt', hk'⟩ := List.getElem?_eq_some_iff.1 hk'
  rcases lt_trichotomy k k' with hkk | hkk | hkk
  · have := hpair k k' hlt hlt' hkk
    rw [hk, hk'] at this
    exact absurd this (lt_irrefl _)
  · exact hkk
  · have := hpair k' k hlt' hlt hkk
    rw [hk, hk'] at this
    exact absurd this (lt_irrefl _)

/-- The world in which the recorded chunks are resumed. -/
def resumed (w : World) (info : FileInfo) : World :=
  { w with d := { w.d with
    bytesDownloaded := (w.d.chunks.map (resumedBytes info)).sum
    chunkLiveBytes := fun i => ((w.d.chunks[i]?).map (·.bytesDone)).getD (w.d.chunkLiveBytes i) } }

/-- What planning leads to. -/
inductive PlanStep (w : World) (info : FileInfo) (io : PlanIo) : World → Pc → Prop
  /-- Every recorded chunk is complete. -/
  | complete : w.d.chunks ≠ [] → resumeIsStale w info = false →
      resumeRanges info 0 w.d.chunks = [] →
      PlanStep w info io (resumed (recordSize w info) info) (.finalizing info)
  | resume : w.d.chunks ≠ [] → resumeIsStale w info = false →
      resumeRanges info 0 w.d.chunks ≠ [] → io.runFails = false → w.disk.file.isSome →
      PlanStep w info io (resumed (recordSize w info) info)
        (.running info (resumeRanges info 0 w.d.chunks).length
          (plannedRun (resumeRanges info 0 w.d.chunks) io.poolFails))
  | resumeFails : w.d.chunks ≠ [] → resumeIsStale w info = false →
      resumeRanges info 0 w.d.chunks ≠ [] →
      PlanStep w info io (resumed (recordSize w info) info)
        (.flushing info (resumeRanges info 0 w.d.chunks).length false)
  /-- The destination could not be created: there are no chunks. -/
  | allocFails {w₀ w' : World} {rc : ℤ} :
      w₀ = w ∧ w.d.chunks = [] ∨
        w₀ = clearResumeState w true ∧ w.d.chunks ≠ [] ∧ resumeIsStale w info = true →
      preallocate (recordSize w₀ info) info.totalSize.toNat io.alloc = (w', rc) → rc ≠ 0 →
      PlanStep w info io w' (.idle (some (if rc = -2 then -3 else -1)))
  | start {w₀ w' : World} :
      w₀ = w ∧ w.d.chunks = [] ∨
        w₀ = clearResumeState w true ∧ w.d.chunks ≠ [] ∧ resumeIsStale w info = true →
      preallocate (recordSize w₀ info) info.totalSize.toNat io.alloc = (w', 0) →
      PlanStep w info io (persistPlan w' (freshRanges info))
        (.running info (freshRanges info).length
          (plannedRun ((freshRanges info).mapIdx fun i r => (i, r)) io.poolFails))
  | startFails {w₀ w' : World} :
      w₀ = w ∧ w.d.chunks = [] ∨
        w₀ = clearResumeState w true ∧ w.d.chunks ≠ [] ∧ resumeIsStale w info = true →
      preallocate (recordSize w₀ info) info.totalSize.toNat io.alloc = (w', 0) →
      PlanStep w info io (persistPlan w' (freshRanges info))
        (.flushing info (freshRanges info).length false)

theorem PlanStep.of_fresh {w₀ : World} {pc : Pc}
    (h₀ : w₀ = w ∧ w.d.chunks = [] ∨
      w₀ = clearResumeState w true ∧ w.d.chunks ≠ [] ∧ resumeIsStale w info = true)
    (h : freshPlan (recordSize w₀ info) info io = (w', pc)) : PlanStep w info io w' pc := by
  rw [freshPlan] at h
  split at h
  · rw [startPool] at h
    split_ifs at h <;> cases h
    · have := PlanStep.startFails h₀ ‹_›
      rwa [List.length_mapIdx]
    · have := PlanStep.start h₀ ‹_›
      rwa [List.length_mapIdx]
  · cases h
    exact .allocFails h₀ ‹_› (by decide)
  · rename_i w'' rc h0 h2 heq
    cases h
    have := PlanStep.allocFails h₀ heq h0
    rwa [if_neg h2] at this

theorem PlanStep.of_eq {pc : Pc} (h : planDownload w info io = (w', pc)) :
    PlanStep w info io w' pc := by
  rw [planDownload] at h
  split_ifs at h with hc hs
  · exact .of_fresh (.inl ⟨rfl, hc⟩) h
  · exact .of_fresh (.inr ⟨rfl, hc, hs⟩) h
  · have hs' : resumeIsStale w info = false := by simpa using hs
    rw [resumePlan] at h
    simp only at h
    split_ifs at h with hr
    · cases h
      exact .complete hc hs' hr
    · rw [startPool] at h
      split_ifs at h with hio <;> cases h
      · exact .resumeFails hc hs' hr
      · simp only [Bool.or_eq_true, not_or, Bool.not_eq_true] at hio
        exact .resume hc hs' hr hio.1 (by simpa using hio.2)

end Cdm
