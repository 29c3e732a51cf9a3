import Cdm.Daemon.Reports
import Cdm.Daemon.Tasks

/-!
# What a report persists

`scheduler_report_progress` of `core/scheduler.c` reads the live counters of the chunks of the
active downloads into a buffer of `reportMax` entries, and stores what it has read. The chunks
that do not fit, in the order of the queue and of the chunk tables, are left out, so that not
all that is active is persisted (`persisted_iff`) unless it fits (`persisted_of_fits`).
-/

namespace Cdm

variable {s : Store}

/-- The downloads a report is sent for, at most `max` of them
    (`queue_manager_snapshot_active_progress`). -/
def queueManagerSnapshotActive (s : Store) (max : ℕ) : List ℕ :=
  ((s.queue.filter (·.status = .active)).map (·.id)).take max

/-- A report: the clients are told of the active downloads, and the progress of the chunks is
    stored. -/
def schedulerReportProgress (s : Store) : Store :=
  let s := { s with
    sent := s.sent ++ (queueManagerSnapshotActive s reportMax).map fun id => (id, "Downloading") }
  reportProgress s (queueManagerSnapshotChunkProgress s reportMax)

/-- The rows of a chunk have a number of bytes done, and there is one. -/
def Db.HasDone (db : Db) (id start bytesDone : ℕ) : Prop :=
  (∃ r ∈ db.chunks, r.downloadId = id ∧ r.rangeStart = start) ∧
    ∀ r ∈ db.chunks, r.downloadId = id → r.rangeStart = start → r.bytesDone = bytesDone

/-- The live counters of all chunks of the active downloads. -/
def Store.liveProgress (s : Store) : List ChunkProgressSnapshot :=
  (s.queue.filter (·.status = .active)).flatMap fun d =>
    d.chunks.mapIdx fun j c => ⟨d.id, c.rangeStart, d.chunkLiveBytes j⟩

/-- The counters in memory are those in the database. -/
def Persisted (s : Store) (ps : List ChunkProgressSnapshot) : Prop :=
  ∀ p ∈ ps, s.db.HasDone p.downloadId p.rangeStart p.bytesDone

/-- The queue as the program keeps it: the downloads differ in their identifiers, the chunks of
    each in their starts, and the chunks of the active ones have their rows. -/
structure Reportable (s : Store) : Prop where
  ids : (s.queue.map (·.id)).Nodup
  starts : ∀ d ∈ s.queue, DistinctStarts d.chunks
  rows : ∀ p ∈ s.liveProgress, ∃ r ∈ s.db.chunks, r.downloadId = p.downloadId ∧
    r.rangeStart = p.rangeStart

/-! ## The rows after a report -/

/-- A row after the progress of a chunk is stored. -/
def ChunkRow.store (r : ChunkRow) (p : ChunkProgressSnapshot) : ChunkRow :=
  if r.downloadId = p.downloadId ∧ r.rangeStart = p.rangeStart then { r with bytesDone := p.bytesDone }
  else r

theorem chunks_reportProgress (ps : List ChunkProgressSnapshot) :
    (reportProgress s ps).db.chunks = s.db.chunks.map fun r => ps.foldl ChunkRow.store r := by
  induction ps generalizing s with
  | nil => simp [reportProgress]
  | cons p ps ih =>
    have hcons : reportProgress s (p :: ps) = reportProgress
        (s.query (.updateChunkProgress p.downloadId p.rangeStart p.bytesDone)) ps := rfl
    rw [hcons, ih]
    show ((s.db.exec _).chunks).map _ = _
    rw [Db.exec, Db.updateChunk, List.map_map]
    rfl

/-- Storing changes neither the download nor the start of a row. -/
theorem key_foldl_store (ps : List ChunkProgressSnapshot) (r : ChunkRow) :
    (ps.foldl ChunkRow.store r).downloadId = r.downloadId ∧
      (ps.foldl ChunkRow.store r).rangeStart = r.rangeStart := by
  induction ps generalizing r with
  | nil => exact ⟨rfl, rfl⟩
  | cons p ps ih =>
    have hstore : (r.store p).downloadId = r.downloadId ∧ (r.store p).rangeStart = r.rangeStart := by
      rw [ChunkRow.store]
      split_ifs <;> exact ⟨rfl, rfl⟩
    rw [List.foldl_cons, (ih _).1, (ih _).2]
    exact hstore

/-- What is stored for another chunk leaves a row as it is. -/
theorem foldl_store_of_notMem {ps : List ChunkProgressSnapshot} {r : ChunkRow}
    (h : ∀ p ∈ ps, ¬(r.downloadId = p.downloadId ∧ r.rangeStart = p.rangeStart)) :
    ps.foldl ChunkRow.store r = r := by
  induction ps with
  | nil => rfl
  | cons p ps ih =>
    rw [List.foldl_cons, ChunkRow.store, if_neg (h p List.mem_cons_self)]
    exact ih fun p hp => h p (List.mem_cons_of_mem _ hp)

/-- What is stored for the chunk of a row is found in it afterwards. -/
theorem foldl_store_of_mem {ps : List ChunkProgressSnapshot} {p : ChunkProgressSnapshot}
    {r : ChunkRow} (hnodup : (ps.map fun p => (p.downloadId, p.rangeStart)).Nodup) (hp : p ∈ ps)
    (hid : r.downloadId = p.downloadId) (hstart : r.rangeStart = p.rangeStart) :
    (ps.foldl ChunkRow.store r).bytesDone = p.bytesDone := by
  obtain ⟨before, after, rfl⟩ := List.append_of_mem hp
  rw [List.map_append, List.map_cons, List.nodup_append] at hnodup
  obtain ⟨-, hafter, -⟩ := hnodup
  rw [List.foldl_append, List.foldl_cons]
  obtain ⟨hkey, hkey'⟩ := key_foldl_store before r
  generalize before.foldl ChunkRow.store r = r' at hkey hkey'
  rw [ChunkRow.store, if_pos ⟨hkey.trans hid, hkey'.trans hstart⟩, foldl_store_of_notMem]
  -- No later entry is about the same chunk.
  rintro q hq ⟨hqid, hqstart⟩
  refine (List.nodup_cons.1 hafter).1 (List.mem_map.2 ⟨q, hq, ?_⟩)
  exact Prod.ext (hqid.symm.trans (hkey.trans hid)) (hqstart.symm.trans (hkey'.trans hstart))

/-! ## The chunks left out -/

theorem nodup_liveProgress (h : Reportable s) :
    (s.liveProgress.map fun p => (p.downloadId, p.rangeStart)).Nodup := by
  have hnodup : ((queueManagerSnapshotChunkProgress s s.liveProgress.length).map
      fun p => (p.downloadId, p.rangeStart)).Nodup :=
    nodup_queueManagerSnapshotChunkProgress h.ids h.starts
  rwa [queueManagerSnapshotChunkProgress, ← Store.liveProgress, List.take_length] at hnodup

theorem liveProgress_schedulerReportProgress (s : Store) :
    (schedulerReportProgress s).liveProgress = s.liveProgress := by
  have hqueue (s : Store) (ps : List ChunkProgressSnapshot) :
      (reportProgress s ps).queue = s.queue := by
    induction ps generalizing s with
    | nil => rfl
    | cons p ps ih => exact ih _
  rw [Store.liveProgress, schedulerReportProgress, hqueue, Store.liveProgress]

/-- The rows after a report, each from a row before. -/
theorem hasDone_schedulerReportProgress {id start b : ℕ} :
    (schedulerReportProgress s).db.HasDone id start b ↔
      (∃ r ∈ s.db.chunks, r.downloadId = id ∧ r.rangeStart = start) ∧
        ∀ r ∈ s.db.chunks, r.downloadId = id → r.rangeStart = start →
          ((s.liveProgress.take reportMax).foldl ChunkRow.store r).bytesDone = b := by
  have hchunks : (schedulerReportProgress s).db.chunks =
      s.db.chunks.map fun r => (s.liveProgress.take reportMax).foldl ChunkRow.store r :=
    chunks_reportProgress _
  simp only [Db.HasDone, hchunks, List.mem_map, exists_exists_and_eq_and, forall_exists_index,
    and_imp, forall_apply_eq_imp_iff₂, key_foldl_store]

/-- What a report has read is stored. -/
theorem persisted_take (h : Reportable s) :
    Persisted (schedulerReportProgress s) (s.liveProgress.take reportMax) := by
  have hnodup : ((s.liveProgress.take reportMax).map fun p => (p.downloadId, p.rangeStart)).Nodup :=
    (nodup_liveProgress h).sublist ((List.take_sublist _ _).map _)
  intro p hp
  refine hasDone_schedulerReportProgress.2 ⟨h.rows p (List.mem_of_mem_take hp), ?_⟩
  exact fun r _ hid hstart => foldl_store_of_mem hnodup hp hid hstart

/-- After a report, the counters of all that is active are persisted if and only if those of
    the chunks past the first `reportMax` were before. -/
theorem persisted_iff (h : Reportable s) :
    Persisted (schedulerReportProgress s) (schedulerReportProgress s).liveProgress ↔
      Persisted s (s.liveProgress.drop reportMax) := by
  rw [liveProgress_schedulerReportProgress]
  have hnodup := nodup_liveProgress h
  rw [← List.take_append_drop reportMax s.liveProgress, List.map_append, List.nodup_append] at hnodup
  obtain ⟨-, -, hdisjoint⟩ := hnodup
  -- The rows of the other chunks are as they were.
  have hleft (p : ChunkProgressSnapshot) (hp : p ∈ s.liveProgress.drop reportMax) :
      (schedulerReportProgress s).db.HasDone p.downloadId p.rangeStart p.bytesDone ↔
        s.db.HasDone p.downloadId p.rangeStart p.bytesDone := by
    have hsame (r : ChunkRow) (hid : r.downloadId = p.downloadId)
        (hstart : r.rangeStart = p.rangeStart) :
        (s.liveProgress.take reportMax).foldl ChunkRow.store r = r := by
      refine foldl_store_of_notMem fun q hq hkey => ?_
      refine hdisjoint _ (List.mem_map_of_mem hq) _ (List.mem_map_of_mem hp) ?_
      exact Prod.ext (hkey.1.symm.trans hid) (hkey.2.symm.trans hstart)
    rw [hasDone_schedulerReportProgress, Db.HasDone]
    refine and_congr_right fun _ => forall₂_congr fun r _ => forall₂_congr fun hid hstart => ?_
    rw [hsame r hid hstart]
  constructor
  · intro hall p hp
    exact (hleft p hp).1 (hall p (List.mem_of_mem_drop hp))
  · intro hrest p hp
    rw [← List.take_append_drop reportMax s.liveProgress] at hp
    rcases List.mem_append.1 hp with hp | hp
    · exact persisted_take h p hp
    · exact (hleft p hp).2 (hrest p hp)

instance (db : Db) (id start b : ℕ) : Decidable (db.HasDone id start b) :=
  inferInstanceAs (Decidable (_ ∧ _))

instance (s : Store) (ps : List ChunkProgressSnapshot) : Decidable (Persisted s ps) :=
  inferInstanceAs (Decidable (∀ p ∈ ps, _))

/-- Active downloads of eight chunks each, of every chunk of which a byte was received that is
    not stored yet. -/
def busyStore (n : ℕ) : Store where
  queue := (List.range n).map fun i =>
    { Download.zero with
      id := i + 1
      status := .active
      chunks := (List.range 8).map fun j => ⟨10 * j, 10 * j + 9, 0⟩
      chunkLiveBytes := fun _ => 1 }
  nextId := n + 1
  files _ := none
  db := ⟨[], (List.range n).flatMap fun i =>
    (List.range 8).map fun j => ⟨i + 1, 10 * j, 10 * j + 9, 0⟩⟩
  unlinked := []
  sent := []

theorem reportable_busyStore {n : ℕ} (hn : n = 2 ∨ n = 9) : Reportable (busyStore n) := by
  have hstarts : ∀ d ∈ (busyStore n).queue, DistinctStarts d.chunks := by
    intro d hd
    obtain ⟨i, -, rfl⟩ := List.mem_map.1 hd
    show (((List.range 8).map fun j => (⟨10 * j, 10 * j + 9, 0⟩ : DownloadChunk)).map
      (·.rangeStart)).Nodup
    decide
  rcases hn with rfl | rfl
  · exact ⟨by decide, hstarts, by decide +kernel⟩
  · exact ⟨by decide, hstarts, by decide +kernel⟩

theorem persisted_iff_two :
    Persisted (schedulerReportProgress (busyStore 2))
        (schedulerReportProgress (busyStore 2)).liveProgress ↔
      Persisted (busyStore 2) ((busyStore 2).liveProgress.drop reportMax) :=
  persisted_iff (reportable_busyStore (.inl rfl))

/-- Of nine downloads with eight chunks each, one is left out. -/
theorem exists_not_persisted : Reportable (busyStore 9) ∧
    ¬Persisted (schedulerReportProgress (busyStore 9))
      (schedulerReportProgress (busyStore 9)).liveProgress :=
  ⟨reportable_busyStore (.inr rfl), by decide +kernel⟩

/-- All that is active is persisted if it fits the buffer. -/
theorem persisted_of_fits (h : Reportable s) (hfits : s.liveProgress.length ≤ reportMax) :
    Persisted (schedulerReportProgress s) s.liveProgress := by
  have htake := persisted_take h
  rwa [List.take_of_length_le hfits] at htake

end Cdm
