import Cdm.Core.Download

/-!
# The database

The two tables of `persistence/db.c`, as lists of rows in insertion order, and the
statements the program runs on them (`DbStmt`), each atomic (`Db.exec`). Foreign
keys are on: a chunk row needs the row of its download, and replacing a download
row deletes its chunk rows.

`dbRestoreQueue` is the restore at the start of the daemon: the downloads that are
not `DONE`, an active one queued again, with the chunks in the order of their
starts.
-/

namespace Cdm

/-- A row of the table `downloads`. -/
structure DownloadRow where
  id : ℕ
  url : CString
  destPath : CString
  totalSize : ℕ
  status : String
  priority : ℤ
  options : RequestOptions
  reservedFile : Bool
  deriving DecidableEq

/-- A row of the table `chunks`. -/
structure ChunkRow where
  downloadId : ℕ
  rangeStart : ℕ
  rangeEnd : ℕ
  bytesDone : ℕ
  deriving DecidableEq

structure Db where
  downloads : List DownloadRow
  chunks : List ChunkRow

/-- The statements that change the database. -/
inductive DbStmt
  | insertDownload (id : ℕ) (url destPath : CString) (opts : RequestOptions) (reserved : Bool)
  | updateStatus (id : ℕ) (status : String)
  | updateTotalSize (id totalSize : ℕ)
  | insertChunk (id rangeStart rangeEnd : ℕ)
  | updateChunkProgress (id rangeStart bytesDone : ℕ)
  | updateChunkRange (id rangeStart newRangeEnd : ℕ)
  | deleteChunks (id : ℕ)
  deriving DecidableEq

namespace DbStmt

/-- The download a statement is about. -/
def id : DbStmt → ℕ
  | insertDownload id _ _ _ _ | updateStatus id _ | updateTotalSize id _ | insertChunk id _ _
  | updateChunkProgress id _ _ | updateChunkRange id _ _ | deleteChunks id => id

/-- The statement sets no status. -/
def keepsStatus : DbStmt → Bool
  | insertDownload _ _ _ _ _ | updateStatus _ _ => false
  | _ => true

end DbStmt

namespace Db

/-- The row of a download. -/
def row (db : Db) (id : ℕ) : Option DownloadRow := db.downloads.find? (·.id = id)

/-- The chunk rows of a download. -/
def chunksOf (db : Db) (id : ℕ) : List ChunkRow := db.chunks.filter (·.downloadId = id)

/-- Changing the row of a download (`id` is the primary key). -/
def updateRow (db : Db) (id : ℕ) (f : DownloadRow → DownloadRow) : Db :=
  { db with downloads := db.downloads.map fun r => if r.id = id then f r else r }

/-- Changing the chunk rows of a download that start at an offset. -/
def updateChunk (db : Db) (id start : ℕ) (f : ChunkRow → ChunkRow) : Db :=
  { db with chunks := db.chunks.map fun c =>
      if c.downloadId = id ∧ c.rangeStart = start then f c else c }

/-- The effect of a statement. -/
def exec (db : Db) : DbStmt → Db
  | .insertDownload id url destPath opts reserved =>
    { downloads := db.downloads.filter (·.id ≠ id) ++
        [⟨id, url, destPath, 0, statusToString .queued, 0, opts, reserved⟩],
      chunks := db.chunks.filter (·.downloadId ≠ id) }
  | .updateStatus id status => db.updateRow id fun r => { r with status := status }
  | .updateTotalSize id totalSize => db.updateRow id fun r => { r with totalSize := totalSize }
  | .insertChunk id rangeStart rangeEnd =>
    if (db.row id).isSome then
      { db with chunks := db.chunks ++ [⟨id, rangeStart, rangeEnd, 0⟩] }
    else db
  | .updateChunkProgress id rangeStart bytesDone =>
    db.updateChunk id rangeStart fun c => { c with bytesDone := bytesDone }
  | .updateChunkRange id rangeStart newRangeEnd =>
    db.updateChunk id rangeStart fun c => { c with rangeEnd := newRangeEnd }
  | .deleteChunks id => { db with chunks := db.chunks.filter (·.downloadId ≠ id) }

variable {db : Db} {id id' start : ℕ}

theorem row_id {r : DownloadRow} (h : db.row id = some r) : r.id = id := by
  simpa using List.find?_some h

theorem row_updateRow {f : DownloadRow → DownloadRow} (hf : ∀ r, (f r).id = r.id) :
    (db.updateRow id f).row id' = if id' = id then (db.row id').map f else db.row id' := by
  have hp : ((fun r : DownloadRow => decide (r.id = id')) ∘ fun r => if r.id = id then f r else r) =
      fun r => decide (r.id = id') := by
    funext r
    by_cases hr : r.id = id <;> simp [hr, hf]
  rw [row, updateRow, List.find?_map, hp, ← row]
  split_ifs with h
  · refine Option.map_congr fun r hr => ?_
    rw [if_pos ((row_id hr).trans h)]
  · have : ∀ r ∈ db.row id', (if r.id = id then f r else r) = r := fun r hr => by
      rw [if_neg (by rw [row_id hr]; exact h)]
    rw [Option.map_congr this, Option.map_id']

theorem chunksOf_updateChunk {f : ChunkRow → ChunkRow} (hf : ∀ c, (f c).downloadId = c.downloadId) :
    (db.updateChunk id start f).chunksOf id' =
      if id' = id then (db.chunksOf id').map fun c => if c.rangeStart = start then f c else c
      else db.chunksOf id' := by
  have hp : ((fun c : ChunkRow => decide (c.downloadId = id')) ∘
      fun c => if c.downloadId = id ∧ c.rangeStart = start then f c else c) =
        fun c => decide (c.downloadId = id') := by
    funext c
    by_cases hc : c.downloadId = id ∧ c.rangeStart = start <;> simp [hc, hf]
  rw [chunksOf, updateChunk, List.filter_map, hp, ← chunksOf]
  split_ifs with h
  · refine List.map_congr_left fun c hc => ?_
    have : c.downloadId = id := by simpa [h] using (List.mem_filter.1 hc).2
    simp [this]
  · refine (List.map_congr_left fun c hc => ?_).trans (List.map_id _)
    have : c.downloadId ≠ id := by
      have := (List.mem_filter.1 hc).2
      simp only [decide_eq_true_eq] at this
      omega
    simp [this]

theorem row_insertDownload {url destPath : CString} {opts : RequestOptions} {reserved : Bool} :
    (db.exec (.insertDownload id url destPath opts reserved)).row id =
      some ⟨id, url, destPath, 0, statusToString .queued, 0, opts, reserved⟩ := by
  have hnone : (db.downloads.filter (·.id ≠ id)).find? (·.id = id) = none := by
    rw [List.find?_eq_none]
    simp
  rw [exec, row, List.find?_append, hnone, Option.none_or]
  exact List.find?_cons_of_pos (by simp)

/-- The statements on chunks do not change the downloads. -/
theorem row_insertChunk {rs re : ℕ} : (db.exec (.insertChunk id rs re)).row id' = db.row id' := by
  rw [exec]
  split_ifs <;> rfl

theorem chunksOf_insertChunk {rs re : ℕ} (h : (db.row id).isSome) :
    (db.exec (.insertChunk id rs re)).chunksOf id = db.chunksOf id ++ [⟨id, rs, re, 0⟩] := by
  rw [exec, if_pos h]
  simp [chunksOf]

theorem chunksOf_deleteChunks : (db.exec (.deleteChunks id)).chunksOf id = [] := by
  simp [exec, chunksOf]

theorem chunksOf_updateChunkProgress {rs n : ℕ} :
    (db.exec (.updateChunkProgress id rs n)).chunksOf id =
      (db.chunksOf id).map fun c => if c.rangeStart = rs then { c with bytesDone := n } else c := by
  rw [exec, chunksOf_updateChunk, if_pos rfl]
  exact fun _ => rfl

theorem chunksOf_updateChunkRange {rs n : ℕ} :
    (db.exec (.updateChunkRange id rs n)).chunksOf id =
      (db.chunksOf id).map fun c => if c.rangeStart = rs then { c with rangeEnd := n } else c := by
  rw [exec, chunksOf_updateChunk, if_pos rfl]
  exact fun _ => rfl

theorem row_isSome : (db.row id).isSome ↔ ∃ r ∈ db.downloads, r.id = id := by
  simp [row, List.find?_isSome]

/-- No statement deletes the row of a download. -/
theorem row_exec_isSome (q : DbStmt) (h : (db.row id).isSome) : ((db.exec q).row id).isSome := by
  have hupdate {id' : ℕ} {f : DownloadRow → DownloadRow} (hf : ∀ r, (f r).id = r.id) :
      ((db.updateRow id' f).row id).isSome := by
    rw [row_updateRow hf]
    split_ifs <;> simpa using h
  cases q with
  | insertDownload id' =>
    rw [row_isSome] at h ⊢
    obtain ⟨r, hr, hid⟩ := h
    by_cases hne : id' = id
    · exact ⟨_, List.mem_append_right _ (List.mem_singleton.2 rfl), hne⟩
    · refine ⟨r, List.mem_append_left _ (List.mem_filter.2 ⟨hr, ?_⟩), hid⟩
      simp only [decide_not, Bool.not_eq_true', decide_eq_false_iff_not]
      omega
  | updateStatus => exact hupdate fun _ => rfl
  | updateTotalSize => exact hupdate fun _ => rfl
  | insertChunk => rwa [row_insertChunk]
  | updateChunkProgress => exact h
  | updateChunkRange => exact h
  | deleteChunks => exact h

/-- A statement changes the rows of its own download only. -/
theorem row_exec_of_ne {q : DbStmt} (h : id ≠ q.id) : (db.exec q).row id = db.row id := by
  have hupdate {id' : ℕ} {f : DownloadRow → DownloadRow} (hf : ∀ r, (f r).id = r.id)
      (h : id ≠ id') : (db.updateRow id' f).row id = db.row id := by
    rw [row_updateRow hf, if_neg h]
  cases q with
  | insertDownload id' =>
    have h' : id ≠ id' := h
    rw [exec, row, row, List.find?_append, List.find?_filter]
    have hlast (r : DownloadRow) (hr : r.id = id') : [r].find? (·.id = id) = none := by
      simp [hr, h'.symm]
    rw [hlast _ rfl, Option.or_none]
    congr 1
    funext r
    by_cases hr : r.id = id <;> simp [hr, h']
  | updateStatus => exact hupdate (fun _ => rfl) h
  | updateTotalSize => exact hupdate (fun _ => rfl) h
  | insertChunk => exact row_insertChunk
  | updateChunkProgress => rfl
  | updateChunkRange => rfl
  | deleteChunks => rfl

theorem chunksOf_exec_of_ne {q : DbStmt} (h : id ≠ q.id) :
    (db.exec q).chunksOf id = db.chunksOf id := by
  have hdelete {id' : ℕ} (h : id ≠ id') :
      (db.chunks.filter (·.downloadId ≠ id')).filter (·.downloadId = id) = db.chunksOf id := by
    rw [List.filter_filter]
    refine List.filter_congr fun c _ => ?_
    by_cases hc : c.downloadId = id <;> simp [hc, h]
  have hupdate {id' start : ℕ} {f : ChunkRow → ChunkRow} (hf : ∀ c, (f c).downloadId = c.downloadId)
      (h : id ≠ id') : (db.updateChunk id' start f).chunksOf id = db.chunksOf id := by
    rw [chunksOf_updateChunk hf, if_neg h]
  cases q with
  | insertDownload => exact hdelete h
  | updateStatus => rfl
  | updateTotalSize => rfl
  | insertChunk id' =>
    have h' : id ≠ id' := h
    rw [exec]
    split_ifs
    · simp [chunksOf, h'.symm]
    · rfl
  | updateChunkProgress => exact hupdate (fun _ => rfl) h
  | updateChunkRange => exact hupdate (fun _ => rfl) h
  | deleteChunks => exact hdelete h

/-- The status stored for a download. -/
def status (db : Db) (id : ℕ) : Option String := (db.row id).map (·.status)

theorem status_exec {q : DbStmt} (hq : q.keepsStatus = true) :
    (db.exec q).status id = db.status id := by
  cases q with
  | insertDownload => cases hq
  | updateStatus => cases hq
  | updateTotalSize id' =>
    rw [status, exec, row_updateRow]
    · split_ifs
      · rw [Option.map_map]
        rfl
      · rfl
    · exact fun _ => rfl
  | insertChunk => rw [status, row_insertChunk, status]
  | updateChunkProgress => rfl
  | updateChunkRange => rfl
  | deleteChunks => rfl

theorem eq_of_updateStatus {name name' : String}
    (h : (db.exec (.updateStatus id name)).status id = some name') : name' = name := by
  rw [status, exec, row_updateRow, if_pos rfl, Option.map_map] at h
  · obtain ⟨r, -, hname⟩ := Option.map_eq_some_iff.1 h
    exact hname.symm
  · exact fun _ => rfl

/-- Only an insertion adds a row. -/
theorem ids_exec {q : DbStmt} (hq : ∀ id url destPath opts reserved,
    q ≠ .insertDownload id url destPath opts reserved) :
    (db.exec q).downloads.map (·.id) = db.downloads.map (·.id) := by
  have hupdate {id : ℕ} {f : DownloadRow → DownloadRow} (hf : ∀ r, (f r).id = r.id) :
      (db.updateRow id f).downloads.map (·.id) = db.downloads.map (·.id) := by
    rw [updateRow, List.map_map]
    refine List.map_congr_left fun r _ => ?_
    rw [Function.comp_apply]
    split_ifs
    · exact hf r
    · rfl
  cases q with
  | insertDownload => exact absurd rfl (hq _ _ _ _ _)
  | updateStatus => exact hupdate fun _ => rfl
  | updateTotalSize => exact hupdate fun _ => rfl
  | insertChunk =>
    rw [exec]
    split_ifs <;> rfl
  | updateChunkProgress => rfl
  | updateChunkRange => rfl
  | deleteChunks => rfl

theorem status_updateStatus {name : String} (h : (db.row id).isSome) :
    (db.exec (.updateStatus id name)).status id = some name := by
  obtain ⟨r, hr⟩ := Option.isSome_iff_exists.1 h
  rw [status, exec, row_updateRow, if_pos rfl, hr]
  · rfl
  · exact fun _ => rfl

end Db

/-- The chunks of a download, in the order of their starts, at most `max` of them. -/
def dbLoadChunks (db : Db) (id max : ℕ) : List DownloadChunk :=
  (((db.chunksOf id).insertionSort fun a b => a.rangeStart ≤ b.rangeStart).take max).map
    fun c => ⟨c.rangeStart, c.rangeEnd, c.bytesDone⟩

/-- The status restored from a stored name. -/
def restoredStatus (name : String) : DownloadStatus :=
  if name = "QUEUED" then .queued
  else if name = "ACTIVE" then .queued
  else if name = "PAUSED" then .paused
  else if name = "ERROR" then .error
  else if name = "CANCELED" then .canceled
  else .queued

/-- The options are kept only if some of them is set. -/
def requestOptionsPresent (o : RequestOptions) : Bool :=
  o.cookie ≠ [] || o.referrer ≠ [] || o.extraHeaders ≠ [] || o.expectedSha256 ≠ [] ||
    o.speedLimitBps ≠ 0

/-- The download restored from a row. -/
def restoreRow (db : Db) (r : DownloadRow) : Download :=
  { Download.zero with
    id := r.id
    url := r.url
    destPath := r.destPath
    totalSize := r.totalSize
    status := restoredStatus r.status
    priority := r.priority
    reservedFile := r.reservedFile
    request := if requestOptionsPresent r.options then some r.options else none
    chunks := dbLoadChunks db r.id qmMaxChunks }

/-- The queue restored from the database, the last row first. -/
def dbRestoreQueue (db : Db) : List Download :=
  ((db.downloads.filter (·.status ≠ "DONE")).map (restoreRow db)).reverse

end Cdm
