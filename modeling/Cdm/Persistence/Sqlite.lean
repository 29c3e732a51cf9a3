import Cdm.Persistence.Db

/-!
# The tables as SQLite has them

The functions of `persistence/db.c` bind their arguments to the columns of two tables,
as 64-bit signed integers and texts, and read them back: an identifier passes through an
`int`, an offset through an `sqlite3_int64`, and a text is copied into an array of the
structure it is read for. SQL leaves the order of the rows of a query open, unless it
asks for one; it is that of the insertions here. Memory is not exhausted.

The tables hold what the database holds (`Db.encode`): the functions that change them do
what the statements do (`run_encode`), and, if everything fits the columns and the
structures, the two readers find what was stored (`dbRestoreQueue_encode`,
`dbGetDownloadDetails_encode`).
-/

namespace Cdm

/-! ## Columns -/

/-- An argument of 32 bits, bound as an `int`. -/
def bindInt (n : ℕ) : ℤ := (BitVec.ofNat 32 n).toInt

/-- An argument of 64 bits, bound as an `sqlite3_int64`. -/
def bindInt64 (n : ℕ) : ℤ := (BitVec.ofNat 64 n).toInt

/-- A column read as an `int`, and converted to an unsigned one. -/
def columnInt (x : ℤ) : ℕ := (BitVec.ofInt 32 x).toNat

/-- A column read as an `sqlite3_int64`, and converted to an unsigned one. -/
def columnInt64 (x : ℤ) : ℕ := (BitVec.ofInt 64 x).toNat

/-- A text copied into a zeroed array of `size` bytes, the last one of which stays zero. -/
def strncpy (size : ℕ) (text : CString) : CString := text.take (size - 1)

theorem bindInt_of_lt {n : ℕ} (h : n < 2 ^ 31) : bindInt n = n := by
  rw [bindInt, BitVec.toInt_ofNat']
  exact Int.bmod_eq_of_le (by omega) (by omega)

theorem bindInt64_of_lt {n : ℕ} (h : n < 2 ^ 63) : bindInt64 n = n := by
  rw [bindInt64, BitVec.toInt_ofNat']
  exact Int.bmod_eq_of_le (by omega) (by omega)

theorem columnInt_natCast {n : ℕ} (h : n < 2 ^ 31) : columnInt n = n := by
  rw [columnInt, BitVec.ofInt_natCast, BitVec.toNat_ofNat]
  exact Nat.mod_eq_of_lt (by omega)

theorem columnInt64_natCast {n : ℕ} (h : n < 2 ^ 63) : columnInt64 n = n := by
  rw [columnInt64, BitVec.ofInt_natCast, BitVec.toNat_ofNat]
  exact Nat.mod_eq_of_lt (by omega)

/-- An unsigned integer of 64 bits comes back, whatever its sign as a column. -/
theorem columnInt64_bindInt64 {n : ℕ} (h : n < 2 ^ 64) : columnInt64 (bindInt64 n) = n := by
  rw [columnInt64, bindInt64, BitVec.ofInt_toInt, BitVec.toNat_ofNat]
  exact Nat.mod_eq_of_lt h

theorem strncpy_of_lt {size : ℕ} {text : CString} (h : text.length < size) :
    strncpy size text = text :=
  List.take_of_length_le (by omega)

/-- A row of the table `downloads`; the time of its creation is not read. -/
structure DownloadCols where
  id : ℤ
  url : CString
  destPath : CString
  totalSize : ℤ
  status : String
  priority : ℤ
  cookie : CString
  referrer : CString
  extraHeaders : CString
  expectedSha256 : CString
  speedLimitBps : ℤ
  reservedFile : ℤ

/-- A row of the table `chunks`. -/
structure ChunkCols where
  downloadId : ℤ
  rangeStart : ℤ
  rangeEnd : ℤ
  bytesDone : ℤ

structure Sqlite where
  downloads : List DownloadCols
  chunks : List ChunkCols

namespace Sqlite

/-! ## Writers -/

/-- A row with the same identifier is replaced, and its chunk rows are deleted with it. -/
def insertDownload (t : Sqlite) (id : ℕ) (url destPath : CString) (opts : Option RequestOptions)
    (reserved : Bool) : Sqlite where
  downloads := t.downloads.filter (·.id ≠ bindInt id) ++
    [{ id := bindInt id
       url := url
       destPath := destPath
       totalSize := 0
       status := "QUEUED"
       priority := 0
       cookie := (opts.map (·.cookie)).getD []
       referrer := (opts.map (·.referrer)).getD []
       extraHeaders := (opts.map (·.extraHeaders)).getD []
       expectedSha256 := (opts.map (·.expectedSha256)).getD []
       speedLimitBps := bindInt64 ((opts.map (·.speedLimitBps)).getD 0)
       reservedFile := if reserved then 1 else 0 }]
  chunks := t.chunks.filter (·.downloadId ≠ bindInt id)

def dbInsertDownload (t : Sqlite) (id : ℕ) (url destPath : CString)
    (opts : Option RequestOptions) : Sqlite :=
  t.insertDownload id url destPath opts false

def dbInsertReservedDownload (t : Sqlite) (id : ℕ) (url destPath : CString)
    (opts : Option RequestOptions) : Sqlite :=
  t.insertDownload id url destPath opts true

/-- Changing the row of a download. -/
def updateDownload (t : Sqlite) (id : ℕ) (f : DownloadCols → DownloadCols) : Sqlite :=
  { t with downloads := t.downloads.map fun r => if r.id = bindInt id then f r else r }

def dbUpdateStatus (t : Sqlite) (id : ℕ) (status : String) : Sqlite :=
  t.updateDownload id fun r => { r with status := status }

def dbUpdateTotalSize (t : Sqlite) (id totalSize : ℕ) : Sqlite :=
  t.updateDownload id fun r => { r with totalSize := bindInt64 totalSize }

/-- The row of the download has to be there (a foreign key). -/
def dbInsertChunk (t : Sqlite) (id rangeStart rangeEnd : ℕ) : Sqlite :=
  if t.downloads.any (·.id = bindInt id) then
    { t with chunks := t.chunks ++
        [⟨bindInt id, bindInt64 rangeStart, bindInt64 rangeEnd, 0⟩] }
  else t

/-- Changing the chunk rows of a download that start at an offset. -/
def updateChunk (t : Sqlite) (id rangeStart : ℕ) (f : ChunkCols → ChunkCols) : Sqlite :=
  { t with chunks := t.chunks.map fun c =>
      if c.downloadId = bindInt id ∧ c.rangeStart = bindInt64 rangeStart then f c else c }

def dbUpdateChunkProgress (t : Sqlite) (id rangeStart bytesDone : ℕ) : Sqlite :=
  t.updateChunk id rangeStart fun c => { c with bytesDone := bindInt64 bytesDone }

def dbUpdateChunkRange (t : Sqlite) (id rangeStart newRangeEnd : ℕ) : Sqlite :=
  t.updateChunk id rangeStart fun c => { c with rangeEnd := bindInt64 newRangeEnd }

def dbDeleteChunks (t : Sqlite) (id : ℕ) : Sqlite :=
  { t with chunks := t.chunks.filter (·.downloadId ≠ bindInt id) }

/-! ## Readers -/

def dbLoadChunks (t : Sqlite) (id max : ℕ) : List DownloadChunk :=
  ((((t.chunks.filter (·.downloadId = bindInt id)).insertionSort
    fun a b => a.rangeStart ≤ b.rangeStart).take max)).map
      fun c => ⟨columnInt64 c.rangeStart, columnInt64 c.rangeEnd, columnInt64 c.bytesDone⟩

/-- The download restored from a row. -/
def restoreRow (t : Sqlite) (r : DownloadCols) : Download :=
  let id := columnInt r.id
  let options : RequestOptions :=
    { cookie := strncpy 1024 r.cookie
      referrer := strncpy 2048 r.referrer
      extraHeaders := strncpy 4096 r.extraHeaders
      expectedSha256 := strncpy 65 r.expectedSha256
      speedLimitBps := columnInt64 r.speedLimitBps }
  { Download.zero with
    id := id
    url := strncpy 2048 r.url
    destPath := strncpy 1024 r.destPath
    totalSize := columnInt64 r.totalSize
    status := restoredStatus r.status
    priority := (BitVec.ofInt 32 r.priority).toInt
    reservedFile := r.reservedFile ≠ 0
    request := if requestOptionsPresent options then some options else none
    chunks := t.dbLoadChunks id qmMaxChunks }

/-- Every restored download is put in front of the queue, empty before. -/
def dbRestoreQueue (t : Sqlite) : List Download :=
  ((t.downloads.filter (·.status ≠ "DONE")).map t.restoreRow).reverse

end Sqlite

/-- The options of a download, for a client that asks. -/
structure IpcDownloadDetails where
  cookie : CString
  referrer : CString
  extraHeaders : CString
  expectedSha256 : CString
  speedLimitBps : ℕ

/-- The details that have the same options. -/
def RequestOptions.details (o : RequestOptions) : IpcDownloadDetails :=
  ⟨o.cookie, o.referrer, o.extraHeaders, o.expectedSha256, o.speedLimitBps⟩

def Sqlite.dbGetDownloadDetails (t : Sqlite) (id : ℕ) : Option IpcDownloadDetails :=
  (t.downloads.find? (·.id = bindInt id)).map fun r =>
    { cookie := strncpy 1024 r.cookie
      referrer := strncpy 2048 r.referrer
      extraHeaders := strncpy 4096 r.extraHeaders
      expectedSha256 := strncpy 65 r.expectedSha256
      speedLimitBps := columnInt64 r.speedLimitBps }

/-! ## Calls -/

/-- The calls that change the tables. -/
inductive DbCall
  | insertDownload (id : ℕ) (url destPath : CString) (opts : Option RequestOptions)
  | insertReservedDownload (id : ℕ) (url destPath : CString) (opts : Option RequestOptions)
  | updateStatus (id : ℕ) (status : String)
  | updateTotalSize (id totalSize : ℕ)
  | insertChunk (id rangeStart rangeEnd : ℕ)
  | updateChunkProgress (id rangeStart bytesDone : ℕ)
  | updateChunkRange (id rangeStart newRangeEnd : ℕ)
  | deleteChunks (id : ℕ)

/-- The options of a request without any. -/
def noOptions : RequestOptions := ⟨[], [], [], [], 0⟩

namespace DbCall

def run (t : Sqlite) : DbCall → Sqlite
  | insertDownload id url destPath opts => t.dbInsertDownload id url destPath opts
  | insertReservedDownload id url destPath opts => t.dbInsertReservedDownload id url destPath opts
  | updateStatus id status => t.dbUpdateStatus id status
  | updateTotalSize id totalSize => t.dbUpdateTotalSize id totalSize
  | insertChunk id rangeStart rangeEnd => t.dbInsertChunk id rangeStart rangeEnd
  | updateChunkProgress id rangeStart bytesDone => t.dbUpdateChunkProgress id rangeStart bytesDone
  | updateChunkRange id rangeStart newRangeEnd => t.dbUpdateChunkRange id rangeStart newRangeEnd
  | deleteChunks id => t.dbDeleteChunks id

/-- The statement of a call; without options, all of them are empty. -/
def stmt : DbCall → DbStmt
  | insertDownload id url destPath opts =>
    .insertDownload id url destPath (opts.getD noOptions) false
  | insertReservedDownload id url destPath opts =>
    .insertDownload id url destPath (opts.getD noOptions) true
  | updateStatus id status => .updateStatus id status
  | updateTotalSize id totalSize => .updateTotalSize id totalSize
  | insertChunk id rangeStart rangeEnd => .insertChunk id rangeStart rangeEnd
  | updateChunkProgress id rangeStart bytesDone => .updateChunkProgress id rangeStart bytesDone
  | updateChunkRange id rangeStart newRangeEnd => .updateChunkRange id rangeStart newRangeEnd
  | deleteChunks id => .deleteChunks id

end DbCall

/-- The options fit the arrays of the structures they are read for, and 64 bits. -/
structure RequestOptions.Fits (o : RequestOptions) : Prop where
  cookie : o.cookie.length < 1024
  referrer : o.referrer.length < 2048
  extraHeaders : o.extraHeaders.length < 4096
  expectedSha256 : o.expectedSha256.length < 65
  speedLimitBps : o.speedLimitBps < 2 ^ 64

/-- The arguments of a statement fit the columns, and the structures they are read for. -/
def DbStmt.Fits : DbStmt → Prop
  | .insertDownload id url destPath opts _ =>
    id < 2 ^ 31 ∧ url.length < 2048 ∧ destPath.length < 1024 ∧ opts.Fits
  | .updateStatus id _ | .deleteChunks id => id < 2 ^ 31
  | .updateTotalSize id n => id < 2 ^ 31 ∧ n < 2 ^ 63
  | .insertChunk id a b | .updateChunkProgress id a b | .updateChunkRange id a b =>
    id < 2 ^ 31 ∧ a < 2 ^ 63 ∧ b < 2 ^ 63

/-! ## Tables of a database -/

def DownloadRow.encode (r : DownloadRow) : DownloadCols where
  id := r.id
  url := r.url
  destPath := r.destPath
  totalSize := r.totalSize
  status := r.status
  priority := r.priority
  cookie := r.options.cookie
  referrer := r.options.referrer
  extraHeaders := r.options.extraHeaders
  expectedSha256 := r.options.expectedSha256
  speedLimitBps := bindInt64 r.options.speedLimitBps
  reservedFile := if r.reservedFile then 1 else 0

def ChunkRow.encode (c : ChunkRow) : ChunkCols :=
  ⟨c.downloadId, c.rangeStart, c.rangeEnd, c.bytesDone⟩

/-- The tables of a database. -/
def Db.encode (db : Db) : Sqlite := ⟨db.downloads.map DownloadRow.encode, db.chunks.map ChunkRow.encode⟩

theorem DownloadRow.encode_id_eq {r : DownloadRow} {n : ℕ} : r.encode.id = n ↔ r.id = n := by
  rw [encode, Nat.cast_inj]

theorem ChunkRow.encode_downloadId_eq {c : ChunkRow} {n : ℕ} :
    c.encode.downloadId = n ↔ c.downloadId = n := by
  rw [encode, Nat.cast_inj]

theorem ChunkRow.encode_rangeStart_eq {c : ChunkRow} {n : ℕ} :
    c.encode.rangeStart = n ↔ c.rangeStart = n := by
  rw [encode, Nat.cast_inj]

namespace Db

variable {db : Db} {id start : ℕ}

theorem encode_deleteDownload (hid : id < 2 ^ 31) :
    db.encode.downloads.filter (·.id ≠ bindInt id) =
      (db.downloads.filter (·.id ≠ id)).map DownloadRow.encode := by
  rw [encode, List.filter_map]
  refine congrArg _ (List.filter_congr fun r _ => ?_)
  rw [Function.comp_apply, bindInt_of_lt hid, decide_eq_decide, ne_eq, DownloadRow.encode_id_eq]

theorem encode_deleteChunks (hid : id < 2 ^ 31) :
    db.encode.chunks.filter (·.downloadId ≠ bindInt id) =
      (db.chunks.filter (·.downloadId ≠ id)).map ChunkRow.encode := by
  rw [encode, List.filter_map]
  refine congrArg _ (List.filter_congr fun c _ => ?_)
  rw [Function.comp_apply, bindInt_of_lt hid, decide_eq_decide, ne_eq,
    ChunkRow.encode_downloadId_eq]

theorem encode_insertDownload {url destPath : CString} {opts : Option RequestOptions}
    {reserved : Bool} (hid : id < 2 ^ 31) :
    db.encode.insertDownload id url destPath opts reserved =
      (db.exec (.insertDownload id url destPath (opts.getD noOptions) reserved)).encode := by
  rw [Sqlite.insertDownload, encode_deleteDownload hid, encode_deleteChunks hid, bindInt_of_lt hid,
    exec, encode, List.map_append]
  cases opts <;> rfl

theorem encode_updateRow {f : DownloadRow → DownloadRow} {g : DownloadCols → DownloadCols}
    (hid : id < 2 ^ 31) (h : ∀ r, g (DownloadRow.encode r) = (f r).encode) :
    db.encode.updateDownload id g = (db.updateRow id f).encode := by
  rw [Sqlite.updateDownload, updateRow, encode, encode, List.map_map, List.map_map]
  refine congrArg (Sqlite.mk · _) (List.map_congr_left fun r _ => ?_)
  simp only [Function.comp_apply, bindInt_of_lt hid, DownloadRow.encode_id_eq, h]
  split_ifs <;> rfl

theorem encode_updateChunk {f : ChunkRow → ChunkRow} {g : ChunkCols → ChunkCols}
    (hid : id < 2 ^ 31) (hstart : start < 2 ^ 63) (h : ∀ c, g (ChunkRow.encode c) = (f c).encode) :
    db.encode.updateChunk id start g = (db.updateChunk id start f).encode := by
  rw [Sqlite.updateChunk, updateChunk, encode, encode, List.map_map, List.map_map]
  refine congrArg (Sqlite.mk _) (List.map_congr_left fun c _ => ?_)
  simp only [Function.comp_apply, bindInt_of_lt hid, bindInt64_of_lt hstart,
    ChunkRow.encode_downloadId_eq, ChunkRow.encode_rangeStart_eq, h]
  split_ifs <;> rfl

theorem encode_insertChunk {last : ℕ} (hid : id < 2 ^ 31) (hstart : start < 2 ^ 63)
    (hlast : last < 2 ^ 63) :
    db.encode.dbInsertChunk id start last = (db.exec (.insertChunk id start last)).encode := by
  have hany : db.encode.downloads.any (·.id = bindInt id) = (db.row id).isSome := by
    rw [Bool.eq_iff_iff, List.any_eq_true, row_isSome, bindInt_of_lt hid]
    simp [encode, DownloadRow.encode_id_eq]
  rw [Sqlite.dbInsertChunk, exec, hany]
  split_ifs
  · rw [bindInt_of_lt hid, bindInt64_of_lt hstart, bindInt64_of_lt hlast, encode, encode,
      List.map_append]
    rfl
  · rfl

end Db

/-- The calls do to the tables what their statements do to the database. -/
theorem DbCall.run_encode {c : DbCall} {db : Db} (h : c.stmt.Fits) :
    c.run db.encode = (db.exec c.stmt).encode := by
  cases c with
  | insertDownload => exact Db.encode_insertDownload h.1
  | insertReservedDownload => exact Db.encode_insertDownload h.1
  | updateStatus => exact Db.encode_updateRow h fun _ => rfl
  | updateTotalSize id n =>
    refine Db.encode_updateRow h.1 fun r => ?_
    rw [bindInt64_of_lt h.2]
    rfl
  | insertChunk => exact Db.encode_insertChunk h.1 h.2.1 h.2.2
  | updateChunkProgress =>
    refine Db.encode_updateChunk h.1 h.2.1 fun c => ?_
    rw [bindInt64_of_lt h.2.2]
    rfl
  | updateChunkRange =>
    refine Db.encode_updateChunk h.1 h.2.1 fun c => ?_
    rw [bindInt64_of_lt h.2.2]
    rfl
  | deleteChunks id =>
    have hid : id < 2 ^ 31 := h
    exact congrArg (Sqlite.mk _) (Db.encode_deleteChunks hid)

/-! ## Reading back -/

structure DownloadRow.Fits (r : DownloadRow) : Prop where
  id : r.id < 2 ^ 31
  url : r.url.length < 2048
  destPath : r.destPath.length < 1024
  totalSize : r.totalSize < 2 ^ 63
  priority : r.priority = 0
  options : r.options.Fits

structure ChunkRow.Fits (c : ChunkRow) : Prop where
  rangeStart : c.rangeStart < 2 ^ 63
  rangeEnd : c.rangeEnd < 2 ^ 63
  bytesDone : c.bytesDone < 2 ^ 63

/-- What is stored fits the columns, and the structures it is read for. -/
structure Db.Fits (db : Db) : Prop where
  downloads : ∀ r ∈ db.downloads, r.Fits
  chunks : ∀ c ∈ db.chunks, c.Fits

theorem Db.Fits.exec {db : Db} {q : DbStmt} (h : db.Fits) (hq : q.Fits) : (db.exec q).Fits := by
  have hrow {id : ℕ} {f : DownloadRow → DownloadRow} (hf : ∀ r, r.Fits → (f r).Fits) :
      (db.updateRow id f).Fits := by
    refine ⟨fun r hr => ?_, h.chunks⟩
    obtain ⟨r₀, hr₀, rfl⟩ := List.mem_map.1 hr
    split_ifs
    · exact hf r₀ (h.downloads r₀ hr₀)
    · exact h.downloads r₀ hr₀
  have hchunk {id start : ℕ} {f : ChunkRow → ChunkRow} (hf : ∀ c, c.Fits → (f c).Fits) :
      (db.updateChunk id start f).Fits := by
    refine ⟨h.downloads, fun c hc => ?_⟩
    obtain ⟨c₀, hc₀, rfl⟩ := List.mem_map.1 hc
    split_ifs
    · exact hf c₀ (h.chunks c₀ hc₀)
    · exact h.chunks c₀ hc₀
  cases q with
  | insertDownload id url destPath opts reserved =>
    obtain ⟨hid, hurl, hdest, hopts⟩ := hq
    refine ⟨fun r hr => ?_, fun c hc => h.chunks c (List.mem_of_mem_filter hc)⟩
    rcases List.mem_append.1 hr with hr | hr
    · exact h.downloads r (List.mem_of_mem_filter hr)
    · rw [List.mem_singleton.1 hr]
      exact ⟨hid, hurl, hdest, by norm_num, rfl, hopts⟩
  | updateStatus => exact hrow fun r hr => ⟨hr.id, hr.url, hr.destPath, hr.totalSize, hr.priority, hr.options⟩
  | updateTotalSize =>
    exact hrow fun r hr => ⟨hr.id, hr.url, hr.destPath, hq.2, hr.priority, hr.options⟩
  | insertChunk id a b =>
    rw [Db.exec]
    split_ifs
    · refine ⟨h.downloads, fun c hc => ?_⟩
      rcases List.mem_append.1 hc with hc | hc
      · exact h.chunks c hc
      · rw [List.mem_singleton.1 hc]
        exact ⟨hq.2.1, hq.2.2, by norm_num⟩
    · exact h
  | updateChunkProgress => exact hchunk fun c hc => ⟨hc.rangeStart, hc.rangeEnd, hq.2.2⟩
  | updateChunkRange => exact hchunk fun c hc => ⟨hc.rangeStart, hq.2.2, hc.bytesDone⟩
  | deleteChunks => exact ⟨h.downloads, fun c hc => h.chunks c (List.mem_of_mem_filter hc)⟩

namespace Db

variable {db : Db} {id : ℕ}

theorem dbLoadChunks_encode {max : ℕ} (h : db.Fits) (hid : id < 2 ^ 31) :
    db.encode.dbLoadChunks id max = dbLoadChunks db id max := by
  have hrows : db.encode.chunks.filter (·.downloadId = bindInt id) =
      (db.chunksOf id).map ChunkRow.encode := by
    rw [encode, List.filter_map]
    refine congrArg _ (List.filter_congr fun c _ => ?_)
    rw [Function.comp_apply, bindInt_of_lt hid, decide_eq_decide, ChunkRow.encode_downloadId_eq]
  have hsort : (((db.chunksOf id).map ChunkRow.encode).insertionSort
      fun a b => a.rangeStart ≤ b.rangeStart) =
        ((db.chunksOf id).insertionSort fun a b => a.rangeStart ≤ b.rangeStart).map
          ChunkRow.encode :=
    (List.map_insertionSort _ _ ChunkRow.encode _ fun a _ b _ => Nat.cast_le.symm).symm
  rw [Sqlite.dbLoadChunks, hrows, hsort, dbLoadChunks, ← List.map_take, List.map_map]
  refine List.map_congr_left fun c hc => ?_
  have hfits : c.Fits := by
    have hmem := (List.perm_insertionSort _ _).mem_iff.1 (List.mem_of_mem_take hc)
    exact h.chunks c (List.mem_of_mem_filter hmem)
  simp only [Function.comp_apply, ChunkRow.encode, columnInt64_natCast hfits.rangeStart,
    columnInt64_natCast hfits.rangeEnd, columnInt64_natCast hfits.bytesDone]

theorem restoreRow_encode {r : DownloadRow} (h : db.Fits) (hr : r.Fits) :
    db.encode.restoreRow r.encode = restoreRow db r := by
  obtain ⟨hid, hurl, hdest, htotal, hprio, ho⟩ := hr
  simp only [Sqlite.restoreRow, restoreRow, DownloadRow.encode, columnInt_natCast hid,
    strncpy_of_lt hurl, strncpy_of_lt hdest, columnInt64_natCast htotal, strncpy_of_lt ho.cookie,
    strncpy_of_lt ho.referrer, strncpy_of_lt ho.extraHeaders, strncpy_of_lt ho.expectedSha256,
    columnInt64_bindInt64 ho.speedLimitBps, dbLoadChunks_encode h hid, hprio]
  cases r.reservedFile <;> rfl

/-- The queue restored from the tables is that of the database. -/
theorem dbRestoreQueue_encode (h : db.Fits) : db.encode.dbRestoreQueue = dbRestoreQueue db := by
  have hrows : db.encode.downloads.filter (·.status ≠ "DONE") =
      (db.downloads.filter (·.status ≠ "DONE")).map DownloadRow.encode := by
    rw [encode, List.filter_map]
    rfl
  rw [Sqlite.dbRestoreQueue, hrows, dbRestoreQueue, List.map_map]
  refine congrArg _ (List.map_congr_left fun r hr => ?_)
  exact restoreRow_encode h (h.downloads r (List.mem_of_mem_filter hr))

/-- The details read from the tables are the options stored. -/
theorem dbGetDownloadDetails_encode (h : db.Fits) (hid : id < 2 ^ 31) :
    db.encode.dbGetDownloadDetails id = (db.row id).map (·.options.details) := by
  have hfind : db.encode.downloads.find? (·.id = bindInt id) =
      (db.row id).map DownloadRow.encode := by
    rw [encode, List.find?_map, row]
    refine congrArg _ (congrArg (db.downloads.find? ·) (funext fun r => ?_))
    rw [Function.comp_apply, bindInt_of_lt hid, decide_eq_decide, DownloadRow.encode_id_eq]
  rw [Sqlite.dbGetDownloadDetails, hfind, Option.map_map]
  refine Option.map_congr fun r hr => ?_
  obtain ⟨hcookie, hreferrer, hheaders, hsha, hspeed⟩ :=
    (h.downloads r (List.mem_of_find?_eq_some hr)).options
  simp only [Function.comp_apply, DownloadRow.encode, RequestOptions.details, strncpy_of_lt hcookie,
    strncpy_of_lt hreferrer, strncpy_of_lt hheaders, strncpy_of_lt hsha,
    columnInt64_bindInt64 hspeed]

end Db

end Cdm
