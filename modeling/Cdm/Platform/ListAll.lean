import Cdm.Persistence.Sqlite
import Cdm.Platform.Protocol

/-!
# The list of downloads

The answer to the message that asks for all downloads, and the two clients that read it:
`send_download_row` and `ipc_send_list_all` of `platform/ipc_socket.c`, the queries
`db_count_downloads` and `db_visit_downloads` of `persistence/db.c`, and
`gui_client_list_all` of `gui/gui_client.c`.

The number of rows comes from one query, the rows from another. A row of the table is
shown with the status and the progress its entry in the queue has, if there is one. What
is copied into a record fits its arrays (`DownloadListRecord`), and both clients have
arrays of these sizes: what was sent is what they read (`listAll_decoded`).

A progress is a floating-point number of 32 bits; how a quotient is rounded is left to a
parameter.
-/

namespace Cdm

open Wire

/-- A download in the list, with its strings in arrays of 2048, 1024 and 16 bytes. -/
structure DownloadListRecord where
  id : ℕ
  url : CString
  destPath : CString
  status : CString
  /-- The bits of a `float`. -/
  progress : BitVec 32
  id_lt : id < 256 ^ 4
  url_lt : url.length < 2048
  destPath_lt : destPath.length < 1024
  status_lt : status.length < 16
  deriving DecidableEq

theorem length_strncpy_lt {size : ℕ} {text : CString} (h : 0 < size) :
    (strncpy size text).length < size := by
  rw [strncpy, List.length_take]
  omega

/-- A record filled by copying its strings. -/
def DownloadListRecord.copy (id : ℕ) (url destPath status : CString) (progress : BitVec 32)
    (hid : id < 256 ^ 4) : DownloadListRecord :=
  { id := id
    url := strncpy 2048 url
    destPath := strncpy 1024 destPath
    status := strncpy 16 status
    progress := progress
    id_lt := hid
    url_lt := length_strncpy_lt (by decide)
    destPath_lt := length_strncpy_lt (by decide)
    status_lt := length_strncpy_lt (by decide) }

theorem DownloadListRecord.copy_self (r : DownloadListRecord) :
    copy r.id r.url r.destPath r.status r.progress r.id_lt = r := by
  rw [copy]
  congr
  · exact strncpy_of_lt r.url_lt
  · exact strncpy_of_lt r.destPath_lt
  · exact strncpy_of_lt r.status_lt

/-! ## The queries -/

def ipcListAllMax : ℕ := 200

def Sqlite.dbCountDownloads (t : Sqlite) (max : ℕ) : ℕ :=
  if max < t.downloads.length then max else t.downloads.length

theorem columnInt_lt (x : ℤ) : columnInt x < 256 ^ 4 := (BitVec.ofInt 32 x).isLt

/-- The row of a download, as it is listed. -/
def DownloadCols.listRow (r : DownloadCols) : DownloadListRecord :=
  .copy (columnInt r.id) r.url r.destPath r.status.toList 0 (columnInt_lt r.id)

/-- The rows listed: at most `max`, those of the highest identifiers, the highest first. -/
def Sqlite.newestRows (t : Sqlite) (max : ℕ) : List DownloadCols :=
  (t.downloads.insertionSort fun a b => b.id ≤ a.id).take max

def Sqlite.dbVisitDownloads (t : Sqlite) (max : ℕ) : List DownloadListRecord :=
  (t.newestRows max).map DownloadCols.listRow

/-- Every row counted is visited. -/
theorem Sqlite.length_dbVisitDownloads (t : Sqlite) (max : ℕ) :
    (t.dbVisitDownloads max).length = t.dbCountDownloads max := by
  rw [dbVisitDownloads, List.length_map, newestRows, List.length_take, List.length_insertionSort,
    dbCountDownloads]
  split_ifs <;> omega

/-! ## The rows -/

/-- What is known of an entry of the queue at a moment. -/
structure DownloadRuntimeSnapshot where
  status : DownloadStatus
  totalSize : ℕ
  bytesDownloaded : ℕ
  destPath : CString
  chunks : List DownloadChunk

def queueManagerGetRuntimeSnapshot (s : Store) (id : ℕ) : Option DownloadRuntimeSnapshot :=
  (s.get id).map fun d =>
    { status := d.status
      totalSize := d.totalSize
      bytesDownloaded := d.bytesDownloaded
      destPath := d.destPath
      chunks := d.chunks.take qmMaxChunks }

/-- The bits of `1.0f`. -/
def oneFloat : BitVec 32 := 0x3F800000

/-- The part of a download that is there; `ratio` is the rounded quotient, at most one. -/
def snapshotProgress (ratio : ℕ → ℕ → BitVec 32) (x : DownloadRuntimeSnapshot) : BitVec 32 :=
  if x.totalSize = 0 then 0
  else
    ratio (if x.status = .active then x.bytesDownloaded else (x.chunks.map (·.bytesDone)).sum)
      x.totalSize

/-- A row, with the status and the progress the daemon knows of. -/
def listedRow (ratio : ℕ → ℕ → BitVec 32) (s : Store) (row : DownloadListRecord) :
    DownloadListRecord :=
  let live := queueManagerGetRuntimeSnapshot s row.id
  let status := strncpy 16 (match live with
    | some x => (statusToString x.status).toList
    | none => row.status)
  let progress := match live with
    | some x => snapshotProgress ratio x
    | none => 0
  { row with
    status := status
    progress := if status = "DONE".toList then oneFloat else progress
    status_lt := length_strncpy_lt (by decide) }

/-- Sending a row. -/
def sendRow (r : DownloadListRecord) : Prog Char Unit := do
  Prog.send (littleEndian 4 r.id)
  writeString r.url
  writeString r.destPath
  writeString r.status
  Prog.send (littleEndian 4 r.progress.toNat)

def sendDownloadRow (ratio : ℕ → ℕ → BitVec 32) (s : Store) (row : DownloadListRecord) :
    Prog Char Unit := sendRow (listedRow ratio s row)

def sendRows (ratio : ℕ → ℕ → BitVec 32) (s : Store) : List DownloadListRecord → Prog Char Unit
  | [] => pure ()
  | row :: rows => do
    sendDownloadRow ratio s row
    sendRows ratio s rows

/-- The answer: the number of rows, and the rows. -/
def handleListAll (ratio : ℕ → ℕ → BitVec 32) (s : Store) (t : Sqlite) : Prog Char Unit := do
  Prog.send (littleEndian 4 (t.dbCountDownloads ipcListAllMax))
  sendRows ratio s (t.dbVisitDownloads ipcListAllMax)

/-- The rows of the answer. -/
def listedRows (ratio : ℕ → ℕ → BitVec 32) (s : Store) (t : Sqlite) : List DownloadListRecord :=
  (t.dbVisitDownloads ipcListAllMax).map (listedRow ratio s)

def DownloadListRecord.bytes (r : DownloadListRecord) : List Char :=
  littleEndian 4 r.id ++ stringBytes r.url ++ stringBytes r.destPath ++ stringBytes r.status ++
    littleEndian 4 r.progress.toNat

def listBytes (l : List DownloadListRecord) : List Char :=
  littleEndian 4 l.length ++ l.flatMap DownloadListRecord.bytes

theorem run_sendRows {ratio : ℕ → ℕ → BitVec 32} {s : Store} {rows : List DownloadListRecord}
    {l : List Char} : (sendRows ratio s rows).run l =
      ⟨(), (rows.map (listedRow ratio s)).flatMap DownloadListRecord.bytes, l⟩ := by
  induction rows with
  | nil => rfl
  | cons row rows ih =>
    simp [sendRows, sendDownloadRow, sendRow, ih, DownloadListRecord.bytes, List.append_assoc]

theorem length_listedRows {ratio : ℕ → ℕ → BitVec 32} {s : Store} {t : Sqlite} :
    (listedRows ratio s t).length = t.dbCountDownloads ipcListAllMax := by
  rw [listedRows, List.length_map, t.length_dbVisitDownloads]

theorem length_listedRows_le {ratio : ℕ → ℕ → BitVec 32} {s : Store} {t : Sqlite} :
    (listedRows ratio s t).length ≤ 200 := by
  rw [length_listedRows, Sqlite.dbCountDownloads, ipcListAllMax]
  split_ifs <;> omega

/-- The answer is the list, whatever is on the connection. -/
theorem run_handleListAll {ratio : ℕ → ℕ → BitVec 32} {s : Store} {t : Sqlite} {l : List Char} :
    (handleListAll ratio s t).run l = ⟨(), listBytes (listedRows ratio s t), l⟩ := by
  simp [handleListAll, run_sendRows, listBytes, listedRows, Sqlite.length_dbVisitDownloads]

/-! ## The clients -/

/-- The array of the graphical client: a longer string is cut, and the rest is not read. -/
def readStringLocal (maxLen : ℕ) : Prog Char (Option CString) := do
  match ← Prog.readExact 4 with
  | none => pure none
  | some l =>
    let len := if maxLen ≤ value l then maxLen - 1 else value l
    if 0 < len then Prog.readExact len else pure (some [])

theorem readStringLocal_run {maxLen : ℕ} {s : CString} {l : List Char} (h : s.length < maxLen)
    (h32 : s.length < 256 ^ 4) :
    (readStringLocal maxLen).run (stringBytes s ++ l) = ⟨some s, [], l⟩ := by
  have hread := exact_stringBytes s l
  by_cases h0 : s = []
  · subst h0
    have hne : maxLen ≠ 0 := by
      rintro rfl
      exact absurd h (Nat.not_lt_zero _)
    simp [readStringLocal, hread, value_littleEndian, hne]
  · have hpos : 0 < s.length := List.length_pos_of_ne_nil h0
    have hs : exact s.length (s ++ l) = (some s, l) := exact_append rfl
    simp [readStringLocal, hread, value_littleEndian_of_lt h32, h.not_ge, hpos, hs]

/-- The record of a row that has been read. -/
def DownloadListRecord.ofWire (id : List Char) (url destPath status : CString)
    (progress : List Char) : DownloadListRecord :=
  .copy (value id % 256 ^ 4) url destPath status (BitVec.ofNat 32 (value progress))
    (Nat.mod_lt _ (by decide))

theorem DownloadListRecord.ofWire_self (r : DownloadListRecord) :
    ofWire (littleEndian 4 r.id) r.url r.destPath r.status (littleEndian 4 r.progress.toNat) = r := by
  have hid : value (littleEndian 4 r.id) % 256 ^ 4 = r.id := by
    rw [value_littleEndian, Nat.mod_mod, Nat.mod_eq_of_lt r.id_lt]
  have hbits : value (littleEndian 4 r.progress.toNat) = r.progress.toNat :=
    value_littleEndian_of_lt r.progress.isLt
  rw [ofWire, hbits, BitVec.ofNat_toNat, BitVec.setWidth_eq]
  simp only [hid]
  exact r.copy_self

/-- Reading a row, its strings by `readStr`. -/
def readRow (readStr : ℕ → Prog Char (Option CString)) : Prog Char (Option DownloadListRecord) := do
  match ← Prog.readExact 4 with
  | none => pure none
  | some id =>
    match ← readStr ipcMaxUrlLen with
    | none => pure none
    | some url =>
      match ← readStr ipcMaxPathLen with
      | none => pure none
      | some destPath =>
        match ← readStr 16 with
        | none => pure none
        | some status =>
          match ← Prog.readExact 4 with
          | none => pure none
          | some progress => pure (some (.ofWire id url destPath status progress))

/-- Reading rows, and keeping at most `max` of them. -/
def readRows (readStr : ℕ → Prog Char (Option CString)) (max : ℕ) :
    (count : ℕ) → (out : List DownloadListRecord) → Prog Char (Option (List DownloadListRecord))
  | 0, out => pure (some out)
  | count + 1, out => do
    match ← readRow readStr with
    | none => pure none
    | some r => readRows readStr max count (if out.length < max then out ++ [r] else out)

/-- The header of the request. -/
def listAllHeader : MsgHeader := ⟨0, MsgType.listAll.code⟩

def ipcSendListAll (max : ℤ) : Prog Char (Option (List DownloadListRecord)) :=
  if max ≤ 0 then pure none
  else do
    Prog.send listAllHeader.bytes
    match ← Prog.readExact 4 with
    | none => pure none
    | some count => readRows readString max.toNat (value count) []

/-- A number of rows that is negative as an `int` cannot be allocated. -/
def guiClientListAll : Prog Char (Option (List DownloadListRecord)) := do
  Prog.send listAllHeader.bytes
  match ← Prog.readExact 4 with
  | none => pure none
  | some count =>
    if 2 ^ 31 ≤ value count then pure none
    else readRows readStringLocal (value count) (value count) []

/-- The strings that fit are read as they were sent, and nothing else is read. -/
def ReadsStrings (readStr : ℕ → Prog Char (Option CString)) : Prop :=
  ∀ (maxLen : ℕ) (s : CString) (l : List Char), s.length < maxLen → s.length < 256 ^ 4 →
    (readStr maxLen).run (stringBytes s ++ l) = ⟨some s, [], l⟩

theorem readRow_run {readStr : ℕ → Prog Char (Option CString)} (h : ReadsStrings readStr)
    (r : DownloadListRecord) {l : List Char} :
    (readRow readStr).run (r.bytes ++ l) = ⟨some r, [], l⟩ := by
  have hurl := r.url_lt
  have hdest := r.destPath_lt
  have hstatus := r.status_lt
  have hid (l : List Char) : exact 4 (littleEndian 4 r.id ++ l) = (some (littleEndian 4 r.id), l) :=
    exact_append (length_littleEndian _ _)
  have hprogress (l : List Char) : exact 4 (littleEndian 4 r.progress.toNat ++ l) =
      (some (littleEndian 4 r.progress.toNat), l) := exact_append (length_littleEndian _ _)
  have h1 (l : List Char) : (readStr ipcMaxUrlLen).run (stringBytes r.url ++ l) = ⟨some r.url, [], l⟩ :=
    h _ _ _ hurl (by omega)
  have h2 (l : List Char) : (readStr ipcMaxPathLen).run (stringBytes r.destPath ++ l) =
      ⟨some r.destPath, [], l⟩ := h _ _ _ hdest (by omega)
  have h3 (l : List Char) : (readStr 16).run (stringBytes r.status ++ l) = ⟨some r.status, [], l⟩ :=
    h _ _ _ hstatus (by omega)
  simp only [DownloadListRecord.bytes, List.append_assoc]
  simp [readRow, hid, h1, h2, h3, hprogress, r.ofWire_self]

/-- All rows are read; the first of them, as far as there is room, are kept. -/
theorem readRows_run {readStr : ℕ → Prog Char (Option CString)} (h : ReadsStrings readStr)
    {max : ℕ} {rows out : List DownloadListRecord} {l : List Char} (hout : out.length ≤ max) :
    (readRows readStr max rows.length out).run (rows.flatMap DownloadListRecord.bytes ++ l) =
      ⟨some ((out ++ rows).take max), [], l⟩ := by
  induction rows generalizing out with
  | nil => simp [readRows, List.take_of_length_le hout]
  | cons r rows ih =>
    rw [List.flatMap_cons, List.append_assoc, List.length_cons, readRows]
    simp only [Prog.run_bind, readRow_run h, List.nil_append]
    split_ifs with hmax
    · rw [ih (by rw [List.length_append, List.length_singleton]; omega)]
      simp
    · -- There is no room left: what is kept stays as it is.
      have hfull : out.length = max := by omega
      rw [ih hout, List.take_left' hfull, List.take_left' hfull]

theorem readsStrings_readString : ReadsStrings readString :=
  fun _ _ _ h h32 => readString_run h h32

theorem readsStrings_readStringLocal : ReadsStrings readStringLocal :=
  fun _ _ _ h h32 => readStringLocal_run h h32

/-- What the clients make of the rows sent: all of the bytes are read, and nothing more. -/
theorem clients_run {rows : List DownloadListRecord} (hrows : rows.length ≤ 200) {max : ℤ}
    (hmax : 1 ≤ max) (l : List Char) :
    (ipcSendListAll max).run (listBytes rows ++ l) =
        ⟨some (rows.take max.toNat), listAllHeader.bytes, l⟩ ∧
      guiClientListAll.run (listBytes rows ++ l) = ⟨some rows, listAllHeader.bytes, l⟩ := by
  have hcount : exact 4 (listBytes rows ++ l) =
      (some (littleEndian 4 rows.length), rows.flatMap DownloadListRecord.bytes ++ l) := by
    rw [listBytes, List.append_assoc]
    exact exact_append (length_littleEndian _ _)
  have hvalue : value (littleEndian 4 rows.length) = rows.length :=
    value_littleEndian_of_lt (by omega)
  constructor
  · rw [ipcSendListAll, if_neg (by omega)]
    simp [hcount, hvalue, readRows_run readsStrings_readString]
  · have hlt : ¬ 2147483648 ≤ rows.length := by omega
    simp [guiClientListAll, hcount, hvalue, hlt, readRows_run readsStrings_readStringLocal]

/-- The rows of a list are those of the highest identifiers, the highest first. -/
theorem Sqlite.newestRows_spec (t : Sqlite) (max : ℕ) :
    (t.newestRows max).length = min t.downloads.length max ∧
      (t.newestRows max).Pairwise (fun a b => b.id ≤ a.id) ∧
      ∃ older, (t.newestRows max ++ older).Perm t.downloads ∧
        ∀ a ∈ t.newestRows max, ∀ b ∈ older, b.id ≤ a.id := by
  have hsorted : (t.downloads.insertionSort fun a b => b.id ≤ a.id).Pairwise fun a b => b.id ≤ a.id :=
    List.pairwise_insertionSort (fun a b : DownloadCols => b.id ≤ a.id) t.downloads
  have hsplit := List.take_append_drop max (t.downloads.insertionSort fun a b => b.id ≤ a.id)
  rw [← hsplit, List.pairwise_append] at hsorted
  refine ⟨?_, hsorted.1, _, ?_, hsorted.2.2⟩
  · rw [newestRows, List.length_take, List.length_insertionSort, min_comm]
  · rw [newestRows, hsplit]
    exact List.perm_insertionSort _ _

/-- The list of downloads is decoded exactly: both clients read the rows the daemon
    computed for the downloads of the highest identifiers, one of them as many as it asks
    for, and each reads what was written and no more. -/
theorem listAll_decoded (ratio : ℕ → ℕ → BitVec 32) (s : Store) (t : Sqlite) (max : ℤ)
    (hmax : 1 ≤ max) (l l' : List Char) :
    ((t.newestRows 200).length = min t.downloads.length 200 ∧
      (t.newestRows 200).Pairwise (fun a b => b.id ≤ a.id) ∧
      ∃ older, (t.newestRows 200 ++ older).Perm t.downloads ∧
        ∀ a ∈ t.newestRows 200, ∀ b ∈ older, b.id ≤ a.id) ∧
    (let sent := ((handleListAll ratio s t).run l').written
     let rows := (t.newestRows 200).map fun r => listedRow ratio s r.listRow
     (ipcSendListAll max).run (sent ++ l) = ⟨some (rows.take max.toNat), listAllHeader.bytes, l⟩ ∧
       guiClientListAll.run (sent ++ l) = ⟨some rows, listAllHeader.bytes, l⟩) := by
  refine ⟨t.newestRows_spec 200, ?_⟩
  have hrows : (t.newestRows 200).map (fun r => listedRow ratio s r.listRow) =
      listedRows ratio s t := by
    rw [listedRows, Sqlite.dbVisitDownloads, List.map_map]
    rfl
  simp only [run_handleListAll, hrows]
  exact clients_run length_listedRows_le hmax l

/-- Two downloads stored, and a client that has room for one. -/
theorem listAll_decoded_two :
    let t := ((⟨[], []⟩ : Sqlite).dbInsertDownload 1 ['a'] ['b'] none).dbInsertDownload 2 ['c'] ['d'] none
    let s : Store := ⟨[], 3, fun _ => none, ⟨[], []⟩, [], []⟩
    let rows := (t.newestRows 200).map fun r => listedRow (fun _ _ => 0) s r.listRow
    (rows.map (·.id) = [2, 1]) ∧
    (ipcSendListAll 1).run (((handleListAll (fun _ _ => 0) s t).run []).written ++ ['x']) =
      ⟨some (rows.take 1), listAllHeader.bytes, ['x']⟩ :=
  ⟨by decide, (listAll_decoded (fun _ _ => 0) _ _ 1 (by decide) ['x'] []).2.1⟩

end Cdm
