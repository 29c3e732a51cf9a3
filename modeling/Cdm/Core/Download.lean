import Mathlib.Tactic

/-!
# Downloads

The data model of the queue (`core/queue_manager.h`). A download carries its
request, its control flags, the counters the transfer threads add to, and the
table of its *chunks*: the byte ranges it is fetched in, each with the number of
bytes done.

The chunk table is an array of `qmMaxChunks` entries with a count; it is a list
here, whose length is the count. Offsets and counters are natural numbers: sizes
come from a signed 64-bit content length, so that sums of two of them do not wrap.
The fields of the source that no modelled function reads (`progress`, the list
link) are left out.
-/

namespace Cdm

/-- A byte string of the source, without its terminator, a character for a byte. -/
abbrev CString := List Char

/-- The entries of the chunk table (`QM_MAX_CHUNKS`). -/
def qmMaxChunks : ℕ := 8

/-- The options of a request, supplied by the user. -/
structure RequestOptions where
  cookie : CString
  referrer : CString
  extraHeaders : CString
  /-- The expected digest, empty for no check. -/
  expectedSha256 : CString
  speedLimitBps : ℕ
  deriving DecidableEq

/-- A chunk: its range, both ends included, and its bytes done. -/
structure DownloadChunk where
  rangeStart : ℕ
  rangeEnd : ℕ
  bytesDone : ℕ
  deriving DecidableEq

/-- The number of bytes of a chunk. -/
def DownloadChunk.size (c : DownloadChunk) : ℕ := c.rangeEnd + 1 - c.rangeStart

/-- A chunk is complete once its bytes done reach its size. -/
def chunkIsComplete (c : DownloadChunk) : Bool := c.size ≤ c.bytesDone

theorem chunkIsComplete_eq_true {c : DownloadChunk} :
    chunkIsComplete c = true ↔ c.rangeEnd < c.rangeStart + c.bytesDone := by
  rw [chunkIsComplete, decide_eq_true_eq, DownloadChunk.size]
  omega

theorem chunkIsComplete_eq_false {c : DownloadChunk} :
    chunkIsComplete c = false ↔ c.rangeStart + c.bytesDone ≤ c.rangeEnd := by
  rw [← Bool.not_eq_true, chunkIsComplete_eq_true, not_lt]

inductive DownloadStatus
  | queued
  | active
  | paused
  | done
  | error
  | canceled
  deriving DecidableEq

/-- The name of a status, as stored in the database and sent to clients. -/
def statusToString : DownloadStatus → String
  | .queued => "QUEUED"
  | .active => "ACTIVE"
  | .paused => "PAUSED"
  | .done => "DONE"
  | .error => "ERROR"
  | .canceled => "CANCELED"

/-- An entry of the queue. -/
structure Download where
  id : ℕ
  url : CString
  destPath : CString
  /-- The size of the resource, `0` if unknown. -/
  totalSize : ℕ
  status : DownloadStatus
  priority : ℤ
  cancelRequested : Bool
  pauseRequested : Bool
  bytesDownloaded : ℕ
  /-- The live counters of the chunks, an array of `qmMaxChunks` entries. -/
  chunkLiveBytes : ℕ → ℕ
  chunks : List DownloadChunk
  /-- The destination was claimed as an empty file when the download was added. -/
  reservedFile : Bool
  retryCount : ℕ
  /-- The time before which the download is not retried, `0` for none. -/
  nextRetryAt : ℕ
  request : Option RequestOptions

/-- The digest the request expects, empty for none. -/
def Download.expectedSha256 (d : Download) : CString :=
  match d.request with
  | some r => r.expectedSha256
  | none => []

/-- A download just allocated: every field zero. -/
def Download.zero : Download where
  id := 0
  url := []
  destPath := []
  totalSize := 0
  status := .queued
  priority := 0
  cancelRequested := false
  pauseRequested := false
  bytesDownloaded := 0
  chunkLiveBytes := fun _ => 0
  chunks := []
  reservedFile := false
  retryCount := 0
  nextRetryAt := 0
  request := none

end Cdm
