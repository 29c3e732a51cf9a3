import Cdm.Engine.World
import Cdm.Lib.ListUpdate

/-!
# The queue of downloads

`core/queue_manager.c`: the list of the downloads the daemon knows, its head first, and
the operations on it, each of which takes the lock once. An operation looks for the
first entry with an identifier. The queue is kept together with what it shares with
the worker threads, the file system and the database (`Store`).

Identifiers are natural numbers: the counter of the source has 32 bits, and does not
come round. A path is a name of its own: no two paths name one file.
-/

namespace Cdm

/-- The queue, the file system and the database. -/
structure Store where
  /-- The downloads, the last added first (`g_head`). -/
  queue : List Download
  nextId : ℕ
  files : CString → Option File
  db : Db
  /-- The paths unlinked in the current step. -/
  unlinked : List CString
  /-- The status messages sent to the clients. -/
  sent : List (ℕ × String)

namespace Store

variable {s : Store} {id id' : ℕ} {f : Download → Download}

/-- The entry with an identifier (`queue_manager_find_by_id`). -/
def get (s : Store) (id : ℕ) : Option Download := s.queue.find? (·.id = id)

/-- Changing the entry with an identifier. -/
def modify (s : Store) (id : ℕ) (f : Download → Download) : Store :=
  { s with queue := s.queue.modifyFirst (·.id = id) f }

/-- Running a statement. -/
def query (s : Store) (q : DbStmt) : Store := { s with db := s.db.exec q }

/-- Removing the file at a path. -/
def unlink (s : Store) (path : CString) : Store :=
  { s with files := Function.update s.files path none, unlinked := s.unlinked ++ [path] }

/-- The beginning of a step. -/
def fresh (s : Store) : Store := { s with unlinked := [] }

theorem get_id {d : Download} (h : s.get id = some d) : d.id = id := by
  simpa using List.find?_some h

theorem mem_of_get {d : Download} (h : s.get id = some d) : d ∈ s.queue := List.mem_of_find?_eq_some h

/-- In a queue of distinct identifiers, every entry is the one its identifier finds. -/
theorem get_of_mem {d : Download} (hs : (s.queue.map (·.id)).Nodup) (hd : d ∈ s.queue) :
    s.get d.id = some d := List.find?_key_of_mem hs hd

theorem get_isSome : (s.get id).isSome ↔ id ∈ s.queue.map (·.id) := by
  simp [get, List.find?_isSome]

theorem get_modify (hf : ∀ d, d.id = id → (f d).id = id) :
    (s.modify id f).get id' = if id' = id then (s.get id').map f else s.get id' := by
  rw [get, modify]
  split_ifs with h
  · subst h
    exact List.find?_modifyFirst fun d hd => by simpa using hf d (by simpa using hd)
  · refine List.find?_modifyFirst_of_not fun d hd => ?_
    have hid : d.id = id := by simpa using hd
    simp [hid, hf d hid, Ne.symm h]

theorem get_modify_self (hf : ∀ d, d.id = id → (f d).id = id) :
    (s.modify id f).get id = (s.get id).map f := by
  rw [get_modify hf, if_pos rfl]

theorem get_modify_of_get {d : Download} (hf : ∀ d, d.id = id → (f d).id = id)
    (hd : s.get id = some d) : (s.modify id f).get id = some (f d) := by
  rw [get_modify_self hf, hd]
  rfl

theorem get_modify_of_ne (hf : ∀ d, d.id = id → (f d).id = id) (h : id' ≠ id) :
    (s.modify id f).get id' = s.get id' := by
  rw [get_modify hf, if_neg h]

theorem ids_modify (hf : ∀ d, d.id = id → (f d).id = id) :
    (s.modify id f).queue.map (·.id) = s.queue.map (·.id) :=
  List.map_modifyFirst fun d hd => by
    have hid : d.id = id := by simpa using hd
    rw [hf d hid, hid]

end Store

/-! ## Adding and removing -/

/-- The checks made on a destination: it is not empty, nor too long, and its directory
    is found to lie in the allowed root (`inRoot`). -/
def isSafeDestPath (path : CString) (inRoot : Bool) : Bool :=
  path ≠ [] && path.length < 900 && inRoot

/-- How the system answers an add. -/
structure AddIo where
  /-- The directory of the destination resolves to one in the allowed root. -/
  inRoot : Bool
  /-- There is no memory for the entry. -/
  noMemory : Bool
  deriving DecidableEq

/-- The entry of a download just added. -/
def newDownload (id : ℕ) (url destPath : CString) (opts : RequestOptions) : Download :=
  { Download.zero with
    id := id
    url := url
    destPath := destPath
    request := if requestOptionsPresent opts then some opts else none }

/-- Adding a download; `0` if it is refused. -/
def queueManagerAdd (s : Store) (url destPath : CString) (opts : RequestOptions) (io : AddIo) :
    Store × ℕ :=
  if isSafeDestPath destPath io.inRoot = false || io.noMemory then (s, 0)
  else
    ({ s with queue := newDownload s.nextId url destPath opts :: s.queue, nextId := s.nextId + 1 },
      s.nextId)

/-- Adding a download restored from the database. -/
def queueManagerAddExisting (s : Store) (d : Download) : Store :=
  { s with queue := d :: s.queue, nextId := if s.nextId ≤ d.id then d.id + 1 else s.nextId }

def queueManagerSeedNextId (s : Store) (minNextId : ℕ) : Store :=
  { s with nextId := if s.nextId < minNextId then minNextId else s.nextId }

/-- Removing a download, with its file; an active one is asked to cancel instead. -/
def queueManagerRemove (s : Store) (id : ℕ) : Store :=
  match s.get id with
  | none => s
  | some d =>
    if d.status = .active then s.modify id fun d => { d with cancelRequested := true }
    else
      let s := { s with queue := s.queue.eraseP (·.id = id) }
      if d.destPath ≠ [] then s.unlink d.destPath else s

/-! ## Queries -/

def queueManagerGetStatus (s : Store) (id : ℕ) : Option DownloadStatus := (s.get id).map (·.status)

/-- The queued download to run next: of the highest priority, not waiting for a retry,
    the first of them. -/
def queueManagerFindNextQueued (s : Store) (now : ℕ) : Option Download :=
  s.queue.foldl (fun best cur =>
    if cur.status ≠ .queued then best
    else if cur.nextRetryAt ≠ 0 ∧ now < cur.nextRetryAt then best
    else
      match best with
      | none => some cur
      -- Of equal priorities the first is kept, which was added last.
      | some b => if b.priority < cur.priority then some cur else best) none

def queueManagerCountByStatus (s : Store) (status : DownloadStatus) : ℕ :=
  s.queue.countP (·.status = status)

/-- The progress of a chunk, as it is about to be stored. -/
structure ChunkProgressSnapshot where
  downloadId : ℕ
  rangeStart : ℕ
  bytesDone : ℕ
  deriving DecidableEq

/-- The live counters of the chunks of the active downloads, at most `max` of them. -/
def queueManagerSnapshotChunkProgress (s : Store) (max : ℕ) : List ChunkProgressSnapshot :=
  ((s.queue.filter (·.status = .active)).flatMap fun d =>
    d.chunks.mapIdx fun j c => ⟨d.id, c.rangeStart, d.chunkLiveBytes j⟩).take max

theorem queueManagerFindNextQueued_spec {s : Store} {now : ℕ} {d : Download}
    (h : queueManagerFindNextQueued s now = some d) : d ∈ s.queue ∧ d.status = .queued := by
  -- The best entry so far is a queued one of those passed.
  suffices ∀ (q : List Download) (best : Option Download), q ⊆ s.queue →
      (∀ b ∈ best, b ∈ s.queue ∧ b.status = .queued) →
      ∀ b ∈ q.foldl (fun best cur =>
        if cur.status ≠ .queued then best
        else if cur.nextRetryAt ≠ 0 ∧ now < cur.nextRetryAt then best
        else
          match best with
          | none => some cur
          | some b => if b.priority < cur.priority then some cur else best) best,
        b ∈ s.queue ∧ b.status = .queued from
    this s.queue none (fun _ h => h) (fun _ h => by cases h) d h
  intro q
  induction q with
  | nil => exact fun best _ hbest => hbest
  | cons e q ih =>
    intro best hq hbest
    rw [List.foldl_cons]
    refine ih _ (fun _ h => hq (List.mem_cons_of_mem _ h)) fun b hb => ?_
    split_ifs at hb with h₁ h₂
    · exact hbest b hb
    · exact hbest b hb
    · have he : e ∈ s.queue ∧ e.status = .queued :=
        ⟨hq List.mem_cons_self, by simpa using h₁⟩
      split at hb
      · cases hb
        exact he
      · split_ifs at hb
        · cases hb
          exact he
        · exact hbest b hb

/-! ## Control -/

/-- An active download is asked to cancel; any other is canceled at once. -/
def Download.cancel (d : Download) : Download :=
  match d.status with
  | .active => { d with cancelRequested := true }
  | _ => { d with status := .canceled }

/-- An active download is asked to pause; a queued one is paused at once. -/
def Download.pause (d : Download) : Download :=
  match d.status with
  | .active => { d with pauseRequested := true }
  | .queued => { d with status := .paused }
  | _ => d

/-- A paused or failed download is queued again. -/
def Download.resume (d : Download) : Download :=
  match d.status with
  | .paused | .error =>
    { d with
      pauseRequested := false
      cancelRequested := false
      retryCount := 0
      nextRetryAt := 0
      status := .queued }
  | _ => d

/-- What a download knows of an earlier transfer is discarded. -/
def Download.clearResumeState (d : Download) : Download :=
  { d with
    chunks := []
    totalSize := 0
    retryCount := 0
    nextRetryAt := 0
    bytesDownloaded := 0
    chunkLiveBytes := fun _ => 0 }

def queueManagerUpdateStatus (s : Store) (id : ℕ) (status : DownloadStatus) : Store :=
  s.modify id fun d => { d with status := status }

def queueManagerClearResumeState (s : Store) (id : ℕ) : Store :=
  s.modify id Download.clearResumeState

/-- The download with an identifier is active. -/
def Store.isActive (s : Store) (id : ℕ) : Bool := queueManagerGetStatus s id = some .active

/-- Canceling a download; tells whether it was active. -/
def queueManagerCancel (s : Store) (id : ℕ) : Store × Bool :=
  (s.modify id Download.cancel, s.isActive id)

/-- Pausing a download; tells whether it was active. -/
def queueManagerPause (s : Store) (id : ℕ) : Store × Bool :=
  (s.modify id Download.pause, s.isActive id)

/-- Resuming a download; tells whether it was. -/
def queueManagerResume (s : Store) (id : ℕ) : Store × Bool :=
  (s.modify id Download.resume,
    queueManagerGetStatus s id = some .paused || queueManagerGetStatus s id = some .error)

@[simp] theorem Download.cancel_id (d : Download) : d.cancel.id = d.id := by
  rw [cancel]
  split <;> rfl

@[simp] theorem Download.pause_id (d : Download) : d.pause.id = d.id := by
  rw [pause]
  split <;> rfl

@[simp] theorem Download.resume_id (d : Download) : d.resume.id = d.id := by
  rw [resume]
  split <;> rfl

@[simp] theorem Download.clearResumeState_id (d : Download) : d.clearResumeState.id = d.id := rfl

/-! ## Operations

What a thread does with the lock taken once, with a call to the database or the file
system, or with a message to the clients, is an operation: the threads interleave
between operations. -/

inductive Op
  /-- A finished download forgets its chunks, and its retries. -/
  | finished
  | setRetry (count nextAt : ℕ)
  | clearResumeState
  | deleteChunks
  | updateTotalSize (size : ℕ)
  | unlink (path : CString)
  | dbUpdateStatus (status : String)
  | broadcast (text : String)
  deriving DecidableEq

/-- Performing an operation on a download. -/
def Op.exec (id : ℕ) (s : Store) : Op → Store
  | .finished => s.modify id fun d => { d with chunks := [], retryCount := 0, nextRetryAt := 0 }
  | .setRetry count nextAt => s.modify id fun d => { d with retryCount := count, nextRetryAt := nextAt }
  | .clearResumeState => queueManagerClearResumeState s id
  | .deleteChunks => s.query (.deleteChunks id)
  | .updateTotalSize size => s.query (.updateTotalSize id size)
  | .unlink path => s.unlink path
  | .dbUpdateStatus status => s.query (.updateStatus id status)
  | .broadcast text => { s with sent := s.sent ++ [(id, text)] }

/-- What a cancel discards: the resume state of the download, its chunks and its file. -/
def discardOps (path : CString) : List Op :=
  [.clearResumeState, .deleteChunks, .updateTotalSize 0] ++
    (if path ≠ [] then [.unlink path] else []) ++ [.dbUpdateStatus "CANCELED"]

theorem unlink_mem_discardOps {p path : CString} : .unlink p ∈ discardOps path ↔ path ≠ [] ∧ p = path := by
  rw [discardOps]
  split_ifs with h <;> simp [h]

end Cdm
