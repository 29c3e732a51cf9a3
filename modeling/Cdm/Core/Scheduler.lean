import Cdm.Core.QueueManager
import Cdm.Engine.Runner

/-!
# The scheduler

`core/scheduler.c`: a worker thread runs the engine on a download, looks at the flags
of the download, and settles the result (`download_thread_fn`). How it does is its
`Outcome`: what it does before it publishes the new status of the download, that
status, and what it does afterwards. On a tick the daemon thread starts a worker for
the next queued download, if not too many are active.
-/

namespace Cdm

/-- The settings the scheduler reads. -/
structure Config where
  maxConcurrentDownloads : ℤ
  retryMaxAttempts : ℤ
  retryBaseDelaySec : ℤ
  retryMaxDelaySec : ℤ
  deriving DecidableEq

/-- The delay before the retry `attempt`, in seconds: doubled with every attempt, in the
    32 bits of an `int`, up to a maximum. -/
def retryBackoffSeconds (cfg : Config) (attempt : ℕ) : ℤ :=
  let shift := min (attempt - 1) 30
  let delay := (BitVec.ofInt 32 cfg.retryBaseDelaySec <<< shift).toInt
  if cfg.retryMaxDelaySec < delay ∨ delay < 0 then cfg.retryMaxDelaySec else delay

/-! ## The result of a run -/

/-- How a worker settles the result of its run. -/
structure Outcome where
  before : List Op
  status : DownloadStatus
  after : List Op
  deriving DecidableEq

/-- The download is finished. -/
def doneOutcome : Outcome :=
  ⟨[.finished, .deleteChunks], .done, [.dbUpdateStatus "DONE", .broadcast "Done"]⟩

/-- The download is canceled: what was transferred is discarded. -/
def canceledOutcome (d : Download) : Outcome :=
  ⟨discardOps d.destPath, .canceled, [.broadcast "Canceled"]⟩

def pausedOutcome : Outcome := ⟨[], .paused, [.dbUpdateStatus "PAUSED", .broadcast "Paused"]⟩

/-- The download has failed, and is not retried. -/
def errorOutcome (text : String) : Outcome :=
  ⟨[.setRetry 0 0], .error, [.dbUpdateStatus "ERROR", .broadcast text]⟩

/-- The download is queued again, to be retried at a later time. -/
def retryOutcome (cfg : Config) (d : Download) (now : ℕ) : Outcome :=
  ⟨[.setRetry (d.retryCount + 1) (now + retryBackoffSeconds cfg (d.retryCount + 1)).toNat], .queued,
    [.dbUpdateStatus "QUEUED", .broadcast "Retrying"]⟩

/-- The outcome of a run that returned `rc`, from the flags found after it. -/
def outcome (cfg : Config) (d : Download) (now : ℕ) (rc : ℤ) (canceled paused : Bool) : Outcome :=
  -- A file that is complete is finished, whatever was requested in the meantime.
  if rc = 0 then doneOutcome
  else if canceled then canceledOutcome d
  else if paused then pausedOutcome
  else if rc = -2 then errorOutcome "Verification failed"
  -- The destination is there already, or the file to resume is missing.
  else if rc = -3 ∨ rc = -4 then errorOutcome "Error"
  else if (d.retryCount : ℤ) < cfg.retryMaxAttempts then retryOutcome cfg d now
  else errorOutcome "Error"

/-- The outcome is that of a finished download, of a canceled one, or of one that was
    stopped otherwise. -/
theorem outcome_cases (cfg : Config) (d : Download) (now : ℕ) (rc : ℤ) (canceled paused : Bool) :
    (rc = 0 ∧ outcome cfg d now rc canceled paused = doneOutcome) ∨
      (rc ≠ 0 ∧ canceled = true ∧ outcome cfg d now rc canceled paused = canceledOutcome d) ∨
      (rc ≠ 0 ∧ canceled = false ∧ (outcome cfg d now rc canceled paused = pausedOutcome ∨
        (∃ text, outcome cfg d now rc canceled paused = errorOutcome text) ∨
        outcome cfg d now rc canceled paused = retryOutcome cfg d now)) := by
  rw [outcome]
  by_cases h₀ : rc = 0
  · exact .inl ⟨h₀, if_pos h₀⟩
  · rw [if_neg h₀]
    cases canceled with
    | true => exact .inr (.inl ⟨h₀, rfl, if_pos rfl⟩)
    | false =>
      refine .inr (.inr ⟨h₀, rfl, ?_⟩)
      rw [if_neg (by decide)]
      split_ifs
      · exact .inl rfl
      · exact .inr (.inl ⟨_, rfl⟩)
      · exact .inr (.inl ⟨_, rfl⟩)
      · exact .inr (.inr rfl)
      · exact .inr (.inl ⟨_, rfl⟩)

/-- Only a cancel unlinks a file, that of its download. -/
theorem unlink_outcome {cfg : Config} {d : Download} {now : ℕ} {rc : ℤ} {canceled paused : Bool}
    {p : CString} : (.unlink p ∈ (outcome cfg d now rc canceled paused).before → p = d.destPath) ∧
      .unlink p ∉ (outcome cfg d now rc canceled paused).after := by
  rcases outcome_cases cfg d now rc canceled paused with
    ⟨-, h⟩ | ⟨-, -, h⟩ | ⟨-, -, h | ⟨text, h⟩ | h⟩ <;> rw [h]
  · simp [doneOutcome]
  · refine ⟨fun hmem => (unlink_mem_discardOps.1 hmem).2, ?_⟩
    simp [canceledOutcome]
  · simp [pausedOutcome]
  · simp [errorOutcome]
  · simp [retryOutcome]

/-! ## Worker threads -/

/-- Where a worker thread is. -/
inductive ThreadPc
  /-- The engine runs. -/
  | engine (pc : Pc)
  /-- The engine has returned `rc`, and the cancel flag has been read. -/
  | sampled (rc : ℤ) (canceled : Bool)
  /-- The status is not published yet. -/
  | settling (o : Outcome)
  /-- The status is published. -/
  | leaving (ops : List Op)
  | done

/-- A worker in use. -/
structure SchedulerWorker where
  downloadId : ℕ
  pc : ThreadPc

def schedulerMaxWorkers : ℕ := 64

inductive ThreadAct
  | engine (a : EngineAct)
  | loadCancel
  /-- The pause flag is read, at a time. -/
  | loadPause (now : ℕ)
  /-- The next operation of the outcome. -/
  | next

/-- An effect that unlinks the destination. -/
def Effect.isUnlink : Effect → Bool
  | .unlink => true
  | _ => false

/-- A step of the engine on the entry `d`. -/
def Store.engineStep (R : CString → ℕ → UInt8) (s : Store) (d : Download) (pc : Pc)
    (a : EngineAct) : Option (Store × Pc) :=
  (Cdm.engineStep (R d.url) ⟨⟨d, ⟨s.files d.destPath, s.db⟩, []⟩, pc⟩ a).map fun e =>
    ({ s.modify d.id fun _ => e.w.d with
        files := Function.update s.files d.destPath e.w.disk.file
        db := e.w.disk.db
        unlinked := if e.w.log.any Effect.isUnlink then [d.destPath] else [] }, e.pc)

/-- A step of the thread that works on the entry `d`, in the state `pc`. The call of the
    engine is made at the start, and only then. -/
def threadStep (R : CString → ℕ → UInt8) (cfg : Config) (s : Store) (d : Download) :
    ThreadPc → ThreadAct → Option (Store × ThreadPc)
  | .engine _, .engine .call => none
  | .engine pc, .engine a => (s.engineStep R d pc a).map fun x => (x.1, .engine x.2)
  -- The flags are read once each, and not looked at again.
  | .engine (.idle (some rc)), .loadCancel => some (s, .sampled rc d.cancelRequested)
  | .sampled rc canceled, .loadPause now =>
    some (s, .settling (outcome cfg d now rc canceled d.pauseRequested))
  | .settling ⟨op :: ops, status, after⟩, .next =>
    some (op.exec d.id s, .settling ⟨ops, status, after⟩)
  | .settling ⟨[], status, after⟩, .next =>
    some (queueManagerUpdateStatus s d.id status, .leaving after)
  | .leaving (op :: ops), .next => some (op.exec d.id s, .leaving ops)
  | .leaving [], .next => some (s, .done)
  | _, _ => none

/-! ## The daemon thread -/

/-- A worker in use whose thread has ended. -/
def SchedulerWorker.isDone (w : SchedulerWorker) : Bool :=
  match w.pc with
  | .done => true
  | _ => false

/-- The workers whose threads have ended are free again. -/
def reapFinishedWorkers (ws : List (Option SchedulerWorker)) : List (Option SchedulerWorker) :=
  ws.map fun w => w.filter (!·.isDone)

/-- The next download to run is made active, unless enough are. -/
def schedulerPick (cfg : Config) (s : Store) (now : ℕ) : Store × Option ℕ :=
  if (queueManagerCountByStatus s .active : ℤ) < cfg.maxConcurrentDownloads then
    match queueManagerFindNextQueued s now with
    | none => (s, none)
    | some d => (s.modify d.id fun d => { d with status := .active, nextRetryAt := 0 }, some d.id)
  else (s, none)

/-- The index of a free worker. -/
def freeWorker (ws : List (Option SchedulerWorker)) : Option ℕ := ws.findIdx? (·.isNone)

/-- Starting a worker for the download picked; if there is none, or its thread is not
    created, the download is queued again. -/
def schedulerStart (s : Store) (ws : List (Option SchedulerWorker)) (id : ℕ) (created : Bool) :
    Store × List (Option SchedulerWorker) :=
  match freeWorker ws, created with
  | some k, true => (s, ws.set k (some ⟨id, .engine .entered⟩))
  | _, _ => (queueManagerUpdateStatus s id .queued, ws)

end Cdm
