import Cdm.Engine.WorkerPool

/-!
# The engine

`engine/engine_runner.c`: a call of `engine_run_download` on a download. It probes
the resource, plans the ranges to fetch, freshly or from the chunks recorded by an
earlier call, runs the worker pool on them, records the progress of the chunks, and
verifies the file. If the parallel transfer fails, it tries once more with a single
connection.

A call is a sequence of steps of the thread that runs it (`Pc`), interleaved, while
the pool runs, with the steps of the worker threads (`PoolAct`): a callback, the
judgement of a segment, marking a slot and acquiring one are each a single step.
What the system, the server and the other threads do is in the actions.
-/

namespace Cdm

/-- What the `HEAD` request tells: the size, `0` if unknown, and the range support. -/
structure FileInfo where
  totalSize : UInt64
  supportsRanges : Bool
  deriving DecidableEq

/-- Only `http` and `https` are allowed. -/
def isValidUrl (url : CString) : Bool :=
  "http://".toList.isPrefixOf url || "https://".toList.isPrefixOf url

/-- Discarding the chunks of a download, and its file if `alsoDeleteFile`. -/
def clearResumeState (w : World) (alsoDeleteFile : Bool) : World :=
  let w := { w with d := { w.d with
    chunks := []
    totalSize := 0
    bytesDownloaded := 0
    chunkLiveBytes := fun _ => 0 } }
  let w := (w.query (.deleteChunks w.d.id)).query (.updateTotalSize w.d.id 0)
  if alsoDeleteFile && w.d.destPath ≠ [] then w.emit .unlink else w

/-! ## Splits -/

/-- Shrinking the record of the chunk that starts where the victim does. -/
def shrinkVictim (w : World) (victimStart newStart : ℕ) : World :=
  match w.d.chunks.findIdx? (·.rangeStart = victimStart) with
  | none => w
  | some j =>
    World.query { w with d := { w.d with
      chunks := w.d.chunks.modify j fun c => { c with rangeEnd := newStart - 1 } } }
      (.updateChunkRange w.d.id victimStart (newStart - 1))

/-- Recording a chunk after the others. -/
def appendChunk (w : World) (rangeStart rangeEnd : ℕ) : World :=
  World.query { w with d := { w.d with
    chunks := w.d.chunks ++ [⟨rangeStart, rangeEnd, 0⟩]
    chunkLiveBytes := Function.update w.d.chunkLiveBytes w.d.chunks.length 0 } }
    (.insertChunk w.d.id rangeStart rangeEnd)

/-- The callback of the pool when it hands the tail `[newStart, newEnd)` of a slot to
    another worker: the record of the victim is shrunk and, if the table has room, the
    tail is recorded, with its counter under the index of its record. -/
def onRebalanceSplit (w : World) (progressSlots : ℕ → Option ℕ) (victimStart newStart newEnd : ℕ) :
    World × (ℕ → Option ℕ) :=
  let w := shrinkVictim w victimStart newStart
  if qmMaxChunks ≤ w.d.chunks.length then (w, progressSlots)
  else
    (appendChunk w newStart (newEnd - 1),
      Function.update progressSlots w.d.chunks.length (some w.d.chunks.length))

/-- The worker `i` looks for more to do: an orphaned slot, or the tail of the busiest
    one, whose counter is read under the index of the new slot. -/
def rebalancePoolAcquire (w : World) (run : PoolRun) (p : RebalancePool) (i : ℕ) :
    World × PoolRun :=
  match p.orphan with
  | some (s, k) =>
    (w, PoolRun.assign { run with pool := some (p.claim k) } i k s.writePos s.liveEnd
      s.progressSlot)
  | none =>
    match p.victim with
    | none => (w, run.setPhase i (.ended true))
    | some (s, v) =>
      let k := p.slots.length
      let (w, slots) := onRebalanceSplit w run.progressSlots s.start s.middle s.liveEnd
      (w, PoolRun.assign { run with pool := some (p.split s v (slots k)), progressSlots := slots }
        i k s.middle s.liveEnd (slots k))

/-! ## Steps of the pool -/

inductive WorkerAct
  /-- The handle for a transfer is not created. -/
  | initFails
  /-- The request is answered. -/
  | answer (a : Answer)
  /-- `n` more bytes arrive, of which the system writes at most `wrote`. -/
  | data (n wrote : ℕ)
  /-- The transfer is over, without an error if `res`. -/
  | finish (res : Bool)
  | markDone
  | acquire

/-- A step of the worker `i`, whose context is `c`. -/
def workerStep (R : ℕ → UInt8) (w : World) (run : PoolRun) (i : ℕ) (c : WorkerContext) :
    WorkerAct → Option (World × PoolRun)
  | .initFails =>
    match c.phase with
    | .request => some (w, run.setPhase i (.ended false))
    | _ => none
  | .answer a =>
    match c.phase with
    | .request => some (w, run.setPhase i (.transfer a 0))
    | _ => none
  | .data n wrote =>
    match c.phase with
    | .transfer a pos =>
      if pos + n ≤ a.len then some (workerWriteCallback R w run i c a pos n wrote) else none
    | _ => none
  | .finish res =>
    match c.phase with
    | .transfer a _ =>
      some (w, run.setPhase i (if segmentOk run c a.status res then .segmentDone else .ended false))
    | .aborted a =>
      some (w, run.setPhase i
        (if segmentOk run c a.status false then .segmentDone else .ended false))
    | _ => none
  | .markDone =>
    match c.phase, run.pool with
    | .segmentDone, some p =>
      some (w, { run with pool := some (p.markDone c.slotIndex) }.setPhase i .idle)
    -- Without a pool, a worker has a single segment.
    | .segmentDone, none => some (w, run.setPhase i (.ended true))
    | _, _ => none
  | .acquire =>
    match c.phase, run.pool with
    | .idle, some p => some (rebalancePoolAcquire w run p i)
    | _, _ => none

inductive PoolAct
  /-- Creating the next thread, which fails unless `ok`. -/
  | spawn (ok : Bool)
  | worker (i : ℕ) (a : WorkerAct)

/-- A step of a run of the pool. If a thread is not created, the others are stopped
    through the cancel flag. -/
def poolStep (R : ℕ → UInt8) (w : World) (run : PoolRun) : PoolAct → Option (World × PoolRun)
  | .spawn ok =>
    if run.broken = false ∧ run.spawned < run.contexts.length then
      if ok then
        some (w, { run with spawned := run.spawned + 1 }.setPhase run.spawned .request)
      else
        some ({ w with d := { w.d with cancelRequested := true } }, { run with broken := true })
    else none
  | .worker i a =>
    match run.contexts[i]? with
    | none => none
    | some c => workerStep R w run i c a

/-! ## Planning -/

/-- The range that resumes an incomplete chunk: without range support, a chunk of
    the whole file is fetched again from the start. -/
def resumeRange (info : FileInfo) (c : DownloadChunk) : Range :=
  let forceWholeFile := info.supportsRanges = false ∧ c.rangeStart = 0 ∧
    c.rangeEnd + 1 = info.totalSize.toNat
  { start := c.rangeStart
    last := c.rangeEnd
    resumeOffset := if forceWholeFile then 0 else c.bytesDone
    wholeFile := forceWholeFile }

/-- The ranges of the incomplete chunks of a table, the first of which has the index
    `i`, each with the index of its chunk. (The table has no more entries than there
    may be ranges.) -/
def resumeRanges (info : FileInfo) : ℕ → List DownloadChunk → List (ℕ × Range)
  | _, [] => []
  | i, c :: cs =>
    if chunkIsComplete c then resumeRanges info (i + 1) cs
    else (i, resumeRange info c) :: resumeRanges info (i + 1) cs

/-- The bytes a chunk counts as downloaded when it is resumed. -/
def resumedBytes (info : FileInfo) (c : DownloadChunk) : ℕ :=
  if chunkIsComplete c then c.size else (resumeRange info c).resumeOffset

/-- The ranges of a fresh plan. -/
def freshRanges (info : FileInfo) : List Range :=
  if 0 < info.totalSize.toNat ∧ info.supportsRanges = true then
    segmenterPlan info.totalSize (chooseWorkerCount info.totalSize.toNat)
  else [⟨0, if 0 < info.totalSize.toNat then info.totalSize.toNat - 1 else 0, 0, true⟩]

/-- How the system answers the calls made while planning. -/
structure PlanIo where
  alloc : AllocIo
  /-- There is no memory for the rebalance pool. -/
  poolFails : Bool
  /-- The worker pool cannot open the file, or has no memory. -/
  runFails : Bool
  deriving DecidableEq

/-- The threshold under which a slot is not worth stealing from. -/
def stealThreshold : ℕ := 1024 * 1024

/-- The run of the pool on the planned ranges, each with the index of its chunk. -/
def plannedRun (rs : List (ℕ × Range)) (poolFails : Bool) : PoolRun where
  pool := if 1 < rs.length ∧ poolFails = false then some (rebalancePoolCreate rs stealThreshold)
    else none
  progressSlots i := (rs[i]?).map (·.1)
  contexts := rs.mapIdx fun i x => contextOf i (some x.1) x.2
  spawned := 0
  broken := false

/-- The run of the pool on the whole file, with a single connection. -/
def singleRun : PoolRun where
  pool := none
  progressSlots _ := none
  contexts := [contextOf 0 none ⟨0, 0, 0, true⟩]
  spawned := 0
  broken := false

/-- Where the call is. -/
inductive Pc
  /-- No call is running; the last one returned `rc`. -/
  | idle (rc : Option ℤ)
  | entered
  | probing
  | planning (info : FileInfo)
  /-- The pool runs on the planned ranges, `n` of them. -/
  | running (info : FileInfo) (n : ℕ) (run : PoolRun)
  | flushing (info : FileInfo) (n : ℕ) (ok : Bool)
  | deciding (info : FileInfo) (n : ℕ) (ok : Bool)
  /-- The pool runs on the whole file. -/
  | fallback (info : FileInfo) (run : PoolRun)
  | finalizing (info : FileInfo)

/-- The start of the worker pool on the planned ranges. -/
def startPool (w : World) (info : FileInfo) (rs : List (ℕ × Range)) (io : PlanIo) : World × Pc :=
  -- A pool that cannot open its file counts as one that has failed: the progress is flushed.
  if io.runFails || w.disk.file.isNone then (w, .flushing info rs.length false)
  else (w, .running info rs.length (plannedRun rs io.poolFails))

/-- Resuming the recorded chunks. -/
def resumePlan (w : World) (info : FileInfo) (io : PlanIo) : World × Pc :=
  let w := { w with d := { w.d with
    bytesDownloaded := (w.d.chunks.map (resumedBytes info)).sum
    chunkLiveBytes := fun i => ((w.d.chunks[i]?).map (·.bytesDone)).getD (w.d.chunkLiveBytes i) } }
  -- Chunks that are complete are not fetched again.
  let rs := resumeRanges info 0 w.d.chunks
  if rs = [] then (w, .finalizing info) else startPool w info rs io

/-- Recording the ranges of a fresh plan, in place of the chunks there were. -/
def persistPlan (w : World) (rs : List Range) : World :=
  let w := World.query { w with d := { w.d with chunks := [] } } (.deleteChunks w.d.id)
  let w := (rs.take qmMaxChunks).foldl (fun w r => appendChunk w r.start r.last) w
  { w with d := { w.d with bytesDownloaded := 0 } }

/-- Planning afresh. -/
def freshPlan (w : World) (info : FileInfo) (io : PlanIo) : World × Pc :=
  let rs := freshRanges info
  match preallocate w info.totalSize.toNat io.alloc with
  | (w, 0) => startPool (persistPlan w rs) info (rs.mapIdx fun i r => (i, r)) io
  -- The destination is there already.
  | (w, -2) => (w, .idle (some (-3)))
  | (w, _) => (w, .idle (some (-1)))

/-- The recorded chunks do not fit the resource any more. -/
def resumeIsStale (w : World) (info : FileInfo) : Bool :=
  (w.d.totalSize ≠ 0 && info.totalSize.toNat ≠ w.d.totalSize) ||
    info.totalSize.toNat < fileGetSize w.disk.file

/-- Recording the size of the resource. -/
def recordSize (w : World) (info : FileInfo) : World :=
  World.query { w with d := { w.d with totalSize := info.totalSize.toNat } }
    (.updateTotalSize w.d.id info.totalSize.toNat)

/-- Planning: the recorded chunks are resumed, unless there are none; stale ones are
    discarded, with the file. -/
def planDownload (w : World) (info : FileInfo) (io : PlanIo) : World × Pc :=
  if w.d.chunks = [] then freshPlan (recordSize w info) info io
  else if resumeIsStale w info then
    freshPlan (recordSize (clearResumeState w true) info) info io
  else resumePlan (recordSize w info) info io

/-! ## The call -/

/-- Recording the live counters as the progress of the chunks. -/
def flushProgress (w : World) : World :=
  let chunks := w.d.chunks.mapIdx fun i c => { c with bytesDone := w.d.chunkLiveBytes i }
  chunks.foldl (fun w c => w.query (.updateChunkProgress w.d.id c.rangeStart c.bytesDone))
    { w with d := { w.d with chunks := chunks } }

/-- The verification of the file: its size, if known, and its digest, if one is
    expected (`digestOk` tells whether it is the expected one). -/
def engineFinalize (w : World) (expectedSize : ℕ) (digestOk : Bool) : Bool :=
  (expectedSize = 0 || fileGetSize w.disk.file = expectedSize) &&
    (w.d.expectedSha256 = [] || digestOk)

/-- A cancel or a pause was requested. -/
def userStopped (w : World) : Bool := w.d.cancelRequested || w.d.pauseRequested

structure EngineState where
  w : World
  pc : Pc

inductive EngineAct
  | call
  | check
  | head (reply : Option FileInfo)
  | plan (io : PlanIo)
  | pool (a : PoolAct)
  | join
  | flush
  | decide (runFails : Bool)
  | finalize (digestOk : Bool)

/-- The checks made before anything else: the file of the recorded chunks is there,
    and the URL is allowed. -/
def engineCheck (w : World) : EngineState :=
  if w.d.chunks ≠ [] ∧ w.disk.file.isNone then ⟨clearResumeState w false, .idle (some (-4))⟩
  else if isValidUrl w.d.url then ⟨w, .probing⟩
  else ⟨w, .idle (some (-1))⟩

/-- What follows the first run of the pool. -/
def engineDecide (w : World) (info : FileInfo) (n : ℕ) (ok runFails : Bool) : EngineState :=
  if ok then ⟨w, .finalizing info⟩
  else if 1 < n ∧ userStopped w = false then
    -- One more try, with a single connection that fetches the whole file.
    let w := { w with d := { w.d with bytesDownloaded := 0 } }
    if runFails || w.disk.file.isNone then ⟨w, .idle (some (-1))⟩
    else ⟨w, .fallback info singleRun⟩
  else ⟨w, .idle (some (-1))⟩

/-- A step of a call, or of the pool it runs. -/
def engineStep (R : ℕ → UInt8) (s : EngineState) (a : EngineAct) : Option EngineState :=
  let w := s.w.fresh
  match s.pc, a with
  | .idle _, .call => some ⟨w, .entered⟩
  | .entered, .check => some (engineCheck w)
  | .probing, .head none => some ⟨w, .idle (some (-1))⟩
  | .probing, .head (some info) => some ⟨w, .planning info⟩
  | .planning info, .plan io => some ⟨(planDownload w info io).1, (planDownload w info io).2⟩
  | .running info n run, .pool a =>
    (poolStep R w run a).map fun x => ⟨x.1, .running info n x.2⟩
  | .running info n run, .join =>
    if run.Joinable then some ⟨w, .flushing info n run.allSucceeded⟩ else none
  | .flushing info n ok, .flush => some ⟨flushProgress w, .deciding info n ok⟩
  | .deciding info n ok, .decide runFails => some (engineDecide w info n ok runFails)
  | .fallback info run, .pool a =>
    (poolStep R w run a).map fun x => ⟨x.1, .fallback info x.2⟩
  | .fallback info run, .join =>
    if run.Joinable then
      some ⟨w, if run.allSucceeded then .finalizing info else .idle (some (-1))⟩
    else none
  | .finalizing info, .finalize digestOk =>
    if engineFinalize w info.totalSize.toNat digestOk then some ⟨w, .idle (some 0)⟩
    else some ⟨clearResumeState w true, .idle (some (-2))⟩
  | _, _ => none

end Cdm
