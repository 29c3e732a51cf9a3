import Cdm.Engine.Segmenter
import Cdm.Engine.World

/-!
# The worker pool

`engine/worker_pool.c`. A run of the pool starts one worker per range. A worker
sends a request for its range and writes what it receives at its offset
(`workerWriteCallback`); when the transfer is over, it judges it (`segmentOk`). With
a *rebalance pool*, a worker that is done looks for more to do: it takes the upper
half of what the busiest worker still has to write (`RebalancePool.split`), whose
limit `liveEnd` shrinks while its transfer goes on.

A progress counter is an index into the live counters of the chunks of the
download. The engine hands the pool an array of them, one per range; the entries
past the ranges are not assigned (`none`), and a counter read from such an entry is
taken as absent.
-/

namespace Cdm

/-- The part of a file a worker is to write, `[start, liveEnd)`. -/
structure PoolSlot where
  start : ℕ
  /-- The next byte to write. -/
  writePos : ℕ
  /-- The first byte not to write, which may shrink. -/
  liveEnd : ℕ
  claimed : Bool
  exhausted : Bool
  progressSlot : Option ℕ
  deriving DecidableEq

namespace PoolSlot

/-- The bytes still to write. -/
def remaining (s : PoolSlot) : ℕ := s.liveEnd - s.writePos

/-- Where the slot is split: the middle of what is still to write. -/
def middle (s : PoolSlot) : ℕ := s.writePos + (s.liveEnd - s.writePos) / 2

end PoolSlot

structure RebalancePool where
  slots : List PoolSlot
  minStealBytes : ℕ

namespace RebalancePool

/-- A slot nobody works on though it is not exhausted. -/
def orphan (p : RebalancePool) : Option (PoolSlot × ℕ) :=
  p.slots.zipIdx.find? fun x => !x.1.exhausted && !x.1.claimed

/-- The busier of the best slot so far and the next one. -/
def busier (best : Option (PoolSlot × ℕ)) (x : PoolSlot × ℕ) : Option (PoolSlot × ℕ) :=
  if x.1.exhausted || !x.1.claimed then best
  -- Of two that are as busy the first is kept; one with nothing left is no candidate.
  else if best.elim 0 (·.1.remaining) < x.1.remaining then some x
  else best

/-- The slot to steal from: the busiest one being worked on, if it has enough to
    steal and the pool has room for one more slot. -/
def victim (p : RebalancePool) : Option (PoolSlot × ℕ) :=
  match p.slots.zipIdx.foldl busier none with
  | none => none
  | some x =>
    if x.1.remaining < p.minStealBytes ∨ maxWorkers ≤ p.slots.length then none else some x

/-- Splitting the slot `s`, the `v`-th: it ends at its middle, and a new slot, with
    the counter `counter`, takes the rest. -/
def split (p : RebalancePool) (s : PoolSlot) (v : ℕ) (counter : Option ℕ) : RebalancePool :=
  { p with slots := p.slots.modify v (fun s => { s with liveEnd := s.middle }) ++
      [⟨s.middle, s.middle, s.liveEnd, true, false, counter⟩] }

/-- Claiming a slot. -/
def claim (p : RebalancePool) (k : ℕ) : RebalancePool :=
  { p with slots := p.slots.modify k fun s => { s with claimed := true } }

/-- Marking a slot as exhausted and releasing it. -/
def markDone (p : RebalancePool) (k : ℕ) : RebalancePool :=
  { p with slots := p.slots.modify k fun s => { s with exhausted := true, claimed := false } }

end RebalancePool

/-- The slot of a range when the pool is created. -/
def slotOf (x : ℕ × Range) : PoolSlot :=
  ⟨x.2.offset, x.2.offset, x.2.last + 1, true, false, some x.1⟩

/-- The pool of the planned ranges, each with the index of its chunk. -/
def rebalancePoolCreate (rs : List (ℕ × Range)) (minStealBytes : ℕ) : RebalancePool :=
  ⟨rs.map slotOf, minStealBytes⟩

/-! ## Workers -/

/-- The answer to a request: a prefix of what was asked for, as it is at the
    server, or anything else. -/
inductive Answer
  /-- `206`, with the first `len` bytes of the requested range. -/
  | partialContent (len : ℕ)
  /-- `200`, with the first `len` bytes of the resource. -/
  | ok (len : ℕ)
  /-- No body: a refusal, or no response at all. -/
  | refused (status : ℕ)
  /-- Anything else a server may send. -/
  | other (status len : ℕ) (body : ℕ → UInt8)

namespace Answer

def status : Answer → ℕ
  | .partialContent _ => 206
  | .ok _ => 200
  | .refused status => status
  | .other status _ _ => status

/-- The length of the body. -/
def len : Answer → ℕ
  | .partialContent len => len
  | .ok len => len
  | .refused _ => 0
  | .other _ len _ => len

/-- The bytes of the body, for a request from `offset` on of the resource `R`. -/
def body (R : ℕ → UInt8) (offset : ℕ) : Answer → ℕ → UInt8
  | .partialContent _, k => R (offset + k)
  | .ok _, k => R k
  | .refused _, _ => 0
  | .other _ _ b, k => b k

end Answer

/-- Where a worker thread is. -/
inductive Phase
  /-- Its thread does not run (yet). -/
  | created
  /-- It is about to send its request. -/
  | request
  /-- It receives the answer, `pos` bytes of which have arrived. -/
  | transfer (a : Answer) (pos : ℕ)
  /-- A callback took less than it was given: the transfer ends with an error. -/
  | aborted (a : Answer)
  /-- Its segment succeeded. -/
  | segmentDone
  /-- It looks for more to do. -/
  | idle
  | ended (ok : Bool)

structure WorkerContext where
  range : Range
  /-- The bytes written for the current segment. -/
  bytesDone : ℕ
  chunkProgressSlot : Option ℕ
  slotIndex : ℕ
  /-- The transfer was stopped at the limit of the slot. -/
  truncated : Bool
  phase : Phase

/-- The offset the next byte received is written at. -/
def WorkerContext.current (c : WorkerContext) : ℕ := c.range.offset + c.bytesDone

/-- A run of the pool: `progressSlots` is the array of counters of the engine. -/
structure PoolRun where
  pool : Option RebalancePool
  progressSlots : ℕ → Option ℕ
  contexts : List WorkerContext
  /-- The threads created so far. -/
  spawned : ℕ
  /-- Creating a thread failed. -/
  broken : Bool

namespace PoolRun

/-- Changing the context of the worker `i`. -/
def modify (run : PoolRun) (i : ℕ) (f : WorkerContext → WorkerContext) : PoolRun :=
  { run with contexts := run.contexts.modify i f }

/-- The worker `i` gets to a phase. -/
def setPhase (run : PoolRun) (i : ℕ) (ph : Phase) : PoolRun :=
  run.modify i fun c => { c with phase := ph }

/-- The limit of the slot of a worker, if there is a pool. -/
def limit (run : PoolRun) (c : WorkerContext) : Option ℕ :=
  match run.pool with
  | none => none
  | some p => (p.slots[c.slotIndex]?).map (·.liveEnd)

/-- Changing the slot of a worker, if there is a pool. -/
def modifySlot (run : PoolRun) (c : WorkerContext) (f : PoolSlot → PoolSlot) : PoolRun :=
  { run with pool := run.pool.map fun p => { p with slots := p.slots.modify c.slotIndex f } }

/-- All the threads that run have ended, and no more are created. -/
def Joinable (run : PoolRun) : Prop :=
  (run.broken = true ∨ run.spawned = run.contexts.length) ∧
    ∀ c ∈ run.contexts, c.phase matches .created | .ended _

instance (run : PoolRun) : Decidable run.Joinable :=
  inferInstanceAs (Decidable (_ ∧ _))

/-- The result of the run: every worker ran, and succeeded. -/
def allSucceeded (run : PoolRun) : Bool :=
  !run.broken && run.contexts.all fun c => c.phase matches .ended true

end PoolRun

/-- The context of the `i`-th worker, for a range and the counter of its chunk. -/
def contextOf (i : ℕ) (counter : Option ℕ) (r : Range) : WorkerContext :=
  ⟨r, 0, counter, i, false, .created⟩

/-- The worker `i` is given the bytes `[start, liveEnd)`, those of the slot `k`, and
    enters `run_one_segment` again. -/
def PoolRun.assign (run : PoolRun) (i k start liveEnd : ℕ) (counter : Option ℕ) : PoolRun :=
  run.modify i fun _ => ⟨⟨start, liveEnd - 1, 0, false⟩, 0, counter, k, false, .request⟩

/-! ## The write callback -/

/-- The bytes of `n` received that the limit of the slot allows to write. -/
def PoolRun.writable (run : PoolRun) (c : WorkerContext) (n : ℕ) : ℕ :=
  match run.limit c with
  | none => n
  | some liveEnd => min n (liveEnd - c.current)

theorem PoolRun.writable_le (run : PoolRun) (c : WorkerContext) (n : ℕ) :
    run.writable c n ≤ n := by
  rw [PoolRun.writable]
  split
  · exact le_rfl
  · exact min_le_left _ _

/-- The limit of the slot cuts the `n` bytes received. -/
def PoolRun.cuts (run : PoolRun) (c : WorkerContext) (n : ℕ) : Bool :=
  match run.limit c with
  | none => false
  | some liveEnd => liveEnd ≤ c.current || liveEnd < c.current + n

/-- Where the transfer is after a callback on `n` bytes that took `ret` of them: a
    callback that takes fewer stops it. -/
def delivered (a : Answer) (pos n ret : ℕ) : Phase :=
  if ret = n then .transfer a (pos + n) else .aborted a

/-- The bytes `[pos, pos + size)` of the answer to a request. -/
def received (R : ℕ → UInt8) (c : WorkerContext) (a : Answer) (pos size : ℕ) : Buf :=
  ⟨size, fun k => a.body R c.range.offset (pos + k)⟩

/-- Adding `m` bytes to the counters of the download and of a chunk. -/
def World.count (w : World) (counter : Option ℕ) (m : ℕ) : World :=
  { w with d := { w.d with
      bytesDownloaded := w.d.bytesDownloaded + m
      chunkLiveBytes := match counter with
        | none => w.d.chunkLiveBytes
        | some j => Function.update w.d.chunkLiveBytes j (w.d.chunkLiveBytes j + m) } }

theorem World.count_live (w : World) (counter : Option ℕ) (m j : ℕ) :
    (w.count counter m).d.chunkLiveBytes j =
      w.d.chunkLiveBytes j + if counter = some j then m else 0 := by
  cases counter with
  | none => rfl
  | some i =>
    simp only [World.count, Function.update_apply, Option.some.injEq]
    by_cases h : j = i
    · subst h
      simp
    · simp [h, Ne.symm h]

/-- The callback of the worker `i` on the next `n` bytes of the answer, of which the
    system writes at most `wrote`. (The wait for bandwidth ends early only on a
    request to cancel or to pause.) -/
def workerWriteCallback (R : ℕ → UInt8) (w : World) (run : PoolRun) (i : ℕ) (c : WorkerContext)
    (a : Answer) (pos n wrote : ℕ) : World × PoolRun :=
  if w.d.cancelRequested || w.d.pauseRequested then (w, run.setPhase i (delivered a pos n 0))
  else
    let m := run.writable c n
    let truncated := c.truncated || run.cuts c n
    -- What a short write has written is in the file, but is not counted.
    if wrote < m then
      (w.emit (.pwrite c.current (received R c a pos wrote)),
        run.modify i fun c => { c with truncated := truncated, phase := delivered a pos n 0 })
    else
      ((w.emit (.pwrite c.current (received R c a pos m))).count c.chunkProgressSlot m,
        (run.modifySlot c fun s => { s with writePos := s.writePos + m }).modify i fun c =>
          { c with
            bytesDone := c.bytesDone + m
            truncated := truncated
            phase := delivered a pos n m })

/-! ## The judgement of a segment -/

/-- The bytes a judged segment is expected to have: up to the limit of its slot,
    or its range. -/
def expectedBytes (run : PoolRun) (c : WorkerContext) : ℕ :=
  match run.limit c with
  | some liveEnd => liveEnd - c.range.offset
  | none => if c.range.offset ≤ c.range.last then c.range.last - c.range.offset + 1 else 0

/-- The judgement of a segment, when its transfer is over: `res` tells that it ended
    without an error. -/
def segmentOk (run : PoolRun) (c : WorkerContext) (status : ℕ) (res : Bool) : Bool :=
  let ok200 := status = 200 ∧
    (c.range.wholeFile = true ∨ run.contexts.length = 1 ∧ c.range.offset = 0)
  decide ((status = 206 ∨ ok200) ∧ c.bytesDone = expectedBytes run c ∧
    -- A transfer that the limit of the slot cut off ends with an error of the library.
    (res = true ∨ c.truncated = true))

end Cdm
