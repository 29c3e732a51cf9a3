import Cdm.Core.Scheduler
import Cdm.Platform.IpcSocket
import Cdm.Lib.Run

/-!
# The threads of the daemon

The daemon thread ticks the scheduler, reports the progress and handles the requests of
the clients, one thing at a time (`DaemonPc`); every worker thread works on a download of
its own. The threads interleave: a step (`Act`) is one operation of one of them.

What the daemon receives and answers is recorded in its history, so that what a client
may rely on can be stated.
-/

namespace Cdm

/-- What the clients see of the daemon. -/
inductive Event
  | received (c : Command) (id : ℕ)
  | answered (c : Command) (id : ℕ) (answer : IpcResult)
  | added (id : ℕ)
  deriving DecidableEq

/-- Where the daemon thread is. -/
inductive DaemonPc
  | idle
  /-- A download has been made active, and a worker is about to be started for it. -/
  | picked (id : ℕ)
  | handling (h : HandlerPc)
  /-- The progress of some chunks is still to be stored. -/
  | reporting (rest : List ChunkProgressSnapshot)
  /-- The daemon is shutting down, and has still to pause some downloads. -/
  | stopping (ids : List ℕ)

structure Daemon where
  store : Store
  /-- The worker slots, the free ones empty. -/
  workers : List (Option SchedulerWorker)
  pc : DaemonPc
  cfg : Config
  offers : List BrowserOffer
  /-- The last event first. -/
  history : List Event

/-- The worker in a slot. -/
def Daemon.worker (s : Daemon) (k : ℕ) : Option SchedulerWorker := (s.workers[k]?).join

inductive Act
  | thread (k : ℕ) (a : ThreadAct)
  | request (c : Command) (id : ℕ)
  | tick (now : ℕ)
  /-- The thread of a worker is created, or not. -/
  | start (created : Bool)
  | report
  /-- The next step of what the daemon thread is doing. -/
  | next

/-- The chunks reported at a time. -/
def reportMax : ℕ := 64

/-- A step of one of the threads. -/
def Daemon.step (R : CString → ℕ → UInt8) (s : Daemon) (a : Act) : Option Daemon :=
  let st := s.store.fresh
  match a, s.pc with
  | .thread k a, _ =>
    match s.worker k with
    | none => none
    | some w =>
      match st.get w.downloadId with
      | none => none
      | some d =>
        -- A worker changes its own entry, which is looked up anew in every step.
        (threadStep R s.cfg st d w.pc a).map fun x =>
          { s with store := x.1, workers := s.workers.set k (some ⟨w.downloadId, x.2⟩) }
  | .request c id, .idle =>
    some { s with store := st, pc := .handling (commandCheck st c id)
                  history := .received c id :: s.history }
  | .tick now, .idle =>
    let x := schedulerPick s.cfg st now
    some { s with store := x.1, workers := reapFinishedWorkers s.workers
                  pc := x.2.elim .idle .picked }
  | .start created, .picked id =>
    -- The lock of the queue is not held between the pick and the start.
    let x := schedulerStart st s.workers id created
    some { s with store := x.1, workers := x.2, pc := .idle }
  | .report, .idle =>
    some { s with store := st, pc := .reporting (queueManagerSnapshotChunkProgress st reportMax) }
  | .next, .handling (.finishing c id [] answer) =>
    some { s with store := st, pc := .idle, history := .answered c id answer :: s.history }
  | .next, .handling h =>
    (handlerStep st h).map fun x => { s with store := x.1, pc := .handling x.2 }
  | .next, .reporting (r :: rs) =>
    some { s with store := st.query (.updateChunkProgress r.downloadId r.rangeStart r.bytesDone)
                  pc := .reporting rs }
  | .next, .reporting [] => some { s with store := st, pc := .idle }
  | .next, .stopping (id :: ids) =>
    some { s with store := (queueManagerPause st id).1, pc := .stopping ids }
  | _, _ => none

/-! ## The workers after a step -/

namespace Daemon

variable {s t : Daemon} {k k' : ℕ} {w w' : SchedulerWorker}

theorem lt_of_worker (h : s.worker k = some w) : k < s.workers.length := by
  by_contra hk
  simp [worker, List.getElem?_eq_none (not_lt.1 hk)] at h

theorem mem_of_worker (h : s.worker k = some w) : some w ∈ s.workers :=
  List.mem_of_getElem? (Option.join_eq_some_iff.1 h)

theorem lt_of_free (h : freeWorker s.workers = some k) : k < s.workers.length :=
  (List.findIdx?_eq_some_iff_getElem.1 h).1

theorem worker_set (hk : k < s.workers.length) (ht : t.workers = s.workers.set k (some w')) :
    t.worker k' = if k' = k then some w' else s.worker k' := by
  simp only [worker, ht, List.getElem?_set]
  by_cases hkk : k = k'
  · simp [hkk ▸ hk, hkk]
  · simp [hkk, Ne.symm hkk]

theorem worker_reap (ht : t.workers = reapFinishedWorkers s.workers) (h : t.worker k = some w) :
    s.worker k = some w := by
  simp only [worker, ht, reapFinishedWorkers, List.getElem?_map] at h ⊢
  cases hk : s.workers[k]? with
  | none => simp [hk] at h
  | some o =>
    simp only [hk, Option.map_some, Option.join_some, Option.filter_eq_some_iff] at h
    exact h.1

theorem worker_of_reap (ht : t.workers = reapFinishedWorkers s.workers) (h : s.worker k = some w)
    (hw : w.isDone = false) : t.worker k = some w := by
  simp only [worker, ht, reapFinishedWorkers, List.getElem?_map] at h ⊢
  cases hk : s.workers[k]? with
  | none => simp [hk] at h
  | some o =>
    simp only [hk, Option.join_some] at h
    simp [h, hw]

theorem worker_of_free (h : freeWorker s.workers = some k) : s.worker k = none := by
  obtain ⟨hlt, hnone, -⟩ := List.findIdx?_eq_some_iff_getElem.1 h
  rw [worker, List.getElem?_eq_getElem hlt, Option.join_some]
  exact Option.isNone_iff_eq_none.1 hnone

end Daemon

end Cdm
