import Cdm.Daemon.Threads
import Cdm.Engine.Effects

/-!
# The steps of the threads, case by case

`ThreadStep` and `Daemon.Step` say what a step does, with its conditions.
-/

namespace Cdm

variable {R : CString → ℕ → UInt8} {cfg : Config}

/-- The steps of a worker thread. -/
inductive ThreadStep (R : CString → ℕ → UInt8) (cfg : Config) (s : Store) (d : Download) :
    ThreadPc → ThreadAct → Store → ThreadPc → Prop
  | engine {pc pc' : Pc} {a : EngineAct} {s' : Store} (h : s.engineStep R d pc a = some (s', pc')) :
      ThreadStep R cfg s d (.engine pc) (.engine a) s' (.engine pc')
  | loadCancel {rc : ℤ} :
      ThreadStep R cfg s d (.engine (.idle (some rc))) .loadCancel s (.sampled rc d.cancelRequested)
  | loadPause {rc : ℤ} {canceled : Bool} {now : ℕ} :
      ThreadStep R cfg s d (.sampled rc canceled) (.loadPause now) s
        (.settling (outcome cfg d now rc canceled d.pauseRequested))
  | settle {op : Op} {ops after : List Op} {status : DownloadStatus} :
      ThreadStep R cfg s d (.settling ⟨op :: ops, status, after⟩) .next (op.exec d.id s)
        (.settling ⟨ops, status, after⟩)
  | publish {after : List Op} {status : DownloadStatus} :
      ThreadStep R cfg s d (.settling ⟨[], status, after⟩) .next
        (queueManagerUpdateStatus s d.id status) (.leaving after)
  | leave {op : Op} {ops : List Op} :
      ThreadStep R cfg s d (.leaving (op :: ops)) .next (op.exec d.id s) (.leaving ops)
  | ended : ThreadStep R cfg s d (.leaving []) .next s .done

theorem ThreadStep.of_eq {s s' : Store} {d : Download} {pc pc' : ThreadPc} {a : ThreadAct}
    (h : threadStep R cfg s d pc a = some (s', pc')) : ThreadStep R cfg s d pc a s' pc' := by
  unfold threadStep at h
  split at h
  · cases h
  · obtain ⟨x, hx, hxy⟩ := Option.map_eq_some_iff.1 h
    cases hxy
    exact .engine hx
  · cases h
    exact .loadCancel
  · cases h
    exact .loadPause
  · cases h
    exact .settle
  · cases h
    exact .publish
  · cases h
    exact .leave
  · cases h
    exact .ended
  · cases h

/-- The steps of the daemon and of its workers. -/
inductive Daemon.Step (R : CString → ℕ → UInt8) (s : Daemon) : Act → Daemon → Prop
  | thread {k : ℕ} {w : SchedulerWorker} {d : Download} {a : ThreadAct} {st : Store} {pc : ThreadPc}
      (hw : s.worker k = some w) (hd : s.store.get w.downloadId = some d)
      (h : ThreadStep R s.cfg s.store.fresh d w.pc a st pc) :
      Step R s (.thread k a)
        { s with store := st, workers := s.workers.set k (some ⟨w.downloadId, pc⟩) }
  | request {c : Command} {id : ℕ} (hpc : s.pc = .idle) :
      Step R s (.request c id)
        { s with store := s.store.fresh, pc := .handling (commandCheck s.store.fresh c id)
                 history := .received c id :: s.history }
  | tick {now : ℕ} (hpc : s.pc = .idle) :
      Step R s (.tick now)
        { s with store := s.store.fresh, workers := reapFinishedWorkers s.workers, pc := .idle }
  | pick {now : ℕ} {d : Download} (hpc : s.pc = .idle) (hd : d ∈ s.store.queue)
      (hq : d.status = .queued) (hpick : (schedulerPick s.cfg s.store.fresh now).2 = some d.id) :
      Step R s (.tick now)
        { s with
          store := s.store.fresh.modify d.id fun d => { d with status := .active, nextRetryAt := 0 }
          workers := reapFinishedWorkers s.workers
          pc := .picked d.id }
  | start {id k : ℕ} (hpc : s.pc = .picked id) (hk : freeWorker s.workers = some k) :
      Step R s (.start true)
        { s with store := s.store.fresh, pc := .idle
                 workers := s.workers.set k (some ⟨id, .engine .entered⟩) }
  | startFails {id : ℕ} {created : Bool} (hpc : s.pc = .picked id) :
      Step R s (.start created)
        { s with store := queueManagerUpdateStatus s.store.fresh id .queued, pc := .idle }
  | report (hpc : s.pc = .idle) :
      Step R s .report
        { s with store := s.store.fresh
                 pc := .reporting (queueManagerSnapshotChunkProgress s.store.fresh reportMax) }
  | reportRow {r : ChunkProgressSnapshot} {rs : List ChunkProgressSnapshot}
      (hpc : s.pc = .reporting (r :: rs)) :
      Step R s .next
        { s with
          store := s.store.fresh.query (.updateChunkProgress r.downloadId r.rangeStart r.bytesDone)
          pc := .reporting rs }
  | reported (hpc : s.pc = .reporting []) :
      Step R s .next { s with store := s.store.fresh, pc := .idle }
  | answer {c : Command} {id : ℕ} {answer : IpcResult}
      (hpc : s.pc = .handling (.finishing c id [] answer)) :
      Step R s .next
        { s with store := s.store.fresh, pc := .idle, history := .answered c id answer :: s.history }
  | finish {c : Command} {id : ℕ} {op : Op} {ops : List Op} {answer : IpcResult}
      (hpc : s.pc = .handling (.finishing c id (op :: ops) answer)) :
      Step R s .next
        { s with store := op.exec id s.store.fresh, pc := .handling (.finishing c id ops answer) }
  | pause {id : ℕ} (hpc : s.pc = .handling (.checked .pause id)) :
      Step R s .next
        { s with store := s.store.fresh.modify id Download.pause
                 pc := .handling (.finishing .pause id
                  (if s.store.isActive id then [] else [.dbUpdateStatus "PAUSED"]) .ok) }
  | resume {id : ℕ} (hpc : s.pc = .handling (.checked .resume id)) :
      Step R s .next
        { s with store := s.store.fresh.modify id Download.resume
                 pc := .handling
                  (if (queueManagerResume s.store id).2 then
                    .finishing .resume id [.dbUpdateStatus "QUEUED"] .ok
                  else .finishing .resume id [] .rejected) }
  | locate {id : ℕ} (hpc : s.pc = .handling (.checked .cancel id)) :
      Step R s .next
        { s with store := s.store.fresh
                 pc := .handling (.located id (((s.store.get id).map (·.destPath)).getD [])) }
  | cancel {id : ℕ} {path : CString} (hpc : s.pc = .handling (.located id path)) :
      Step R s .next
        { s with store := s.store.fresh.modify id Download.cancel
                 pc := .handling (.finishing .cancel id
                  (if s.store.isActive id then [] else discardOps path) .ok) }
  | stop {id : ℕ} {ids : List ℕ} (hpc : s.pc = .stopping (id :: ids)) :
      Step R s .next
        { s with store := s.store.fresh.modify id Download.pause, pc := .stopping ids }

theorem Daemon.Step.of_eq {s s' : Daemon} {a : Act} (h : s.step R a = some s') :
    Daemon.Step R s a s' := by
  unfold Daemon.step at h
  simp only at h
  split at h
  · split at h
    · cases h
    · rename_i w hw
      split at h
      · cases h
      · rename_i d hd
        obtain ⟨x, hx, rfl⟩ := Option.map_eq_some_iff.1 h
        exact .thread hw hd (.of_eq hx)
  · cases h
    exact .request ‹_›
  · rename_i now hpc
    cases h
    generalize hx : schedulerPick s.cfg s.store.fresh now = x
    -- The tick picks a download where a worker is free and one is due.
    rw [schedulerPick] at hx
    split_ifs at hx with hlt
    · split at hx
      · cases hx
        exact .tick hpc
      · rename_i d hd
        obtain ⟨hmem, hq⟩ := queueManagerFindNextQueued_spec hd
        cases hx
        refine .pick hpc hmem hq ?_
        rw [schedulerPick, if_pos hlt, hd]
    · cases hx
      exact .tick hpc
  · rename_i created id hpc
    cases h
    unfold schedulerStart
    split
    · exact .start hpc ‹_›
    · exact .startFails hpc
  · cases h
    exact .report ‹_›
  · cases h
    exact .answer ‹_›
  · rename_i h' hne hpc
    cases h' with
    | checked c id =>
      cases c with
      | pause =>
        cases h
        exact .pause hpc
      | resume =>
        cases h
        exact .resume hpc
      | cancel =>
        cases h
        exact .locate hpc
    | located id path =>
      cases h
      exact .cancel hpc
    | finishing c id ops answer =>
      cases ops with
      | nil => cases h
      | cons op ops =>
        cases h
        exact .finish hpc
  · cases h
    exact .reportRow ‹_›
  · cases h
    exact .reported ‹_›
  · cases h
    exact .stop ‹_›
  · cases h

/-! What the steps of the daemon compute, where they are enabled. -/

namespace Daemon

variable {s : Daemon} {st : Store}

theorem step_thread {k : ℕ} {w : SchedulerWorker} {d : Download} {a : ThreadAct} {pc : ThreadPc}
    (hw : s.worker k = some w) (hd : s.store.get w.downloadId = some d)
    (h : threadStep R s.cfg s.store.fresh d w.pc a = some (st, pc)) :
    s.step R (.thread k a) =
      some { s with store := st, workers := s.workers.set k (some ⟨w.downloadId, pc⟩) } := by
  have hd' : s.store.fresh.get w.downloadId = some d := hd
  unfold step
  simp only [hw, hd', h, Option.map_some]

theorem step_request (c : Command) (id : ℕ) (hpc : s.pc = .idle) :
    s.step R (.request c id) =
      some { s with store := s.store.fresh, pc := .handling (commandCheck s.store.fresh c id)
                    history := .received c id :: s.history } := by
  obtain ⟨store, workers, pc, cfg, offers, history⟩ := s
  subst hpc
  rfl

theorem step_tick (now : ℕ) (hpc : s.pc = .idle) :
    s.step R (.tick now) =
      some { s with store := (schedulerPick s.cfg s.store.fresh now).1
                    workers := reapFinishedWorkers s.workers
                    pc := (schedulerPick s.cfg s.store.fresh now).2.elim .idle .picked } := by
  obtain ⟨store, workers, pc, cfg, offers, history⟩ := s
  subst hpc
  rfl

theorem step_report (hpc : s.pc = .idle) :
    s.step R .report =
      some { s with store := s.store.fresh
                    pc := .reporting (queueManagerSnapshotChunkProgress s.store.fresh reportMax) } := by
  obtain ⟨store, workers, pc, cfg, offers, history⟩ := s
  subst hpc
  rfl

theorem step_reportRow {r : ChunkProgressSnapshot} {rs : List ChunkProgressSnapshot}
    (hpc : s.pc = .reporting (r :: rs)) :
    s.step R .next =
      some { s with
        store := s.store.fresh.query (.updateChunkProgress r.downloadId r.rangeStart r.bytesDone)
        pc := .reporting rs } := by
  obtain ⟨store, workers, pc, cfg, offers, history⟩ := s
  subst hpc
  rfl

theorem step_reported (hpc : s.pc = .reporting []) :
    s.step R .next = some { s with store := s.store.fresh, pc := .idle } := by
  obtain ⟨store, workers, pc, cfg, offers, history⟩ := s
  subst hpc
  rfl

theorem step_answer {c : Command} {id : ℕ} {answer : IpcResult}
    (hpc : s.pc = .handling (.finishing c id [] answer)) :
    s.step R .next =
      some { s with store := s.store.fresh, pc := .idle
                    history := .answered c id answer :: s.history } := by
  obtain ⟨store, workers, pc, cfg, offers, history⟩ := s
  subst hpc
  rfl

theorem step_handler {h h' : HandlerPc} (hpc : s.pc = .handling h)
    (hh : handlerStep s.store.fresh h = some (st, h')) :
    s.step R .next = some { s with store := st, pc := .handling h' } := by
  obtain ⟨store, workers, pc, cfg, offers, history⟩ := s
  subst hpc
  have hstep : Daemon.step R ⟨store, workers, .handling h, cfg, offers, history⟩ .next =
      (handlerStep store.fresh h).map fun x =>
        ⟨x.1, workers, .handling x.2, cfg, offers, history⟩ := by
    cases h with
    | finishing c id ops answer =>
      cases ops with
      | nil => cases hh
      | cons => rfl
    | _ => rfl
  rw [hstep, hh]
  rfl

end Daemon

namespace Daemon.Step

variable {s s' : Daemon} {a : Act} {id : ℕ} {path : CString}

/-! What a handler does next depends on where it is only. -/

theorem pc_of_pause (hst : Daemon.Step R s a s') (hpc : s.pc = .handling (.checked .pause id))
    (ha : a = .next) : s'.pc = .handling (.finishing .pause id
      (if s.store.isActive id then [] else [.dbUpdateStatus "PAUSED"]) .ok) := by
  subst ha
  cases hst with
  | pause hpc' =>
    rw [hpc'] at hpc
    cases hpc
    rfl
  | _ => simp_all

theorem pc_of_resume (hst : Daemon.Step R s a s') (hpc : s.pc = .handling (.checked .resume id))
    (ha : a = .next) : s'.pc = .handling
      (if (queueManagerResume s.store id).2 then .finishing .resume id [.dbUpdateStatus "QUEUED"] .ok
      else .finishing .resume id [] .rejected) := by
  subst ha
  cases hst with
  | resume hpc' =>
    rw [hpc'] at hpc
    cases hpc
    rfl
  | _ => simp_all

theorem pc_of_cancel (hst : Daemon.Step R s a s') (hpc : s.pc = .handling (.located id path))
    (ha : a = .next) : s'.pc = .handling (.finishing .cancel id
      (if s.store.isActive id then [] else discardOps path) .ok) := by
  subst ha
  cases hst with
  | cancel hpc' =>
    rw [hpc'] at hpc
    cases hpc
    rfl
  | _ => simp_all

end Daemon.Step

end Cdm
