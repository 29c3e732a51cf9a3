import Cdm.Daemon.Service

/-!
# Tasks as a whole

For what does not depend on how the threads interleave, a request is handled at once, and
so is the result of a run: a *task* is a request, a tick, a report, a step of an engine or
the processing of its result. A task is a run of the threads (`Daemon.run_of_perform`), so
what the steps of the threads keep is kept by tasks.
-/

namespace Cdm

variable {R : CString → ℕ → UInt8}

/-- Pausing, resuming or canceling a download. -/
def handleCommand (s : Store) (c : Command) (id : ℕ) : Store × IpcResult :=
  match c, queueManagerGetStatus s id with
  | _, none => (s, .notFound)
  | .pause, some .active | .pause, some .queued =>
    let (s, wasActive) := queueManagerPause s id
    (if wasActive then s else s.query (.updateStatus id "PAUSED"), .ok)
  | .pause, some _ => (s, .rejected)
  | .resume, some _ =>
    let (s, resumed) := queueManagerResume s id
    if resumed then (s.query (.updateStatus id "QUEUED"), .ok) else (s, .rejected)
  | .cancel, some .done => (s, .rejected)
  | .cancel, some _ =>
    let path := ((s.get id).map (·.destPath)).getD []
    let (s, wasActive) := queueManagerCancel s id
    (if wasActive then s else (discardOps path).foldl (Op.exec id) s, .ok)

/-- Settling the result of a run. -/
def settleOutcome (s : Store) (id : ℕ) (o : Outcome) : Store :=
  o.after.foldl (Op.exec id)
    (queueManagerUpdateStatus (o.before.foldl (Op.exec id) s) id o.status)

/-- Storing the progress of the chunks. -/
def reportProgress (s : Store) (rs : List ChunkProgressSnapshot) : Store :=
  rs.foldl (fun s r => s.query (.updateChunkProgress r.downloadId r.rangeStart r.bytesDone)) s

/-- What the handler of a command does once the status is checked. -/
theorem handleCommand_of_check {s : Store} {c : Command} {id : ℕ} :
    handleCommand s c id =
      match commandCheck s c id with
      | .checked .pause id =>
        (if s.isActive id then s.modify id Download.pause
          else (s.modify id Download.pause).query (.updateStatus id "PAUSED"), .ok)
      | .checked .resume id =>
        if (queueManagerResume s id).2 then
          ((s.modify id Download.resume).query (.updateStatus id "QUEUED"), .ok)
        else (s.modify id Download.resume, .rejected)
      | .checked .cancel id =>
        (if s.isActive id then s.modify id Download.cancel
          else (discardOps (((s.get id).map (·.destPath)).getD [])).foldl (Op.exec id)
            (s.modify id Download.cancel), .ok)
      | .located _ _ => (s, .rejected)
      | .finishing _ _ _ answer => (s, answer) := by
  unfold handleCommand commandCheck
  cases queueManagerGetStatus s id with
  | none => rfl
  | some status => cases c <;> cases status <;> rfl

inductive Task
  | request (c : Command) (id : ℕ)
  | tick (now : ℕ) (created : Bool)
  | report
  | engine (k : ℕ) (a : EngineAct)
  /-- The engine of a worker has returned: its result is processed, at a time. -/
  | finish (k now : ℕ)
  /-- While the daemon shuts down, a worker is asked to pause. -/
  | stop

def Daemon.perform (R : CString → ℕ → UInt8) (s : Daemon) (t : Task) : Option Daemon :=
  let st := s.store.fresh
  match t, s.pc with
  | .request c id, .idle =>
    let x := handleCommand st c id
    some { s with store := x.1, history := .answered c id x.2 :: .received c id :: s.history }
  | .tick now created, .idle =>
    let x := schedulerPick s.cfg st now
    let ws := reapFinishedWorkers s.workers
    let y := x.2.elim (x.1, ws) fun id => schedulerStart x.1 ws id created
    some { s with store := y.1, workers := y.2 }
  | .report, .idle =>
    some { s with store := reportProgress st (queueManagerSnapshotChunkProgress st reportMax) }
  | .engine k a, _ => s.step R (.thread k (.engine a))
  | .finish k now, _ =>
    match s.worker k with
    | some ⟨id, .engine (.idle (some rc))⟩ =>
      (st.get id).map fun d =>
        let o := outcome s.cfg d now rc d.cancelRequested d.pauseRequested
        { s with store := settleOutcome st id o, workers := s.workers.set k (some ⟨id, .done⟩) }
    | _ => none
  | .stop, .stopping _ => s.step R .next
  | _, _ => none

/-! ## Tasks are runs of the threads -/

/-- The threads lead from `s` to `t`. -/
abbrev Daemon.Runs (R : CString → ℕ → UInt8) (s t : Daemon) : Prop :=
  Run.Reachable (Daemon.step R) (· = s) (fun _ _ => True) t

namespace Store

variable {s t : Store} {id : ℕ} {ops : List Op} {op : Op}

theorem fresh_exec (h : s.fresh = t.fresh) : (op.exec id s).fresh = (op.exec id t).fresh := by
  obtain ⟨queue, nextId, files, db, unlinked, sent⟩ := s
  obtain ⟨queue', nextId', files', db', unlinked', sent'⟩ := t
  simp only [fresh, mk.injEq, true_and] at h
  obtain ⟨rfl, rfl, rfl, rfl, rfl⟩ := h
  cases op <;> rfl

theorem fresh_modify {f : Download → Download} (h : s.fresh = t.fresh) :
    (s.modify id f).fresh = (t.modify id f).fresh := by
  obtain ⟨queue, nextId, files, db, unlinked, sent⟩ := s
  obtain ⟨queue', nextId', files', db', unlinked', sent'⟩ := t
  simp only [fresh, mk.injEq, true_and] at h
  obtain ⟨rfl, rfl, rfl, rfl, rfl⟩ := h
  rfl

theorem fresh_foldl (h : s.fresh = t.fresh) :
    (ops.foldl (Op.exec id) s).fresh = (ops.foldl (Op.exec id) t).fresh := by
  induction ops generalizing s t with
  | nil => exact h
  | cons op ops ih => exact ih (fresh_exec h)

end Store

namespace Daemon.Runs

variable {s t : Daemon} {k id : ℕ}

theorem single {a : Act} (h : s.step R a = some t) : Daemon.Runs R s t :=
  Run.Reachable.step (.init rfl) trivial h

/-- A handler performs its operations, and answers. -/
theorem finishing {c : Command} {ops : List Op} {answer : IpcResult}
    (hpc : s.pc = .handling (.finishing c id ops answer)) :
    ∃ st, st.fresh = (ops.foldl (Op.exec id) s.store).fresh ∧
      Daemon.Runs R s { s with store := st, pc := .idle
                               history := .answered c id answer :: s.history } := by
  induction ops generalizing s with
  | nil => exact ⟨s.store.fresh, rfl, single (Daemon.step_answer hpc)⟩
  | cons op ops ih =>
    have hstep : s.step R .next = some { s with
        store := op.exec id s.store.fresh
        pc := .handling (.finishing c id ops answer) } := Daemon.step_handler hpc rfl
    obtain ⟨st, hst, hrun⟩ := ih (s := { s with
        store := op.exec id s.store.fresh
        pc := .handling (.finishing c id ops answer) }) rfl
    refine ⟨st, hst.trans (Store.fresh_foldl (Store.fresh_exec rfl)), (single hstep).trans hrun⟩

/-- A worker performs the operations left after its status was published. -/
theorem leaving {ops : List Op} (hw : s.worker k = some ⟨id, .leaving ops⟩)
    (hd : (s.store.get id).isSome) :
    ∃ st, st.fresh = (ops.foldl (Op.exec id) s.store).fresh ∧
      Daemon.Runs R s { s with store := st, workers := s.workers.set k (some ⟨id, .done⟩) } := by
  induction ops generalizing s with
  | nil =>
    obtain ⟨d, hd⟩ := Option.isSome_iff_exists.1 hd
    exact ⟨s.store.fresh, rfl, single (Daemon.step_thread hw hd (a := .next) rfl)⟩
  | cons op ops ih =>
    obtain ⟨d, hd⟩ := Option.isSome_iff_exists.1 hd
    have hd' : s.store.fresh.get id = some d := hd
    have hlt := Daemon.lt_of_worker hw
    have hstep : s.step R (.thread k .next) = some { s with
        store := op.exec id s.store.fresh
        workers := s.workers.set k (some ⟨id, .leaving ops⟩) } := by
      refine Daemon.step_thread hw hd ?_
      rw [← Store.get_id hd]
      rfl
    obtain ⟨st, hst, hrun⟩ := ih (s := { s with
        store := op.exec id s.store.fresh
        workers := s.workers.set k (some ⟨id, .leaving ops⟩) })
      (by rw [Daemon.worker_set hlt rfl, if_pos rfl])
      (by rw [Store.get_isSome, Store.ids_exec, ← Store.get_isSome, hd']; rfl)
    refine ⟨st, hst.trans (Store.fresh_foldl (Store.fresh_exec rfl)), (single hstep).trans ?_⟩
    simpa using hrun

/-- A worker settles the result of its run. -/
theorem settling {o : Outcome} (hw : s.worker k = some ⟨id, .settling o⟩)
    (hd : (s.store.get id).isSome) :
    ∃ st, st.fresh = (settleOutcome s.store id o).fresh ∧
      Daemon.Runs R s { s with store := st, workers := s.workers.set k (some ⟨id, .done⟩) } := by
  obtain ⟨before, status, after⟩ := o
  induction before generalizing s with
  | nil =>
    obtain ⟨d, hd⟩ := Option.isSome_iff_exists.1 hd
    have hd' : s.store.fresh.get id = some d := hd
    have hlt := Daemon.lt_of_worker hw
    have hstep : s.step R (.thread k .next) = some { s with
        store := queueManagerUpdateStatus s.store.fresh id status
        workers := s.workers.set k (some ⟨id, .leaving after⟩) } := by
      refine Daemon.step_thread hw hd ?_
      rw [← Store.get_id hd]
      rfl
    have hsome : ((queueManagerUpdateStatus s.store.fresh id status).get id).isSome := by
      rw [queueManagerUpdateStatus, Store.get_modify_self, hd']
      · rfl
      · exact fun _ h => h
    obtain ⟨st, hst, hrun⟩ := leaving (R := R) (s := { s with
        store := queueManagerUpdateStatus s.store.fresh id status
        workers := s.workers.set k (some ⟨id, .leaving after⟩) })
      (by rw [Daemon.worker_set hlt rfl, if_pos rfl]) hsome
    refine ⟨st, hst.trans (Store.fresh_foldl (Store.fresh_modify rfl)), (single hstep).trans ?_⟩
    simpa using hrun
  | cons op ops ih =>
    obtain ⟨d, hd⟩ := Option.isSome_iff_exists.1 hd
    have hd' : s.store.fresh.get id = some d := hd
    have hlt := Daemon.lt_of_worker hw
    have hstep : s.step R (.thread k .next) = some { s with
        store := op.exec id s.store.fresh
        workers := s.workers.set k (some ⟨id, .settling ⟨ops, status, after⟩⟩) } := by
      refine Daemon.step_thread hw hd ?_
      rw [← Store.get_id hd]
      rfl
    obtain ⟨st, hst, hrun⟩ := ih (s := { s with
        store := op.exec id s.store.fresh
        workers := s.workers.set k (some ⟨id, .settling ⟨ops, status, after⟩⟩) })
      (by rw [Store.get_isSome, Store.ids_exec, ← Store.get_isSome, hd']; rfl)
      (by rw [Daemon.worker_set hlt rfl, if_pos rfl])
    refine ⟨st, hst.trans ?_, (single hstep).trans ?_⟩
    · exact Store.fresh_foldl (Store.fresh_modify (Store.fresh_foldl (Store.fresh_exec rfl)))
    · simpa using hrun

/-- The progress of the chunks is stored, row by row. -/
theorem reporting {rs : List ChunkProgressSnapshot} (hpc : s.pc = .reporting rs) :
    ∃ st, st.fresh = (reportProgress s.store rs).fresh ∧
      Daemon.Runs R s { s with store := st, pc := .idle } := by
  have hquery {s t : Store} (h : s.fresh = t.fresh) (rs : List ChunkProgressSnapshot) :
      (reportProgress s rs).fresh = (reportProgress t rs).fresh := by
    induction rs generalizing s t with
    | nil => exact h
    | cons r rs ih =>
      exact ih (congrArg (Store.query · (.updateChunkProgress r.downloadId r.rangeStart r.bytesDone)) h)
  induction rs generalizing s with
  | nil => exact ⟨s.store.fresh, rfl, single (Daemon.step_reported hpc)⟩
  | cons r rs ih =>
    have hstep : s.step R .next = some { s with
        store := s.store.fresh.query (.updateChunkProgress r.downloadId r.rangeStart r.bytesDone)
        pc := .reporting rs } := Daemon.step_reportRow hpc
    obtain ⟨st, hst, hrun⟩ := ih (s := { s with
        store := s.store.fresh.query (.updateChunkProgress r.downloadId r.rangeStart r.bytesDone)
        pc := .reporting rs }) rfl
    refine ⟨st, hst.trans (hquery ?_ rs), (single hstep).trans hrun⟩
    exact rfl

/-- A handler takes a step, performs the operations that are left, and answers. -/
theorem next_finishing {c : Command} {ops : List Op} {answer : IpcResult} {st : Store}
    (hstep : s.step R .next = some { s with
      store := st, pc := .handling (.finishing c id ops answer) }) :
    ∃ st', st'.fresh = (ops.foldl (Op.exec id) st).fresh ∧
      Daemon.Runs R s { s with store := st', pc := .idle
                               history := .answered c id answer :: s.history } := by
  obtain ⟨st', hst', hrun⟩ := finishing (R := R) (s := { s with
    store := st, pc := .handling (.finishing c id ops answer) }) rfl
  exact ⟨st', hst', (single hstep).trans hrun⟩

theorem pausing (hpc : s.pc = .handling (.checked .pause id)) :
    ∃ st, st.fresh = (if s.store.isActive id then s.store.modify id Download.pause
        else (s.store.modify id Download.pause).query (.updateStatus id "PAUSED")).fresh ∧
      Daemon.Runs R s { s with store := st, pc := .idle
                               history := .answered .pause id .ok :: s.history } := by
  have hstep : s.step R .next = some { s with
      store := s.store.fresh.modify id Download.pause
      pc := .handling (.finishing .pause id
        (if s.store.isActive id then [] else [.dbUpdateStatus "PAUSED"]) .ok) } :=
    Daemon.step_handler hpc rfl
  obtain ⟨st, hst, hrun⟩ := next_finishing hstep
  refine ⟨st, hst.trans ?_, hrun⟩
  split_ifs <;> rfl

theorem resuming (hpc : s.pc = .handling (.checked .resume id)) :
    ∃ st, st.fresh = (if (queueManagerResume s.store id).2 then
          (s.store.modify id Download.resume).query (.updateStatus id "QUEUED")
        else s.store.modify id Download.resume).fresh ∧
      Daemon.Runs R s { s with store := st, pc := .idle
                               history := .answered .resume id
                                (if (queueManagerResume s.store id).2 then .ok else .rejected) ::
                                s.history } := by
  by_cases hres : (queueManagerResume s.store id).2 = true
  · have hres' : (queueManagerResume s.store.fresh id).2 = true := hres
    have hstep : s.step R .next = some { s with
        store := s.store.fresh.modify id Download.resume
        pc := .handling (.finishing .resume id [.dbUpdateStatus "QUEUED"] .ok) } := by
      refine Daemon.step_handler hpc ?_
      rw [handlerStep]
      simp only [hres', if_true]
      rfl
    obtain ⟨st, hst, hrun⟩ := next_finishing hstep
    rw [if_pos hres, if_pos hres]
    exact ⟨st, hst, hrun⟩
  · have hres' : (queueManagerResume s.store.fresh id).2 = false := Bool.not_eq_true _ ▸ hres
    have hstep : s.step R .next = some { s with
        store := s.store.fresh.modify id Download.resume
        pc := .handling (.finishing .resume id [] .rejected) } := by
      refine Daemon.step_handler hpc ?_
      rw [handlerStep]
      simp only [hres']
      rfl
    obtain ⟨st, hst, hrun⟩ := next_finishing hstep
    rw [if_neg hres, if_neg hres]
    exact ⟨st, hst, hrun⟩

theorem canceling (hpc : s.pc = .handling (.checked .cancel id)) :
    ∃ st, st.fresh = (if s.store.isActive id then s.store.modify id Download.cancel
        else (discardOps (((s.store.get id).map (·.destPath)).getD [])).foldl (Op.exec id)
          (s.store.modify id Download.cancel)).fresh ∧
      Daemon.Runs R s { s with store := st, pc := .idle
                               history := .answered .cancel id .ok :: s.history } := by
  let path := ((s.store.get id).map (·.destPath)).getD []
  let s₁ : Daemon := { s with store := s.store.fresh, pc := .handling (.located id path) }
  have hlocate : s.step R .next = some s₁ := Daemon.step_handler hpc rfl
  have hstep : s₁.step R .next = some { s₁ with
      store := s.store.fresh.modify id Download.cancel
      pc := .handling (.finishing .cancel id
        (if s.store.isActive id then [] else discardOps path) .ok) } :=
    Daemon.step_handler rfl rfl
  obtain ⟨st, hst, hrun⟩ := next_finishing hstep
  refine ⟨st, hst.trans ?_, (single hlocate).trans hrun⟩
  split_ifs
  · rfl
  · exact Store.fresh_foldl (Store.fresh_modify rfl)

/-- A command is checked, carried out and answered. -/
theorem command (c : Command) (id : ℕ) (hpc : s.pc = .idle) :
    ∃ st, st.fresh = (handleCommand s.store.fresh c id).1.fresh ∧
      Daemon.Runs R s { s with store := st, pc := .idle
                               history := .answered c id (handleCommand s.store.fresh c id).2 ::
                                .received c id :: s.history } := by
  -- The handler after the check of the status.
  let s₁ : Daemon := { s with
    store := s.store.fresh, pc := .handling (commandCheck s.store.fresh c id)
    history := .received c id :: s.history }
  have hstep : s.step R (.request c id) = some s₁ := Daemon.step_request c id hpc
  suffices h : ∃ st, st.fresh = (handleCommand s.store.fresh c id).1.fresh ∧
      Daemon.Runs R s₁ { s with store := st, pc := .idle
                                history := .answered c id (handleCommand s.store.fresh c id).2 ::
                                  .received c id :: s.history } by
    obtain ⟨st, hst, hrun⟩ := h
    exact ⟨st, hst, (single hstep).trans hrun⟩
  rw [handleCommand_of_check]
  rcases commandCheck_cases s.store.fresh c id with ⟨hcheck, -⟩ | ⟨answer, hcheck, -⟩
  · have hpc₁ : s₁.pc = .handling (.checked c id) := congrArg DaemonPc.handling hcheck
    rw [hcheck]
    cases c with
    | pause => exact pausing hpc₁
    | resume =>
      obtain ⟨st, hst, hrun⟩ := resuming (R := R) hpc₁
      refine ⟨st, hst.trans ?_, ?_⟩
      · simp only
        split_ifs <;> rfl
      · simp only
        split_ifs with hres
        · rwa [if_pos hres] at hrun
        · rwa [if_neg hres] at hrun
    | cancel => exact canceling hpc₁
  · have hpc₁ : s₁.pc = .handling (.finishing c id [] answer) := congrArg DaemonPc.handling hcheck
    rw [hcheck]
    exact finishing hpc₁

/-- A tick picks a download, and starts a worker for it. -/
theorem tick (now : ℕ) (created : Bool) {s' : Daemon} (h : s.perform R (.tick now created) = some s') :
    ∃ st, st.fresh = s'.store.fresh ∧ Daemon.Runs R s { s' with store := st } := by
  cases hpc : s.pc with
  | idle =>
    simp only [Daemon.perform, hpc, Option.some.injEq] at h
    generalize hx : schedulerPick s.cfg s.store.fresh now = x at h
    obtain ⟨st, picked⟩ := x
    have hstep : s.step R (.tick now) = some { s with
        store := st, workers := reapFinishedWorkers s.workers, pc := picked.elim .idle .picked } := by
      rw [Daemon.step_tick now hpc, hx]
    cases picked with
    | none =>
      subst h
      exact ⟨st, rfl, single hstep⟩
    | some id =>
      subst h
      have hstart : Daemon.step R { s with
          store := st, workers := reapFinishedWorkers s.workers, pc := .picked id }
          (.start created) = some { s with
            store := (schedulerStart st.fresh (reapFinishedWorkers s.workers) id created).1
            workers := (schedulerStart st.fresh (reapFinishedWorkers s.workers) id created).2
            pc := .idle } := rfl
      have hrun := (single hstep).trans (single hstart)
      simp only [Option.elim_some]
      refine ⟨(schedulerStart st.fresh (reapFinishedWorkers s.workers) id created).1, ?_, ?_⟩
      · unfold schedulerStart
        split
        · rfl
        · exact Store.fresh_modify rfl
      · have : (schedulerStart st.fresh (reapFinishedWorkers s.workers) id created).2 =
            (schedulerStart st (reapFinishedWorkers s.workers) id created).2 := by
          unfold schedulerStart
          split <;> rfl
        rw [← this]
        exact hrun
  | _ => simp [Daemon.perform, hpc] at h

/-- The flags are read, and the result settled. -/
theorem finish (k now : ℕ) {s' : Daemon} (h : s.perform R (.finish k now) = some s') :
    ∃ st, st.fresh = s'.store.fresh ∧ Daemon.Runs R s { s' with store := st } := by
  simp only [Daemon.perform] at h
  split at h
  · rename_i id rc hw
    obtain ⟨d, hd, rfl⟩ := Option.map_eq_some_iff.1 h
    have hlt := Daemon.lt_of_worker hw
    let s₁ : Daemon := { s with
      store := s.store.fresh
      workers := s.workers.set k (some ⟨id, .sampled rc d.cancelRequested⟩) }
    have hcancel : s.step R (.thread k .loadCancel) = some s₁ := Daemon.step_thread hw hd rfl
    have hw₁ : s₁.worker k = some ⟨id, .sampled rc d.cancelRequested⟩ := by
      rw [Daemon.worker_set hlt rfl, if_pos rfl]
    let s₂ : Daemon := { s₁ with
      workers := s₁.workers.set k (some ⟨id, .settling
        (outcome s.cfg d now rc d.cancelRequested d.pauseRequested)⟩) }
    have hpause : s₁.step R (.thread k (.loadPause now)) = some s₂ :=
      Daemon.step_thread hw₁ hd rfl
    have hw₂ : s₂.worker k = some ⟨id, .settling
        (outcome s.cfg d now rc d.cancelRequested d.pauseRequested)⟩ := by
      rw [Daemon.worker_set (Daemon.lt_of_worker hw₁) rfl, if_pos rfl]
    have hd₂ : (s₂.store.get id).isSome := by
      rw [show s₂.store.get id = some d from hd]
      rfl
    obtain ⟨st, hst, hrun⟩ := settling (R := R) hw₂ hd₂
    refine ⟨st, hst, ?_⟩
    have := ((single hcancel).trans (single hpause)).trans hrun
    simpa [s₂, s₁] using this
  · cases h

end Daemon.Runs

/-- A task is a run of the threads; what is unlinked is recorded for a task as a whole. -/
theorem Daemon.run_of_perform {s s' : Daemon} {t : Task} (h : s.perform R t = some s') :
    ∃ st, st.fresh = s'.store.fresh ∧ Daemon.Runs R s { s' with store := st } := by
  cases t with
  | request c id =>
    cases hpc : s.pc with
    | idle =>
      simp only [perform, hpc, Option.some.injEq] at h
      subst h
      exact Runs.command c id hpc
    | _ => simp [perform, hpc] at h
  | tick now created => exact Runs.tick now created h
  | report =>
    cases hpc : s.pc with
    | idle =>
      simp only [perform, hpc, Option.some.injEq] at h
      subst h
      have hstep := step_report (R := R) hpc
      obtain ⟨st, hst, hrun⟩ := Runs.reporting (R := R) (s := { s with
        store := s.store.fresh
        pc := .reporting (queueManagerSnapshotChunkProgress s.store.fresh reportMax) }) rfl
      exact ⟨st, hst, (Runs.single hstep).trans hrun⟩
    | _ => simp [perform, hpc] at h
  | engine k a =>
    have h' : s.step R (.thread k (.engine a)) = some s' := by
      simpa [perform] using h
    exact ⟨s'.store, rfl, Runs.single h'⟩
  | finish k now => exact Runs.finish k now h
  | stop =>
    cases hpc : s.pc with
    | stopping ids =>
      have h' : s.step R .next = some s' := by
        simpa [perform, hpc] using h
      exact ⟨s'.store, rfl, Runs.single h'⟩
    | _ => simp [perform, hpc] at h

/-! ## The daemon in service, task by task -/

inductive Duty
  | task (t : Task)
  | upkeep (u : Upkeep)

def Daemon.attend (R : CString → ℕ → UInt8) (s : Daemon) : Duty → Option Daemon
  | .task t => s.perform R t
  | .upkeep u => s.upkeep u

/-- What holds of the daemon in any case. -/
structure Managed (s : Daemon) : Prop where
  owned : Ownership s
  numbered : s.Numbered

namespace Managed

variable {s s' : Daemon}

theorem of_runs (h : Managed s) (hrun : Daemon.Runs R s s') : Managed s' :=
  hrun.invariant (fun _ heq => heq ▸ h) fun _ _ _ h _ hst =>
    ⟨h.owned.step (.of_eq hst), h.numbered.step h.owned (.of_eq hst)⟩

/-- What is unlinked does not matter. -/
theorem of_fresh {st : Store} (h : Managed { s with store := st })
    (hst : st.fresh = s.store.fresh) : Managed s := by
  have h' : Managed { s with store := st.fresh } :=
    ⟨⟨h.owned.ids, h.owned.sound, h.owned.active, h.owned.unique, h.owned.picked, h.owned.found⟩,
      ⟨h.numbered.positive, h.numbered.rows, h.numbered.queue_lt, h.numbered.row_lt,
        h.numbered.worker_lt⟩⟩
  rw [hst] at h'
  exact ⟨⟨h'.owned.ids, h'.owned.sound, h'.owned.active, h'.owned.unique, h'.owned.picked,
    h'.owned.found⟩, ⟨h'.numbered.positive, h'.numbered.rows, h'.numbered.queue_lt,
      h'.numbered.row_lt, h'.numbered.worker_lt⟩⟩

theorem perform {t : Task} (h : Managed s) (ht : s.perform R t = some s') : Managed s' := by
  obtain ⟨st, hst, hrun⟩ := Daemon.run_of_perform ht
  exact (h.of_runs hrun).of_fresh hst

theorem upkept {u : Upkeep} (h : Managed s) (hu : Daemon.Upkept s u s') : Managed s' :=
  ⟨h.owned.upkept h.numbered hu, h.numbered.upkept hu⟩

theorem of_firstStart (h : FirstStart s) : Managed s := ⟨h.atRest.ownership, h.numbered⟩

end Managed

/-- A state satisfying `P` is reached if the run of a list of duties, of a daemon with an empty
    database, ends in one. -/
theorem reachable_of_attend (R : CString → ℕ → UInt8) (ok : Daemon → Duty → Prop)
    [∀ s a, Decidable (ok s a)] (P : Daemon → Prop) (as : List Duty)
    (h : ∃ s ∈ Run.exec (Daemon.attend R) ok freshDaemon as, P s) :
    ∃ s, Run.Reachable (Daemon.attend R) FirstStart ok s ∧ P s :=
  Run.exists_reachable_of_exec _ _ _ _ firstStart_freshDaemon _ h

end Cdm
