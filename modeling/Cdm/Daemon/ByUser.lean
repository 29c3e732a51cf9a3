import Cdm.Daemon.Service

/-!
# Who cancels a download

A download is canceled through its flag, or by the handler of a request. The flag is also
set by the worker pool when it cannot create a thread (`spawnFails`): then the download
ends up canceled although nobody asked for it. Otherwise, whatever requests are made,
threads fail and restarts happen, a download is canceled, and what belongs to it discarded,
only if a cancel was received for it since it was added.
-/

namespace Cdm.ByUser

variable {R : CString → ℕ → UInt8} {s s' : Daemon} {a : Act} {id k : ℕ} {w : SchedulerWorker}

/-- A thread of the worker pool is not created. -/
def spawnFails : Service → Bool
  | .act (.thread _ (.engine (.pool (.spawn false)))) => true
  | _ => false

/-- A cancel was received for the download since it was added. The history has the last
    event first. -/
def canceledByUser (id : ℕ) : List Event → Bool
  | [] => false
  | .received c id' :: h => (c = .cancel && id' = id) || canceledByUser id h
  | .answered _ _ _ :: h => canceledByUser id h
  | .added id' :: h => id' ≠ id && canceledByUser id h

/-- An operation that is part of a cancel, and of nothing else. -/
def cancels : Op → Bool
  | .clearResumeState | .updateTotalSize _ | .unlink _ => true
  | .dbUpdateStatus name => name = "CANCELED"
  | _ => false

/-! ## The invariant -/

/-- If the worker cancels its download, then because `P`. -/
def WorkerJustified (P : Prop) : ThreadPc → Prop
  | .sampled _ canceled => canceled = true → P
  | .settling o => (o.status = .canceled ∨ (o.before ++ o.after).any cancels = true) → P
  | .leaving ops => ops.any cancels = true → P
  | _ => True

/-- If the handler cancels the download `id`, then because `P id`. -/
def HandlerJustified (P : ℕ → Prop) : DaemonPc → Prop
  | .handling (.checked .cancel id) => P id
  | .handling (.located id _) => P id
  | .handling (.finishing _ id ops _) => ops.any cancels = true → P id
  | _ => True

structure Inv (s : Daemon) : Prop where
  owned : Ownership s
  numbered : s.Numbered
  control : ∀ id d, s.store.control id = some d → d.cancelRequested = true ∨ d.status = .canceled →
    canceledByUser id s.history = true
  row : ∀ id, s.store.db.status id = some "CANCELED" → canceledByUser id s.history = true
  worker : ∀ k w, s.worker k = some w →
    WorkerJustified (canceledByUser w.downloadId s.history = true) w.pc
  handler : HandlerJustified (fun id => canceledByUser id s.history = true) s.pc

/-- A worker that found no cancel carries out none. -/
theorem outcome_justified {P : Prop} {cfg : Config} {d : Download} {now : ℕ} {rc : ℤ}
    {canceled paused : Bool} (h : canceled = true → P) :
    WorkerJustified P (.settling (outcome cfg d now rc canceled paused)) := by
  rcases outcome_cases cfg d now rc canceled paused with
    ⟨-, ho⟩ | ⟨-, hc, -⟩ | ⟨-, -, ho | ⟨text, ho⟩ | ho⟩
  · rw [ho]
    simp [WorkerJustified, doneOutcome, cancels]
  · exact fun _ => h hc
  · rw [ho]
    simp [WorkerJustified, pausedOutcome, cancels]
  · rw [ho]
    simp [WorkerJustified, errorOutcome, cancels]
  · rw [ho]
    simp [WorkerJustified, retryOutcome, cancels]

theorem WorkerJustified.mono {P Q : Prop} {pc : ThreadPc} (h : WorkerJustified P pc)
    (hPQ : P → Q) : WorkerJustified Q pc := by
  cases pc with
  | sampled => exact fun hc => hPQ (h hc)
  | settling => exact fun hc => hPQ (h hc)
  | leaving => exact fun hc => hPQ (h hc)
  | _ => trivial

theorem HandlerJustified.mono {P Q : ℕ → Prop} {pc : DaemonPc} (h : HandlerJustified P pc)
    (hPQ : ∀ id, P id → Q id) : HandlerJustified Q pc := by
  rw [HandlerJustified.eq_def] at h ⊢
  split at h
  · exact hPQ _ h
  · exact hPQ _ h
  · exact fun hc => hPQ _ (h hc)
  · trivial

/-! ## Steps of the threads -/

/-- A step adds to the history, and no download. -/
theorem canceledByUser_step (hst : Daemon.Step R s a s')
    (h : canceledByUser id s.history = true) : canceledByUser id s'.history = true := by
  cases hst with
  | request => simp [canceledByUser, h]
  | answer => exact h
  | _ => exact h

/-- Who performs an operation of a cancel has a reason to. -/
theorem performs_justified {op : Op} (h : Inv s) (hperf : Performs s id op a)
    (hop : cancels op = true) : canceledByUser id s.history = true := by
  cases hperf with
  | settle hw hid hpc =>
    have := h.worker _ _ hw
    rw [hpc, hid] at this
    exact this (.inr (by simp [hop]))
  | leave hw hid hpc =>
    have := h.worker _ _ hw
    rw [hpc, hid] at this
    exact this (by simp [hop])
  | finish hpc =>
    have := h.handler
    rw [hpc] at this
    exact this (by simp [hop])

theorem control_step (h : Inv s) (ha : spawnFails (.act a) = false) (hst : Daemon.Step R s a s')
    {d' : Download} (hd' : s'.store.control id = some d')
    (hc : d'.cancelRequested = true ∨ d'.status = .canceled) :
    canceledByUser id s.history = true := by
  obtain ⟨d, hd, hmove⟩ := hst.exists_moves h.owned.sound h.owned.ids hd'
  have hold := h.control id d hd
  cases hmove with
  | keeps => exact hold hc
  | raised _ _ ha' =>
    subst ha'
    cases ha
  | published hw hid hpc =>
    rcases hc with hc | hc
    · exact hold (.inl hc)
    · have := h.worker _ _ hw
      rw [hpc, hid] at this
      exact this (.inl hc)
  | paused =>
    refine hold (hc.imp ?_ ?_) <;> rw [Download.pause] <;> split <;> simp_all
  | resumed =>
    refine hold (hc.imp ?_ ?_) <;> rw [Download.resume] <;> split <;> simp_all
  | canceled hpc =>
    have := h.handler
    rw [hpc] at this
    exact this
  | picked =>
    refine hold (hc.imp_right ?_)
    intro hs
    cases hs
  | unpicked =>
    refine hold (hc.imp_right ?_)
    intro hs
    cases hs

theorem row_step (h : Inv s) (hst : Daemon.Step R s a s')
    (hrow : s'.store.db.status id = some "CANCELED") : canceledByUser id s.history = true := by
  rcases hst.status h.owned.sound id with heq | ⟨name, hperf, hdb⟩
  · exact h.row id (heq ▸ hrow)
  · refine performs_justified h hperf ?_
    rw [hdb] at hrow
    simpa [cancels] using (Db.eq_of_updateStatus hrow).symm

theorem worker_step (h : Inv s) (hst : Daemon.Step R s a s') (hw : s'.worker k = some w) :
    WorkerJustified (canceledByUser w.downloadId s.history = true) w.pc := by
  cases hst with
  | @thread k₁ w₁ d a₁ st pc hw₁ hd hth =>
    rw [Daemon.worker_set (Daemon.lt_of_worker hw₁) rfl] at hw
    split_ifs at hw with hk
    · cases hw
      have hold := h.worker _ _ hw₁
      generalize hpc : w₁.pc = pc₀ at hth hold
      cases hth with
      | engine => trivial
      | loadCancel => exact fun hc => h.control _ _ (Store.control_of_get hd) (.inl hc)
      | loadPause => exact outcome_justified hold
      | settle =>
        refine fun hc => hold (hc.imp_right fun hc => ?_)
        rw [List.cons_append, List.any_cons, hc, Bool.or_true]
      | publish => exact fun hc => hold (.inr hc)
      | leave =>
        refine fun hc => hold ?_
        rw [List.any_cons, hc, Bool.or_true]
      | ended => trivial
    · exact h.worker k w hw
  | tick => exact h.worker k w (Daemon.worker_reap rfl hw)
  | pick => exact h.worker k w (Daemon.worker_reap rfl hw)
  | start _ hk =>
    rw [Daemon.worker_set (Daemon.lt_of_free hk) rfl] at hw
    split_ifs at hw
    · cases hw
      trivial
    · exact h.worker k w hw
  | _ => exact h.worker k w hw

theorem handler_step (h : Inv s) (hst : Daemon.Step R s a s') :
    HandlerJustified (fun id => canceledByUser id s'.history = true) s'.pc := by
  have hold := h.handler
  cases hst with
  | thread => exact hold
  | @request c id hpc =>
    rcases commandCheck_cases s.store.fresh c id with ⟨hcheck, -⟩ | ⟨answer, hcheck, -⟩ <;>
      simp only [hcheck]
    · cases c with
      | cancel => simp [HandlerJustified, canceledByUser]
      | _ => trivial
    · exact fun hc => by cases hc
  | finish hpc =>
    rw [hpc] at hold
    refine fun hc => hold ?_
    rw [List.any_cons, hc, Bool.or_true]
  | pause =>
    intro hc
    split_ifs at hc <;> simp [cancels] at hc
  | resume =>
    simp only
    split_ifs
    · exact fun hc => by simp [cancels] at hc
    · exact fun hc => by cases hc
  | locate hpc =>
    rw [hpc] at hold
    exact hold
  | cancel hpc =>
    rw [hpc] at hold
    exact fun _ => hold
  | _ => trivial

theorem Inv.step (h : Inv s) (ha : spawnFails (.act a) = false) (hst : Daemon.Step R s a s') :
    Inv s' where
  owned := h.owned.step hst
  numbered := h.numbered.step h.owned hst
  control _ _ hd hc := canceledByUser_step hst (control_step h ha hst hd hc)
  row _ hr := canceledByUser_step hst (row_step h hst hr)
  worker _ _ hw := (worker_step h hst hw).mono (canceledByUser_step hst)
  handler := handler_step h hst

/-! ## Upkeep -/

theorem Inv.upkept {u : Upkeep} (h : Inv s) (hst : Daemon.Upkept s u s') : Inv s' := by
  have ho := h.owned.upkept h.numbered hst
  have hn := h.numbered.upkept hst
  cases hst with
  | @added _ url dest opts st id _ hu hpc hid hres =>
    obtain ⟨path, -, -, hle, -, hqueue, -, hdb⟩ := hres.added hid
    have hle' : s.store.nextId ≤ id := hle
    -- Nothing is known of the identifier yet: what is said of the others stays true.
    have hold {id' : ℕ} (hne : id' ≠ id) (hc : canceledByUser id' s.history = true) :
        canceledByUser id' (.added id :: s.history) = true := by
      simp [canceledByUser, hc, hne.symm]
    refine ⟨ho, hn, fun id' d hd hc => ?_, fun id' hr => ?_, fun k w hw => ?_, ?_⟩
    · rw [Store.control, Store.get_of_cons hqueue] at hd
      split_ifs at hd with hne
      · cases hd
        rcases hc with hc | hc <;> cases hc
      · exact hold (Ne.symm hne) (h.control id' d hd hc)
    · by_cases hne : id' = id
      · subst hne
        simp only [hdb, Db.status, Db.row_insertDownload] at hr
        exact absurd (Option.some.inj hr) (by decide : statusToString .queued ≠ "CANCELED")
      · refine hold hne (h.row id' ?_)
        rw [Db.status, ← Db.row_exec_of_ne (q := .insertDownload id url path opts true) hne]
        simp only [hdb] at hr
        exact hr
    · have hlt := h.numbered.worker_lt k w hw
      exact (h.worker k w hw).mono (hold (by omega))
    · simp only [hpc]
      trivial
  | refused hu hpc hres =>
    obtain ⟨hqueue, -, hdb⟩ := hres.refused rfl
    refine ⟨ho, hn, fun id d hd => h.control id d ?_, fun id hr => h.row id ?_, h.worker, h.handler⟩
    · rw [Store.control, Store.get, hqueue] at hd
      exact hd
    · simp only [hdb] at hr
      exact hr
  | settled => exact ⟨ho, hn, h.control, h.row, h.worker, h.handler⟩
  | stopping => exact ⟨ho, hn, h.control, h.row, h.worker, trivial⟩
  | restarted =>
    refine ⟨ho, hn, fun id d hd hc => h.row id ?_, fun id hr => h.row id ?_, fun k w hw => ?_, trivial⟩
    · rw [Store.control, Store.get_restore h.numbered.rows, Option.map_map] at hd
      obtain ⟨r, hr, rfl⟩ := Option.map_eq_some_iff.1 hd
      rcases hc with hc | hc
      · cases hc
      · rw [Db.status, (Option.filter_eq_some_iff.1 hr).1, Option.map_some,
          restoredStatus_eq_canceled hc]
    · simp only [Store.restore_db] at hr
      exact hr
    · rw [Daemon.worker_restarted rfl] at hw
      cases hw

theorem Inv.of_firstStart (h : FirstStart s) : Inv s where
  owned := h.atRest.ownership
  numbered := h.numbered
  control id d hd := by
    rw [Store.control, h.get] at hd
    cases hd
  row id hr := by
    rw [Db.status, h.row] at hr
    cases hr
  worker k w hw := by
    rw [h.worker] at hw
    cases hw
  handler := by
    rw [h.pc]
    trivial

/-! ## Runs -/

/-- The daemons in service all of whose threads of worker pools are created. -/
abbrev Reached (R : CString → ℕ → UInt8) : Daemon → Prop :=
  Run.Reachable (Daemon.serve R) FirstStart fun _ a => spawnFails a = false

theorem Inv.of_reached (hs : Reached R s) : Inv s := by
  refine hs.invariant (fun _ => Inv.of_firstStart) fun t a t' h ha hst => ?_
  cases a with
  | act a => exact h.step ha (.of_eq hst)
  | upkeep u => exact h.upkept (.of_eq h.numbered.positive hst)

/-- A download is canceled only if a cancel was received for it since it was added; the same
    holds for the operations of a cancel that are about to be performed on it. -/
theorem canceledByUser_of_spawned (hs : Reached R s) :
    (∀ d, s.store.get id = some d → d.status = .canceled → canceledByUser id s.history = true) ∧
      ∀ a op, Performs s id op a → cancels op = true → canceledByUser id s.history = true := by
  have h := Inv.of_reached hs
  exact ⟨fun d hd hc => h.control id _ (Store.control_of_get hd) (.inr hc),
    fun a op hperf hop => performs_justified h hperf hop⟩

/-- A download is added, and canceled. -/
theorem canceledByUser_of_spawned_request :
    ∃ s d, Reached (fun _ _ => 1) s ∧ s.store.get 1 = some d ∧ d.status = .canceled ∧
      canceledByUser 1 s.history = true := by
  obtain ⟨s, hs, d, hd, hc⟩ := reachable_of_serve (fun _ _ => 1) (fun _ a => spawnFails a = false)
    (fun s => ∃ d ∈ s.store.get 1, d.status = .canceled)
    ([.request .cancel 1] ++ List.replicate 3 .next) (by decide +kernel)
  exact ⟨s, d, hs, hd, hc, (canceledByUser_of_spawned hs).1 d hd hc⟩

/-- The pool of a download cannot create its first thread: the download is canceled, and its
    file gone, although no cancel was ever received. -/
theorem exists_canceled_by_nobody :
    ∃ s d, Run.Reachable (Daemon.serve fun _ _ => 1) FirstStart (fun _ _ => True) s ∧
      s.store.get 1 = some d ∧ d.status = .canceled ∧ s.store.files d.destPath = none ∧
      s.history = [.added 1] := by
  obtain ⟨s, hs, d, hd, hc, hf, hh⟩ := reachable_of_serve (fun _ _ => 1) (fun _ _ => True)
    (fun s => ∃ d ∈ s.store.get 1, d.status = .canceled ∧ (s.store.files d.destPath).isNone ∧
      s.history = [.added 1])
    (runActs [.check, .head (some ⟨4, false⟩), .plan ⟨⟨false, false⟩, false, false⟩,
      .pool (.spawn false), .join, .flush, .decide false] ++ sampleActs ++
      List.replicate 6 (.thread 0 .next)) (by decide +kernel)
  exact ⟨s, d, hs, hd, hc, Option.isNone_iff_eq_none.1 hf, hh⟩

end Cdm.ByUser
