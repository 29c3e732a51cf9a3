import Cdm.Daemon.Service

/-!
# What a step does to the retries of a download

The *retry part* of a download is its status, the number of its retries and the time of the
next one. `RetryMove` lists how a step changes it.
-/

namespace Cdm

variable {R : CString → ℕ → UInt8}

/-! ## The retry part -/

structure Retry where
  status : DownloadStatus
  count : ℕ
  nextAt : ℕ
  deriving DecidableEq

def Download.retry (d : Download) : Retry := ⟨d.status, d.retryCount, d.nextRetryAt⟩

/-- The retry part of the entry with an identifier. -/
def Store.retry (s : Store) (id : ℕ) : Option Retry := (s.get id).map Download.retry

/-- What an operation on a download makes of its retry part. -/
def Op.retry : Op → Retry → Retry
  | .finished, r | .clearResumeState, r => { r with count := 0, nextAt := 0 }
  | .setRetry count nextAt, r => { r with count := count, nextAt := nextAt }
  | _, r => r

@[simp] theorem Op.status_retry (op : Op) (r : Retry) : (op.retry r).status = r.status := by
  cases op <;> rfl

namespace Store

variable {s : Store} {id id' : ℕ}

/-- A change of an entry that amounts to `g` on the retry part. -/
theorem retry_modify {f : Download → Download} {g : Retry → Retry} (hid : ∀ d, (f d).id = d.id)
    (hg : ∀ d, (f d).retry = g d.retry) :
    (s.modify id f).retry id' = if id' = id then (s.retry id').map g else s.retry id' := by
  rw [retry, get_modify fun d hd => (hid d).trans hd]
  split_ifs
  · simp only [retry, Option.map_map]
    congr 1
    funext d
    exact hg d
  · rfl

theorem retry_exec {op : Op} :
    (op.exec id s).retry id' = if id' = id then (s.retry id').map op.retry else s.retry id' := by
  have hkeep : s.retry id' = if id' = id then (s.retry id').map fun r => r else s.retry id' := by
    simp
  cases op with
  | finished => exact retry_modify (fun _ => rfl) fun _ => rfl
  | setRetry => exact retry_modify (fun _ => rfl) fun _ => rfl
  | clearResumeState => exact retry_modify (fun _ => rfl) fun _ => rfl
  | _ => exact hkeep

theorem retry_of_get {d : Download} (h : s.get id = some d) : s.retry id = some d.retry := by
  rw [retry, h]
  rfl

theorem retry_isSome : (s.retry id).isSome = (s.get id).isSome := by
  rw [retry, Option.isSome_map]

theorem isActive_iff_retry :
    s.isActive id = true ↔ ∃ r, s.retry id = some r ∧ r.status = .active := by
  rw [isActive, queueManagerGetStatus, retry, decide_eq_true_eq]
  cases s.get id <;> simp [Download.retry]

theorem status_of_retry {r : Retry} (h : s.retry id = some r) :
    queueManagerGetStatus s id = some r.status := by
  obtain ⟨d, hd, rfl⟩ := Option.map_eq_some_iff.1 h
  rw [queueManagerGetStatus, hd]
  rfl

theorem status_of_isActive {r : Retry} (h : s.isActive id = true) (hr : s.retry id = some r) :
    r.status = .active := by
  obtain ⟨r', hr', hs⟩ := isActive_iff_retry.1 h
  rw [hr] at hr'
  cases hr'
  exact hs

end Store

/-- A download that is picked is due. -/
theorem queueManagerFindNextQueued_due {s : Store} {now : ℕ} {d : Download}
    (h : queueManagerFindNextQueued s now = some d) : d.nextRetryAt ≤ now := by
  -- The best entry so far is due.
  suffices ∀ b ∈ queueManagerFindNextQueued s now, b.nextRetryAt ≤ now from this d h
  refine List.foldlRecOn (motive := fun best : Option Download => ∀ b ∈ best, b.nextRetryAt ≤ now)
    _ _ (fun _ h => by cases h) fun best hbest e _ b hb => ?_
  split_ifs at hb with hqueued hwait
  · exact hbest b hb
  · exact hbest b hb
  · have he : e.nextRetryAt ≤ now := by
      by_contra hlt
      exact hwait ⟨by omega, by omega⟩
    split at hb
    · cases hb
      exact he
    · split_ifs at hb
      · cases hb
        exact he
      · exact hbest b hb

/-! ## What a step does to the retry part -/

/-- The download whose engine is run from here on. -/
def Daemon.starts (s : Daemon) (a : Act) : Option ℕ :=
  match a, s.pc with
  | .start true, .picked id => if (freeWorker s.workers).isSome then some id else none
  | _, _ => none

theorem Daemon.starts_eq_some {s : Daemon} {a : Act} {id : ℕ} (h : s.starts a = some id) :
    a = .start true ∧ s.pc = .picked id ∧ ∃ k, freeWorker s.workers = some k := by
  unfold Daemon.starts at h
  split at h
  · rename_i id' hpc
    split_ifs at h with hfree
    cases h
    exact ⟨rfl, hpc, Option.isSome_iff_exists.1 hfree⟩
  · cases h

theorem Daemon.starts_of_free {s : Daemon} {id k : ℕ} (hpc : s.pc = .picked id)
    (hk : freeWorker s.workers = some k) : s.starts (.start true) = some id := by
  simp [Daemon.starts, hpc, hk]

/-- How a step from `s` changes the retry part of the download `id`. -/
inductive RetryMove (s : Daemon) (a : Act) (id : ℕ) (r : Retry) : Retry → Prop
  | keeps : RetryMove s a id r r
  /-- Its worker publishes how the run ended. -/
  | published {k : ℕ} {w : SchedulerWorker} {status : DownloadStatus} {after : List Op}
      (hw : s.worker k = some w) (hid : w.downloadId = id)
      (hpc : w.pc = .settling ⟨[], status, after⟩) (ha : a = .thread k .next) :
      RetryMove s a id r { r with status := status }
  | performed {op : Op} (h : Performs s id op a) : RetryMove s a id r (op.retry r)
  | paused (ha : a = .next) (hq : r.status = .queued) :
      RetryMove s a id r { r with status := .paused }
  | resumed (hpc : s.pc = .handling (.checked .resume id)) (ha : a = .next)
      (hs : r.status = .paused ∨ r.status = .error) : RetryMove s a id r ⟨.queued, 0, 0⟩
  | canceled (ha : a = .next) (hs : r.status ≠ .active) :
      RetryMove s a id r { r with status := .canceled }
  | picked {now : ℕ} (ha : a = .tick now) (hq : r.status = .queued) (hdue : r.nextAt ≤ now) :
      RetryMove s a id r { r with status := .active, nextAt := 0 }
  | unpicked {created : Bool} (hpc : s.pc = .picked id) (ha : a = .start created)
      (hno : s.starts a = none) : RetryMove s a id r { r with status := .queued }

theorem Download.retry_pause (d : Download) :
    d.pause.retry = if d.status = .queued then { d.retry with status := .paused } else d.retry := by
  cases d with
  | mk _ _ _ _ status => cases status <;> rfl

theorem Download.retry_resume (d : Download) :
    d.resume.retry =
      if d.status = .paused ∨ d.status = .error then ⟨.queued, 0, 0⟩ else d.retry := by
  cases d with
  | mk _ _ _ _ status => cases status <;> rfl

theorem Download.retry_cancel (d : Download) :
    d.cancel.retry =
      if d.status = .active then d.retry else { d.retry with status := .canceled } := by
  cases d with
  | mk _ _ _ _ status => cases status <;> rfl

namespace Daemon.Step

variable {s s' : Daemon} {a : Act} {id : ℕ} {r : Retry}

/-- A change of the entry `id'`, seen at `id`. -/
theorem retryMove_modify {st : Store} {id' : ℕ} {f : Download → Download} {g : Retry → Retry}
    (hr : st.retry id = some r) (hid : ∀ d, (f d).id = d.id)
    (hg : ∀ d, (f d).retry = g d.retry) (hmove : id = id' → RetryMove s a id r (g r)) :
    ∃ r', (st.modify id' f).retry id = some r' ∧ RetryMove s a id r r' := by
  rw [Store.retry_modify hid hg, hr]
  split_ifs with h
  · exact ⟨_, rfl, hmove h⟩
  · exact ⟨_, rfl, .keeps⟩

theorem retryMove_exec {st : Store} {id' : ℕ} {op : Op} (hr : st.retry id = some r)
    (hop : Performs s id' op a) :
    ∃ r', (op.exec id' st).retry id = some r' ∧ RetryMove s a id r r' := by
  rw [Store.retry_exec, hr]
  split_ifs with h
  · exact ⟨_, rfl, .performed (h ▸ hop)⟩
  · exact ⟨_, rfl, .keeps⟩

theorem retryMove (hs : s.step R a = some s') (hsound : s.Sound)
    (hids : (s.store.queue.map (·.id)).Nodup) (hr : s.store.retry id = some r) :
    ∃ r', s'.store.retry id = some r' ∧ RetryMove s a id r r' := by
  have hr' : s.store.fresh.retry id = some r := hr
  have hst := Daemon.Step.of_eq hs
  cases hst with
  | @thread k w d₀ a st pc hw hd₀ h =>
    have hid₀ := Store.get_id hd₀
    generalize hpc : w.pc = pc₀ at h
    cases h with
    | engine h =>
      obtain ⟨d₁, hmove, -, -⟩ := Store.engineStep_spec (hsound k w _ hw hpc) h
      have hretry : d₁.retry = d₀.retry := by
        obtain ⟨-, hstatus, -, -, -, hcount, hnext, -⟩ := Download.frame_eq hmove.frame
        rw [Download.retry, hstatus, hcount, hnext, Download.retry]
      refine ⟨r, ?_, .keeps⟩
      by_cases hid : id = d₀.id
      · subst hid
        rw [hid₀] at hr
        have hget : s.store.fresh.get d₀.id = some d₀ := hid₀ ▸ hd₀
        rw [Store.retry_of_get (hmove.get_self hget), hretry, ← hr]
        exact (Store.retry_of_get hd₀).symm
      · rw [Store.retry, hmove.get_of_ne hid]
        exact hr
    | loadCancel => exact ⟨r, hr, .keeps⟩
    | loadPause => exact ⟨r, hr, .keeps⟩
    | settle => exact retryMove_exec hr' (.settle hw hid₀.symm hpc)
    | publish =>
      exact retryMove_modify hr' (g := fun r => { r with status := _ }) (fun _ => rfl)
        (fun _ => rfl) fun hid => .published hw (hid₀.symm.trans hid.symm) hpc rfl
    | leave => exact retryMove_exec hr' (.leave hw hid₀.symm hpc)
    | ended => exact ⟨r, hr, .keeps⟩
  | @pick now d hpc hmem hq hpick =>
    refine retryMove_modify hr' (g := fun r => { r with status := .active, nextAt := 0 })
      (fun _ => rfl) (fun _ => rfl) fun hid => ?_
    have hget := Store.get_of_mem hids hmem
    have hd : r = d.retry := by
      rw [hid, Store.retry_of_get hget] at hr
      exact (Option.some.inj hr).symm
    -- The download picked is the one found due.
    have hdue : d.nextRetryAt ≤ now := by
      rw [schedulerPick] at hpick
      split_ifs at hpick
      split at hpick
      · cases hpick
      · rename_i d' hfind
        have hget' := Store.get_of_mem (s := s.store) hids
          (queueManagerFindNextQueued_spec hfind).1
        rw [Option.some.inj hpick, hget] at hget'
        cases hget'
        exact queueManagerFindNextQueued_due hfind
    exact .picked rfl (hd ▸ hq) (hd ▸ hdue)
  | start => exact ⟨r, hr, .keeps⟩
  | @startFails id' created hpc =>
    obtain ⟨store, workers, pc, cfg, offers, history⟩ := s
    simp only at hpc
    subst hpc
    by_cases hstart : (Daemon.mk store workers (.picked id') cfg offers history).starts
        (.start created) = none
    · exact retryMove_modify hr' (g := fun r => { r with status := .queued }) (fun _ => rfl)
        (fun _ => rfl) fun hid => .unpicked (by rw [hid]) rfl hstart
    · -- A worker was started after all.
      have hstarted : (Daemon.mk store workers (.picked id') cfg offers history).store.fresh =
          queueManagerUpdateStatus store.fresh id' .queued := by
        cases created with
        | false => exact absurd rfl hstart
        | true =>
          have hfree : (freeWorker workers).isSome = true := by
            by_contra hno
            exact hstart (if_neg hno)
          obtain ⟨k, hk⟩ := Option.isSome_iff_exists.1 hfree
          have hstore := congrArg Daemon.store (Option.some.inj hs)
          simpa only [schedulerStart, hk] using hstore
      exact ⟨r, hstarted ▸ hr', .keeps⟩
  | finish hpc => exact retryMove_exec hr' (.finish hpc)
  | pause hpc =>
    exact retryMove_modify hr' (g := fun r =>
      if r.status = .queued then { r with status := .paused } else r) Download.pause_id
      (fun d => Download.retry_pause d) fun hid => by
        split_ifs with hq
        · exact .paused rfl hq
        · exact .keeps
  | resume hpc =>
    exact retryMove_modify hr' (g := fun r =>
      if r.status = .paused ∨ r.status = .error then ⟨.queued, 0, 0⟩ else r) Download.resume_id
      (fun d => Download.retry_resume d) fun hid => by
        split_ifs with hs
        · exact .resumed (hid ▸ hpc) rfl hs
        · exact .keeps
  | cancel hpc =>
    exact retryMove_modify hr' (g := fun r =>
      if r.status = .active then r else { r with status := .canceled }) Download.cancel_id
      (fun d => Download.retry_cancel d) fun hid => by
        split_ifs with hs
        · exact .keeps
        · exact .canceled rfl hs
  | stop hpc =>
    exact retryMove_modify hr' (g := fun r =>
      if r.status = .queued then { r with status := .paused } else r) Download.pause_id
      (fun d => Download.retry_pause d) fun hid => by
        split_ifs with hq
        · exact .paused rfl hq
        · exact .keeps
  | _ => exact ⟨r, hr, .keeps⟩

end Daemon.Step

/-- A download there is after a step was there before. -/
theorem Daemon.Step.exists_retryMove {s s' : Daemon} {a : Act} {id : ℕ} {r' : Retry}
    (hs : s.step R a = some s') (hsound : s.Sound) (hids : (s.store.queue.map (·.id)).Nodup)
    (hr' : s'.store.retry id = some r') :
    ∃ r, s.store.retry id = some r ∧ RetryMove s a id r r' := by
  have hsome : (s.store.retry id).isSome := by
    rw [Store.retry_isSome, Store.get_isSome, ← (Daemon.Step.of_eq hs).ids hsound,
      ← Store.get_isSome, ← Store.retry_isSome, hr']
    rfl
  obtain ⟨r, hr⟩ := Option.isSome_iff_exists.1 hsome
  obtain ⟨r₁, hr₁, hmove⟩ := Daemon.Step.retryMove hs hsound hids hr
  rw [hr'] at hr₁
  cases hr₁
  exact ⟨r, hr, hmove⟩

end Cdm
