import Cdm.Daemon.RetryMoves

/-!
# Retries

A run of the engine that fails is retried, after a delay and a limited number of times.

Beside the state of the daemon it is recorded, for every download, how often the engine was
run since it was added or last resumed, whether a run has ended in a way that is not retried,
and the time before which a failure has asked not to retry (`Track`). The engine may return
anything, at any time: `retriesKept` bounds the runs, and shows that no download is run again
when it must not be, or before its time.
-/

namespace Cdm

variable {R : CString → ℕ → UInt8}

/-! ## What is recorded -/

structure Track where
  /-- How often the engine was run, since the download was added or last resumed. -/
  runs : ℕ
  /-- Since then a run has ended in a way that is not retried. -/
  ended : Bool
  /-- Since then a failure has asked not to retry before this time. -/
  deadline : ℕ
  deriving DecidableEq

def Track.zero : Track := ⟨0, false, 0⟩

/-- A run that ends like this is not retried. -/
def notRetried (rc : ℤ) : Bool := rc = 0 || rc = -2 || rc = -3 || rc = -4

/-- What is recorded of a download in a step of the threads. -/
def Daemon.track (s : Daemon) (a : Act) (id : ℕ) (t : Track) : Track :=
  match a with
  | .start _ => if s.starts a = some id then { t with runs := t.runs + 1 } else t
  | .next =>
    match s.pc with
    | .handling (.checked .resume id') =>
      if id' = id ∧ (queueManagerResume s.store id).2 = true then .zero else t
    | _ => t
  | .thread k .loadCancel =>
    match s.worker k with
    | some ⟨id', .engine (.idle (some rc))⟩ =>
      if id' = id then { t with ended := t.ended || notRetried rc } else t
    | _ => t
  | .thread k .next =>
    match s.worker k with
    | some ⟨id', .settling ⟨.setRetry _ nextAt :: _, .queued, _⟩⟩ =>
      if id' = id then { t with deadline := nextAt } else t
    | _ => t
  | _ => t

/-- A daemon just started records nothing of the runs before. -/
def Upkeep.track (u : Upkeep) (track : ℕ → Track) : ℕ → Track :=
  match u with
  | .restart _ => fun _ => .zero
  | _ => track

/-- The time after a step of the threads. -/
def Act.clock (a : Act) (clock : ℕ) : ℕ :=
  match a with
  | .tick now => now
  | _ => clock

structure Tracked where
  daemon : Daemon
  /-- The time of the last tick. -/
  clock : ℕ
  track : ℕ → Track

inductive TrackedAct
  | serve (x : Service)
  /-- The engine of a worker returns. -/
  | engineReturns (k : ℕ) (rc : ℤ)

def Tracked.step (R : CString → ℕ → UInt8) (t : Tracked) : TrackedAct → Option Tracked
  | .serve (.act a) =>
    (t.daemon.step R a).map fun s =>
      ⟨s, a.clock t.clock, fun id => t.daemon.track a id (t.track id)⟩
  | .serve (.upkeep u) => (t.daemon.upkeep u).map fun s => ⟨s, t.clock, u.track t.track⟩
  | .engineReturns k rc =>
    match t.daemon.worker k with
    | some ⟨id, .engine _⟩ =>
      some { t with
        daemon := { t.daemon with
          workers := t.daemon.workers.set k (some ⟨id, .engine (.idle (some rc))⟩) } }
    | _ => none

/-- The clock does not go back, and the settings stay as they are while the daemon runs. -/
def Steady (t : Tracked) : TrackedAct → Prop
  | .serve (.act (.tick now)) => t.clock ≤ now
  | .serve (.upkeep (.reload cfg)) => cfg = t.daemon.cfg
  | _ => True

instance (t : Tracked) (a : TrackedAct) : Decidable (Steady t a) := by
  unfold Steady
  split <;> infer_instance

def Tracked.IsInit (t : Tracked) : Prop := FirstStart t.daemon ∧ ∀ id, t.track id = .zero

/-! ## The invariant -/

/-- A queued download has been run as often as it was retried, and is not retried before its
    deadline. -/
structure Track.Waits (t : Track) (clock : ℕ) (r : Retry) : Prop where
  ended : t.ended = false
  runs : t.runs ≤ r.count
  deadline : t.deadline ≤ r.nextAt ∨ t.deadline ≤ clock

structure EntryInv (max clock : ℕ) (t : Track) (r : Retry) : Prop where
  count : r.count ≤ max
  runs : t.runs ≤ max + 1
  queued : r.status = .queued → t.Waits clock r

/-- Nothing is recorded of a download just added or resumed. -/
theorem EntryInv.zero {max clock : ℕ} {r : Retry} (h : r.count ≤ max) :
    EntryInv max clock .zero r :=
  ⟨h, Nat.zero_le _, fun _ => ⟨rfl, Nat.zero_le _, .inl (Nat.zero_le _)⟩⟩

/-- An operation changes no retry part. -/
def Op.Harmless (op : Op) : Prop := ∀ r, op.retry r = r

/-- An operation does not count retries. -/
def Op.Forgets (op : Op) : Prop := ∀ r, (op.retry r).count ≤ r.count

theorem Op.forgets_of_mem_discardOps {op : Op} {path : CString} (h : op ∈ discardOps path) :
    op.Forgets := by
  simp only [discardOps, List.mem_append, List.mem_cons] at h
  intro r
  cases op with
  | clearResumeState => exact Nat.zero_le _
  | setRetry => split_ifs at h <;> simp at h
  | finished => exact Nat.zero_le _
  | _ => exact le_rfl

/-- A worker is going to publish how its run ended; if the download is retried, the retry is
    counted first. -/
structure SettleInv (max : ℕ) (t : Track) (r : Retry) (o : Outcome) : Prop where
  after : ∀ op ∈ o.after, op.Harmless
  queued : o.status = .queued → t.ended = false ∧
    ((∃ nextAt, o.before = [.setRetry (r.count + 1) nextAt] ∧ r.count < max ∧
      t.runs ≤ r.count + 1) ∨
    o.before = [] ∧ t.runs ≤ r.count ∧ t.deadline ≤ r.nextAt)
  forgets : o.status ≠ .queued → ∀ op ∈ o.before, op.Forgets

def PhaseInv (max : ℕ) (t : Track) (r : Retry) : ThreadPc → Prop
  | .engine _ => t.ended = false ∧ t.runs ≤ r.count + 1
  | .sampled rc _ => t.ended = notRetried rc ∧ t.runs ≤ r.count + 1
  | .settling o => SettleInv max t r o
  | .leaving ops => ∀ op ∈ ops, op.Harmless
  | .done => True

/-- How often a download may be retried. -/
def Daemon.maxRetries (s : Daemon) : ℕ := s.cfg.retryMaxAttempts.toNat

structure TrackedInv (t : Tracked) : Prop where
  ownership : Ownership t.daemon
  numbered : t.daemon.Numbered
  absent : ∀ id, t.daemon.store.retry id = none → t.track id = .zero
  entry : ∀ id r, t.daemon.store.retry id = some r →
    EntryInv t.daemon.maxRetries t.clock (t.track id) r
  phase : ∀ k w r, t.daemon.worker k = some w → t.daemon.store.retry w.downloadId = some r →
    PhaseInv t.daemon.maxRetries (t.track w.downloadId) r w.pc
  picked : ∀ id r, t.daemon.pc = .picked id → t.daemon.store.retry id = some r →
    (t.track id).ended = false ∧ (t.track id).runs ≤ r.count ∧ (t.track id).deadline ≤ t.clock
  /-- A handler changes the retry part of a canceled download only. -/
  handler : ∀ c id ops answer, t.daemon.pc = .handling (.finishing c id ops answer) →
    ∀ op ∈ ops, op.Harmless ∨ op.Forgets ∧
      ∀ r, t.daemon.store.retry id = some r → r.status = .canceled

/-- What a worker relies on that has published its status does not depend on its download. -/
theorem PhaseInv.of_not_owns {max max' : ℕ} {t t' : Track} {r r' : Retry} {w : SchedulerWorker}
    (h : PhaseInv max t r w.pc) (hw : w.owns ≠ true) : PhaseInv max' t' r' w.pc := by
  rw [SchedulerWorker.owns] at hw
  split at hw
  · exact absurd rfl hw
  · exact absurd rfl hw
  · exact absurd rfl hw
  · rename_i ops hpc
    rw [hpc] at h ⊢
    exact h
  · rename_i hpc
    rw [hpc]
    trivial

/-- The outcome of a run counts the retry, if there is one. -/
theorem settleInv_outcome {cfg : Config} {d : Download} {now : ℕ} {rc : ℤ} {canceled paused : Bool}
    {t : Track} (hended : t.ended = notRetried rc) (hruns : t.runs ≤ d.retryCount + 1) :
    SettleInv cfg.retryMaxAttempts.toNat t d.retry (outcome cfg d now rc canceled paused) := by
  have hharmless {text name : String} : ∀ op ∈ [Op.dbUpdateStatus name, .broadcast text],
      op.Harmless := by
    simp [Op.Harmless, Op.retry]
  rw [outcome]
  split_ifs with h₀ hcanceled hpaused h₂ h₃ hlt
  · exact ⟨hharmless, by simp [doneOutcome], fun _ op hop => by
      rcases List.mem_cons.1 hop with rfl | hop
      · exact fun r => Nat.zero_le _
      · rw [List.mem_singleton.1 hop]
        exact fun r => le_rfl⟩
  · exact ⟨by simp [canceledOutcome, Op.Harmless, Op.retry], by simp [canceledOutcome],
      fun _ _ hop => Op.forgets_of_mem_discardOps hop⟩
  · exact ⟨hharmless, by simp [pausedOutcome], by simp [pausedOutcome]⟩
  · exact ⟨hharmless, by simp [errorOutcome], fun _ op hop => by
      rw [List.mem_singleton.1 hop]
      exact fun r => Nat.zero_le _⟩
  · exact ⟨hharmless, by simp [errorOutcome], fun _ op hop => by
      rw [List.mem_singleton.1 hop]
      exact fun r => Nat.zero_le _⟩
  · refine ⟨hharmless, fun _ => ⟨?_, .inl ⟨_, rfl, ?_, hruns⟩⟩, fun hne => absurd rfl hne⟩
    · rw [hended, notRetried]
      simpa [h₀, h₂] using h₃
    · change d.retryCount < _
      omega
  · exact ⟨hharmless, by simp [errorOutcome], fun _ op hop => by
      rw [List.mem_singleton.1 hop]
      exact fun r => Nat.zero_le _⟩

/-! ## The threads keep it -/

theorem Store.retry_eq_none {s : Store} {id : ℕ} :
    s.retry id = none ↔ id ∉ s.queue.map (·.id) := by
  rw [← Store.get_isSome, ← Option.not_isSome_iff_eq_none, Store.retry_isSome]

theorem Daemon.Step.cfg {s s' : Daemon} {a : Act} (hst : Daemon.Step R s a s') :
    s'.cfg = s.cfg := by
  cases hst <;> rfl

theorem Daemon.Step.maxRetries {s s' : Daemon} {a : Act} (hst : Daemon.Step R s a s') :
    s'.maxRetries = s.maxRetries := by
  rw [Daemon.maxRetries, hst.cfg, Daemon.maxRetries]

theorem Daemon.Step.retry_none {s s' : Daemon} {a : Act} {id : ℕ} (hst : Daemon.Step R s a s')
    (hsound : s.Sound) : s'.store.retry id = none ↔ s.store.retry id = none := by
  rw [Store.retry_eq_none, Store.retry_eq_none, hst.ids hsound]

/-- A worker changes the retry part of its own download only. -/
theorem Daemon.Step.retry_of_thread {s s' : Daemon} {k id : ℕ} {b : ThreadAct}
    {w : SchedulerWorker} (hs : s.step R (.thread k b) = some s') (ho : Ownership s)
    (hw : s.worker k = some w) (hne : id ≠ w.downloadId) :
    s'.store.retry id = s.store.retry id := by
  cases hr : s.store.retry id with
  | none => exact ((Daemon.Step.of_eq hs).retry_none ho.sound).2 hr
  | some r =>
    obtain ⟨r', hr', hmove⟩ := Daemon.Step.retryMove hs ho.sound ho.ids hr
    have hother {k' : ℕ} {w' : SchedulerWorker} (hw' : s.worker k' = some w')
        (ha : Act.thread k b = .thread k' .next) (hid : w'.downloadId = id) : False := by
      cases ha
      rw [hw] at hw'
      cases hw'
      exact hne hid.symm
    rw [hr']
    cases hmove with
    | keeps => rfl
    | published hw' hid _ ha => exact (hother hw' ha hid).elim
    | performed hop =>
      generalize ha : Act.thread k b = a at hop
      cases hop with
      | settle hw' hid => exact (hother hw' ha hid).elim
      | leave hw' hid => exact (hother hw' ha hid).elim
      | finish => cases ha
    | paused ha => cases ha
    | resumed _ ha => cases ha
    | canceled ha => cases ha
    | picked ha => cases ha
    | unpicked _ ha => cases ha

namespace TrackedInv

variable {t : Tracked} {s' : Daemon} {a : Act} {k id : ℕ} {r : Retry}

/-- Of a download that is not there nothing is recorded. -/
theorem track_of_absent (h : TrackedInv t) (hs : t.daemon.step R a = some s')
    (hr : t.daemon.store.retry id = none) : t.daemon.track a id (t.track id) = t.track id := by
  have hget : t.daemon.store.get id = none := by
    simpa [Store.retry] using hr
  have hworker {k : ℕ} {b : ThreadAct} {w : SchedulerWorker} (ha : a = .thread k b)
      (hw : t.daemon.worker k = some w) : w.downloadId ≠ id := by
    rintro rfl
    subst ha
    cases Daemon.Step.of_eq hs with
    | thread hw' hd =>
      rw [hw] at hw'
      cases hw'
      rw [hget] at hd
      cases hd
  cases a with
  | start created =>
    refine if_neg fun hstart => ?_
    obtain ⟨-, hpc, -⟩ := Daemon.starts_eq_some hstart
    obtain ⟨r, hr', -⟩ := Store.isActive_iff_retry.1 (h.ownership.picked _ hpc).1
    rw [hr] at hr'
    cases hr'
  | next =>
    rw [Daemon.track]
    split
    · refine if_neg ?_
      rintro ⟨rfl, hresumed⟩
      simp [queueManagerResume, queueManagerGetStatus, hget] at hresumed
    · rfl
  | thread k b =>
    cases b with
    | loadCancel =>
      rw [Daemon.track]
      split
      · exact if_neg fun heq => hworker rfl ‹_› heq
      · rfl
    | next =>
      rw [Daemon.track]
      split
      · exact if_neg fun heq => hworker rfl ‹_› heq
      · rfl
    | _ => rfl
  | _ => rfl

/-- An owner's download is active. -/
theorem status_of_owns (h : TrackedInv t) {w : SchedulerWorker} (hw : t.daemon.worker k = some w)
    (ho : w.owns = true) (hr : t.daemon.store.retry w.downloadId = some r) : r.status = .active :=
  Store.status_of_isActive (h.ownership.active k w hw ho) hr

theorem status_of_picked (h : TrackedInv t) (hpc : t.daemon.pc = .picked id)
    (hr : t.daemon.store.retry id = some r) : r.status = .active :=
  Store.status_of_isActive (h.ownership.picked id hpc).1 hr

/-- What a step of a worker does to its own download. -/
theorem thread_self (h : TrackedInv t) {w : SchedulerWorker} {d : Download} {b : ThreadAct}
    {st : Store} {pc : ThreadPc} (hw : t.daemon.worker k = some w)
    (hd : t.daemon.store.get w.downloadId = some d)
    (hth : ThreadStep R t.daemon.cfg t.daemon.store.fresh d w.pc b st pc)
    (hs : t.daemon.step R (.thread k b) = some s') (hstore : s'.store = st) :
    ∃ r', s'.store.retry w.downloadId = some r' ∧
      let τ := t.daemon.track (.thread k b) w.downloadId (t.track w.downloadId)
      PhaseInv t.daemon.maxRetries τ r' pc ∧ EntryInv t.daemon.maxRetries t.clock τ r' ∧
        (w.owns ≠ true → r' = d.retry ∧ τ = t.track w.downloadId) := by
  have hid := Store.get_id hd
  have hr := Store.retry_of_get hd
  have hentry := h.entry _ _ hr
  have hphase := h.phase k w _ hw hr
  obtain ⟨id, wpc⟩ := w
  simp only at hd hid hr hentry hphase hth ⊢
  rw [hstore]
  cases hth with
  | engine heng =>
    -- The engine leaves the retries alone.
    obtain ⟨r', hr', hmove⟩ := Daemon.Step.retryMove hs h.ownership.sound h.ownership.ids hr
    have hkeep : r' = d.retry := by
      cases hmove with
      | keeps => rfl
      | published _ _ _ ha => cases ha
      | performed hop => cases hop
      | paused ha => cases ha
      | resumed _ ha => cases ha
      | canceled ha => cases ha
      | picked ha => cases ha
      | unpicked _ ha => cases ha
    exact ⟨_, hkeep ▸ hstore ▸ hr', hphase, hentry, fun _ => ⟨rfl, rfl⟩⟩
  | @loadCancel rc =>
    have htrack : t.daemon.track (.thread k .loadCancel) id (t.track id) =
        { t.track id with ended := notRetried rc } := by
      simp only [Daemon.track, hw, hphase.1, Bool.false_or]
      exact if_pos trivial
    rw [htrack]
    refine ⟨_, hr, ⟨rfl, hphase.2⟩, ⟨hentry.count, hentry.runs, fun hq => ?_⟩,
      fun ho => absurd rfl ho⟩
    -- It is the outcome that is recorded; the download is active until it is published.
    have hactive := h.status_of_owns hw rfl hr
    rw [hq] at hactive
    cases hactive
  | loadPause =>
    exact ⟨_, hr, settleInv_outcome hphase.1 hphase.2, hentry, fun _ => ⟨rfl, rfl⟩⟩
  | @settle op ops after status =>
    have hr' : (op.exec d.id t.daemon.store.fresh).retry id = some (op.retry d.retry) := by
      rw [Store.retry_exec, hid, if_pos rfl]
      exact congrArg (Option.map op.retry) hr
    have hactive : d.retry.status = .active := h.status_of_owns hw rfl hr
    have hnot : (op.retry d.retry).status ≠ .queued := by
      rw [Op.status_retry, hactive]
      decide
    refine ⟨_, hr', ?_⟩
    by_cases hq : status = .queued
    · -- The retry is counted, with its deadline.
      subst hq
      obtain ⟨hended, ⟨nextAt, hbefore, hlt, hruns⟩ | ⟨hbefore, -⟩⟩ := hphase.queued rfl
      · obtain ⟨rfl, rfl⟩ := List.cons.inj hbefore
        have htrack : t.daemon.track (.thread k .next) id (t.track id) =
            { t.track id with deadline := nextAt } := by
          simp only [Daemon.track, hw]
          exact if_pos trivial
        rw [htrack]
        exact ⟨⟨hphase.after, fun _ => ⟨hended, .inr ⟨rfl, hruns, le_rfl⟩⟩,
          fun hne => absurd rfl hne⟩, ⟨hlt, by
            have := hentry.runs
            exact this, fun hq => absurd hq hnot⟩, fun ho => absurd rfl ho⟩
      · cases hbefore
    · have hforgets := hphase.forgets hq
      have htrack : t.daemon.track (.thread k .next) id (t.track id) = t.track id := by
        simp only [Daemon.track, hw]
        split
        · rename_i heq
          simp only [Option.some.injEq, SchedulerWorker.mk.injEq, ThreadPc.settling.injEq,
            Outcome.mk.injEq] at heq
          exact absurd heq.2.2.1 hq
        · rfl
      rw [htrack]
      exact ⟨⟨hphase.after, fun hq' => absurd hq' hq,
        fun _ op' hop => hforgets op' (List.mem_cons_of_mem _ hop)⟩,
        ⟨(hforgets op List.mem_cons_self _).trans hentry.count, hentry.runs,
          fun hq => absurd hq hnot⟩, fun ho => absurd rfl ho⟩
  | @publish after status =>
    have hr' : (queueManagerUpdateStatus t.daemon.store.fresh d.id status).retry id =
        some { d.retry with status := status } := by
      rw [queueManagerUpdateStatus, Store.retry_modify (f := fun d => { d with status := status })
        (g := fun r => { r with status := status }) (fun _ => rfl) fun _ => rfl, hid, if_pos rfl]
      exact congrArg (Option.map _) hr
    have htrack : t.daemon.track (.thread k .next) id (t.track id) = t.track id := by
      simp only [Daemon.track, hw]
    rw [htrack]
    refine ⟨_, hr', hphase.after, ⟨hentry.count, hentry.runs, fun hq => ?_⟩,
      fun ho => absurd rfl ho⟩
    -- Published as queued, the download has its retry counted and its deadline set.
    obtain ⟨hended, ⟨_, hbefore, -⟩ | ⟨-, hruns, hdeadline⟩⟩ := hphase.queued hq
    · cases hbefore
    · exact ⟨hended, hruns, .inl hdeadline⟩
  | @leave op ops =>
    have hharmless := hphase op List.mem_cons_self
    have hr' : (op.exec d.id t.daemon.store.fresh).retry id = some d.retry := by
      rw [Store.retry_exec, hid, if_pos rfl]
      exact (congrArg (Option.map op.retry) hr).trans (congrArg some (hharmless _))
    have htrack : t.daemon.track (.thread k .next) id (t.track id) = t.track id := by
      simp only [Daemon.track, hw]
    rw [htrack]
    exact ⟨_, hr', fun op' hop => hphase op' (List.mem_cons_of_mem _ hop), hentry,
      fun _ => ⟨rfl, rfl⟩⟩
  | ended =>
    have htrack : t.daemon.track (.thread k .next) id (t.track id) = t.track id := by
      simp only [Daemon.track, hw]
    rw [htrack]
    exact ⟨_, hr, trivial, hentry, fun _ => ⟨rfl, rfl⟩⟩

/-- What is recorded of a download in a step of the worker of another one. -/
theorem track_of_thread {w : SchedulerWorker} {b : ThreadAct} (hw : t.daemon.worker k = some w)
    (hne : id ≠ w.downloadId) (τ : Track) : t.daemon.track (.thread k b) id τ = τ := by
  cases b with
  | loadCancel =>
    rw [Daemon.track, hw]
    split
    · rename_i heq
      rw [Option.some.inj heq] at hne
      exact if_neg (Ne.symm hne)
    · rfl
  | next =>
    rw [Daemon.track, hw]
    split
    · rename_i heq
      rw [Option.some.inj heq] at hne
      exact if_neg (Ne.symm hne)
    · rfl
  | _ => rfl

theorem thread (h : TrackedInv t) {b : ThreadAct}
    (hs : t.daemon.step R (.thread k b) = some s') :
    TrackedInv ⟨s', t.clock, fun id => t.daemon.track (.thread k b) id (t.track id)⟩ := by
  have hst := Daemon.Step.of_eq hs
  have howner := h.ownership.step hst
  have hnumbered := h.numbered.step h.ownership hst
  have hmax := hst.maxRetries
  cases hst with
  | @thread _ w d _ st pc hw hd hth =>
    obtain ⟨r', hr', hphase, hentry, hkeep⟩ := h.thread_self hw hd hth hs rfl
    have hr := Store.retry_of_get hd
    have hretry {id : ℕ} (hne : id ≠ w.downloadId) : st.retry id = t.daemon.store.retry id :=
      Daemon.Step.retry_of_thread hs h.ownership hw hne
    -- Nothing that others rely on changes, unless the worker owns the download.
    have hother {id : ℕ} {r₁ : Retry} (hr₁ : st.retry id = some r₁)
        (hnot : id = w.downloadId → w.owns ≠ true) : t.daemon.store.retry id = some r₁ ∧
          t.daemon.track (.thread k b) id (t.track id) = t.track id := by
      by_cases hid : id = w.downloadId
      · subst hid
        obtain ⟨heq, htrack⟩ := hkeep (hnot rfl)
        rw [hr'] at hr₁
        cases hr₁
        exact ⟨heq ▸ hr, htrack⟩
      · exact ⟨(hretry hid).symm.trans hr₁, track_of_thread hw hid _⟩
    refine ⟨howner, hnumbered, fun id hnone => ?_, fun id r₁ hr₁ => ?_,
      fun k' w' r₁ hw' hr₁ => ?_, fun id r₁ hpc hr₁ => ?_, fun c id ops answer hpc op hop => ?_⟩
    · have hnone' := ((Daemon.Step.of_eq hs).retry_none h.ownership.sound).1 hnone
      exact (h.track_of_absent hs hnone').trans (h.absent id hnone')
    · by_cases hid : id = w.downloadId
      · subst hid
        rw [hr'] at hr₁
        cases hr₁
        exact hmax ▸ hentry
      · obtain ⟨hr₀, htrack⟩ := hother hr₁ fun heq => absurd heq hid
        change EntryInv _ _ (t.daemon.track _ id _) _
        rw [htrack]
        exact h.entry id r₁ hr₀
    · rw [Daemon.worker_set (Daemon.lt_of_worker hw) rfl] at hw'
      split_ifs at hw' with hk
      · cases hw'
        rw [hr'] at hr₁
        cases hr₁
        exact hmax ▸ hphase
      · by_cases ho : w'.owns = true
        · -- The owner of a download is the only one.
          obtain ⟨hr₀, htrack⟩ := hother hr₁ fun heq ho' =>
            hk (h.ownership.unique _ _ _ _ hw' hw ho ho' heq)
          change PhaseInv _ (t.daemon.track _ _ _) _ _
          rw [htrack]
          exact h.phase k' w' r₁ hw' hr₀
        · obtain ⟨r₀, hr₀⟩ : ∃ r₀, t.daemon.store.retry w'.downloadId = some r₀ := by
            refine Option.isSome_iff_exists.1 (Option.isSome_iff_ne_none.2 fun hnone => ?_)
            rw [((Daemon.Step.of_eq hs).retry_none h.ownership.sound).2 hnone] at hr₁
            cases hr₁
          exact (h.phase k' w' r₀ hw' hr₀).of_not_owns ho
    · have hnot (heq : id = w.downloadId) (ho : w.owns = true) : False :=
        (h.ownership.picked id hpc).2 k w hw ho heq.symm
      obtain ⟨hr₀, htrack⟩ := hother hr₁ hnot
      change (t.daemon.track _ id _).ended = false ∧ (t.daemon.track _ id _).runs ≤ _ ∧
        (t.daemon.track _ id _).deadline ≤ _
      rw [htrack]
      exact h.picked id r₁ hpc hr₀
    · refine (h.handler c id ops answer hpc op hop).imp_right fun ⟨hforgets, hcanceled⟩ =>
        ⟨hforgets, fun r₁ hr₁ => ?_⟩
      by_cases hown : id = w.downloadId ∧ w.owns = true
      · obtain ⟨rfl, ho⟩ := hown
        have hactive := h.status_of_owns hw ho hr
        rw [hcanceled _ hr] at hactive
        cases hactive
      · exact hcanceled r₁ (hother hr₁ fun heq ho => hown ⟨heq, ho⟩).1

/-! ### The daemon thread -/

/-- The invariant after a step of the daemon thread: the workers are as before, but for those
    reaped and one started. -/
theorem of_daemon (h : TrackedInv t) {clock : ℕ} (hs : t.daemon.step R a = some s')
    (hworker : ∀ k w, s'.worker k = some w → t.daemon.worker k = some w ∨
      ∀ r r', t.daemon.store.retry w.downloadId = some r →
        RetryMove t.daemon a w.downloadId r r' →
        PhaseInv t.daemon.maxRetries
          (t.daemon.track a w.downloadId (t.track w.downloadId)) r' w.pc)
    (hactive : ∀ id r r', t.daemon.store.retry id = some r → RetryMove t.daemon a id r r' →
      r.status = .active → t.daemon.pc ≠ .picked id →
      r' = r ∧ t.daemon.track a id (t.track id) = t.track id)
    (hentry : ∀ id r r', t.daemon.store.retry id = some r → RetryMove t.daemon a id r r' →
      EntryInv t.daemon.maxRetries t.clock (t.track id) r →
      EntryInv t.daemon.maxRetries clock (t.daemon.track a id (t.track id)) r')
    (hpicked : ∀ id r, s'.pc = .picked id → s'.store.retry id = some r →
      (t.daemon.track a id (t.track id)).ended = false ∧
        (t.daemon.track a id (t.track id)).runs ≤ r.count ∧
        (t.daemon.track a id (t.track id)).deadline ≤ clock)
    (hhandler : ∀ c id ops answer, s'.pc = .handling (.finishing c id ops answer) →
      ∀ op ∈ ops, op.Harmless ∨ op.Forgets ∧
        ∀ r, s'.store.retry id = some r → r.status = .canceled) :
    TrackedInv ⟨s', clock, fun id => t.daemon.track a id (t.track id)⟩ := by
  have hst := Daemon.Step.of_eq hs
  have hmax := hst.maxRetries
  refine ⟨h.ownership.step hst, h.numbered.step h.ownership hst, fun id hnone => ?_,
    fun id r' hr' => ?_, fun k w r' hw hr' => ?_, hpicked, hhandler⟩
  · have hnone' := (hst.retry_none h.ownership.sound).1 hnone
    exact (h.track_of_absent hs hnone').trans (h.absent id hnone')
  · obtain ⟨r, hr, hmove⟩ :=
      Daemon.Step.exists_retryMove hs h.ownership.sound h.ownership.ids hr'
    exact hmax ▸ hentry id r r' hr hmove (h.entry id r hr)
  · obtain ⟨r, hr, hmove⟩ :=
      Daemon.Step.exists_retryMove hs h.ownership.sound h.ownership.ids hr'
    change PhaseInv s'.maxRetries (t.daemon.track a _ _) _ _
    rw [hmax]
    rcases hworker k w hw with hw₀ | hnew
    · have hphase := h.phase k w r hw₀ hr
      by_cases ho : w.owns = true
      · obtain ⟨hkeep, htrack⟩ := hactive _ r r' hr hmove (h.status_of_owns hw₀ ho hr)
          fun hpc => (h.ownership.picked _ hpc).2 k w hw₀ ho rfl
        rw [hkeep, htrack]
        exact hphase
      · exact hphase.of_not_owns ho
    · exact hnew r r' hr hmove

theorem tick (h : TrackedInv t) {now : ℕ} (hclock : t.clock ≤ now)
    (hs : t.daemon.step R (.tick now) = some s') :
    TrackedInv ⟨s', now, fun id => t.daemon.track (.tick now) id (t.track id)⟩ := by
  have hmoves {id : ℕ} {r r' : Retry} (hmove : RetryMove t.daemon (.tick now) id r r') :
      r' = r ∨ r.status = .queued ∧ r.nextAt ≤ now ∧
        r' = { r with status := .active, nextAt := 0 } := by
    cases hmove with
    | keeps => exact .inl rfl
    | picked ha hq hdue =>
      cases ha
      exact .inr ⟨hq, hdue, rfl⟩
    | published _ _ _ ha => cases ha
    | performed hop => cases hop
    | paused ha => cases ha
    | resumed _ ha => cases ha
    | canceled ha => cases ha
    | unpicked _ ha => cases ha
  have hworker {k : ℕ} {w : SchedulerWorker} (hw : s'.worker k = some w) :
      t.daemon.worker k = some w := by
    cases Daemon.Step.of_eq hs with
    | tick => exact Daemon.worker_reap rfl hw
    | pick => exact Daemon.worker_reap rfl hw
  refine h.of_daemon hs (fun k w hw => .inl (hworker hw))
    (fun id r r' _ hmove hactive _ => ⟨?_, rfl⟩)
    (fun id r r' _ hmove hentry => ?_) (fun id r' hpc hr' => ?_) fun c id ops answer hpc => ?_
  · rcases hmoves hmove with rfl | ⟨hq, -⟩
    · rfl
    · rw [hq] at hactive
      cases hactive
  · rcases hmoves hmove with rfl | ⟨-, -, rfl⟩
    · refine ⟨hentry.count, hentry.runs, fun hq => ?_⟩
      obtain ⟨hended, hruns, hdeadline⟩ := hentry.queued hq
      exact ⟨hended, hruns, hdeadline.imp_right fun hle => hle.trans hclock⟩
    · exact ⟨hentry.count, hentry.runs, fun hq => by cases hq⟩
  · -- A download that is picked is queued, and due.
    obtain ⟨r, hr, hmove⟩ :=
      Daemon.Step.exists_retryMove hs h.ownership.sound h.ownership.ids hr'
    have hqueued : r.status = .queued := by
      cases Daemon.Step.of_eq hs with
      | tick => cases hpc
      | @pick _ d _ hd hq =>
        cases hpc
        rw [Store.retry_of_get (Store.get_of_mem h.ownership.ids hd)] at hr
        cases hr
        exact hq
    obtain ⟨hended, hruns, hdeadline⟩ := (h.entry id r hr).queued hqueued
    rcases hmoves hmove with rfl | ⟨-, hdue, rfl⟩
    · have hactive := Store.status_of_isActive
        ((h.ownership.step (Daemon.Step.of_eq hs)).picked id hpc).1 hr'
      rw [hqueued] at hactive
      cases hactive
    · exact ⟨hended, hruns, hdeadline.elim (fun hle => hle.trans hdue) fun hle => hle.trans hclock⟩
  · cases Daemon.Step.of_eq hs <;> cases hpc

theorem start (h : TrackedInv t) {created : Bool}
    (hs : t.daemon.step R (.start created) = some s') :
    TrackedInv ⟨s', t.clock, fun id => t.daemon.track (.start created) id (t.track id)⟩ := by
  have hmoves {id : ℕ} {r r' : Retry} (hmove : RetryMove t.daemon (.start created) id r r') :
      r' = r ∨ t.daemon.pc = .picked id ∧ t.daemon.starts (.start created) = none ∧
        r' = { r with status := .queued } := by
    cases hmove with
    | keeps => exact .inl rfl
    | unpicked hpc ha hno =>
      cases ha
      exact .inr ⟨hpc, hno, rfl⟩
    | published _ _ _ ha => cases ha
    | performed hop => cases hop
    | paused ha => cases ha
    | resumed _ ha => cases ha
    | canceled ha => cases ha
    | picked ha => cases ha
  have hsame {id : ℕ} (hno : t.daemon.starts (.start created) ≠ some id) :
      t.daemon.track (.start created) id (t.track id) = t.track id := if_neg hno
  have hcounted {id : ℕ} (hstarts : t.daemon.starts (.start created) = some id) :
      t.daemon.track (.start created) id (t.track id) =
        { t.track id with runs := (t.track id).runs + 1 } := if_pos hstarts
  have hpicked {id : ℕ} (hstarts : t.daemon.starts (.start created) = some id) :
      t.daemon.pc = .picked id := (Daemon.starts_eq_some hstarts).2.1
  have hidle : s'.pc = .idle := by
    cases Daemon.Step.of_eq hs <;> rfl
  refine h.of_daemon hs (fun k w hw => ?_) (fun id r r' _ hmove _ hpc => ⟨?_, ?_⟩)
    (fun id r r' hr hmove hentry => ?_) (fun id r hpc => ?_) fun c id ops answer hpc => ?_
  · cases Daemon.Step.of_eq hs with
    | @start id k₀ hpc hk =>
      rw [Daemon.worker_set (Daemon.lt_of_free hk) rfl] at hw
      split_ifs at hw
      · -- The worker just started.
        cases hw
        refine .inr fun r r' hr hmove => ?_
        have hstarts := Daemon.starts_of_free hpc hk
        obtain ⟨hended, hruns, -⟩ := h.picked id r hpc hr
        rcases hmoves hmove with rfl | ⟨-, hno, -⟩
        · rw [hcounted hstarts]
          exact ⟨hended, Nat.succ_le_succ hruns⟩
        · rw [hstarts] at hno
          cases hno
      · exact .inl hw
    | startFails => exact .inl hw
  · rcases hmoves hmove with rfl | ⟨hpc', -⟩
    · rfl
    · exact absurd hpc' hpc
  · exact hsame fun hstarts => hpc (hpicked hstarts)
  · rcases hmoves hmove with rfl | ⟨hpc, hno, rfl⟩
    · by_cases hstarts : t.daemon.starts (.start created) = some id
      · rw [hcounted hstarts]
        -- One run more is counted, which the retries so far allow.
        obtain ⟨-, hruns, -⟩ := h.picked id r' (hpicked hstarts) hr
        refine ⟨hentry.count, Nat.succ_le_succ (hruns.trans hentry.count), fun hq => ?_⟩
        have hactive := h.status_of_picked (hpicked hstarts) hr
        rw [hq] at hactive
        cases hactive
      · rw [hsame hstarts]
        exact hentry
    · -- The download is queued again.
      obtain ⟨hended, hruns, hdeadline⟩ := h.picked id r hpc hr
      rw [hsame (by rw [hno]; simp)]
      exact ⟨hentry.count, hentry.runs, fun _ => ⟨hended, hruns, .inr hdeadline⟩⟩
  · rw [hidle] at hpc
    cases hpc
  · rw [hidle] at hpc
    cases hpc

/-- What is recorded of a download is kept by the daemon thread, or starts anew with a resume. -/
theorem track_of_next (t : Tracked) (id : ℕ) :
    t.daemon.track .next id (t.track id) = t.track id ∨
      t.daemon.track .next id (t.track id) = .zero ∧
        ∀ r, t.daemon.store.retry id = some r → r.status = .paused ∨ r.status = .error := by
  rw [Daemon.track]
  split
  · split_ifs with hres
    · obtain ⟨rfl, hresumed⟩ := hres
      refine .inr ⟨rfl, fun r hr => ?_⟩
      simpa [queueManagerResume, Store.status_of_retry hr] using hresumed
    · exact .inl rfl
  · exact .inl rfl

theorem next (h : TrackedInv t) (hs : t.daemon.step R .next = some s') :
    TrackedInv ⟨s', t.clock, fun id => t.daemon.track .next id (t.track id)⟩ := by
  -- An operation of a handler changes a canceled download only.
  have hperformed {id : ℕ} {op : Op} {r : Retry} (hop : Performs t.daemon id op .next)
      (hr : t.daemon.store.retry id = some r) :
      op.retry r = r ∨ r.status = .canceled ∧ (op.retry r).count ≤ r.count := by
    cases hop with
    | finish hpc =>
      rcases h.handler _ _ _ _ hpc op List.mem_cons_self with hharmless | ⟨hforgets, hcanceled⟩
      · exact .inl (hharmless r)
      · exact .inr ⟨hcanceled r hr, hforgets r⟩
  -- A canceled download stays so.
  have hcanceled {id : ℕ} {r r' : Retry} (hmove : RetryMove t.daemon .next id r r')
      (hstatus : r.status = .canceled) : r'.status = .canceled := by
    cases hmove with
    | keeps => exact hstatus
    | performed => rw [Op.status_retry, hstatus]
    | canceled => rfl
    | paused _ hq => simp [hstatus] at hq
    | resumed _ _ hs => simp [hstatus] at hs
    | published _ _ _ ha => cases ha
    | picked ha => cases ha
    | unpicked _ ha => cases ha
  refine h.of_daemon hs (fun k w hw => .inl ?_) (fun id r r' hr hmove hactive _ => ⟨?_, ?_⟩)
    (fun id r r' hr hmove hentry => ?_) (fun id r hpc => ?_) fun c id ops answer hpc op hop => ?_
  · cases Daemon.Step.of_eq hs <;> exact hw
  · cases hmove with
    | keeps => rfl
    | performed hop =>
      rcases hperformed hop hr with heq | ⟨hstatus, -⟩
      · exact heq
      · simp [hactive] at hstatus
    | canceled _ hs => exact absurd hactive hs
    | paused _ hq => simp [hactive] at hq
    | resumed _ _ hs => simp [hactive] at hs
    | published _ _ _ ha => cases ha
    | picked ha => cases ha
    | unpicked _ ha => cases ha
  · rcases track_of_next t id with heq | ⟨-, hstatus⟩
    · exact heq
    · simpa [hactive] using hstatus r hr
  · have hcount : r'.count ≤ t.daemon.maxRetries := by
      cases hmove with
      | performed hop =>
        rcases hperformed hop hr with heq | ⟨-, hle⟩
        · rw [heq]
          exact hentry.count
        · exact hle.trans hentry.count
      | resumed => exact Nat.zero_le _
      | _ => exact hentry.count
    rcases track_of_next t id with heq | ⟨heq, -⟩
    · rw [heq]
      refine ⟨hcount, hentry.runs, fun hq => ?_⟩
      cases hmove with
      | keeps => exact hentry.queued hq
      | performed hop =>
        rcases hperformed hop hr with hsame | ⟨hstatus, -⟩
        · rw [hsame] at hq ⊢
          exact hentry.queued hq
        · rw [Op.status_retry, hstatus] at hq
          cases hq
      | resumed hpc _ hs =>
        -- Nothing is recorded of the runs before.
        have hresumed : (queueManagerResume t.daemon.store id).2 = true := by
          simpa [queueManagerResume, Store.status_of_retry hr] using hs
        have hzero : t.daemon.track .next id (t.track id) = .zero := by
          rw [Daemon.track, hpc]
          exact if_pos ⟨rfl, hresumed⟩
        rw [← heq, hzero]
        exact ⟨rfl, Nat.zero_le _, .inl (Nat.zero_le _)⟩
      | paused => cases hq
      | canceled => cases hq
      | published _ _ _ ha => cases ha
      | picked ha => cases ha
      | unpicked _ ha => cases ha
    · rw [heq]
      exact .zero hcount
  · cases Daemon.Step.of_eq hs <;> cases hpc
  · have hst := Daemon.Step.of_eq hs
    cases hst with
    | finish hpc₀ =>
      cases hpc
      refine (h.handler _ _ _ _ hpc₀ op (List.mem_cons_of_mem _ hop)).imp_right
        fun ⟨hforgets, hstatus⟩ => ⟨hforgets, fun r' hr' => ?_⟩
      obtain ⟨r, hr, hmove⟩ :=
        Daemon.Step.exists_retryMove hs h.ownership.sound h.ownership.ids hr'
      exact hcanceled hmove (hstatus r hr)
    | pause =>
      cases hpc
      split_ifs at hop
      · cases hop
      · rw [List.mem_singleton.1 hop]
        exact .inl fun _ => rfl
    | resume =>
      split_ifs at hpc
      · cases hpc
        rw [List.mem_singleton.1 hop]
        exact .inl fun _ => rfl
      · cases hpc
        cases hop
    | cancel =>
      cases hpc
      split_ifs at hop with hactive
      · cases hop
      · refine .inr ⟨Op.forgets_of_mem_discardOps hop, fun r' hr' => ?_⟩
        rw [Store.retry_modify (g := fun r =>
          if r.status = .active then r else { r with status := .canceled }) Download.cancel_id
          fun d => Download.retry_cancel d, if_pos rfl] at hr'
        obtain ⟨r, hr, rfl⟩ := Option.map_eq_some_iff.1 hr'
        rw [if_neg fun hs => hactive (Store.isActive_iff_retry.2 ⟨r, hr, hs⟩)]
    | reportRow => cases hpc
    | reported => cases hpc
    | answer => cases hpc
    | locate => cases hpc
    | stop => cases hpc

/-- A request that is checked, or a report that begins, changes no download. -/
theorem other (h : TrackedInv t) (ha : (∃ c id, a = .request c id) ∨ a = .report)
    (hs : t.daemon.step R a = some s') :
    TrackedInv ⟨s', t.clock, fun id => t.daemon.track a id (t.track id)⟩ := by
  have hmoves {id : ℕ} {r r' : Retry} (hmove : RetryMove t.daemon a id r r') : r' = r := by
    rcases ha with ⟨c, id', rfl⟩ | rfl
    all_goals
      cases hmove with
      | keeps => rfl
      | published _ _ _ ha => cases ha
      | performed hop => cases hop
      | paused ha => cases ha
      | resumed _ ha => cases ha
      | canceled ha => cases ha
      | picked ha => cases ha
      | unpicked _ ha => cases ha
  have htrack (id : ℕ) (τ : Track) : t.daemon.track a id τ = τ := by
    rcases ha with ⟨c, id', rfl⟩ | rfl <;> rfl
  have hworker {k : ℕ} {w : SchedulerWorker} (hw : s'.worker k = some w) :
      t.daemon.worker k = some w := by
    rcases ha with ⟨c, id', rfl⟩ | rfl <;> cases Daemon.Step.of_eq hs <;> exact hw
  have hpc : (∀ id, s'.pc ≠ .picked id) ∧
      ∀ c id ops answer, s'.pc = .handling (.finishing c id ops answer) → ops = [] := by
    rcases ha with ⟨c, id', rfl⟩ | rfl
    · cases Daemon.Step.of_eq hs with
      | request =>
        refine ⟨by simp, fun c₁ id₁ ops answer hpc => ?_⟩
        rcases commandCheck_cases t.daemon.store.fresh c id' with ⟨hcheck, -⟩ | ⟨x, hcheck, -⟩
        · rw [hcheck] at hpc
          cases hpc
        · rw [hcheck] at hpc
          cases hpc
          rfl
    · cases Daemon.Step.of_eq hs with
      | report => exact ⟨by simp, by simp⟩
  refine h.of_daemon hs (fun k w hw => .inl (hworker hw))
    (fun id r r' _ hmove _ _ => ⟨hmoves hmove, htrack id _⟩) (fun id r r' _ hmove hentry => ?_)
    (fun id r hp => absurd hp (hpc.1 id)) fun c id ops answer hp op hop => ?_
  · rw [hmoves hmove, htrack]
    exact hentry
  · rw [hpc.2 c id ops answer hp] at hop
    cases hop

/-! ### The upkeep -/

/-- The invariant after a step that changes no download there was. -/
theorem of_store (h : TrackedInv t) (howner : Ownership s') (hnumbered : s'.Numbered)
    (hcfg : s'.cfg = t.daemon.cfg) (hworkers : s'.workers = t.daemon.workers)
    (hpc : (∀ id, s'.pc ≠ .picked id) ∧ ∀ x, s'.pc ≠ .handling x)
    (hold : ∀ id < t.daemon.store.nextId, s'.store.retry id = t.daemon.store.retry id)
    (hnew : ∀ id r, t.daemon.store.retry id = none → s'.store.retry id = some r → r.count = 0) :
    TrackedInv ⟨s', t.clock, t.track⟩ := by
  have hnone {id : ℕ} (hid : t.daemon.store.nextId ≤ id) : t.daemon.store.retry id = none := by
    rw [Store.retry_eq_none]
    exact fun hmem => absurd (h.numbered.queue_lt id hmem) (not_lt.2 hid)
  have hmax : s'.maxRetries = t.daemon.maxRetries := by
    rw [Daemon.maxRetries, hcfg, Daemon.maxRetries]
  refine ⟨howner, hnumbered, fun id hno => h.absent id ?_, fun id r hr => ?_,
    fun k w r hw hr => ?_, fun id r hp => absurd hp (hpc.1 id),
    fun c id ops answer hp => absurd hp (hpc.2 _)⟩
  · rcases lt_or_ge id t.daemon.store.nextId with hlt | hge
    · exact (hold id hlt).symm.trans hno
    · exact hnone hge
  · change EntryInv s'.maxRetries _ _ _
    rw [hmax]
    rcases lt_or_ge id t.daemon.store.nextId with hlt | hge
    · exact h.entry id r ((hold id hlt).symm.trans hr)
    · rw [h.absent id (hnone hge)]
      exact .zero ((hnew id r (hnone hge) hr).trans_le (Nat.zero_le _))
  · have hw₀ : t.daemon.worker k = some w := by
      rw [Daemon.worker, ← hworkers]
      exact hw
    change PhaseInv s'.maxRetries _ _ _
    rw [hmax]
    exact h.phase k w r hw₀ ((hold _ (h.numbered.worker_lt k w hw₀)).symm.trans hr)

/-- Nothing is recorded of the downloads of a daemon just started. -/
theorem of_rest (howner : Ownership s') (hnumbered : s'.Numbered)
    (hworkers : ∀ k, s'.worker k = none) (hpc : s'.pc = .idle)
    (hcount : ∀ id r, s'.store.retry id = some r → r.count = 0) {clock : ℕ} :
    TrackedInv ⟨s', clock, fun _ => .zero⟩ := by
  refine ⟨howner, hnumbered, fun _ _ => rfl,
    fun id r hr => .zero ((hcount id r hr).trans_le (Nat.zero_le _)), fun k w r hw => ?_,
    fun id r hp => ?_, fun c id ops answer hp => ?_⟩
  · rw [hworkers] at hw
    cases hw
  · rw [hpc] at hp
    cases hp
  · rw [hpc] at hp
    cases hp

theorem upkept (h : TrackedInv t) {u : Upkeep} (hu : t.daemon.upkeep u = some s')
    (hsteady : Steady t (.serve (.upkeep u))) :
    TrackedInv ⟨s', t.clock, u.track t.track⟩ := by
  have hst := Daemon.Upkept.of_eq h.numbered.positive hu
  have howner := h.ownership.upkept h.numbered hst
  have hnumbered := h.numbered.upkept hst
  -- The settings are those the daemon was started with.
  have hcfg (hstart : ∀ cfg, u ≠ .restart cfg) : s'.cfg = t.daemon.cfg := by
    unfold Daemon.upkeep at hu
    simp only at hu
    split at hu
    · cases hu
      rfl
    · cases hu
      rfl
    · cases hu
      rfl
    · cases hu
      exact hsteady
    · cases hu
      rfl
    · exact absurd rfl (hstart _)
    · cases hu
  by_cases hrestart : ∃ cfg, u = .restart cfg
  · obtain ⟨cfg, rfl⟩ := hrestart
    have hs' : t.daemon.upkeep (.restart cfg) = some
        { store := t.daemon.store.restore, workers := List.replicate schedulerMaxWorkers none
          pc := .idle, cfg := cfg, offers := [], history := t.daemon.history } := rfl
    rw [hs'] at hu
    cases hu
    refine of_rest howner hnumbered (fun k => Daemon.worker_restarted rfl) rfl fun id r hr => ?_
    rw [Store.retry, Store.get_restore h.numbered.rows, Option.map_map] at hr
    obtain ⟨row, -, rfl⟩ := Option.map_eq_some_iff.1 hr
    rfl
  · have hstart (cfg : Config) : u ≠ .restart cfg := fun heq => hrestart ⟨cfg, heq⟩
    have htrack : u.track t.track = t.track := by
      cases u with
      | restart cfg => exact absurd rfl (hstart cfg)
      | _ => rfl
    rw [htrack]
    cases hst with
    | @added _ url dest opts st id _ hreq hpc hid hres =>
      obtain ⟨path, -, -, hle, hlt, hqueue, -, -⟩ := hres.added hid
      have hle' : t.daemon.store.nextId ≤ id := hle
      refine h.of_store howner hnumbered (hcfg hstart) rfl ⟨by simp [hpc], by simp [hpc]⟩
        (fun id' hid' => ?_) fun id' r hno hr => ?_
      · rw [Store.retry, Store.get_of_cons_of_ne hqueue
          fun hne => absurd (show id = id' from hne) (by omega)]
        rfl
      · rw [Store.retry, Store.get_of_cons hqueue] at hr
        split_ifs at hr
        · cases hr
          rfl
        · cases hno.symm.trans hr
    | @refused _ url dest opts st hreq hpc hres =>
      have hretry (id : ℕ) : st.retry id = t.daemon.store.retry id := by
        rw [Store.retry, Store.get, (hres.refused rfl).1]
        rfl
      exact h.of_store howner hnumbered (hcfg hstart) rfl ⟨by simp [hpc], by simp [hpc]⟩
        (fun id _ => hretry id) fun id r hno hr => by
          rw [hretry, hno] at hr
          cases hr
    | settled hpc =>
      exact h.of_store howner hnumbered (hcfg hstart) rfl ⟨by simp [hpc], by simp [hpc]⟩
        (fun _ _ => rfl) fun id r hno hr => by cases hno.symm.trans hr
    | stopping =>
      exact h.of_store howner hnumbered rfl rfl ⟨by simp, by simp⟩ (fun _ _ => rfl)
        fun id r hno hr => by cases hno.symm.trans hr
    | restarted => exact absurd rfl (hstart _)

theorem engineReturns (h : TrackedInv t) {k id : ℕ} {pc : Pc} {rc : ℤ}
    (hw : t.daemon.worker k = some ⟨id, .engine pc⟩) :
    TrackedInv { t with
      daemon := { t.daemon with
        workers := t.daemon.workers.set k (some ⟨id, .engine (.idle (some rc))⟩) } } := by
  -- The worker is as it was, but for where its engine is.
  have hworker {k' : ℕ} {w' : SchedulerWorker}
      (hw' : Daemon.worker { t.daemon with
        workers := t.daemon.workers.set k (some ⟨id, .engine (.idle (some rc))⟩) } k' = some w') :
      ∃ w, t.daemon.worker k' = some w ∧ w.downloadId = w'.downloadId ∧ w.owns = w'.owns ∧
        (∀ max τ r, PhaseInv max τ r w.pc → PhaseInv max τ r w'.pc) ∧
        (w = w' ∨ w'.pc = .engine (.idle (some rc))) := by
    rw [Daemon.worker_set (Daemon.lt_of_worker hw) rfl] at hw'
    split_ifs at hw' with hk
    · subst hk
      cases hw'
      exact ⟨_, hw, rfl, rfl, fun _ _ _ h => h, .inr rfl⟩
    · exact ⟨w', hw', rfl, rfl, fun _ _ _ h => h, .inl rfl⟩
  refine ⟨⟨h.ownership.ids, fun k' w' pc' hw' hpc' => ?_, fun k' w' hw' ho => ?_,
    fun k₁ k₂ w₁ w₂ hw₁ hw₂ ho₁ ho₂ hid => ?_, fun id' hp => ?_, h.ownership.found⟩,
    ⟨h.numbered.positive, h.numbered.rows, h.numbered.queue_lt, h.numbered.row_lt,
      fun k' w' hw' => ?_⟩, h.absent, h.entry, fun k' w' r hw' hr => ?_, h.picked, h.handler⟩
  · obtain ⟨w, hw₀, -, -, -, rfl | hreturned⟩ := hworker hw'
    · exact h.ownership.sound k' w pc' hw₀ hpc'
    · rw [hreturned] at hpc'
      cases hpc'
      trivial
  · obtain ⟨w, hw₀, hid, howns, -⟩ := hworker hw'
    exact hid ▸ h.ownership.active k' w hw₀ (howns.trans ho)
  · obtain ⟨v₁, hv₁, hid₁, howns₁, -⟩ := hworker hw₁
    obtain ⟨v₂, hv₂, hid₂, howns₂, -⟩ := hworker hw₂
    exact h.ownership.unique k₁ k₂ v₁ v₂ hv₁ hv₂ (howns₁.trans ho₁) (howns₂.trans ho₂)
      (hid₁.trans (hid.trans hid₂.symm))
  · refine ⟨(h.ownership.picked id' hp).1, fun k' w' hw' ho => ?_⟩
    obtain ⟨w, hw₀, hid, howns, -⟩ := hworker hw'
    exact hid ▸ (h.ownership.picked id' hp).2 k' w hw₀ (howns.trans ho)
  · obtain ⟨w, hw₀, hid, -⟩ := hworker hw'
    exact hid ▸ h.numbered.worker_lt k' w hw₀
  · obtain ⟨w, hw₀, hid, -, hphase, -⟩ := hworker hw'
    rw [← hid] at hr ⊢
    exact hphase _ _ _ (h.phase k' w r hw₀ hr)

theorem step (h : TrackedInv t) {a : TrackedAct} {t' : Tracked} (hok : Steady t a)
    (hs : t.step R a = some t') : TrackedInv t' := by
  cases a with
  | serve x =>
    cases x with
    | act a =>
      obtain ⟨s', hs', rfl⟩ := Option.map_eq_some_iff.1 hs
      cases a with
      | thread => exact h.thread hs'
      | request => exact h.other (.inl ⟨_, _, rfl⟩) hs'
      | tick => exact h.tick hok hs'
      | start => exact h.start hs'
      | report => exact h.other (.inr rfl) hs'
      | next => exact h.next hs'
    | upkeep u =>
      obtain ⟨s', hu, rfl⟩ := Option.map_eq_some_iff.1 hs
      exact h.upkept hu hok
  | engineReturns k rc =>
    unfold Tracked.step at hs
    simp only at hs
    split at hs
    · cases hs
      exact h.engineReturns ‹_›
    · cases hs

theorem of_isInit (h : t.IsInit) : TrackedInv t := by
  obtain ⟨hfirst, htrack⟩ := h
  obtain ⟨daemon, clock, track⟩ := t
  obtain rfl : track = fun _ => .zero := funext htrack
  refine of_rest hfirst.atRest.ownership hfirst.numbered hfirst.worker hfirst.pc fun id r hr => ?_
  rw [Store.retry, hfirst.get] at hr
  cases hr

theorem of_reachable (h : Run.Reachable (Tracked.step R) Tracked.IsInit Steady t) : TrackedInv t :=
  h.invariant (fun _ => of_isInit) fun _ _ _ hinv hok hs => hinv.step hok hs

end TrackedInv

/-! ## Runs -/

/-- However the engine returns, a download is run at most once more than it may be retried since
    it was added or last resumed. When it is run, no earlier run is left to be settled, none has
    ended in a way that is not retried, and no failure asks to wait any longer. -/
theorem retriesKept (R : CString → ℕ → UInt8) {t : Tracked}
    (h : Run.Reachable (Tracked.step R) Tracked.IsInit Steady t) :
    (∀ id, (t.track id).runs ≤ t.daemon.cfg.retryMaxAttempts.toNat + 1) ∧
      ∀ a id, t.daemon.starts a = some id →
        (∀ k w, t.daemon.worker k = some w → w.owns = true → w.downloadId ≠ id) ∧
          (t.track id).ended = false ∧ (t.track id).deadline ≤ t.clock ∧
          (t.track id).runs ≤ t.daemon.cfg.retryMaxAttempts.toNat := by
  have hinv := TrackedInv.of_reachable h
  refine ⟨fun id => ?_, fun a id hstarts => ?_⟩
  · cases hr : t.daemon.store.retry id with
    | none =>
      rw [hinv.absent id hr]
      exact Nat.zero_le _
    | some r => exact (hinv.entry id r hr).runs
  · obtain ⟨-, hpc, -⟩ := Daemon.starts_eq_some hstarts
    obtain ⟨hactive, hno⟩ := hinv.ownership.picked id hpc
    obtain ⟨r, hr, -⟩ := Store.isActive_iff_retry.1 hactive
    obtain ⟨hended, hruns, hdeadline⟩ := hinv.picked id r hpc hr
    exact ⟨hno, hended, hdeadline, hruns.trans (hinv.entry id r hr).count⟩

/-- A run that failed at the time 5 is retried at the time 7. -/
theorem retriesKept_failure :
    ∃ t, Run.Reachable (Tracked.step fun _ _ => 0) Tracked.IsInit Steady t ∧
    (t.daemon.starts (.start true) = some 1 ∧ t.track 1 = ⟨1, false, 7⟩) ∧
    (∀ id, (t.track id).runs ≤ t.daemon.cfg.retryMaxAttempts.toNat + 1) ∧
      ∀ a id, t.daemon.starts a = some id →
        (∀ k w, t.daemon.worker k = some w → w.owns = true → w.downloadId ≠ id) ∧
          (t.track id).ended = false ∧ (t.track id).deadline ≤ t.clock ∧
          (t.track id).runs ≤ t.daemon.cfg.retryMaxAttempts.toNat := by
  obtain ⟨t, ht, hP⟩ := Run.exists_reachable_of_exec (Tracked.step fun _ _ => 0)
    Tracked.IsInit Steady
    (fun t => t.daemon.starts (.start true) = some 1 ∧ t.track 1 = ⟨1, false, 7⟩)
    (s := ⟨freshDaemon, 0, fun _ => .zero⟩) ⟨firstStart_freshDaemon, fun _ => rfl⟩
    ([.serve (.upkeep (addFile "/d/f")), .serve (.act (.tick 1)), .serve (.act (.start true)),
      .engineReturns 0 (-1), .serve (.act (.thread 0 .loadCancel)),
      .serve (.act (.thread 0 (.loadPause 5)))] ++
      List.replicate 5 (.serve (.act (.thread 0 .next))) ++ [.serve (.act (.tick 7))])
    (by decide +kernel)
  exact ⟨t, ht, hP, retriesKept _ ht⟩

end Cdm
