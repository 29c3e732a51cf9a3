import Cdm.Daemon.Ownership

/-!
# The status in memory, and the stored one

The status of a download is changed in memory by one operation, and stored by another.
Between the two, other threads may take the download further: then the earlier status is
stored last. If no thread does (`races`), the stored status of every download agrees with
the one in memory whenever nothing is in progress.
-/

namespace Cdm.Stored

variable {R : CString → ℕ → UInt8} {s s' : Daemon} {a : Act} {id k : ℕ} {w : SchedulerWorker}

/-- The name a status is stored under. That a download is active is not stored. -/
def storedName : DownloadStatus → String
  | .active => "QUEUED"
  | status => statusToString status

/-- The status an operation stores. -/
def row? : Op → Option String
  | .dbUpdateStatus name => some name
  | _ => none

/-- The statuses that operations store. -/
def writes (ops : List Op) : List String := ops.filterMap row?

/-- The worker has published a status that it has not stored yet. -/
def owesRow (w : SchedulerWorker) : Bool :=
  match w.pc with
  | .leaving ops => writes ops ≠ []
  | _ => false

/-- Some worker of the download has still to store its status. -/
def rowOwed (s : Daemon) (id : ℕ) : Bool :=
  s.workers.any fun o => o.any fun w => w.downloadId = id && owesRow w

/-- The download has ended by itself. -/
def hasEnded (s : Daemon) (id : ℕ) : Bool :=
  match queueManagerGetStatus s.store id with
  | some .done | some .error | some .canceled => true
  | _ => false

/-- The daemon thread takes on a download whose worker has still to store its status, or
    pauses one that has ended since it was looked up. -/
def races (s : Daemon) : Act → Bool
  | .next =>
    match s.pc with
    | .handling (.checked .pause id) => rowOwed s id || hasEnded s id
    | .handling (.checked .resume id) => rowOwed s id
    | .handling (.located id _) => rowOwed s id
    | _ => false
  | .tick now => ((schedulerPick s.cfg s.store.fresh now).2).any (rowOwed s)
  | _ => false

/-! ## The invariant -/

/-- What a worker still stores is the status it publishes, once. -/
def WorkerStores (s : Store) (w : SchedulerWorker) : Prop :=
  match w.pc with
  | .settling o => o.status ≠ .active ∧
    (writes (o.before ++ o.after) = [statusToString o.status] ∨
      writes (o.before ++ o.after) = [] ∧ s.db.status w.downloadId = some (statusToString o.status))
  | .leaving ops => writes ops = [] ∨ ∃ d, s.control w.downloadId = some d ∧ d.status ≠ .active ∧
    writes ops = [statusToString d.status]
  | _ => True

/-- What a handler still stores is the status of its download. -/
def HandlerStores (s : Store) : DaemonPc → Prop
  | .handling (.finishing _ id ops _) => writes ops = [] ∨ ∃ d, s.control id = some d ∧
    d.status ≠ .active ∧ writes ops = [statusToString d.status]
  | .stopping _ => False
  | _ => True

/-- The worker is about to publish, or to store, the status of its download. -/
def changes (w : SchedulerWorker) : Bool :=
  match w.pc with
  | .settling _ => true
  | _ => owesRow w

/-- The handler of a request is about to store the status of the download. -/
def storesLater (id : ℕ) : DaemonPc → Prop
  | .handling (.finishing _ id' ops _) => id' = id ∧ writes ops ≠ []
  | _ => False

structure Inv (s : Daemon) : Prop where
  owned : Ownership s
  rows : ∀ id d, s.store.control id = some d → (s.store.db.row id).isSome
  worker : ∀ k w, s.worker k = some w → WorkerStores s.store w
  handler : HandlerStores s.store s.pc
  agrees : ∀ id d, s.store.control id = some d →
    s.store.db.status id = some (storedName d.status) ∨
      (∃ k w, s.worker k = some w ∧ w.downloadId = id ∧ changes w = true) ∨ storesLater id s.pc

theorem storedName_eq {status : DownloadStatus} (h : status ≠ .active) :
    storedName status = statusToString status := by
  cases status <;> first | rfl | exact absurd rfl h

theorem writes_cons {op : Op} {ops : List Op} :
    writes (op :: ops) = (row? op).toList ++ writes ops := by
  rw [writes, List.filterMap_cons]
  cases row? op <;> rfl

theorem writes_discardOps (path : CString) : writes (discardOps path) = ["CANCELED"] := by
  rw [discardOps]
  split_ifs <;> rfl

theorem outcome_stores (cfg : Config) (d : Download) (now : ℕ) (rc : ℤ) (canceled paused : Bool) :
    (outcome cfg d now rc canceled paused).status ≠ .active ∧
      writes ((outcome cfg d now rc canceled paused).before ++
        (outcome cfg d now rc canceled paused).after) =
          [statusToString (outcome cfg d now rc canceled paused).status] := by
  rcases outcome_cases cfg d now rc canceled paused with
    ⟨-, h⟩ | ⟨-, -, h⟩ | ⟨-, -, h | ⟨text, h⟩ | h⟩ <;> rw [h]
  · exact ⟨by decide, rfl⟩
  · refine ⟨by simp [canceledOutcome], ?_⟩
    rw [writes, List.filterMap_append, ← writes, canceledOutcome, writes_discardOps]
    rfl
  · exact ⟨by decide, rfl⟩
  · exact ⟨by simp [errorOutcome], rfl⟩
  · exact ⟨by simp [retryOutcome], rfl⟩

/-! ## Who changes a status -/

/-- The daemon thread pauses, resumes, cancels or picks the download. -/
def actsOn (s : Daemon) (a : Act) (id : ℕ) : Prop :=
  (a = .next ∧ (s.pc = .handling (.checked .pause id) ∨ s.pc = .handling (.checked .resume id) ∨
    ∃ path, s.pc = .handling (.located id path))) ∨
  ∃ now, s.pc = .idle ∧ a = .tick now ∧ (schedulerPick s.cfg s.store.fresh now).2 = some id

theorem rowOwed_of_worker (hw : s.worker k = some w) (hid : w.downloadId = id)
    (howes : owesRow w = true) : rowOwed s id = true := by
  rw [rowOwed, List.any_eq_true]
  exact ⟨some w, Daemon.mem_of_worker hw, by simp [hid, howes]⟩

theorem not_actsOn_of_rowOwed (hok : races s a = false) (howed : rowOwed s id = true) :
    ¬actsOn s a id := by
  rintro (⟨rfl, hpc | hpc | ⟨path, hpc⟩⟩ | ⟨now, -, rfl, hpick⟩)
  · simp [races, hpc, howed] at hok
  · simp [races, hpc, howed] at hok
  · simp [races, hpc, howed] at hok
  · simp [races, hpick, howed] at hok

/-- A download that is not active keeps its status, unless the daemon thread acts on it. -/
theorem status_keeps (h : Inv s) (hst : Daemon.Step R s a s') {d : Download}
    (hd : s.store.control id = some d) (hs : d.status ≠ .active) (hacts : ¬actsOn s a id) :
    ∃ d', s'.store.control id = some d' ∧ d'.status = d.status := by
  have hinactive : ¬s.store.isActive id = true := by
    rw [Store.isActive_iff]
    rintro ⟨d₁, hd₁, hs₁⟩
    rw [hd] at hd₁
    cases hd₁
    exact hs hs₁
  obtain ⟨d', hd', hmove⟩ := hst.moves h.owned.sound h.owned.ids hd
  refine ⟨d', hd', ?_⟩
  cases hmove with
  | keeps => rfl
  | raised => rfl
  | published hw hid hpc =>
    have := h.owned.active _ _ hw (by rw [SchedulerWorker.owns, hpc])
    exact absurd (hid ▸ this) hinactive
  | paused hpc ha =>
    rcases hpc with hpc | ⟨ids, hpc⟩
    · exact absurd (.inl ⟨ha, .inl hpc⟩) hacts
    · have := h.handler
      rw [hpc] at this
      exact this.elim
  | resumed hpc ha => exact absurd (.inl ⟨ha, .inr (.inl hpc)⟩) hacts
  | canceled hpc ha => exact absurd (.inl ⟨ha, .inr (.inr ⟨_, hpc⟩)⟩) hacts
  | picked hpc ha _ hpick => exact absurd (.inr ⟨_, hpc, ha, hpick⟩) hacts
  | unpicked hpc => exact absurd (h.owned.picked _ hpc).1 hinactive

theorem control_of_owner (h : Inv s) (hw : s.worker k = some w) (howns : w.owns = true) :
    ∃ d, s.store.control w.downloadId = some d ∧ d.status = .active :=
  Store.isActive_iff.1 (h.owned.active k w hw howns)

/-- The stored status of an owned download is written by its owner only. -/
theorem status_of_owner (h : Inv s) (hst : Daemon.Step R s a s') (hw : s.worker k = some w)
    (howns : w.owns = true) (ha : a ≠ .thread k .next) :
    s'.store.db.status w.downloadId = s.store.db.status w.downloadId := by
  obtain ⟨d, hd, hs⟩ := control_of_owner h hw howns
  -- Whoever stores a status otherwise has a download that is not active.
  have habsurd {d' : Download} (hd' : s.store.control w.downloadId = some d')
      (hs' : d'.status ≠ .active) : False := by
    rw [hd] at hd'
    cases hd'
    exact hs' hs
  rcases hst.status h.owned.sound w.downloadId with heq | ⟨name, hperf, -⟩
  · exact heq
  · cases hperf with
    | settle hw' hid hpc =>
      have := h.owned.unique _ _ _ _ hw' hw (by rw [SchedulerWorker.owns, hpc]) howns hid
      exact absurd (by rw [this]) ha
    | leave hw' hid hpc =>
      have hstores := h.worker _ _ hw'
      rw [WorkerStores, hpc] at hstores
      rcases hstores with hnil | ⟨d', hd', hs', -⟩
      · simp [writes_cons, row?] at hnil
      · exact (habsurd (hid ▸ hd') hs').elim
    | finish hpc =>
      have hstores := h.handler
      rw [hpc] at hstores
      rcases hstores with hnil | ⟨d', hd', hs', -⟩
      · simp [writes_cons, row?] at hnil
      · exact (habsurd hd' hs').elim

/-! ## Workers -/

/-- A worker that takes no step. -/
theorem WorkerStores.keep (h : Inv s) (hok : races s a = false) (hst : Daemon.Step R s a s')
    (hw : s.worker k = some w) (ha : a ≠ .thread k .next) : WorkerStores s'.store w := by
  have hold := h.worker k w hw
  rw [WorkerStores] at hold ⊢
  split at hold
  · rename_i o hpc
    refine ⟨hold.1, hold.2.imp_right fun hright => ⟨hright.1, ?_⟩⟩
    rw [status_of_owner h hst hw (by rw [SchedulerWorker.owns, hpc]) ha]
    exact hright.2
  · rename_i ops hpc
    rcases hold with hnil | ⟨d, hd, hs, hwrites⟩
    · exact .inl hnil
    · have howes : owesRow w = true := by simp [owesRow, hpc, hwrites]
      obtain ⟨d', hd', hs'⟩ := status_keeps h hst hd hs
        (not_actsOn_of_rowOwed hok (rowOwed_of_worker hw rfl howes))
      exact .inr ⟨d', hd', hs'.symm ▸ hs, by rw [hs', hwrites]⟩
  · trivial

theorem row?_eq_some {op : Op} {name : String} (h : row? op = some name) :
    op = .dbUpdateStatus name := by
  cases op <;> cases h
  rfl

/-- An operation that stores nothing keeps what is stored. -/
theorem status_exec {st : Store} {op : Op} {id' : ℕ} (h : row? op = none) :
    (op.exec id st).db.status id' = st.db.status id' := by
  cases op with
  | updateTotalSize => exact Db.status_exec rfl
  | dbUpdateStatus => cases h
  | _ => rfl

/-- A worker that takes a step. -/
theorem WorkerStores.thread {d : Download} {a : ThreadAct} {st : Store} {pc : ThreadPc} (h : Inv s)
    (hw : s.worker k = some w) (hd : s.store.get w.downloadId = some d)
    (hth : ThreadStep R s.cfg s.store.fresh d w.pc a st pc) :
    WorkerStores st ⟨w.downloadId, pc⟩ := by
  have hold := h.worker k w hw
  have hid := Store.get_id hd
  have hrow := h.rows _ _ (Store.control_of_get hd)
  rw [WorkerStores] at hold
  generalize w.pc = pc₀ at hth hold
  cases hth with
  | engine => trivial
  | loadCancel => trivial
  | loadPause =>
    -- The outcome stores the status that it publishes.
    obtain ⟨hne, hwrites⟩ := outcome_stores s.cfg d _ _ _ _
    exact ⟨hne, .inl hwrites⟩
  | @settle op ops after status =>
    refine ⟨hold.1, ?_⟩
    have hwrites := hold.2
    simp only [List.cons_append, writes_cons] at hwrites
    -- The operation stores the status that is published, or none.
    cases hop : row? op with
    | none =>
      rw [hop, Option.toList_none, List.nil_append] at hwrites
      refine hwrites.imp_right fun hright => ⟨hright.1, ?_⟩
      rw [status_exec hop]
      exact hright.2
    | some name =>
      rw [hop, Option.toList_some, List.singleton_append] at hwrites
      rcases hwrites with hwrites | ⟨hnil, -⟩
      · rw [List.cons.injEq] at hwrites
        refine .inr ⟨hwrites.2, ?_⟩
        rw [row?_eq_some hop, ← hwrites.1, hid]
        exact Db.status_updateStatus hrow
      · cases hnil
  | @publish after status =>
    rcases hold.2 with hwrites | ⟨hnil, -⟩
    · refine .inr ⟨{ d.control with status := status }, ?_, hold.1, hwrites⟩
      rw [queueManagerUpdateStatus, Store.control_modify
        (g := fun d => { d with status := status }) (fun _ => rfl) fun _ => rfl, if_pos hid.symm]
      have : s.store.fresh.control w.downloadId = some d.control := Store.control_of_get hd
      rw [this]
      rfl
    · exact .inl hnil
  | @leave op ops =>
    simp only [writes_cons] at hold
    rcases hold with hnil | ⟨d', hd', hs', hwrites⟩
    · exact .inl (List.append_eq_nil_iff.1 hnil).2
    · cases hop : row? op with
      | none =>
        rw [hop, Option.toList_none, List.nil_append] at hwrites
        exact .inr ⟨d', Store.control_exec.trans hd', hs', hwrites⟩
      | some name =>
        rw [hop, Option.toList_some, List.singleton_append, List.cons.injEq] at hwrites
        exact .inl hwrites.2
  | ended => trivial

theorem worker_step (h : Inv s) (hok : races s a = false) (hst : Daemon.Step R s a s')
    (hw : s'.worker k = some w) : WorkerStores s'.store w := by
  have hkeep (hold : s.worker k = some w) (ha : a ≠ .thread k .next) : WorkerStores s'.store w :=
    WorkerStores.keep h hok hst hold ha
  cases hst with
  | @thread k₁ w₁ d a₁ st pc hw₁ hd hth =>
    rw [Daemon.worker_set (Daemon.lt_of_worker hw₁) rfl] at hw
    split_ifs at hw with hk
    · cases hw
      exact WorkerStores.thread h hw₁ hd hth
    · exact hkeep hw fun ha => hk (by cases ha; rfl)
  | tick => exact hkeep (Daemon.worker_reap rfl hw) (by simp)
  | pick => exact hkeep (Daemon.worker_reap rfl hw) (by simp)
  | start _ hk =>
    rw [Daemon.worker_set (Daemon.lt_of_free hk) rfl] at hw
    split_ifs at hw
    · cases hw
      trivial
    · exact hkeep hw (by simp)
  | _ => exact hkeep hw (by simp)

/-! ## Handlers -/

theorem handler_step (h : Inv s) (hok : races s a = false) (hst : Daemon.Step R s a s') :
    HandlerStores s'.store s'.pc := by
  cases id hst with
  | thread =>
    -- The handler waits while a worker takes a step.
    have hold := h.handler
    rw [HandlerStores.eq_def] at hold ⊢
    simp only
    split at hold
    · rename_i c id ops answer hpc
      rcases hold with hnil | ⟨d, hd, hs, hwrites⟩
      · exact .inl hnil
      · obtain ⟨d', hd', hs'⟩ := status_keeps h hst hd hs (by simp [actsOn, hpc])
        exact .inr ⟨d', hd', hs'.symm ▸ hs, by rw [hs', hwrites]⟩
    · exact hold
    · trivial
  | @request c id =>
    rcases commandCheck_cases s.store.fresh c id with ⟨hcheck, -⟩ | ⟨answer, hcheck, -⟩ <;>
      simp only [hcheck]
    · trivial
    · exact .inl rfl
  | @finish c id op ops answer hpc =>
    have hold := h.handler
    rw [hpc] at hold
    simp only [HandlerStores, writes_cons] at hold
    rcases hold with hnil | ⟨d, hd, hs, hwrites⟩
    · exact .inl (List.append_eq_nil_iff.1 hnil).2
    · cases hop : row? op with
      | none =>
        rw [hop, Option.toList_none, List.nil_append] at hwrites
        exact .inr ⟨d, Store.control_exec.trans hd, hs, hwrites⟩
      | some name =>
        rw [hop, Option.toList_some, List.singleton_append, List.cons.injEq] at hwrites
        exact .inl hwrites.2
  | @pause id hpc =>
    obtain ⟨d, hd⟩ := Option.isSome_iff_exists.1 (h.owned.found id (.inl ⟨_, hpc⟩))
    have hcontrol : s.store.fresh.control id = some d.control := Store.control_of_get hd
    have hended : hasEnded s id = false := by
      simp only [races, hpc, Bool.or_eq_false_iff] at hok
      exact hok.2
    rw [hasEnded, Store.getStatus_eq, Store.control_of_get hd] at hended
    split_ifs with hact
    · exact .inl rfl
    · -- A download that was queued is paused by now.
      refine .inr ⟨d.control.pause, ?_, ?_⟩
      · rw [Store.control_modify Download.control_pause Download.pause_id, if_pos rfl, hcontrol]
        rfl
      · have hstatus : d.control.status = d.status := rfl
        have hne : d.status ≠ .active := fun hs =>
          hact (Store.isActive_iff.2 ⟨d.control, Store.control_of_get hd, hs⟩)
        cases hs : d.status <;> simp_all [Download.pause, writes, row?, statusToString]
  | @resume id hpc =>
    obtain ⟨d, hd⟩ := Option.isSome_iff_exists.1 (h.owned.found id (.inl ⟨_, hpc⟩))
    have hcontrol : s.store.fresh.control id = some d.control := Store.control_of_get hd
    simp only
    split_ifs with hres
    · refine .inr ⟨d.control.resume, ?_, ?_⟩
      · rw [Store.control_modify Download.control_resume Download.resume_id, if_pos rfl, hcontrol]
        rfl
      · have hstatus : d.control.status = d.status := rfl
        rw [queueManagerResume, Store.getStatus_eq, Store.control_of_get hd] at hres
        cases hs : d.status <;> simp_all [Download.resume, writes, row?, statusToString]
    · exact .inl rfl
  | @cancel id path hpc =>
    obtain ⟨d, hd⟩ := Option.isSome_iff_exists.1 (h.owned.found id (.inr ⟨_, hpc⟩))
    have hcontrol : s.store.fresh.control id = some d.control := Store.control_of_get hd
    split_ifs with hact
    · exact .inl rfl
    · refine .inr ⟨_, Store.control_cancel hcontrol hact, by simp, ?_⟩
      rw [writes_discardOps]
      rfl
  | stop hpc =>
    have hold := h.handler
    rw [hpc] at hold
    exact hold.elim
  | answer => trivial
  | _ => trivial

/-! ## Agreement -/

/-- A worker that is about to change the status of its download goes on to do so, or the
    stored status agrees. -/
theorem changes_step {d' : Download} (h : Inv s) (hst : Daemon.Step R s a s')
    (hw : s.worker k = some w) (hid : w.downloadId = id) (hch : changes w = true)
    (hd' : s'.store.control id = some d') :
    s'.store.db.status id = some (storedName d'.status) ∨
      ∃ k w', s'.worker k = some w' ∧ w'.downloadId = id ∧ changes w' = true := by
  have hdone : w.isDone = false := by
    rw [SchedulerWorker.isDone]
    split
    · rename_i hpc
      simp [changes, owesRow, hpc] at hch
    · rfl
  have hstores := h.worker k w hw
  subst hid
  cases hst with
  | @thread k₁ w₁ d a₁ st pc hw₁ hd hth =>
    by_cases hk : k = k₁
    · subst hk
      rw [hw] at hw₁
      cases hw₁
      -- The worker itself takes the step.
      have hset (t : Daemon) (ht : t.workers = s.workers.set k (some ⟨w.downloadId, pc⟩)) :
          t.worker k = some ⟨w.downloadId, pc⟩ := by
        rw [Daemon.worker_set (Daemon.lt_of_worker hw) ht, if_pos rfl]
      have hgetid := Store.get_id hd
      have hrow := h.rows _ _ (Store.control_of_get hd)
      rw [WorkerStores] at hstores
      rw [changes, owesRow] at hch
      generalize w.pc = pc₀ at hth hstores hch
      cases hth with
      | engine => cases hch
      | loadCancel => cases hch
      | loadPause => cases hch
      | settle => exact .inr ⟨k, _, hset _ rfl, rfl, rfl⟩
      | @publish after status =>
        rcases hstores with ⟨hne, hwrites | ⟨hnil, hdb⟩⟩
        · refine .inr ⟨k, _, hset _ rfl, rfl, ?_⟩
          have : writes after = [statusToString status] := hwrites
          simp [changes, owesRow, this]
        · left
          have hcontrol : s.store.fresh.control w.downloadId = some d.control :=
            Store.control_of_get hd
          rw [queueManagerUpdateStatus, Store.control_modify
            (g := fun d => { d with status := status }) (fun _ => rfl) fun _ => rfl,
            if_pos hgetid.symm, hcontrol] at hd'
          cases hd'
          exact hdb.trans (by rw [storedName_eq hne])
      | @leave op ops =>
        have hd'' : s.store.control w.downloadId = some d' :=
          (Store.control_exec (s := s.store.fresh)).symm.trans hd'
        simp only [writes_cons] at hstores hch
        rcases hstores with hnil | ⟨d₁, hd₁, hs₁, hwrites⟩
        · simp [hnil] at hch
        · rw [hd''] at hd₁
          cases hd₁
          cases hop : row? op with
          | none =>
            rw [hop, Option.toList_none, List.nil_append] at hwrites
            exact .inr ⟨k, _, hset _ rfl, rfl, by simp [changes, owesRow, hwrites]⟩
          | some name =>
            rw [hop, Option.toList_some, List.singleton_append, List.cons.injEq] at hwrites
            left
            rw [row?_eq_some hop, hwrites.1, storedName_eq hs₁, hgetid]
            exact Db.status_updateStatus hrow
      | ended => cases hch
    · refine .inr ⟨k, w, ?_, rfl, hch⟩
      rw [Daemon.worker_set (Daemon.lt_of_worker hw₁) rfl, if_neg hk]
      exact hw
  | tick => exact .inr ⟨k, w, Daemon.worker_of_reap rfl hw hdone, rfl, hch⟩
  | pick => exact .inr ⟨k, w, Daemon.worker_of_reap rfl hw hdone, rfl, hch⟩
  | @start id k₁ hpc hk =>
    refine .inr ⟨k, w, ?_, rfl, hch⟩
    have hne : k ≠ k₁ := by
      rintro rfl
      rw [Daemon.worker_of_free hk] at hw
      cases hw
    rw [Daemon.worker_set (Daemon.lt_of_free hk) rfl, if_neg hne]
    exact hw
  | _ => exact .inr ⟨k, w, hw, rfl, hch⟩

/-- The handler of a request does as its download demands. -/
theorem stores_step {d' : Download} (h : Inv s) (hst : Daemon.Step R s a s')
    (hlater : storesLater id s.pc) (hd' : s'.store.control id = some d') :
    s'.store.db.status id = some (storedName d'.status) ∨ storesLater id s'.pc := by
  have hstores := h.handler
  generalize hpc : s.pc = pc at hlater hstores
  cases pc with
  | handling hp =>
    cases hp with
    | finishing c id' ops answer =>
      obtain ⟨rfl, hne⟩ := hlater
      cases hst with
      | thread => exact .inr (by rw [hpc]; exact ⟨rfl, hne⟩)
      | @finish c' id' op ops' answer' hpc' =>
        rw [hpc'] at hpc
        cases hpc
        simp only [HandlerStores, writes_cons] at hstores
        rcases hstores with hnil | ⟨d, hd, hs, hwrites⟩
        · exact absurd (by rw [writes_cons, hnil]) hne
        · have hd'' : s.store.control id' = some d' :=
            (Store.control_exec (s := s.store.fresh)).symm.trans hd'
          have hrow := h.rows _ _ hd
          rw [hd''] at hd
          cases hd
          -- The handler has stored the status, or has yet to.
          cases hop : row? op with
          | none =>
            rw [hop, Option.toList_none, List.nil_append] at hwrites
            exact .inr ⟨rfl, by simp [hwrites]⟩
          | some name =>
            rw [hop, Option.toList_some, List.singleton_append, List.cons.injEq] at hwrites
            left
            rw [row?_eq_some hop, hwrites.1, storedName_eq hs]
            exact Db.status_updateStatus hrow
      | answer hpc' =>
        rw [hpc'] at hpc
        cases hpc
        exact absurd rfl hne
      | _ => simp_all
    | _ => exact hlater.elim
  | _ => exact hlater.elim

theorem agrees_step {d' : Download} (h : Inv s) (hst : Daemon.Step R s a s')
    (hd' : s'.store.control id = some d') :
    s'.store.db.status id = some (storedName d'.status) ∨
      (∃ k w, s'.worker k = some w ∧ w.downloadId = id ∧ changes w = true) ∨
        storesLater id s'.pc := by
  obtain ⟨d, hd, hmove⟩ := hst.exists_moves h.owned.sound h.owned.ids hd'
  have hworker {k : ℕ} {w : SchedulerWorker} (hw : s.worker k = some w) (hid : w.downloadId = id)
      (hch : changes w = true) :=
    (changes_step h hst hw hid hch hd').imp_right
      fun hr => (Or.inl hr : _ ∨ storesLater id s'.pc)
  have hhandler (hlater : storesLater id s.pc) :=
    (stores_step h hst hlater hd').imp_right
      fun hr => (Or.inr hr : (∃ k w, s'.worker k = some w ∧ w.downloadId = id ∧ changes w = true) ∨ _)
  rcases h.agrees id d hd with hagree | ⟨k, w, hw, hid, hch⟩ | hlater
  · rcases hst.status h.owned.sound id with hdb | ⟨name, hperf, -⟩
    · -- What is stored does not change: the status does only as the handler will store.
      have hsame (hs : d'.status = d.status) :
          s'.store.db.status id = some (storedName d'.status) := by rw [hdb, hagree, hs]
      cases hmove with
      | keeps => exact .inl (hsame rfl)
      | raised => exact .inl (hsame rfl)
      | published hw hid hpc => exact hworker hw hid (by rw [changes, hpc])
      | paused hpc ha =>
        rcases hpc with hpc | ⟨ids, hpc⟩
        · -- A queued download is paused at once, which the handler is about to store.
          by_cases hs : d.status = .queued
          · have hact : s.store.isActive id = false := by
              rw [Store.isActive, Store.getStatus_eq, hd, Option.map_some, hs]
              decide
            have hpc' := hst.pc_of_pause hpc ha
            rw [hpc', hact]
            exact .inr (.inr ⟨rfl, by decide⟩)
          · refine .inl (hsame ?_)
            cases hs' : d.status <;> simp_all [Download.pause]
        · have := h.handler
          rw [hpc] at this
          exact this.elim
      | resumed hpc ha =>
        by_cases hs : d.status = .paused ∨ d.status = .error
        · have hres : (queueManagerResume s.store id).2 = true := by
            rw [queueManagerResume, Store.getStatus_eq, hd]
            simpa using hs
          have hpc' := hst.pc_of_resume hpc ha
          rw [hpc', if_pos hres]
          exact .inr (.inr ⟨rfl, by decide⟩)
        · refine .inl (hsame ?_)
          cases hs' : d.status <;> simp_all [Download.resume]
      | canceled hpc ha =>
        -- The cancel of an active download is left to its worker.
        by_cases hs : d.status = .active
        · refine .inl (hsame ?_)
          simp [Download.cancel, hs]
        · have hact : s.store.isActive id = false := by
            rw [Store.isActive, Store.getStatus_eq, hd]
            simpa using hs
          have hpc' := hst.pc_of_cancel hpc ha
          rw [hpc', hact]
          exact .inr (.inr ⟨rfl, by simp [writes_discardOps]⟩)
      | picked _ _ hq =>
        left
        rw [hdb, hagree, hq]
        rfl
      | unpicked hpc =>
        obtain ⟨d₁, hd₁, hs₁⟩ := Store.isActive_iff.1 (h.owned.picked _ hpc).1
        rw [hd] at hd₁
        cases hd₁
        left
        rw [hdb, hagree, hs₁]
        rfl
    · cases hperf with
      | settle hw hid hpc => exact hworker hw hid (by rw [changes, hpc])
      | leave hw hid hpc =>
        exact hworker hw hid (by simp [changes, owesRow, hpc, writes_cons, row?])
      | finish hpc => exact hhandler (by rw [hpc]; exact ⟨rfl, by simp [writes_cons, row?]⟩)
  · exact hworker hw hid hch
  · exact hhandler hlater

theorem Inv.step (h : Inv s) (hok : races s a = false) (hst : Daemon.Step R s a s') : Inv s' := by
  refine ⟨h.owned.step hst, fun id d' hd' => ?_, fun k w hw => worker_step h hok hst hw,
    handler_step h hok hst, fun id d' hd' => agrees_step h hst hd'⟩
  obtain ⟨d, hd, -⟩ := hst.exists_moves h.owned.sound h.owned.ids hd'
  have hrow := h.rows id d hd
  rcases hst.status h.owned.sound id with hdb | ⟨name, -, hdb⟩
  · rw [← Option.isSome_map (f := DownloadRow.status), ← Db.status] at hrow ⊢
    rwa [hdb]
  · rw [hdb]
    exact Db.row_exec_isSome _ hrow

/-! ## Runs -/

/-- The downloads at rest have their statuses stored. -/
structure Start (s : Daemon) : Prop where
  atRest : AtRest s
  stored : ∀ d ∈ s.store.queue, s.store.db.status d.id = some (statusToString d.status)

theorem Inv.of_start (h : Start s) : Inv s := by
  have hstored {id : ℕ} {d : Download} (hd : s.store.control id = some d) :
      s.store.db.status id = some (storedName d.status) := by
    obtain ⟨d₀, hd₀, rfl⟩ := Store.control_eq_some hd
    have hmem := Store.mem_of_get hd₀
    rw [← Store.get_id hd₀, h.stored d₀ hmem]
    exact congrArg some (storedName_eq (h.atRest.inactive d₀ hmem)).symm
  refine ⟨h.atRest.ownership, fun id d hd => ?_, fun k w hw => ?_, ?_, fun id d hd => ?_⟩
  · obtain ⟨r, hr, -⟩ := Option.map_eq_some_iff.1 (hstored hd)
    rw [hr]
    rfl
  · rw [h.atRest.worker] at hw
    cases hw
  · rw [h.atRest.pc]
    trivial
  · exact .inl (hstored hd)

/-- No worker is between its engine run and its end, and no handler in progress. -/
def resting (s : Daemon) : Bool :=
  (s.workers.all fun o => o.all fun w =>
    match w.pc with
    | .engine _ | .done => true
    | _ => false) &&
  match s.pc with
  | .handling _ => false
  | _ => true

/-- The daemons that start at rest, and whose threads do not race. -/
abbrev Reached (R : CString → ℕ → UInt8) : Daemon → Prop :=
  Run.Reachable (Daemon.step R) Start fun s a => races s a = false

/-- Whenever nothing is in progress, the status stored for a download is the one in memory;
    for an active one it may be that of a queued one. -/
theorem stored_of_not_races (hs : Reached R s) (hrest : resting s = true) {d : Download}
    (hd : d ∈ s.store.queue) :
    s.store.db.status d.id = some (statusToString d.status) ∨
      (d.status = .active ∧ s.store.db.status d.id = some "QUEUED") := by
  have hinv : Inv s :=
    hs.invariant (fun _ => Inv.of_start) fun _ _ _ h hok hst => h.step hok (.of_eq hst)
  rw [resting, Bool.and_eq_true, List.all_eq_true] at hrest
  have hcontrol := Store.control_of_get (Store.get_of_mem hinv.owned.ids hd)
  rcases hinv.agrees _ _ hcontrol with hagree | ⟨k, w, hw, -, hch⟩ | hlater
  · have hagree : s.store.db.status d.id = some (storedName d.status) := hagree
    by_cases hs : d.status = .active
    · exact .inr ⟨hs, by rw [hagree, hs]; rfl⟩
    · exact .inl (by rw [hagree, storedName_eq hs])
  · have hpc := hrest.1 _ (Daemon.mem_of_worker hw)
    rw [changes, owesRow] at hch
    rw [Option.all_some] at hpc
    split at hpc <;> simp_all
  · have hpc := hrest.2
    rw [storesLater.eq_def] at hlater
    split at hlater <;> simp_all

theorem start_oneDownload : Start oneDownload := ⟨atRest_oneDownload, by decide⟩

/-- The download is paused while its engine runs, resumed, and completes. -/
theorem stored_of_not_races_resumed :
    ∃ s, Reached (fun _ _ => 1) s ∧ resting s = true ∧ ∃ d ∈ s.store.queue, d.status = .done ∧
      (s.store.db.status d.id = some (statusToString d.status) ∨
        (d.status = .active ∧ s.store.db.status d.id = some "QUEUED")) := by
  obtain ⟨s, hs, hrest, d, hd, hdone⟩ := reachable_of_exec (fun _ _ => 1)
    (fun s a => races s a = false)
    (fun s => resting s = true ∧ ∃ d ∈ s.store.queue, d.status = .done)
    start_oneDownload
    (runActs failureActs ++ [.request .pause 1, .next, .next] ++ sampleActs ++
      List.replicate 4 (.thread 0 .next) ++ [.request .resume 1, .next, .next, .next] ++
      runActs successActs ++ sampleActs ++ List.replicate 6 (.thread 0 .next)) (by decide +kernel)
  exact ⟨s, hs, hrest, d, hd, hdone, stored_of_not_races hs hrest hd⟩

/-- A pause is received while the download is still active; it completes, and the pause then
    stores that it is paused. -/
theorem exists_stored_paused :
    ∃ s, Run.Reachable (Daemon.step fun _ _ => 1) Start (fun _ _ => True) s ∧
      resting s = true ∧ ∃ d ∈ s.store.queue, d.status = .done ∧
        s.store.db.status d.id = some "PAUSED" :=
  reachable_of_exec (fun _ _ => 1) (fun _ _ => True)
    (fun s => resting s = true ∧ ∃ d ∈ s.store.queue, d.status = .done ∧
      s.store.db.status d.id = some "PAUSED")
    start_oneDownload
    (runActs successActs ++ sampleActs ++ [.request .pause 1] ++
      List.replicate 6 (.thread 0 .next) ++ List.replicate 3 .next) (by decide +kernel)

end Cdm.Stored
