import Cdm.Daemon.Service

/-!
# How many downloads run

A tick makes a queued download active only while fewer than the configured number are, and
nothing else does. So no more than that number is ever active. Every active download has a
worker that has not published how its run ended, or is the one that the tick in progress is
about to start a worker for (`Admitted`). With the ownership of the downloads this gives the
admission of the scheduler: the engine runs on active downloads only, and on each at most
once at a time (`admission`).
-/

namespace Cdm

variable {R : CString → ℕ → UInt8}

/-! ## The active downloads -/

namespace Store

variable {s t : Store} {id : ℕ}

/-- The identifiers of the active downloads. -/
def activeIds (s : Store) : List ℕ := (s.queue.filter (·.status = .active)).map (·.id)

theorem count_active (s : Store) : queueManagerCountByStatus s .active = s.activeIds.length := by
  rw [queueManagerCountByStatus, activeIds, List.length_map, List.countP_eq_length_filter]

theorem nodup_activeIds (h : (s.queue.map (·.id)).Nodup) : s.activeIds.Nodup :=
  h.sublist (List.filter_sublist.map _)

theorem mem_activeIds (h : (s.queue.map (·.id)).Nodup) : id ∈ s.activeIds ↔ s.isActive id = true := by
  rw [activeIds, List.mem_map, isActive_iff]
  constructor
  · rintro ⟨d, hd, rfl⟩
    obtain ⟨hmem, hs⟩ := List.mem_filter.1 hd
    exact ⟨d.control, control_of_get (get_of_mem h hmem), of_decide_eq_true hs⟩
  · rintro ⟨d, hd, hs⟩
    obtain ⟨d₀, hd₀, rfl⟩ := control_eq_some hd
    exact ⟨d₀, List.mem_filter.2 ⟨mem_of_get hd₀, decide_eq_true hs⟩, get_id hd₀⟩

/-- The active downloads of a store are at most as many as a list that has them all. -/
theorem count_le_length (ids : List ℕ) (h : (t.queue.map (·.id)).Nodup)
    (hsub : ∀ id, t.isActive id = true → id ∈ ids) :
    queueManagerCountByStatus t .active ≤ ids.length := by
  rw [count_active]
  exact (List.subperm_of_subset (nodup_activeIds h)
    fun id hid => hsub id ((mem_activeIds h).1 hid)).length_le

theorem isActive_of_queue (h : t.queue = s.queue) (id : ℕ) : t.isActive id = s.isActive id :=
  isActive_congr (by rw [get, h, get])

end Store

/-- A tick picks a download only while fewer than the maximum are active. -/
theorem count_lt_of_schedulerPick {cfg : Config} {s : Store} {now id : ℕ}
    (h : (schedulerPick cfg s now).2 = some id) :
    (queueManagerCountByStatus s .active : ℤ) < cfg.maxConcurrentDownloads := by
  rw [schedulerPick] at h
  split_ifs at h with hlt
  exact hlt

/-- No command makes a download active. -/
theorem Download.active_of_command {d : Download}
    (h : d.pause.status = .active ∨ d.resume.status = .active ∨ d.cancel.status = .active) :
    d.status = .active := by
  obtain ⟨_, _, _, _, status⟩ := d
  cases status <;> rcases h with h | h | h <;> first | rfl | cases h

/-- No run ends with its download active. -/
theorem outcome_status_ne_active (cfg : Config) (d : Download) (now : ℕ) (rc : ℤ)
    (canceled paused : Bool) : (outcome cfg d now rc canceled paused).status ≠ .active := by
  rcases outcome_cases cfg d now rc canceled paused with
    ⟨-, h⟩ | ⟨-, -, h⟩ | ⟨-, -, h | ⟨text, h⟩ | h⟩ <;> rw [h] <;>
    simp [doneOutcome, canceledOutcome, pausedOutcome, errorOutcome, retryOutcome]

/-- No download is restored active. -/
theorem restoredStatus_ne_active (name : String) : restoredStatus name ≠ .active := by
  rw [restoredStatus]
  split_ifs <;> simp

/-! ## Owners -/

/-- The worker in the slot `k` owns the download `id`. -/
def Daemon.Owner (s : Daemon) (id k : ℕ) : Prop :=
  ∃ w, s.worker k = some w ∧ w.downloadId = id ∧ w.owns = true

namespace Daemon.Step

variable {s s' : Daemon} {a : Act} {id k : ℕ} {w : SchedulerWorker}

/-- A worker owns its download until it publishes. -/
theorem owner_of_not_publishes (hst : Daemon.Step R s a s') (hw : s.worker k = some w)
    (howns : w.owns = true) (hpub : ¬Publishes s a k) : s'.Owner w.downloadId k := by
  have hkeep (h : s'.worker k = some w) : s'.Owner w.downloadId k := ⟨w, h, rfl, howns⟩
  have hreap : w.isDone = false := by
    rw [SchedulerWorker.isDone]
    rw [SchedulerWorker.owns] at howns
    split at howns <;> simp_all
  cases hst with
  | @thread k₁ w₁ d₁ a₁ st pc hw₁ hd₁ hth =>
    by_cases hk : k = k₁
    · subst hk
      rw [hw] at hw₁
      cases hw₁
      refine ⟨⟨w.downloadId, pc⟩, ?_, rfl, ?_⟩
      · rw [Daemon.worker_set (Daemon.lt_of_worker hw) rfl, if_pos rfl]
      · generalize hpc : w.pc = pc₀ at hth
        cases hth with
        | publish => exact absurd ⟨rfl, w, _, _, hw, hpc⟩ hpub
        | leave => simp [SchedulerWorker.owns, hpc] at howns
        | ended => simp [SchedulerWorker.owns, hpc] at howns
        | _ => rfl
    · refine hkeep ?_
      rw [Daemon.worker_set (Daemon.lt_of_worker hw₁) rfl, if_neg hk]
      exact hw
  | tick => exact hkeep (Daemon.worker_of_reap rfl hw hreap)
  | pick => exact hkeep (Daemon.worker_of_reap rfl hw hreap)
  | start _ hk =>
    refine hkeep ?_
    rw [Daemon.worker_set (Daemon.lt_of_free hk) rfl, if_neg]
    · exact hw
    · rintro rfl
      rw [Daemon.worker_of_free hk] at hw
      cases hw
  | _ => exact hkeep hw

/-- A download that was picked is still to be started, has a worker, or is queued again. -/
theorem owner_of_picked (hst : Daemon.Step R s a s') (hpc : s.pc = .picked id)
    (hact : s'.store.isActive id = true) : (∃ k, s'.Owner id k) ∨ s'.pc = .picked id := by
  cases hst with
  | thread => exact .inr hpc
  | @start _ k hpc' hk =>
    rw [hpc] at hpc'
    cases hpc'
    refine .inl ⟨k, ⟨id, .engine .entered⟩, ?_, rfl, rfl⟩
    rw [Daemon.worker_set (Daemon.lt_of_free hk) rfl, if_pos rfl]
  | startFails hpc' =>
    rw [hpc] at hpc'
    cases hpc'
    obtain ⟨d', hd', hs'⟩ := Store.isActive_iff.1 hact
    rw [queueManagerUpdateStatus, Store.control_modify (g := fun d => { d with status := .queued })
      (fun _ => rfl) (fun _ => rfl), if_pos rfl] at hd'
    obtain ⟨d, -, rfl⟩ := Option.map_eq_some_iff.1 hd'
    cases hs'
  | _ => simp_all

end Daemon.Step

/-! ## The invariant -/

structure Admitted (m : ℤ) (s : Daemon) : Prop where
  owned : Ownership s
  numbered : s.Numbered
  cfg : s.cfg.maxConcurrentDownloads = m
  count : (queueManagerCountByStatus s.store .active : ℤ) ≤ m
  owner : ∀ id, s.store.isActive id = true → (∃ k, s.Owner id k) ∨ s.pc = .picked id
  settles : ∀ k w o, s.worker k = some w → w.pc = .settling o → o.status ≠ .active

namespace Admitted

variable {m : ℤ} {s s' : Daemon} {a : Act} {u : Upkeep} {id : ℕ}

/-- What is active after a step was active before, or was just picked, while there was room
    for it. -/
theorem isActive_back (h : Admitted m s) (hst : Daemon.Step R s a s')
    (hact : s'.store.isActive id = true) :
    s.store.isActive id = true ∨
      (s'.pc = .picked id ∧ (queueManagerCountByStatus s.store .active : ℤ) < m) := by
  have hback (ha : ∀ now, a ≠ .tick now) : s.store.isActive id = true := by
    obtain ⟨d', hd', hs'⟩ := Store.isActive_iff.1 hact
    obtain ⟨d, hd, hmove⟩ := hst.exists_moves h.owned.sound h.owned.ids hd'
    refine Store.isActive_iff.2 ⟨d, hd, ?_⟩
    cases hmove with
    | keeps => exact hs'
    | raised => exact hs'
    | published hw _ hpc => exact absurd hs' (h.settles _ _ _ hw hpc)
    | paused => exact Download.active_of_command (.inl hs')
    | resumed => exact Download.active_of_command (.inr (.inl hs'))
    | canceled => exact Download.active_of_command (.inr (.inr hs'))
    | picked _ htick => exact absurd htick (ha _)
    | unpicked => cases hs'
  cases hst with
  | tick => exact .inl hact
  | @pick now d hpc hmem hq hpick =>
    by_cases hid : id = d.id
    · have hlt : (queueManagerCountByStatus s.store.fresh .active : ℤ) <
          s.cfg.maxConcurrentDownloads := count_lt_of_schedulerPick hpick
      exact .inr ⟨by rw [hid], h.cfg ▸ hlt⟩
    · left
      obtain ⟨d', hd', hs'⟩ := Store.isActive_iff.1 hact
      rw [Store.control_modify (g := fun d => { d with status := .active }) (fun _ => rfl)
        (fun _ => rfl), if_neg hid] at hd'
      exact Store.isActive_iff.2 ⟨d', hd', hs'⟩
  | _ => exact .inl (hback fun _ => by simp)

/-- The worker that publishes does not leave its download active. -/
theorem not_active_of_publishes (h : Admitted m s) (hst : Daemon.Step R s a s') {k : ℕ}
    {w : SchedulerWorker} (hw : s.worker k = some w) (hpub : Publishes s a k) :
    ¬s'.store.isActive w.downloadId = true := by
  obtain ⟨rfl, w', status, after, hw', hpc⟩ := hpub
  rw [hw] at hw'
  cases hw'
  have hne := h.settles k w _ hw hpc
  cases hst with
  | @thread _ w₁ d₁ _ st pc hw₁ hd₁ hth =>
    rw [hw] at hw₁
    cases hw₁
    rw [hpc] at hth
    cases hth with
    | publish =>
      intro hact
      obtain ⟨d', hd', hs'⟩ := Store.isActive_iff.1 hact
      have hd : s.store.fresh.control w.downloadId = some d₁.control := Store.control_of_get hd₁
      rw [queueManagerUpdateStatus, Store.control_modify (g := fun d => { d with status := status })
        (fun _ => rfl) (fun _ => rfl), Store.get_id hd₁, if_pos rfl, hd] at hd'
      cases hd'
      exact hne hs'

theorem settles_step (h : Admitted m s) (hst : Daemon.Step R s a s') {k : ℕ} {w : SchedulerWorker}
    {o : Outcome} (hw : s'.worker k = some w) (hpc : w.pc = .settling o) : o.status ≠ .active := by
  cases hst with
  | @thread k₁ w₁ d₁ a₁ st pc hw₁ hd₁ hth =>
    rw [Daemon.worker_set (Daemon.lt_of_worker hw₁) rfl] at hw
    split_ifs at hw with hk
    · cases hw
      generalize hpc₁ : w₁.pc = pc₁ at hth
      cases hth with
      | loadPause =>
        cases hpc
        exact outcome_status_ne_active _ _ _ _ _ _
      | settle =>
        cases hpc
        have := h.settles k₁ w₁ _ hw₁ hpc₁
        exact this
      | _ => cases hpc
    · exact h.settles k w o hw hpc
  | tick => exact h.settles k w o (Daemon.worker_reap rfl hw) hpc
  | pick => exact h.settles k w o (Daemon.worker_reap rfl hw) hpc
  | start _ hk =>
    rw [Daemon.worker_set (Daemon.lt_of_free hk) rfl] at hw
    split_ifs at hw
    · cases hw
      cases hpc
    · exact h.settles k w o hw hpc
  | _ => exact h.settles k w o hw hpc

/-- Every step of a thread keeps the invariant. -/
theorem step (h : Admitted m s) (hst : Daemon.Step R s a s') : Admitted m s' := by
  have howned := h.owned.step hst
  refine ⟨howned, h.numbered.step h.owned hst, ?_, ?_, fun id hact => ?_,
    fun k w o hw hpc => h.settles_step hst hw hpc⟩
  · rw [← h.cfg]
    cases hst <;> rfl
  · -- Only a tick adds to the active downloads, one, if there is room for it.
    by_cases hpick : ∃ id, s'.pc = .picked id ∧
        (queueManagerCountByStatus s.store .active : ℤ) < m
    · obtain ⟨id, hpc, hlt⟩ := hpick
      have hle := Store.count_le_length (id :: s.store.activeIds) howned.ids fun id' hact => by
        rcases h.isActive_back hst hact with hold | ⟨hpc', -⟩
        · exact List.mem_cons_of_mem _ ((Store.mem_activeIds h.owned.ids).2 hold)
        · rw [hpc] at hpc'
          cases hpc'
          exact List.mem_cons_self
      rw [List.length_cons, ← Store.count_active] at hle
      omega
    · have hle := Store.count_le_length s.store.activeIds howned.ids fun id' hact => by
        rcases h.isActive_back hst hact with hold | hp
        · exact (Store.mem_activeIds h.owned.ids).2 hold
        · exact absurd ⟨id', hp⟩ hpick
      rw [← Store.count_active] at hle
      have := h.count
      omega
  · rcases h.isActive_back hst hact with hold | ⟨hpc, -⟩
    · rcases h.owner id hold with ⟨k, w, hw, rfl, ho⟩ | hpc
      · -- The owner goes on, as the download would not be active if it had published.
        have hpub : ¬Publishes s a k := fun hpub => h.not_active_of_publishes hst hw hpub hact
        exact .inl ⟨k, hst.owner_of_not_publishes hw ho hpub⟩
      · exact hst.owner_of_picked hpc hact
    · exact .inr hpc

/-- So does the upkeep, with the same maximum. -/
theorem upkept (h : Admitted m s) (hst : Daemon.Upkept s u s')
    (hcfg : s'.cfg.maxConcurrentDownloads = m) : Admitted m s' := by
  have howned := h.owned.upkept h.numbered hst
  -- Nothing becomes active, and the workers stay, but for a restart.
  have hsame (hw : s'.workers = s.workers) (hpc : s.pc = .idle)
      (hact : ∀ id, s'.store.isActive id = true → s.store.isActive id = true) : Admitted m s' := by
    have hworker (k : ℕ) : s'.worker k = s.worker k := by rw [Daemon.worker, hw, Daemon.worker]
    refine ⟨howned, h.numbered.upkept hst, hcfg, ?_, fun id hid => ?_, fun k w o hk => ?_⟩
    · have hle := Store.count_le_length s.store.activeIds howned.ids fun id hid =>
        (Store.mem_activeIds h.owned.ids).2 (hact id hid)
      rw [← Store.count_active] at hle
      have := h.count
      omega
    · rcases h.owner id (hact id hid) with ⟨k, w, hk, hrest⟩ | hp
      · exact .inl ⟨k, w, (hworker k).trans hk, hrest⟩
      · rw [hpc] at hp
        cases hp
    · exact h.settles k w o (hworker k ▸ hk)
  have hn := h.numbered
  cases hst with
  | @added _ url dest opts st id _ hu hpc hid hres =>
    obtain ⟨path, -, -, hle, -, hqueue, -, -⟩ := hres.added hid
    refine hsame rfl hpc fun id' hact => ?_
    obtain ⟨d, hd, hs⟩ := Store.isActive_iff.1 hact
    obtain ⟨d₀, hd₀, rfl⟩ := Store.control_eq_some hd
    rw [Store.get_of_cons hqueue] at hd₀
    split_ifs at hd₀ with hid'
    · cases hd₀
      cases hs
    · exact Store.isActive_iff.2 ⟨_, Store.control_of_get hd₀, hs⟩
  | refused hu hpc hres =>
    obtain ⟨hqueue, -, -⟩ := hres.refused rfl
    refine hsame rfl hpc fun id' hact => ?_
    exact (Store.isActive_of_queue hqueue id').symm.trans hact
  | settled hpc => exact hsame rfl hpc fun _ hact => hact
  | stopping hpc => exact hsame rfl hpc fun _ hact => hact
  | restarted =>
    have hnone (id : ℕ) : ¬s.store.restore.isActive id = true := by
      intro hact
      obtain ⟨d, hd, hs⟩ := Store.isActive_iff.1 hact
      obtain ⟨d₀, hd₀, rfl⟩ := Store.control_eq_some hd
      rw [Store.get_restore hn.rows] at hd₀
      obtain ⟨r, -, rfl⟩ := Option.map_eq_some_iff.1 hd₀
      exact restoredStatus_ne_active _ hs
    have hcount : queueManagerCountByStatus s.store.restore .active ≤ 0 :=
      Store.count_le_length [] howned.ids fun id hact => absurd hact (hnone id)
    refine ⟨howned, h.numbered.upkept .restarted, hcfg, ?_, fun id hact => absurd hact (hnone id),
      fun k w o hw => ?_⟩
    · have := h.count
      simp only
      omega
    · rw [Daemon.worker_restarted rfl] at hw
      cases hw

end Admitted

/-! ## Runs -/

/-- The engine runs in the thread of the worker, or has just returned. -/
def SchedulerWorker.runsEngine (w : SchedulerWorker) : Bool :=
  match w.pc with
  | .engine _ => true
  | _ => false

/-- The settings that are loaded allow `m` downloads at a time. -/
def allows (m : ℤ) : Service → Bool
  | .upkeep (.reload cfg) | .upkeep (.restart cfg) => cfg.maxConcurrentDownloads = m
  | _ => true

/-- A daemon that has not begun to work, with any downloads restored, set to `m` at a time. -/
structure Idles (m : ℤ) (s : Daemon) : Prop where
  atRest : AtRest s
  numbered : s.Numbered
  cfg : s.cfg.maxConcurrentDownloads = m

theorem Admitted.of_idles {m : ℤ} {s : Daemon} (hm : 1 ≤ m) (h : Idles m s) : Admitted m s := by
  have hnone (id : ℕ) : ¬s.store.isActive id = true := by
    intro hact
    obtain ⟨d, hd, hs⟩ := Store.isActive_iff.1 hact
    obtain ⟨d₀, hd₀, rfl⟩ := Store.control_eq_some hd
    exact h.atRest.inactive d₀ (Store.mem_of_get hd₀) hs
  have hcount : queueManagerCountByStatus s.store .active ≤ 0 :=
    Store.count_le_length [] h.atRest.ids fun id hact => absurd hact (hnone id)
  refine ⟨h.atRest.ownership, h.numbered, h.cfg, by omega, fun id hact => absurd hact (hnone id),
    fun k w o hw => ?_⟩
  rw [h.atRest.worker] at hw
  cases hw

theorem Daemon.Upkept.cfg {m : ℤ} {s s' : Daemon} {u : Upkeep} (h : s.upkeep u = some s')
    (hcfg : s.cfg.maxConcurrentDownloads = m) (hallows : allows m (.upkeep u) = true) :
    s'.cfg.maxConcurrentDownloads = m := by
  unfold Daemon.upkeep at h
  simp only at h
  split at h <;> cases h
  · exact hcfg
  · exact hcfg
  · exact hcfg
  · simpa [allows] using hallows
  · exact hcfg
  · simpa [allows] using hallows

/-- With a maximum of `m` downloads at a time, in every state the daemon reaches, whatever it
    is asked to do and whether threads are created or not: at most `m` downloads are active;
    every active download is owned by exactly one worker, but for the one a tick is about to
    start a worker for; the engine runs on a download in at most one worker; and it runs on
    active downloads only. -/
theorem admission {m : ℤ} (hm : 1 ≤ m) {s : Daemon}
    (hs : Run.Reachable (Daemon.serve R) (Idles m) (fun _ a => allows m a = true) s) :
    (queueManagerCountByStatus s.store .active : ℤ) ≤ m ∧
    (∀ id, s.store.isActive id = true → s.pc ≠ .picked id → ∃! k, s.Owner id k) ∧
    (∀ k k' w w', s.worker k = some w → s.worker k' = some w' → w.runsEngine = true →
      w'.runsEngine = true → w.downloadId = w'.downloadId → k = k') ∧
    (∀ k w, s.worker k = some w → w.runsEngine = true → s.store.isActive w.downloadId = true) := by
  have hinv : Admitted m s := by
    refine hs.invariant (fun s hs => .of_idles hm hs) fun s a s' h hallows hst => ?_
    cases a with
    | act a => exact h.step (.of_eq hst)
    | upkeep u =>
      exact h.upkept (.of_eq h.numbered.positive hst) (Daemon.Upkept.cfg hst h.cfg hallows)
  -- A worker in which the engine runs owns its download.
  have howns {w : SchedulerWorker} (hw : w.runsEngine = true) : w.owns = true := by
    rw [SchedulerWorker.runsEngine] at hw
    rw [SchedulerWorker.owns]
    split at hw <;> simp_all
  refine ⟨hinv.count, fun id hact hpc => ?_, fun k k' w w' hk hk' hw hw' hid => ?_,
    fun k w hk hw => hinv.owned.active k w hk (howns hw)⟩
  · obtain ⟨k, hk⟩ := (hinv.owner id hact).resolve_right hpc
    refine ⟨k, hk, fun k' hk' => ?_⟩
    obtain ⟨w, hw, hid, ho⟩ := hk
    obtain ⟨w', hw', hid', ho'⟩ := hk'
    exact hinv.owned.unique k' k w' w hw' hw ho' ho (hid'.trans hid.symm)
  · exact hinv.owned.unique k k' w w' hk hk' (howns hw) (howns hw') hid

theorem idles_freshDaemon : Idles 3 freshDaemon :=
  ⟨firstStart_freshDaemon.atRest, firstStart_freshDaemon.numbered, rfl⟩

/-- A download is added and picked, its thread is not created, and it is picked again. -/
theorem admission_started :
    ∃ s, Run.Reachable (Daemon.serve fun _ _ => 1) (Idles 3) (fun _ a => allows 3 a = true) s ∧
      s.store.isActive 1 = true ∧ s.pc ≠ .picked 1 ∧ ∃! k, s.Owner 1 k := by
  obtain ⟨s, hs, hact, hpc⟩ := Run.exists_reachable_of_exec
    (Daemon.serve fun _ _ => 1) (Idles 3) (fun _ a => allows 3 a = true)
    (fun s => s.store.isActive 1 = true ∧ (Daemon.step (fun _ _ => 1) s (.tick 0)).isSome = true)
    idles_freshDaemon
    (.upkeep (addFile "/d/f") :: [.tick 0, .start false, .tick 0, .start true].map .act)
    (by decide +kernel)
  have hne : s.pc ≠ .picked 1 := by
    -- The next tick waits for the worker to be started.
    intro h
    simp [Daemon.step, h] at hpc
  exact ⟨s, hs, hact, hne, (admission (by decide) hs).2.1 1 hact hne⟩

end Cdm
