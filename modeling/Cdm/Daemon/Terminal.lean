import Cdm.Daemon.Ownership

/-!
# A download that is done

A handler looks up the status of a download with one operation and acts on it with a
later one; a worker may publish its result in between. If no cancel is carried out on a
download that is already done (`lateCancel`), a download that is done stays so, and no
step unlinks its file.
-/

namespace Cdm.Terminal

variable {R : CString → ℕ → UInt8} {s s' : Daemon} {a : Act} {id : ℕ}

/-- A cancel is carried out on a download that is done by now. -/
def lateCancel (s : Daemon) : Act → Bool
  | .next =>
    match s.pc with
    | .handling (.located id _) => queueManagerGetStatus s.store id = some .done
    | _ => false
  | _ => false

/-- The destination of a download. -/
def pathOf (s : Store) (id : ℕ) : Option CString := (s.control id).map (·.destPath)

theorem pathOf_of_get {s : Store} {d : Download} (h : s.get id = some d) :
    pathOf s id = some d.destPath := by
  rw [pathOf, Store.control_of_get h]
  rfl

/-- The worker unlinks the destination of its download, if anything, and nothing once it
    has published its status. -/
def WorkerInPlace (s : Store) (w : SchedulerWorker) : Prop :=
  match w.pc with
  | .settling o =>
    (∀ p, .unlink p ∈ o.before → pathOf s w.downloadId = some p) ∧ ∀ p, .unlink p ∉ o.after
  | .leaving ops => ∀ p, .unlink p ∉ ops
  | _ => True

/-- The handler of a cancel knows the destination of its download, and unlinks it only if
    the download is canceled. -/
def HandlerInPlace (s : Store) : DaemonPc → Prop
  | .handling (.located id path) => path ≠ [] → pathOf s id = some path
  | .handling (.finishing _ id ops _) =>
    ∀ p, .unlink p ∈ ops → pathOf s id = some p ∧ queueManagerGetStatus s id = some .canceled
  | _ => True

structure Inv (s : Daemon) : Prop where
  owned : Ownership s
  worker : ∀ k w, s.worker k = some w → WorkerInPlace s.store w
  handler : HandlerInPlace s.store s.pc
  distinct : ∀ id id' p, pathOf s.store id = some p → pathOf s.store id' = some p → id = id'

/-! ## Steps -/

/-- Destinations do not change. -/
theorem pathOf_step (h : Ownership s) (hst : Daemon.Step R s a s') {p : CString}
    (hp : pathOf s.store id = some p) : pathOf s'.store id = some p := by
  obtain ⟨d, hd, rfl⟩ := Option.map_eq_some_iff.1 hp
  obtain ⟨d', hd', hmove⟩ := hst.moves h.sound h.ids hd
  rw [pathOf, hd', ← hmove.destPath]
  rfl

/-- The downloads of the queue stay the same. -/
theorem pathOf_of_step (h : Ownership s) (hst : Daemon.Step R s a s') {p : CString}
    (hp : pathOf s'.store id = some p) : pathOf s.store id = some p := by
  obtain ⟨d', hd', rfl⟩ := Option.map_eq_some_iff.1 hp
  obtain ⟨d, hd, hmove⟩ := hst.exists_moves h.sound h.ids hd'
  rw [pathOf, hd, hmove.destPath]
  rfl

theorem canceled_step (h : Ownership s) (hst : Daemon.Step R s a s')
    (hs : queueManagerGetStatus s.store id = some .canceled) :
    queueManagerGetStatus s'.store id = some .canceled := by
  rw [Store.getStatus_eq] at hs
  obtain ⟨d, hd, hs⟩ := Option.map_eq_some_iff.1 hs
  obtain ⟨d', hd', -, hs'⟩ := h.ended hst hd (.inr hs)
  rw [Store.getStatus_eq, hd']
  rcases hs' with hs' | ⟨-, -, hs'⟩
  · rw [Option.map_some, hs', hs]
  · rw [Option.map_some, hs']

theorem WorkerInPlace.step {w : SchedulerWorker} (h : Ownership s) (hst : Daemon.Step R s a s')
    (hw : WorkerInPlace s.store w) : WorkerInPlace s'.store w := by
  rw [WorkerInPlace] at hw ⊢
  split at hw
  · exact ⟨fun p hp => pathOf_step h hst (hw.1 p hp), hw.2⟩
  · exact hw
  · trivial

theorem workerInPlace_thread {cfg : Config} {st st' : Store} {d : Download} {pc pc' : ThreadPc}
    {a : ThreadAct} (hw : WorkerInPlace st ⟨id, pc⟩) (hd : pathOf st id = some d.destPath)
    (hst : ThreadStep R cfg st d pc a st' pc') : WorkerInPlace st ⟨id, pc'⟩ := by
  cases hst with
  | engine => trivial
  | loadCancel => trivial
  | loadPause =>
    refine ⟨fun p hp => ?_, fun p => unlink_outcome.2⟩
    rw [hd, unlink_outcome.1 hp]
  | settle => exact ⟨fun p hp => hw.1 p (List.mem_cons_of_mem _ hp), hw.2⟩
  | publish => exact hw.2
  | leave => exact fun p hp => hw p (List.mem_cons_of_mem _ hp)
  | ended => trivial

theorem HandlerInPlace.step {pc : DaemonPc} (h : Ownership s) (hst : Daemon.Step R s a s')
    (hpc : HandlerInPlace s.store pc) : HandlerInPlace s'.store pc := by
  rw [HandlerInPlace.eq_def] at hpc ⊢
  split at hpc
  · exact fun hne => pathOf_step h hst (hpc hne)
  · exact fun p hp => ⟨pathOf_step h hst (hpc p hp).1, canceled_step h hst (hpc p hp).2⟩
  · trivial

theorem handlerInPlace_request (st : Store) (c : Command) (id : ℕ) :
    HandlerInPlace st (.handling (commandCheck st c id)) := by
  unfold commandCheck
  split <;> first | trivial | exact fun p hp => absurd hp List.not_mem_nil

theorem Inv.step (h : Inv s) (hst : Daemon.Step R s a s') : Inv s' := by
  refine ⟨h.owned.step hst, fun k w hw => ?_, ?_, fun id id' p hp hp' => ?_⟩
  · -- A worker from before, one that takes a step, or one just started.
    cases id hst with
    | @thread k₁ w₁ d a₁ st pc hw₁ hd hth =>
      rw [Daemon.worker_set (Daemon.lt_of_worker hw₁) rfl] at hw
      split_ifs at hw
      · cases hw
        have hpath : pathOf s.store.fresh w₁.downloadId = some d.destPath :=
          pathOf_of_get hd
        have hw₀ : WorkerInPlace s.store.fresh w₁ := h.worker _ _ hw₁
        have := workerInPlace_thread hw₀ hpath hth
        exact WorkerInPlace.step h.owned hst this
      · exact (h.worker k w hw).step h.owned hst
    | tick => exact (h.worker k w (Daemon.worker_reap rfl hw)).step h.owned hst
    | pick => exact (h.worker k w (Daemon.worker_reap rfl hw)).step h.owned hst
    | start _ hk =>
      rw [Daemon.worker_set (Daemon.lt_of_free hk) rfl] at hw
      split_ifs at hw
      · cases hw
        trivial
      · exact (h.worker k w hw).step h.owned hst
    | _ => exact (h.worker k w hw).step h.owned hst
  · -- The handler of a request; only the cancel of an idle download is about to unlink.
    have hkeep : HandlerInPlace s'.store s.pc := h.handler.step h.owned hst
    cases id hst with
    | thread => exact hkeep
    | request => exact handlerInPlace_request _ _ _
    | finish hpc =>
      rw [hpc] at hkeep
      exact fun p hp => hkeep p (List.mem_cons_of_mem _ hp)
    | pause =>
      intro p hp
      split_ifs at hp <;> simp at hp
    | resume =>
      simp only
      split_ifs
      · intro p hp
        simp at hp
      · exact fun p hp => absurd hp List.not_mem_nil
    | @locate id hpc =>
      intro hne
      cases hget : s.store.get id with
      | none => simp [hget] at hne
      | some d =>
        exact pathOf_step h.owned hst (pathOf_of_get hget)
    | @cancel id path hpc =>
      rw [hpc] at hkeep
      intro p hp
      split_ifs at hp with hact
      · cases hp
      · -- The path was copied before the status is set to canceled.
        obtain ⟨hne, rfl⟩ := unlink_mem_discardOps.1 hp
        refine ⟨hkeep hne, ?_⟩
        have hold := h.handler
        rw [hpc] at hold
        obtain ⟨d, hd, -⟩ := Option.map_eq_some_iff.1 (hold hne)
        have hd' : s.store.fresh.control id = some d := hd
        rw [Store.getStatus_eq, Store.control_cancel hd' hact]
        rfl
    | _ => trivial
  · exact h.distinct id id' p (pathOf_of_step h.owned hst hp) (pathOf_of_step h.owned hst hp')

/-- The downloads at rest have destinations of their own. -/
structure Start (s : Daemon) : Prop where
  atRest : AtRest s
  distinct : (s.store.queue.map (·.destPath)).Nodup

theorem Inv.of_start (h : Start s) : Inv s := by
  refine ⟨h.atRest.ownership, fun k w hw => ?_, ?_, fun id id' p hp hp' => ?_⟩
  · rw [h.atRest.worker] at hw
    cases hw
  · rw [h.atRest.pc]
    trivial
  · obtain ⟨d, hd, rfl⟩ := Option.map_eq_some_iff.1 hp
    obtain ⟨d', hd', hpp⟩ := Option.map_eq_some_iff.1 hp'
    obtain ⟨d₀, hd₀, rfl⟩ := Store.control_eq_some hd
    obtain ⟨d₁, hd₁, rfl⟩ := Store.control_eq_some hd'
    have := List.inj_on_of_nodup_map h.distinct (Store.mem_of_get hd₀) (Store.mem_of_get hd₁)
      hpp.symm
    rw [← Store.get_id hd₀, ← Store.get_id hd₁, this]

/-- One step keeps a download that is done, and its file. -/
theorem done_step (h : Inv s) (hok : lateCancel s a = false) (hst : Daemon.Step R s a s')
    {d : Download} (hd : s.store.control id = some d) (hs : d.status = .done) :
    (∃ d', s'.store.control id = some d' ∧ d'.destPath = d.destPath ∧ d'.status = .done) ∧
      s'.store.files d.destPath = s.store.files d.destPath ∧ d.destPath ∉ s'.store.unlinked := by
  have hpath : pathOf s.store id = some d.destPath := by rw [pathOf, hd]; rfl
  -- Only this download has that path.
  have hother {id' : ℕ} {d' : Download} (hd' : s.store.control id' = some d')
      (hp : d'.destPath = d.destPath) : d'.status = .done := by
    have : id' = id := h.distinct id' id d.destPath (by rw [pathOf, hd', ← hp]; rfl) hpath
    rw [this, hd] at hd'
    cases hd'
    exact hs
  constructor
  · obtain ⟨d', hd', hp, hs'⟩ := h.owned.ended hst hd (.inl hs)
    refine ⟨d', hd', hp, ?_⟩
    rcases hs' with hs' | ⟨rfl, ⟨path, hpc⟩, -⟩
    · exact hs'.trans hs
    · -- The cancel would be late.
      have : lateCancel s .next = true := by
        simp [lateCancel, hpc, Store.getStatus_eq, hd, hs]
      rw [this] at hok
      cases hok
  · -- Whoever touches the file works on a download that is active, or canceled.
    rcases hst.files (p := d.destPath) h.owned.sound with hfile | ⟨k, w, pc, d₁, hw, hpc, hd₁, hp⟩ |
      ⟨id', hperf⟩
    · exact hfile
    · have hact := h.owned.active k w hw (by rw [SchedulerWorker.owns, hpc])
      obtain ⟨d₂, hd₂, hs₂⟩ := Store.isActive_iff.1 hact
      rw [Store.control_of_get hd₁] at hd₂
      cases hd₂
      have := hother (Store.control_of_get hd₁) hp
      exact absurd (this.symm.trans hs₂) (by decide)
    · cases hperf with
      | settle hw hid hpc =>
        have hact := h.owned.active _ _ hw (by rw [SchedulerWorker.owns, hpc])
        obtain ⟨d₂, hd₂, hs₂⟩ := Store.isActive_iff.1 hact
        have hplace := h.worker _ _ hw
        rw [WorkerInPlace, hpc] at hplace
        have hp := hplace.1 d.destPath List.mem_cons_self
        rw [pathOf, hd₂] at hp
        have := hother hd₂ (Option.some.inj hp)
        exact absurd (this.symm.trans hs₂) (by decide)
      | leave hw hid hpc =>
        have hplace := h.worker _ _ hw
        rw [WorkerInPlace, hpc] at hplace
        exact absurd List.mem_cons_self (hplace d.destPath)
      | finish hpc =>
        have hplace := h.handler
        rw [hpc] at hplace
        obtain ⟨hp, hs₂⟩ := hplace d.destPath List.mem_cons_self
        obtain ⟨d₂, hd₂, hp⟩ := Option.map_eq_some_iff.1 hp
        rw [Store.getStatus_eq, hd₂] at hs₂
        have := hother hd₂ hp
        exact absurd (this.symm.trans (Option.some.inj hs₂)) (by decide)

/-! ## Runs -/

/-- The daemons that start at rest and carry out no late cancel. -/
abbrev Reached (R : CString → ℕ → UInt8) : Daemon → Prop :=
  Run.Reachable (Daemon.step R) Start fun s a => lateCancel s a = false

/-- From a state in which a download is done, no run without a late cancel changes its
    status, or its file: no later step unlinks it. -/
theorem done_of_not_lateCancel {s s' s'' : Daemon} {a : Act} {d : Download} (hs : Reached R s)
    (hd : s.store.get id = some d) (hdone : d.status = .done)
    (hs' : Run.Reachable (Daemon.step R) (· = s) (fun s a => lateCancel s a = false) s')
    (ha : lateCancel s' a = false) (hst : s'.step R a = some s'') :
    queueManagerGetStatus s''.store id = some .done ∧ d.destPath ∉ s''.store.unlinked ∧
      s''.store.files d.destPath = s.store.files d.destPath := by
  have hinv (t : Daemon) (ht : Reached R t) : Inv t :=
    ht.invariant (fun _ => Inv.of_start) fun _ _ _ h _ hst => h.step (.of_eq hst)
  -- Along the run, the download is done, and its file is that of `s`.
  have hrun : Reached R s' ∧ (∃ d', s'.store.control id = some d' ∧ d'.destPath = d.destPath ∧
      d'.status = .done) ∧ s'.store.files d.destPath = s.store.files d.destPath := by
    clear ha hst
    induction hs' with
    | init h =>
      subst h
      exact ⟨hs, ⟨d.control, Store.control_of_get hd, rfl, hdone⟩, rfl⟩
    | step _ hok hst ih =>
      obtain ⟨ht, ⟨d₀, hd₀, hp₀, hs₀⟩, hfile⟩ := ih
      obtain ⟨⟨d₁, hd₁, hp₁, hs₁⟩, hfile₁, -⟩ := done_step (hinv _ ht) hok (.of_eq hst) hd₀ hs₀
      rw [hp₀] at hfile₁
      exact ⟨ht.step hok hst, ⟨d₁, hd₁, hp₁.trans hp₀, hs₁⟩, hfile₁.trans hfile⟩
  obtain ⟨ht, ⟨d₀, hd₀, hp₀, hs₀⟩, hfile⟩ := hrun
  obtain ⟨⟨d₁, hd₁, -, hs₁⟩, hfile₁, hun⟩ := done_step (hinv _ ht) ha (.of_eq hst) hd₀ hs₀
  rw [hp₀] at hfile₁ hun
  refine ⟨?_, hun, hfile₁.trans hfile⟩
  rw [Store.getStatus_eq, hd₁, Option.map_some, hs₁]

theorem start_oneDownload : Start oneDownload := ⟨atRest_oneDownload, by decide⟩

/-- The download completes, and a cancel that comes afterwards is received. -/
theorem done_of_not_lateCancel_rejected :
    ∃ s s'' d, Reached (fun _ _ => 1) s ∧ s.store.get 1 = some d ∧ d.status = .done ∧
      s.step (fun _ _ => 1) (.request .cancel 1) = some s'' ∧
      queueManagerGetStatus s''.store 1 = some .done ∧ d.destPath ∉ s''.store.unlinked ∧
      s''.store.files d.destPath = s.store.files d.destPath := by
  obtain ⟨s, hs, d, hd, hdone, s'', hst, -⟩ := reachable_of_exec (fun _ _ => 1)
    (fun s a => lateCancel s a = false)
    (fun s => ∃ d ∈ s.store.get 1, d.status = .done ∧
      ∃ s'' ∈ s.step (fun _ _ => 1) (.request .cancel 1), True)
    start_oneDownload (runActs successActs ++ sampleActs ++ List.replicate 3 (.thread 0 .next))
    (by decide +kernel)
  exact ⟨s, s'', d, hs, hd, hdone, hst, done_of_not_lateCancel hs hd hdone (.init rfl) rfl hst⟩

/-- A cancel is received while the download is still active; its worker publishes that the
    download is done, and the cancel is carried out: the download is canceled, and its file
    is gone. -/
theorem exists_done_canceled :
    ∃ s s', Run.Reachable (Daemon.step fun _ _ => 1) Start (fun _ _ => True) s ∧
      queueManagerGetStatus s.store 1 = some .done ∧
      (s.store.files "/d/f".toList).isSome ∧
      Run.Reachable (Daemon.step fun _ _ => 1) (· = s) (fun _ _ => True) s' ∧
      queueManagerGetStatus s'.store 1 = some .canceled ∧
      s'.store.files "/d/f".toList = none ∧ "/d/f".toList ∈ s'.store.unlinked := by
  obtain ⟨s, hs, hdone, hfile, s', hs', hend⟩ := reachable_of_exec (fun _ _ => 1)
    (fun _ _ => True)
    (fun s => queueManagerGetStatus s.store 1 = some .done ∧
      (s.store.files "/d/f".toList).isSome ∧
      ∃ s' ∈ Run.exec (Daemon.step fun _ _ => 1) (fun _ _ => True) s (List.replicate 6 .next),
        queueManagerGetStatus s'.store 1 = some .canceled ∧
          (s'.store.files "/d/f".toList).isNone ∧ "/d/f".toList ∈ s'.store.unlinked)
    start_oneDownload (runActs successActs ++ sampleActs ++ [.request .cancel 1] ++
      List.replicate 3 (.thread 0 .next)) (by decide +kernel)
  have hrun : Run.Reachable (Daemon.step fun _ _ => 1) (· = s) (fun _ _ => True) s := .init rfl
  exact ⟨s, s', hs, hdone, hfile, hrun.exec hs', hend.1, Option.isNone_iff_eq_none.1 hend.2.1,
    hend.2.2⟩

end Cdm.Terminal
