import Cdm.Daemon.Moves

/-!
# Who owns a download

A worker *owns* its download until it has published how the run ended. A download that
is owned is active, and is owned by a single worker: whatever the requests, only its
owner changes its status (`Ownership`).
-/

namespace Cdm

variable {R : CString → ℕ → UInt8} {s s' : Daemon} {a : Act} {id k : ℕ} {w : SchedulerWorker}

/-- The worker has not published a status yet. -/
def SchedulerWorker.owns (w : SchedulerWorker) : Bool :=
  match w.pc with
  | .engine _ | .sampled _ _ | .settling _ => true
  | .leaving _ | .done => false

/-- The worker in the slot `k` publishes a status. -/
def Publishes (s : Daemon) (a : Act) (k : ℕ) : Prop :=
  a = .thread k .next ∧ ∃ w status after, s.worker k = some w ∧ w.pc = .settling ⟨[], status, after⟩

structure Ownership (s : Daemon) : Prop where
  ids : (s.store.queue.map (·.id)).Nodup
  sound : s.Sound
  active : ∀ k w, s.worker k = some w → w.owns = true → s.store.isActive w.downloadId = true
  unique : ∀ k k' w w', s.worker k = some w → s.worker k' = some w' → w.owns = true →
    w'.owns = true → w.downloadId = w'.downloadId → k = k'
  picked : ∀ id, s.pc = .picked id → s.store.isActive id = true ∧
    ∀ k w, s.worker k = some w → w.owns = true → w.downloadId ≠ id
  /-- A handler that goes on has found its download. -/
  found : ∀ id, ((∃ c, s.pc = .handling (.checked c id)) ∨
    ∃ path, s.pc = .handling (.located id path)) → (s.store.get id).isSome

/-- An owner after a step is one from before, which does not publish, or has just been
    started for the download picked. -/
theorem Daemon.Step.owns (hst : Daemon.Step R s a s') (hw : s'.worker k = some w)
    (howns : w.owns = true) :
    (∃ w₀, s.worker k = some w₀ ∧ w₀.owns = true ∧ w₀.downloadId = w.downloadId ∧
      ¬Publishes s a k) ∨
    (a = .start true ∧ s.pc = .picked w.downloadId ∧ freeWorker s.workers = some k ∧
      s'.store = s.store.fresh ∧ w.pc = .engine .entered) := by
  have hold (ha : ∀ a', a ≠ .thread k a') (h : s.worker k = some w) :
      ∃ w₀, s.worker k = some w₀ ∧ w₀.owns = true ∧ w₀.downloadId = w.downloadId ∧
        ¬Publishes s a k :=
    ⟨w, h, howns, rfl, fun hpub => ha _ hpub.1⟩
  cases hst with
  | @thread k₁ w₁ d₁ a₁ st pc hw₁ hd₁ h =>
    rw [Daemon.worker_set (Daemon.lt_of_worker hw₁) rfl] at hw
    split_ifs at hw with hk
    · subst hk
      cases hw
      refine .inl ⟨w₁, hw₁, ?_, rfl, ?_⟩
      · generalize hpc : w₁.pc = pc₀ at h
        cases h with
        | leave => cases howns
        | ended => cases howns
        | _ => rw [SchedulerWorker.owns, hpc]
      · rintro ⟨-, w₂, status, after, hw₂, hpc₂⟩
        rw [hw₁] at hw₂
        cases hw₂
        rw [hpc₂] at h
        cases h
        cases howns
    · exact .inl (hold (fun a' ha' => hk (by cases ha'; rfl)) hw)
  | tick => exact .inl (hold (fun _ => by simp) (Daemon.worker_reap rfl hw))
  | pick => exact .inl (hold (fun _ => by simp) (Daemon.worker_reap rfl hw))
  | start hpc hk =>
    rw [Daemon.worker_set (Daemon.lt_of_free hk) rfl] at hw
    split_ifs at hw with hkk
    · cases hw
      exact .inr ⟨rfl, hpc, hkk ▸ hk, rfl, rfl⟩
    · exact .inl (hold (fun _ => by simp) hw)
  | _ => exact .inl (hold (fun _ => by simp) hw)

namespace Ownership

/-- An active download stays so, unless its owner publishes, or it could not be started. -/
theorem isActive_of_step (h : Ownership s) (hst : Daemon.Step R s a s') (hact : s.store.isActive id = true)
    (hpub : ∀ k w, s.worker k = some w → w.downloadId = id → ¬Publishes s a k)
    (hpicked : s.pc = .picked id → ∀ created, a ≠ .start created) :
    s'.store.isActive id = true := by
  obtain ⟨d, hd, hs⟩ := Store.isActive_iff.1 hact
  obtain ⟨d', hd', hmove⟩ := hst.moves h.sound h.ids hd
  refine Store.isActive_iff.2 ⟨d', hd', ?_⟩
  cases hmove with
  | keeps => exact hs
  | raised => exact hs
  | published hw hid hpc ha => exact absurd ⟨ha, _, _, _, hw, hpc⟩ (hpub _ _ hw hid)
  | paused => simp [Download.pause, hs]
  | resumed => simp [Download.resume, hs]
  | canceled => simp [Download.cancel, hs]
  | picked => rfl
  | unpicked hpc ha => exact absurd ha (hpicked hpc _)

theorem sound_step (h : Ownership s) (hst : Daemon.Step R s a s') : s'.Sound := by
  intro k w pc hw hpc
  cases hst with
  | @thread k₁ w₁ d₁ a₁ st pc₁ hw₁ hd₁ hth =>
    rw [Daemon.worker_set (Daemon.lt_of_worker hw₁) rfl] at hw
    split_ifs at hw with hk
    · cases hw
      generalize hpc₀ : w₁.pc = pc₀ at hth
      cases hth with
      | engine heng =>
        cases hpc
        obtain ⟨-, -, hsound, -⟩ := Store.engineStep_spec (h.sound _ _ _ hw₁ hpc₀) heng
        exact hsound
      | _ => cases hpc
    · exact h.sound k w pc hw hpc
  | tick => exact h.sound k w pc (Daemon.worker_reap rfl hw) hpc
  | pick => exact h.sound k w pc (Daemon.worker_reap rfl hw) hpc
  | start _ hk =>
    rw [Daemon.worker_set (Daemon.lt_of_free hk) rfl] at hw
    split_ifs at hw
    · cases hw
      cases hpc
      trivial
    · exact h.sound k w pc hw hpc
  | _ => exact h.sound k w pc hw hpc

theorem found_step (h : Ownership s) (hst : Daemon.Step R s a s')
    (hpc : (∃ c, s'.pc = .handling (.checked c id)) ∨
      ∃ path, s'.pc = .handling (.located id path)) : (s'.store.get id).isSome := by
  have hkeep (hsome : (s.store.get id).isSome) : (s'.store.get id).isSome := by
    rwa [Store.get_isSome, hst.ids h.sound, ← Store.get_isSome]
  cases hst with
  | thread => exact hkeep (h.found id hpc)
  | @request c id' hidle =>
    rcases commandCheck_cases s.store.fresh c id' with ⟨hcheck, hsome⟩ | ⟨answer, hcheck, -⟩ <;>
      rw [hcheck] at hpc <;> rcases hpc with ⟨_, hpc⟩ | ⟨_, hpc⟩ <;> cases hpc
    exact hsome
  | locate hchecked =>
    rcases hpc with ⟨_, hpc⟩ | ⟨_, hpc⟩ <;> cases hpc
    exact h.found id (.inl ⟨_, hchecked⟩)
  | resume =>
    split_ifs at hpc <;> rcases hpc with ⟨_, hpc⟩ | ⟨_, hpc⟩ <;> cases hpc
  | _ => rcases hpc with ⟨_, hpc⟩ | ⟨_, hpc⟩ <;> cases hpc

theorem step (h : Ownership s) (hst : Daemon.Step R s a s') : Ownership s' := by
  -- An owner from before the step keeps its download active.
  have hold {k : ℕ} {w w₀ : SchedulerWorker} (hw₀ : s.worker k = some w₀) (ho : w₀.owns = true)
      (hid : w₀.downloadId = w.downloadId) (hpub : ¬Publishes s a k) :
      s'.store.isActive w.downloadId = true := by
    refine h.isActive_of_step hst (hid ▸ h.active k w₀ hw₀ ho) (fun k₁ w₁ hw₁ hid₁ hp => ?_)
      fun hpc => absurd hid ((h.picked _ hpc).2 k w₀ hw₀ ho)
    obtain ⟨-, w₂, _, _, hw₂, hpc₂⟩ := id hp
    rw [hw₁] at hw₂
    cases hw₂
    have ho₁ : w₁.owns = true := by rw [SchedulerWorker.owns, hpc₂]
    exact hpub (h.unique _ _ _ _ hw₁ hw₀ ho₁ ho (hid₁.trans hid.symm) ▸ hp)
  refine ⟨(hst.ids h.sound).symm ▸ h.ids, h.sound_step hst, fun k w hw ho => ?_,
    fun k k' w w' hw hw' ho ho' hid => ?_, fun id hpc => ?_, fun _ => h.found_step hst⟩
  · rcases hst.owns hw ho with ⟨w₀, hw₀, ho₀, hid, hpub⟩ | ⟨-, hpc, -, hstore, -⟩
    · exact hold hw₀ ho₀ hid hpub
    · rw [hstore]
      exact (h.picked _ hpc).1
  · rcases hst.owns hw ho with ⟨w₀, hw₀, ho₀, hid₀, -⟩ | ⟨-, hpc, hk, -⟩ <;>
      rcases hst.owns hw' ho' with ⟨w₁, hw₁, ho₁, hid₁, -⟩ | ⟨-, hpc', hk', -⟩
    · exact h.unique _ _ _ _ hw₀ hw₁ ho₀ ho₁ (by rw [hid₀, hid₁, hid])
    · exact absurd (hid₀.trans hid) ((h.picked _ hpc').2 _ _ hw₀ ho₀)
    · exact absurd (hid₁.trans hid.symm) ((h.picked _ hpc).2 _ _ hw₁ ho₁)
    · rw [hk] at hk'
      exact Option.some.inj hk'
  · have hpicked (hs : s.pc = .picked id) (ha : ∀ created, a ≠ .start created) :
        s'.store.isActive id = true ∧
          ∀ k w, s'.worker k = some w → w.owns = true → w.downloadId ≠ id := by
      obtain ⟨hact, hno⟩ := h.picked id hs
      refine ⟨h.isActive_of_step hst hact (fun k₁ w₁ hw₁ hid₁ hp => ?_) fun _ => ha,
        fun k w hw ho => ?_⟩
      · obtain ⟨-, w₂, _, _, hw₂, hpc₂⟩ := hp
        rw [hw₁] at hw₂
        cases hw₂
        exact hno k₁ w₁ hw₁ (by rw [SchedulerWorker.owns, hpc₂]) hid₁
      · rcases hst.owns hw ho with ⟨w₀, hw₀, ho₀, hid, -⟩ | ⟨hstart, -⟩
        · exact hid ▸ hno k w₀ hw₀ ho₀
        · exact absurd hstart (ha true)
    cases hst with
    | thread => exact hpicked hpc fun _ => by simp
    | @pick now d hidle hmem hq =>
      cases hpc
      have hget := Store.get_of_mem h.ids hmem
      refine ⟨Store.isActive_iff.2 ⟨{ d.control with status := .active }, ?_, rfl⟩,
        fun k w hw ho hid => ?_⟩
      · rw [Store.control_modify (g := fun d => { d with status := .active }) (fun _ => rfl)
          fun _ => rfl, if_pos rfl]
        have : s.store.fresh.control d.id = some d.control := Store.control_of_get hget
        rw [this]
        rfl
      · -- An owned download is active, not queued.
        have hact := h.active k w (Daemon.worker_reap rfl hw) ho
        obtain ⟨d₁, hd₁, hs₁⟩ := Store.isActive_iff.1 (hid ▸ hact)
        rw [Store.control_of_get hget] at hd₁
        cases hd₁
        exact absurd (hq.symm.trans hs₁) (by decide)
    | _ => cases hpc

/-- A download that is active is not picked. -/
theorem picked_of_step (h : Ownership s) (hst : Daemon.Step R s a s')
    (hact : s.store.isActive id = true) (hpc : s'.pc = .picked id) : s.pc = .picked id := by
  cases hst with
  | thread => exact hpc
  | @pick _ d _ hmem hq =>
    cases hpc
    obtain ⟨d₁, hd₁, hs₁⟩ := Store.isActive_iff.1 hact
    rw [Store.control_of_get (Store.get_of_mem h.ids hmem)] at hd₁
    cases hd₁
    exact absurd (hq.symm.trans hs₁) (by decide)
  | _ => cases hpc

/-- Nothing but a cancel changes a download that is done, or canceled. -/
theorem ended (h : Ownership s) (hst : Daemon.Step R s a s') {d : Download}
    (hd : s.store.control id = some d) (hs : d.status = .done ∨ d.status = .canceled) :
    ∃ d', s'.store.control id = some d' ∧ d'.destPath = d.destPath ∧ (d'.status = d.status ∨
      (a = .next ∧ (∃ path, s.pc = .handling (.located id path)) ∧ d'.status = .canceled)) := by
  obtain ⟨d', hd', hmove⟩ := hst.moves h.sound h.ids hd
  have hinactive : ¬s.store.isActive id = true := by
    rw [Store.isActive_iff]
    rintro ⟨d₁, hd₁, hs₁⟩
    rw [hd] at hd₁
    cases hd₁
    rw [hs₁] at hs
    rcases hs with hs | hs <;> cases hs
  refine ⟨d', hd', ?_⟩
  cases hmove with
  | keeps => exact ⟨rfl, .inl rfl⟩
  | raised => exact ⟨rfl, .inl rfl⟩
  | published hw hid hpc =>
    have := h.active _ _ hw (by rw [SchedulerWorker.owns, hpc])
    exact absurd (hid ▸ this) hinactive
  | paused => rcases hs with hs | hs <;> simp [Download.pause, hs]
  | resumed => rcases hs with hs | hs <;> simp [Download.resume, hs]
  | canceled hpc ha =>
    refine ⟨?_, .inr ⟨ha, ⟨_, hpc⟩, ?_⟩⟩ <;>
      rcases hs with hs | hs <;> simp [Download.cancel, hs]
  | picked _ _ hq =>
    rw [hq] at hs
    rcases hs with hs | hs <;> cases hs
  | unpicked hpc => exact absurd (h.picked _ hpc).1 hinactive

end Ownership

theorem Moves.destPath {d d' : Download} (h : Moves s a id d d') : d'.destPath = d.destPath := by
  cases h with
  | paused =>
    rw [Download.pause]
    split <;> rfl
  | resumed =>
    rw [Download.resume]
    split <;> rfl
  | canceled =>
    rw [Download.cancel]
    split <;> rfl
  | _ => rfl

/-! ## Runs -/

/-- The daemon does nothing: no download is active, and no worker in use. -/
structure AtRest (s : Daemon) : Prop where
  ids : (s.store.queue.map (·.id)).Nodup
  inactive : ∀ d ∈ s.store.queue, d.status ≠ .active
  pc : s.pc = .idle
  workers : s.workers = List.replicate schedulerMaxWorkers none
  history : s.history = []

theorem AtRest.worker (h : AtRest s) (k : ℕ) : s.worker k = none := by
  rw [Daemon.worker, h.workers, List.getElem?_replicate]
  split_ifs <;> rfl

theorem AtRest.ownership (h : AtRest s) : Ownership s where
  ids := h.ids
  sound k w pc hw := by
    rw [h.worker] at hw
    cases hw
  active k w hw := by
    rw [h.worker] at hw
    cases hw
  unique k k' w w' hw := by
    rw [h.worker] at hw
    cases hw
  picked id hpc := by
    rw [h.pc] at hpc
    cases hpc
  found id hpc := by
    rw [h.pc] at hpc
    rcases hpc with ⟨_, hpc⟩ | ⟨_, hpc⟩ <;> cases hpc

/-- A daemon with a single download, queued; it may be retried once. -/
def oneDownload : Daemon where
  store :=
    { queue := [{ newDownload 1 "http://h/f".toList "/d/f".toList ⟨[], [], [], [], 0⟩ with
        reservedFile := true }]
      nextId := 2
      files := Function.update (fun _ => none) "/d/f".toList (some .empty)
      db := Db.exec ⟨[], []⟩
        (.insertDownload 1 "http://h/f".toList "/d/f".toList ⟨[], [], [], [], 0⟩ true)
      unlinked := []
      sent := [] }
  workers := List.replicate schedulerMaxWorkers none
  pc := .idle
  cfg := ⟨3, 1, 2, 60⟩
  offers := []
  history := []

theorem atRest_oneDownload : AtRest oneDownload where
  ids := by decide
  inactive := by decide
  pc := rfl
  workers := rfl
  history := rfl

/-- A state satisfying `P` is reached if the run of a list of actions, of the daemon with a
    single download, ends in one. -/
theorem reachable_of_exec (R : CString → ℕ → UInt8) {init : Daemon → Prop}
    (ok : Daemon → Act → Prop) [∀ s a, Decidable (ok s a)] (P : Daemon → Prop)
    (hinit : init oneDownload) (as : List Act)
    (h : ∃ s ∈ Run.exec (Daemon.step R) ok oneDownload as, P s) :
    ∃ s, Run.Reachable (Daemon.step R) init ok s ∧ P s :=
  Run.exists_reachable_of_exec _ _ _ _ hinit as h

/-- A worker is started, and its engine runs. -/
def runActs (as : List EngineAct) : List Act :=
  [.tick 0, .start true] ++ as.map fun a => .thread 0 (.engine a)

/-- A run that fetches the four bytes of the resource, and returns `0`. -/
def successActs : List EngineAct :=
  [.check, .head (some ⟨4, false⟩), .plan ⟨⟨false, false⟩, false, false⟩, .pool (.spawn true),
    .pool (.worker 0 (.answer (.ok 4))), .pool (.worker 0 (.data 4 4)),
    .pool (.worker 0 (.finish true)), .pool (.worker 0 .markDone), .join, .flush, .decide false,
    .finalize true]

/-- A run whose `HEAD` request fails, and that returns `-1`. -/
def failureActs : List EngineAct := [.check, .head none]

/-- The worker reads the flags of its download. -/
def sampleActs : List Act := [.thread 0 .loadCancel, .thread 0 (.loadPause 0)]

end Cdm
