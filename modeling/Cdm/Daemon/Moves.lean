import Cdm.Daemon.Steps

/-!
# What one step does to one download

The *control part* of a download, its status, flags and destination, changes in few
ways: `Moves` lists them, each with who makes the change. Likewise, the stored status of
a download is changed by operations only, and the file at a path by operations and by
the engine that runs on it (`Daemon.Step.status`, `Daemon.Step.files`).
-/

namespace Cdm

variable {R : CString → ℕ → UInt8} {cfg : Config}

/-! ## The engine -/

/-- What a step of the engine on the entry `d`, which becomes `d'`, does to the store. -/
structure EngineMove (s : Store) (d : Download) (s' : Store) (d' : Download) : Prop where
  queue : s'.queue = (s.modify d.id fun _ => d').queue
  nextId : s'.nextId = s.nextId
  frame : d'.frame = d.frame
  files : ∀ p, p ≠ d.destPath → s'.files p = s.files p
  unlinked : ∀ p ∈ s'.unlinked, p = d.destPath
  status : ∀ id, s'.db.status id = s.db.status id
  row : ∀ id, id ≠ d.id → s'.db.row id = s.db.row id
  chunks : ∀ id, id ≠ d.id → s'.db.chunksOf id = s.db.chunksOf id
  rowIds : s'.db.downloads.map (·.id) = s.db.downloads.map (·.id)

theorem Effect.Own.stmt {id : ℕ} {q : DbStmt} (h : (Effect.stmt q).Own id) :
    q.id = id ∧ q.keepsStatus = true := by
  cases q with
  | insertDownload => exact h.elim
  | updateStatus => exact h.elim
  | _ => exact ⟨h, rfl⟩

/-- What the statements of a download keep is kept by the effects of its engine. -/
theorem Disk.applyAll_db {P : Db → Prop} {id : ℕ}
    (hP : ∀ db q, q.id = id → q.keepsStatus = true → P db → P (db.exec q)) {es : List Effect}
    {k : Disk} (hes : ∀ e ∈ es, e.Own id) (h : P k.db) : P (k.applyAll es).db := by
  induction es generalizing k with
  | nil => exact h
  | cons e es ih =>
    refine ih (k := k.apply e) (fun e' he' => hes e' (List.mem_cons_of_mem _ he')) ?_
    have hown := hes e List.mem_cons_self
    cases e with
    | stmt q =>
      obtain ⟨hid, hq⟩ := hown.stmt
      exact hP _ q hid hq h
    | _ => exact h

theorem Store.engineStep_spec {s s' : Store} {d : Download} {pc pc' : Pc} {a : EngineAct}
    (hsound : SoundPc pc) (h : s.engineStep R d pc a = some (s', pc')) :
    ∃ d', EngineMove s d s' d' ∧ SoundPc pc' ∧ (d'.cancelRequested = d.cancelRequested ∨
      (a = .pool (.spawn false) ∧ d'.cancelRequested = true)) := by
  rw [Store.engineStep] at h
  obtain ⟨e, he, hx⟩ := Option.map_eq_some_iff.1 h
  cases hx
  have hst := EngineStep.of_eq he
  obtain ⟨es, hes, -⟩ := hst.emits hsound
  have hdb {P : Db → Prop}
      (hP : ∀ db q, q.id = d.id → q.keepsStatus = true → P db → P (db.exec q)) (h : P s.db) :
      P e.w.disk.db := by
    rw [hes.disk]
    exact Disk.applyAll_db hP hes.own h
  refine ⟨e.w.d, ⟨rfl, rfl, hes.frame, fun p hp => Function.update_of_ne hp _ _, fun p hp => ?_,
    fun id => ?_, fun id hid => ?_, fun id hid => ?_, ?_⟩, hsound.engine hst, hst.cancel hsound⟩
  · simp only at hp
    split_ifs at hp
    · exact List.mem_singleton.1 hp
    · cases hp
  · exact hdb (P := fun db => db.status id = s.db.status id)
      (fun db q _ hq h => (Db.status_exec hq).trans h) rfl
  · exact hdb (P := fun db => db.row id = s.db.row id)
      (fun db q hq _ h => (Db.row_exec_of_ne (hq ▸ hid)).trans h) rfl
  · exact hdb (P := fun db => db.chunksOf id = s.db.chunksOf id)
      (fun db q hq _ h => (Db.chunksOf_exec_of_ne (hq ▸ hid)).trans h) rfl
  · refine hdb (P := fun db => db.downloads.map (·.id) = s.db.downloads.map (·.id))
      (fun db q _ hq h => (Db.ids_exec ?_).trans h) rfl
    rintro id url destPath opts reserved rfl
    cases hq

namespace EngineMove

variable {s s' : Store} {d d' : Download} {id : ℕ}

theorem get (h : EngineMove s d s' d') :
    s'.get id = if id = d.id then (s.get id).map fun _ => d' else s.get id := by
  have hid : d'.id = d.id := (Download.frame_eq h.frame).1
  rw [Store.get, h.queue]
  exact Store.get_modify fun _ _ => hid

theorem get_of_ne (h : EngineMove s d s' d') (hid : id ≠ d.id) : s'.get id = s.get id := by
  rw [h.get, if_neg hid]

theorem get_self (h : EngineMove s d s' d') (hd : s.get d.id = some d) : s'.get d.id = some d' := by
  rw [h.get, if_pos rfl, hd]
  rfl

theorem ids (h : EngineMove s d s' d') : s'.queue.map (·.id) = s.queue.map (·.id) := by
  have hid : d'.id = d.id := (Download.frame_eq h.frame).1
  rw [h.queue]
  exact Store.ids_modify fun _ _ => hid

end EngineMove

/-! ## The control part -/

/-- A download without what a transfer or a retry changes. -/
def Download.control (d : Download) : Download :=
  { d with
    chunks := [], totalSize := 0, bytesDownloaded := 0, chunkLiveBytes := fun _ => 0
    reservedFile := false, retryCount := 0, nextRetryAt := 0 }

/-- The control part of the entry with an identifier. -/
def Store.control (s : Store) (id : ℕ) : Option Download := (s.get id).map Download.control

namespace Store

variable {s : Store} {id id' : ℕ} {f g : Download → Download} {op : Op}

/-- A change of an entry that amounts to `g` on the control part. -/
theorem control_modify (hf : ∀ d, (f d).control = g d.control) (hg : ∀ d, (g d).id = d.id) :
    (s.modify id f).control id' =
      if id' = id then (s.control id').map g else s.control id' := by
  have hid (d : Download) : (f d).id = d.id :=
    (congrArg Download.id (hf d)).trans (hg d.control)
  rw [control, get_modify fun d hd => (hid d).trans hd]
  split_ifs
  · simp only [control, Option.map_map]
    congr 1
    funext d
    exact hf d
  · rfl

theorem control_exec : (op.exec id s).control id' = s.control id' := by
  have hkeep {f : Download → Download} (hf : ∀ d, (f d).control = d.control) :
      (s.modify id f).control id' = s.control id' := by
    rw [control_modify (g := fun d => d) hf fun _ => rfl]
    split_ifs <;> simp
  cases op with
  | finished => exact hkeep fun _ => rfl
  | setRetry => exact hkeep fun _ => rfl
  | clearResumeState => exact hkeep fun _ => rfl
  | _ => rfl

/-- An operation adds or removes no entry. -/
theorem ids_exec : (op.exec id s).queue.map (·.id) = s.queue.map (·.id) := by
  cases op with
  | finished => exact ids_modify fun _ h => h
  | setRetry => exact ids_modify fun _ h => h
  | clearResumeState => exact ids_modify fun _ h => h
  | _ => rfl

theorem control_eq_some {d : Download} (h : s.control id = some d) :
    ∃ d₀, s.get id = some d₀ ∧ d₀.control = d := Option.map_eq_some_iff.1 h

theorem control_of_get {d : Download} (h : s.get id = some d) : s.control id = some d.control := by
  rw [control, h]
  rfl

theorem getStatus_eq : queueManagerGetStatus s id = (s.control id).map (·.status) := by
  rw [queueManagerGetStatus, control, Option.map_map]
  rfl

theorem isActive_iff : s.isActive id = true ↔ ∃ d, s.control id = some d ∧ d.status = .active := by
  rw [isActive, getStatus_eq, decide_eq_true_eq, Option.map_eq_some_iff]

end Store

theorem Download.control_cancel (d : Download) : d.cancel.control = d.control.cancel := by
  cases d with
  | mk _ _ _ _ status => cases status <;> rfl

theorem Download.control_pause (d : Download) : d.pause.control = d.control.pause := by
  cases d with
  | mk _ _ _ _ status => cases status <;> rfl

theorem Download.control_resume (d : Download) : d.resume.control = d.control.resume := by
  cases d with
  | mk _ _ _ _ status => cases status <;> rfl

/-- A cancel takes effect at once on a download that is not active. -/
theorem Store.control_cancel {s : Store} {id : ℕ} {d : Download} (hd : s.control id = some d)
    (hact : ¬s.isActive id = true) :
    (s.modify id Download.cancel).control id = some { d with status := .canceled } := by
  rw [control_modify Download.control_cancel Download.cancel_id, if_pos rfl, hd, Option.map_some,
    Download.cancel]
  split
  · exact absurd (isActive_iff.2 ⟨d, hd, ‹_›⟩) hact
  · rfl

/-- Every engine that runs is in a sound state. -/
def Daemon.Sound (s : Daemon) : Prop :=
  ∀ k w pc, s.worker k = some w → w.pc = .engine pc → SoundPc pc

/-- How a step from `s` changes the control part of the download `id`. -/
inductive Moves (s : Daemon) (a : Act) (id : ℕ) (d : Download) : Download → Prop
  | keeps : Moves s a id d d
  /-- The pool of its engine could not create a thread. -/
  | raised {k : ℕ} {w : SchedulerWorker} (hw : s.worker k = some w) (hid : w.downloadId = id)
      (ha : a = .thread k (.engine (.pool (.spawn false)))) :
      Moves s a id d { d with cancelRequested := true }
  /-- Its worker publishes how the run ended. -/
  | published {k : ℕ} {w : SchedulerWorker} {status : DownloadStatus} {after : List Op}
      (hw : s.worker k = some w) (hid : w.downloadId = id)
      (hpc : w.pc = .settling ⟨[], status, after⟩) (ha : a = .thread k .next) :
      Moves s a id d { d with status := status }
  | paused (hpc : s.pc = .handling (.checked .pause id) ∨ ∃ ids, s.pc = .stopping (id :: ids))
      (ha : a = .next) : Moves s a id d d.pause
  | resumed (hpc : s.pc = .handling (.checked .resume id)) (ha : a = .next) :
      Moves s a id d d.resume
  | canceled {path : CString} (hpc : s.pc = .handling (.located id path)) (ha : a = .next) :
      Moves s a id d d.cancel
  | picked {now : ℕ} (hpc : s.pc = .idle) (ha : a = .tick now) (hq : d.status = .queued)
      (hpick : (schedulerPick s.cfg s.store.fresh now).2 = some id) :
      Moves s a id d { d with status := .active }
  | unpicked {created : Bool} (hpc : s.pc = .picked id) (ha : a = .start created) :
      Moves s a id d { d with status := .queued }

namespace Daemon.Step

variable {s s' : Daemon} {a : Act} {id : ℕ} {d : Download}

/-- A change of the entry `id'`, seen at `id`. -/
theorem moves_modify {st : Store} {id' : ℕ} {f g : Download → Download}
    (hd : st.control id = some d) (hf : ∀ d, (f d).control = g d.control)
    (hg : ∀ d, (g d).id = d.id) (hmove : id = id' → Moves s a id d (g d)) :
    ∃ d', (st.modify id' f).control id = some d' ∧ Moves s a id d d' := by
  rw [Store.control_modify hf hg, hd]
  split_ifs with h
  · exact ⟨_, rfl, hmove h⟩
  · exact ⟨_, rfl, .keeps⟩

theorem moves (hst : Daemon.Step R s a s') (hsound : s.Sound)
    (hids : (s.store.queue.map (·.id)).Nodup) (hd : s.store.control id = some d) :
    ∃ d', s'.store.control id = some d' ∧ Moves s a id d d' := by
  have hd' : s.store.fresh.control id = some d := hd
  cases hst with
  | @thread k w d₀ a st pc hw hd₀ h =>
    have hid₀ := Store.get_id hd₀
    generalize hpc : w.pc = pc₀ at h
    cases h with
    | engine h =>
      obtain ⟨d₁, hmove, -, hcancel⟩ := Store.engineStep_spec (hsound k w _ hw hpc) h
      -- The engine changes its own download, and of that at most the flag of the cancel.
      by_cases hid : id = d₀.id
      · subst hid
        rw [hid₀] at hd
        have hget : s.store.fresh.get d₀.id = some d₀ := hid₀ ▸ hd₀
        have hcontrol := Store.control_of_get (hmove.get_self hget)
        have hd₁ : d = d₀.control := by
          rw [Store.control_of_get hd₀] at hd
          exact (Option.some.inj hd).symm
        obtain ⟨_, _, _, _, _, _, _, _, _, _⟩ := Download.frame_eq hmove.frame
        rcases hcancel with hcancel | ⟨rfl, hcancel⟩
        · refine ⟨_, hcontrol, ?_⟩
          have : d₁.control = d := by
            rw [hd₁]
            simp only [Download.control, *]
          rw [this]
          exact .keeps
        · refine ⟨_, hcontrol, ?_⟩
          have : d₁.control = { d with cancelRequested := true } := by
            rw [hd₁]
            simp only [Download.control, *]
          rw [this]
          exact .raised hw hid₀.symm rfl
      · refine ⟨d, ?_, .keeps⟩
        rw [Store.control, hmove.get_of_ne hid]
        exact hd
    | loadCancel => exact ⟨d, hd, .keeps⟩
    | loadPause => exact ⟨d, hd, .keeps⟩
    | settle => exact ⟨d, Store.control_exec.trans hd', .keeps⟩
    | publish =>
      refine moves_modify hd' (g := fun d => { d with status := _ }) (fun _ => rfl) (fun _ => rfl)
        fun hid => ?_
      exact .published hw (hid₀.symm.trans hid.symm) hpc rfl
    | leave => exact ⟨d, Store.control_exec.trans hd', .keeps⟩
    | ended => exact ⟨d, hd, .keeps⟩
  | pick hpc hmem hq hpick =>
    refine moves_modify hd' (g := fun d => { d with status := .active }) (fun _ => rfl)
      (fun _ => rfl) fun hid => ?_
    have hd₀ := Store.control_of_get (Store.get_of_mem hids hmem)
    rw [← hid, hd] at hd₀
    cases hd₀
    exact .picked hpc rfl hq (hid ▸ hpick)
  | startFails hpc =>
    exact moves_modify hd' (g := fun d => { d with status := .queued }) (fun _ => rfl)
      (fun _ => rfl) fun hid => .unpicked (hid ▸ hpc) rfl
  | finish => exact ⟨d, Store.control_exec.trans hd', .keeps⟩
  | pause hpc =>
    exact moves_modify hd' Download.control_pause Download.pause_id
      fun hid => .paused (.inl (hid ▸ hpc)) rfl
  | resume hpc =>
    exact moves_modify hd' Download.control_resume Download.resume_id
      fun hid => .resumed (hid ▸ hpc) rfl
  | cancel hpc =>
    exact moves_modify hd' Download.control_cancel Download.cancel_id
      fun hid => .canceled (hid ▸ hpc) rfl
  | stop hpc =>
    exact moves_modify hd' Download.control_pause Download.pause_id
      fun hid => .paused (.inr ⟨_, hid ▸ hpc⟩) rfl
  | _ => exact ⟨d, hd, .keeps⟩

/-- The identifiers of the queue stay the same. -/
theorem ids (hst : Daemon.Step R s a s') (hsound : s.Sound) :
    s'.store.queue.map (·.id) = s.store.queue.map (·.id) := by
  cases hst with
  | @thread k w d₀ a st pc hw hd₀ h =>
    generalize hpc : w.pc = pc₀ at h
    cases h with
    | engine h =>
      obtain ⟨_, hmove, -⟩ := Store.engineStep_spec (hsound k w _ hw hpc) h
      exact hmove.ids
    | settle => exact Store.ids_exec
    | publish => exact Store.ids_modify fun _ h => h
    | leave => exact Store.ids_exec
    | _ => rfl
  | pick => exact Store.ids_modify fun _ h => h
  | startFails => exact Store.ids_modify fun _ h => h
  | finish => exact Store.ids_exec
  | pause => exact Store.ids_modify fun d h => (Download.pause_id d).trans h
  | resume => exact Store.ids_modify fun d h => (Download.resume_id d).trans h
  | cancel => exact Store.ids_modify fun d h => (Download.cancel_id d).trans h
  | stop => exact Store.ids_modify fun d h => (Download.pause_id d).trans h
  | _ => rfl

/-- A download there is after a step was there before. -/
theorem exists_moves {d' : Download} (hst : Daemon.Step R s a s') (hsound : s.Sound)
    (hids : (s.store.queue.map (·.id)).Nodup) (hd' : s'.store.control id = some d') :
    ∃ d, s.store.control id = some d ∧ Moves s a id d d' := by
  have hsome : (s.store.get id).isSome := by
    obtain ⟨d₀, hd₀, -⟩ := Store.control_eq_some hd'
    rw [Store.get_isSome, ← hst.ids hsound, ← Store.get_isSome, hd₀]
    rfl
  obtain ⟨d₀, hd₀⟩ := Option.isSome_iff_exists.1 hsome
  obtain ⟨d₁, hd₁, hmove⟩ := hst.moves hsound hids (Store.control_of_get hd₀)
  rw [hd'] at hd₁
  cases hd₁
  exact ⟨_, Store.control_of_get hd₀, hmove⟩

end Daemon.Step

/-! ## The stored status, and the files -/

/-- The operation `op` on the download `id` is the next one of its worker, or of the handler
    of a request. -/
inductive Performs (s : Daemon) (id : ℕ) (op : Op) : Act → Prop
  | settle {k : ℕ} {w : SchedulerWorker} {ops after : List Op} {status : DownloadStatus}
      (hw : s.worker k = some w) (hid : w.downloadId = id)
      (hpc : w.pc = .settling ⟨op :: ops, status, after⟩) : Performs s id op (.thread k .next)
  | leave {k : ℕ} {w : SchedulerWorker} {ops : List Op} (hw : s.worker k = some w)
      (hid : w.downloadId = id) (hpc : w.pc = .leaving (op :: ops)) :
      Performs s id op (.thread k .next)
  | finish {c : Command} {ops : List Op} {answer : IpcResult}
      (hpc : s.pc = .handling (.finishing c id (op :: ops) answer)) : Performs s id op .next

namespace Daemon.Step

variable {s s' : Daemon} {a : Act} {id : ℕ}

/-- The stored status of a download is written by an operation only. -/
theorem status (hst : Daemon.Step R s a s') (hsound : s.Sound) (id : ℕ) :
    s'.store.db.status id = s.store.db.status id ∨
      ∃ name, Performs s id (.dbUpdateStatus name) a ∧
        s'.store.db = s.store.db.exec (.updateStatus id name) := by
  have hexec {op : Op} {id' : ℕ} (hperf : Performs s id' op a) :
      (op.exec id' s.store.fresh).db.status id = s.store.db.status id ∨
        ∃ name, Performs s id (.dbUpdateStatus name) a ∧
          (op.exec id' s.store.fresh).db = s.store.db.exec (.updateStatus id name) := by
    cases op with
    | updateTotalSize => exact .inl (Db.status_exec rfl)
    | dbUpdateStatus name =>
      by_cases hid : id = id'
      · exact .inr ⟨name, hid ▸ hperf, by rw [hid]; rfl⟩
      · exact .inl (congrArg _ (Db.row_exec_of_ne hid))
    | _ => exact .inl rfl
  cases hst with
  | @thread k w d₀ a st pc hw hd₀ h =>
    have hid₀ := (Store.get_id hd₀).symm
    generalize hpc : w.pc = pc₀ at h
    cases h with
    | engine h =>
      obtain ⟨_, hmove, -⟩ := Store.engineStep_spec (hsound k w _ hw hpc) h
      exact .inl (hmove.status id)
    | settle => exact hexec (.settle hw hid₀ hpc)
    | leave => exact hexec (.leave hw hid₀ hpc)
    | _ => exact .inl rfl
  | reportRow => exact .inl (Db.status_exec rfl)
  | finish hpc => exact hexec (.finish hpc)
  | _ => exact .inl rfl

/-- The file at a path is changed by the engine that runs on it, and by operations that
    unlink it, only. -/
theorem files {p : CString} (hst : Daemon.Step R s a s') (hsound : s.Sound) :
    (s'.store.files p = s.store.files p ∧ p ∉ s'.store.unlinked) ∨
      (∃ k w pc d, s.worker k = some w ∧ w.pc = .engine pc ∧
        s.store.get w.downloadId = some d ∧ d.destPath = p) ∨
      ∃ id, Performs s id (.unlink p) a := by
  have hfresh : p ∉ s.store.fresh.unlinked := List.not_mem_nil
  have hexec {op : Op} {id' : ℕ} (hperf : Performs s id' op a) :
      ((op.exec id' s.store.fresh).files p = s.store.files p ∧
        p ∉ (op.exec id' s.store.fresh).unlinked) ∨
        (∃ k w pc d, s.worker k = some w ∧ w.pc = .engine pc ∧
          s.store.get w.downloadId = some d ∧ d.destPath = p) ∨
        ∃ id, Performs s id (.unlink p) a := by
    cases op with
    | unlink path =>
      by_cases hp : p = path
      · exact .inr (.inr ⟨id', hp ▸ hperf⟩)
      · refine .inl ⟨Function.update_of_ne hp _ _, fun hmem => hp ?_⟩
        exact List.mem_singleton.1 hmem
    | _ => exact .inl ⟨rfl, hfresh⟩
  cases hst with
  | @thread k w d₀ a st pc hw hd₀ h =>
    have hid₀ := (Store.get_id hd₀).symm
    generalize hpc : w.pc = pc₀ at h
    cases h with
    | engine h =>
      obtain ⟨_, hmove, -⟩ := Store.engineStep_spec (hsound k w _ hw hpc) h
      by_cases hp : p = d₀.destPath
      · exact .inr (.inl ⟨k, w, _, d₀, hw, hpc, hd₀, hp.symm⟩)
      · exact .inl ⟨hmove.files p hp, fun hmem => hp (hmove.unlinked p hmem)⟩
    | settle => exact hexec (.settle hw hid₀ hpc)
    | leave => exact hexec (.leave hw hid₀ hpc)
    | _ => exact .inl ⟨rfl, hfresh⟩
  | finish hpc => exact hexec (.finish hpc)
  | _ => exact .inl ⟨rfl, hfresh⟩

end Daemon.Step

end Cdm
