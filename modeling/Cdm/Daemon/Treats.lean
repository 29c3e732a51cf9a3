import Cdm.Daemon.Tasks

/-!
# What a task makes of a download

A task works on one download, or on the chunk rows of those that are active. Whatever it
is, a download that is not canceled is worked on, or discarded as a whole, or nothing
happens to it (`Treats`); one that is canceled is kept, or discarded again.
-/

namespace Cdm

variable {R : CString → ℕ → UInt8}

/-- Nothing is left of the transfers of a download. -/
structure Download.Clean (d : Download) : Prop where
  chunks : d.chunks = []
  totalSize : d.totalSize = 0
  bytesDownloaded : d.bytesDownloaded = 0
  chunkLiveBytes : ∀ i, d.chunkLiveBytes i = 0
  retryCount : d.retryCount = 0
  nextRetryAt : d.nextRetryAt = 0

theorem Download.clean_clearResumeState (d : Download) : d.clearResumeState.Clean :=
  ⟨rfl, rfl, rfl, fun _ => rfl, rfl, rfl⟩

/-! ## What is not touched -/

/-- The two stores have the same entry and the same rows for a download. -/
structure SameAt (s t : Store) (id : ℕ) : Prop where
  get : t.get id = s.get id
  row : t.db.row id = s.db.row id
  chunks : t.db.chunksOf id = s.db.chunksOf id

namespace SameAt

variable {s t u : Store} {id id' : ℕ}

theorem refl : SameAt s s id := ⟨rfl, rfl, rfl⟩

theorem trans (h : SameAt s t id) (h' : SameAt t u id) : SameAt s u id :=
  ⟨h'.get.trans h.get, h'.row.trans h.row, h'.chunks.trans h.chunks⟩

theorem modify {f : Download → Download} (hf : ∀ d, d.id = id' → (f d).id = id') (h : id ≠ id') :
    SameAt s (s.modify id' f) id := ⟨Store.get_modify_of_ne hf h, rfl, rfl⟩

/-- A change that changes nothing of the entry. -/
theorem modify_self {f : Download → Download} (hf : ∀ d, d.id = id → (f d).id = id)
    (h : ∀ d, s.get id = some d → f d = d) : SameAt s (s.modify id f) id := by
  refine ⟨?_, rfl, rfl⟩
  rw [Store.get_modify_self hf]
  cases hd : s.get id with
  | none => rfl
  | some d => rw [Option.map_some, h d hd]

theorem query {q : DbStmt} (h : id ≠ q.id) : SameAt s (s.query q) id :=
  ⟨rfl, Db.row_exec_of_ne h, Db.chunksOf_exec_of_ne h⟩

theorem exec {op : Op} (h : id ≠ id') : SameAt s (op.exec id' s) id := by
  cases op with
  | finished => exact modify (fun _ h => h) h
  | setRetry => exact modify (fun _ h => h) h
  | clearResumeState => exact modify (fun _ h => h) h
  | deleteChunks => exact query h
  | updateTotalSize => exact query h
  | unlink => exact ⟨rfl, rfl, rfl⟩
  | dbUpdateStatus => exact query h
  | broadcast => exact ⟨rfl, rfl, rfl⟩

theorem foldl {ops : List Op} (h : id ≠ id') : SameAt s (ops.foldl (Op.exec id') s) id := by
  induction ops generalizing s with
  | nil => exact refl
  | cons op ops ih => exact (exec h).trans ih

theorem settleOutcome {o : Outcome} (h : id ≠ id') : SameAt s (settleOutcome s id' o) id := by
  have hpublish (t : Store) : SameAt t (queueManagerUpdateStatus t id' o.status) id :=
    modify (fun _ h => h) h
  exact ((foldl h).trans (hpublish _)).trans (foldl h)

theorem handleCommand {c : Command} (h : id ≠ id') : SameAt s (handleCommand s c id').1 id := by
  rw [handleCommand_of_check]
  rcases commandCheck_cases s c id' with ⟨hcheck, -⟩ | ⟨answer, hcheck, -⟩
  · rw [hcheck]
    cases c with
    | pause =>
      have hmod : SameAt s (s.modify id' Download.pause) id :=
        modify (fun d hd => (Download.pause_id d).trans hd) h
      simp only
      split_ifs
      · exact hmod
      · exact hmod.trans (query h)
    | resume =>
      have hmod : SameAt s (s.modify id' Download.resume) id :=
        modify (fun d hd => (Download.resume_id d).trans hd) h
      simp only
      split_ifs
      · exact hmod.trans (query h)
      · exact hmod
    | cancel =>
      have hmod : SameAt s (s.modify id' Download.cancel) id :=
        modify (fun d hd => (Download.cancel_id d).trans hd) h
      simp only
      split_ifs
      · exact hmod
      · exact hmod.trans (foldl h)
  · rw [hcheck]
    exact refl

/-- A report does not touch what it does not report on. -/
theorem reportProgress {rs : List ChunkProgressSnapshot} (h : ∀ r ∈ rs, r.downloadId ≠ id) :
    SameAt s (reportProgress s rs) id := by
  induction rs generalizing s with
  | nil => exact refl
  | cons r rs ih =>
    have hr : SameAt s (s.query (.updateChunkProgress r.downloadId r.rangeStart r.bytesDone)) id :=
      query (h r List.mem_cons_self).symm
    exact hr.trans (ih fun r' hr' => h r' (List.mem_cons_of_mem _ hr'))

end SameAt

/-! ## What is touched -/

/-- Operations do not change the control part of a download. -/
theorem Store.control_foldl {s : Store} {id id' : ℕ} {ops : List Op} :
    (ops.foldl (Op.exec id) s).control id' = s.control id' := by
  induction ops generalizing s with
  | nil => rfl
  | cons op ops ih => exact ih.trans control_exec

/-- The row of a download stays there, and is not made that of a canceled download. -/
structure NotDiscarded (s t : Store) (id : ℕ) : Prop where
  row : (s.db.row id).isSome → (t.db.row id).isSome
  status : t.db.status id = s.db.status id ∨ t.db.status id ≠ some "CANCELED"

namespace NotDiscarded

variable {s t u : Store} {id : ℕ}

theorem of_eq (h : t.db = s.db) : NotDiscarded s t id := by
  refine ⟨fun hr => ?_, .inl ?_⟩
  · rwa [h]
  · rw [h]

theorem trans (h : NotDiscarded s t id) (h' : NotDiscarded t u id) : NotDiscarded s u id := by
  refine ⟨fun hr => h'.row (h.row hr), ?_⟩
  rcases h'.status with heq | hne
  · rw [heq]
    exact h.status
  · exact .inr hne

theorem query {q : DbStmt} (hq : q.keepsStatus = true) : NotDiscarded s (s.query q) id :=
  ⟨Db.row_exec_isSome q, .inl (Db.status_exec hq)⟩

theorem updateStatus {name : String} (hdb : t.db = s.db.exec (.updateStatus id name))
    (hname : name ≠ "CANCELED") : NotDiscarded s t id := by
  refine ⟨fun hr => ?_, .inr fun h => ?_⟩
  · rw [hdb]
    exact Db.row_exec_isSome _ hr
  · rw [hdb] at h
    exact hname (Db.eq_of_updateStatus h).symm

theorem exec {op : Op} (h : op ≠ .dbUpdateStatus "CANCELED") :
    NotDiscarded s (op.exec id s) id := by
  cases op with
  | finished => exact of_eq rfl
  | setRetry => exact of_eq rfl
  | clearResumeState => exact of_eq rfl
  | deleteChunks => exact query rfl
  | updateTotalSize => exact query rfl
  | unlink => exact of_eq rfl
  | dbUpdateStatus name => exact updateStatus rfl fun hname => h (hname ▸ rfl)
  | broadcast => exact of_eq rfl

theorem foldl {ops : List Op} (h : .dbUpdateStatus "CANCELED" ∉ ops) :
    NotDiscarded s (ops.foldl (Op.exec id) s) id := by
  induction ops generalizing s with
  | nil => exact of_eq rfl
  | cons op ops ih =>
    rw [List.mem_cons, not_or] at h
    exact (exec (Ne.symm h.1)).trans (ih h.2)

theorem reportProgress {rs : List ChunkProgressSnapshot} :
    NotDiscarded s (reportProgress s rs) id := by
  induction rs generalizing s with
  | nil => exact of_eq rfl
  | cons r rs ih => exact (query rfl).trans ih

end NotDiscarded

/-- What a task makes of a download. -/
inductive Treats (s t : Store) (id : ℕ) : Prop
  | kept (h : SameAt s t id)
  | worked {d d' : Download} (hd : s.get id = some d) (hd' : t.get id = some d')
      (hpath : d'.destPath = d.destPath) (hs : d.status ≠ .canceled) (hs' : d'.status ≠ .canceled)
      (hrow : NotDiscarded s t id)
  | discarded {d d' : Download} (hd : s.get id = some d) (hd' : t.get id = some d')
      (hpath : d'.destPath = d.destPath) (hs' : d'.status = .canceled) (hclean : d'.Clean)
      (hrow : ∀ r, s.db.row id = some r →
        t.db.row id = some { r with totalSize := 0, status := "CANCELED" })
      (hchunks : t.db.chunksOf id = [])

/-- What the operations of a cancel do. -/
theorem discardOps_foldl (s : Store) (id : ℕ) (path : CString) :
    ∃ files unlinked, (discardOps path).foldl (Op.exec id) s =
      { s.modify id Download.clearResumeState with
        db := ((s.db.exec (.deleteChunks id)).exec (.updateTotalSize id 0)).exec
          (.updateStatus id "CANCELED")
        files := files
        unlinked := unlinked } := by
  rw [discardOps]
  split_ifs
  · exact ⟨_, _, rfl⟩
  · exact ⟨_, _, rfl⟩

/-- Operations unlink what they say. -/
theorem unlinked_foldl {s : Store} {id : ℕ} {ops : List Op} {p : CString}
    (h : p ∈ (ops.foldl (Op.exec id) s).unlinked) : p ∈ s.unlinked ∨ .unlink p ∈ ops := by
  induction ops generalizing s with
  | nil => exact .inl h
  | cons op ops ih =>
    rcases ih h with h | h
    · cases op with
      | unlink path =>
        rcases List.mem_append.1 h with h | h
        · exact .inl h
        · rw [List.mem_singleton.1 h]
          exact .inr List.mem_cons_self
      | _ => exact .inl h
    · exact .inr (List.mem_cons_of_mem _ h)

/-- The rows of a download after a cancel. -/
theorem Db.row_discarded {db : Db} {id : ℕ} {r : DownloadRow} (hr : db.row id = some r) :
    (((db.exec (.deleteChunks id)).exec (.updateTotalSize id 0)).exec
      (.updateStatus id "CANCELED")).row id =
      some { r with totalSize := 0, status := "CANCELED" } := by
  have hr' : (db.exec (.deleteChunks id)).row id = some r := hr
  rw [Db.exec, Db.row_updateRow, if_pos rfl, Db.exec, Db.row_updateRow, if_pos rfl, hr']
  · rfl
  · exact fun _ => rfl
  · exact fun _ => rfl

namespace Treats

variable {s t : Store} {id : ℕ} {d d' : Download}

/-- A change of an entry, and nothing else but harmless statements. -/
theorem of_modify {f : Download → Download} (hf : ∀ d, d.id = id → (f d).id = id)
    (hd : s.get id = some d) (hpath : (f d).destPath = d.destPath) (hs : d.status ≠ .canceled)
    (hs' : (f d).status ≠ .canceled) (hqueue : t.queue = (s.modify id f).queue)
    (hrow : NotDiscarded s t id) : Treats s t id := by
  refine .worked hd ?_ hpath hs hs' hrow
  rw [Store.get, hqueue]
  exact Store.get_modify_of_get hf hd

/-- The entry is discarded, with its rows. -/
theorem of_discarded (hd : s.get id = some d) (hd' : t.get id = some d')
    (hpath : d'.destPath = d.destPath) (hs' : d'.status = .canceled) (hclean : d'.Clean)
    (hdb : t.db = ((s.db.exec (.deleteChunks id)).exec (.updateTotalSize id 0)).exec
      (.updateStatus id "CANCELED")) : Treats s t id := by
  refine .discarded hd hd' hpath hs' hclean (fun r hr => ?_) ?_
  · rw [hdb]
    exact Db.row_discarded hr
  · rw [hdb]
    exact Db.chunksOf_deleteChunks

/-- The handler of a command leaves its download as `Treats` says. -/
theorem handleCommand {c : Command} : Treats s (handleCommand s c id).1 id := by
  rw [handleCommand_of_check]
  rcases commandCheck_cases s c id with ⟨hcheck, hsome⟩ | ⟨answer, hcheck, -⟩
  · obtain ⟨d, hd⟩ := Option.isSome_iff_exists.1 hsome
    have hstatus : queueManagerGetStatus s id = some d.status := by
      rw [queueManagerGetStatus, hd]
      rfl
    have hactive : s.isActive id = decide (d.status = .active) := by
      rw [Store.isActive, hstatus]
      simp
    rw [hcheck]
    cases c with
    | pause =>
      have hpause : d.status = .active ∨ d.status = .queued := by
        unfold commandCheck at hcheck
        rw [hstatus] at hcheck
        cases hs : d.status <;> rw [hs] at hcheck <;> simp_all
      have hkeep {t : Store} (hrow : NotDiscarded s t id)
          (hqueue : t.queue = (s.modify id Download.pause).queue) : Treats s t id := by
        refine of_modify (fun d h => (Download.pause_id d).trans h) hd ?_ ?_ ?_ hqueue hrow <;>
          rcases hpause with hs | hs <;> simp [Download.pause, hs]
      simp only
      split_ifs
      · exact hkeep (.of_eq rfl) rfl
      · exact hkeep (.updateStatus rfl (by decide)) rfl
    | resume =>
      have hresumed : (queueManagerResume s id).2 = true ↔ d.status = .paused ∨ d.status = .error := by
        rw [queueManagerResume, hstatus]
        simp
      simp only
      split_ifs with hres
      · refine of_modify (fun d h => (Download.resume_id d).trans h) hd ?_ ?_ ?_ rfl
          (.updateStatus rfl (by decide)) <;>
          rcases hresumed.1 hres with hs | hs <;> simp [Download.resume, hs]
      · refine .kept (.modify_self (fun d h => (Download.resume_id d).trans h) fun d' hd' => ?_)
        rw [hd] at hd'
        cases hd'
        rw [hresumed, not_or] at hres
        rw [Download.resume]
        split
        · exact absurd ‹_› hres.1
        · exact absurd ‹_› hres.2
        · rfl
    | cancel =>
      have hf (d : Download) (h : d.id = id) : d.cancel.id = id := (Download.cancel_id d).trans h
      simp only
      split_ifs with hact
      · rw [hactive, decide_eq_true_eq] at hact
        refine of_modify hf hd ?_ ?_ ?_ rfl (.of_eq rfl) <;> simp [Download.cancel, hact]
      · rw [hactive, decide_eq_true_eq] at hact
        have hcancel : d.cancel = { d with status := .canceled } := by
          rw [Download.cancel]
          split
          · exact absurd ‹_› hact
          · rfl
        obtain ⟨files, unlinked, heq⟩ := discardOps_foldl (s.modify id Download.cancel) id
          (((s.get id).map (·.destPath)).getD [])
        have hget := Store.get_modify_of_get (f := Download.clearResumeState) (fun _ h => h)
          (Store.get_modify_of_get hf hd)
        rw [heq]
        refine of_discarded hd hget ?_ ?_ (Download.clean_clearResumeState _) rfl <;>
          rw [hcancel] <;> rfl
  · rw [hcheck]
    exact .kept .refl

/-- The result of a run is settled. -/
theorem settleOutcome {cfg : Config} {now : ℕ} {rc : ℤ} {canceled paused : Bool}
    (hd : s.get id = some d) (hs : d.status = .active) :
    Treats s (settleOutcome s id (outcome cfg d now rc canceled paused)) id := by
  have hlive {o : Outcome} (hbefore : .dbUpdateStatus "CANCELED" ∉ o.before)
      (hafter : .dbUpdateStatus "CANCELED" ∉ o.after) (hstatus : o.status ≠ .canceled) :
      Treats s (Cdm.settleOutcome s id o) id := by
    -- The operations do not change the control part, but for the status published.
    have hcontrol : (Cdm.settleOutcome s id o).control id =
        some { d.control with status := o.status } := by
      rw [Cdm.settleOutcome, Store.control_foldl, queueManagerUpdateStatus,
        Store.control_modify (g := fun d => { d with status := o.status }) (fun _ => rfl)
          fun _ => rfl, if_pos rfl, Store.control_foldl, Store.control_of_get hd]
      rfl
    obtain ⟨d', hd', hc⟩ := Store.control_eq_some hcontrol
    have hrow : NotDiscarded s (Cdm.settleOutcome s id o) id := by
      have hpublish (t : Store) : NotDiscarded t (queueManagerUpdateStatus t id o.status) id :=
        .of_eq rfl
      exact ((NotDiscarded.foldl hbefore).trans (hpublish _)).trans (.foldl hafter)
    have hpath : d'.destPath = d.destPath := (Download.mk.inj hc).2.2.1
    have hs' : d'.status = o.status := (Download.mk.inj hc).2.2.2.2.1
    refine .worked hd hd' hpath ?_ (hs' ▸ hstatus) hrow
    rw [hs]
    decide
  rcases outcome_cases cfg d now rc canceled paused with
    ⟨-, ho⟩ | ⟨-, -, ho⟩ | ⟨-, -, ho | ⟨text, ho⟩ | ho⟩ <;> rw [ho]
  · exact hlive (by decide) (by decide) (by decide)
  · obtain ⟨files, unlinked, heq⟩ := discardOps_foldl s id d.destPath
    have hget := Store.get_modify_of_get (f := fun d => { d with status := .canceled })
      (fun _ h => h) (Store.get_modify_of_get (f := Download.clearResumeState) (fun _ h => h) hd)
    rw [Cdm.settleOutcome, canceledOutcome, heq]
    exact of_discarded hd hget rfl rfl ⟨rfl, rfl, rfl, fun _ => rfl, rfl, rfl⟩ rfl
  · exact hlive (by decide) (by decide) (by decide)
  · exact hlive (by simp [errorOutcome]) (by simp [errorOutcome]) (by simp [errorOutcome])
  · exact hlive (by simp [retryOutcome]) (by simp [retryOutcome]) (by simp [retryOutcome])

/-- A download is made active, and its worker started, or not. -/
theorem pick {id' : ℕ} (hd : s.get id' = some d) (hq : d.status = .queued)
    (ws : List (Option SchedulerWorker)) (created : Bool) (id : ℕ) :
    Treats s (schedulerStart (s.modify id' fun d => { d with status := .active, nextRetryAt := 0 })
      ws id' created).1 id := by
  have hpick := Store.get_modify_of_get (f := fun d => { d with status := .active, nextRetryAt := 0 })
    (fun _ h => h) hd
  have hne : d.status ≠ .canceled := by
    rw [hq]
    decide
  by_cases hid : id = id'
  · subst hid
    unfold schedulerStart
    split
    · exact .worked hd hpick rfl hne (by simp) (.of_eq rfl)
    · have hstart := Store.get_modify_of_get (f := fun d => { d with status := .queued })
        (fun _ h => h) hpick
      exact .worked hd hstart rfl hne (by simp) (.of_eq rfl)
  · have hsame : SameAt s (s.modify id' fun d => { d with status := .active, nextRetryAt := 0 }) id :=
      .modify (fun _ h => h) hid
    unfold schedulerStart
    split
    · exact .kept hsame
    · exact .kept (hsame.trans (.modify (fun _ h => h) hid))

/-- A step of the engine of an active download. -/
theorem engine (hmove : EngineMove s d t d') (hd : s.get d.id = some d) (hs : d.status = .active) :
    Treats s t d.id := by
  obtain ⟨-, hstatus, hpath, -⟩ := Download.frame_eq hmove.frame
  refine .worked hd (hmove.get_self hd) hpath ?_ ?_ ⟨fun hr => ?_, .inl (hmove.status _)⟩
  · rw [hs]
    decide
  · rw [hstatus, hs]
    decide
  · have hids {db : Db} : (db.row d.id).isSome ↔ d.id ∈ db.downloads.map (·.id) := by
      rw [Db.row_isSome, List.mem_map]
    rwa [hids, hmove.rowIds, ← hids]

theorem pause : Treats s (s.modify id Download.pause) id := by
  have hid (d : Download) (h : d.id = id) : d.pause.id = id := (Download.pause_id d).trans h
  by_cases hd : ∃ d, s.get id = some d ∧ (d.status = .active ∨ d.status = .queued)
  · obtain ⟨d, hd, hs⟩ := hd
    refine of_modify hid hd ?_ ?_ ?_ rfl (.of_eq rfl) <;>
      rcases hs with hs | hs <;> simp [Download.pause, hs]
  · push Not at hd
    refine .kept (.modify_self hid fun d hd' => ?_)
    obtain ⟨h₁, h₂⟩ := hd d hd'
    rw [Download.pause]
    split
    · exact absurd ‹_› h₁
    · exact absurd ‹_› h₂
    · rfl

/-- What is unlinked does not matter. -/
theorem of_fresh (h : Treats s.fresh t id) : Treats s t id := by
  cases h with
  | kept h => exact .kept ⟨h.get, h.row, h.chunks⟩
  | worked hd hd' hpath hs hs' hrow =>
    exact .worked hd hd' hpath hs hs' ⟨hrow.row, hrow.status⟩
  | discarded hd hd' hpath hs' hclean hrow hchunks =>
    exact .discarded hd hd' hpath hs' hclean hrow hchunks

end Treats

/-- The chunks reported are those of active downloads. -/
theorem snapshot_active {s : Store} {max : ℕ} {r : ChunkProgressSnapshot}
    (hr : r ∈ queueManagerSnapshotChunkProgress s max) :
    ∃ d ∈ s.queue, d.status = .active ∧ d.id = r.downloadId := by
  have hr' := List.mem_of_mem_take hr
  rw [List.mem_flatMap] at hr'
  obtain ⟨d, hd, hr'⟩ := hr'
  obtain ⟨hd, hs⟩ := List.mem_filter.1 hd
  obtain ⟨j, hj, rfl⟩ := List.mem_mapIdx.1 hr'
  exact ⟨d, hd, by simpa using hs, rfl⟩

theorem get_reportProgress {s : Store} {rs : List ChunkProgressSnapshot} {id : ℕ} :
    (reportProgress s rs).get id = s.get id := by
  induction rs generalizing s with
  | nil => rfl
  | cons r rs ih => exact ih

theorem unlinked_reportProgress {s : Store} {rs : List ChunkProgressSnapshot} :
    (reportProgress s rs).unlinked = s.unlinked := by
  induction rs generalizing s with
  | nil => rfl
  | cons r rs ih => exact ih

namespace Daemon

variable {s s' : Daemon} {t : Task}

/-- The download a worker runs the engine on is there, and active. -/
theorem active_of_engine (hm : Managed s) {k id : ℕ} {pc : Pc}
    (hw : s.worker k = some ⟨id, .engine pc⟩) {d : Download} (hd : s.store.get id = some d) :
    d.status = .active := by
  have hact := hm.owned.active k _ hw rfl
  obtain ⟨d', hd', hs⟩ := Store.isActive_iff.1 hact
  rw [Store.control_of_get hd] at hd'
  cases hd'
  exact hs

theorem treats (hm : Managed s) (ht : s.perform R t = some s') (id : ℕ) :
    Treats s.store s'.store id := by
  refine Treats.of_fresh ?_
  cases t with
  | request c id' =>
    cases hpc : s.pc with
    | idle =>
      simp only [perform, hpc, Option.some.injEq] at ht
      subst ht
      -- The request is for this download, or for another one.
      by_cases hid : id = id'
      · exact hid ▸ Treats.handleCommand
      · exact .kept (SameAt.handleCommand hid)
    | _ => simp [perform, hpc] at ht
  | tick now created =>
    cases hpc : s.pc with
    | idle =>
      simp only [perform, hpc, Option.some.injEq] at ht
      subst ht
      rw [schedulerPick]
      split_ifs
      · split
        · exact .kept .refl
        · rename_i d hd
          obtain ⟨hmem, hq⟩ := queueManagerFindNextQueued_spec hd
          have hget : s.store.fresh.get d.id = some d := Store.get_of_mem hm.owned.ids hmem
          exact Treats.pick hget hq _ _ _
      · exact .kept .refl
    | _ => simp [perform, hpc] at ht
  | report =>
    cases hpc : s.pc with
    | idle =>
      simp only [perform, hpc, Option.some.injEq] at ht
      subst ht
      by_cases hid : ∃ r ∈ queueManagerSnapshotChunkProgress s.store.fresh reportMax,
          r.downloadId = id
      · obtain ⟨r, hr, rfl⟩ := hid
        obtain ⟨d, hd, hs, hid⟩ := snapshot_active hr
        have hget : s.store.fresh.get r.downloadId = some d :=
          hid ▸ Store.get_of_mem hm.owned.ids hd
        -- Only an active download is reported.
        refine .worked hget (get_reportProgress.trans hget) rfl ?_ ?_ .reportProgress <;>
          rw [hs] <;> decide
      · push Not at hid
        exact .kept (SameAt.reportProgress hid)
    | _ => simp [perform, hpc] at ht
  | engine k a =>
    have hst : Daemon.Step R s (.thread k (.engine a)) s' := by
      refine .of_eq ?_
      simpa [perform] using ht
    cases hst with
    | @thread _ w d₀ _ st pc hw hd₀ h =>
      obtain ⟨id', pc₀⟩ := w
      cases h with
      | engine h =>
        -- The engine runs on active downloads only, so that a discarded one is left alone.
        have hs := active_of_engine hm hw hd₀
        obtain ⟨d₁, hmove, -⟩ := Store.engineStep_spec (hm.owned.sound k _ _ hw rfl) h
        have hid₀ : d₀.id = id' := Store.get_id hd₀
        subst hid₀
        by_cases hid : id = d₀.id
        · subst hid
          exact Treats.engine hmove hd₀ hs
        · exact .kept ⟨hmove.get_of_ne hid, hmove.row id hid, hmove.chunks id hid⟩
  | finish k now =>
    simp only [perform] at ht
    split at ht
    · rename_i id' rc hw
      obtain ⟨d, hd, rfl⟩ := Option.map_eq_some_iff.1 ht
      by_cases hid : id = id'
      · subst hid
        exact Treats.settleOutcome hd (active_of_engine hm hw hd)
      · exact .kept (SameAt.settleOutcome hid)
    · cases ht
  | stop =>
    cases hpc : s.pc with
    | stopping ids =>
      cases ids with
      | nil => simp [perform, hpc, step] at ht
      | cons id' ids =>
        simp only [perform, hpc, step, Option.some.injEq] at ht
        subst ht
        by_cases hid : id = id'
        · exact hid ▸ Treats.pause
        · exact .kept (.modify (fun d h => (Download.pause_id d).trans h) hid)
    | _ => simp [perform, hpc] at ht

/-- The download a task is about. -/
def subject (s : Daemon) : Task → Option ℕ
  | .request _ id => some id
  | .engine k _ | .finish k _ => (s.worker k).map (·.downloadId)
  | _ => none

/-- A task unlinks the destination of its download, if anything; of one that is canceled
    already, only if it is another cancel. -/
theorem unlinked_perform (hm : Managed s) (ht : s.perform R t = some s') {p : CString}
    (hp : p ∈ s'.store.unlinked) :
    ∃ id d, s.subject t = some id ∧ s.store.get id = some d ∧ d.destPath = p ∧
      (d.status ≠ .canceled ∨ t = .request .cancel id) := by
  have hnil : p ∉ s.store.fresh.unlinked := List.not_mem_nil
  cases t with
  | request c id =>
    cases hpc : s.pc with
    | idle =>
      simp only [perform, hpc, Option.some.injEq] at ht
      subst ht
      rw [handleCommand_of_check] at hp
      rcases commandCheck_cases s.store.fresh c id with ⟨hcheck, hsome⟩ | ⟨answer, hcheck, -⟩
      · rw [hcheck] at hp
        obtain ⟨d, hd⟩ := Option.isSome_iff_exists.1 hsome
        cases c with
        | pause =>
          simp only at hp
          split_ifs at hp <;> exact absurd hp hnil
        | resume =>
          simp only at hp
          split_ifs at hp <;> exact absurd hp hnil
        | cancel =>
          simp only at hp
          split_ifs at hp
          · exact absurd hp hnil
          · -- The cancel of a download that is not active discards it at once.
            rcases unlinked_foldl hp with hp | hp
            · exact absurd hp hnil
            · rw [hd] at hp
              exact ⟨id, d, rfl, hd, (unlink_mem_discardOps.1 hp).2.symm, .inr rfl⟩
      · rw [hcheck] at hp
        exact absurd hp hnil
    | _ => simp [perform, hpc] at ht
  | tick now created =>
    cases hpc : s.pc with
    | idle =>
      simp only [perform, hpc, Option.some.injEq] at ht
      subst ht
      refine absurd hp ?_
      rw [schedulerPick]
      split_ifs
      · split
        · exact hnil
        · simp only [Option.elim_some]
          unfold schedulerStart
          split <;> exact hnil
      · exact hnil
    | _ => simp [perform, hpc] at ht
  | report =>
    cases hpc : s.pc with
    | idle =>
      simp only [perform, hpc, Option.some.injEq] at ht
      subst ht
      rw [unlinked_reportProgress] at hp
      exact absurd hp hnil
    | _ => simp [perform, hpc] at ht
  | engine k a =>
    have hst : Daemon.Step R s (.thread k (.engine a)) s' := by
      refine .of_eq ?_
      simpa [perform] using ht
    cases hst with
    | @thread _ w d₀ _ st pc hw hd₀ h =>
      obtain ⟨id, pc₀⟩ := w
      cases h with
      | engine h =>
        obtain ⟨d₁, hmove, -⟩ := Store.engineStep_spec (hm.owned.sound k _ _ hw rfl) h
        refine ⟨id, d₀, ?_, hd₀, (hmove.unlinked p hp).symm, .inl ?_⟩
        · rw [subject, hw]
          rfl
        · rw [active_of_engine hm hw hd₀]
          decide
  | finish k now =>
    simp only [perform] at ht
    split at ht
    · rename_i id rc hw
      obtain ⟨d, hd, rfl⟩ := Option.map_eq_some_iff.1 ht
      -- The outcome discards a canceled download before it is published, and unlinks nothing after.
      refine ⟨id, d, ?_, hd, ?_, .inl ?_⟩
      · rw [subject, hw]
        rfl
      · rcases unlinked_foldl hp with hp | hp
        · rcases unlinked_foldl hp with hp | hp
          · exact absurd hp hnil
          · exact (unlink_outcome.1 hp).symm
        · exact absurd hp unlink_outcome.2
      · rw [active_of_engine hm hw hd]
        decide
    · cases ht
  | stop =>
    cases hpc : s.pc with
    | stopping ids =>
      cases ids with
      | nil => simp [perform, hpc, step] at ht
      | cons id' ids =>
        simp only [perform, hpc, step, Option.some.injEq] at ht
        subst ht
        exact absurd hp hnil
    | _ => simp [perform, hpc] at ht

end Daemon

end Cdm
