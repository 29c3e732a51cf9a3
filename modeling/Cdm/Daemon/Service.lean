import Cdm.Daemon.Ownership

/-!
# The daemon in service

What else the daemon does, besides the commands, the ticks and the reports (`Upkeep`):
it adds downloads on request, keeps the offers of the browser, reloads its settings, and
shuts down. It may also stop at any time, and be started again: it then restores the
queue from the database.

An add is one step here: no worker knows of its download yet.
-/

namespace Cdm

variable {R : CString → ℕ → UInt8}

/-! ## Starting the daemon -/

/-- The largest identifier stored, `0` if there is none. -/
def dbGetMaxId (db : Db) : ℕ := (db.downloads.map (·.id)).foldr max 0

/-- The store of a daemon just started. -/
def Store.restore (s : Store) : Store :=
  queueManagerSeedNextId
    ((s.db.downloads.filter (·.status ≠ "DONE")).foldl
      (fun t r => queueManagerAddExisting t (restoreRow s.db r))
      { s with queue := [], nextId := 1, unlinked := [], sent := [] })
    (dbGetMaxId s.db + 1)

theorem restoredStatus_eq_canceled {name : String} (h : restoredStatus name = .canceled) :
    name = "CANCELED" := by
  rw [restoredStatus] at h
  split_ifs at h with h₁ h₂ h₃ h₄ h₅
  exact h₅

namespace Store

variable {s : Store} {id : ℕ}

theorem foldl_addExisting (db : Db) (rs : List DownloadRow) (t : Store) :
    (rs.foldl (fun t r => queueManagerAddExisting t (restoreRow db r)) t).queue =
        (rs.map (restoreRow db)).reverse ++ t.queue ∧
      (rs.foldl (fun t r => queueManagerAddExisting t (restoreRow db r)) t).files = t.files ∧
      (rs.foldl (fun t r => queueManagerAddExisting t (restoreRow db r)) t).db = t.db ∧
      (rs.foldl (fun t r => queueManagerAddExisting t (restoreRow db r)) t).unlinked = t.unlinked := by
  induction rs generalizing t with
  | nil => exact ⟨rfl, rfl, rfl, rfl⟩
  | cons r rs ih =>
    obtain ⟨hq, hf, hd, hu⟩ := ih (queueManagerAddExisting t (restoreRow db r))
    refine ⟨?_, hf, hd, hu⟩
    rw [List.foldl_cons, hq]
    simp [queueManagerAddExisting]

theorem restore_queue : s.restore.queue = dbRestoreQueue s.db :=
  (foldl_addExisting _ _ _).1.trans (List.append_nil _)

theorem restore_db : s.restore.db = s.db := (foldl_addExisting _ _ _).2.2.1

theorem restore_nextId : dbGetMaxId s.db < s.restore.nextId := by
  rw [restore, queueManagerSeedNextId]
  dsimp only
  split_ifs with h <;> omega

theorem le_dbGetMaxId {db : Db} (h : id ∈ db.downloads.map (·.id)) : id ≤ dbGetMaxId db :=
  List.le_max_of_le h le_rfl

/-- The identifiers restored are those of rows. -/
theorem ids_restore : s.restore.queue.map (·.id) =
    ((s.db.downloads.filter (·.status ≠ "DONE")).map (·.id)).reverse := by
  rw [restore_queue, dbRestoreQueue, List.map_reverse, List.map_map]
  rfl

/-- The entry restored under an identifier is that of its row. -/
theorem get_restore (hrows : (s.db.downloads.map (·.id)).Nodup) :
    s.restore.get id =
      ((s.db.row id).filter (·.status ≠ "DONE")).map (restoreRow s.db) := by
  have hsub : ((s.db.downloads.filter (·.status ≠ "DONE")).map (·.id)).Nodup :=
    hrows.sublist (List.filter_sublist.map _)
  have hids : (s.restore.queue.map (·.id)).Nodup := by
    rw [ids_restore]
    exact List.nodup_reverse.2 hsub
  have hmem (d : Download) : d ∈ s.restore.queue ↔
      ∃ r ∈ s.db.downloads, r.status ≠ "DONE" ∧ restoreRow s.db r = d := by
    rw [restore_queue, dbRestoreQueue, List.mem_reverse, List.mem_map]
    simp only [List.mem_filter, decide_eq_true_eq, and_assoc]
  ext d
  constructor
  · intro hd
    obtain ⟨r, hr, hs, rfl⟩ := (hmem d).1 (mem_of_get hd)
    have hid : r.id = id := get_id hd
    have hrow : s.db.row r.id = some r := List.find?_key_of_mem hrows hr
    rw [← hid, hrow]
    simp [hs]
  · intro hd
    obtain ⟨r, hr, rfl⟩ := Option.map_eq_some_iff.1 hd
    obtain ⟨hr, hs⟩ := Option.filter_eq_some_iff.1 hr
    have hget := get_of_mem hids ((hmem _).2 ⟨r, List.mem_of_find?_eq_some hr,
      by simpa using hs, rfl⟩)
    have hid : (restoreRow s.db r).id = id := Db.row_id hr
    rwa [hid] at hget

end Store

/-! ## Upkeep -/

inductive Upkeep
  | add (url dest : CString) (opts : RequestOptions) (ios : ℕ → ReserveIo)
  | confirm (offerId : ℕ) (dest : CString) (ios : ℕ → ReserveIo)
  /-- Another message of the browser changes the offers. -/
  | browse (offers : List BrowserOffer)
  | reload (cfg : Config)
  | shutdown
  /-- The daemon stops where it is, and is started again. -/
  | restart (cfg : Config)

/-- The destination a request asks a download to be added at, if it does. -/
def Daemon.requested (s : Daemon) : Upkeep → Option CString
  | .add _ dest _ _ => some dest
  | .confirm offerId dest _ =>
    if dest = [] ∨ ipcMaxPathLen ≤ dest.length then none
    else
      match browserFindOffer s.offers offerId with
      | some ⟨_, _, _, .waiting, _⟩ => some dest
      | _ => none
  | _ => none

/-- The event of an add, if a download was asked for and has got an identifier. -/
def announce (asked : Option CString) (id : ℕ) (history : List Event) : List Event :=
  if asked.isSome ∧ id ≠ 0 then .added id :: history else history

def Daemon.upkeep (s : Daemon) (u : Upkeep) : Option Daemon :=
  let st := s.store.fresh
  match u, s.pc with
  | .add url dest opts ios, .idle =>
    let x := reserveDownload url dest opts reserveAttempts st ios
    some { s with store := x.1, history := announce (s.requested u) x.2 s.history }
  | .confirm offerId dest ios, .idle =>
    let x := browserConfirm st s.offers offerId dest ios
    some { s with store := x.1, offers := x.2.1, history := announce (s.requested u) x.2.2 s.history }
  | .browse offers, .idle => some { s with store := st, offers := offers }
  | .reload cfg, .idle => some { s with store := st, cfg := cfg }
  | .shutdown, .idle =>
    some { s with store := st, pc := .stopping (s.workers.filterMap (·.map (·.downloadId))) }
  | .restart cfg, _ =>
    some { store := s.store.restore, workers := List.replicate schedulerMaxWorkers none
           pc := .idle, cfg := cfg, offers := [], history := s.history }
  | _, _ => none

/-- What the upkeep does, case by case. -/
inductive Daemon.Upkept (s : Daemon) : Upkeep → Daemon → Prop
  | added {u : Upkeep} {url dest : CString} {opts : RequestOptions} {st : Store} {id : ℕ}
      {offers : List BrowserOffer} (hu : s.requested u = some dest) (hpc : s.pc = .idle)
      (hid : id ≠ 0) (h : Reserved s.store.fresh url dest opts st id) :
      Upkept s u { s with store := st, offers := offers, history := .added id :: s.history }
  | refused {u : Upkeep} {url dest : CString} {opts : RequestOptions} {st : Store}
      (hu : s.requested u = some dest) (hpc : s.pc = .idle)
      (h : Reserved s.store.fresh url dest opts st 0) : Upkept s u { s with store := st }
  | settled {u : Upkeep} {offers : List BrowserOffer} {cfg : Config} (hpc : s.pc = .idle) :
      Upkept s u { s with store := s.store.fresh, offers := offers, cfg := cfg }
  | stopping (hpc : s.pc = .idle) :
      Upkept s .shutdown
        { s with store := s.store.fresh
                 pc := .stopping (s.workers.filterMap (·.map (·.downloadId))) }
  | restarted {cfg : Config} :
      Upkept s (.restart cfg)
        { store := s.store.restore, workers := List.replicate schedulerMaxWorkers none
          pc := .idle, cfg := cfg, offers := [], history := s.history }

namespace Daemon.Upkept

variable {s s' : Daemon} {u : Upkeep}

/-- An add, seen from its result. -/
theorem of_reserved {url dest : CString} {opts : RequestOptions} {st : Store} {id : ℕ}
    {offers : List BrowserOffer} (hu : s.requested u = some dest) (hpc : s.pc = .idle)
    (h : Reserved s.store.fresh url dest opts st id) (hoffers : id = 0 → offers = s.offers) :
    Upkept s u { s with store := st, offers := offers
                        history := announce (s.requested u) id s.history } := by
  rw [announce, hu]
  by_cases hid : id = 0
  · subst hid
    rw [hoffers rfl]
    exact .refused hu hpc h
  · rw [if_pos ⟨rfl, hid⟩]
    exact .added hu hpc hid h

theorem of_eq (hpos : 0 < s.store.nextId) (h : s.upkeep u = some s') : Upkept s u s' := by
  unfold Daemon.upkeep at h
  simp only at h
  split at h
  · cases h
    exact of_reserved rfl ‹_› (reserveDownload_spec hpos rfl) fun _ => rfl
  · rename_i offerId dest ios hpc
    cases h
    rw [browserConfirm]
    -- Only an offer that waits for its confirmation asks for a download.
    by_cases hdest : dest = [] ∨ ipcMaxPathLen ≤ dest.length
    · have hu : s.requested (.confirm offerId dest ios) = none := by
        rw [Daemon.requested, if_pos hdest]
      rw [if_pos hdest, hu]
      exact .settled hpc
    · rw [if_neg hdest]
      cases hoffer : browserFindOffer s.offers offerId with
      | none =>
        have hu : s.requested (.confirm offerId dest ios) = none := by
          rw [Daemon.requested, if_neg hdest, hoffer]
        rw [hu]
        exact .settled hpc
      | some offer =>
        obtain ⟨oid, url, referrer, state, downloadId⟩ := offer
        cases state with
        | waiting =>
          have hu : s.requested (.confirm offerId dest ios) = some dest := by
            rw [Daemon.requested, if_neg hdest, hoffer]
          simp only
          generalize hx : reserveDownload url dest ⟨[], referrer, [], [], 0⟩ reserveAttempts
            s.store.fresh ios = x
          obtain ⟨st, id⟩ := x
          have hres := reserveDownload_spec (s := s.store.fresh) hpos hx
          cases id with
          | zero => exact of_reserved hu hpc hres fun _ => rfl
          | succ n => exact of_reserved hu hpc hres fun h => by cases h
        | confirmed =>
          have hu : s.requested (.confirm offerId dest ios) = none := by
            rw [Daemon.requested, if_neg hdest, hoffer]
          rw [hu]
          exact .settled hpc
        | dismissed =>
          have hu : s.requested (.confirm offerId dest ios) = none := by
            rw [Daemon.requested, if_neg hdest, hoffer]
          rw [hu]
          exact .settled hpc
  · cases h
    exact .settled ‹_›
  · cases h
    exact .settled ‹_›
  · cases h
    exact .stopping ‹_›
  · cases h
    exact .restarted
  · cases h

end Daemon.Upkept

/-- A step of the daemon in service. -/
inductive Service
  | act (a : Act)
  | upkeep (u : Upkeep)

def Daemon.serve (R : CString → ℕ → UInt8) (s : Daemon) : Service → Option Daemon
  | .act a => s.step R a
  | .upkeep u => s.upkeep u

/-! ## Identifiers -/

/-- Identifiers in use are below the next one to be used, and name one row each. -/
structure Daemon.Numbered (s : Daemon) : Prop where
  positive : 0 < s.store.nextId
  rows : (s.store.db.downloads.map (·.id)).Nodup
  queue_lt : ∀ id ∈ s.store.queue.map (·.id), id < s.store.nextId
  row_lt : ∀ id ∈ s.store.db.downloads.map (·.id), id < s.store.nextId
  worker_lt : ∀ k w, s.worker k = some w → w.downloadId < s.store.nextId

namespace Daemon.Step

variable {s s' : Daemon} {a : Act}

theorem nextId (hst : Daemon.Step R s a s') (hsound : s.Sound) :
    s'.store.nextId = s.store.nextId := by
  have hexec (op : Op) (id : ℕ) : (op.exec id s.store.fresh).nextId = s.store.nextId := by
    cases op <;> rfl
  cases hst with
  | @thread k w d₀ a st pc hw hd₀ h =>
    generalize hpc : w.pc = pc₀ at h
    cases h with
    | engine h =>
      obtain ⟨_, hmove, -⟩ := Store.engineStep_spec (hsound k w _ hw hpc) h
      exact hmove.nextId
    | settle => exact hexec _ _
    | leave => exact hexec _ _
    | _ => rfl
  | finish => exact hexec _ _
  | _ => rfl

/-- The threads insert no rows. -/
theorem rowIds (hst : Daemon.Step R s a s') (hsound : s.Sound) :
    s'.store.db.downloads.map (·.id) = s.store.db.downloads.map (·.id) := by
  have hexec (op : Op) (id : ℕ) : (op.exec id s.store.fresh).db.downloads.map (·.id) =
      s.store.db.downloads.map (·.id) := by
    cases op with
    | deleteChunks => exact Db.ids_exec (by simp)
    | updateTotalSize => exact Db.ids_exec (by simp)
    | dbUpdateStatus => exact Db.ids_exec (by simp)
    | _ => rfl
  cases hst with
  | @thread k w d₀ a st pc hw hd₀ h =>
    generalize hpc : w.pc = pc₀ at h
    cases h with
    | engine h =>
      obtain ⟨_, hmove, -⟩ := Store.engineStep_spec (hsound k w _ hw hpc) h
      exact hmove.rowIds
    | settle => exact hexec _ _
    | leave => exact hexec _ _
    | _ => rfl
  | finish => exact hexec _ _
  | reportRow => exact Db.ids_exec (by simp)
  | _ => rfl

/-- The worker in a slot after a step works on the download of the one before, or has just
    been started for the download picked. -/
theorem worker {k : ℕ} {w : SchedulerWorker} (hst : Daemon.Step R s a s')
    (hw : s'.worker k = some w) :
    (∃ w₀, s.worker k = some w₀ ∧ w₀.downloadId = w.downloadId) ∨
      s.pc = .picked w.downloadId ∧ w.pc = .engine .entered := by
  cases hst with
  | @thread k₁ w₁ d₁ a₁ st pc hw₁ hd₁ h =>
    rw [Daemon.worker_set (Daemon.lt_of_worker hw₁) rfl] at hw
    split_ifs at hw with hk
    · subst hk
      cases hw
      exact .inl ⟨w₁, hw₁, rfl⟩
    · exact .inl ⟨w, hw, rfl⟩
  | tick => exact .inl ⟨w, Daemon.worker_reap rfl hw, rfl⟩
  | pick => exact .inl ⟨w, Daemon.worker_reap rfl hw, rfl⟩
  | start hpc hk =>
    rw [Daemon.worker_set (Daemon.lt_of_free hk) rfl] at hw
    split_ifs at hw
    · cases hw
      exact .inr ⟨hpc, rfl⟩
    · exact .inl ⟨w, hw, rfl⟩
  | _ => exact .inl ⟨w, hw, rfl⟩

end Daemon.Step

namespace Daemon.Numbered

variable {s s' : Daemon} {a : Act} {u : Upkeep} {id : ℕ}

theorem lt_of_get (h : s.Numbered) (hd : (s.store.get id).isSome) : id < s.store.nextId :=
  h.queue_lt id (Store.get_isSome.1 hd)

theorem step (h : s.Numbered) (ho : Ownership s) (hst : Daemon.Step R s a s') : s'.Numbered where
  positive := hst.nextId ho.sound ▸ h.positive
  rows := hst.rowIds ho.sound ▸ h.rows
  queue_lt id hid := by
    rw [hst.nextId ho.sound]
    exact h.queue_lt id (hst.ids ho.sound ▸ hid)
  row_lt id hid := by
    rw [hst.nextId ho.sound]
    exact h.row_lt id (hst.rowIds ho.sound ▸ hid)
  worker_lt k w hw := by
    rw [hst.nextId ho.sound]
    rcases hst.worker hw with ⟨w₀, hw₀, hid⟩ | ⟨hpc, -⟩
    · exact hid ▸ h.worker_lt k w₀ hw₀
    · obtain ⟨d, hd, -⟩ := Store.isActive_iff.1 (ho.picked _ hpc).1
      obtain ⟨d₀, hd₀, -⟩ := Store.control_eq_some hd
      exact h.lt_of_get (by rw [hd₀]; rfl)

/-- A download just added has an identifier of its own. -/
theorem upkept (h : s.Numbered) (hst : Daemon.Upkept s u s') : s'.Numbered := by
  cases hst with
  | @added _ url dest opts st id _ hu hpc hid hres =>
    obtain ⟨path, -, -, hle, hlt, hqueue, -, hdb⟩ := hres.added hid
    have hle' : s.store.nextId ≤ id := hle
    -- The new identifier is at or above the old counter, and below the new one.
    have hold {id' : ℕ} (hid' : id' < s.store.nextId) : id' < st.nextId := by omega
    have hrows : st.db.downloads.map (·.id) = s.store.db.downloads.map (·.id) ++ [id] := by
      have hne : ∀ r ∈ s.store.db.downloads, decide (r.id ≠ id) = true := by
        intro r hr
        have := h.row_lt r.id (List.mem_map_of_mem hr)
        simp only [ne_eq, decide_eq_true_eq]
        omega
      rw [hdb, Db.exec, List.map_append]
      exact congrArg (· ++ [id]) (congrArg _ (List.filter_eq_self.2 hne))
    refine ⟨h.positive.trans_le hres.nextId, ?_, fun id' hid' => ?_, fun id' hid' => ?_,
      fun k w hw => hold (h.worker_lt k w hw)⟩
    · simp only [hrows]
      refine h.rows.append (List.nodup_singleton _) ?_
      rw [List.disjoint_singleton]
      exact fun hmem => absurd (h.row_lt id hmem) (by omega)
    · simp only [hqueue, List.map_cons, List.mem_cons] at hid'
      rcases hid' with rfl | hid'
      · exact hlt
      · exact hold (h.queue_lt id' hid')
    · simp only [hrows, List.mem_append, List.mem_singleton] at hid'
      rcases hid' with hid' | rfl
      · exact hold (h.row_lt id' hid')
      · exact hlt
  | @refused _ url dest opts st hu hpc hres =>
    obtain ⟨hqueue, -, hdb⟩ := hres.refused rfl
    have hle : s.store.nextId ≤ st.nextId := hres.nextId
    refine ⟨h.positive.trans_le hle, ?_, fun id hid => ?_, fun id hid => ?_,
      fun k w hw => (h.worker_lt k w hw).trans_le hle⟩
    · simp only [hdb]
      exact h.rows
    · simp only [hqueue] at hid
      exact (h.queue_lt id hid).trans_le hle
    · simp only [hdb] at hid
      exact (h.row_lt id hid).trans_le hle
  | settled => exact ⟨h.positive, h.rows, h.queue_lt, h.row_lt, h.worker_lt⟩
  | stopping => exact ⟨h.positive, h.rows, h.queue_lt, h.row_lt, h.worker_lt⟩
  | restarted =>
    -- A restart sets the counter above all rows, those not restored included.
    have hmax {id : ℕ} (hid : id ∈ s.store.db.downloads.map (·.id)) : id < s.store.restore.nextId :=
      (Store.le_dbGetMaxId hid).trans_lt Store.restore_nextId
    refine ⟨(Nat.zero_le _).trans_lt Store.restore_nextId, ?_, fun id hid => ?_, fun id hid => ?_,
      fun k w hw => ?_⟩
    · simp only [Store.restore_db]
      exact h.rows
    · simp only [Store.ids_restore, List.mem_reverse] at hid
      exact hmax ((List.filter_sublist.map _).subset hid)
    · simp only [Store.restore_db] at hid
      exact hmax hid
    · rw [Daemon.worker, List.getElem?_replicate] at hw
      split_ifs at hw
      · cases hw
      · cases hw

end Daemon.Numbered

/-! ## What the upkeep keeps -/

/-- The entries found after one was put at the head of the queue. -/
theorem Store.get_of_cons {s t : Store} {d : Download} {id : ℕ} (h : t.queue = d :: s.queue) :
    t.get id = if d.id = id then some d else s.get id := by
  rw [get, h]
  split_ifs with hid
  · exact List.find?_cons_of_pos (by simpa using hid)
  · exact List.find?_cons_of_neg (by simpa using hid)

theorem Store.get_of_cons_of_ne {s t : Store} {d : Download} {id : ℕ} (h : t.queue = d :: s.queue)
    (hid : d.id ≠ id) : t.get id = s.get id := by
  rw [get_of_cons h, if_neg hid]

theorem Store.isActive_congr {s t : Store} {id : ℕ} (h : t.get id = s.get id) :
    t.isActive id = s.isActive id := by
  rw [isActive, queueManagerGetStatus, h]
  rfl

theorem Daemon.worker_restarted {s : Daemon} {k : ℕ}
    (h : s.workers = List.replicate schedulerMaxWorkers none) : s.worker k = none := by
  rw [worker, h, List.getElem?_replicate]
  split_ifs <;> rfl

theorem Ownership.upkept {s s' : Daemon} {u : Upkeep} (h : Ownership s) (hn : s.Numbered)
    (hst : Daemon.Upkept s u s') : Ownership s' := by
  -- Nobody looks at a download that was just added.
  have hidle {s' : Daemon} (hpc : s'.pc = .idle) (hids : (s'.store.queue.map (·.id)).Nodup)
      (hw : s'.workers = s.workers)
      (hget : ∀ id < s.store.nextId, s'.store.get id = s.store.get id) : Ownership s' := by
    have hworker (k : ℕ) : s'.worker k = s.worker k := by rw [Daemon.worker, hw, Daemon.worker]
    refine ⟨hids, fun k w pc hk => h.sound k w pc (hworker k ▸ hk), fun k w hk ho => ?_,
      fun k k' w w' hk hk' => h.unique k k' w w' (hworker k ▸ hk) (hworker k' ▸ hk'),
      fun id hp => ?_, fun id hp => ?_⟩
    · rw [hworker] at hk
      rw [Store.isActive_congr (hget _ (hn.worker_lt k w hk))]
      exact h.active k w hk ho
    · rw [hpc] at hp
      cases hp
    · rw [hpc] at hp
      rcases hp with ⟨_, hp⟩ | ⟨_, hp⟩ <;> cases hp
  cases hst with
  | @added _ url dest opts st id _ hu hpc hid hres =>
    obtain ⟨path, -, -, hle, hlt, hqueue, -, -⟩ := hres.added hid
    have hle' : s.store.nextId ≤ id := hle
    refine hidle hpc ?_ rfl fun id' hid' => ?_
    · simp only [hqueue, List.map_cons, List.nodup_cons]
      exact ⟨fun hmem => absurd (hn.queue_lt _ hmem) (not_lt.2 hle'), h.ids⟩
    · exact Store.get_of_cons_of_ne hqueue fun hne => absurd (show id = id' from hne) (by omega)
  | refused hu hpc hres =>
    obtain ⟨hqueue, -, -⟩ := hres.refused rfl
    refine hidle hpc ?_ rfl fun id' hid' => ?_
    · simp only [hqueue]
      exact h.ids
    · rw [Store.get, hqueue]
      rfl
  | settled hpc => exact hidle hpc h.ids rfl fun _ _ => rfl
  | stopping =>
    refine ⟨h.ids, h.sound, h.active, h.unique, fun id hp => ?_, fun id hp => ?_⟩
    · cases hp
    · rcases hp with ⟨_, hp⟩ | ⟨_, hp⟩ <;> cases hp
  | @restarted cfg =>
    have hnone (k : ℕ) := Daemon.worker_restarted (s := ⟨s.store.restore,
      List.replicate schedulerMaxWorkers none, .idle, cfg, [], s.history⟩) (k := k) rfl
    refine ⟨?_, fun k w pc hw => ?_, fun k w hw => ?_, fun k k' w w' hw => ?_, fun id hp => ?_,
      fun id hp => ?_⟩
    · rw [Store.ids_restore]
      exact List.nodup_reverse.2 (hn.rows.sublist (List.filter_sublist.map _))
    · rw [hnone] at hw
      cases hw
    · rw [hnone] at hw
      cases hw
    · rw [hnone] at hw
      cases hw
    · cases hp
    · rcases hp with ⟨_, hp⟩ | ⟨_, hp⟩ <;> cases hp

/-! ## Runs -/

/-- A daemon started on an empty database, with any files. -/
structure FirstStart (s : Daemon) : Prop where
  queue : s.store.queue = []
  db : s.store.db = ⟨[], []⟩
  nextId : s.store.nextId = 1
  pc : s.pc = .idle
  workers : s.workers = List.replicate schedulerMaxWorkers none
  offers : s.offers = []
  history : s.history = []

namespace FirstStart

variable {s : Daemon}

theorem worker (h : FirstStart s) (k : ℕ) : s.worker k = none := Daemon.worker_restarted h.workers

theorem get (h : FirstStart s) (id : ℕ) : s.store.get id = none := by
  rw [Store.get, h.queue]
  rfl

theorem row (h : FirstStart s) (id : ℕ) : s.store.db.row id = none := by
  rw [Db.row, h.db]
  rfl

theorem atRest (h : FirstStart s) : AtRest s where
  ids := by
    rw [h.queue]
    exact List.nodup_nil
  inactive d hd := by
    rw [h.queue] at hd
    cases hd
  pc := h.pc
  workers := h.workers
  history := h.history

theorem numbered (h : FirstStart s) : s.Numbered where
  positive := by
    rw [h.nextId]
    exact Nat.one_pos
  rows := by
    rw [h.db]
    exact List.nodup_nil
  queue_lt id hid := by
    rw [h.queue] at hid
    cases hid
  row_lt id hid := by
    rw [h.db] at hid
    cases hid
  worker_lt k w hw := by
    rw [h.worker] at hw
    cases hw

end FirstStart

/-- A daemon started on an empty database, with no file at all. -/
def freshDaemon : Daemon where
  store := ⟨[], 1, fun _ => none, ⟨[], []⟩, [], []⟩
  workers := List.replicate schedulerMaxWorkers none
  pc := .idle
  cfg := ⟨3, 1, 2, 60⟩
  offers := []
  history := []

theorem firstStart_freshDaemon : FirstStart freshDaemon := ⟨rfl, rfl, rfl, rfl, rfl, rfl, rfl⟩

/-- Adding a download of `http://h/f`, the system granting all it is asked for. -/
def addFile (dest : String) : Upkeep :=
  .add "http://h/f".toList dest.toList ⟨[], [], [], [], 0⟩
    fun _ => ⟨⟨true, false⟩, none, false, true⟩

/-- A state satisfying `P` is reached if a download is added, and the run of a list of actions
    then ends in one. -/
theorem reachable_of_serve (R : CString → ℕ → UInt8) (ok : Daemon → Service → Prop)
    [∀ s a, Decidable (ok s a)] (P : Daemon → Prop) (as : List Act)
    (h : ∃ s ∈ Run.exec (Daemon.serve R) ok freshDaemon (.upkeep (addFile "/d/f") :: as.map .act),
      P s) :
    ∃ s, Run.Reachable (Daemon.serve R) FirstStart ok s ∧ P s :=
  Run.exists_reachable_of_exec _ _ _ _ firstStart_freshDaemon _ h

end Cdm
