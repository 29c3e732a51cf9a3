import Cdm.Daemon.Backed

/-!
# Reports and stored progress

The daemon reports every so often: it stores the live counters of the chunks of the
active downloads. The counters of a restored download are zero until its worker has
planned, though, while its chunks have the bytes done that were stored; a report in
between stores the zeros (`exists_lowers`). Likewise, what a report has read may be out
of date when it is stored, if the worker flushes or plans afresh in the meantime, and
rows are mixed up if a split records a chunk that starts where another row does.

Otherwise (`timely`), no report lowers the bytes done of a row (`not_lowers_of_timely`).
-/

namespace Cdm

variable {R : CString → ℕ → UInt8}

/-- A download as its engine sees it. -/
def Store.world (s : Store) (d : Download) : World := ⟨d, ⟨s.files d.destPath, s.db⟩, []⟩

/-- The progress a report has still to store. -/
def Daemon.pending (s : Daemon) : List ChunkProgressSnapshot :=
  match s.pc with
  | .reporting rs => rs
  | _ => []

/-- The progress a report has still to store for a download. -/
def Daemon.pendingOf (s : Daemon) (id : ℕ) : List ChunkProgressSnapshot :=
  s.pending.filter (·.downloadId = id)

/-- The next row a report stores is lowered by it. -/
def Daemon.Lowers (s : Daemon) : Prop :=
  ∃ p ∈ s.pending.head?, ∃ r ∈ s.store.db.chunksOf p.downloadId,
    r.rangeStart = p.rangeStart ∧ p.bytesDone < r.bytesDone

instance (s : Daemon) : Decidable s.Lowers := inferInstanceAs (Decidable (∃ p ∈ _, _))

/-- The counters of a download are not behind the bytes done of its chunks. -/
def Download.synced (d : Download) : Bool :=
  d.chunks.zipIdx.all fun x => x.1.bytesDone ≤ d.chunkLiveBytes x.2

/-- The daemon ticks, reports, and its workers go on. A report finds the counters of the
    active downloads synced; and while it stores what it has read, no engine outdates
    that. -/
def timely (s : Daemon) : Act → Bool
  | .report => s.store.queue.all fun d => d.status ≠ .active || d.synced
  | .thread k (.engine a) =>
    (s.worker k).all fun w =>
      match w.pc with
      | .engine pc => (s.store.get w.downloadId).all fun d =>
          !outdates (s.store.world d) (s.pendingOf w.downloadId) pc a
      | _ => true
  | .request _ _ => false
  | _ => true

/-- A daemon that has just restored its queue: the chunk rows of a download are told apart
    by their starts. -/
structure Restored (s : Daemon) : Prop where
  atRest : AtRest s
  queue : s.store.queue = dbRestoreQueue s.store.db
  starts : ∀ id, ((s.store.db.chunksOf id).map (·.rangeStart)).Nodup

/-! ## What a worker does in the end -/

/-- Operations that touch neither the chunks nor their rows. -/
def Op.tame : Op → Bool
  | .dbUpdateStatus _ | .broadcast _ => true
  | _ => false

/-- What a worker does after it has published is tame. -/
def ThreadPc.Tame : ThreadPc → Prop
  | .settling o => ∀ op ∈ o.after, op.tame = true
  | .leaving ops => ∀ op ∈ ops, op.tame = true
  | _ => True

theorem tame_outcome (cfg : Config) (d : Download) (now : ℕ) (rc : ℤ) (canceled paused : Bool) :
    ∀ op ∈ (outcome cfg d now rc canceled paused).after, op.tame = true := by
  rcases outcome_cases cfg d now rc canceled paused with
    ⟨-, h⟩ | ⟨-, -, h⟩ | ⟨-, -, h | ⟨text, h⟩ | h⟩ <;> rw [h] <;>
    simp [doneOutcome, canceledOutcome, pausedOutcome, errorOutcome, retryOutcome, Op.tame]

theorem ThreadStep.tame {cfg : Config} {s s' : Store} {d : Download} {pc pc' : ThreadPc}
    {a : ThreadAct} (hst : ThreadStep R cfg s d pc a s' pc') (h : pc.Tame) : pc'.Tame := by
  cases hst with
  | loadPause => exact tame_outcome _ _ _ _ _ _
  | settle => exact h
  | publish => exact h
  | leave => exact fun op hop => h op (List.mem_cons_of_mem _ hop)
  | _ => trivial

/-! ## The invariant -/

variable {s s' : Daemon} {a : Act} {id k : ℕ} {w : SchedulerWorker}

/-- The engine runs on a download. -/
def Daemon.RunsOn (s : Daemon) (id : ℕ) : Prop :=
  ∃ k w pc, s.worker k = some w ∧ w.downloadId = id ∧ w.pc = .engine pc

/-- The stored progress of a download is backed. -/
structure KeptAt (s : Daemon) (id : ℕ) (d : Download) : Prop where
  running : ∀ k w pc, s.worker k = some w → w.downloadId = id → w.pc = .engine pc →
    BackedCall (s.store.world d) pc (s.pendingOf id)
  resting : ¬s.RunsOn id → Backed false (s.store.world d) (s.pendingOf id)

/-- The invariant of a run: every download is kept, and a report has read its chunks. -/
structure Kept (s : Daemon) : Prop where
  owned : Ownership s
  quiet : s.pc = .idle ∨ (∃ id, s.pc = .picked id) ∨ ∃ rs, s.pc = .reporting rs
  tame : ∀ k w, s.worker k = some w → w.pc.Tame
  keys : (s.pending.map fun p => (p.downloadId, p.rangeStart)).Nodup
  known : ∀ p ∈ s.pending, (s.store.get p.downloadId).isSome
  kept : ∀ id d, s.store.get id = some d → KeptAt s id d

theorem BackedCall.congr {v v' : World} {pc : Pc} {ps : List ChunkProgressSnapshot}
    (h : BackedCall v pc ps) (hchunks : v'.d.chunks = v.d.chunks)
    (hlive : v'.d.chunkLiveBytes = v.d.chunkLiveBytes) (hrows : v'.rows = v.rows) :
    BackedCall v' pc ps := by
  refine ⟨h.sound, h.uncounted, h.backed.congr hchunks hlive hrows, h.present.imp_right ?_⟩
  intro hp
  rwa [Present, hchunks]

/-- A step that changes neither the chunks of a download nor their rows, and after which no
    other engine runs on it. -/
theorem KeptAt.frame {d d' : Download} (h : KeptAt s id d) (hchunks : d'.chunks = d.chunks)
    (hlive : d'.chunkLiveBytes = d.chunkLiveBytes)
    (hrows : s'.store.db.chunksOf d'.id = s.store.db.chunksOf d.id)
    (hpending : s'.pendingOf id = s.pendingOf id)
    (hworkers : ∀ k w pc, s'.worker k = some w → w.downloadId = id → w.pc = .engine pc →
      s.worker k = some w)
    (hruns : ∀ k w pc, s.worker k = some w → w.downloadId = id → w.pc = .engine pc →
      s'.RunsOn id ∨ ∃ rc, pc = .idle rc) : KeptAt s' id d' := by
  have hrows' : (s'.store.world d').rows = (s.store.world d).rows := hrows
  refine ⟨fun k w pc hw hid hpc => ?_, fun hno => ?_⟩ <;> rw [hpending]
  · exact (h.running k w pc (hworkers k w pc hw hid hpc) hid hpc).congr hchunks hlive hrows'
  · refine Backed.congr (w := s.store.world d) ?_ hchunks hlive hrows'
    by_cases hr : s.RunsOn id
    · obtain ⟨k, w, pc, hw, hid, hpc⟩ := hr
      obtain ⟨rc, rfl⟩ := (hruns k w pc hw hid hpc).resolve_left hno
      exact (h.running k w _ hw hid hpc).backed
    · exact h.resting hr

/-! ## Worker threads -/

/-- No engine runs on a download that another worker owns. -/
theorem Ownership.not_runs (h : Ownership s) (hw : s.worker k = some w) (howns : w.owns = true)
    (hpc : ∀ pc, w.pc ≠ .engine pc) : ¬s.RunsOn w.downloadId := by
  rintro ⟨k', w', pc, hw', hid, hpc'⟩
  have howns' : w'.owns = true := by rw [SchedulerWorker.owns, hpc']
  have hkk := h.unique k' k w' w hw' hw howns' howns hid
  subst hkk
  rw [hw] at hw'
  cases hw'
  exact hpc pc hpc'

/-- The engine changes its download as its world changes. -/
theorem Store.engineStep_world {st st' : Store} {d : Download} {pc pc' : Pc} {a : EngineAct}
    (hsound : SoundPc pc) (hd : st.get d.id = some d)
    (h : st.engineStep R d pc a = some (st', pc')) :
    ∃ v, EngineStep (R d.url) ⟨st.world d, pc⟩ a ⟨v, pc'⟩ ∧ st'.get d.id = some v.d ∧
      st'.db = v.disk.db ∧ v.d.id = d.id := by
  rw [Store.engineStep] at h
  obtain ⟨e, he, hx⟩ := Option.map_eq_some_iff.1 h
  cases hx
  have hst : EngineStep (R d.url) ⟨st.world d, pc⟩ a e := EngineStep.of_eq he
  obtain ⟨es, hes, -⟩ := hst.emits hsound
  exact ⟨e.w, hst, Store.get_modify_of_get (fun _ _ => hes.id_eq) hd, rfl, hes.id_eq⟩

/-- A step of the engine on its download. -/
theorem Kept.engine {d₀ : Download} {pc pc' : Pc} {a : EngineAct} {st : Store} (h : Kept s)
    (hw : s.worker k = some w) (hd₀ : s.store.get w.downloadId = some d₀) (hpc : w.pc = .engine pc)
    (heng : s.store.fresh.engineStep R d₀ pc a = some (st, pc')) (ha : a ≠ .call)
    (hok : timely s (.thread k (.engine a)) = true)
    (hs' : s' = { s with
      store := st, workers := s.workers.set k (some ⟨w.downloadId, .engine pc'⟩) }) :
    ∀ id d, s'.store.get id = some d → KeptAt s' id d := by
  have hid₀ := Store.get_id hd₀
  have hget₀ : s.store.fresh.get d₀.id = some d₀ := hid₀ ▸ hd₀
  have howns : w.owns = true := by rw [SchedulerWorker.owns, hpc]
  have hsound := h.owned.sound k w pc hw hpc
  have hpending (id : ℕ) : s'.pendingOf id = s.pendingOf id := by rw [hs']; rfl
  have hworker (k' : ℕ) : s'.worker k' =
      if k' = k then some ⟨w.downloadId, .engine pc'⟩ else s.worker k' :=
    Daemon.worker_set (Daemon.lt_of_worker hw) (by rw [hs'])
  have hself : s'.RunsOn w.downloadId := ⟨k, _, pc', (hworker k).trans (if_pos rfl), rfl, rfl⟩
  obtain ⟨v, hst, hget, hdb, hvid⟩ := Store.engineStep_world hsound hget₀ heng
  obtain ⟨d₁, hmove, -⟩ := Store.engineStep_spec hsound heng
  intro id d hd
  by_cases hid : id = d₀.id
  · -- The download of the worker: the engine keeps it.
    have hout : outdates (s.store.world d₀) (s.pendingOf w.downloadId) pc a = false := by
      simpa only [timely, hw, Option.all_some, hpc, hd₀, Bool.not_eq_true'] using hok
    have hnew := ((h.kept w.downloadId d₀ hd₀).running k w pc hw rfl hpc).engine hst ha hout
    have hdv : d = v.d := by
      rw [hs', hid, hget] at hd
      exact (Option.some.inj hd).symm
    refine ⟨fun k' w' pc₁ hw' hid' hpc₁ => ?_, fun hno => absurd hself (hid₀ ▸ hid ▸ hno)⟩
    have hk : k' = k := by
      by_contra hk
      rw [hworker, if_neg hk] at hw'
      exact hk (h.owned.unique k' k w' w hw' hw (by rw [SchedulerWorker.owns, hpc₁]) howns
        (hid'.trans (hid.trans hid₀)))
    rw [hworker, if_pos hk] at hw'
    cases hw'
    cases hpc₁
    rw [hpending, hid, hid₀]
    refine hnew.congr (by rw [hdv]; rfl) (by rw [hdv]; rfl) ?_
    rw [World.rows, hdv, hs']
    exact congrArg (·.chunksOf v.d.id) hdb
  · -- Another download.
    have hd' : s.store.get id = some d := by
      rw [hs'] at hd
      exact (hmove.get_of_ne hid).symm.trans hd
    have hne (k' : ℕ) (w' : SchedulerWorker) (hw' : w'.downloadId = id) (hk : k' = k) :
        s.worker k' ≠ some w' ∧ s'.worker k' ≠ some w' := by
      have hne' : w'.downloadId ≠ w.downloadId := by
        rw [hw', ← hid₀]
        exact hid
      refine ⟨fun hw₁ => ?_, fun hw₁ => ?_⟩
      · rw [hk, hw] at hw₁
        exact hne' (congrArg SchedulerWorker.downloadId (Option.some.inj hw₁)).symm
      · rw [hworker, if_pos hk] at hw₁
        exact hne' (congrArg SchedulerWorker.downloadId (Option.some.inj hw₁)).symm
    refine (h.kept id d hd').frame rfl rfl ?_ (hpending id) (fun k' w' pc₁ hw' hid' _ => ?_)
      fun k' w' pc₁ hw' hid' hpc₁ => .inl ⟨k', w', pc₁, ?_, hid', hpc₁⟩
    · rw [hs', Store.get_id hd']
      exact hmove.chunks id hid
    · rw [hworker] at hw'
      split_ifs at hw' with hk
      · exact absurd (by rw [hworker, if_pos hk, hw']) (hne k' w' hid' hk).2
      · exact hw'
    · rw [hworker]
      split_ifs with hk
      · exact absurd hw' (hne k' w' hid' hk).1
      · exact hw'

/-! ## Steps that keep the chunks -/

/-- The chunks of the downloads, their counters and their rows are the same. -/
def SameChunks (st st' : Store) : Prop :=
  ∀ id d', st'.get id = some d' → ∃ d, st.get id = some d ∧ d'.chunks = d.chunks ∧
    d'.chunkLiveBytes = d.chunkLiveBytes ∧ st'.db.chunksOf id = st.db.chunksOf id

theorem SameChunks.refl (st : Store) : SameChunks st st := fun _ d h => ⟨d, h, rfl, rfl, rfl⟩

/-- A change of an entry, other than of its chunks. -/
theorem SameChunks.modify (st : Store) (id : ℕ) {f : Download → Download}
    (hf : ∀ d, (f d).id = d.id ∧ (f d).chunks = d.chunks ∧
      (f d).chunkLiveBytes = d.chunkLiveBytes) : SameChunks st (st.modify id f) := by
  intro id' d' hd'
  rw [Store.get_modify fun d hd => (hf d).1.trans hd] at hd'
  split_ifs at hd'
  · obtain ⟨d, hd, rfl⟩ := Option.map_eq_some_iff.1 hd'
    exact ⟨d, hd, (hf d).2.1, (hf d).2.2, rfl⟩
  · exact ⟨d', hd', rfl, rfl, rfl⟩

theorem SameChunks.tame (st : Store) (id : ℕ) {op : Op} (h : op.tame = true) :
    SameChunks st (op.exec id st) := by
  cases op with
  | dbUpdateStatus => exact fun _ d hd => ⟨d, hd, rfl, rfl, rfl⟩
  | broadcast => exact fun _ d hd => ⟨d, hd, rfl, rfl, rfl⟩
  | _ => cases h

/-- A step that keeps the chunks, and starts no engine. -/
theorem Kept.frame (h : Kept s) (hsame : SameChunks s.store s'.store)
    (hpending : s'.pending = s.pending)
    (hworkers : ∀ k w pc, s'.worker k = some w → w.pc = .engine pc → s.worker k = some w)
    (hruns : ∀ k w pc, s.worker k = some w → w.pc = .engine pc →
      s'.worker k = some w ∨ ∃ rc, pc = .idle rc) :
    ∀ id d, s'.store.get id = some d → KeptAt s' id d := by
  intro id d' hd'
  obtain ⟨d, hd, hchunks, hlive, hrows⟩ := hsame id d' hd'
  refine (h.kept id d hd).frame hchunks hlive ?_ (by rw [Daemon.pendingOf, hpending]; rfl)
    (fun k w pc hw _ hpc => hworkers k w pc hw hpc) fun k w pc hw hid hpc => ?_
  · rw [Store.get_id hd', Store.get_id hd]
    exact hrows
  · exact (hruns k w pc hw hpc).imp_left fun hw' => ⟨k, w, pc, hw', hid, hpc⟩

/-- What a worker does to the chunks of its download once the engine has returned: it
    discards them, or their rows, or keeps both. -/
theorem Backed.exec {st : Store} {d d' : Download} {op : Op} {ps : List ChunkProgressSnapshot}
    (h : Backed false (st.world d) ps) (hd : st.get d.id = some d)
    (hd' : (op.exec d.id st).get d.id = some d') : Backed false ((op.exec d.id st).world d') ps := by
  have hget {f : Download → Download} (hd' : (st.modify d.id f).get d.id = some d')
      (hf : ∀ d, (f d).id = d.id) : d' = f d := by
    rw [Store.get_modify_of_get (fun d hd => (hf d).trans hd) hd] at hd'
    exact (Option.some.inj hd').symm
  have hsame (hd' : st.get d.id = some d') : d' = d := Option.some.inj (hd'.symm.trans hd)
  cases op with
  | finished =>
    obtain rfl := hget hd' fun _ => rfl
    exact .nil rfl h.ahead
  | setRetry =>
    obtain rfl := hget hd' fun _ => rfl
    exact h.congr rfl rfl rfl
  | clearResumeState =>
    obtain rfl := hget hd' fun _ => rfl
    exact .nil rfl h.ahead
  | deleteChunks =>
    obtain rfl := hsame hd'
    have hrows : ((Op.deleteChunks.exec d'.id st).world d').rows = [] := Db.chunksOf_deleteChunks
    refine ⟨h.distinct, h.counts, fun j c r _ hr => ?_, h.pending, fun p r _ hr => ?_⟩ <;>
      rw [hrows] at hr <;> cases hr
  | _ =>
    obtain rfl := hsame hd'
    exact h.congr rfl rfl rfl

/-- An operation changes the chunks and the rows of its own download only. -/
theorem Op.exec_of_ne (st : Store) (op : Op) {id id' : ℕ} (h : id' ≠ id) :
    (op.exec id st).get id' = st.get id' ∧
      (op.exec id st).db.chunksOf id' = st.db.chunksOf id' := by
  cases op with
  | finished => exact ⟨Store.get_modify_of_ne (fun _ h => h) h, rfl⟩
  | setRetry => exact ⟨Store.get_modify_of_ne (fun _ h => h) h, rfl⟩
  | clearResumeState => exact ⟨Store.get_modify_of_ne (fun _ h => h) h, rfl⟩
  | deleteChunks => exact ⟨rfl, Db.chunksOf_exec_of_ne h⟩
  | _ => exact ⟨rfl, rfl⟩

/-- A worker settles its result: the engine does not run on its download any more. -/
theorem Kept.settle {d₀ : Download} {op : Op} {pc' : ThreadPc} (h : Kept s)
    (hw : s.worker k = some w) (hd₀ : s.store.get w.downloadId = some d₀) (howns : w.owns = true)
    (hpc : ∀ pc, w.pc ≠ .engine pc) (hpc' : ∀ pc, pc' ≠ .engine pc)
    (hs' : s' = { s with
      store := op.exec d₀.id s.store.fresh, workers := s.workers.set k (some ⟨w.downloadId, pc'⟩) }) :
    ∀ id d, s'.store.get id = some d → KeptAt s' id d := by
  have hid₀ := Store.get_id hd₀
  have hget₀ : s.store.fresh.get d₀.id = some d₀ := hid₀ ▸ hd₀
  have hpending (id : ℕ) : s'.pendingOf id = s.pendingOf id := by rw [hs']; rfl
  have hworker (k' : ℕ) : s'.worker k' =
      if k' = k then some ⟨w.downloadId, pc'⟩ else s.worker k' :=
    Daemon.worker_set (Daemon.lt_of_worker hw) (by rw [hs'])
  -- The engines that run have been running before.
  have hback (k' : ℕ) (w' : SchedulerWorker) (pc₁ : Pc) (hw' : s'.worker k' = some w')
      (hpc₁ : w'.pc = .engine pc₁) : s.worker k' = some w' := by
    rw [hworker] at hw'
    split_ifs at hw'
    · cases hw'
      exact absurd hpc₁ (hpc' pc₁)
    · exact hw'
  intro id d hd
  by_cases hid : id = d₀.id
  · -- No other engine runs on the download of the worker.
    subst hid
    have hno : ¬s.RunsOn d₀.id := by
      rw [hid₀]
      exact h.owned.not_runs hw howns hpc
    refine ⟨fun k' w' pc₁ hw' hid' hpc₁ => absurd ⟨k', w', pc₁, hback k' w' pc₁ hw' hpc₁, hid', hpc₁⟩
      hno, fun _ => ?_⟩
    rw [hpending]
    subst hs'
    have hrest : Backed false (s.store.fresh.world d₀) (s.pendingOf d₀.id) :=
      (h.kept _ _ hget₀).resting hno
    exact hrest.exec hget₀ hd
  · obtain ⟨hget, hrows⟩ := Op.exec_of_ne s.store.fresh op hid
    have hd' : s.store.get id = some d := by
      rw [hs'] at hd
      exact hget.symm.trans hd
    refine (h.kept id d hd').frame rfl rfl ?_ (hpending id)
      (fun k' w' pc₁ hw' _ hpc₁ => hback k' w' pc₁ hw' hpc₁)
      fun k' w' pc₁ hw' hid' hpc₁ => .inl ⟨k', w', pc₁, ?_, hid', hpc₁⟩
    · rw [hs', Store.get_id hd']
      exact hrows
    · rw [hworker, if_neg]
      · exact hw'
      · rintro rfl
        rw [hw] at hw'
        cases hw'
        exact hpc pc₁ hpc₁

/-! ## Reports -/

theorem mem_queueManagerSnapshotChunkProgress {st : Store} {max : ℕ} {p : ChunkProgressSnapshot}
    (h : p ∈ queueManagerSnapshotChunkProgress st max) :
    ∃ d ∈ st.queue, d.status = .active ∧ p.downloadId = d.id ∧ ∃ j c, d.chunks[j]? = some c ∧
      p.rangeStart = c.rangeStart ∧ p.bytesDone = d.chunkLiveBytes j := by
  obtain ⟨d, hd, hp⟩ := List.mem_flatMap.1 (List.mem_of_mem_take h)
  obtain ⟨hmem, hact⟩ := List.mem_filter.1 hd
  obtain ⟨j, hj⟩ := List.mem_iff_getElem?.1 hp
  rw [List.getElem?_mapIdx] at hj
  obtain ⟨c, hc, rfl⟩ := Option.map_eq_some_iff.1 hj
  exact ⟨d, hmem, by simpa using hact, rfl, j, c, hc, rfl, rfl⟩

/-- What a report reads for one download. -/
theorem Backed.read {t : Bool} {v : World} {ps : List ChunkProgressSnapshot}
    (h : Backed t v []) (hsynced : v.d.synced = true)
    (hps : ∀ p ∈ ps, ∃ j c, v.d.chunks[j]? = some c ∧ p.rangeStart = c.rangeStart ∧
      p.bytesDone = v.d.chunkLiveBytes j) : Backed t v ps ∧ Present v ps := by
  have hle {j : ℕ} {c : DownloadChunk} (hc : v.d.chunks[j]? = some c) :
      c.bytesDone ≤ v.d.chunkLiveBytes j := by
    have := List.all_eq_true.1 hsynced (c, j) (List.mk_mem_zipIdx_iff_getElem?.2 hc)
    simpa using this
  refine ⟨⟨h.distinct, h.counts, h.stored, fun j c p hc hp hs => ?_, fun p r hp hr hs => ?_⟩,
    fun p hp => ?_⟩
  · obtain ⟨j', c', hc', hs', hb⟩ := hps p hp
    have hjj := h.distinct.index_eq hc hc' (hs.symm.trans hs')
    subst hjj
    have hcounts := h.counts j c hc
    rw [hb, Download.backing]
    rw [Download.Counts] at hcounts
    split_ifs at hcounts ⊢
    · exact le_rfl
    · rcases hcounts with heq | hzero
      · exact heq.le
      · exact hzero.le.trans (Nat.zero_le _)
  · obtain ⟨j, c, hc, hs', hb⟩ := hps p hp
    refine (h.stored j c r hc hr (hs.trans hs')).trans ?_
    rw [hb, Download.backing]
    split_ifs
    · exact le_rfl
    · exact hle hc
  · obtain ⟨j, c, hc, hs', -⟩ := hps p hp
    exact ⟨c, List.mem_of_getElem? hc, hs'.symm⟩

/-- What a report stores for one chunk. -/
theorem Backed.store {t : Bool} {v v' : World} {p : ChunkProgressSnapshot}
    {ps : List ChunkProgressSnapshot} (h : Backed t v (p :: ps)) (hd : v'.d = v.d)
    (hkey : ∀ p' ∈ ps, p'.rangeStart ≠ p.rangeStart)
    (hrows : v'.rows = v.rows.map fun r =>
      if r.rangeStart = p.rangeStart then { r with bytesDone := p.bytesDone } else r) :
    Backed t v' ps := by
  have hrow {r : ChunkRow} (hr : r ∈ v'.rows) : ∃ r₀ ∈ v.rows, r.rangeStart = r₀.rangeStart ∧
      (r.rangeStart = p.rangeStart ∧ r.bytesDone = p.bytesDone ∨
        r.rangeStart ≠ p.rangeStart ∧ r.bytesDone = r₀.bytesDone) := by
    rw [hrows] at hr
    obtain ⟨r₀, hr₀, rfl⟩ := List.mem_map.1 hr
    refine ⟨r₀, hr₀, ?_⟩
    split_ifs with hs
    · exact ⟨rfl, .inl ⟨hs, rfl⟩⟩
    · exact ⟨rfl, .inr ⟨hs, rfl⟩⟩
  refine ⟨hd ▸ h.distinct, hd ▸ h.counts, fun j c r hc hr hs => ?_, fun j c p' hc hp' hs => ?_,
    fun p' r hp' hr hs => ?_⟩
  · rw [hd] at hc ⊢
    obtain ⟨r₀, hr₀, hs₀, ⟨hs₁, hb⟩ | ⟨-, hb⟩⟩ := hrow hr <;> rw [hb]
    · exact h.pending j c p hc List.mem_cons_self (hs₁.symm.trans hs)
    · exact h.stored j c r₀ hc hr₀ (hs₀.symm.trans hs)
  · rw [hd] at hc ⊢
    exact h.pending j c p' hc (List.mem_cons_of_mem _ hp') hs
  · obtain ⟨r₀, hr₀, hs₀, ⟨hs₁, -⟩ | ⟨-, hb⟩⟩ := hrow hr
    · exact absurd (hs.symm.trans hs₁) (hkey p' hp')
    · rw [hb]
      exact h.ahead p' r₀ (List.mem_cons_of_mem _ hp') hr₀ (hs₀.symm.trans hs)

/-- The chunks a report reads are told apart by their downloads and starts. -/
theorem nodup_queueManagerSnapshotChunkProgress {st : Store} {max : ℕ}
    (hids : (st.queue.map (·.id)).Nodup) (hd : ∀ d ∈ st.queue, DistinctStarts d.chunks) :
    ((queueManagerSnapshotChunkProgress st max).map fun p => (p.downloadId, p.rangeStart)).Nodup := by
  have hread (d : Download) : (d.chunks.mapIdx fun j c =>
      (⟨d.id, c.rangeStart, d.chunkLiveBytes j⟩ : ChunkProgressSnapshot)).map
        (fun p => (p.downloadId, p.rangeStart)) = d.chunks.map fun c => (d.id, c.rangeStart) := by
    refine List.ext_getElem? fun j => ?_
    rw [List.getElem?_map, List.getElem?_mapIdx, List.getElem?_map, Option.map_map]
    rfl
  rw [queueManagerSnapshotChunkProgress, List.map_take]
  refine List.Nodup.sublist (List.take_sublist _ _) ?_
  rw [List.map_flatMap]
  simp only [hread]
  refine List.nodup_flatMap.2 ⟨fun d hmem => ?_, ?_⟩
  · have := hd d (List.mem_of_mem_filter hmem)
    exact .of_map Prod.snd (by rwa [List.map_map])
  · have hne : st.queue.Pairwise fun d d' => d.id ≠ d'.id := List.pairwise_map.1 hids
    refine (hne.sublist List.filter_sublist).imp fun {d d'} hne => ?_
    rintro ⟨i, b⟩ hi hi'
    obtain ⟨_, -, h⟩ := List.mem_map.1 hi
    obtain ⟨_, -, h'⟩ := List.mem_map.1 hi'
    exact hne ((Prod.mk.inj h).1.trans (Prod.mk.inj h').1.symm)

theorem Daemon.pending_of_pc (h : s.pc = .idle ∨ ∃ id, s.pc = .picked id) : s.pending = [] := by
  rcases h with h | ⟨id, h⟩ <;> rw [Daemon.pending, h]

/-- A report reads the counters: those of the active downloads are synced. -/
theorem Kept.report (h : Kept s) (hpc : s.pc = .idle) (hok : timely s .report = true)
    (hs' : s' = { s with
      store := s.store.fresh
      pc := .reporting (queueManagerSnapshotChunkProgress s.store.fresh reportMax) }) :
    ∀ id d, s'.store.get id = some d → KeptAt s' id d := by
  intro id d hd
  have hd₀ : s.store.get id = some d := by rwa [hs'] at hd
  have hnil : s.pendingOf id = [] := by
    rw [Daemon.pendingOf, Daemon.pending_of_pc (.inl hpc), List.filter_nil]
  have hread : ∀ p ∈ s'.pendingOf id, d.status = .active ∧ ∃ j c, d.chunks[j]? = some c ∧
      p.rangeStart = c.rangeStart ∧ p.bytesDone = d.chunkLiveBytes j := by
    intro p hp
    rw [hs'] at hp
    obtain ⟨hp, hid⟩ := List.mem_filter.1 hp
    obtain ⟨d', hmem, hact, hid', hchunk⟩ := mem_queueManagerSnapshotChunkProgress hp
    have hd' := Store.get_of_mem h.owned.ids hmem
    rw [← hid', of_decide_eq_true hid, hd₀] at hd'
    cases hd'
    exact ⟨hact, hchunk⟩
  have hbacked (t : Bool) (hb : Backed t (s.store.world d) (s.pendingOf id)) :
      Backed t (s.store.world d) (s'.pendingOf id) ∧
        Present (s.store.world d) (s'.pendingOf id) := by
    rw [hnil] at hb
    cases hps : s'.pendingOf id with
    | nil => exact ⟨hb, fun p hp => (by cases hp)⟩
    | cons p ps =>
      rw [hps] at hread
      obtain ⟨hact, -⟩ := hread p List.mem_cons_self
      have hsynced : d.synced = true := by
        have := List.all_eq_true.1 hok d (Store.mem_of_get hd₀)
        simpa [hact] using this
      exact hb.read hsynced fun p hp => (hread p hp).2
  have hkept := h.kept id d hd₀
  have hworker (k : ℕ) : s'.worker k = s.worker k := by rw [hs']; rfl
  have hworld : s'.store.world d = s.store.world d := by rw [hs']; rfl
  refine ⟨fun k w pc hw hid hpc => ?_, fun hno => ?_⟩ <;> rw [hworld]
  · rw [hworker] at hw
    have hcall := hkept.running k w pc hw hid hpc
    obtain ⟨hb, hpresent⟩ := hbacked _ hcall.backed
    exact ⟨hcall.sound, hcall.uncounted, hb, .inr hpresent⟩
  · refine (hbacked false (hkept.resting fun hr => hno ?_)).1
    simpa only [Daemon.RunsOn, hworker] using hr

/-- A report stores the counter of a chunk. -/
theorem Kept.reportRow {r : ChunkProgressSnapshot} {rs : List ChunkProgressSnapshot} (h : Kept s)
    (hpc : s.pc = .reporting (r :: rs))
    (hs' : s' = { s with
      store := s.store.fresh.query (.updateChunkProgress r.downloadId r.rangeStart r.bytesDone)
      pc := .reporting rs }) :
    ∀ id d, s'.store.get id = some d → KeptAt s' id d := by
  intro id d hd
  have hd₀ : s.store.get id = some d := by rwa [hs'] at hd
  have hpending : s.pending = r :: rs := by rw [Daemon.pending, hpc]
  have hpending' : s'.pending = rs := by rw [hs']; rfl
  have hworker (k : ℕ) : s'.worker k = s.worker k := by rw [hs']; rfl
  have hkept := h.kept id d hd₀
  by_cases hid : r.downloadId = id
  · have hps : s.pendingOf id = r :: s'.pendingOf id := by
      rw [Daemon.pendingOf, hpending, Daemon.pendingOf, hpending',
        List.filter_cons_of_pos (by simpa using hid)]
    -- No other snapshot of the report is of the same chunk.
    have hkey : ∀ p ∈ s'.pendingOf id, p.rangeStart ≠ r.rangeStart := by
      intro p hp hs
      obtain ⟨hp, hpid⟩ := List.mem_filter.1 hp
      rw [hpending'] at hp
      have hkeys := h.keys
      rw [hpending, List.map_cons, List.nodup_cons] at hkeys
      refine hkeys.1 (List.mem_map.2 ⟨p, hp, ?_⟩)
      rw [hs, of_decide_eq_true hpid, hid]
    have hrows : (s'.store.world d).rows = (s.store.world d).rows.map fun c =>
        if c.rangeStart = r.rangeStart then { c with bytesDone := r.bytesDone } else c := by
      have hdid : r.downloadId = d.id := hid.trans (Store.get_id hd₀).symm
      rw [hs', hdid]
      exact Db.chunksOf_updateChunkProgress
    have hmono : s'.pendingOf id ⊆ s.pendingOf id := by
      rw [hps]
      exact List.subset_cons_self _ _
    refine ⟨fun k w pc hw hwid hpc => ?_, fun hno => ?_⟩
    · rw [hworker] at hw
      have hcall := hkept.running k w pc hw hwid hpc
      refine ⟨hcall.sound, hcall.uncounted, (hps ▸ hcall.backed).store rfl hkey hrows,
        hcall.present.imp_right fun hpresent p hp => hpresent p (hmono hp)⟩
    · have hb := hkept.resting fun hr => hno (by simpa only [Daemon.RunsOn, hworker] using hr)
      exact (hps ▸ hb).store rfl hkey hrows
  · refine hkept.frame rfl rfl ?_ ?_ (fun k w pc hw _ _ => (hworker k).symm.trans hw)
      fun k w pc hw hwid hpc => .inl ⟨k, w, pc, (hworker k).trans hw, hwid, hpc⟩
    · rw [hs', Store.get_id hd₀]
      exact Db.chunksOf_exec_of_ne (Ne.symm hid)
    · rw [Daemon.pendingOf, hpending', Daemon.pendingOf, hpending,
        List.filter_cons_of_neg (by simpa using hid)]

/-! ## Steps -/

/-- The engine is called where a worker starts, and not again. -/
theorem Daemon.step_call : s.step R (.thread k (.engine .call)) = none := by
  rw [Daemon.step]
  cases s.worker k with
  | none => rfl
  | some w =>
    simp only
    cases s.store.fresh.get w.downloadId with
    | none => rfl
    | some d =>
      cases hpc : w.pc with
      | settling o =>
        obtain ⟨before, status, after⟩ := o
        cases before <;> rfl
      | leaving ops => cases ops <;> rfl
      | _ => rfl

/-- The steps of a worker. -/
theorem Kept.thread {d₀ : Download} {a : ThreadAct} {st : Store} {pc' : ThreadPc} (h : Kept s)
    (hw : s.worker k = some w) (hd₀ : s.store.get w.downloadId = some d₀)
    (hst : ThreadStep R s.cfg s.store.fresh d₀ w.pc a st pc') (ha : a ≠ .engine .call)
    (hok : timely s (.thread k a) = true)
    (hs' : s' = { s with store := st, workers := s.workers.set k (some ⟨w.downloadId, pc'⟩) }) :
    ∀ id d, s'.store.get id = some d → KeptAt s' id d := by
  have hworker (k' : ℕ) : s'.worker k' = if k' = k then some ⟨w.downloadId, pc'⟩ else s.worker k' :=
    Daemon.worker_set (Daemon.lt_of_worker hw) (by rw [hs'])
  have hpending : s'.pending = s.pending := by rw [hs']; rfl
  -- Steps of a worker whose engine has returned.
  have hframe (hsame : SameChunks s.store st) (hpc' : ∀ pc, pc' ≠ .engine pc)
      (hpc : ∀ pc, w.pc = .engine pc → ∃ rc, pc = .idle rc) :
      ∀ id d, s'.store.get id = some d → KeptAt s' id d := by
    refine h.frame (by rwa [hs']) hpending (fun k' w' pc₁ hw' hpc₁ => ?_) fun k' w' pc₁ hw' hpc₁ => ?_
    · rw [hworker] at hw'
      split_ifs at hw'
      · cases hw'
        exact absurd hpc₁ (hpc' pc₁)
      · exact hw'
    · rw [hworker]
      split_ifs with hk
      · subst hk
        rw [hw] at hw'
        cases hw'
        exact .inr (hpc pc₁ hpc₁)
      · exact .inl hw'
  have htame := h.tame k w hw
  generalize hpc : w.pc = pc₀ at hst htame
  cases hst with
  | engine heng => exact h.engine hw hd₀ hpc heng (fun hcall => ha (by rw [hcall])) hok hs'
  | loadCancel =>
    refine hframe (.refl _) (by simp) fun pc₁ hpc₁ => ?_
    rw [hpc] at hpc₁
    cases hpc₁
    exact ⟨_, rfl⟩
  | loadPause => exact hframe (.refl _) (by simp) (by simp [hpc])
  | settle =>
    exact h.settle hw hd₀ (by rw [SchedulerWorker.owns, hpc]) (by simp [hpc]) (by simp) hs'
  | publish => exact hframe (.modify _ _ fun _ => ⟨rfl, rfl, rfl⟩) (by simp) (by simp [hpc])
  | leave => exact hframe (.tame _ _ (htame _ List.mem_cons_self)) (by simp) (by simp [hpc])
  | ended => exact hframe (.refl _) (by simp) (by simp [hpc])

/-- A worker is started for the download picked. -/
theorem Kept.start (h : Kept s) (hpc : s.pc = .picked id) (hk : freeWorker s.workers = some k)
    (hs' : s' = { s with
      store := s.store.fresh, pc := .idle, workers := s.workers.set k (some ⟨id, .engine .entered⟩) }) :
    ∀ id d, s'.store.get id = some d → KeptAt s' id d := by
  have hworker (k' : ℕ) : s'.worker k' =
      if k' = k then some ⟨id, .engine .entered⟩ else s.worker k' :=
    Daemon.worker_set (Daemon.lt_of_free hk) (by rw [hs'])
  have hpending : s'.pending = s.pending := by
    rw [Daemon.pending_of_pc (s := s) (.inr ⟨id, hpc⟩), Daemon.pending_of_pc]
    exact .inl (by rw [hs'])
  have hpendingOf (id' : ℕ) : s'.pendingOf id' = s.pendingOf id' := by
    rw [Daemon.pendingOf, hpending, Daemon.pendingOf]
  have hfree := Daemon.worker_of_free hk
  intro id' d hd
  have hd₀ : s.store.get id' = some d := by rwa [hs'] at hd
  have hkept := h.kept id' d hd₀
  by_cases hid : id' = id
  · -- No engine runs on it yet.
    subst hid
    have hno : ¬s.RunsOn id' := by
      rintro ⟨k', w', pc, hw', hid', hpc'⟩
      exact (h.owned.picked id' hpc).2 k' w' hw' (by rw [SchedulerWorker.owns, hpc']) hid'
    refine ⟨fun k' w' pc hw' hid' hpc' => ?_, fun hno' => absurd ?_ hno'⟩
    · rw [hworker] at hw'
      split_ifs at hw'
      · cases hw'
        cases hpc'
        have hnil : s.pendingOf id' = [] := by
          rw [Daemon.pendingOf, Daemon.pending_of_pc (.inr ⟨id', hpc⟩), List.filter_nil]
        rw [hpendingOf]
        refine ⟨trivial, trivial, (hkept.resting hno).congr rfl rfl ?_, .inr ?_⟩
        · rw [hs']
          rfl
        · rw [hnil]
          exact fun p hp => by cases hp
      · exact absurd ⟨k', w', pc, hw', hid', hpc'⟩ hno
    · exact ⟨k, _, .entered, (hworker k).trans (if_pos rfl), rfl, rfl⟩
  · refine hkept.frame rfl rfl (by rw [hs']; rfl) (hpendingOf id') (fun k' w' pc hw' hid' _ => ?_)
      fun k' w' pc hw' hid' hpc' => .inl ⟨k', w', pc, ?_, hid', hpc'⟩
    · rw [hworker] at hw'
      split_ifs at hw'
      · cases hw'
        exact absurd hid'.symm hid
      · exact hw'
    · rw [hworker, if_neg]
      · exact hw'
      · rintro rfl
        rw [hfree] at hw'
        cases hw'

theorem Daemon.Step.tame (hst : Daemon.Step R s a s')
    (h : ∀ k w, s.worker k = some w → w.pc.Tame) (hw : s'.worker k = some w) : w.pc.Tame := by
  cases hst with
  | thread hw₁ _ hth =>
    rw [Daemon.worker_set (Daemon.lt_of_worker hw₁) rfl] at hw
    split_ifs at hw
    · cases hw
      exact hth.tame (h _ _ hw₁)
    · exact h k w hw
  | tick => exact h k w (Daemon.worker_reap rfl hw)
  | pick => exact h k w (Daemon.worker_reap rfl hw)
  | start _ hk =>
    rw [Daemon.worker_set (Daemon.lt_of_free hk) rfl] at hw
    split_ifs at hw
    · cases hw
      trivial
    · exact h k w hw
  | _ => exact h k w hw

theorem Kept.step (h : Kept s) (hok : timely s a = true) (hst : s.step R a = some s') : Kept s' := by
  have hst' := Daemon.Step.of_eq hst
  have howned := h.owned.step hst'
  have htame : ∀ k w, s'.worker k = some w → w.pc.Tame := fun k w hw => hst'.tame h.tame hw
  have hknown {id : ℕ} (hid : (s.store.get id).isSome) : (s'.store.get id).isSome := by
    rwa [Store.get_isSome, hst'.ids h.owned.sound, ← Store.get_isSome]
  -- Apart from a new report, there is no more to be stored than before.
  have hless (hquiet : s'.pc = .idle ∨ (∃ id, s'.pc = .picked id) ∨ ∃ rs, s'.pc = .reporting rs)
      (hsub : s'.pending.Sublist s.pending)
      (hkept : ∀ id d, s'.store.get id = some d → KeptAt s' id d) : Kept s' :=
    ⟨howned, hquiet, htame, h.keys.sublist (hsub.map _), fun p hp => hknown (h.known p (hsub.subset hp)),
      hkept⟩
  -- A step of the daemon thread that keeps the chunks and the workers that run.
  have hframe (hquiet : s'.pc = .idle ∨ ∃ id, s'.pc = .picked id) (hnil : s.pending = [])
      (hsame : SameChunks s.store s'.store)
      (hworkers : ∀ k w, s'.worker k = some w → s.worker k = some w)
      (hruns : ∀ k w pc, s.worker k = some w → w.pc = .engine pc → s'.worker k = some w) :
      Kept s' := by
    have hpending : s'.pending = s.pending := by rw [Daemon.pending_of_pc hquiet, hnil]
    refine hless (hquiet.imp_right .inl) (by rw [hpending]) ?_
    exact h.frame hsame hpending (fun k w _ hw _ => hworkers k w hw)
      fun k w pc hw hpc => .inl (hruns k w pc hw hpc)
  have hbusy {k : ℕ} {w : SchedulerWorker} {pc : Pc} (hw : s.worker k = some w)
      (hpc : w.pc = .engine pc) (hs' : s'.workers = reapFinishedWorkers s.workers) :
      s'.worker k = some w :=
    Daemon.worker_of_reap hs' hw (by rw [SchedulerWorker.isDone, hpc])
  have hother (hne : (∃ c, s.pc = .handling c) ∨ ∃ ids, s.pc = .stopping ids) : False := by
    rcases h.quiet with hq | ⟨_, hq⟩ | ⟨_, hq⟩ <;> rw [hq] at hne <;> simp at hne
  cases hst' with
  | thread hw hd hth =>
    refine hless h.quiet (.refl _) (h.thread hw hd hth ?_ hok rfl)
    rintro rfl
    rw [Daemon.step_call] at hst
    cases hst
  | request => cases hok
  | tick hpc =>
    exact hframe (.inl rfl) (Daemon.pending_of_pc (.inl hpc)) (.refl _)
      (fun k w hw => Daemon.worker_reap rfl hw) fun k w pc hw hpc => hbusy hw hpc rfl
  | pick hpc =>
    exact hframe (.inr ⟨_, rfl⟩) (Daemon.pending_of_pc (.inl hpc))
      (.modify _ _ fun _ => ⟨rfl, rfl, rfl⟩) (fun k w hw => Daemon.worker_reap rfl hw)
      fun k w pc hw hpc => hbusy hw hpc rfl
  | start hpc hk => exact hless (.inl rfl) (List.nil_sublist _) (h.start hpc hk rfl)
  | startFails hpc =>
    exact hframe (.inl rfl) (Daemon.pending_of_pc (.inr ⟨_, hpc⟩))
      (.modify _ _ fun _ => ⟨rfl, rfl, rfl⟩) (fun k w hw => hw) fun k w pc hw _ => hw
  | report hpc =>
    refine ⟨howned, .inr (.inr ⟨_, rfl⟩), htame, ?_, fun p hp => ?_, h.report hpc hok rfl⟩
    · refine nodup_queueManagerSnapshotChunkProgress h.owned.ids fun d hd => ?_
      have hkept := h.kept d.id d (Store.get_of_mem h.owned.ids hd)
      by_cases hr : s.RunsOn d.id
      · obtain ⟨k, w, pc, hw, hid, hpc⟩ := hr
        exact (hkept.running k w pc hw hid hpc).backed.distinct
      · exact (hkept.resting hr).distinct
    · obtain ⟨d, hd, -, hid, -⟩ := mem_queueManagerSnapshotChunkProgress hp
      exact Store.get_isSome.2 (hid ▸ List.mem_map_of_mem hd)
  | reportRow hpc =>
    refine hless (.inr (.inr ⟨_, rfl⟩)) ?_ (h.reportRow hpc rfl)
    rw [Daemon.pending, Daemon.pending, hpc]
    exact List.sublist_cons_self _ _
  | reported hpc =>
    exact hframe (.inl rfl) (by rw [Daemon.pending, hpc]) (.refl _) (fun k w hw => hw)
      fun k w pc hw _ => hw
  | answer hpc => exact (hother (.inl ⟨_, hpc⟩)).elim
  | finish hpc => exact (hother (.inl ⟨_, hpc⟩)).elim
  | pause hpc => exact (hother (.inl ⟨_, hpc⟩)).elim
  | resume hpc => exact (hother (.inl ⟨_, hpc⟩)).elim
  | locate hpc => exact (hother (.inl ⟨_, hpc⟩)).elim
  | cancel hpc => exact (hother (.inl ⟨_, hpc⟩)).elim
  | stop hpc => exact (hother (.inr ⟨_, hpc⟩)).elim

/-! ## Runs -/

/-- A restored chunk is that of a row. -/
theorem mem_dbLoadChunks {db : Db} {max : ℕ} {c : DownloadChunk} (h : c ∈ dbLoadChunks db id max) :
    ∃ r ∈ db.chunksOf id, r.chunk = c := by
  obtain ⟨r, hr, rfl⟩ := List.mem_map.1 h
  exact ⟨r, (List.perm_insertionSort _ _).mem_iff.1 (List.mem_of_mem_take hr), rfl⟩

theorem distinctStarts_dbLoadChunks {db : Db} {max : ℕ}
    (h : ((db.chunksOf id).map (·.rangeStart)).Nodup) :
    DistinctStarts (dbLoadChunks db id max) := by
  rw [DistinctStarts, dbLoadChunks, List.map_map]
  refine List.Nodup.sublist ((List.take_sublist max _).map _) ?_
  exact ((List.perm_insertionSort _ _).map _).nodup_iff.2 h

theorem Restored.kept (h : Restored s) : Kept s := by
  have hnil : s.pending = [] := Daemon.pending_of_pc (.inl h.atRest.pc)
  refine ⟨h.atRest.ownership, .inl h.atRest.pc, fun k w hw => ?_, ?_, ?_, fun id d hd => ?_⟩
  · rw [h.atRest.worker] at hw
    cases hw
  · rw [hnil]
    exact List.nodup_nil
  · rw [hnil]
    exact fun p hp => by cases hp
  refine ⟨fun k w pc hw => ?_, fun _ => ?_⟩
  · rw [h.atRest.worker] at hw
    cases hw
  -- The counters are zero, and the chunks have the bytes done of their rows.
  have hmem := Store.mem_of_get hd
  rw [h.queue, dbRestoreQueue, List.mem_reverse] at hmem
  obtain ⟨row, -, rfl⟩ := List.mem_map.1 hmem
  rw [Daemon.pendingOf, hnil, List.filter_nil]
  refine ⟨distinctStarts_dbLoadChunks (h.starts row.id), fun j c _ => .inr rfl,
    fun j c r hc hr hs => ?_, fun _ _ _ _ hp => (by cases hp), fun _ _ hp => (by cases hp)⟩
  obtain ⟨r₀, hr₀, rfl⟩ := mem_dbLoadChunks (List.mem_of_getElem? hc)
  have hrr := List.inj_on_of_nodup_map (h.starts row.id) hr hr₀ hs
  exact (congrArg ChunkRow.bytesDone hrr).le

theorem Kept.not_lowers (h : Kept s) : ¬s.Lowers := by
  rintro ⟨p, hp, r, hr, hs, hlt⟩
  have hmem := List.mem_of_mem_head? hp
  obtain ⟨d, hd⟩ := Option.isSome_iff_exists.1 (h.known p hmem)
  have hkept := h.kept p.downloadId d hd
  have hr' : r ∈ (s.store.world d).rows := by
    rw [World.rows]
    exact (Store.get_id hd).symm ▸ hr
  have hp' : p ∈ s.pendingOf p.downloadId := List.mem_filter.2 ⟨hmem, by simp⟩
  refine absurd hlt (not_lt.2 ?_)
  by_cases hruns : s.RunsOn p.downloadId
  · obtain ⟨k, w, pc, hw, hid, hpc⟩ := hruns
    exact (hkept.running k w pc hw hid hpc).backed.ahead p r hp' hr' hs
  · exact (hkept.resting hruns).ahead p r hp' hr' hs

/-- No report lowers what is stored for a chunk, in a run that is timely. -/
theorem not_lowers_of_timely
    (h : Run.Reachable (Daemon.step R) Restored (fun s a => timely s a = true) s) : ¬s.Lowers :=
  Kept.not_lowers (h.invariant (fun _ hs => hs.kept) fun _ _ _ hk hok hst => hk.step hok hst)

/-- A daemon that has just restored a download of four bytes, with two of them done. -/
def restoredDaemon : Daemon :=
  let db := [.updateTotalSize 1 4, .insertChunk 1 0 3, .updateChunkProgress 1 0 2].foldl Db.exec
    oneDownload.store.db
  { oneDownload with store := { oneDownload.store with db := db, queue := dbRestoreQueue db } }

theorem restored_restoredDaemon : Restored restoredDaemon where
  atRest := ⟨by decide, by decide, rfl, rfl, rfl⟩
  queue := rfl
  starts id := List.Nodup.sublist (List.filter_sublist.map _) (by decide +kernel)

/-- The download is resumed, a byte is fetched, and a report stores three bytes. -/
theorem not_lowers_of_timely_resumed :
    ∃ s, Run.Reachable (Daemon.step fun _ _ => 1) Restored (fun s a => timely s a = true) s ∧
      s.pending = [⟨1, 0, 3⟩] ∧ ¬s.Lowers := by
  obtain ⟨s, hs, hp⟩ := Run.exists_reachable_of_exec (Daemon.step fun _ _ => 1) Restored
    (fun s a => timely s a = true) (fun s => s.pending = [⟨1, 0, 3⟩]) restored_restoredDaemon
    (runActs [.check, .head (some ⟨4, true⟩), .plan ⟨⟨false, false⟩, false, false⟩,
      .pool (.spawn true), .pool (.worker 0 (.answer (.partialContent 2))),
      .pool (.worker 0 (.data 1 1))] ++ [.report])
    (by decide +kernel)
  exact ⟨s, hs, hp, not_lowers_of_timely hs⟩

/-- The daemon thread runs, and the workers take no step. -/
def Act.ofDaemon : Act → Bool
  | .thread _ _ | .request _ _ => false
  | _ => true

/-- A report stores a zero over the two bytes done before the worker of the download has
    taken a step: nothing has been cleared or planned. -/
theorem exists_lowers :
    ∃ s, Run.Reachable (Daemon.step fun _ _ => 1) Restored (fun _ a => a.ofDaemon = true) s ∧
      s.Lowers :=
  Run.exists_reachable_of_exec (Daemon.step fun _ _ => 1) Restored (fun _ a => a.ofDaemon = true)
    Daemon.Lowers restored_restoredDaemon [.tick 0, .start true, .report] (by decide +kernel)

end Cdm
