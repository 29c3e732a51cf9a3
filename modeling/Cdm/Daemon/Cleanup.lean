import Cdm.Daemon.Treats

/-!
# What is left of a canceled download

A download is canceled by the handler of a request, if it is not active, and by its worker
otherwise: two sequences of operations, in two modules. Both leave nothing of the transfers
of the download, in memory and in the database, and nothing that happens later brings any of
it back: neither requests, nor reports, nor the work on other downloads, nor a restart.
-/

namespace Cdm.Cleanup

variable {R : CString → ℕ → UInt8} {s t : Store} {id : ℕ} {d : Download}

/-- Whatever is canceled, in memory or in the database, is so in both, and clean. -/
structure Cleaned (s : Store) : Prop where
  rows : ∀ id, (s.get id).isSome → (s.db.row id).isSome
  canceled : ∀ id d, s.get id = some d → d.status = .canceled →
    d.Clean ∧ s.db.status id = some "CANCELED"
  stored : ∀ id r, s.db.row id = some r → r.status = "CANCELED" →
    r.totalSize = 0 ∧ s.db.chunksOf id = [] ∧ ∀ d, s.get id = some d → d.status = .canceled

/-- What happens to every download by itself keeps what is canceled clean. -/
theorem Cleaned.treats (h : Cleaned s) (ht : ∀ id, Treats s t id) : Cleaned t := by
  refine ⟨fun id hd => ?_, fun id d hd hc => ?_, fun id r hr hc => ?_⟩
  · cases ht id with
    | kept hsame =>
      rw [hsame.row]
      exact h.rows id (hsame.get ▸ hd)
    | worked hd₀ _ _ _ _ hrow => exact hrow.row (h.rows id (by rw [hd₀]; rfl))
    | discarded hd₀ _ _ _ _ hrow =>
      obtain ⟨r, hr⟩ := Option.isSome_iff_exists.1 (h.rows id (by rw [hd₀]; rfl))
      rw [hrow r hr]
      rfl
  · cases ht id with
    | kept hsame =>
      rw [Db.status, hsame.row]
      exact h.canceled id d (hsame.get ▸ hd) hc
    | worked _ hd' _ _ hs' =>
      rw [hd'] at hd
      cases hd
      exact absurd hc hs'
    | discarded hd₀ hd' _ _ hclean hrow =>
      rw [hd'] at hd
      cases hd
      obtain ⟨r, hr⟩ := Option.isSome_iff_exists.1 (h.rows id (by rw [hd₀]; rfl))
      rw [Db.status, hrow r hr]
      exact ⟨hclean, rfl⟩
  · cases ht id with
    | kept hsame =>
      rw [hsame.row] at hr
      rw [hsame.chunks, hsame.get]
      exact h.stored id r hr hc
    | @worked d₀ _ hd₀ _ _ hs _ hrow =>
      -- The row was that of a canceled download before, which the download was not.
      have hstatus : t.db.status id = some "CANCELED" := by
        rw [Db.status, hr, Option.map_some, hc]
      rcases hrow.status with heq | hne
      · rw [heq] at hstatus
        obtain ⟨r₀, hr₀, hc₀⟩ := Option.map_eq_some_iff.1 hstatus
        exact absurd ((h.stored id r₀ hr₀ hc₀).2.2 d₀ hd₀) hs
      · exact absurd hstatus hne
    | discarded hd₀ hd' _ hs' _ hrow hchunks =>
      obtain ⟨r₀, hr₀⟩ := Option.isSome_iff_exists.1 (h.rows id (by rw [hd₀]; rfl))
      rw [hrow r₀ hr₀] at hr
      cases hr
      refine ⟨rfl, hchunks, fun d hd => ?_⟩
      rw [hd'] at hd
      cases hd
      exact hs'

theorem canceled_treats (ht : Treats s t id) (hd : s.get id = some d) (hc : d.status = .canceled) :
    ∃ d', t.get id = some d' ∧ d'.status = .canceled := by
  cases ht with
  | kept hsame => exact ⟨d, hsame.get.trans hd, hc⟩
  | worked hd₀ _ _ hs =>
    rw [hd₀] at hd
    cases hd
    exact absurd hc hs
  | discarded _ hd' _ hs' => exact ⟨_, hd', hs'⟩

/-! ## Upkeep -/

theorem Cleaned.of_eq (h : Cleaned s) (hqueue : t.queue = s.queue) (hdb : t.db = s.db) :
    Cleaned t := by
  have hget (id : ℕ) : t.get id = s.get id := by rw [Store.get, hqueue, Store.get]
  refine ⟨fun id => ?_, fun id d => ?_, fun id r => ?_⟩
  · rw [hget, hdb]
    exact h.rows id
  · rw [hget, hdb]
    exact h.canceled id d
  · rw [hget, hdb]
    exact h.stored id r

theorem Cleaned.added {url path : CString} {opts : RequestOptions} (h : Cleaned s)
    (hqueue : t.queue = { newDownload id url path opts with reservedFile := true } :: s.queue)
    (hdb : t.db = s.db.exec (.insertDownload id url path opts true)) : Cleaned t := by
  have hget (id' : ℕ) (hne : id' ≠ id) : t.get id' = s.get id' :=
    Store.get_of_cons_of_ne hqueue hne.symm
  have hself : t.get id = some { newDownload id url path opts with reservedFile := true } := by
    rw [Store.get_of_cons hqueue]
    exact if_pos rfl
  have hrow (id' : ℕ) (hne : id' ≠ id) : t.db.row id' = s.db.row id' := by
    rw [hdb]
    exact Db.row_exec_of_ne hne
  refine ⟨fun id' hd => ?_, fun id' d hd hc => ?_, fun id' r hr hc => ?_⟩ <;>
    by_cases hne : id' = id
  · subst hne
    rw [hdb, Db.row_insertDownload]
    rfl
  · rw [hrow id' hne]
    exact h.rows id' (hget id' hne ▸ hd)
  · subst hne
    rw [hself] at hd
    cases hd
    cases hc
  · rw [Db.status, hrow id' hne]
    exact h.canceled id' d (hget id' hne ▸ hd) hc
  · subst hne
    rw [hdb, Db.row_insertDownload] at hr
    cases hr
    exact absurd hc (by decide : statusToString .queued ≠ "CANCELED")
  · have hchunks : t.db.chunksOf id' = s.db.chunksOf id' := by
      rw [hdb]
      exact Db.chunksOf_exec_of_ne hne
    rw [hchunks, hget id' hne]
    exact h.stored id' r (hrow id' hne ▸ hr) hc

/-- The queue restored has canceled downloads where the rows say so. -/
theorem Cleaned.restore (h : Cleaned s) (hrows : (s.db.downloads.map (·.id)).Nodup) :
    Cleaned s.restore := by
  have hget {id : ℕ} {d : Download} (hd : s.restore.get id = some d) :
      ∃ r, s.db.row id = some r ∧ d = restoreRow s.db r := by
    rw [Store.get_restore hrows] at hd
    obtain ⟨r, hr, rfl⟩ := Option.map_eq_some_iff.1 hd
    exact ⟨r, (Option.filter_eq_some_iff.1 hr).1, rfl⟩
  refine ⟨fun id hd => ?_, fun id d hd hc => ?_, fun id r hr hc => ?_⟩
  · obtain ⟨d, hd⟩ := Option.isSome_iff_exists.1 hd
    obtain ⟨r, hr, -⟩ := hget hd
    rw [Store.restore_db, hr]
    rfl
  · obtain ⟨r, hr, rfl⟩ := hget hd
    have hname := restoredStatus_eq_canceled hc
    obtain ⟨hsize, hchunks, -⟩ := h.stored id r hr hname
    have hid : r.id = id := Db.row_id hr
    refine ⟨⟨?_, hsize, rfl, fun _ => rfl, rfl, rfl⟩, ?_⟩
    · rw [restoreRow, dbLoadChunks, hid, hchunks]
      rfl
    · rw [Store.restore_db, Db.status, hr, Option.map_some, hname]
  · rw [Store.restore_db] at hr ⊢
    obtain ⟨hsize, hchunks, -⟩ := h.stored id r hr hc
    refine ⟨hsize, hchunks, fun d hd => ?_⟩
    obtain ⟨r', hr', rfl⟩ := hget hd
    rw [hr] at hr'
    cases hr'
    exact (congrArg restoredStatus hc).trans (by decide)

theorem canceled_restore (h : Cleaned s) (hrows : (s.db.downloads.map (·.id)).Nodup)
    (hd : s.get id = some d) (hc : d.status = .canceled) :
    ∃ d', s.restore.get id = some d' ∧ d'.status = .canceled := by
  obtain ⟨r, hr, hname⟩ := Option.map_eq_some_iff.1 (h.canceled id d hd hc).2
  refine ⟨restoreRow s.db r, ?_, ?_⟩
  · rw [Store.get_restore hrows, hr, Option.filter_some, if_pos (by simp [hname])]
    rfl
  · exact (congrArg restoredStatus hname).trans (by decide)

/-! ## Runs -/

structure Inv (s : Daemon) : Prop where
  managed : Managed s
  cleaned : Cleaned s.store

variable {s s' : Daemon}

/-- Nothing that happens later makes a canceled download anything else. -/
theorem Inv.attend {a : Duty} (h : Inv s) (hst : s.attend R a = some s') :
    Inv s' ∧ ∀ id d, s.store.get id = some d → d.status = .canceled →
      ∃ d', s'.store.get id = some d' ∧ d'.status = .canceled := by
  cases a with
  | task t =>
    have ht := Daemon.treats h.managed hst
    exact ⟨⟨h.managed.perform hst, h.cleaned.treats ht⟩,
      fun id d hd hc => canceled_treats (ht id) hd hc⟩
  | upkeep u =>
    have hu := Daemon.Upkept.of_eq h.managed.numbered.positive hst
    have hm := h.managed.upkept hu
    cases hu with
    | @added _ url dest opts st id' _ _ _ hid hres =>
      obtain ⟨path, -, -, hle, -, hqueue, -, hdb⟩ := hres.added hid
      have hfresh : Cleaned s.store.fresh := h.cleaned.of_eq rfl rfl
      refine ⟨⟨hm, hfresh.added hqueue hdb⟩, fun id d hd hc => ⟨d, ?_, hc⟩⟩
      have hlt : id < s.store.nextId := h.managed.numbered.lt_of_get (by rw [hd]; rfl)
      have hne : id' ≠ id := fun heq => absurd (show s.store.nextId ≤ id' from hle) (by omega)
      exact (Store.get_of_cons_of_ne hqueue hne).trans hd
    | refused _ _ hres =>
      obtain ⟨hqueue, -, hdb⟩ := hres.refused rfl
      refine ⟨⟨hm, h.cleaned.of_eq hqueue hdb⟩, fun id d hd hc => ⟨d, ?_, hc⟩⟩
      rw [Store.get, hqueue]
      exact hd
    | settled => exact ⟨⟨hm, h.cleaned.of_eq rfl rfl⟩, fun id d hd hc => ⟨d, hd, hc⟩⟩
    | stopping => exact ⟨⟨hm, h.cleaned.of_eq rfl rfl⟩, fun id d hd hc => ⟨d, hd, hc⟩⟩
    | restarted =>
      have hrows := h.managed.numbered.rows
      exact ⟨⟨hm, h.cleaned.restore hrows⟩, fun id d hd hc => canceled_restore h.cleaned hrows hd hc⟩

theorem Inv.of_firstStart (h : FirstStart s) : Inv s := by
  refine ⟨.of_firstStart h, fun id hd => ?_, fun id d hd => ?_, fun id r hr => ?_⟩
  · rw [h.get] at hd
    cases hd
  · rw [h.get] at hd
    cases hd
  · rw [h.row] at hr
    cases hr

/-- The daemons in service, from an empty database on. -/
abbrev Reached (R : CString → ℕ → UInt8) : Daemon → Prop :=
  Run.Reachable (Daemon.attend R) FirstStart fun _ _ => True

/-- In every run, a canceled download is clean, in memory and in the database, and stays
    canceled. -/
theorem canceled_clean_final (hs : Reached R s) (hd : s.store.get id = some d)
    (hc : d.status = .canceled) :
    d.Clean ∧ s.store.db.chunksOf id = [] ∧
      (∃ r, s.store.db.row id = some r ∧ r.totalSize = 0 ∧ r.status = "CANCELED") ∧
      ∀ s', Run.Reachable (Daemon.attend R) (· = s) (fun _ _ => True) s' →
        queueManagerGetStatus s'.store id = some .canceled := by
  have hinv : Inv s :=
    hs.invariant (fun _ => Inv.of_firstStart) fun _ _ _ h _ hst => (h.attend hst).1
  obtain ⟨hclean, hstatus⟩ := hinv.cleaned.canceled id d hd hc
  obtain ⟨r, hr, hname⟩ := Option.map_eq_some_iff.1 hstatus
  obtain ⟨hsize, hchunks, -⟩ := hinv.cleaned.stored id r hr hname
  refine ⟨hclean, hchunks, ⟨r, hr, hsize, hname⟩, fun s' hs' => ?_⟩
  have hrun : Inv s' ∧ ∃ d', s'.store.get id = some d' ∧ d'.status = .canceled := by
    refine hs'.invariant (I := fun s' => Inv s' ∧ ∃ d', s'.store.get id = some d' ∧
      d'.status = .canceled) (fun t ht => ?_) fun t a t' h _ hst => ?_
    · subst ht
      exact ⟨hinv, d, hd, hc⟩
    · obtain ⟨hinv, d', hd', hc'⟩ := h
      obtain ⟨hinv', hkeep⟩ := hinv.attend hst
      exact ⟨hinv', hkeep id d' hd' hc'⟩
  obtain ⟨-, d', hd', hc'⟩ := hrun
  rw [queueManagerGetStatus, hd', Option.map_some, hc']

/-- A download is canceled while its worker is about to transfer it, and the daemon restarted
    afterwards. -/
theorem canceled_clean_final_active :
    ∃ s d, Reached (fun _ _ => 1) s ∧ s.store.get 1 = some d ∧ d.status = .canceled ∧ d.Clean ∧
      s.store.db.chunksOf 1 = [] ∧
      (∃ r, s.store.db.row 1 = some r ∧ r.totalSize = 0 ∧ r.status = "CANCELED") ∧
      ∀ s', Run.Reachable (Daemon.attend fun _ _ => 1) (· = s) (fun _ _ => True) s' →
        queueManagerGetStatus s'.store 1 = some .canceled := by
  obtain ⟨s, hs, d, hd, hc⟩ := reachable_of_attend (fun _ _ => 1) (fun _ _ => True)
    (fun s => ∃ d ∈ s.store.get 1, d.status = .canceled)
    [.upkeep (addFile "/d/f"), .task (.tick 0 true), .task (.engine 0 .check),
      .task (.engine 0 (.head (some ⟨4, false⟩))),
      .task (.engine 0 (.plan ⟨⟨false, false⟩, false, false⟩)), .task .report,
      .task (.request .cancel 1), .task (.engine 0 (.pool (.spawn true))),
      .task (.engine 0 (.pool (.worker 0 .initFails))), .task (.engine 0 .join),
      .task (.engine 0 .flush), .task (.engine 0 (.decide false)), .task (.finish 0 0),
      .upkeep (.restart ⟨3, 1, 2, 60⟩)] (by decide +kernel)
  exact ⟨s, d, hs, hd, hc, canceled_clean_final hs hd hc⟩

end Cdm.Cleanup
