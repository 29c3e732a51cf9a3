import Cdm.Lib.Run
import Cdm.Platform.IpcSocket
import Cdm.Persistence.Sqlite

/-!
# Identifiers

The identifiers of the downloads over any number of starts of the daemon: the counter of
`core/queue_manager.c`, which has 32 bits, the tables, in which an identifier is an `int`,
and `reserve_download`, one operation a step, with whatever other threads do in between.

The counter is set again when the daemon starts, from the downloads that are restored, those
that are done left out, and from the largest identifier in the table. The files, which
decide whether an attempt to reserve a download fails, are not followed, and the queries of
the start succeed. How many identifiers were `issued` is recorded beside the state.

* `RegistryInv`: the counter is above all identifiers in use, as long as it has not come
  near the end of an `int`;
* `reserve_fresh`: an identifier that is returned is that of no other download.
-/

namespace Cdm

/-- The largest identifier in the table, `0` if it is empty. -/
def Sqlite.dbGetMaxId (t : Sqlite) : ℕ :=
  match (t.downloads.map (·.id)).max? with
  | none => 0
  | some id => columnInt id

/-- Where `reserve_download` is in an attempt. -/
inductive ReservePc
  | idle
  /-- There is an entry in the queue. -/
  | added (id : ℕ) (url dest : CString) (opts : RequestOptions)
  /-- Its path is claimed. -/
  | claimed (id : ℕ) (url dest : CString) (opts : RequestOptions)
  /-- The attempt has failed, and its entry is to be removed. -/
  | failed (id : ℕ)
  deriving DecidableEq

structure Registry where
  /-- `g_next_id`, of 32 bits. -/
  nextId : ℕ
  queue : List Download
  tables : Sqlite
  pc : ReservePc
  issued : ℕ

inductive RegistryAct
  | add (url dest : CString) (opts : RequestOptions)
  | claim (ok : Bool)
  | insert (ok : Bool)
  | remove
  /-- Another statement, of any thread. -/
  | call (c : DbCall)
  /-- An entry is changed, but for its identifier. -/
  | change (id : ℕ) (f : Download → Download)
  /-- The daemon is started again. -/
  | restart

namespace Registry

variable (s : Registry)

/-- Taking the next identifier. -/
def queueManagerAdd (url dest : CString) (opts : RequestOptions) : Registry :=
  { s with
    queue := newDownload s.nextId url dest opts :: s.queue
    nextId := (s.nextId + 1) % 2 ^ 32
    issued := s.issued + 1
    pc := if s.nextId = 0 then .idle else .added s.nextId url dest opts }

def queueManagerAddExisting (d : Download) : Registry :=
  { s with
    queue := d :: s.queue
    nextId := if s.nextId ≤ d.id then (d.id + 1) % 2 ^ 32 else s.nextId }

def queueManagerSeedNextId (minNextId : ℕ) : Registry :=
  { s with nextId := if s.nextId < minNextId then minNextId else s.nextId }

def modify (id : ℕ) (f : Download → Download) : Registry :=
  { s with queue := s.queue.modifyFirst (·.id = id) fun d => { f d with id := d.id } }

/-- An active download stays, and is asked to cancel. -/
def queueManagerRemove (id : ℕ) : Registry :=
  match s.queue.find? (·.id = id) with
  | none => s
  | some d =>
    if d.status = .active then s.modify id fun d => { d with cancelRequested := true }
    else { s with queue := s.queue.eraseP (·.id = id) }

/-- The start of the daemon: an empty queue, the downloads restored, and the counter above
    all rows. -/
def start : Registry :=
  let restored := s.tables.dbRestoreQueue.reverse.foldl queueManagerAddExisting
    { s with queue := [], nextId := 1, pc := .idle }
  restored.queueManagerSeedNextId ((s.tables.dbGetMaxId + 1) % 2 ^ 32)

def step : RegistryAct → Option Registry
  | .add url dest opts =>
    match s.pc with
    | .idle => some (s.queueManagerAdd url dest opts)
    | _ => none
  | .claim ok =>
    match s.pc with
    | .added id url dest opts =>
      some (if ok then
          { s.modify id fun d => { d with reservedFile := true } with
            pc := .claimed id url dest opts }
        else { s with pc := .failed id })
    | _ => none
  | .insert ok =>
    match s.pc with
    | .claimed id url dest opts =>
      some (if ok then
          { s with
            tables := s.tables.dbInsertReservedDownload id url dest (some opts)
            pc := .idle }
        else { s with pc := .failed id })
    | _ => none
  | .remove =>
    match s.pc with
    | .failed id => some { s.queueManagerRemove id with pc := .idle }
    | _ => none
  | .call c =>
    match c with
    | .insertDownload .. | .insertReservedDownload .. => none
    | c => some { s with tables := c.run s.tables }
  | .change id f => some (s.modify id f)
  | .restart => some s.start

/-- Nothing was ever added. -/
def IsInit : Prop :=
  s.nextId = 1 ∧ s.queue = [] ∧ s.tables.downloads = [] ∧ s.tables.chunks = [] ∧ s.pc = .idle ∧
    s.issued = 0

end Registry

/-- The identifier an attempt to reserve a download has taken. -/
def ReservePc.id? : ReservePc → Option ℕ
  | .idle => none
  | .added id _ _ _ | .claimed id _ _ _ | .failed id => some id

/-! ## The invariant -/

structure RegistryInv (s : Registry) : Prop where
  pos : 0 < s.nextId
  le : s.nextId ≤ s.issued + 1
  queue_lt : ∀ d ∈ s.queue, d.id < s.nextId
  queue : (s.queue.map (·.id)).Nodup
  row_lt : ∀ r ∈ s.tables.downloads, ∃ n < s.nextId, r.id = (n : ℤ)
  rows : (s.tables.downloads.map (·.id)).Nodup
  chunks : ∀ c ∈ s.tables.chunks, c.downloadId ∈ s.tables.downloads.map (·.id)
  pc_lt : ∀ id ∈ s.pc.id?, 0 < id ∧ id < s.nextId
  /-- What is being reserved has no row yet. -/
  pc_row : ∀ id ∈ s.pc.id?, ∀ r ∈ s.tables.downloads, r.id ≠ (id : ℤ)

/-- The largest identifier is that of a row, and no row has a larger one. -/
theorem dbGetMaxId_spec {t : Sqlite} {n : ℕ} (hn : n ≤ 2 ^ 31)
    (h : ∀ r ∈ t.downloads, ∃ m < n, r.id = (m : ℤ)) :
    (t.dbGetMaxId = 0 ∨ t.dbGetMaxId < n) ∧
      ∀ r ∈ t.downloads, ∃ m ≤ t.dbGetMaxId, r.id = (m : ℤ) := by
  rw [Sqlite.dbGetMaxId]
  split
  · rename_i hmax
    rw [List.max?_eq_none_iff, List.map_eq_nil_iff] at hmax
    simp [hmax]
  · rename_i id hmax
    rw [List.max?_eq_some_iff] at hmax
    obtain ⟨hmem, hle⟩ := hmax
    obtain ⟨r, hr, rfl⟩ := List.mem_map.1 hmem
    obtain ⟨m, hm, hid⟩ := h r hr
    rw [hid, columnInt_natCast (by omega)]
    refine ⟨.inr hm, fun r' hr' => ?_⟩
    obtain ⟨m', -, hid'⟩ := h r' hr'
    have := hle _ (List.mem_map_of_mem hr')
    exact ⟨m', by omega, hid'⟩

namespace RegistryInv

variable {s s' : Registry}

/-- The other threads, which change neither identifiers nor the counter. -/
theorem of_ids (h : RegistryInv s) (hnext : s'.nextId = s.nextId) (hissued : s'.issued = s.issued)
    (hqueue : s'.queue.map (·.id) = s.queue.map (·.id))
    (hrows : s'.tables.downloads.map (·.id) = s.tables.downloads.map (·.id))
    (hchunks : ∀ c ∈ s'.tables.chunks, c.downloadId ∈ s.tables.downloads.map (·.id))
    (hpc : ∀ id ∈ s'.pc.id?, id ∈ s.pc.id?) : RegistryInv s' := by
  have hmem {r : DownloadCols} (hr : r ∈ s'.tables.downloads) :
      ∃ r₀ ∈ s.tables.downloads, r₀.id = r.id := by
    have := List.mem_map_of_mem (f := (·.id)) hr
    rw [hrows] at this
    obtain ⟨r₀, hr₀, hid⟩ := List.mem_map.1 this
    exact ⟨r₀, hr₀, hid⟩
  refine ⟨hnext ▸ h.pos, hnext ▸ hissued ▸ h.le, fun d hd => ?_, hqueue ▸ h.queue, fun r hr => ?_,
    hrows ▸ h.rows, hrows ▸ hchunks, fun id hid => hnext ▸ h.pc_lt id (hpc id hid), fun id hid r hr => ?_⟩
  · have := List.mem_map_of_mem (f := (·.id)) hd
    rw [hqueue] at this
    obtain ⟨d₀, hd₀, hid⟩ := List.mem_map.1 this
    rw [← hid, hnext]
    exact h.queue_lt d₀ hd₀
  · obtain ⟨r₀, hr₀, hid⟩ := hmem hr
    rw [← hid, hnext]
    exact h.row_lt r₀ hr₀
  · obtain ⟨r₀, hr₀, hid'⟩ := hmem hr
    rw [← hid']
    exact h.pc_row id (hpc id hid) r₀ hr₀

theorem ids_modify (s : Registry) (id : ℕ) (f : Download → Download) :
    (s.modify id f).queue.map (·.id) = s.queue.map (·.id) :=
  List.map_modifyFirst fun _ _ => rfl

theorem add (h : RegistryInv s) (hlt : s.nextId < 2 ^ 31) (url dest : CString)
    (opts : RequestOptions) : RegistryInv (s.queueManagerAdd url dest opts) := by
  have hpos := h.pos
  have hnext : (s.nextId + 1) % 2 ^ 32 = s.nextId + 1 := Nat.mod_eq_of_lt (by omega)
  have hnew : (s.queueManagerAdd url dest opts).nextId = s.nextId + 1 := hnext
  have hpc : (s.queueManagerAdd url dest opts).pc = .added s.nextId url dest opts :=
    if_neg hpos.ne'
  refine ⟨by omega, ?_, fun d hd => ?_, ?_, fun r hr => ?_, h.rows, h.chunks,
    fun id hid => ?_, fun id hid r hr => ?_⟩
  · change _ ≤ s.issued + 1 + 1
    have := h.le
    omega
  · rw [hnew]
    rcases List.mem_cons.1 hd with rfl | hd
    · exact Nat.lt_succ_self _
    · exact Nat.lt_succ_of_lt (h.queue_lt d hd)
  · refine List.nodup_cons.2 ⟨fun hmem => ?_, h.queue⟩
    obtain ⟨d, hd, hid⟩ := List.mem_map.1 hmem
    exact (h.queue_lt d hd).ne hid
  · obtain ⟨n, hn, hid⟩ := h.row_lt r hr
    exact ⟨n, by omega, hid⟩
  · rw [hpc] at hid
    cases hid
    omega
  · rw [hpc] at hid
    cases hid
    obtain ⟨n, hn, hid⟩ := h.row_lt r hr
    rw [hid]
    exact_mod_cast hn.ne

theorem insert (h : RegistryInv s) (hle : s.nextId ≤ 2 ^ 31) {id : ℕ} {url dest : CString}
    {opts : RequestOptions} (hpc : s.pc = .claimed id url dest opts) :
    (s.tables.dbInsertReservedDownload id url dest (some opts)).downloads.map (·.id) =
        s.tables.downloads.map (·.id) ++ [(id : ℤ)] ∧
      RegistryInv { s with
        tables := s.tables.dbInsertReservedDownload id url dest (some opts)
        pc := .idle } := by
  obtain ⟨hpos, hlt⟩ := h.pc_lt id (by rw [hpc]; rfl)
  have hnot := h.pc_row id (by rw [hpc]; rfl)
  have hids : (s.tables.dbInsertReservedDownload id url dest (some opts)).downloads.map (·.id) =
      s.tables.downloads.map (·.id) ++ [(id : ℤ)] := by
    rw [Sqlite.dbInsertReservedDownload, Sqlite.insertDownload, bindInt_of_lt (by omega),
      List.map_append, List.filter_eq_self.2 fun r hr => by simpa using hnot r hr]
    rfl
  refine ⟨hids, h.pos, h.le, h.queue_lt, h.queue, fun r hr => ?_, ?_, fun c hc => ?_,
    by simp [ReservePc.id?], by simp [ReservePc.id?]⟩
  · have := List.mem_map_of_mem (f := (·.id)) hr
    rw [hids, List.mem_append, List.mem_singleton] at this
    rcases this with hmem | hid
    · obtain ⟨r₀, hr₀, hid⟩ := List.mem_map.1 hmem
      rw [← hid]
      exact h.row_lt r₀ hr₀
    · exact ⟨id, hlt, hid⟩
  · refine hids ▸ List.nodup_append.2 ⟨h.rows, by simp, fun x hx y hy => ?_⟩
    obtain ⟨r, hr, rfl⟩ := List.mem_map.1 hx
    rw [List.mem_singleton.1 hy]
    exact hnot r hr
  · exact hids ▸ List.mem_append_left _ (h.chunks c (List.mem_of_mem_filter hc))

theorem remove (h : RegistryInv s) (id : ℕ) :
    RegistryInv { s.queueManagerRemove id with pc := .idle } := by
  have hidle : RegistryInv { s with pc := .idle } :=
    h.of_ids rfl rfl rfl rfl h.chunks (by simp [ReservePc.id?])
  rw [Registry.queueManagerRemove]
  split
  · exact hidle
  · split_ifs
    · exact h.of_ids rfl rfl (ids_modify s id _) rfl h.chunks (by simp [ReservePc.id?])
    · have hsub : (s.queue.eraseP (·.id = id)).Sublist s.queue := List.eraseP_sublist
      exact ⟨h.pos, h.le, fun d hd => h.queue_lt d (hsub.subset hd), h.queue.sublist (hsub.map _),
        h.row_lt, h.rows, h.chunks, hidle.pc_lt, hidle.pc_row⟩

/-- Statements that insert no download keep the identifiers of the rows. -/
theorem call (h : RegistryInv s) {c : DbCall} (hs : s.step (.call c) = some s') :
    RegistryInv s' := by
  have hupdate (id : ℕ) {f : DownloadCols → DownloadCols} (hf : ∀ r, (f r).id = r.id) :
      (s.tables.updateDownload id f).downloads.map (·.id) = s.tables.downloads.map (·.id) := by
    rw [Sqlite.updateDownload, List.map_map]
    refine List.map_congr_left fun r _ => ?_
    rw [Function.comp_apply, apply_ite DownloadCols.id, hf, ite_self]
  have hchunk (id start : ℕ) {f : ChunkCols → ChunkCols}
      (hf : ∀ c, (f c).downloadId = c.downloadId) :
      ∀ c ∈ (s.tables.updateChunk id start f).chunks,
        c.downloadId ∈ s.tables.downloads.map (·.id) := by
    intro c hc
    obtain ⟨c₀, hc₀, rfl⟩ := List.mem_map.1 hc
    have := h.chunks c₀ hc₀
    split_ifs
    · rwa [hf]
    · exact this
  cases c with
  | insertDownload => cases hs
  | insertReservedDownload => cases hs
  | updateStatus id status =>
    cases hs
    exact h.of_ids rfl rfl rfl (hupdate id fun _ => rfl) h.chunks fun _ hid => hid
  | updateTotalSize id n =>
    cases hs
    exact h.of_ids rfl rfl rfl (hupdate id fun _ => rfl) h.chunks fun _ hid => hid
  | insertChunk id a b =>
    cases hs
    rw [DbCall.run, Sqlite.dbInsertChunk]
    split_ifs with hrow
    · refine h.of_ids rfl rfl rfl rfl (fun c hc => ?_) fun _ hid => hid
      rcases List.mem_append.1 hc with hc | hc
      · exact h.chunks c hc
      · -- The foreign key: a chunk is inserted only for a row that is there.
        obtain ⟨r, hr, hid⟩ := List.any_eq_true.1 hrow
        rw [List.mem_singleton.1 hc]
        exact List.mem_map.2 ⟨r, hr, by simpa using hid⟩
    · exact h
  | updateChunkProgress id a n =>
    cases hs
    exact h.of_ids rfl rfl rfl rfl (hchunk id a fun _ => rfl) fun _ hid => hid
  | updateChunkRange id a b =>
    cases hs
    exact h.of_ids rfl rfl rfl rfl (hchunk id a fun _ => rfl) fun _ hid => hid
  | deleteChunks id =>
    cases hs
    exact h.of_ids rfl rfl rfl rfl (fun c hc => h.chunks c (List.mem_of_mem_filter hc))
      fun _ hid => hid

/-! ## The start of the daemon -/

/-- Restoring downloads whose identifiers are below a bound leaves the counter below it, or
    as it was, and above all of them. -/
theorem restored {l : List Download} {n : ℕ} (hn : n ≤ 2 ^ 31) (hl : ∀ d ∈ l, d.id < n)
    (s : Registry) :
    let s' := l.foldl Registry.queueManagerAddExisting s
    s'.queue = l.reverse ++ s.queue ∧ s'.tables = s.tables ∧ s'.issued = s.issued ∧
      s'.pc = s.pc ∧ s.nextId ≤ s'.nextId ∧ s'.nextId ≤ max s.nextId n ∧
      ∀ d ∈ l, d.id < s'.nextId := by
  induction l generalizing s with
  | nil => simp
  | cons d l ih =>
    have hd := hl d List.mem_cons_self
    have hwrap : (d.id + 1) % 2 ^ 32 = d.id + 1 := Nat.mod_eq_of_lt (by omega)
    obtain ⟨hqueue, htables, hissued, hpc, hge, hle, hlt⟩ :=
      ih (fun d hd => hl d (List.mem_cons_of_mem _ hd)) (s.queueManagerAddExisting d)
    have hnext : s.nextId ≤ (s.queueManagerAddExisting d).nextId ∧
        (s.queueManagerAddExisting d).nextId ≤ max s.nextId n ∧
        d.id < (s.queueManagerAddExisting d).nextId := by
      simp only [Registry.queueManagerAddExisting, hwrap]
      split_ifs <;> omega
    refine ⟨?_, htables, hissued, hpc, hnext.1.trans hge, by rw [List.foldl_cons]; omega,
      fun e he => ?_⟩
    · rw [List.foldl_cons, hqueue]
      simp [Registry.queueManagerAddExisting]
    · rcases List.mem_cons.1 he with rfl | he
      · exact hnext.2.2.trans_le hge
      · exact hlt e he

theorem start (h : RegistryInv s) (hle : s.nextId ≤ 2 ^ 31) : RegistryInv s.start := by
  have hpos := h.pos
  have hrow {r : DownloadCols} (hr : r ∈ s.tables.downloads) :
      ((s.tables.restoreRow r).id : ℤ) = r.id ∧ (s.tables.restoreRow r).id < s.nextId := by
    obtain ⟨n, hn, hid⟩ := h.row_lt r hr
    have : (s.tables.restoreRow r).id = n := by
      change columnInt r.id = n
      rw [hid, columnInt_natCast (by omega)]
    rw [this, hid]
    exact ⟨rfl, hn⟩
  have hmem : ∀ d ∈ s.tables.dbRestoreQueue.reverse, d.id < s.nextId := fun d hd => by
    rw [Sqlite.dbRestoreQueue, List.reverse_reverse] at hd
    obtain ⟨r, hr, rfl⟩ := List.mem_map.1 hd
    exact (hrow (List.mem_of_mem_filter hr)).2
  obtain ⟨hqueue, htables, hissued, hpc, hge, hnext, hlt⟩ := restored hle hmem
    { s with queue := [], nextId := 1, pc := .idle }
  obtain ⟨hmax, hrows⟩ := dbGetMaxId_spec hle h.row_lt
  -- The counter is above the downloads restored, and above all rows.
  generalize hs' : s.tables.dbRestoreQueue.reverse.foldl Registry.queueManagerAddExisting
    { s with queue := [], nextId := 1, pc := .idle } = t at *
  simp only at hge hnext
  have hwrap : (s.tables.dbGetMaxId + 1) % 2 ^ 32 = s.tables.dbGetMaxId + 1 :=
    Nat.mod_eq_of_lt (by omega)
  have hstart : s.start =
      { t with nextId := if t.nextId < s.tables.dbGetMaxId + 1 then s.tables.dbGetMaxId + 1
          else t.nextId } := by
    rw [Registry.start, hs', Registry.queueManagerSeedNextId, hwrap]
  have hseed : t.nextId ≤ s.start.nextId ∧ s.tables.dbGetMaxId < s.start.nextId ∧
      s.start.nextId ≤ s.nextId := by
    rw [hstart]
    simp only
    split_ifs <;> omega
  have hqueue' : s.start.queue = s.tables.dbRestoreQueue := by
    rw [hstart]
    simpa using hqueue
  have htables' : s.start.tables = s.tables := by rw [hstart]; exact htables
  have hpc' : s.start.pc = .idle := by rw [hstart]; exact hpc
  refine ⟨by omega, ?_, fun d hd => ?_, ?_, fun r hr => ?_, htables' ▸ h.rows,
    htables' ▸ h.chunks, by simp [hpc', ReservePc.id?], by simp [hpc', ReservePc.id?]⟩
  · have : s.start.issued = s.issued := by rw [hstart]; exact hissued
    have := h.le
    omega
  · rw [hqueue'] at hd
    exact (hlt d (List.mem_reverse.2 hd)).trans_le hseed.1
  · -- The restored downloads have the identifiers of their rows.
    rw [hqueue', Sqlite.dbRestoreQueue, List.map_reverse, List.nodup_reverse, List.map_map]
    refine List.Nodup.of_map (Nat.cast : ℕ → ℤ) ?_
    have hids : ((s.tables.downloads.filter (·.status ≠ "DONE")).map
        ((·.id) ∘ s.tables.restoreRow)).map (Nat.cast : ℕ → ℤ) =
          (s.tables.downloads.filter (·.status ≠ "DONE")).map (·.id) := by
      rw [List.map_map]
      exact List.map_congr_left fun r hr => (hrow (List.mem_of_mem_filter hr)).1
    rw [hids]
    exact h.rows.sublist (List.filter_sublist.map _)
  · obtain ⟨m, hm, hid⟩ := hrows r (htables' ▸ hr)
    exact ⟨m, by omega, hid⟩

theorem of_isInit (h : s.IsInit) : RegistryInv s := by
  obtain ⟨hnext, hqueue, hrows, hchunks, hpc, hissued⟩ := h
  constructor <;> simp [hnext, hqueue, hrows, hchunks, hpc, hissued, ReservePc.id?]

theorem issued_start (s : Registry) : s.start.issued = s.issued := by
  rw [Registry.start, Registry.queueManagerSeedNextId]
  generalize s.tables.dbRestoreQueue.reverse = l
  have hfold (t : Registry) :
      (l.foldl Registry.queueManagerAddExisting t).issued = t.issued := by
    induction l generalizing t with
    | nil => rfl
    | cons d l ih => exact ih _
  exact hfold _

theorem step (h : s.issued ≤ 2 ^ 31 - 1 → RegistryInv s) {a : RegistryAct}
    (hs : s.step a = some s') (hissued : s'.issued ≤ 2 ^ 31 - 1) : RegistryInv s' := by
  cases a with
  | add url dest opts =>
    rw [Registry.step] at hs
    split at hs <;> cases hs
    change s.issued + 1 ≤ _ at hissued
    have hinv := h (by omega)
    have := hinv.le
    exact hinv.add (by omega) url dest opts
  | claim ok =>
    rw [Registry.step] at hs
    split at hs <;> cases hs
    rename_i id url dest opts hpc
    cases ok with
    | true =>
      -- The entry is given its path.
      exact (h hissued).of_ids rfl rfl (ids_modify s id _) rfl (h hissued).chunks
        fun id' hid => by
          rw [hpc]
          exact hid
    | false =>
      exact (h hissued).of_ids rfl rfl rfl rfl (h hissued).chunks fun id' hid => by
        rw [hpc]
        exact hid
  | insert ok =>
    rw [Registry.step] at hs
    split at hs <;> cases hs
    rename_i id url dest opts hpc
    cases ok with
    | true =>
      have hinv := h hissued
      have := hinv.le
      change s.issued ≤ _ at hissued
      exact (hinv.insert (by omega) hpc).2
    | false =>
      exact (h hissued).of_ids rfl rfl rfl rfl (h hissued).chunks fun id' hid => by
        rw [hpc]
        exact hid
  | remove =>
    rw [Registry.step] at hs
    split at hs <;> cases hs
    rename_i id hpc
    -- A download that could not be stored is removed, but its identifier is not given again.
    have heq : (s.queueManagerRemove id).issued = s.issued := by
      rw [Registry.queueManagerRemove]
      split
      · rfl
      · split_ifs <;> rfl
    exact (h (heq ▸ hissued)).remove id
  | call c =>
    have heq : s'.issued = s.issued := by
      cases c <;> cases hs <;> rfl
    exact (h (heq ▸ hissued)).call hs
  | change id f =>
    cases hs
    exact (h hissued).of_ids rfl rfl (ids_modify s id f) rfl (h hissued).chunks fun _ hid => hid
  | restart =>
    cases hs
    rw [issued_start] at hissued
    have hinv := h hissued
    have := hinv.le
    exact hinv.start (by omega)

/-- The counter is above all identifiers, as long as it has not come near the end of an
    `int`. -/
theorem of_reachable
    (hs : Run.Reachable Registry.step Registry.IsInit (fun _ _ => True) s) :
    s.issued ≤ 2 ^ 31 - 1 → RegistryInv s :=
  hs.invariant (I := fun s => s.issued ≤ 2 ^ 31 - 1 → RegistryInv s)
    (fun _ h _ => of_isInit h) fun _ _ _ h _ hst => step h hst

end RegistryInv

/-- When `reserve_download` returns an identifier, at most `2 ^ 31 - 1` of them having been
    issued, it is that of one entry of the queue, and of no other; no row had it, so that
    its row is added to the others, and no chunk row is deleted. -/
theorem reserve_fresh {s s' : Registry}
    (hs : Run.Reachable Registry.step Registry.IsInit (fun _ _ => True) s)
    (hissued : s.issued ≤ 2 ^ 31 - 1) {id : ℕ} {url dest : CString} {opts : RequestOptions}
    (hpc : s.pc = .claimed id url dest opts) (hst : s.step (.insert true) = some s') :
    id ≠ 0 ∧ s'.queue.countP (·.id = id) ≤ 1 ∧
      (∀ r ∈ s.tables.downloads, columnInt r.id ≠ id) ∧
      (∃ r, r.id = bindInt id ∧ columnInt r.id = id ∧
        s'.tables.downloads = s.tables.downloads ++ [r]) ∧
      s'.tables.chunks = s.tables.chunks := by
  have h := RegistryInv.of_reachable hs hissued
  have hle := h.le
  obtain ⟨hpos, hlt⟩ := h.pc_lt id (by rw [hpc]; rfl)
  have hnot := h.pc_row id (by rw [hpc]; rfl)
  have hbind : bindInt id = id := bindInt_of_lt (by omega)
  rw [Registry.step, hpc] at hst
  cases hst
  refine ⟨hpos.ne', ?_, fun r hr hid => ?_,
    ⟨_, ?_, ?_, congrArg (· ++ _) (List.filter_eq_self.2 fun r hr => ?_)⟩, ?_⟩
  · have hcount := List.nodup_iff_count_le_one.1 h.queue id
    rw [List.count, List.countP_map] at hcount
    exact le_of_eq_of_le (List.countP_congr fun d _ => by simp) hcount
  · obtain ⟨n, hn, hid'⟩ := h.row_lt r hr
    rw [hid', columnInt_natCast (by omega)] at hid
    exact hnot r hr (by rw [hid', hid])
  · rfl
  · rw [hbind, columnInt_natCast (by omega)]
  · rw [hbind]
    simpa using hnot r hr
  · refine List.filter_eq_self.2 fun c hc => ?_
    obtain ⟨r, hr, hid⟩ := List.mem_map.1 (h.chunks c hc)
    rw [hbind, ← hid]
    simpa using hnot r hr

/-- A download is added and done, and the daemon started again: the next one has another
    identifier, although only the row is left of the first. -/
theorem reserve_fresh_restart :
    ∃ s s' : Registry, Run.Reachable Registry.step Registry.IsInit (fun _ _ => True) s ∧
      s.queue.length = 1 ∧ s.tables.downloads.length = 1 ∧
      s.pc = .claimed 2 "u".toList "/d/g".toList noOptions ∧
      s.step (.insert true) = some s' ∧
      (∀ r ∈ s.tables.downloads, columnInt r.id ≠ 2) ∧
      s'.tables.chunks = s.tables.chunks := by
  obtain ⟨s, hs, hissued, hqueue, hrows, hpc, hst⟩ := Run.exists_reachable_of_exec Registry.step
    Registry.IsInit (fun _ _ => True)
    (fun s => s.issued ≤ 2 ^ 31 - 1 ∧ s.queue.length = 1 ∧ s.tables.downloads.length = 1 ∧
      s.pc = .claimed 2 "u".toList "/d/g".toList noOptions ∧
      (s.step (.insert true)).isSome)
    (s := ⟨1, [], ⟨[], []⟩, .idle, 0⟩) ⟨rfl, rfl, rfl, rfl, rfl, rfl⟩
    [.add "u".toList "/d/f".toList noOptions, .claim true, .insert true,
      .call (.insertChunk 1 0 9), .call (.updateStatus 1 "DONE"), .restart,
      .add "u".toList "/d/g".toList noOptions, .claim true]
    (by decide +kernel)
  obtain ⟨s', hs'⟩ := Option.isSome_iff_exists.1 hst
  obtain ⟨-, -, hne, -, hchunks⟩ := reserve_fresh hs hissued hpc hs'
  exact ⟨s, s', hs, hqueue, hrows, hpc, hs', hne, hchunks⟩

end Cdm
