import Cdm.Lib.ListUpdate
import Cdm.Persistence.Sqlite

/-!
# Restoring what was persisted

What a history of calls says of a download is what was written last: the last statement
that writes a field tells its value (`lastWrite`). An insertion writes every field of a
download, its defaults included, and leaves it without chunks.

The queue restored from the tables has just this (`restoredFrom_history`), and so have
the details of a download. It is proved for the database, a statement at a time, and
carried over to the tables of SQLite, which hold the same (`Db.encode`).
-/

namespace Cdm

/-- What was written last, by the statements for which `f` tells what they write. -/
def lastWrite {α : Type*} (f : DbStmt → Option α) (qs : List DbStmt) : Option α :=
  qs.reverse.findSome? f

/-- What the insertion of a download writes. -/
structure Insertion where
  url : CString
  destPath : CString
  options : RequestOptions
  reservedFile : Bool

namespace DbStmt

/-- What a statement writes for the download `id`. -/
def insertion (id : ℕ) : DbStmt → Option Insertion
  | insertDownload id' url destPath opts reserved =>
    if id' = id then some ⟨url, destPath, opts, reserved⟩ else none
  | _ => none

def totalSize (id : ℕ) : DbStmt → Option ℕ
  | insertDownload id' _ _ _ _ => if id' = id then some 0 else none
  | updateTotalSize id' n => if id' = id then some n else none
  | _ => none

def status (id : ℕ) : DbStmt → Option String
  | insertDownload id' _ _ _ _ => if id' = id then some "QUEUED" else none
  | updateStatus id' name => if id' = id then some name else none
  | _ => none

/-- Whether the download has a chunk at the offset `a`. -/
def hasChunk (id a : ℕ) : DbStmt → Option Bool
  | insertChunk id' a' _ => if id' = id ∧ a' = a then some true else none
  | insertDownload id' _ _ _ _ | deleteChunks id' => if id' = id then some false else none
  | _ => none

/-- The end of the chunk at the offset `a`. -/
def rangeEnd (id a : ℕ) : DbStmt → Option ℕ
  | insertChunk id' a' b | updateChunkRange id' a' b => if id' = id ∧ a' = a then some b else none
  | _ => none

/-- The bytes done of the chunk at the offset `a`. -/
def bytesDone (id a : ℕ) : DbStmt → Option ℕ
  | insertChunk id' a' _ => if id' = id ∧ a' = a then some 0 else none
  | updateChunkProgress id' a' n => if id' = id ∧ a' = a then some n else none
  | _ => none

/-- The statement inserts no chunk where the download has one already. -/
def isNew (pre : List DbStmt) : DbStmt → Bool
  | insertChunk id a _ => lastWrite (hasChunk id a) pre ≠ some true
  | _ => true

end DbStmt

/-- The chunks of a download have distinct starts. -/
def DistinctInserts (qs : List DbStmt) : Prop :=
  ∀ n < qs.length, ∀ q ∈ qs[n]?, q.isNew (qs.take n) = true

instance (qs : List DbStmt) : Decidable (DistinctInserts qs) :=
  inferInstanceAs (Decidable (∀ n < qs.length, ∀ q ∈ qs[n]?, q.isNew (qs.take n) = true))

/-- The chunk is there, as it was written last. -/
def WrittenChunk (qs : List DbStmt) (id : ℕ) (c : DownloadChunk) : Prop :=
  lastWrite (DbStmt.hasChunk id c.rangeStart) qs = some true ∧
    lastWrite (DbStmt.rangeEnd id c.rangeStart) qs = some c.rangeEnd ∧
    lastWrite (DbStmt.bytesDone id c.rangeStart) qs = some c.bytesDone

/-- The entry has what was written last for its download. -/
structure RestoredEntry (qs : List DbStmt) (d : Download) : Prop where
  /-- There is a request exactly if some option is set. -/
  insertion : ∃ opts, lastWrite (DbStmt.insertion d.id) qs =
      some ⟨d.url, d.destPath, opts, d.reservedFile⟩ ∧
    d.request = if opts = noOptions then none else some opts
  totalSize : lastWrite (DbStmt.totalSize d.id) qs = some d.totalSize
  /-- An active download, and one with an unknown status, is queued. -/
  status : ∃ name, lastWrite (DbStmt.status d.id) qs = some name ∧
    (∀ s, statusToString s = name → d.status = if s = .active then .queued else s) ∧
    ((∀ s, statusToString s ≠ name) → d.status = .queued)
  /-- The chunks are the first ones, in the order of their starts. -/
  chunks : ∃ cs : List DownloadChunk, cs.Pairwise (·.rangeStart < ·.rangeStart) ∧
    (∀ c, c ∈ cs ↔ WrittenChunk qs d.id c) ∧ d.chunks = cs.take qmMaxChunks

/-- The queue is restored from what a history has written. -/
structure RestoredFrom (qs : List DbStmt) (queue : List Download) : Prop where
  once : (queue.map (·.id)).Nodup
  ids : ∀ id, id ∈ queue.map (·.id) ↔
    (lastWrite (DbStmt.insertion id) qs).isSome ∧ lastWrite (DbStmt.status id) qs ≠ some "DONE"
  entries : ∀ d ∈ queue, RestoredEntry qs d

/-! ## Histories -/

variable {α : Type*} {f : DbStmt → Option α} {qs : List DbStmt} {q : DbStmt} {id : ℕ}

theorem lastWrite_append : lastWrite f (qs ++ [q]) = (f q).or (lastWrite f qs) := by
  rw [lastWrite, List.reverse_append, List.reverse_singleton, List.singleton_append,
    List.findSome?_cons, lastWrite]
  cases f q <;> rfl

theorem lastWrite_append_of_none (h : f q = none) : lastWrite f (qs ++ [q]) = lastWrite f qs := by
  rw [lastWrite_append, h, Option.none_or]

theorem lastWrite_append_of_some {a : α} (h : f q = some a) :
    lastWrite f (qs ++ [q]) = some a := by
  rw [lastWrite_append, h, Option.some_or]

theorem lastWrite_isSome {β : Type*} {g : DbStmt → Option β} {b : β}
    (h : ∀ q, g q = some b → (f q).isSome) (hg : lastWrite g qs = some b) :
    (lastWrite f qs).isSome := by
  obtain ⟨q, hq, hb⟩ := List.exists_of_findSome?_eq_some hg
  exact List.findSome?_isSome_iff.2 ⟨q, hq, h q hb⟩

theorem DistinctInserts.of_append (h : DistinctInserts (qs ++ [q])) :
    DistinctInserts qs ∧ q.isNew qs = true := by
  refine ⟨fun n hn q' hq' => ?_, ?_⟩
  · have := h n (by rw [List.length_append]; omega) q' (by rwa [List.getElem?_append_left hn])
    rwa [List.take_append_of_le_length hn.le] at this
  · have := h qs.length (by simp) q (by simp)
    rwa [List.take_left] at this

/-- A statement writes nothing for another download. -/
theorem DbStmt.writes_of_ne (h : id ≠ q.id) : q.insertion id = none ∧ q.totalSize id = none ∧
    q.status id = none ∧ ∀ a, q.hasChunk id a = none ∧ q.rangeEnd id a = none ∧
      q.bytesDone id a = none := by
  cases q <;> simp_all [DbStmt.id, DbStmt.insertion, DbStmt.totalSize, DbStmt.status,
    DbStmt.hasChunk, DbStmt.rangeEnd, DbStmt.bytesDone, Ne.symm]

namespace Db

/-- The database after a history, from a new one. -/
def after (qs : List DbStmt) : Db := qs.foldl exec ⟨[], []⟩

theorem after_append : after (qs ++ [q]) = (after qs).exec q := by
  rw [after, List.foldl_append]
  rfl

/-! ## Downloads -/

variable {db : Db}

/-- The row of a download after a statement. -/
theorem row_exec : (db.exec q).row id =
    match q.insertion id with
    | some x => some ⟨id, x.url, x.destPath, 0, "QUEUED", 0, x.options, x.reservedFile⟩
    | none => (db.row id).map fun r =>
      { r with totalSize := (q.totalSize id).getD r.totalSize, status := (q.status id).getD r.status } := by
  have hupdate {id : ℕ} {f : DownloadRow → DownloadRow} (hf : ∀ r, (f r).id = r.id) :
      (db.updateRow id f).row id = (db.row id).map f := by
    rw [row_updateRow hf, if_pos rfl]
  by_cases hid : id = q.id
  · subst hid
    cases q with
    | insertDownload =>
      simp only [DbStmt.id, DbStmt.insertion, if_pos]
      exact row_insertDownload
    | updateStatus =>
      simp only [DbStmt.id, DbStmt.insertion, DbStmt.totalSize, DbStmt.status, if_pos]
      exact hupdate fun _ => rfl
    | updateTotalSize =>
      simp only [DbStmt.id, DbStmt.insertion, DbStmt.totalSize, DbStmt.status, if_pos]
      exact hupdate fun _ => rfl
    | insertChunk =>
      rw [row_insertChunk]
      exact Option.map_id'.symm
    | _ => exact Option.map_id'.symm
  · obtain ⟨hins, htotal, hstatus, -⟩ := DbStmt.writes_of_ne hid
    rw [row_exec_of_ne hid]
    simp only [hins, htotal, hstatus, Option.getD_none]
    exact Option.map_id'.symm

theorem row_after_isSome :
    ((after qs).row id).isSome ↔ (lastWrite (DbStmt.insertion id) qs).isSome := by
  induction qs using List.reverseRecOn with
  | nil => exact Iff.rfl
  | append_singleton qs q ih =>
    rw [after_append, row_exec, lastWrite_append]
    cases q.insertion id with
    | none => simpa using ih
    | some x => simp

/-- A row has what was written last. -/
theorem row_after {r : DownloadRow} (h : (after qs).row id = some r) :
    lastWrite (DbStmt.insertion id) qs = some ⟨r.url, r.destPath, r.options, r.reservedFile⟩ ∧
      lastWrite (DbStmt.totalSize id) qs = some r.totalSize ∧
      lastWrite (DbStmt.status id) qs = some r.status := by
  induction qs using List.reverseRecOn generalizing r with
  | nil => cases h
  | append_singleton qs q ih =>
    rw [after_append, row_exec] at h
    rw [lastWrite_append, lastWrite_append, lastWrite_append]
    cases hins : q.insertion id with
    | some x =>
      -- An insertion writes all the fields.
      have hdefaults : q.totalSize id = some 0 ∧ q.status id = some "QUEUED" := by
        cases q <;> simp_all [DbStmt.insertion, DbStmt.totalSize, DbStmt.status]
      rw [hins] at h
      cases h
      rw [hdefaults.1, hdefaults.2]
      exact ⟨rfl, rfl, rfl⟩
    | none =>
      rw [hins] at h
      obtain ⟨r₀, hr₀, rfl⟩ := Option.map_eq_some_iff.1 h
      obtain ⟨hins₀, htotal, hstatus⟩ := ih hr₀
      rw [hins₀, htotal, hstatus]
      refine ⟨rfl, ?_, ?_⟩
      · cases q.totalSize id <;> rfl
      · cases q.status id <;> rfl

theorem nodup_ids_after : ((after qs).downloads.map (·.id)).Nodup := by
  induction qs using List.reverseRecOn with
  | nil => exact List.nodup_nil
  | append_singleton qs q ih =>
    rw [after_append]
    cases q with
    | insertDownload id =>
      rw [exec, List.map_append]
      refine List.nodup_append.2 ⟨ih.sublist (List.filter_sublist.map _), List.nodup_singleton _, ?_⟩
      intro i hi j hj
      obtain ⟨r, hr, rfl⟩ := List.mem_map.1 hi
      rw [List.mem_singleton.1 hj]
      simpa using (List.mem_filter.1 hr).2
    | _ =>
      rw [ids_exec (by simp)]
      exact ih

end Db

/-! ## Chunks -/

/-- The chunk rows of a download are those that are there, as they were written last, and
    start at distinct offsets. -/
structure ChunksWritten (qs : List DbStmt) (id : ℕ) (rows : List ChunkRow) : Prop where
  own : ∀ r ∈ rows, r.downloadId = id
  mem : ∀ a b n, ⟨id, a, b, n⟩ ∈ rows ↔ WrittenChunk qs id ⟨a, b, n⟩
  nodup : (rows.map (·.rangeStart)).Nodup

namespace ChunksWritten

variable {rows : List ChunkRow} {a b n : ℕ}

/-- A statement that leaves the chunks of the download alone. -/
theorem frame (h : ChunksWritten qs id rows)
    (hq : ∀ a, q.hasChunk id a = none ∧ q.rangeEnd id a = none ∧ q.bytesDone id a = none) :
    ChunksWritten (qs ++ [q]) id rows := by
  refine ⟨h.own, fun a b n => ?_, h.nodup⟩
  obtain ⟨h₁, h₂, h₃⟩ := hq a
  rw [h.mem, WrittenChunk, WrittenChunk, lastWrite_append_of_none h₁, lastWrite_append_of_none h₂,
    lastWrite_append_of_none h₃]

/-- A statement that leaves the download without chunks. -/
theorem nil (hq : ∀ a, q.hasChunk id a = some false) : ChunksWritten (qs ++ [q]) id [] := by
  refine ⟨fun r hr => (by cases hr), fun a b n => ?_, List.nodup_nil⟩
  rw [WrittenChunk, lastWrite_append_of_some (hq a)]
  simp

theorem insertChunk (h : ChunksWritten qs id rows)
    (hnew : lastWrite (DbStmt.hasChunk id a) qs ≠ some true) :
    ChunksWritten (qs ++ [.insertChunk id a b]) id (rows ++ [⟨id, a, b, 0⟩]) := by
  -- There is no chunk at the offset yet.
  have hfree : ∀ r ∈ rows, r.rangeStart ≠ a := by
    rintro ⟨i, a', b', n'⟩ hr rfl
    obtain rfl : i = id := h.own _ hr
    exact hnew ((h.mem a' b' n').1 hr).1
  refine ⟨fun r hr => ?_, fun a' b' n' => ?_, ?_⟩
  · rcases List.mem_append.1 hr with hr | hr
    · exact h.own r hr
    · rw [List.mem_singleton.1 hr]
  · by_cases ha : a = a'
    · subst ha
      have hold : ⟨id, a, b', n'⟩ ∉ rows := fun hr => hfree _ hr rfl
      simp only [WrittenChunk, lastWrite_append, DbStmt.hasChunk, DbStmt.rangeEnd,
        DbStmt.bytesDone, and_self, if_true, Option.some_or, List.mem_append, hold, false_or,
        List.mem_singleton, ChunkRow.mk.injEq, true_and, Option.some.injEq]
      exact and_congr eq_comm eq_comm
    · have hold : WrittenChunk (qs ++ [.insertChunk id a b]) id ⟨a', b', n'⟩ ↔
          WrittenChunk qs id ⟨a', b', n'⟩ := by
        simp [WrittenChunk, lastWrite_append, DbStmt.hasChunk, DbStmt.rangeEnd, DbStmt.bytesDone, ha]
      rw [hold, ← h.mem, List.mem_append, List.mem_singleton]
      simp [Ne.symm ha]
  · rw [List.map_append]
    refine List.nodup_append.2 ⟨h.nodup, List.nodup_singleton _, fun x hx y hy => ?_⟩
    obtain ⟨r, hr, rfl⟩ := List.mem_map.1 hx
    rw [List.mem_singleton.1 hy]
    exact hfree r hr

/-- A statement that changes the chunk at one offset. -/
theorem update {f : ChunkRow → ChunkRow} (h : ChunksWritten qs id rows)
    (hf : ∀ r, (f r).downloadId = r.downloadId ∧ (f r).rangeStart = r.rangeStart)
    (hold : ∀ a' b' n', a' ≠ a →
      (WrittenChunk (qs ++ [q]) id ⟨a', b', n'⟩ ↔ WrittenChunk qs id ⟨a', b', n'⟩))
    (hnew : ∀ b' n', WrittenChunk (qs ++ [q]) id ⟨a, b', n'⟩ ↔
      ∃ b n, WrittenChunk qs id ⟨a, b, n⟩ ∧ f ⟨id, a, b, n⟩ = ⟨id, a, b', n'⟩) :
    ChunksWritten (qs ++ [q]) id (rows.map fun r => if r.rangeStart = a then f r else r) := by
  have hstart (r : ChunkRow) : (if r.rangeStart = a then f r else r).rangeStart = r.rangeStart := by
    split_ifs
    · exact (hf r).2
    · rfl
  have hid (r : ChunkRow) : (if r.rangeStart = a then f r else r).downloadId = r.downloadId := by
    split_ifs
    · exact (hf r).1
    · rfl
  refine ⟨fun r hr => ?_, fun a' b' n' => ?_, ?_⟩
  · obtain ⟨r₀, hr₀, rfl⟩ := List.mem_map.1 hr
    exact (hid r₀).trans (h.own r₀ hr₀)
  · rw [List.mem_map]
    constructor
    · rintro ⟨⟨i, a₀, b₀, n₀⟩, hr, heq⟩
      obtain rfl : i = id := h.own _ hr
      obtain rfl : a₀ = a' := (hstart _).symm.trans (congrArg ChunkRow.rangeStart heq)
      have hw := (h.mem _ _ _).1 hr
      by_cases ha : a₀ = a
      · subst ha
        rw [if_pos rfl] at heq
        exact (hnew b' n').2 ⟨b₀, n₀, hw, heq⟩
      · rw [if_neg ha] at heq
        cases heq
        exact (hold _ _ _ ha).2 hw
    · intro hw
      by_cases ha : a' = a
      · subst ha
        obtain ⟨b, n, hw, heq⟩ := (hnew b' n').1 hw
        exact ⟨_, (h.mem _ _ _).2 hw, (if_pos rfl).trans heq⟩
      · exact ⟨_, (h.mem _ _ _).2 ((hold _ _ _ ha).1 hw), if_neg ha⟩
  · rw [List.map_map]
    refine (List.map_congr_left fun r _ => ?_).symm ▸ h.nodup
    exact hstart r

/-- A chunk that is there has an end and bytes done. -/
theorem isSome_of_hasChunk (h : lastWrite (DbStmt.hasChunk id a) qs = some true) :
    (lastWrite (DbStmt.rangeEnd id a) qs).isSome ∧ (lastWrite (DbStmt.bytesDone id a) qs).isSome := by
  refine ⟨lastWrite_isSome (fun q hq => ?_) h, lastWrite_isSome (fun q hq => ?_) h⟩ <;>
    cases q <;> simp_all [DbStmt.hasChunk, DbStmt.rangeEnd, DbStmt.bytesDone]

theorem updateChunkProgress (h : ChunksWritten qs id rows) :
    ChunksWritten (qs ++ [.updateChunkProgress id a n]) id
      (rows.map fun r => if r.rangeStart = a then { r with bytesDone := n } else r) := by
  refine h.update (fun r => ⟨rfl, rfl⟩) (fun a' b' n' ha => ?_) fun b' n' => ?_
  · simp [WrittenChunk, lastWrite_append, DbStmt.hasChunk, DbStmt.rangeEnd, DbStmt.bytesDone, ha.symm]
  · simp only [WrittenChunk, lastWrite_append, DbStmt.hasChunk, DbStmt.rangeEnd, DbStmt.bytesDone,
      and_self, if_true, Option.none_or, Option.some_or, Option.some.injEq, ChunkRow.mk.injEq,
      true_and]
    constructor
    · rintro ⟨hhas, hend, rfl⟩
      obtain ⟨n₀, hn₀⟩ := Option.isSome_iff_exists.1 (isSome_of_hasChunk hhas).2
      exact ⟨b', n₀, ⟨hhas, hend, hn₀⟩, rfl, rfl⟩
    · rintro ⟨b, n₀, ⟨hhas, hend, -⟩, rfl, rfl⟩
      exact ⟨hhas, hend, rfl⟩

theorem updateChunkRange (h : ChunksWritten qs id rows) :
    ChunksWritten (qs ++ [.updateChunkRange id a b]) id
      (rows.map fun r => if r.rangeStart = a then { r with rangeEnd := b } else r) := by
  refine h.update (fun r => ⟨rfl, rfl⟩) (fun a' b' n' ha => ?_) fun b' n' => ?_
  · simp [WrittenChunk, lastWrite_append, DbStmt.hasChunk, DbStmt.rangeEnd, DbStmt.bytesDone, ha.symm]
  · simp only [WrittenChunk, lastWrite_append, DbStmt.hasChunk, DbStmt.rangeEnd, DbStmt.bytesDone,
      and_self, if_true, Option.none_or, Option.some_or, Option.some.injEq, ChunkRow.mk.injEq,
      true_and]
    constructor
    · rintro ⟨hhas, rfl, hbytes⟩
      obtain ⟨b₀, hb₀⟩ := Option.isSome_iff_exists.1 (isSome_of_hasChunk hhas).1
      exact ⟨b₀, n', ⟨hhas, hb₀, hbytes⟩, rfl, rfl⟩
    · rintro ⟨b₀, n₀, ⟨hhas, -, hbytes⟩, rfl, rfl⟩
      exact ⟨hhas, rfl, hbytes⟩

end ChunksWritten

theorem Db.chunksOf_insertDownload {db : Db} {url destPath : CString} {opts : RequestOptions}
    {reserved : Bool} :
    (db.exec (.insertDownload id url destPath opts reserved)).chunksOf id = [] := by
  simp [exec, chunksOf]

/-- A history with distinct starts writes the chunk rows of a download that is there. -/
theorem chunksWritten_after (hdistinct : DistinctInserts qs)
    (hrow : (lastWrite (DbStmt.insertion id) qs).isSome) :
    ChunksWritten qs id ((Db.after qs).chunksOf id) := by
  induction qs using List.reverseRecOn with
  | nil => cases hrow
  | append_singleton qs q ih =>
    obtain ⟨hdistinct₀, hnew⟩ := hdistinct.of_append
    rw [Db.after_append]
    by_cases hid : id = q.id
    · subst hid
      have hprev (hins : q.insertion q.id = none) :
          (lastWrite (DbStmt.insertion q.id) qs).isSome := by
        rwa [lastWrite_append_of_none hins] at hrow
      cases q with
      | insertDownload =>
        rw [DbStmt.id, Db.chunksOf_insertDownload]
        exact .nil fun a => if_pos rfl
      | updateStatus => exact (ih hdistinct₀ (hprev rfl)).frame fun a => ⟨rfl, rfl, rfl⟩
      | updateTotalSize => exact (ih hdistinct₀ (hprev rfl)).frame fun a => ⟨rfl, rfl, rfl⟩
      | insertChunk id a b =>
        rw [DbStmt.id] at *
        rw [Db.chunksOf_insertChunk (Db.row_after_isSome.2 (hprev rfl))]
        exact (ih hdistinct₀ (hprev rfl)).insertChunk (of_decide_eq_true hnew)
      | updateChunkProgress =>
        rw [DbStmt.id, Db.chunksOf_updateChunkProgress]
        exact (ih hdistinct₀ (hprev rfl)).updateChunkProgress
      | updateChunkRange =>
        rw [DbStmt.id, Db.chunksOf_updateChunkRange]
        exact (ih hdistinct₀ (hprev rfl)).updateChunkRange
      | deleteChunks =>
        rw [DbStmt.id, Db.chunksOf_deleteChunks]
        exact .nil fun a => if_pos rfl
    · obtain ⟨hins, -, -, hwrites⟩ := DbStmt.writes_of_ne hid
      rw [Db.chunksOf_exec_of_ne hid]
      rw [lastWrite_append_of_none hins] at hrow
      exact (ih hdistinct₀ hrow).frame hwrites

/-! ## Restoring -/

theorem statusToString_restoredStatus {name : String} (hdone : name ≠ "DONE") :
    (∀ s, statusToString s = name → restoredStatus name = if s = .active then .queued else s) ∧
      ((∀ s, statusToString s ≠ name) → restoredStatus name = .queued) := by
  constructor
  · rintro s rfl
    cases s with
    | done => exact absurd rfl hdone
    | _ => rfl
  · intro hunknown
    rw [restoredStatus, if_neg fun h => hunknown .queued h.symm, if_neg fun h => hunknown .active h.symm,
      if_neg fun h => hunknown .paused h.symm, if_neg fun h => hunknown .error h.symm,
      if_neg fun h => hunknown .canceled h.symm]

theorem requestOptionsPresent_eq_true {o : RequestOptions} :
    requestOptionsPresent o = true ↔ o ≠ noOptions := by
  obtain ⟨cookie, referrer, extraHeaders, expectedSha256, speedLimitBps⟩ := o
  simp [requestOptionsPresent, noOptions, or_assoc, imp_iff_not_or]

/-- The restored chunks are the first ones of those written, in the order of their starts. -/
theorem ChunksWritten.dbLoadChunks {db : Db} (h : ChunksWritten qs id (db.chunksOf id)) (max : ℕ) :
    ∃ cs : List DownloadChunk, cs.Pairwise (·.rangeStart < ·.rangeStart) ∧
      (∀ c, c ∈ cs ↔ WrittenChunk qs id c) ∧ Cdm.dbLoadChunks db id max = cs.take max := by
  set sorted := (db.chunksOf id).insertionSort fun a b => a.rangeStart ≤ b.rangeStart
  have hperm : sorted.Perm (db.chunksOf id) := List.perm_insertionSort _ _
  refine ⟨sorted.map fun c => ⟨c.rangeStart, c.rangeEnd, c.bytesDone⟩, ?_, fun c => ?_,
    by rw [Cdm.dbLoadChunks, List.map_take]⟩
  · have hle : sorted.Pairwise (·.rangeStart ≤ ·.rangeStart) := List.pairwise_insertionSort _ _
    have hne : sorted.Pairwise (·.rangeStart ≠ ·.rangeStart) :=
      List.pairwise_map.1 ((hperm.map _).nodup_iff.2 h.nodup)
    exact List.pairwise_map.2 (hle.and hne |>.imp fun hx => lt_of_le_of_ne hx.1 hx.2)
  · obtain ⟨a, b, n⟩ := c
    rw [← h.mem, ← hperm.mem_iff, List.mem_map]
    constructor
    · rintro ⟨⟨i, a', b', n'⟩, hr, heq⟩
      cases heq
      obtain rfl : i = id := h.own _ (hperm.mem_iff.1 hr)
      exact hr
    · exact fun hr => ⟨_, hr, rfl⟩

/-- The entry restored from a row has what was written last. -/
theorem restoredEntry_of_row {r : DownloadRow} (hdistinct : DistinctInserts qs)
    (hr : (Db.after qs).row r.id = some r) (hdone : r.status ≠ "DONE") :
    RestoredEntry qs (restoreRow (Db.after qs) r) := by
  obtain ⟨hins, htotal, hstatus⟩ := Db.row_after hr
  refine ⟨⟨r.options, hins, ?_⟩, htotal, ⟨r.status, hstatus, statusToString_restoredStatus hdone⟩,
    (chunksWritten_after hdistinct (by rw [restoreRow, hins]; rfl)).dbLoadChunks _⟩
  rw [restoreRow]
  by_cases hopts : r.options = noOptions
  · rw [if_pos hopts, if_neg]
    exact fun h => requestOptionsPresent_eq_true.1 h hopts
  · rw [if_neg hopts, if_pos (requestOptionsPresent_eq_true.2 hopts)]

theorem restoredFrom_after (hdistinct : DistinctInserts qs) :
    RestoredFrom qs (dbRestoreQueue (Db.after qs)) := by
  have hrow {r : DownloadRow} (hr : r ∈ (Db.after qs).downloads) :
      (Db.after qs).row r.id = some r := List.find?_key_of_mem Db.nodup_ids_after hr
  refine ⟨?_, fun id => ?_, fun d hd => ?_⟩
  · rw [dbRestoreQueue, List.map_reverse, List.nodup_reverse, List.map_map]
    exact Db.nodup_ids_after.sublist (List.filter_sublist.map _)
  · rw [← Db.row_after_isSome, dbRestoreQueue, List.map_reverse, List.mem_reverse, List.map_map,
      List.mem_map]
    constructor
    · rintro ⟨r, hr, rfl⟩
      obtain ⟨hr, hdone⟩ := List.mem_filter.1 hr
      refine ⟨Option.isSome_iff_exists.2 ⟨r, hrow hr⟩, ?_⟩
      have hstatus := (Db.row_after (hrow hr)).2.2
      exact fun h => of_decide_eq_true hdone (Option.some.inj (hstatus.symm.trans h))
    · rintro ⟨hsome, hdone⟩
      obtain ⟨r, hr⟩ := Option.isSome_iff_exists.1 hsome
      refine ⟨r, List.mem_filter.2 ⟨List.mem_of_find?_eq_some hr, ?_⟩, Db.row_id hr⟩
      refine decide_eq_true fun h => hdone ?_
      rw [(Db.row_after hr).2.2, h]
  · rw [dbRestoreQueue, List.mem_reverse] at hd
    obtain ⟨r, hr, rfl⟩ := List.mem_map.1 hd
    obtain ⟨hr, hdone⟩ := List.mem_filter.1 hr
    exact restoredEntry_of_row hdistinct (hrow hr) (of_decide_eq_true hdone)

/-- A new database. -/
def newTables : Sqlite := ⟨[], []⟩

/-- The calls of a history do what its statements do, and what is stored fits. -/
theorem foldl_run_newTables {cs : List DbCall} (h : ∀ c ∈ cs, c.stmt.Fits) :
    cs.foldl DbCall.run newTables = (Db.after (cs.map DbCall.stmt)).encode ∧
      (Db.after (cs.map DbCall.stmt)).Fits := by
  induction cs using List.reverseRecOn with
  | nil => exact ⟨rfl, ⟨fun r hr => (by cases hr), fun c hc => (by cases hc)⟩⟩
  | append_singleton cs c ih =>
    obtain ⟨hfold, hfits⟩ := ih fun c hc => h c (List.mem_append_left _ hc)
    have hc := h c (List.mem_append_right _ (List.mem_singleton.2 rfl))
    rw [List.foldl_append, hfold, List.map_append, List.map_singleton, Db.after_append]
    exact ⟨c.run_encode hc, hfits.exec hc⟩

/-- After any history of calls that fit, from a new database, with distinct starts of the
    chunks of a download: the queue restored has one entry for every download that is not
    done, with what was written last, and every download has the details written last. -/
theorem restoredFrom_history {cs : List DbCall} (hfits : ∀ c ∈ cs, c.stmt.Fits)
    (hdistinct : DistinctInserts (cs.map DbCall.stmt)) :
    RestoredFrom (cs.map DbCall.stmt) (cs.foldl DbCall.run newTables).dbRestoreQueue ∧
      ∀ id x, lastWrite (DbStmt.insertion id) (cs.map DbCall.stmt) = some x →
        (cs.foldl DbCall.run newTables).dbGetDownloadDetails id = some x.options.details := by
  obtain ⟨hfold, hfit⟩ := foldl_run_newTables hfits
  rw [hfold, Db.dbRestoreQueue_encode hfit]
  refine ⟨restoredFrom_after hdistinct, fun id x hx => ?_⟩
  obtain ⟨r, hr⟩ := Option.isSome_iff_exists.1 (Db.row_after_isSome.2 (Option.isSome_of_eq_some hx))
  have hid : id < 2 ^ 31 := Db.row_id hr ▸ (hfit.downloads r (List.mem_of_find?_eq_some hr)).id
  rw [Db.dbGetDownloadDetails_encode hfit hid, hr]
  have hins := (Db.row_after hr).1
  rw [hx] at hins
  cases hins
  rfl

/-- A download in progress, without options, and one that is done, with a referrer. -/
def twoDownloads : List DbCall :=
  [.insertDownload 1 "http://h/f".toList "/d/f".toList none,
    .insertReservedDownload 2 "http://h/g".toList "/d/g".toList
      (some ⟨[], "http://h/".toList, [], [], 0⟩),
    .updateStatus 1 "ACTIVE", .updateTotalSize 1 8, .insertChunk 1 4 7, .insertChunk 1 0 3,
    .updateChunkProgress 1 4 2, .updateStatus 2 "DONE"]

/-- The first one is restored, with its two chunks, and the second one still has its details. -/
theorem restoredFrom_history_two :
    RestoredFrom (twoDownloads.map DbCall.stmt)
        (twoDownloads.foldl DbCall.run newTables).dbRestoreQueue ∧
      (twoDownloads.foldl DbCall.run newTables).dbGetDownloadDetails 2 =
        some ⟨[], "http://h/".toList, [], [], 0⟩ := by
  have hnone : noOptions.Fits := ⟨by decide, by decide, by decide, by decide, by decide⟩
  have hsome : RequestOptions.Fits ⟨[], "http://h/".toList, [], [], 0⟩ :=
    ⟨by decide, by decide, by decide, by decide, by decide⟩
  have hfits : ∀ c ∈ twoDownloads, c.stmt.Fits := by
    simp only [twoDownloads, List.forall_mem_cons, List.not_mem_nil, DbCall.stmt, DbStmt.Fits,
      Option.getD_none, Option.getD_some, hnone, hsome, and_true, IsEmpty.forall_iff, implies_true]
    decide
  obtain ⟨hrestored, hdetails⟩ := restoredFrom_history hfits (by decide +kernel)
  exact ⟨hrestored, hdetails 2 ⟨_, _, _, _⟩ rfl⟩

end Cdm
