import Cdm.Engine.Crash

/-!
# Recovering a reserved download

A download is added with an empty file claimed for it. Its first call gives the file its
length, and records the plan after that; if the verification fails, it deletes the plan,
and the file after that. A crash in between leaves a file that has a length, and no
chunk rows (`Stuck`). The next call takes the download for one that was never planned,
and its file for one that is not its own: it fails, and so does every later one
(`exists_stuck`).

At every other point of the first call (`exposed`) the download can be recovered
(`recovers_iff`): the rows are empty and the file has no length, or neither (`Usable`).
-/

namespace Cdm.Crash

variable {R : ℕ → UInt8} {info : FileInfo} {id : ℕ} {k : Disk} {w w' : World}

/-! ## The next call -/

/-- The daemon restarted on a disk, its download restored. -/
def restarted (k : Disk) (id : ℕ) : Option EngineState :=
  match k.db.row id with
  | none => none
  | some r => if r.status = "DONE" then none else some ⟨⟨restoreRow k.db r, k, []⟩, .idle none⟩

/-- The next call, up to its plan: the server answers as before. -/
def nextCall (R : ℕ → UInt8) (info : FileInfo) (io : PlanIo) (k : Disk) (id : ℕ) :
    Option EngineState :=
  (restarted k id).bind fun s => Run.exec (engineStep R) (fun _ _ => True) s
    [.call, .check, .head (some info), .plan io]

/-- After a crash, the next call gets its destination, if the system has nothing against
    it: it does not return from its plan. -/
def Recovers (R : ℕ → UInt8) (info : FileInfo) (k : Disk) (id : ℕ) : Prop :=
  ∀ poolFails runFails, ∃ s ∈ nextCall R info ⟨⟨false, false⟩, poolFails, runFails⟩ k id,
    s.returned = none

/-- The row of a download that was added with its file claimed, and is not done. -/
structure ReservedRow (r : DownloadRow) : Prop where
  url : isValidUrl r.url = true
  destPath : r.destPath ≠ []
  reserved : r.reservedFile = true
  status : r.status ≠ "DONE"

/-- The download has chunk rows if its file has a length, and only then. -/
def Usable (k : Disk) (id : ℕ) : Prop := k.db.chunksOf id = [] ↔ fileGetSize k.file = 0

/-- The file has a length, and there are no chunk rows. -/
def Stuck (k : Disk) (id : ℕ) : Prop := k.db.chunksOf id = [] ∧ fileGetSize k.file ≠ 0

theorem dbLoadChunks_eq_nil {db : Db} : dbLoadChunks db id qmMaxChunks = [] ↔
    db.chunksOf id = [] := by
  rw [dbLoadChunks, List.map_eq_nil_iff, List.take_eq_nil_iff, ← List.length_eq_zero_iff,
    List.length_insertionSort, List.length_eq_zero_iff]
  exact or_iff_right (by decide)

/-- The plan of the next call, unless its file is missing. -/
theorem nextCall_eq {r : DownloadRow} {io : PlanIo} (hr : k.db.row id = some r)
    (hrow : ReservedRow r) (hfile : k.db.chunksOf id = [] ∨ k.file.isSome) :
    nextCall R info io k id = some ⟨(planDownload ⟨restoreRow k.db r, k, []⟩ info io).1,
      (planDownload ⟨restoreRow k.db r, k, []⟩ info io).2⟩ := by
  have hid : r.id = id := Db.row_id hr
  have hchunks : ¬((restoreRow k.db r).chunks ≠ [] ∧ k.file.isNone) := by
    rintro ⟨hne, hnone⟩
    rcases hfile with h | h
    · exact hne (dbLoadChunks_eq_nil.2 (hid ▸ h))
    · rw [← Option.not_isSome, h] at hnone
      cases hnone
  have hurl : isValidUrl (restoreRow k.db r).url = true := hrow.url
  simp only [nextCall, restarted, hr, if_neg hrow.status, Option.bind_some, Run.exec, engineStep,
    engineCheck, World.fresh, if_neg hchunks, hurl, if_true]

/-- A destination that is not there, or is claimed and empty, can be had. -/
theorem preallocate_eq_zero {n : ℕ} {rc : ℤ} (hd : w.d.reservedFile = true)
    (hsize : fileGetSize w.disk.file = 0) (h : preallocate w n ⟨false, false⟩ = (w', rc)) :
    rc = 0 := by
  rw [preallocate, filePreallocateReserved, filePreallocate] at h
  cases hf : w.disk.file with
  | none =>
    simp only [hf, Option.isSome_none, Bool.and_false, Bool.false_eq_true, if_false] at h
    split_ifs at h <;> exact (Prod.mk.inj h).2.symm
  | some f =>
    rw [hf] at hsize
    have hsize : f.size = 0 := hsize
    simp only [hd, hf, Option.isSome_some, Bool.and_self, hsize, ne_eq, not_true, decide_false,
      Bool.or_self, Bool.false_eq_true, if_true, if_false] at h
    exact (Prod.mk.inj h).2.symm

theorem recovers_of_usable {r : DownloadRow} (hr : k.db.row id = some r) (hrow : ReservedRow r)
    (h : Usable k id) : Recovers R info k id := by
  intro poolFails runFails
  have hid : r.id = id := Db.row_id hr
  have hfile : k.db.chunksOf id = [] ∨ k.file.isSome := by
    by_cases hrows : k.db.chunksOf id = []
    · exact .inl hrows
    · right
      have hsize := mt h.2 hrows
      cases hf : k.file with
      | none => exact absurd (by rw [hf]; rfl) hsize
      | some f => rfl
  refine ⟨_, nextCall_eq hr hrow hfile, ?_⟩
  generalize hplan : planDownload _ _ _ = x
  obtain ⟨w', pc⟩ := x
  have hst := PlanStep.of_eq hplan
  cases hst with
  | allocFails h₀ ha hrc =>
    refine absurd (preallocate_eq_zero ?_ ?_ ha) hrc
    · rcases h₀ with ⟨rfl, -⟩ | ⟨rfl, -⟩
      · exact hrow.reserved
      · exact (Download.frame_eq (clearResumeState_frame true)).2.2.2.2.1.trans hrow.reserved
    · rcases h₀ with ⟨rfl, hnil⟩ | ⟨rfl, -⟩
      · exact h.1 (hid ▸ dbLoadChunks_eq_nil.1 hnil)
      · rw [recordSize_file, clearResumeState_file]
        exact congrArg fileGetSize (if_pos hrow.destPath)
  | _ => rfl

theorem not_recovers_of_stuck {r : DownloadRow} (hr : k.db.row id = some r) (hrow : ReservedRow r)
    (h : Stuck k id) : ¬Recovers R info k id := by
  intro hrec
  obtain ⟨s, hs, hret⟩ := hrec false false
  rw [nextCall_eq hr hrow (.inl h.1), Option.mem_some_iff] at hs
  have hchunks : (restoreRow k.db r).chunks = [] := dbLoadChunks_eq_nil.2 (Db.row_id hr ▸ h.1)
  have hplan : planDownload ⟨restoreRow k.db r, k, []⟩ info ⟨⟨false, false⟩, false, false⟩ =
      (recordSize ⟨restoreRow k.db r, k, []⟩ info, .idle (some (-1))) := by
    cases hf : k.file with
    | none => exact absurd (by rw [hf]; rfl) h.2
    | some f =>
      have hsize : f.size ≠ 0 := by
        have := h.2
        rwa [hf] at this
      have hres : (restoreRow k.db r).reservedFile = true := hrow.reserved
      simp [planDownload, hchunks, freshPlan, preallocate, filePreallocateReserved, recordSize,
        World.query, World.emit, Disk.apply, hf, hsize, hres]
  rw [hplan] at hs
  subst hs
  cases hret

/-! ## Points of a crash -/

/-- The file is given a length. -/
def lengthens : Effect → Bool
  | .extend _ => true
  | _ => false

/-- The chunk rows are deleted. -/
def forgets : Effect → Bool
  | .stmt (.deleteChunks _) => true
  | _ => false

/-- The file is deleted. -/
def removes : Effect → Bool
  | .unlink => true
  | _ => false

/-- After `n` of the effects, the file was given its length and no chunk row is inserted
    yet, or the chunk rows are deleted and the file is not yet. -/
def exposed (log : List Effect) (n : ℕ) : Bool :=
  ((log.take n).any lengthens && !(log.take n).any (·.inserts)) ||
    ((log.take n).any forgets && (log.drop n).any removes)

/-! ## Effects on the disk -/

/-- The chunk rows of the download, and the file, are there. -/
def Planned (k : Disk) (id : ℕ) : Prop := k.db.chunksOf id ≠ [] ∧ fileGetSize k.file ≠ 0

theorem Planned.usable (h : Planned k id) : Usable k id :=
  ⟨fun hrows => absurd hrows h.1, fun hsize => absurd hsize h.2⟩

/-- The engine keeps what a row says but for the size. -/
theorem ReservedRow.apply {r : DownloadRow} {e : Effect} (hr : k.db.row id = some r)
    (hrow : ReservedRow r) (hown : e.Own id) :
    ∃ r', (k.apply e).db.row id = some r' ∧ ReservedRow r' := by
  cases e with
  | stmt q =>
    cases q with
    | updateTotalSize i n =>
      cases hown
      refine ⟨{ r with totalSize := n }, ?_, hrow.url, hrow.destPath, hrow.reserved, hrow.status⟩
      rw [Disk.apply, Db.exec, Db.row_updateRow, if_pos rfl, hr]
      · rfl
      · exact fun _ => rfl
    | insertChunk i a b => exact ⟨r, by rw [Disk.apply, Db.row_insertChunk, hr], hrow⟩
    | insertDownload => cases hown
    | updateStatus => cases hown
    | _ => exact ⟨r, hr, hrow⟩
  | _ => exact ⟨r, hr, hrow⟩

theorem ReservedRow.applyAll {r : DownloadRow} {es : List Effect} (hr : k.db.row id = some r)
    (hrow : ReservedRow r) (hown : ∀ e ∈ es, e.Own id) :
    ∃ r', (k.applyAll es).db.row id = some r' ∧ ReservedRow r' := by
  induction es generalizing k r with
  | nil => exact ⟨r, hr, hrow⟩
  | cons e es ih =>
    obtain ⟨r', hr', hrow'⟩ := hrow.apply hr (hown e List.mem_cons_self)
    exact ih hr' hrow' fun e he => hown e (List.mem_cons_of_mem _ he)

theorem chunksOf_apply_ne_nil {e : Effect} (h : k.db.chunksOf id ≠ []) (hown : e.Own id)
    (hspares : e.spares = true) : (k.apply e).db.chunksOf id ≠ [] := by
  cases e with
  | stmt q =>
    cases q with
    | insertChunk i a b =>
      cases hown
      rw [Disk.apply, Db.exec]
      split_ifs
      · rw [Db.chunksOf, List.filter_append]
        exact List.append_ne_nil_of_left_ne_nil h _
      · exact h
    | updateChunkProgress i rs n =>
      cases hown
      rwa [Disk.apply, Db.chunksOf_updateChunkProgress, ne_eq, List.map_eq_nil_iff]
    | updateChunkRange i rs n =>
      cases hown
      rwa [Disk.apply, Db.chunksOf_updateChunkRange, ne_eq, List.map_eq_nil_iff]
    | _ => cases hspares
  | pwrite => exact h
  | _ => cases hspares

theorem size_apply_ne_zero {e : Effect} (h : fileGetSize k.file ≠ 0) (hspares : e.spares = true) :
    fileGetSize (k.apply e).file ≠ 0 := by
  cases e with
  | stmt => exact h
  | pwrite off buf =>
    cases hf : k.file with
    | none => exact absurd (by rw [hf]; rfl) h
    | some f =>
      rw [hf] at h
      have h : f.size ≠ 0 := h
      rw [Disk.apply, hf]
      change (f.pwrite off buf).size ≠ 0
      rw [File.pwrite]
      split_ifs
      · exact h
      · simp only
        omega
  | _ => cases hspares

/-- Writes to the file, and statements on single chunk rows, keep both. -/
theorem Planned.applyAll {es : List Effect} (h : Planned k id) (hown : ∀ e ∈ es, e.Own id)
    (hspares : ∀ e ∈ es, e.spares = true) : Planned (k.applyAll es) id := by
  induction es generalizing k with
  | nil => exact h
  | cons e es ih =>
    have he := hspares e List.mem_cons_self
    exact ih ⟨chunksOf_apply_ne_nil h.1 (hown e List.mem_cons_self) he, size_apply_ne_zero h.2 he⟩
      (fun e he => hown e (List.mem_cons_of_mem _ he))
      fun e he => hspares e (List.mem_cons_of_mem _ he)

theorem exposed_eq_false {es : List Effect} (hspares : ∀ e ∈ es, e.spares = true) (n : ℕ) :
    exposed es n = false := by
  have h₁ : (es.take n).any lengthens = false := by
    rw [List.any_eq_false]
    intro e he
    have := hspares e (List.mem_of_mem_take he)
    cases e <;> simp_all [Effect.spares, lengthens]
  have h₂ : (es.take n).any forgets = false := by
    rw [List.any_eq_false]
    intro e he
    have := hspares e (List.mem_of_mem_take he)
    cases e with
    | stmt q => cases q <;> simp_all [Effect.spares, forgets]
    | _ => simp [forgets]
  rw [exposed, h₁, h₂]
  rfl

/-- Once a row is inserted, and the file is not to be deleted. -/
theorem exposed_of_inserts {es : List Effect} {n : ℕ} {e : Effect} (he : e ∈ es.take n)
    (hi : e.inserts = true) (hremoves : ∀ e ∈ es, removes e = false) : exposed es n = false := by
  have h₁ : (es.take n).any (·.inserts) = true := List.any_eq_true.2 ⟨e, he, hi⟩
  have h₂ : (es.drop n).any removes = false := by
    rw [List.any_eq_false]
    intro e he
    rw [hremoves e (List.mem_of_mem_drop he)]
    exact Bool.false_ne_true
  rw [exposed, h₁, h₂, Bool.and_false, Bool.not_true, Bool.and_false]
  rfl

/-! ## The first call -/

/-- The file of the download is claimed, and nothing is planned. -/
def Claimed (k : Disk) (id : ℕ) : Prop :=
  k.db.chunksOf id = [] ∧ ∃ f, k.file = some f ∧ f.size = 0

theorem Claimed.usable (h : Claimed k id) : Usable k id := by
  obtain ⟨f, hf, hsize⟩ := h.2
  refine ⟨fun _ => ?_, fun _ => h.1⟩
  rw [hf]
  exact hsize

/-- A first call begins on a download added with its file claimed. -/
structure Reserved (s : EngineState) : Prop where
  entered : s.pc = .entered
  chunks : s.w.d.chunks = []
  claimed : Claimed s.w.disk s.w.d.id
  row : ∃ r, s.w.disk.db.row s.w.d.id = some r ∧ ReservedRow r
  reserved : s.w.d.reservedFile = true
  destPath : s.w.d.destPath ≠ []

/-- What the disk holds where the first call is. -/
def FirstDisk (info : FileInfo) (w : World) : Pc → Prop
  | .entered | .probing => w.d.chunks = [] ∧ Claimed w.disk w.d.id
  | .planning info' => info' = info ∧ w.d.chunks = [] ∧ Claimed w.disk w.d.id
  | .running _ _ _ | .flushing _ _ _ | .deciding _ _ _ | .fallback _ _ | .finalizing _ =>
    Planned w.disk w.d.id
  | .idle _ => True

/-- The invariant of the first call, on the resource `info`. -/
structure FirstCall (info : FileInfo) (w : World) (pc : Pc) : Prop where
  row : ∃ r, w.disk.db.row w.d.id = some r ∧ ReservedRow r
  reserved : w.d.reservedFile = true
  destPath : w.d.destPath ≠ []
  sound : SoundPc pc
  disk : FirstDisk info w pc

/-- At each point of the effects, the download is usable, or the point is exposed. -/
def Witnessed (k : Disk) (id : ℕ) (es : List Effect) : Prop :=
  ∀ n, Usable (k.applyAll (es.take n)) id ∧ exposed es n = false ∨
    Stuck (k.applyAll (es.take n)) id ∧ exposed es n = true

theorem Planned.witnessed {es : List Effect} (h : Planned k id) (hown : ∀ e ∈ es, e.Own id)
    (hspares : ∀ e ∈ es, e.spares = true) : Witnessed k id es :=
  fun n => .inl ⟨(h.applyAll (fun e he => hown e (List.mem_of_mem_take he))
    fun e he => hspares e (List.mem_of_mem_take he)).usable, exposed_eq_false hspares n⟩

theorem witnessed_nil (h : Usable k id) : Witnessed k id [] := by
  intro n
  rw [List.take_nil]
  exact .inl ⟨h, exposed_eq_false (fun e he => by cases he) n⟩

/-- Discarding deletes the rows first. -/
theorem Planned.witnessed_discards (h : Planned k id) :
    Witnessed k id (discards id ++ [.unlink]) := by
  have hdel : (k.db.exec (.deleteChunks id)).chunksOf id = [] := Db.chunksOf_deleteChunks
  intro n
  match n with
  | 0 => exact .inl ⟨h.usable, rfl⟩
  | 1 => exact .inr ⟨⟨hdel, h.2⟩, rfl⟩
  | 2 => exact .inr ⟨⟨hdel, h.2⟩, rfl⟩
  | n + 3 =>
    have hle : (discards id ++ [Effect.unlink]).length ≤ n + 3 := Nat.le_add_left 3 n
    rw [exposed, List.take_of_length_le hle, List.drop_eq_nil_of_le hle]
    exact .inl ⟨⟨fun _ => rfl, fun _ => hdel⟩, rfl⟩

/-- The effects of a fresh plan before its insertions. -/
def startPlan (id T : ℕ) : List Effect :=
  [.stmt (.updateTotalSize id T), .extend T, .stmt (.deleteChunks id)]

/-- A fresh plan gives the file its length first. -/
theorem Claimed.witnessed_plan {T : ℕ} (r : Range) (rs : List Range) (h : Claimed k id)
    (hT : 0 < T) (hrow : (k.db.row id).isSome) :
    Witnessed k id (startPlan id T ++ insertions id (r :: rs)) ∧
      Planned (k.applyAll (startPlan id T ++ insertions id (r :: rs))) id := by
  obtain ⟨hrows, f, hf, hsize⟩ := h
  -- The disk once the file has its length and the rows are deleted.
  set k₃ := k.applyAll (startPlan id T)
  have hfile : k₃.file = some (f.extend T) := by
    simp [k₃, startPlan, Disk.applyAll, Disk.apply, hf]
  have hlen : fileGetSize (some (f.extend T)) ≠ 0 := by
    simp only [fileGetSize, Option.elim_some, File.extend, hsize]
    omega
  have hfirst : Planned (k₃.apply (.stmt (.insertChunk id r.start r.last))) id := by
    refine ⟨?_, ?_⟩
    · rw [Disk.apply, Db.chunksOf_insertChunk]
      · exact List.append_ne_nil_of_right_ne_nil _ (List.cons_ne_nil _ _)
      · exact Db.row_exec_isSome _ (Db.row_exec_isSome _ hrow)
    · rw [Disk.apply, hfile]
      exact hlen
  have hplanned (n : ℕ) :
      Planned ((k₃.apply (.stmt (.insertChunk id r.start r.last))).applyAll
        ((insertions id rs).take n)) id := by
    refine hfirst.applyAll (fun e he => ?_) fun e he => ?_ <;>
      obtain ⟨r', -, rfl⟩ := List.mem_map.1 (List.mem_of_mem_take he) <;> rfl
  refine ⟨fun n => ?_, ?_⟩
  · rcases n with _ | _ | _ | _ | n
    · exact .inl ⟨Claimed.usable ⟨hrows, f, hf, hsize⟩, rfl⟩
    · exact .inl ⟨Claimed.usable ⟨hrows, f, hf, hsize⟩, rfl⟩
    · refine .inr ⟨⟨hrows, (?_ : fileGetSize (k.file.map (·.extend T)) ≠ 0)⟩, rfl⟩
      rw [hf]
      exact hlen
    · exact .inr ⟨⟨Db.chunksOf_deleteChunks, hfile ▸ hlen⟩, rfl⟩
    · refine .inl ⟨(hplanned n).usable, ?_⟩
      refine exposed_of_inserts (e := .stmt (.insertChunk id r.start r.last)) ?_ rfl fun e he => ?_
      · exact List.mem_append_right (startPlan id T) List.mem_cons_self
      · rcases List.mem_append.1 he with he | he
        · simp only [startPlan, List.mem_cons, List.not_mem_nil, or_false] at he
          rcases he with rfl | rfl | rfl <;> rfl
        · obtain ⟨r', -, rfl⟩ := List.mem_map.1 he
          rfl
  · have := hplanned (insertions id rs).length
    rwa [List.take_length] at this

/-! ## Its steps -/

/-- The preallocation of a claimed file gives it its length, or does nothing. -/
theorem preallocate_claimed {n : ℕ} {io : AllocIo} {rc : ℤ} (h : preallocate w n io = (w', rc))
    (hd : w.d.reservedFile = true) (hfile : ∃ f, w.disk.file = some f) :
    rc ≠ 0 ∧ w' = w ∨ rc = 0 ∧ w' = w.emit (.extend n) := by
  obtain ⟨f, hf⟩ := hfile
  simp only [preallocate, hd, hf, Option.isSome_some, Bool.and_self, if_true,
    filePreallocateReserved] at h
  split_ifs at h
  · obtain ⟨rfl, rfl⟩ := Prod.mk.inj h
    exact .inl ⟨by decide, rfl⟩
  · obtain ⟨rfl, rfl⟩ := Prod.mk.inj h
    exact .inr ⟨rfl, rfl⟩

theorem freshRanges_ne_nil (hT : 0 < info.totalSize.toNat) : freshRanges info ≠ [] := by
  intro hnil
  obtain ⟨i, c, hi, -⟩ := (tiled_freshRanges info hT).cover 0 hT
  rw [hnil] at hi
  exact absurd hi (Nat.not_lt_zero i)

/-- What a step of the first call emits, and where it leads. -/
def Leads (info : FileInfo) (s s' : EngineState) (es : List Effect) : Prop :=
  Emits s.w s'.w es ∧ Witnessed s.w.disk s.w.d.id es ∧ FirstDisk info s'.w s'.pc

theorem FirstCall.plan {io : PlanIo} {pc : Pc} {w : World} (hT : 0 < info.totalSize.toNat)
    (h : FirstCall info w (.planning info)) (hst : PlanStep w info io w' pc) :
    ∃ es, Leads info ⟨w, .planning info⟩ ⟨w', pc⟩ es := by
  obtain ⟨-, hchunks, hclaimed⟩ := h.disk
  obtain ⟨-, f, hf, -⟩ := id hclaimed
  have hrow : (w.disk.db.row w.d.id).isSome := by
    obtain ⟨r, hr, -⟩ := h.row
    rw [hr]
    rfl
  -- The size is recorded, the file extended, and a row inserted for each range.
  have hstart {w₁ : World}
      (ha : preallocate (recordSize w info) info.totalSize.toNat io.alloc = (w₁, 0)) :
      ∃ es, Emits w (persistPlan w₁ (freshRanges info)) es ∧ Witnessed w.disk w.d.id es ∧
        Planned (persistPlan w₁ (freshRanges info)).disk
          (persistPlan w₁ (freshRanges info)).d.id := by
    obtain ⟨hrc, -⟩ | ⟨-, rfl⟩ := preallocate_claimed ha h.reserved ⟨f, hf⟩
    · exact absurd rfl hrc
    obtain ⟨r, rs, hrs⟩ : ∃ r rs, (freshRanges info).take qmMaxChunks = r :: rs := by
      rw [List.take_of_length_le (length_freshRanges_le info)]
      exact List.exists_cons_of_ne_nil (freshRanges_ne_nil hT)
    have hes := (((emits_recordSize (w := w) info).emit (e := .extend info.totalSize.toNat)
      trivial).trans (emits_persistPlan (freshRanges info)))
    rw [hrs] at hes
    obtain ⟨hwit, hplanned⟩ := hclaimed.witnessed_plan r rs hT hrow
    refine ⟨_, hes, hwit, ?_⟩
    rw [hes.disk, hes.id_eq]
    exact hplanned
  cases hst with
  | complete hne => exact absurd hchunks hne
  | resume hne => exact absurd hchunks hne
  | resumeFails hne => exact absurd hchunks hne
  | allocFails h₀ ha hrc =>
    obtain ⟨rfl, -⟩ | ⟨-, hne, -⟩ := h₀
    · obtain ⟨-, rfl⟩ | ⟨rfl, -⟩ := preallocate_claimed ha h.reserved ⟨f, hf⟩
      · refine ⟨_, emits_recordSize info, fun n => ?_, trivial⟩
        -- The crash comes before the size is recorded, or after.
        match n with
        | 0 => exact .inl ⟨hclaimed.usable, rfl⟩
        | n + 1 =>
          rw [exposed, List.take_of_length_le (Nat.le_add_left 1 n)]
          exact .inl ⟨hclaimed.usable, rfl⟩
      · exact absurd rfl hrc
    · exact absurd hchunks hne
  | start h₀ ha =>
    obtain ⟨rfl, -⟩ | ⟨-, hne, -⟩ := h₀
    · exact hstart ha
    · exact absurd hchunks hne
  | startFails h₀ ha =>
    obtain ⟨rfl, -⟩ | ⟨-, hne, -⟩ := h₀
    · exact hstart ha
    · exact absurd hchunks hne

theorem FirstCall.engine {s s' : EngineState} {a : EngineAct} (hT : 0 < info.totalSize.toNat)
    (h : FirstCall info s.w s.pc) (hst : EngineStep R s a s') (hin : s.inCall = true)
    (ha : sized info (.engine a) = true) : ∃ es, Leads info s s' es := by
  -- Steps that leave the disk alone.
  have hnil {w : World} {pc pc' : Pc} (husable : Usable w.disk w.d.id)
      (hdisk : FirstDisk info w pc') : ∃ es, Leads info ⟨w, pc⟩ ⟨w, pc'⟩ es :=
    ⟨[], .refl, witnessed_nil husable, hdisk⟩
  -- Steps that leave the plan alone.
  have hspare {w w' : World} {es : List Effect} {pc pc' : Pc} (hdisk : Planned w.disk w.d.id)
      (hes : Emits w w' es) (hspares : ∀ e ∈ es, e.spares = true)
      (hpc : Planned w'.disk w'.d.id → FirstDisk info w' pc') :
      ∃ es, Leads info ⟨w, pc⟩ ⟨w', pc'⟩ es := by
    refine ⟨es, hes, hdisk.witnessed hes.own hspares, hpc ?_⟩
    rw [hes.disk, hes.id_eq]
    exact hdisk.applyAll hes.own hspares
  cases hst with
  | call => cases hin
  | @check w =>
    have hd : w.d.chunks = [] ∧ Claimed w.disk w.d.id := h.disk
    have hmissing : ¬(w.d.chunks ≠ [] ∧ w.disk.file.isNone) := fun hm => hm.1 hd.1
    rw [engineCheck, if_neg hmissing]
    split_ifs
    · exact hnil hd.2.usable hd
    · exact hnil hd.2.usable trivial
  | headFails =>
    have hd := h.disk
    exact hnil hd.2.usable trivial
  | head =>
    have hd := h.disk
    exact hnil hd.2.usable ⟨by simpa [sized] using ha, hd⟩
  | plan hplan =>
    obtain ⟨rfl, -⟩ := id h.disk
    exact h.plan hT (.of_eq hplan)
  | pool hpool =>
    obtain ⟨es, hes, hspares, -⟩ := hpool.emits (Orderly.noOrphan h.sound)
    exact hspare h.disk hes hspares id
  | join =>
    have hd := h.disk
    exact hnil (Planned.usable hd) hd
  | flush =>
    obtain ⟨es, hes, hspares, -⟩ := emits_flushProgress
    exact hspare h.disk hes hspares id
  | @decide w =>
    have hd : Planned w.disk w.d.id := h.disk
    simp only [engineDecide]
    split_ifs
    · exact hnil hd.usable hd
    · exact ⟨[], .of_eq rfl rfl rfl, witnessed_nil hd.usable, trivial⟩
    · exact ⟨[], .of_eq rfl rfl rfl, witnessed_nil hd.usable, hd⟩
    · exact hnil hd.usable trivial
  | fallbackPool hpool =>
    obtain ⟨es, hes, hspares, -⟩ := hpool.emits h.sound.1.noOrphan
    exact hspare h.disk hes hspares id
  | fallbackJoin =>
    have hd := h.disk
    split_ifs
    · exact hnil (Planned.usable hd) hd
    · exact hnil (Planned.usable hd) trivial
  | finalize =>
    have hd := h.disk
    exact hnil (Planned.usable hd) trivial
  | @finalizeFails w =>
    have hd : Planned w.disk w.d.id := h.disk
    -- A file that is refused is unlinked, and its chunks are deleted.
    have hes := emits_clearResumeState (w := w) true
    have hpath : w.d.destPath ≠ [] := h.destPath
    simp only [Bool.true_and, hpath, ne_eq, not_false_iff, decide_true, if_true] at hes
    exact ⟨_, hes, hd.witnessed_discards, trivial⟩

/-- The invariant depends on the disk and on what the user does not change. -/
theorem FirstCall.congr {pc : Pc} (h : FirstCall info w pc) (hdisk : w'.disk = w.disk)
    (hid : w'.d.id = w.d.id) (hreserved : w'.d.reservedFile = w.d.reservedFile)
    (hpath : w'.d.destPath = w.d.destPath) (hchunks : w'.d.chunks = w.d.chunks) :
    FirstCall info w' pc := by
  refine ⟨?_, hreserved ▸ h.reserved, hpath ▸ h.destPath, h.sound, ?_⟩
  · rw [hdisk, hid]
    exact h.row
  · have hd := h.disk
    cases pc <;> simp only [FirstDisk, hdisk, hid, hchunks] at hd ⊢ <;> exact hd

theorem FirstCall.usable {s : EngineState} (h : FirstCall info s.w s.pc) (hin : s.inCall = true) :
    Usable s.w.disk s.w.d.id := by
  obtain ⟨w, pc⟩ := s
  have hd := h.disk
  cases pc with
  | idle => cases hin
  | entered | probing => exact hd.2.usable
  | planning => exact hd.2.2.usable
  | _ => exact Planned.usable hd

/-- The steps of the first call, and of the user during it: each point of the effects in
    the log is usable or exposed. -/
theorem FirstCall.step {s s' : EngineState} {a : SessionAct} (hT : 0 < info.totalSize.toNat)
    (h : FirstCall info s.w s.pc) (hst : sessionStep R s a = some s') (hin : s.inCall = true)
    (ha : sized info a = true) :
    FirstCall info s'.w s'.pc ∧ Witnessed s.w.disk s.w.d.id s'.w.log ∧
      ∀ e ∈ s'.w.log, e.Own s.w.d.id := by
  have hsound := h.sound.session hst
  cases a with
  | engine a =>
    have hfresh : FirstCall info (⟨s.w.fresh, s.pc⟩ : EngineState).w s.pc :=
      h.congr rfl rfl rfl rfl rfl
    obtain ⟨es, hes, hwit, hdisk⟩ := hfresh.engine hT (.of_eq hst) hin ha
    obtain ⟨r, hr, hrow⟩ := h.row
    obtain ⟨r', hr', hrow'⟩ := hrow.applyAll hr hes.own
    have hframe := Download.frame_eq hes.frame
    have hlog : s'.w.log = es := hes.log
    refine ⟨⟨⟨r', ?_, hrow'⟩, hframe.2.2.2.2.1.trans h.reserved, ?_, hsound, hdisk⟩, ?_⟩
    · rw [hes.disk, hes.id_eq]
      exact hr'
    · rw [hframe.2.2.1]
      exact h.destPath
    · rw [hlog]
      exact ⟨hwit, hes.own⟩
  | requestCancel b =>
    cases hst
    exact ⟨h.congr rfl rfl rfl rfl rfl, witnessed_nil (h.usable hin), fun e he => (by cases he)⟩
  | requestPause b =>
    cases hst
    exact ⟨h.congr rfl rfl rfl rfl rfl, witnessed_nil (h.usable hin), fun e he => (by cases he)⟩
  | restore => cases ha

/-- After a crash at any point of the first call on a reserved download, the next call gets
    its destination if the point is not exposed, and only then. -/
theorem recovers_iff (hT : 0 < info.totalSize.toNat) {s s' : EngineState} {a : SessionAct}
    (hs : Run.Reachable (sessionStep R) Reserved
      (fun s a => s.inCall = true ∧ sized info a = true) s)
    (ha : s.inCall = true ∧ sized info a = true) (hst : sessionStep R s a = some s') (n : ℕ) :
    Recovers R info (crashDisk s s' n) s.w.d.id ↔ exposed s'.w.log n = false := by
  have hinv : FirstCall info s.w s.pc := by
    refine hs.invariant (I := fun s => FirstCall info s.w s.pc) (fun s hs => ?_)
      fun s a s' h ok hst => (h.step hT hst ok.1 ok.2).1
    refine ⟨hs.row, hs.reserved, hs.destPath, ?_, ?_⟩ <;> rw [hs.entered]
    · trivial
    · exact ⟨hs.chunks, hs.claimed⟩
  obtain ⟨-, hwit, hown⟩ := hinv.step hT hst ha.1 ha.2
  obtain ⟨r, hr, hrow⟩ := hinv.row
  obtain ⟨r', hr', hrow'⟩ := hrow.applyAll hr fun e he => hown e (List.mem_of_mem_take he)
  rcases hwit n with ⟨husable, hexp⟩ | ⟨hstuck, hexp⟩
  · exact ⟨fun _ => hexp, fun _ => recovers_of_usable hr' hrow' husable⟩
  · refine ⟨fun hrec => absurd hrec (not_recovers_of_stuck hr' hrow' hstuck), fun h => ?_⟩
    rw [hexp] at h
    cases h

/-- A first call entered on a download added with its file claimed. -/
def reservedState : EngineState :=
  ⟨(freshState 1 "http://h/f".toList "/d/f".toList).w, .entered⟩

theorem reserved_reservedState : Reserved reservedState where
  entered := rfl
  chunks := rfl
  claimed := ⟨rfl, .empty, rfl, rfl⟩
  row := ⟨_, rfl, by decide, by decide, rfl, by decide⟩
  reserved := rfl
  destPath := by decide

/-- A crash after the first insertion of the plan. -/
theorem recovers_iff_inserted :
    ∃ s s', Run.Reachable (sessionStep fun _ => 1) Reserved
        (fun s a => s.inCall = true ∧ sized ⟨1048576, true⟩ a = true) s ∧
      sessionStep (fun _ => 1) s planAct = some s' ∧
      Recovers (fun _ => 1) ⟨1048576, true⟩ (crashDisk s s' 4) s.w.d.id := by
  obtain ⟨s, hs, hin, s', hst, hexp⟩ := Run.exists_reachable_of_exec (sessionStep fun _ => 1)
    Reserved (fun s a => s.inCall = true ∧ sized ⟨1048576, true⟩ a = true)
    (fun s => s.inCall = true ∧
      ∃ s' ∈ sessionStep (fun _ => 1) s planAct, exposed s'.w.log 4 = false)
    reserved_reservedState (probeActs.tail.map .engine) (by decide +kernel)
  exact ⟨s, s', hs, hst, (recovers_iff (by decide) hs ⟨hin, rfl⟩ hst 4).2 hexp⟩

/-- A crash once the file has its length, before the plan is recorded: the next call
    fails. -/
theorem exists_stuck :
    ∃ s s', Run.Reachable (sessionStep fun _ => 1) Reserved
        (fun s a => s.inCall = true ∧ sized ⟨1048576, true⟩ a = true) s ∧
      sessionStep (fun _ => 1) s planAct = some s' ∧
      ∃ t ∈ nextCall (fun _ => 1) ⟨1048576, true⟩ ⟨⟨false, false⟩, false, false⟩
        (crashDisk s s' 2) s.w.d.id, t.returned = some (-1) := by
  obtain ⟨s, hs, s', hst, ht⟩ := Run.exists_reachable_of_exec (sessionStep fun _ => 1)
    Reserved (fun s a => s.inCall = true ∧ sized ⟨1048576, true⟩ a = true)
    (fun s => ∃ s' ∈ sessionStep (fun _ => 1) s planAct,
      ∃ t ∈ nextCall (fun _ => 1) ⟨1048576, true⟩ ⟨⟨false, false⟩, false, false⟩
        (crashDisk s s' 2) s.w.d.id, t.returned = some (-1))
    reserved_reservedState (probeActs.tail.map .engine) (by decide +kernel)
  exact ⟨s, s', hs, hst, ht⟩

end Cdm.Crash
