import Cdm.Engine.Layout

/-!
# The effects of the steps

Every step of a call changes the disk by the effects in its log only, works on the rows
of its own download, and keeps the frame of the download (`Emits`). The statements that
change the ranges of the chunk rows come last, and end with an insertion (`Tidy`),
unless a split finds the chunk table full.
-/

namespace Cdm

variable {w w₁ w₂ w' : World} {info : FileInfo} {es es' : List Effect}

/-- An effect on the file, or on the rows of a download, other than its status. -/
def Effect.Own (id : ℕ) : Effect → Prop
  | .stmt q =>
    match q with
    | .updateTotalSize i _ | .insertChunk i _ _ | .updateChunkProgress i _ _
    | .updateChunkRange i _ _ | .deleteChunks i => i = id
    | .insertDownload _ _ _ _ _ | .updateStatus _ _ => False
  | _ => True

/-- The effects `es` lead from `w` to `w'`. -/
structure Emits (w w' : World) (es : List Effect) : Prop where
  log : w'.log = w.log ++ es
  disk : w'.disk = w.disk.applyAll es
  own : ∀ e ∈ es, e.Own w.d.id
  frame : w'.d.frame = w.d.frame

namespace Emits

/-- A change in memory. -/
theorem of_eq (hlog : w'.log = w.log) (hdisk : w'.disk = w.disk)
    (hframe : w'.d.frame = w.d.frame) : Emits w w' [] :=
  ⟨by rw [hlog, List.append_nil], hdisk, by simp, hframe⟩

theorem refl : Emits w w [] := of_eq rfl rfl rfl

theorem id_eq (h : Emits w w' es) : w'.d.id = w.d.id := (Download.frame_eq h.frame).1

theorem trans (h : Emits w w₁ es) (h' : Emits w₁ w' es') : Emits w w' (es ++ es') where
  log := by rw [h'.log, h.log, List.append_assoc]
  disk := by rw [h'.disk, h.disk, Disk.applyAll, Disk.applyAll, Disk.applyAll, List.foldl_append]
  own := by
    intro e he
    rcases List.mem_append.1 he with he | he
    · exact h.own e he
    · exact h.id_eq ▸ h'.own e he
  frame := h'.frame.trans h.frame

/-- One more effect. -/
theorem emit {e : Effect} (h : Emits w w' es) (he : e.Own w.d.id) :
    Emits w (w'.emit e) (es ++ [e]) where
  log := by rw [World.emit_log, h.log, List.append_assoc]
  disk := by rw [World.emit_disk, h.disk, Disk.applyAll, Disk.applyAll, List.foldl_concat]
  own := by
    intro e' he'
    rcases List.mem_append.1 he' with he' | he'
    · exact h.own e' he'
    · exact List.mem_singleton.1 he' ▸ he
  frame := h.frame

end Emits

/-! ## Functions of the engine -/

/-- Statements that change the ranges of the chunk rows, other than by deleting them. -/
def Effect.recasts : Effect → Bool
  | .stmt (.insertChunk _ _ _) | .stmt (.updateChunkRange _ _ _) => true
  | _ => false

/-- Statements that insert a chunk row. -/
def Effect.inserts : Effect → Bool
  | .stmt (.insertChunk _ _ _) => true
  | _ => false

/-- The writes to the file, and the statements on single chunk rows. -/
def Effect.spares : Effect → Bool
  | .pwrite _ _ | .stmt (.insertChunk _ _ _) | .stmt (.updateChunkProgress _ _ _)
  | .stmt (.updateChunkRange _ _ _) => true
  | _ => false

/-- None of the effects changes the ranges of the chunk rows. -/
def Calm (es : List Effect) : Prop := ∀ e ∈ es, e.recasts = false

theorem calm_nil : Calm [] := fun _ he => by cases he

theorem Calm.append (h : Calm es) (h' : Calm es') : Calm (es ++ es') := by
  intro e he
  rcases List.mem_append.1 he with he | he
  · exact h e he
  · exact h' e he

theorem Calm.of_mem_singleton {e : Effect} (he : e.recasts = false) : Calm [e] := by
  intro e' he'
  rw [List.mem_singleton.1 he', he]

/-- The effects of discarding a download. -/
def discards (id : ℕ) : List Effect :=
  [.stmt (.deleteChunks id), .stmt (.updateTotalSize id 0)]

theorem calm_discards (id : ℕ) : Calm (discards id) :=
  (Calm.of_mem_singleton rfl).append (Calm.of_mem_singleton rfl)

theorem emits_clearResumeState (b : Bool) : Emits w (clearResumeState w b)
    (discards w.d.id ++ if b && w.d.destPath ≠ [] then [.unlink] else []) := by
  have h₀ : Emits w { w with d := { w.d with
    chunks := [], totalSize := 0, bytesDownloaded := 0, chunkLiveBytes := fun _ => 0 } } [] :=
    .of_eq rfl rfl rfl
  have h₂ := (h₀.emit (e := .stmt (.deleteChunks w.d.id)) rfl).emit
    (e := .stmt (.updateTotalSize w.d.id 0)) rfl
  rw [clearResumeState]
  split_ifs with h₁ h₁' h₁'
  · exact h₂.emit trivial
  · exact absurd h₁ h₁'
  · exact absurd h₁' h₁
  · exact h₂

theorem calm_clearResumeState (b : Bool) (id : ℕ) (path : CString) :
    Calm (discards id ++ if b && path ≠ [] then [.unlink] else []) := by
  refine (calm_discards id).append ?_
  split_ifs
  · exact Calm.of_mem_singleton rfl
  · exact calm_nil

theorem emits_recordSize (info : FileInfo) : Emits w (recordSize w info)
    [.stmt (.updateTotalSize w.d.id info.totalSize.toNat)] :=
  have h₀ : Emits w { w with d := { w.d with totalSize := info.totalSize.toNat } } [] :=
    .of_eq rfl rfl rfl
  h₀.emit rfl

theorem emits_preallocate {n : ℕ} {io : AllocIo} {rc : ℤ} (h : preallocate w n io = (w', rc)) :
    ∃ es, Emits w w' es ∧ Calm es := by
  have hext : Emits w (w.emit (.extend n)) ([] ++ [.extend n]) := Emits.refl.emit trivial
  have hcreate : Emits w (w.emit .create) ([] ++ [.create]) := Emits.refl.emit trivial
  rw [preallocate] at h
  split_ifs at h
  · rw [filePreallocateReserved] at h
    split at h
    · cases h
      exact ⟨[], .refl, calm_nil⟩
    · split_ifs at h <;> cases h
      · exact ⟨[], .refl, calm_nil⟩
      · exact ⟨_, hext, Calm.of_mem_singleton rfl⟩
  · rw [filePreallocate] at h
    split_ifs at h <;> cases h
    · exact ⟨[], .refl, calm_nil⟩
    · exact ⟨[], .refl, calm_nil⟩
    · exact ⟨_, hcreate, Calm.of_mem_singleton rfl⟩
    · exact ⟨_, hcreate, Calm.of_mem_singleton rfl⟩
    · exact ⟨_, hcreate.emit (e := .extend n) trivial,
        (Calm.of_mem_singleton rfl).append (Calm.of_mem_singleton rfl)⟩

theorem emits_flushProgress :
    ∃ es, Emits w (flushProgress w) es ∧ (∀ e ∈ es, e.spares = true) ∧ Calm es := by
  obtain ⟨qs, hw, hqs⟩ := flushProgress_spec w
  have hmem : ∀ e ∈ qs.map Effect.stmt, ∃ i n, e = .stmt (.updateChunkProgress w.d.id i n) := by
    intro e he
    obtain ⟨q, hq, rfl⟩ := List.mem_map.1 he
    rw [hqs] at hq
    obtain ⟨c, -, rfl⟩ := List.mem_map.1 hq
    exact ⟨_, _, rfl⟩
  have hdisk : ∀ (qs : List DbStmt) (k : Disk),
      k.applyAll (qs.map .stmt) = { k with db := qs.foldl Db.exec k.db } := by
    intro qs
    induction qs with
    | nil => exact fun _ => rfl
    | cons q qs ih => exact fun k => ih (k.apply (.stmt q))
  refine ⟨qs.map .stmt, ⟨by rw [hw], by rw [hw, hdisk], fun e he => ?_, flushProgress_frame⟩,
    fun e he => ?_, fun e he => ?_⟩
  · obtain ⟨i, n, rfl⟩ := hmem e he
    rfl
  · obtain ⟨i, n, rfl⟩ := hmem e he
    rfl
  · obtain ⟨i, n, rfl⟩ := hmem e he
    rfl

theorem emits_appendChunk (a b : ℕ) :
    Emits w (appendChunk w a b) [.stmt (.insertChunk w.d.id a b)] :=
  have h₀ : Emits w { w with d := { w.d with
      chunks := w.d.chunks ++ [⟨a, b, 0⟩]
      chunkLiveBytes := Function.update w.d.chunkLiveBytes w.d.chunks.length 0 } } [] :=
    .of_eq rfl rfl rfl
  h₀.emit rfl

/-- Effects that change the ranges of the chunk rows come last, and end with an
    insertion. -/
def Tidy (es : List Effect) : Prop :=
  ∃ l l', es = l ++ l' ∧ Calm l ∧ (l' = [] ∨ ∃ l'' e, l' = l'' ++ [e] ∧ e.inserts = true)

theorem Calm.tidy (h : Calm es) : Tidy es := ⟨es, [], (List.append_nil _).symm, h, .inl rfl⟩

theorem Calm.append_tidy (h : Calm es) (h' : Tidy es') : Tidy (es ++ es') := by
  obtain ⟨l, l', rfl, hl, hl'⟩ := h'
  exact ⟨es ++ l, l', (List.append_assoc _ _ _).symm, h.append hl, hl'⟩

/-- The insertions of the ranges of a plan. -/
def insertions (id : ℕ) (rs : List Range) : List Effect :=
  rs.map fun r => .stmt (.insertChunk id r.start r.last)

theorem emits_appendChunks (rs : List Range) :
    Emits w (appendChunks w rs) (insertions w.d.id rs) := by
  induction rs generalizing w with
  | nil => exact .refl
  | cons r rs ih => exact (emits_appendChunk r.start r.last).trans ih

theorem Calm.append_insertions (h : Calm es) (id : ℕ) (rs : List Range) :
    Tidy (es ++ insertions id rs) := by
  refine ⟨es, _, rfl, h, ?_⟩
  rcases List.eq_nil_or_concat rs with rfl | ⟨rs, r, rfl⟩
  · exact .inl rfl
  · refine .inr ⟨insertions id rs, .stmt (.insertChunk id r.start r.last), ?_, rfl⟩
    rw [List.concat_eq_append, insertions, List.map_append]
    rfl

theorem emits_persistPlan (rs : List Range) : Emits w (persistPlan w rs)
    ([.stmt (.deleteChunks w.d.id)] ++ insertions w.d.id (rs.take qmMaxChunks)) := by
  have h₀ : Emits w { w with d := { w.d with chunks := [] } } [] := .of_eq rfl rfl rfl
  have h₁ := h₀.emit (e := .stmt (.deleteChunks w.d.id)) rfl
  have h₂ := h₁.trans (emits_appendChunks (rs.take qmMaxChunks))
  rw [persistPlan_eq]
  exact ⟨h₂.log, h₂.disk, h₂.own, h₂.frame⟩

/-- A split inserts the new chunk last, if the table has room. -/
theorem emits_onRebalanceSplit {ps ps' : ℕ → Option ℕ} {a b c : ℕ}
    (h : onRebalanceSplit w ps a b c = (w', ps')) :
    ∃ es, Emits w w' es ∧ (∀ e ∈ es, e.spares = true) ∧
      (w.d.chunks.length < qmMaxChunks → Tidy es) := by
  have hshrink : ∃ es, Emits w (shrinkVictim w a b) es ∧ ∀ e ∈ es, e.spares = true := by
    rw [shrinkVictim]
    split
    · exact ⟨[], .refl, fun e he => (by cases he)⟩
    · rename_i j _
      have h₀ : Emits w { w with d := { w.d with
          chunks := w.d.chunks.modify j fun c => { c with rangeEnd := b - 1 } } } [] :=
        .of_eq rfl rfl rfl
      exact ⟨_, h₀.emit rfl, fun e he => List.mem_singleton.1 he ▸ rfl⟩
  obtain ⟨es, hes, hspares⟩ := hshrink
  rcases lt_or_ge w.d.chunks.length qmMaxChunks with hroom | hfull
  · rw [onRebalanceSplit_of_room hroom] at h
    obtain ⟨rfl, rfl⟩ := Prod.mk.inj h
    refine ⟨_, hes.trans (emits_appendChunk _ _), fun e he => ?_, fun _ =>
      ⟨[], _, rfl, calm_nil, .inr ⟨es, _, rfl, rfl⟩⟩⟩
    rcases List.mem_append.1 he with he | he
    · exact hspares e he
    · exact List.mem_singleton.1 he ▸ rfl
  · rw [onRebalanceSplit_of_full hfull] at h
    obtain ⟨rfl, rfl⟩ := Prod.mk.inj h
    exact ⟨es, hes, hspares, fun hlt => absurd hlt (by omega)⟩

/-! ## Steps -/

theorem PoolStep.emits {R : ℕ → UInt8} {run run' : PoolRun} {a : PoolAct}
    (hst : PoolStep R w run a w' run') (hno : ∀ p ∈ run.pool, p.NoOrphan) :
    ∃ es, Emits w w' es ∧ (∀ e ∈ es, e.spares = true) ∧
      ((∀ i p x, a = .worker i .acquire → run.pool = some p → p.victim = some x →
        w.d.chunks.length < qmMaxChunks) → Tidy es) := by
  have hnil : ∀ e ∈ ([] : List Effect), e.spares = true := fun e he => by cases he
  cases hst with
  | spawnFails => exact ⟨[], .of_eq rfl rfl rfl, hnil, fun _ => calm_nil.tidy⟩
  | dataFails =>
    exact ⟨_, Emits.refl.emit trivial, fun e he => List.mem_singleton.1 he ▸ rfl,
      fun _ => (Calm.of_mem_singleton rfl).tidy⟩
  | @data i c x pos n wrote hc hph hn hs hw =>
    have h₀ : Emits w (w.emit (.pwrite c.current (received R c x pos (run.writable c n)))) _ :=
      Emits.refl.emit trivial
    exact ⟨_, ⟨h₀.log, h₀.disk, h₀.own, h₀.frame⟩, fun e he => List.mem_singleton.1 he ▸ rfl,
      fun _ => (Calm.of_mem_singleton rfl).tidy⟩
  | @acquire i c p hc hph hp =>
    generalize hacq : rebalancePoolAcquire w run p i = x
    obtain ⟨w', run'⟩ := x
    cases Acquired.of_eq (hno p hp) hacq with
    | nothing => exact ⟨[], .refl, hnil, fun _ => calm_nil.tidy⟩
    | split _ _ _ hv heq =>
      obtain ⟨es, hes, hspares, htidy⟩ := emits_onRebalanceSplit heq
      exact ⟨es, hes, hspares, fun hroom => htidy (hroom i p _ rfl hp hv)⟩
  | _ => exact ⟨[], .refl, hnil, fun _ => calm_nil.tidy⟩

theorem PlanStep.emits {io : PlanIo} {pc : Pc} (hst : PlanStep w info io w' pc) :
    ∃ es, Emits w w' es ∧ Tidy es := by
  have hresumed : ∃ es, Emits w (resumed (recordSize w info) info) es ∧ Tidy es := by
    have hes := emits_recordSize (w := w) info
    exact ⟨_, ⟨hes.log, hes.disk, hes.own, hes.frame⟩, (Calm.of_mem_singleton rfl).tidy⟩
  have halloc {w₀ w₁ : World} {rc : ℤ}
      (h₀ : w₀ = w ∧ w.d.chunks = [] ∨
        w₀ = clearResumeState w true ∧ w.d.chunks ≠ [] ∧ resumeIsStale w info = true)
      (halloc : preallocate (recordSize w₀ info) info.totalSize.toNat io.alloc = (w₁, rc)) :
      ∃ es, Emits w w₁ es ∧ Calm es := by
    have hw₀ : ∃ es, Emits w w₀ es ∧ Calm es := by
      rcases h₀ with ⟨rfl, -⟩ | ⟨rfl, -⟩
      · exact ⟨[], .refl, calm_nil⟩
      · exact ⟨_, emits_clearResumeState true, calm_clearResumeState _ _ _⟩
    obtain ⟨l₀, he₀, hc₀⟩ := hw₀
    obtain ⟨l₁, he₁, hc₁⟩ := emits_preallocate halloc
    exact ⟨_, (he₀.trans (emits_recordSize info)).trans he₁,
      (hc₀.append (Calm.of_mem_singleton rfl)).append hc₁⟩
  have hstart {w₀ w₁ : World}
      (h₀ : w₀ = w ∧ w.d.chunks = [] ∨
        w₀ = clearResumeState w true ∧ w.d.chunks ≠ [] ∧ resumeIsStale w info = true)
      (ha : preallocate (recordSize w₀ info) info.totalSize.toNat io.alloc = (w₁, 0)) :
      ∃ es, Emits w (persistPlan w₁ (freshRanges info)) es ∧ Tidy es := by
    obtain ⟨l, hl, hcalm⟩ := halloc h₀ ha
    exact ⟨_, hl.trans (emits_persistPlan (freshRanges info)),
      hcalm.append_tidy ((Calm.of_mem_singleton rfl).append_insertions _ _)⟩
  cases hst with
  | complete => exact hresumed
  | resume => exact hresumed
  | resumeFails => exact hresumed
  | allocFails h₀ ha =>
    obtain ⟨l, hl, hcalm⟩ := halloc h₀ ha
    exact ⟨l, hl, hcalm.tidy⟩
  | start h₀ ha => exact hstart h₀ ha
  | startFails h₀ ha => exact hstart h₀ ha

theorem EngineStep.emits {R : ℕ → UInt8} {s s' : EngineState} {a : EngineAct}
    (hst : EngineStep R s a s') (hsound : SoundPc s.pc) :
    ∃ es, Emits s.w s'.w es ∧ (roomForSplit s (.engine a) = true → Tidy es) := by
  cases hst with
  | check =>
    simp only [engineCheck]
    split_ifs
    · exact ⟨_, emits_clearResumeState false, fun _ => (calm_clearResumeState _ _ _).tidy⟩
    · exact ⟨[], .refl, fun _ => calm_nil.tidy⟩
    · exact ⟨[], .refl, fun _ => calm_nil.tidy⟩
  | plan hplan =>
    obtain ⟨es, hes, htidy⟩ := (PlanStep.of_eq hplan).emits
    exact ⟨es, hes, fun _ => htidy⟩
  | @pool w w' info n run run' a hpool =>
    obtain ⟨es, hes, -, htidy⟩ := hpool.emits (Orderly.noOrphan hsound)
    refine ⟨es, hes, fun hroom => htidy fun i p x ha hp hv => ?_⟩
    subst ha
    simpa [roomForSplit, hp, hv] using hroom
  | flush =>
    obtain ⟨es, hes, -, hcalm⟩ := emits_flushProgress
    exact ⟨es, hes, fun _ => hcalm.tidy⟩
  | decide =>
    simp only [engineDecide]
    split_ifs
    · exact ⟨[], .refl, fun _ => calm_nil.tidy⟩
    · exact ⟨[], .of_eq rfl rfl rfl, fun _ => calm_nil.tidy⟩
    · exact ⟨[], .of_eq rfl rfl rfl, fun _ => calm_nil.tidy⟩
    · exact ⟨[], .refl, fun _ => calm_nil.tidy⟩
  | @fallbackPool w w' info run run' a hpool =>
    obtain ⟨es, hes, -, htidy⟩ := hpool.emits hsound.1.noOrphan
    refine ⟨es, hes, fun _ => htidy fun i p x _ hp _ => ?_⟩
    rw [hsound.2] at hp
    cases hp
  | finalizeFails =>
    exact ⟨_, emits_clearResumeState true, fun _ => (calm_clearResumeState _ _ _).tidy⟩
  | _ => exact ⟨[], .refl, fun _ => calm_nil.tidy⟩

theorem SoundPc.session {R : ℕ → UInt8} {s s' : EngineState} {a : SessionAct}
    (h : SoundPc s.pc) (hst : sessionStep R s a = some s') : SoundPc s'.pc := by
  cases a with
  | engine a =>
    have hfresh : SoundPc (⟨s.w.fresh, s.pc⟩ : EngineState).pc := h
    exact hfresh.engine (.of_eq hst)
  | requestCancel b =>
    cases hst
    exact h
  | requestPause b =>
    cases hst
    exact h
  | restore =>
    simp only [sessionStep] at hst
    split at hst
    · split_ifs at hst
      cases hst
      trivial
    · cases hst

/-- The log of a step of a session holds all that it does to the disk. -/
theorem sessionStep_log {R : ℕ → UInt8} {s s' : EngineState} {a : SessionAct}
    (hsound : SoundPc s.pc) (hst : sessionStep R s a = some s') (hrestore : a ≠ .restore) :
    s'.w.disk = s.w.disk.applyAll s'.w.log ∧ s'.w.d.id = s.w.d.id ∧
      (∀ e ∈ s'.w.log, e.Own s.w.d.id) ∧ (roomForSplit s a = true → Tidy s'.w.log) := by
  cases a with
  | engine a =>
    obtain ⟨es, hes, htidy⟩ := (EngineStep.of_eq hst).emits hsound
    have hlog : s'.w.log = es := hes.log
    rw [hlog]
    exact ⟨hes.disk, hes.id_eq, hes.own, htidy⟩
  | requestCancel b =>
    cases hst
    exact ⟨rfl, rfl, fun e he => (by cases he), fun _ => calm_nil.tidy⟩
  | requestPause b =>
    cases hst
    exact ⟨rfl, rfl, fun e he => (by cases he), fun _ => calm_nil.tidy⟩
  | restore => exact absurd rfl hrestore

/-! ## The cancel flag

No function of the engine changes the cancel flag, but the pool does, when the thread of
a worker is not created. -/

theorem clearResumeState_cancel (b : Bool) :
    (clearResumeState w b).d.cancelRequested = w.d.cancelRequested := by
  rw [clearResumeState]
  split_ifs <;> rfl

theorem appendChunks_cancel (rs : List Range) :
    (appendChunks w rs).d.cancelRequested = w.d.cancelRequested := by
  induction rs generalizing w with
  | nil => rfl
  | cons r rs ih => exact ih

theorem onRebalanceSplit_cancel {ps ps' : ℕ → Option ℕ} {a b c : ℕ}
    (h : onRebalanceSplit w ps a b c = (w', ps')) : w'.d.cancelRequested = w.d.cancelRequested := by
  have hshrink : (shrinkVictim w a b).d.cancelRequested = w.d.cancelRequested := by
    rw [shrinkVictim]
    split <;> rfl
  rcases lt_or_ge w.d.chunks.length qmMaxChunks with hroom | hfull
  · rw [onRebalanceSplit_of_room hroom] at h
    cases h
    exact hshrink
  · rw [onRebalanceSplit_of_full hfull] at h
    cases h
    exact hshrink

theorem PoolStep.cancel {R : ℕ → UInt8} {run run' : PoolRun} {a : PoolAct}
    (hst : PoolStep R w run a w' run') (hno : ∀ p ∈ run.pool, p.NoOrphan) :
    w'.d.cancelRequested = w.d.cancelRequested ∨
      (a = .spawn false ∧ w'.d.cancelRequested = true) := by
  cases hst with
  | spawnFails => exact .inr ⟨rfl, rfl⟩
  | @acquire i c p hc hph hp =>
    generalize hacq : rebalancePoolAcquire w run p i = x
    obtain ⟨w', run'⟩ := x
    cases Acquired.of_eq (hno p hp) hacq with
    | nothing => exact .inl rfl
    | split _ _ _ _ heq => exact .inl (onRebalanceSplit_cancel heq)
  | _ => exact .inl rfl

theorem PlanStep.cancel {io : PlanIo} {pc : Pc} (hst : PlanStep w info io w' pc) :
    w'.d.cancelRequested = w.d.cancelRequested := by
  have halloc {w₀ w₁ : World} {rc : ℤ}
      (h₀ : w₀ = w ∧ w.d.chunks = [] ∨
        w₀ = clearResumeState w true ∧ w.d.chunks ≠ [] ∧ resumeIsStale w info = true)
      (ha : preallocate (recordSize w₀ info) info.totalSize.toNat io.alloc = (w₁, rc)) :
      w₁.d.cancelRequested = w.d.cancelRequested := by
    rw [(preallocate_spec ha).1]
    rcases h₀ with ⟨rfl, -⟩ | ⟨rfl, -⟩
    · rfl
    · exact clearResumeState_cancel true
  have hpersist (w₁ : World) (rs : List Range) :
      (persistPlan w₁ rs).d.cancelRequested = w₁.d.cancelRequested := by
    rw [persistPlan_eq]
    exact appendChunks_cancel _
  cases hst with
  | complete => rfl
  | resume => rfl
  | resumeFails => rfl
  | allocFails h₀ ha => exact halloc h₀ ha
  | start h₀ ha => rw [hpersist, halloc h₀ ha]
  | startFails h₀ ha => rw [hpersist, halloc h₀ ha]

theorem EngineStep.cancel {R : ℕ → UInt8} {s s' : EngineState} {a : EngineAct}
    (hst : EngineStep R s a s') (hsound : SoundPc s.pc) :
    s'.w.d.cancelRequested = s.w.d.cancelRequested ∨
      (a = .pool (.spawn false) ∧ s'.w.d.cancelRequested = true) := by
  cases hst with
  | check =>
    simp only [engineCheck]
    split_ifs
    · exact .inl (clearResumeState_cancel _)
    · exact .inl rfl
    · exact .inl rfl
  | plan hplan => exact .inl (PlanStep.of_eq hplan).cancel
  | pool hpool =>
    rcases hpool.cancel (Orderly.noOrphan hsound) with h | ⟨rfl, h⟩
    · exact .inl h
    · exact .inr ⟨rfl, h⟩
  | @flush w =>
    obtain ⟨qs, hw, -⟩ := flushProgress_spec w
    rw [hw]
    exact .inl rfl
  | decide =>
    simp only [engineDecide]
    split_ifs <;> exact .inl rfl
  | fallbackPool hpool =>
    rcases hpool.cancel hsound.1.noOrphan with h | ⟨rfl, h⟩
    · exact .inl h
    · exact .inr ⟨rfl, h⟩
  | finalizeFails => exact .inl (clearResumeState_cancel _)
  | _ => exact .inl rfl

end Cdm
