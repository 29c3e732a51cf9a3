import Cdm.Engine.Mirror
import Cdm.Daemon.Ownership

/-!
# Stored progress and live counters

A report reads the live counters of the chunks, and stores them one after another, while
the engine goes on. What is stored for a chunk is *backed* by memory (`Backed`): by the
counter of the chunk while its transfer runs, and by the bytes done recorded in the chunk
table otherwise; and what a report has read, and has still to store, lies between the
two.

The engine keeps this (`Backed.engine`), if it does nothing under a report that outdates
what the report has read (`outdates`).
-/

namespace Cdm

/-- The pool runs on the planned ranges, or its progress is not flushed yet. -/
def Pc.transfers : Pc → Bool
  | .running _ _ _ | .flushing _ _ _ => true
  | _ => false

/-- What memory has for the `j`-th chunk `c`: its counter while the transfer runs (`t`). -/
def Download.backing (d : Download) (t : Bool) (j : ℕ) (c : DownloadChunk) : ℕ :=
  if t then d.chunkLiveBytes j else c.bytesDone

/-- The counter of a chunk is not behind its bytes done while the transfer runs; before
    and after, it agrees with them, or was not set since the download was restored. -/
def Download.Counts (d : Download) (t : Bool) (j : ℕ) (c : DownloadChunk) : Prop :=
  if t then c.bytesDone ≤ d.chunkLiveBytes j
  else d.chunkLiveBytes j = c.bytesDone ∨ d.chunkLiveBytes j = 0

/-- The stored progress of a download, and the progress `ps` a report has still to store
    for it, are backed by memory. -/
structure Backed (t : Bool) (w : World) (ps : List ChunkProgressSnapshot) : Prop where
  distinct : DistinctStarts w.d.chunks
  counts : ∀ j c, w.d.chunks[j]? = some c → w.d.Counts t j c
  stored : ∀ j c r, w.d.chunks[j]? = some c → r ∈ w.rows → r.rangeStart = c.rangeStart →
    r.bytesDone ≤ w.d.backing t j c
  pending : ∀ j c p, w.d.chunks[j]? = some c → p ∈ ps → p.rangeStart = c.rangeStart →
    p.bytesDone ≤ w.d.backing t j c
  /-- A report does not lower what is stored. -/
  ahead : ∀ p r, p ∈ ps → r ∈ w.rows → r.rangeStart = p.rangeStart → r.bytesDone ≤ p.bytesDone

/-- The chunks of the progress still to be stored are there. -/
def Present (w : World) (ps : List ChunkProgressSnapshot) : Prop :=
  ∀ p ∈ ps, ∃ c ∈ w.d.chunks, c.rangeStart = p.rangeStart

/-- The single connection counts for no chunk. -/
def Uncounted : Pc → Prop
  | .fallback _ run => ∀ c ∈ run.contexts, c.chunkProgressSlot = none
  | _ => True

/-- A step of the engine that outdates the progress `ps` of its download that a report has
    still to store, or mixes it up: planning afresh; flushing counters that have moved on;
    and recording a chunk, or inserting a row, that starts where another one does. -/
def outdates (w : World) (ps : List ChunkProgressSnapshot) : Pc → EngineAct → Bool
  | .planning info, .plan _ => (w.d.chunks = [] || resumeIsStale w info) && ps ≠ []
  | .flushing _ _ _, .flush =>
    ps.any fun p => w.d.chunks.zipIdx.any fun x =>
      x.1.rangeStart = p.rangeStart && p.bytesDone < w.d.chunkLiveBytes x.2
  | .running _ _ run, .pool (.worker _ .acquire) =>
    run.pool.any fun q => q.victim.any fun x =>
      w.d.chunks.any (·.rangeStart = x.1.middle) || w.rows.any (·.rangeStart = x.1.middle)
  | _, _ => false

variable {R : ℕ → UInt8} {t t' : Bool} {w w' : World} {ps ps' : List ChunkProgressSnapshot}
  {info : FileInfo} {pc : Pc} {run run' : PoolRun}

namespace Backed

/-- What is backed depends on the chunks, the counters and the rows only. -/
theorem congr (h : Backed t w ps) (hchunks : w'.d.chunks = w.d.chunks)
    (hlive : w'.d.chunkLiveBytes = w.d.chunkLiveBytes) (hrows : w'.rows = w.rows) :
    Backed t w' ps := by
  obtain ⟨h₁, h₂, h₃, h₄, h₅⟩ := h
  refine ⟨?_, ?_, ?_, ?_, ?_⟩ <;>
    simp only [hchunks, hrows, Download.Counts, Download.backing, hlive] at h₁ h₂ h₃ h₄ h₅ ⊢ <;>
    assumption

/-- A download without chunks. -/
theorem nil (hchunks : w.d.chunks = [])
    (hahead : ∀ p r, p ∈ ps → r ∈ w.rows → r.rangeStart = p.rangeStart →
      r.bytesDone ≤ p.bytesDone) : Backed t w ps := by
  refine ⟨?_, ?_, ?_, ?_, hahead⟩ <;> rw [hchunks]
  · exact List.nodup_nil
  all_goals
    intro j c
    simp

theorem of_discarded (b : Bool) : Backed t (clearResumeState w b) ps := by
  refine nil (clearResumeState_chunks b) fun p r _ hr => ?_
  rw [clearResumeState_rows] at hr
  cases hr

/-- Fewer chunks are still to be stored. -/
theorem mono (h : Backed t w ps) (hps : ps' ⊆ ps) : Backed t w ps' :=
  ⟨h.distinct, h.counts, h.stored, fun j c p hc hp => h.pending j c p hc (hps hp),
    fun p r hp => h.ahead p r (hps hp)⟩

/-! ## Planning -/

/-- Resuming sets the counters to the bytes done. -/
theorem resumed (h : Backed false w ps) : Backed t (Cdm.resumed (recordSize w info) info) ps := by
  have hlive {j : ℕ} {c : DownloadChunk} (hc : w.d.chunks[j]? = some c) :
      (Cdm.resumed (recordSize w info) info).d.chunkLiveBytes j = c.bytesDone := by
    simp [Cdm.resumed, hc]
  have hback {j : ℕ} {c : DownloadChunk} (hc : w.d.chunks[j]? = some c) :
      (Cdm.resumed (recordSize w info) info).d.backing t j c = c.bytesDone := by
    rw [Download.backing, hlive hc, ite_self]
  refine ⟨h.distinct, fun j c hc => ?_, fun j c r hc hr hs => ?_, fun j c p hc hp hs => ?_,
    h.ahead⟩
  · rw [Download.Counts, hlive hc]
    split_ifs
    · exact le_rfl
    · exact .inl rfl
  · rw [hback hc]
    exact h.stored j c r hc hr hs
  · rw [hback hc]
    exact h.pending j c p hc hp hs

end Backed

theorem mem_rows_appendChunk {a b : ℕ} {r : ChunkRow} (h : r ∈ (appendChunk w a b).rows) :
    r ∈ w.rows ∨ r = ⟨w.d.id, a, b, 0⟩ := by
  by_cases hrow : w.HasRow
  · rw [appendChunk_rows a b hrow] at h
    rcases List.mem_append.1 h with h | h
    · exact .inl h
    · exact .inr (List.mem_singleton.1 h)
  · -- Without the row of the download, the insertion fails.
    left
    have hdb : w.disk.db.exec (.insertChunk w.d.id a b) = w.disk.db := if_neg hrow
    have hrows : (appendChunk w a b).rows = w.rows := congrArg (·.chunksOf w.d.id) hdb
    rwa [hrows] at h

theorem bytesDone_of_mem_appendChunks {rs : List Range} (h : ∀ r ∈ w.rows, r.bytesDone = 0) :
    ∀ r ∈ (appendChunks w rs).rows, r.bytesDone = 0 := by
  induction rs generalizing w with
  | nil => exact h
  | cons r rs ih =>
    refine ih fun r' hr' => ?_
    rcases mem_rows_appendChunk hr' with hr' | rfl
    · exact h r' hr'
    · rfl

/-- Nothing is done, or stored, for a fresh plan. -/
theorem Backed.of_persistPlan : Backed t (persistPlan w (freshRanges info)) [] := by
  have hrows : ∀ r ∈ (persistPlan w (freshRanges info)).rows, r.bytesDone = 0 := by
    rw [persistPlan_eq]
    refine bytesDone_of_mem_appendChunks fun r hr => ?_
    rw [World.rows, World.query_db, World.query_d, Db.chunksOf_deleteChunks] at hr
    cases hr
  refine ⟨?_, fun j c hc => ?_, fun j c r hc hr hs => ?_, fun j c p _ hp => (by cases hp),
    fun p r hp => (by cases hp)⟩
  · rw [persistPlan_freshRanges]
    exact (separate_freshRanges info).distinctStarts
  · have hlt := (List.getElem?_eq_some_iff.1 hc).1
    rw [persistPlan_chunks] at hc hlt
    rw [List.length_map] at hlt
    obtain ⟨r, -, rfl⟩ := List.mem_map.1 (List.mem_of_getElem? hc)
    rw [Download.Counts, persistPlan_live _ hlt]
    split_ifs
    · exact le_rfl
    · exact .inl rfl
  · rw [hrows r hr]
    exact Nat.zero_le _

theorem Backed.plan {io : PlanIo} (h : Backed false w ps) (hpresent : Present w ps)
    (hst : PlanStep w info io w' pc) (hok : outdates w ps (.planning info) (.plan io) = false) :
    Backed pc.transfers w' ps ∧ Present w' ps := by
  -- A fresh plan is made while nothing is still to be stored.
  have hfresh {w₀ : World} (h₀ : w₀ = w ∧ w.d.chunks = [] ∨
      w₀ = clearResumeState w true ∧ w.d.chunks ≠ [] ∧ resumeIsStale w info = true) : ps = [] := by
    simp only [outdates, Bool.and_eq_false_iff, Bool.or_eq_false_iff, decide_eq_false_iff_not,
      not_not] at hok
    rcases hok with ⟨hne, hstale⟩ | hps
    · rcases h₀ with ⟨-, hnil⟩ | ⟨-, -, hs⟩
      · exact absurd hnil hne
      · rw [hstale] at hs
        cases hs
    · exact hps
  cases hst with
  | complete => exact ⟨h.resumed, hpresent⟩
  | resume => exact ⟨h.resumed, hpresent⟩
  | resumeFails => exact ⟨h.resumed, hpresent⟩
  | allocFails h₀ halloc =>
    obtain rfl := hfresh h₀
    obtain ⟨hd, hdb, -⟩ := preallocate_spec halloc
    refine ⟨.nil ?_ fun p r hp => (by cases hp), fun p hp => (by cases hp)⟩
    rw [hd, recordSize_chunks]
    rcases h₀ with ⟨rfl, hnil⟩ | ⟨rfl, -⟩
    · exact hnil
    · exact clearResumeState_chunks true
  | start h₀ =>
    obtain rfl := hfresh h₀
    exact ⟨.of_persistPlan, fun p hp => (by cases hp)⟩
  | startFails h₀ =>
    obtain rfl := hfresh h₀
    exact ⟨.of_persistPlan, fun p hp => (by cases hp)⟩

/-! ## Transfers -/

/-- The counters do not fall while the transfer runs. -/
theorem Backed.counted (h : Backed true w ps) (hchunks : w'.d.chunks = w.d.chunks)
    (hlive : ∀ j, w.d.chunkLiveBytes j ≤ w'.d.chunkLiveBytes j) (hrows : w'.rows = w.rows) :
    Backed true w' ps := by
  refine ⟨hchunks ▸ h.distinct, fun j c hc => ?_, fun j c r hc hr hs => ?_, fun j c p hc hp hs => ?_,
    fun p r hp hr => h.ahead p r hp (hrows ▸ hr)⟩ <;> rw [hchunks] at hc
  · exact (h.counts j c hc).trans (hlive j)
  · exact (h.stored j c r hc (hrows ▸ hr) hs).trans (hlive j)
  · exact (h.pending j c p hc hp hs).trans (hlive j)

/-- The rows of a split: they keep their starts and their bytes done. -/
theorem mem_rows_shrinkVictim {a b : ℕ} {r : ChunkRow} (h : r ∈ (shrinkVictim w a b).rows) :
    ∃ r₀ ∈ w.rows, r.rangeStart = r₀.rangeStart ∧ r.bytesDone = r₀.bytesDone := by
  rcases shrinkVictim_rows (w := w) a b with ⟨-, hrows⟩ | hrows <;> rw [hrows] at h
  · exact ⟨r, h, rfl, rfl⟩
  · obtain ⟨r₀, hr₀, rfl⟩ := List.mem_map.1 h
    refine ⟨r₀, hr₀, ?_⟩
    split_ifs <;> exact ⟨rfl, rfl⟩

theorem Backed.shrinkVictim (h : Backed true w ps) (a b : ℕ) :
    Backed true (Cdm.shrinkVictim w a b) ps := by
  have hchunk {j : ℕ} {c : DownloadChunk} (hc : (Cdm.shrinkVictim w a b).d.chunks[j]? = some c) :
      ∃ c₀, w.d.chunks[j]? = some c₀ ∧ c.rangeStart = c₀.rangeStart ∧
        c.bytesDone = c₀.bytesDone := by
    rw [shrinkVictim_chunks] at hc
    obtain ⟨c₀, hc₀, hs, hb, -⟩ := getElem?_cutChunk hc
    exact ⟨c₀, hc₀, hs, hb⟩
  have hback (j : ℕ) (c : DownloadChunk) :
      (Cdm.shrinkVictim w a b).d.backing true j c = w.d.chunkLiveBytes j := by
    rw [Download.backing, if_pos rfl, shrinkVictim_live]
  refine ⟨?_, fun j c hc => ?_, fun j c r hc hr hs => ?_, fun j c p hc hp hs => ?_,
    fun p r hp hr hs => ?_⟩
  · rw [shrinkVictim_chunks, h.distinct.cutChunk_eq]
    refine h.distinct.map fun c => ?_
    split_ifs <;> rfl
  · obtain ⟨c₀, hc₀, -, hb⟩ := hchunk hc
    rw [Download.Counts, if_pos rfl, shrinkVictim_live, hb]
    exact h.counts j c₀ hc₀
  · obtain ⟨c₀, hc₀, hs₀, -⟩ := hchunk hc
    obtain ⟨r₀, hr₀, hs₁, hb⟩ := mem_rows_shrinkVictim hr
    rw [hback, hb]
    exact h.stored j c₀ r₀ hc₀ hr₀ (by rw [← hs₁, hs, hs₀])
  · obtain ⟨c₀, hc₀, hs₀, -⟩ := hchunk hc
    rw [hback]
    exact h.pending j c₀ p hc₀ hp (hs.trans hs₀)
  · obtain ⟨r₀, hr₀, hs₁, hb⟩ := mem_rows_shrinkVictim hr
    rw [hb]
    exact h.ahead p r₀ hp hr₀ (hs₁.symm.trans hs)

/-- A chunk recorded where none starts, nor a row, has nothing done. -/
theorem Backed.appendChunk {a b : ℕ} (h : Backed true w ps)
    (hchunk : ∀ c ∈ w.d.chunks, c.rangeStart ≠ a) (hrow : ∀ r ∈ w.rows, r.rangeStart ≠ a)
    (hps : ∀ p ∈ ps, p.rangeStart ≠ a) : Backed true (Cdm.appendChunk w a b) ps := by
  have hback (j : ℕ) (c : DownloadChunk) : (Cdm.appendChunk w a b).d.backing true j c =
      if j = w.d.chunks.length then 0 else w.d.chunkLiveBytes j := by
    rw [Download.backing, if_pos rfl, appendChunk_live]
  have hold {j : ℕ} {c : DownloadChunk} (hc : w.d.chunks[j]? = some c) : j ≠ w.d.chunks.length :=
    (List.getElem?_eq_some_iff.1 hc).1.ne
  refine ⟨h.distinct.append hchunk, fun j c hc => ?_, fun j c r hc hr hs => ?_,
    fun j c p hc hp hs => ?_, fun p r hp hr hs => ?_⟩
  · rcases List.getElem?_concat_eq_some.1 hc with hc | ⟨rfl, rfl⟩
    · rw [Download.Counts, if_pos rfl, appendChunk_live, if_neg (hold hc)]
      exact h.counts j c hc
    · exact Nat.zero_le _
  · rw [hback]
    rcases List.getElem?_concat_eq_some.1 hc with hc | ⟨rfl, rfl⟩
    · rw [if_neg (hold hc)]
      rcases mem_rows_appendChunk hr with hr | rfl
      · exact h.stored j c r hc hr hs
      · exact Nat.zero_le _
    · rcases mem_rows_appendChunk hr with hr | rfl
      · exact absurd hs (hrow r hr)
      · exact Nat.zero_le _
  · rw [hback]
    rcases List.getElem?_concat_eq_some.1 hc with hc | ⟨rfl, rfl⟩
    · rw [if_neg (hold hc)]
      exact h.pending j c p hc hp hs
    · exact absurd hs (hps p hp)
  · rcases mem_rows_appendChunk hr with hr | rfl
    · exact h.ahead p r hp hr hs
    · exact Nat.zero_le _

/-- A split records a chunk that starts where none does. -/
theorem Backed.split {slots slots' : ℕ → Option ℕ} {a m e : ℕ} (h : Backed true w ps)
    (hpresent : Present w ps) (hchunk : ∀ c ∈ w.d.chunks, c.rangeStart ≠ m)
    (hrow : ∀ r ∈ w.rows, r.rangeStart ≠ m)
    (heq : onRebalanceSplit w slots a m e = (w', slots')) :
    Backed true w' ps ∧ Present w' ps := by
  refine ⟨?_, fun p hp => ?_⟩
  · rcases lt_or_ge w.d.chunks.length qmMaxChunks with hroom | hfull
    · rw [onRebalanceSplit_of_room hroom] at heq
      obtain ⟨rfl, -⟩ := Prod.mk.inj heq
      refine (h.shrinkVictim a m).appendChunk (fun c hc => ?_) (fun r hr => ?_) fun p hp => ?_
      · obtain ⟨j, hj⟩ := List.mem_iff_getElem?.1 hc
        rw [shrinkVictim_chunks] at hj
        obtain ⟨c₀, hc₀, hs, -⟩ := getElem?_cutChunk hj
        exact hs ▸ hchunk c₀ (List.mem_of_getElem? hc₀)
      · obtain ⟨r₀, hr₀, hs, -⟩ := mem_rows_shrinkVictim hr
        exact hs ▸ hrow r₀ hr₀
      · obtain ⟨c, hc, hs⟩ := hpresent p hp
        exact hs ▸ hchunk c hc
    · rw [onRebalanceSplit_of_full hfull] at heq
      obtain ⟨rfl, -⟩ := Prod.mk.inj heq
      exact h.shrinkVictim a m
  · obtain ⟨c, hc, hs⟩ := hpresent p hp
    obtain ⟨j, hj⟩ := List.mem_iff_getElem?.1 hc
    obtain ⟨c', hc', hs', -⟩ := onRebalanceSplit_keeps heq hj
    exact ⟨c', List.mem_of_getElem? hc', hs'.trans hs⟩

theorem Backed.pool {a : PoolAct} {n : ℕ} (h : Backed true w ps) (hpresent : Present w ps)
    (hno : ∀ p ∈ run.pool, p.NoOrphan) (hst : PoolStep R w run a w' run')
    (hok : outdates w ps (.running info n run) (.pool a) = false) :
    Backed true w' ps ∧ Present w' ps := by
  cases hst with
  | data =>
    refine ⟨h.counted rfl (fun j => ?_) rfl, hpresent⟩
    rw [World.count_live]
    exact Nat.le_add_right _ _
  | @acquire i c p hc hph hp =>
    generalize hacq : rebalancePoolAcquire w run p i = x
    obtain ⟨w', run'⟩ := x
    cases Acquired.of_eq (hno p hp) hacq with
    | nothing => exact ⟨h, hpresent⟩
    | split _ _ _ hv heq =>
      simp only [outdates, hp, Option.any_some, hv, Bool.or_eq_false_iff, List.any_eq_false,
        decide_eq_true_eq] at hok
      exact h.split hpresent hok.1 hok.2 heq
  | _ => exact ⟨h.congr rfl rfl rfl, hpresent⟩

/-! ## Flushing -/

/-- The rows of the chunks have their counters after a flush; the others are kept. -/
theorem mem_rows_flushProgress {r : ChunkRow} (hd : DistinctStarts w.d.chunks)
    (hr : r ∈ (flushProgress w).rows) :
    (∃ j c, w.d.chunks[j]? = some c ∧ r.rangeStart = c.rangeStart ∧
      r.bytesDone = w.d.chunkLiveBytes j) ∨
    (∀ c ∈ w.d.chunks, c.rangeStart ≠ r.rangeStart) ∧ r ∈ w.rows := by
  obtain ⟨qs, hflush, hqs⟩ := flushProgress_spec w
  rw [hflush, World.rows, hqs] at hr
  rw [chunksOf_foldl_updateChunkProgress (distinctStarts_flushed hd)] at hr
  obtain ⟨r₀, hr₀, rfl⟩ := List.mem_map.1 hr
  by_cases hs : ∃ c ∈ w.d.chunks, c.rangeStart = r₀.rangeStart
  · left
    obtain ⟨c, hc, hs⟩ := hs
    obtain ⟨j, hj⟩ := List.mem_iff_getElem?.1 hc
    refine ⟨j, c, hj, hs.symm, ?_⟩
    simp only
    rw [← hs, recordedBytes_flushed hd hj]
  · right
    have hne : ∀ c ∈ w.d.chunks, c.rangeStart ≠ r₀.rangeStart := fun c hc heq => hs ⟨c, hc, heq⟩
    refine ⟨hne, ?_⟩
    have hnone : (w.d.chunks.mapIdx fun i c =>
        { c with bytesDone := w.d.chunkLiveBytes i }).find? (·.rangeStart = r₀.rangeStart) =
          none := by
      refine List.find?_eq_none.2 fun c hc => ?_
      obtain ⟨j, hj⟩ := List.mem_iff_getElem?.1 hc
      obtain ⟨c₀, hc₀, rfl⟩ := getElem?_flushed.1 hj
      simpa using hne c₀ (List.mem_of_getElem? hc₀)
    rw [recordedBytes, hnone]
    exact hr₀

theorem Backed.flush {n : ℕ} {ok : Bool} (h : Backed true w ps) (hpresent : Present w ps)
    (hok : outdates w ps (.flushing info n ok) .flush = false) :
    Backed false (flushProgress w) ps ∧ Present (flushProgress w) ps := by
  have hchunk {j : ℕ} {c : DownloadChunk} (hc : (flushProgress w).d.chunks[j]? = some c) :
      ∃ c₀, w.d.chunks[j]? = some c₀ ∧ c = { c₀ with bytesDone := w.d.chunkLiveBytes j } := by
    rw [flushProgress_chunks] at hc
    exact getElem?_flushed.1 hc
  -- The counters have not moved on since the report has read them.
  have hcurrent {p : ChunkProgressSnapshot} {j : ℕ} {c : DownloadChunk} (hp : p ∈ ps)
      (hc : w.d.chunks[j]? = some c) (hs : c.rangeStart = p.rangeStart) :
      w.d.chunkLiveBytes j ≤ p.bytesDone := by
    simp only [outdates, List.any_eq_false, Bool.not_eq_true, Bool.and_eq_false_iff,
      decide_eq_false_iff_not, not_lt] at hok
    refine (hok p hp (c, j) (List.mk_mem_zipIdx_iff_getElem?.2 hc)).resolve_left ?_
    exact fun hne => hne hs
  refine ⟨⟨?_, fun j c hc => ?_, fun j c r hc hr hs => ?_, fun j c p hc hp hs => ?_,
    fun p r hp hr hs => ?_⟩, fun p hp => ?_⟩
  · rw [flushProgress_chunks]
    exact distinctStarts_flushed h.distinct
  · obtain ⟨c₀, -, rfl⟩ := hchunk hc
    refine .inl ?_
    rw [flushProgress_live]
  · obtain ⟨c₀, hc₀, rfl⟩ := hchunk hc
    rcases mem_rows_flushProgress h.distinct hr with ⟨j', c', hc', hs', hb⟩ | ⟨hne, -⟩
    · have hjj := h.distinct.index_eq hc' hc₀ (hs'.symm.trans hs)
      subst hjj
      exact hb.le
    · exact absurd hs.symm (hne c₀ (List.mem_of_getElem? hc₀))
  · obtain ⟨c₀, hc₀, rfl⟩ := hchunk hc
    exact h.pending j c₀ p hc₀ hp hs
  · rcases mem_rows_flushProgress h.distinct hr with ⟨j, c, hc, hs', hb⟩ | ⟨-, hr⟩
    · rw [hb]
      exact hcurrent hp hc (hs'.symm.trans hs)
    · exact h.ahead p r hp hr hs
  · obtain ⟨c, hc, hs⟩ := hpresent p hp
    obtain ⟨j, hj⟩ := List.mem_iff_getElem?.1 hc
    have hj' : (flushProgress w).d.chunks[j]? =
        some { c with bytesDone := w.d.chunkLiveBytes j } := by
      rw [flushProgress_chunks]
      exact getElem?_flushed.2 ⟨c, hj, rfl⟩
    exact ⟨_, List.mem_of_getElem? hj', hs⟩

/-! ## Calls -/

theorem Uncounted.pool {a : PoolAct} (h : ∀ c ∈ run.contexts, c.chunkProgressSlot = none)
    (hp : run.pool = none) (hst : PoolStep R w run a w' run') :
    ∀ c ∈ run'.contexts, c.chunkProgressSlot = none := by
  have hmodify {i : ℕ} {f : WorkerContext → WorkerContext}
      (hf : ∀ c, (f c).chunkProgressSlot = c.chunkProgressSlot) :
      ∀ c ∈ run.contexts.modify i f, c.chunkProgressSlot = none :=
    List.forall_mem_modify h fun c hc => (hf c).trans (h c (List.mem_of_getElem? hc))
  cases hst with
  | acquire _ _ hp' =>
    rw [hp] at hp'
    cases hp'
  | markDone _ _ hp' =>
    rw [hp] at hp'
    cases hp'
  | spawnFails => exact h
  | _ => exact hmodify fun _ => rfl

/-- The transfer of a single connection changes no counter of a chunk. -/
theorem Backed.fallback {a : PoolAct} (h : Backed t w ps)
    (hun : ∀ c ∈ run.contexts, c.chunkProgressSlot = none) (hp : run.pool = none)
    (hst : PoolStep R w run a w' run') : Backed t w' ps := by
  obtain ⟨hchunks, hdb, hid, -⟩ := hst.of_pool_none hp
  refine h.congr hchunks ?_ (by rw [World.rows, World.rows, hdb, hid])
  cases hst with
  | data hc =>
    funext j
    rw [World.count_live, hun _ (List.mem_of_getElem? hc), if_neg (by simp)]
    rfl
  | acquire _ _ hp' =>
    rw [hp] at hp'
    cases hp'
  | _ => rfl

/-- What is known of a download where the engine is, with the progress `ps` still to be
    stored for it. -/
structure BackedCall (w : World) (pc : Pc) (ps : List ChunkProgressSnapshot) : Prop where
  sound : SoundPc pc
  uncounted : Uncounted pc
  backed : Backed pc.transfers w ps
  present : (∃ rc, pc = .idle rc) ∨ Present w ps

theorem BackedCall.engine {s s' : EngineState} {a : EngineAct} (h : BackedCall s.w s.pc ps)
    (hst : EngineStep R s a s') (ha : a ≠ .call) (hok : outdates s.w ps s.pc a = false) :
    BackedCall s'.w s'.pc ps := by
  have hsound := h.sound.engine hst
  obtain ⟨hold, hun, hb, hpresent⟩ := h
  cases hst with
  | call => exact absurd rfl ha
  | check =>
    have hpresent := hpresent.resolve_left (by simp)
    simp only [engineCheck] at hsound ⊢
    split_ifs
    · -- The file is gone, so that the chunks are given up with their rows.
      exact ⟨trivial, trivial, .of_discarded false, .inl ⟨_, rfl⟩⟩
    · exact ⟨trivial, trivial, hb, .inr hpresent⟩
    · exact ⟨trivial, trivial, hb, .inl ⟨_, rfl⟩⟩
  | headFails => exact ⟨trivial, trivial, hb, .inl ⟨_, rfl⟩⟩
  | head => exact ⟨trivial, trivial, hb, .inr (hpresent.resolve_left (by simp))⟩
  | plan hplan =>
    have hplan := PlanStep.of_eq hplan
    obtain ⟨hb', hpresent'⟩ := hb.plan (hpresent.resolve_left (by simp)) hplan hok
    refine ⟨hsound, ?_, hb', .inr hpresent'⟩
    cases hplan <;> trivial
  | pool hpool =>
    obtain ⟨hb', hpresent'⟩ := hb.pool (hpresent.resolve_left (by simp))
      (Orderly.noOrphan hold) hpool hok
    exact ⟨hsound, trivial, hb', .inr hpresent'⟩
  | join => exact ⟨trivial, trivial, hb, .inr (hpresent.resolve_left (by simp))⟩
  | flush =>
    obtain ⟨hb', hpresent'⟩ := hb.flush (hpresent.resolve_left (by simp)) hok
    exact ⟨trivial, trivial, hb', .inr hpresent'⟩
  | decide =>
    have hpresent := hpresent.resolve_left (by simp)
    simp only [engineDecide] at hsound ⊢
    split_ifs at hsound ⊢
    · exact ⟨trivial, trivial, hb, .inr hpresent⟩
    · exact ⟨trivial, trivial, hb.congr rfl rfl rfl, .inl ⟨_, rfl⟩⟩
    · refine ⟨hsound, fun c hc => ?_, hb.congr rfl rfl rfl, .inr hpresent⟩
      -- The single connection of the fallback counts for no chunk.
      rw [List.mem_singleton.1 hc]
      rfl
    · exact ⟨trivial, trivial, hb, .inl ⟨_, rfl⟩⟩
  | fallbackPool hpool =>
    have hpresent := hpresent.resolve_left (by simp)
    obtain ⟨hchunks, -⟩ := hpool.of_pool_none hold.2
    refine ⟨hsound, Uncounted.pool hun hold.2 hpool, hb.fallback hun hold.2 hpool, .inr ?_⟩
    rw [Present, hchunks]
    exact hpresent
  | fallbackJoin =>
    have hpresent := hpresent.resolve_left (by simp)
    simp only at hsound ⊢
    split_ifs
    · exact ⟨trivial, trivial, hb, .inr hpresent⟩
    · exact ⟨trivial, trivial, hb, .inl ⟨_, rfl⟩⟩
  | finalize => exact ⟨trivial, trivial, hb, .inl ⟨_, rfl⟩⟩
  | finalizeFails => exact ⟨trivial, trivial, .of_discarded true, .inl ⟨_, rfl⟩⟩

end Cdm
