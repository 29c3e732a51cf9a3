import Cdm.Engine.Plan
import Cdm.Engine.Session

/-!
# Servers without range support

Without range support, the plan is a single chunk of the whole file, and every call
fetches it again from the first byte. The counter of the chunk goes on from the bytes
recorded by the calls before, though: it adds up what all the interrupted transfers
delivered, and may reach the size of the file while no transfer did. The next call
then takes the chunk for complete, and reports success on a file that is not
(`exists_incomplete_success`).

As long as the sum stays below the size when a transfer is cut short (`countsBelow`),
a call that returns `0` leaves the resource in the file (`complete_of_countsBelow`).
The invariant (`Inv`) is that the recorded bytes stay below the size, unless the file
is complete.
-/

namespace Cdm.WholeFile

variable {R : ℕ → UInt8} {T : UInt64}

/-- The server: it has no range support, and answers with a prefix of the resource, of
    `T` bytes, if at all. -/
def serves (T : UInt64) : SessionAct → Bool
  | .engine (.head (some info)) => info = ⟨T, false⟩
  | .engine (.pool (.worker _ (.answer a))) =>
    match a with
    | .ok len => len ≤ T.toNat
    | .refused _ => true
    | _ => false
  | _ => true

/-- A transfer that ends delivered the whole resource, or its bytes and those recorded
    before the call add up to less than the resource. -/
def countsBelow (T : UInt64) (s : EngineState) : SessionAct → Bool
  | .engine (.pool (.worker i (.finish _))) =>
    match s.pc with
    | .running _ _ run => (run.contexts[i]?).all fun c => s.w.d.chunks.all fun ch =>
        c.bytesDone = T.toNat || ch.bytesDone + c.bytesDone < T.toNat
    | _ => true
  | _ => true

/-! ## The invariant -/

/-- The chunk table holds the whole file, of which `b` bytes are recorded, and `f` is
    the file. -/
structure Held (T : UInt64) (w : World) (b : ℕ) (f : File) : Prop where
  chunks : w.d.chunks = [⟨0, T.toNat - 1, b⟩]
  file : w.disk.file = some f
  size : f.size = T.toNat

/-- Between runs of the pool: no chunks, or the bytes recorded are below the size,
    unless the file is complete. -/
def Table (R : ℕ → UInt8) (T : UInt64) (w : World) : Prop :=
  w.d.chunks = [] ∨ ∃ b f, Held T w b f ∧ (b < T.toNat ∨ f.Agrees R 0 T.toNat)

/-- What is known of the worker in its phase, `b` bytes being recorded. -/
def PhaseInv (R : ℕ → UInt8) (T : UInt64) (b : ℕ) (c : WorkerContext) : Prop :=
  match c.phase with
  | .created | .request => c.bytesDone = 0
  | .transfer a pos => pos = c.bytesDone ∧ a.len ≤ T.toNat ∧ ∀ k < a.len, a.body R 0 k = R k
  | .aborted _ => True
  | .segmentDone | .idle | .ended true => c.bytesDone = T.toNat
  | .ended false => c.bytesDone = T.toNat ∨ b + c.bytesDone < T.toNat

/-- While the pool runs: the only worker writes the resource from the first byte on,
    and the counter goes on from the recorded bytes. -/
structure Single (R : ℕ → UInt8) (T : UInt64) (w : World) (run : PoolRun) (b : ℕ) (f : File)
    (c : WorkerContext) : Prop where
  held : Held T w b f
  pool : run.pool = none
  contexts : run.contexts = [c]
  range : c.range = ⟨0, T.toNat - 1, 0, true⟩
  counter : c.chunkProgressSlot = some 0
  live : w.d.chunkLiveBytes 0 = b + c.bytesDone
  agrees : f.Agrees R 0 c.bytesDone
  recorded : b < T.toNat
  created : run.spawned = 0 → c.phase = .created
  phase : PhaseInv R T b c

/-- The invariant of the thread of the call. -/
def PcInv (R : ℕ → UInt8) (T : UInt64) (w : World) : Pc → Prop
  | .idle rc => Table R T w ∧ (rc = some 0 → ∃ b f, Held T w b f ∧ f.Agrees R 0 T.toNat)
  | .entered | .probing => Table R T w
  | .planning info => Table R T w ∧ info = ⟨T, false⟩
  | .running info n run => info = ⟨T, false⟩ ∧ n = 1 ∧ ∃ b f c, Single R T w run b f c
  | .flushing info n ok => info = ⟨T, false⟩ ∧ n = 1 ∧ ∃ b f, Held T w b f ∧
      (w.d.chunkLiveBytes 0 < T.toNat ∨ f.Agrees R 0 T.toNat) ∧ (ok = true → f.Agrees R 0 T.toNat)
  | .deciding info n ok => info = ⟨T, false⟩ ∧ n = 1 ∧ ∃ b f, Held T w b f ∧
      (b < T.toNat ∨ f.Agrees R 0 T.toNat) ∧ (ok = true → f.Agrees R 0 T.toNat)
  | .fallback _ _ => False
  | .finalizing _ => ∃ b f, Held T w b f ∧ f.Agrees R 0 T.toNat

/-- The chunk rows are those of the chunk table, and the database has the row of the
    download. -/
structure Mirrored (w : World) : Prop where
  hasRow : w.HasRow
  rows : w.rows = chunkRows w.d.id w.d.chunks

/-- The invariant of the sessions. -/
structure Inv (R : ℕ → UInt8) (T : UInt64) (s : EngineState) : Prop where
  mirrored : Mirrored s.w
  pc : PcInv R T s.w s.pc

theorem Inv.of_fresh {s : EngineState} (h : Fresh s) : Inv R T s where
  mirrored := by
    obtain ⟨r, hr, -⟩ := h.row
    exact ⟨by rw [World.HasRow, hr]; rfl, by rw [h.chunks]; exact h.rows⟩
  pc := by
    rw [h.idle]
    exact ⟨.inl h.chunks, fun h => by cases h⟩

/-! ## Steps of the pool -/

section Pool

variable {w w' : World} {run run' : PoolRun} {b i : ℕ} {f : File} {c c' : WorkerContext}

theorem Single.get (h : Single R T w run b f c) (hc : run.contexts[i]? = some c') :
    i = 0 ∧ c' = c := by
  rw [h.contexts, List.getElem?_singleton] at hc
  split_ifs at hc with hi
  exact ⟨hi, (Option.some.inj hc).symm⟩

theorem Single.current (h : Single R T w run b f c) : c.current = c.bytesDone := by
  simp [WorkerContext.current, Range.offset, h.range]

theorem Single.offset (h : Single R T w run b f c) : c.range.offset = 0 := by
  simp [Range.offset, h.range]

theorem Single.writable (h : Single R T w run b f c) (n : ℕ) : run.writable c n = n := by
  simp [PoolRun.writable, PoolRun.limit, h.pool]

/-- A judged segment that succeeds delivered the whole resource. -/
theorem Single.bytesDone_of_segmentOk (h : Single R T w run b f c) {status : ℕ} {res : Bool}
    (hok : segmentOk run c status res = true) : c.bytesDone = T.toNat := by
  have hT := h.recorded
  have hexp : expectedBytes run c = T.toNat := by
    simp only [expectedBytes, PoolRun.limit, h.pool]
    rw [h.offset, if_pos (Nat.zero_le _), h.range]
    simp only
    omega
  simp only [segmentOk, decide_eq_true_eq, hexp] at hok
  exact hok.2.1

/-- The running worker gets to a phase, with nothing else changed. -/
theorem Single.setPhase (h : Single R T w run b f c) (hne : c.phase ≠ .created) {ph : Phase}
    (hph : PhaseInv R T b { c with phase := ph }) :
    Single R T w (run.setPhase 0 ph) b f { c with phase := ph } where
  held := h.held
  pool := h.pool
  contexts := by simp [PoolRun.setPhase, PoolRun.modify, h.contexts]
  range := h.range
  counter := h.counter
  live := h.live
  agrees := h.agrees
  recorded := h.recorded
  created := fun hs => absurd (h.created hs) hne
  phase := hph

/-- What a callback receives are the bytes of the resource at its offset. -/
theorem Single.received (h : Single R T w run b f c) {a : Answer} {pos n : ℕ}
    (hph : c.phase = .transfer a pos) (hn : pos + n ≤ a.len) :
    pos = c.bytesDone ∧ c.bytesDone + n ≤ T.toNat ∧
      ∀ m ≤ n, ∀ k < (received R c a pos m).size,
        (received R c a pos m).byte k = R (c.bytesDone + k) := by
  have hp := h.phase
  simp only [PhaseInv, hph] at hp
  obtain ⟨rfl, hlen, hbody⟩ := hp
  refine ⟨rfl, by omega, fun m hm k hk => ?_⟩
  simp only [Cdm.received, h.offset] at hk ⊢
  exact hbody _ (by omega)

/-- A write of a callback keeps the file of the right size, and what it holds right. -/
theorem Held.pwrite (h : Held T w b f) {off : ℕ} {buf : Buf} (hle : off + buf.size ≤ T.toNat) :
    Held T (w.emit (.pwrite off buf)) b (f.pwrite off buf) where
  chunks := h.chunks
  file := by simp [Disk.apply, h.file]
  size := by rw [File.pwrite_size (by rw [h.size]; exact hle), h.size]

theorem delivered_cases (a : Answer) (pos n ret : ℕ) :
    ret = n ∧ delivered a pos n ret = .transfer a (pos + n) ∨
      ret ≠ n ∧ delivered a pos n ret = .aborted a := by
  rw [delivered]
  split_ifs with h
  · exact .inl ⟨h, rfl⟩
  · exact .inr ⟨h, rfl⟩

theorem Single.step {a : PoolAct} (h : Single R T w run b f c)
    (hst : PoolStep R w run a w' run') (hserves : serves T (.engine (.pool a)) = true)
    (hcount : ∀ i res, a = .worker i (.finish res) →
      c.bytesDone = T.toNat ∨ b + c.bytesDone < T.toNat) :
    ∃ f' c', Single R T w' run' b f' c' := by
  cases hst with
  | spawn hb hlt =>
    -- There is one worker, so that it is the first.
    have hs : run.spawned = 0 := by
      rw [h.contexts] at hlt
      simpa using hlt
    have hp := h.phase
    simp only [PhaseInv, h.created hs] at hp
    refine ⟨f, { c with phase := .request }, h.held, h.pool, ?_, h.range, h.counter, h.live,
      h.agrees, h.recorded, fun hs' => absurd hs' (Nat.succ_ne_zero _), hp⟩
    simp [PoolRun.setPhase, PoolRun.modify, h.contexts, hs]
  | spawnFails hb hlt =>
    exact ⟨f, c, ⟨h.held.chunks, h.held.file, h.held.size⟩, h.pool, h.contexts, h.range, h.counter,
      h.live, h.agrees, h.recorded, h.created, h.phase⟩
  | initFails hc hph =>
    obtain ⟨rfl, rfl⟩ := h.get hc
    have hp := h.phase
    simp only [PhaseInv, hph] at hp
    refine ⟨f, _, h.setPhase (by simp [hph]) ?_⟩
    simpa [PhaseInv, hp] using Or.inr h.recorded
  | @answer _ _ a hc hph =>
    obtain ⟨rfl, rfl⟩ := h.get hc
    have hp := h.phase
    simp only [PhaseInv, hph] at hp
    refine ⟨f, _, h.setPhase (by simp [hph]) ⟨hp.symm, ?_⟩⟩
    -- An answer that is served is the resource from its start, or an error.
    cases a with
    | ok len => exact ⟨by simpa [serves, Answer.len] using hserves, fun _ _ => rfl⟩
    | refused => exact ⟨Nat.zero_le _, fun _ hk => absurd hk (Nat.not_lt_zero _)⟩
    | partialContent len => simp [serves] at hserves
    | other status len body => simp [serves] at hserves
  | @dataStopped _ _ a pos n _ hc hph hn hs =>
    obtain ⟨rfl, rfl⟩ := h.get hc
    have hp := h.phase
    simp only [PhaseInv, hph] at hp
    refine ⟨f, _, h.setPhase (by simp [hph]) ?_⟩
    rcases delivered_cases a pos n 0 with ⟨hn0, hd⟩ | ⟨-, hd⟩
    · rw [hd]
      exact ⟨by simp [← hn0, hp.1], hp.2⟩
    · rw [hd]
      trivial
  | @dataFails i c' a pos n wrote hc hph hn hs hw =>
    obtain ⟨rfl, hcc⟩ := h.get hc
    subst c'
    rw [h.writable] at hw
    obtain ⟨rfl, hle, hbytes⟩ := h.received hph hn
    have hbuf := hbytes wrote hw.le
    -- What is written is not counted, but it is right.
    refine ⟨f.pwrite c.current (Cdm.received R c a c.bytesDone wrote),
      { c with truncated := c.truncated || run.cuts c n, phase := .aborted a }, ?_⟩
    refine ⟨h.held.pwrite ?_, h.pool, ?_, h.range, h.counter, h.live, ?_, h.recorded,
      fun hs' => ?_, trivial⟩
    · rw [h.current]
      simp only [Cdm.received]
      omega
    · have hd : delivered a c.bytesDone n 0 = .aborted a := if_neg (by omega)
      simp [PoolRun.modify, h.contexts, hd]
    · rw [h.current]
      exact h.agrees.pwrite hbuf
    · rw [h.created hs'] at hph
      cases hph
  | @data i c' a pos n wrote hc hph hn hs hw =>
    obtain ⟨rfl, hcc⟩ := h.get hc
    subst c'
    simp only [h.writable] at hw ⊢
    obtain ⟨rfl, hle, hbytes⟩ := h.received hph hn
    have hbuf := hbytes n le_rfl
    have hp := h.phase
    simp only [PhaseInv, hph] at hp
    have hheld : Held T (w.emit (.pwrite c.current (Cdm.received R c a c.bytesDone n))) b _ :=
      h.held.pwrite (by rw [h.current]; exact hle)
    -- What is written is counted, and carries on what the file agrees on.
    refine ⟨f.pwrite c.current (Cdm.received R c a c.bytesDone n),
      { c with
        bytesDone := c.bytesDone + n
        truncated := c.truncated || run.cuts c n
        phase := .transfer a (c.bytesDone + n) }, ?_⟩
    refine ⟨⟨hheld.chunks, hheld.file, hheld.size⟩, ?_, ?_, h.range, h.counter, ?_, ?_, h.recorded,
      fun hs' => ?_, ⟨rfl, hp.2⟩⟩
    · simp [PoolRun.modify, PoolRun.modifySlot, h.pool]
    · have hd : delivered a c.bytesDone n n = .transfer a (c.bytesDone + n) := if_pos rfl
      simp [PoolRun.modify, PoolRun.modifySlot, h.contexts, hd]
    · simp only [World.count, h.counter, World.emit_d, Function.update_self, h.live]
      omega
    · rw [h.current]
      exact h.agrees.pwrite_append hbuf
    · rw [h.created hs'] at hph
      cases hph
  | @finish i c' a res res' hc hph =>
    obtain ⟨rfl, hcc⟩ := h.get hc
    subst c'
    have hne : c.phase ≠ .created := by
      rcases hph with ⟨pos, hph, -⟩ | ⟨hph, -⟩ <;> simp [hph]
    refine ⟨f, _, h.setPhase hne ?_⟩
    split_ifs with hok
    · exact h.bytesDone_of_segmentOk hok
    · exact hcount _ _ rfl
  | markDone hc hph hp =>
    -- There is no pool.
    rw [h.pool] at hp
    cases hp
  | segmentEnds hc hph hp =>
    obtain ⟨rfl, rfl⟩ := h.get hc
    have hdone := h.phase
    simp only [PhaseInv, hph] at hdone
    exact ⟨f, _, h.setPhase (by simp [hph]) hdone⟩
  | acquire hc hph hp =>
    rw [h.pool] at hp
    cases hp

end Pool

/-! ## The chunk rows -/

section Rows

variable {w w' : World} {info : FileInfo}

theorem Mirrored.congr (h : Mirrored w) (hid : w'.d.id = w.d.id)
    (hchunks : w'.d.chunks = w.d.chunks) (hdb : w'.disk.db = w.disk.db) : Mirrored w' where
  hasRow := by
    rw [World.HasRow, hid, hdb]
    exact h.hasRow
  rows := by
    rw [World.rows, hid, hdb, hchunks]
    exact h.rows

theorem Mirrored.recordSize (h : Mirrored w) (info : FileInfo) : Mirrored (recordSize w info) :=
  ⟨recordSize_hasRow h.hasRow, h.rows⟩

theorem Mirrored.clearResumeState (h : Mirrored w) (b : Bool) :
    Mirrored (clearResumeState w b) :=
  ⟨clearResumeState_hasRow b h.hasRow, by rw [clearResumeState_rows, clearResumeState_chunks]; rfl⟩

theorem Mirrored.persistPlan (h : Mirrored w) (rs : List Range) : Mirrored (persistPlan w rs) where
  hasRow := persistPlan_hasRow rs h.hasRow
  rows := by rw [persistPlan_rows rs h.hasRow, persistPlan_chunks, persistPlan_id]

theorem Mirrored.plan {io : PlanIo} {pc : Pc} (h : Mirrored w)
    (hst : PlanStep w info io w' pc) : Mirrored w' := by
  have halloc {w₀ w₁ : World} {rc : ℤ}
      (h₀ : w₀ = w ∧ w.d.chunks = [] ∨
        w₀ = Cdm.clearResumeState w true ∧ w.d.chunks ≠ [] ∧ resumeIsStale w info = true)
      (halloc : preallocate (Cdm.recordSize w₀ info) info.totalSize.toNat io.alloc = (w₁, rc)) :
      Mirrored w₁ := by
    obtain ⟨hd, hdb, -⟩ := preallocate_spec halloc
    have hw₀ : Mirrored w₀ := by
      rcases h₀ with ⟨rfl, -⟩ | ⟨rfl, -⟩
      · exact h
      · exact h.clearResumeState _
    exact (hw₀.recordSize info).congr (by rw [hd]) (by rw [hd]) hdb
  cases hst with
  | complete => exact (h.recordSize info).congr rfl rfl rfl
  | resume => exact (h.recordSize info).congr rfl rfl rfl
  | resumeFails => exact (h.recordSize info).congr rfl rfl rfl
  | allocFails h₀ ha => exact halloc h₀ ha
  | start h₀ ha => exact (halloc h₀ ha).persistPlan _
  | startFails h₀ ha => exact (halloc h₀ ha).persistPlan _

/-- Recording the progress of a single chunk. -/
theorem Mirrored.flushProgress {c : DownloadChunk} (h : Mirrored w) (hc : w.d.chunks = [c]) :
    Mirrored (flushProgress w) := by
  obtain ⟨qs, hw, hqs⟩ := flushProgress_spec w
  simp only [hc, List.mapIdx_cons, List.mapIdx_nil, List.map_cons, List.map_nil] at hw hqs
  subst hqs
  have hrows : w.disk.db.chunksOf w.d.id = _ := h.rows
  rw [hw]
  refine ⟨h.hasRow, ?_⟩
  simp only [World.rows, List.foldl_cons, List.foldl_nil]
  rw [Db.chunksOf_updateChunkProgress, hrows, hc]
  simp [chunkRows]

/-- A table of at most one chunk is restored as it was. -/
theorem Mirrored.dbLoadChunks (h : Mirrored w) (hlen : w.d.chunks.length ≤ 1) :
    dbLoadChunks w.disk.db w.d.id qmMaxChunks = w.d.chunks := by
  have hrows : w.disk.db.chunksOf w.d.id = _ := h.rows
  rw [Cdm.dbLoadChunks, hrows]
  match hc : w.d.chunks with
  | [] => rfl
  | [c] => rfl
  | _ :: _ :: _ => simp [hc] at hlen

end Rows

/-! ## Steps of the call -/

section Call

variable {w w' : World} {b : ℕ} {f : File} {pc : Pc} {info : FileInfo}

theorem Held.congr (h : Held T w b f) (hchunks : w'.d.chunks = w.d.chunks)
    (hfile : w'.disk.file = w.disk.file) : Held T w' b f :=
  ⟨hchunks.trans h.chunks, hfile.trans h.file, h.size⟩

theorem Table.congr (h : Table R T w) (hchunks : w'.d.chunks = w.d.chunks)
    (hfile : w'.disk.file = w.disk.file) : Table R T w' := by
  rcases h with h | ⟨b, f, h, hb⟩
  · exact .inl (hchunks.trans h)
  · exact .inr ⟨b, f, h.congr hchunks hfile, hb⟩

theorem Table.length_le_one (h : Table R T w) : w.d.chunks.length ≤ 1 := by
  rcases h with h | ⟨b, f, h, -⟩
  · simp [h]
  · simp [h.chunks]

/-- The invariant depends on the chunk table, its counters and the file only. -/
theorem PcInv.congr (h : PcInv R T w pc) (hchunks : w'.d.chunks = w.d.chunks)
    (hlive : w'.d.chunkLiveBytes = w.d.chunkLiveBytes) (hfile : w'.disk.file = w.disk.file) :
    PcInv R T w' pc := by
  have held {b f} (h : Held T w b f) : Held T w' b f := h.congr hchunks hfile
  cases pc with
  | idle rc =>
    refine ⟨h.1.congr hchunks hfile, fun hrc => ?_⟩
    obtain ⟨b, f, hf, hR⟩ := h.2 hrc
    exact ⟨b, f, held hf, hR⟩
  | entered => exact Table.congr h hchunks hfile
  | probing => exact Table.congr h hchunks hfile
  | planning info => exact ⟨h.1.congr hchunks hfile, h.2⟩
  | running info n run =>
    obtain ⟨hi, hn, b, f, c, hs⟩ := h
    exact ⟨hi, hn, b, f, c, { hs with held := held hs.held, live := by rw [hlive]; exact hs.live }⟩
  | flushing info n ok =>
    obtain ⟨hi, hn, b, f, hf, hl, hok⟩ := h
    exact ⟨hi, hn, b, f, held hf, by rw [hlive]; exact hl, hok⟩
  | deciding info n ok =>
    obtain ⟨hi, hn, b, f, hf, hb⟩ := h
    exact ⟨hi, hn, b, f, held hf, hb⟩
  | fallback => exact h
  | finalizing info =>
    obtain ⟨b, f, hf, hR⟩ := h
    exact ⟨b, f, held hf, hR⟩

theorem freshRanges_eq (hT : 0 < T.toNat) :
    freshRanges ⟨T, false⟩ = [⟨0, T.toNat - 1, 0, true⟩] := by
  simp [freshRanges, hT]

/-- The plan of the chunk of the whole file: it is complete, or fetched from the start. -/
theorem resumeRanges_eq (hT : 0 < T.toNat) (b : ℕ) :
    resumeRanges ⟨T, false⟩ 0 [⟨0, T.toNat - 1, b⟩] =
      if T.toNat ≤ b then [] else [(0, ⟨0, T.toNat - 1, 0, true⟩)] := by
  have hsub : T.toNat - 1 + 1 = T.toNat := by omega
  simp [resumeRanges, chunkIsComplete, DownloadChunk.size, resumeRange, hsub]

/-- The pool started on the chunk of the whole file. -/
theorem Single.planned (h : Held T w b f) (hlive : w.d.chunkLiveBytes 0 = b) (hb : b < T.toNat)
    (poolFails : Bool) :
    Single R T w (plannedRun [(0, ⟨0, T.toNat - 1, 0, true⟩)] poolFails) b f
      (contextOf 0 (some 0) ⟨0, T.toNat - 1, 0, true⟩) where
  held := h
  pool := by simp [plannedRun]
  contexts := by simp [plannedRun]
  range := rfl
  counter := rfl
  live := hlive
  agrees := File.agrees_empty le_rfl
  recorded := hb
  created := fun _ => rfl
  phase := rfl

theorem PcInv.plan {io : PlanIo} (hT : 0 < T.toNat) (h : Table R T w)
    (hst : PlanStep w ⟨T, false⟩ io w' pc) : PcInv R T w' pc := by
  have hfresh {w₀ w₁ : World} {rc : ℤ}
      (halloc : preallocate (recordSize w₀ ⟨T, false⟩) T.toNat io.alloc = (w₁, rc)) (hrc : rc = 0) :
      ∃ f, Held T (persistPlan w₁ (freshRanges ⟨T, false⟩)) 0 f := by
    obtain ⟨f, hf, hsize⟩ := (preallocate_spec halloc).2.2 hrc
    refine ⟨f, ?_, (persistPlan_file _).trans hf, hsize⟩
    rw [persistPlan_chunks, freshRanges_eq hT]
    rfl
  have hlive {w₁ : World} : (persistPlan w₁ (freshRanges ⟨T, false⟩)).d.chunkLiveBytes 0 = 0 :=
    persistPlan_live _ (by rw [freshRanges_eq hT]; simp [qmMaxChunks])
  -- What is recorded of the only chunk, when it is resumed.
  have hresume (hne : w.d.chunks ≠ []) : ∃ b f,
      Held T (resumed (recordSize w ⟨T, false⟩) ⟨T, false⟩) b f ∧
        (resumed (recordSize w ⟨T, false⟩) ⟨T, false⟩).d.chunkLiveBytes 0 = b ∧
        (b < T.toNat ∨ f.Agrees R 0 T.toNat) ∧
        resumeRanges ⟨T, false⟩ 0 w.d.chunks =
          if T.toNat ≤ b then [] else [(0, ⟨0, T.toNat - 1, 0, true⟩)] := by
    rcases h with h | ⟨b, f, hf, hb⟩
    · exact absurd h hne
    · refine ⟨b, f, hf.congr rfl rfl, ?_, hb, by rw [hf.chunks, resumeRanges_eq hT]⟩
      simp [resumed, hf.chunks]
  cases hst with
  | complete hne hs hr =>
    obtain ⟨b, f, hf, -, hb, heq⟩ := hresume hne
    rw [hr] at heq
    split_ifs at heq with hle
    exact ⟨b, f, hf, hb.resolve_left (by omega)⟩
  | resume hne hs hr =>
    obtain ⟨b, f, hf, hl, hb, heq⟩ := hresume hne
    split_ifs at heq with hle
    · exact absurd heq hr
    · rw [heq]
      exact ⟨rfl, rfl, b, f, _, .planned hf hl (by omega) _⟩
  | resumeFails hne hs hr =>
    obtain ⟨b, f, hf, hl, hb, heq⟩ := hresume hne
    split_ifs at heq with hle
    · exact absurd heq hr
    · rw [heq]
      exact ⟨rfl, rfl, b, f, hf, .inl (by omega), fun h => by cases h⟩
  | @allocFails w₀ _ rc h₀ halloc hrc =>
    refine ⟨.inl ?_, fun h => ?_⟩
    · rw [(preallocate_spec halloc).1, recordSize_chunks]
      rcases h₀ with ⟨rfl, hnil⟩ | ⟨rfl, -⟩
      · exact hnil
      · exact clearResumeState_chunks _
    · split_ifs at h <;> simp at h
  | start h₀ halloc =>
    obtain ⟨f, hf⟩ := hfresh halloc rfl
    rw [freshRanges_eq hT] at hf ⊢
    exact ⟨rfl, rfl, 0, f, _, .planned hf (by rw [← freshRanges_eq hT]; exact hlive) hT _⟩
  | startFails h₀ halloc =>
    obtain ⟨f, hf⟩ := hfresh halloc rfl
    refine ⟨rfl, by rw [freshRanges_eq hT]; rfl, 0, f, hf, .inl ?_, fun h => by cases h⟩
    rw [hlive]
    exact hT

theorem PcInv.length_le_one {rc : Option ℤ} (h : PcInv R T w (.idle rc)) :
    w.d.chunks.length ≤ 1 :=
  Table.length_le_one h.1

/-- At the end of a run, its counter is below the size, unless the file is complete. -/
theorem Single.join {run : PoolRun} {c : WorkerContext} (h : Single R T w run b f c)
    (hj : run.Joinable) : (w.d.chunkLiveBytes 0 < T.toNat ∨ f.Agrees R 0 T.toNat) ∧
      (run.allSucceeded = true → f.Agrees R 0 T.toNat) := by
  have hp := h.phase
  have hrec := h.recorded
  have hend := hj.2 c (by rw [h.contexts]; exact List.mem_singleton.2 rfl)
  have hdone (hbytes : c.bytesDone = T.toNat) : f.Agrees R 0 T.toNat := hbytes ▸ h.agrees
  have hsucc (hok : run.allSucceeded = true) : c.phase = .ended true := by
    simp only [PoolRun.allSucceeded, h.contexts, List.all_cons, List.all_nil, Bool.and_true,
      Bool.and_eq_true] at hok
    have hok := hok.2
    split at hok
    · assumption
    · cases hok
  rw [h.live]
  cases hph : c.phase with
  | created =>
    simp only [PhaseInv, hph] at hp
    exact ⟨.inl (by omega), fun hok => by rw [hsucc hok] at hph; cases hph⟩
  | ended ok =>
    cases ok with
    | true =>
      simp only [PhaseInv, hph] at hp
      exact ⟨.inr (hdone hp), fun _ => hdone hp⟩
    | false =>
      simp only [PhaseInv, hph] at hp
      exact ⟨hp.symm.imp_right hdone, fun hok => by rw [hsucc hok] at hph; cases hph⟩
  | request => simp [hph] at hend
  | transfer => simp [hph] at hend
  | aborted => simp [hph] at hend
  | segmentDone => simp [hph] at hend
  | idle => simp [hph] at hend

theorem Held.flushProgress (h : Held T w b f) :
    Held T (flushProgress w) (w.d.chunkLiveBytes 0) f :=
  ⟨by rw [flushProgress_chunks, h.chunks]; rfl, by rw [flushProgress_file, h.file], h.size⟩

theorem Inv.engine {s s' : EngineState} {a : EngineAct} (hT : 0 < T.toNat) (h : Inv R T s)
    (hst : EngineStep R s a s') (hserves : serves T (.engine a) = true)
    (hcount : countsBelow T s (.engine a) = true) : Inv R T s' := by
  obtain ⟨hm, hpc⟩ := h
  cases hst with
  | call => exact ⟨hm, hpc.1⟩
  | check =>
    simp only [engineCheck]
    split_ifs
    · exact ⟨hm.clearResumeState false, .inl (clearResumeState_chunks _), fun h => by simp at h⟩
    · exact ⟨hm, hpc⟩
    · exact ⟨hm, hpc, fun h => by simp at h⟩
  | headFails => exact ⟨hm, hpc, fun h => by simp at h⟩
  | head => exact ⟨hm, hpc, by simpa [serves] using hserves⟩
  | plan hplan =>
    obtain ⟨htable, rfl⟩ := hpc
    exact ⟨hm.plan (.of_eq hplan), .plan hT htable (.of_eq hplan)⟩
  | pool hpool =>
    obtain ⟨hi, hn, b, f, c, hs⟩ := hpc
    obtain ⟨hchunks, hdb, hid, -⟩ := hpool.of_pool_none hs.pool
    refine ⟨hm.congr hid hchunks hdb, hi, hn, b, hs.step hpool hserves fun i res ha => ?_⟩
    subst ha
    cases hpool with
    | finish hc =>
      obtain ⟨rfl, rfl⟩ := hs.get hc
      have hchunks := hs.held.chunks
      simp only at hchunks
      -- The end of a transfer is where the condition is needed.
      simpa [countsBelow, hs.contexts, hchunks] using hcount
  | join hj =>
    obtain ⟨hi, hn, b, f, c, hs⟩ := hpc
    exact ⟨hm, hi, hn, b, f, hs.held, hs.join hj⟩
  | flush =>
    obtain ⟨hi, hn, b, f, hf, hl, hok⟩ := hpc
    exact ⟨hm.flushProgress hf.chunks, hi, hn, _, f, hf.flushProgress, hl, hok⟩
  | decide =>
    obtain ⟨hi, rfl, b, f, hf, hb, hok⟩ := hpc
    simp only [engineDecide]
    split_ifs with h₁ h₂
    · exact ⟨hm, b, f, hf, hok h₁⟩
    · -- With one worker there is no single connection to fall back to.
      exact absurd h₂.1 (lt_irrefl 1)
    · exact absurd h₂.1 (lt_irrefl 1)
    · exact ⟨hm, .inr ⟨b, f, hf, hb⟩, fun h => by simp at h⟩
  | fallbackPool => exact hpc.elim
  | fallbackJoin => exact hpc.elim
  | finalize =>
    obtain ⟨b, f, hf, hR⟩ := hpc
    exact ⟨hm, .inr ⟨b, f, hf, .inr hR⟩, fun _ => ⟨b, f, hf, hR⟩⟩
  | finalizeFails =>
    exact ⟨hm.clearResumeState true, .inl (clearResumeState_chunks _), fun h => by simp at h⟩

end Call

/-! ## The sessions -/

theorem Inv.step {s s' : EngineState} {a : SessionAct} (hT : 0 < T.toNat) (h : Inv R T s)
    (hserves : serves T a = true) (hcount : countsBelow T s a = true)
    (hst : sessionStep R s a = some s') : Inv R T s' := by
  cases a with
  | engine a =>
    have hfresh : Inv R T ⟨s.w.fresh, s.pc⟩ :=
      ⟨h.mirrored.congr rfl rfl rfl, h.pc.congr rfl rfl rfl⟩
    exact hfresh.engine hT (.of_eq hst) hserves hcount
  | requestCancel b =>
    cases hst
    exact ⟨h.mirrored.congr rfl rfl rfl, h.pc.congr rfl rfl rfl⟩
  | requestPause b =>
    cases hst
    exact ⟨h.mirrored.congr rfl rfl rfl, h.pc.congr rfl rfl rfl⟩
  | restore =>
    obtain ⟨hm, hpc⟩ := h
    simp only [sessionStep] at hst
    split at hst
    · rename_i rc r hidle hrow
      split_ifs at hst
      cases hst
      rw [hidle] at hpc
      have hid : r.id = s.w.d.id := Db.row_id hrow
      have hchunks : (restoreRow s.w.disk.db r).chunks = s.w.d.chunks := by
        rw [restoreRow, hid]
        exact hm.dbLoadChunks hpc.length_le_one
      refine ⟨hm.congr hid hchunks rfl, hpc.1.congr hchunks rfl, fun hrc => ?_⟩
      obtain ⟨b, f, hf, hR⟩ := hpc.2 hrc
      exact ⟨b, f, hf.congr hchunks rfl, hR⟩
    · cases hst

/-- Against a server without range support, a call that returns `0` leaves the resource
    in the file, in every session in which no interrupted transfer brings the recorded
    bytes up to the size. -/
theorem complete_of_countsBelow (hT : 0 < T.toNat) {s : EngineState}
    (hs : SessionReachable R (fun s a => serves T a = true ∧ countsBelow T s a = true) s)
    (hret : s.returned = some 0) : Complete R T.toNat s := by
  have hinv : Inv R T s :=
    hs.invariant (fun _ => .of_fresh) fun _ _ _ h ok hst => h.step hT ok.1 ok.2 hst
  obtain ⟨-, hpc⟩ := hinv
  rw [EngineState.returned] at hret
  split at hret
  · rename_i rc hidle
    rw [hidle] at hpc
    obtain ⟨b, f, hf, hR⟩ := hpc.2 hret
    exact ⟨f, hf.file, hf.size, hR⟩
  · cases hret

/-- A call up to the end of its only transfer, of `n` of the four bytes of a resource,
    which ends without an error if `res`. -/
def transferActs (n : ℕ) (res : Bool) : List EngineAct :=
  [.call, .check, .head (some ⟨4, false⟩), .plan ⟨⟨false, false⟩, false, false⟩,
    .pool (.spawn true), .pool (.worker 0 (.answer (.ok n))), .pool (.worker 0 (.data n n)),
    .pool (.worker 0 (.finish res))]

/-- A call cut short after two bytes. -/
def cutActs : List EngineAct := transferActs 2 false ++ [.join, .flush, .decide false]

/-- A call that gets all four bytes. -/
def fullActs : List EngineAct :=
  transferActs 4 true ++
    [.pool (.worker 0 .markDone), .join, .flush, .decide false, .finalize true]

/-- A call that takes the recorded chunk for complete. -/
def trustActs : List EngineAct :=
  [.call, .check, .head (some ⟨4, false⟩), .plan ⟨⟨false, false⟩, false, false⟩, .finalize true]

/-- A call cut short after two bytes, and one that gets all four. -/
theorem complete_of_countsBelow_retry :
    ∃ s, SessionReachable (fun _ => 1)
        (fun s a => serves 4 a = true ∧ countsBelow 4 s a = true) s ∧
      s.returned = some 0 ∧ Complete (fun _ => 1) 4 s := by
  obtain ⟨s, hs, hret⟩ := SessionReachable.of_exec (fun _ => 1)
    (fun s a => serves 4 a = true ∧ countsBelow 4 s a = true) (fun s => s.returned = some 0)
    ((cutActs ++ fullActs).map .engine) (by decide)
  exact ⟨s, hs, hret, complete_of_countsBelow (by decide) hs hret⟩

/-- Two calls cut short after two of the four bytes, and the third returns `0`. -/
theorem exists_incomplete_success :
    ∃ s, SessionReachable (fun _ => 1) (fun _ a => serves 4 a = true) s ∧
      s.returned = some 0 ∧ ¬Complete (fun _ => 1) 4 s := by
  obtain ⟨s, hs, hret, f, hf, hbyte⟩ := SessionReachable.of_exec (fun _ => 1)
    (fun _ a => serves 4 a = true)
    (fun s => s.returned = some 0 ∧ ∃ f ∈ s.w.disk.file, f.byte 2 ≠ 1)
    ((cutActs ++ cutActs ++ trustActs).map .engine) (by decide)
  refine ⟨s, hs, hret, fun ⟨g, hg, _, hagrees⟩ => hbyte ?_⟩
  rw [hf] at hg
  cases hg
  exact hagrees 2 (by decide) (by decide)

end Cdm.WholeFile
