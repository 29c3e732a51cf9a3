import Cdm.Engine.Tiling

/-!
# What the counters count

A byte counted as progress of a chunk is a byte of the resource, in its place, as long
as what arrives at the callbacks is (`arrivesRight`) and no split wires a new slot to
the counter of another chunk (`ownCounter`). Under these conditions, the counter of a
chunk that a worker adds to stands at the offset the worker writes at next, no two
workers share one, and everything below the counters, live or recorded, is right
(`CountedRun`).

Which answers a request may get is a parameter (`served`).
-/

namespace Cdm

variable {R : ℕ → UInt8} {served : Range → Answer → Prop} {w w' : World}

/-- The file holds the byte of the resource at an offset. -/
def World.Right (R : ℕ → UInt8) (w : World) (x : ℕ) : Prop :=
  ∃ f, w.disk.file = some f ∧ f.byte x = R x

theorem World.Right.congr {x : ℕ} (h : w.Right R x) (hf : w'.disk.file = w.disk.file) :
    w'.Right R x := by
  obtain ⟨f, hf', hx⟩ := h
  exact ⟨f, hf.trans hf', hx⟩

/-- A write of bytes of the resource in their place. -/
theorem World.Right.pwrite {x off : ℕ} {buf : Buf} (h : w.Right R x)
    (hb : ∀ k < buf.size, buf.byte k = R (off + k)) :
    (w.emit (.pwrite off buf)).Right R x := by
  obtain ⟨f, hf, hx⟩ := h
  exact ⟨f.pwrite off buf, by simp [Disk.apply, hf], File.pwrite_byte_eq hb hx⟩

theorem World.right_pwrite {x off : ℕ} {buf : Buf} (hf : w.disk.file.isSome)
    (hb : ∀ k < buf.size, buf.byte k = R (off + k)) (h₁ : off ≤ x) (h₂ : x < off + buf.size) :
    (w.emit (.pwrite off buf)).Right R x := by
  obtain ⟨f, hf⟩ := Option.isSome_iff_exists.1 hf
  refine ⟨f.pwrite off buf, by simp [Disk.apply, hf], ?_⟩
  rw [File.pwrite_byte_of_mem h₁ h₂, hb _ (by omega)]
  congr 1
  omega

/-- What the live counters count is right. -/
def Counted (R : ℕ → UInt8) (w : World) : Prop :=
  ∀ (j : ℕ) (c : DownloadChunk), w.d.chunks[j]? = some c → ∀ x, c.rangeStart ≤ x →
    x < c.rangeStart + w.d.chunkLiveBytes j → w.Right R x

/-- What is recorded as done is right. -/
def Flushed (R : ℕ → UInt8) (w : World) : Prop :=
  ∀ (j : ℕ) (c : DownloadChunk), w.d.chunks[j]? = some c → ∀ x, c.rangeStart ≤ x →
    x < c.rangeStart + c.bytesDone → w.Right R x

/-- The invariant of a run of the pool. -/
structure CountedRun (R : ℕ → UInt8) (served : Range → Answer → Prop) (w : World)
    (run : PoolRun) : Prop where
  file : w.disk.file.isSome
  counted : Counted R w
  flushed : Flushed R w
  orderly : Orderly served run
  counter : ∀ (i j : ℕ) (c : WorkerContext), run.contexts[i]? = some c →
    c.chunkProgressSlot = some j →
      ∃ ch, w.d.chunks[j]? = some ch ∧ ch.rangeStart + w.d.chunkLiveBytes j = c.current
  separate : ∀ (i i' j : ℕ) (c c' : WorkerContext), run.contexts[i]? = some c →
    run.contexts[i']? = some c' → c.chunkProgressSlot = some j →
      c'.chunkProgressSlot = some j → i = i'

/-- The counter of the slot that a split would add is that of the chunk that it would
    add, or absent. -/
def OwnCounter (w : World) (run : PoolRun) (p : RebalancePool) : Prop :=
  p.slots.length = w.d.chunks.length ∧ w.d.chunks.length < qmMaxChunks ∨
    run.progressSlots p.slots.length = none

instance (w : World) (run : PoolRun) (p : RebalancePool) : Decidable (OwnCounter w run p) :=
  inferInstanceAs (Decidable (_ ∨ _))

/-- A split wires the new slot to the counter of its own chunk, or to none. -/
def ownCounter (s : EngineState) : SessionAct → Bool
  | .engine (.pool (.worker _ .acquire)) =>
    s.poolRun.all fun run => run.pool.all fun p => p.victim.isNone || OwnCounter s.w run p
  | _ => true

/-! ## Steps of the pool -/

section Pool

variable {run run' : PoolRun} {i : ℕ}

/-- A worker changes, but for its progress. -/
theorem CountedRun.modify (h : CountedRun R served w run) {f : WorkerContext → WorkerContext}
    (hcontexts : run'.contexts = run.contexts.modify i f)
    (hf : ∀ c, (f c).range = c.range ∧ (f c).bytesDone = c.bytesDone ∧
      (f c).chunkProgressSlot = c.chunkProgressSlot) (ho : Orderly served run') :
    CountedRun R served w run' := by
  have hold : ∀ (k : ℕ) (c : WorkerContext), run'.contexts[k]? = some c →
      ∃ c₀, run.contexts[k]? = some c₀ ∧ c.current = c₀.current ∧
        c.chunkProgressSlot = c₀.chunkProgressSlot := by
    intro k c hc
    rw [hcontexts] at hc
    rcases List.getElem?_modify_eq_some.1 hc with ⟨-, c₀, hc₀, rfl⟩ | ⟨-, hc₀⟩
    · obtain ⟨h₁, h₂, h₃⟩ := hf c₀
      exact ⟨c₀, hc₀, by rw [WorkerContext.current, h₁, h₂]; rfl, h₃⟩
    · exact ⟨c, hc₀, rfl, rfl⟩
  refine ⟨h.file, h.counted, h.flushed, ho, fun k j c hc hj => ?_,
    fun k k' j c c' hc hc' hj hj' => ?_⟩
  · obtain ⟨c₀, hc₀, hcur, hslot⟩ := hold k c hc
    rw [hcur]
    exact h.counter k j c₀ hc₀ (hslot ▸ hj)
  · obtain ⟨c₀, hc₀, -, hslot⟩ := hold k c hc
    obtain ⟨c₀', hc₀', -, hslot'⟩ := hold k' c' hc'
    exact h.separate k k' j c₀ c₀' hc₀ hc₀' (hslot ▸ hj) (hslot' ▸ hj')

/-- The invariant depends on the chunks, their counters, the file and the workers. -/
theorem CountedRun.congr (h : CountedRun R served w run) (hchunks : w'.d.chunks = w.d.chunks)
    (hlive : w'.d.chunkLiveBytes = w.d.chunkLiveBytes) (hfile : w'.disk.file = w.disk.file)
    (hcontexts : run'.contexts = run.contexts) (ho : Orderly served run') :
    CountedRun R served w' run' := by
  refine ⟨hfile ▸ h.file, fun j c hc x h₁ h₂ => ?_, fun j c hc x h₁ h₂ => ?_, ho, ?_, ?_⟩
  · rw [hchunks] at hc
    rw [hlive] at h₂
    exact (h.counted j c hc x h₁ h₂).congr hfile
  · rw [hchunks] at hc
    exact (h.flushed j c hc x h₁ h₂).congr hfile
  · rw [hchunks, hlive, hcontexts]
    exact h.counter
  · rw [hcontexts]
    exact h.separate

/-- A write of bytes of the resource in their place. -/
theorem CountedRun.pwrite (h : CountedRun R served w run) {off : ℕ} {buf : Buf}
    (hb : ∀ k < buf.size, buf.byte k = R (off + k)) :
    CountedRun R served (w.emit (.pwrite off buf)) run where
  file := by
    obtain ⟨f, hf⟩ := Option.isSome_iff_exists.1 h.file
    simp [Disk.apply, hf]
  counted j c hc x h₁ h₂ := (h.counted j c hc x h₁ h₂).pwrite hb
  flushed j c hc x h₁ h₂ := (h.flushed j c hc x h₁ h₂).pwrite hb
  orderly := h.orderly
  counter := h.counter
  separate := h.separate

/-- A callback that writes `m` bytes of the resource in their place, and counts them. -/
theorem CountedRun.data (h : CountedRun R served w run) {c : WorkerContext} {m : ℕ} {buf : Buf}
    {f : WorkerContext → WorkerContext} (hc : run.contexts[i]? = some c) (hm : buf.size = m)
    (hb : ∀ k < buf.size, buf.byte k = R (c.current + k))
    (hcontexts : run'.contexts = run.contexts.modify i f)
    (hf : ∀ c, (f c).range = c.range ∧ (f c).bytesDone = c.bytesDone + m ∧
      (f c).chunkProgressSlot = c.chunkProgressSlot) (ho : Orderly served run') :
    CountedRun R served ((w.emit (.pwrite c.current buf)).count c.chunkProgressSlot m) run' := by
  have hw := h.pwrite hb
  set w₁ := w.emit (.pwrite c.current buf)
  have hlive : ∀ j, (w₁.count c.chunkProgressSlot m).d.chunkLiveBytes j =
      w.d.chunkLiveBytes j + if c.chunkProgressSlot = some j then m else 0 :=
    fun j => World.count_live w₁ _ _ j
  -- The contexts after the callback.
  have hold : ∀ (k : ℕ) (c₁ : WorkerContext), run'.contexts[k]? = some c₁ →
      (k = i ∧ c₁ = f c) ∨ (k ≠ i ∧ run.contexts[k]? = some c₁) := by
    intro k c₁ hc₁
    rw [hcontexts] at hc₁
    rcases List.getElem?_modify_eq_some.1 hc₁ with ⟨rfl, c₀, hc₀, rfl⟩ | h
    · rw [hc] at hc₀
      cases hc₀
      exact .inl ⟨rfl, rfl⟩
    · exact .inr h
  obtain ⟨hfr, hfb, hfs⟩ := hf c
  refine ⟨hw.file, fun j ch hch x h₁ h₂ => ?_, hw.flushed, ho, fun k j c₁ hc₁ hj => ?_,
    fun k k' j c₁ c₂ hc₁ hc₂ hj hj' => ?_⟩
  · have hch : w.d.chunks[j]? = some ch := hch
    rw [hlive] at h₂
    by_cases hx : x < ch.rangeStart + w.d.chunkLiveBytes j
    · exact hw.counted j ch hch x h₁ hx
    · -- The bytes counted last are those just written.
      split_ifs at h₂ with hj
      · obtain ⟨ch', hch', hcur⟩ := h.counter i j c hc hj
        rw [hch] at hch'
        cases hch'
        exact World.right_pwrite h.file hb (by omega) (by omega)
      · omega
  · rw [hlive]
    rcases hold k c₁ hc₁ with ⟨rfl, rfl⟩ | ⟨hki, hc₁⟩
    · rw [hfs] at hj
      obtain ⟨ch, hch, hcur⟩ := h.counter k j c hc hj
      refine ⟨ch, hch, ?_⟩
      rw [if_pos hj, WorkerContext.current, hfr, hfb]
      simp only [WorkerContext.current] at hcur
      omega
    · obtain ⟨ch, hch, hcur⟩ := h.counter k j c₁ hc₁ hj
      refine ⟨ch, hch, ?_⟩
      rw [if_neg fun hj' => hki (h.separate k i j c₁ c hc₁ hc hj hj')]
      exact hcur
  · have hget : ∀ (k : ℕ) (c₁ : WorkerContext), run'.contexts[k]? = some c₁ →
        c₁.chunkProgressSlot = some j →
          ∃ c₀, run.contexts[k]? = some c₀ ∧ c₀.chunkProgressSlot = some j := by
      intro k c₁ hc₁ hj
      rcases hold k c₁ hc₁ with ⟨rfl, rfl⟩ | ⟨-, hc₁⟩
      · exact ⟨c, hc, hfs ▸ hj⟩
      · exact ⟨c₁, hc₁, hj⟩
    obtain ⟨d₁, hd₁, hs₁⟩ := hget k c₁ hc₁ hj
    obtain ⟨d₂, hd₂, hs₂⟩ := hget k' c₂ hc₂ hj'
    exact h.separate k k' j d₁ d₂ hd₁ hd₂ hs₁ hs₂

/-- The counter of the slot that a split adds. -/
theorem OwnCounter.split {p : RebalancePool} {s : PoolSlot} {ps : ℕ → Option ℕ}
    (h : OwnCounter w run p)
    (heq : onRebalanceSplit w run.progressSlots s.start s.middle s.liveEnd = (w', ps)) :
    ps p.slots.length = none ∨ ps p.slots.length = some w.d.chunks.length ∧
      ∃ ch, w'.d.chunks[w.d.chunks.length]? = some ch ∧ ch.rangeStart = s.middle ∧
        w'.d.chunkLiveBytes w.d.chunks.length = 0 := by
  rcases lt_or_ge w.d.chunks.length qmMaxChunks with hroom | hfull
  · rw [onRebalanceSplit_of_room hroom] at heq
    obtain ⟨rfl, rfl⟩ := Prod.mk.inj heq
    -- The counters are indexed by chunks, the slots by themselves: a split wires its own only where
    -- the two numbers agree.
    by_cases hk : p.slots.length = w.d.chunks.length
    · refine .inr ⟨by rw [hk, Function.update_self], ⟨s.middle, s.liveEnd - 1, 0⟩, ?_, rfl, ?_⟩
      · rw [appendChunk_chunks, shrinkVictim_chunks]
        exact List.getElem?_concat_eq_some.2 (.inr ⟨length_cutChunk.symm, rfl⟩)
      · rw [appendChunk_live, shrinkVictim_chunks, length_cutChunk, if_pos rfl]
    · rw [Function.update_of_ne hk]
      exact .inl (h.resolve_left fun h => hk h.1)
  · rw [onRebalanceSplit_of_full hfull] at heq
    obtain ⟨rfl, rfl⟩ := Prod.mk.inj heq
    exact .inl (h.resolve_left fun h => by omega)

/-- A split that wires the new slot to the counter of its own chunk, or to none. -/
theorem CountedRun.split (h : CountedRun R served w run) {p : RebalancePool} {s : PoolSlot}
    {ps : ℕ → Option ℕ} {c₁ : WorkerContext} (hown : OwnCounter w run p)
    (heq : onRebalanceSplit w run.progressSlots s.start s.middle s.liveEnd = (w', ps))
    (hcur : c₁.current = s.middle) (hcounter : c₁.chunkProgressSlot = ps p.slots.length)
    (hcontexts : run'.contexts = run.contexts.modify i fun _ => c₁) (ho : Orderly served run') :
    CountedRun R served w' run' := by
  have hfile := (onRebalanceSplit_frame heq).2
  have hnew := hown.split heq
  have hold : ∀ (k : ℕ) (c : WorkerContext), run'.contexts[k]? = some c →
      (k = i ∧ c = c₁) ∨ (k ≠ i ∧ run.contexts[k]? = some c) := by
    intro k c hc
    rw [hcontexts] at hc
    rcases List.getElem?_modify_eq_some.1 hc with ⟨hk, c₀, -, rfl⟩ | h
    · exact .inl ⟨hk, rfl⟩
    · exact .inr h
  refine ⟨hfile ▸ h.file, fun j c hc x h₁ h₂ => ?_, fun j c hc x h₁ h₂ => ?_, ho,
    fun k j c hc hj => ?_, fun k k' j c c' hc hc' hj hj' => ?_⟩
  · rcases onRebalanceSplit_old heq hc with ⟨c₀, hc₀, hs, -, hl⟩ | ⟨-, hl⟩
    · exact (h.counted j c₀ hc₀ x (by omega) (by omega)).congr hfile
    · omega
  · rcases onRebalanceSplit_old heq hc with ⟨c₀, hc₀, hs, hb, -⟩ | ⟨hb, -⟩
    · exact (h.flushed j c₀ hc₀ x (by omega) (by omega)).congr hfile
    · omega
  · rcases hold k c hc with ⟨-, rfl⟩ | ⟨-, hc⟩
    · rw [hcounter] at hj
      -- The new worker counts for the new chunk, from zero, or for none.
      rcases hnew with hnone | ⟨hsome, ch, hch, hstart, hl⟩
      · rw [hnone] at hj
        cases hj
      · rw [hsome] at hj
        cases hj
        exact ⟨ch, hch, by rw [hstart, hl, hcur]; rfl⟩
    · obtain ⟨ch, hch, hcur⟩ := h.counter k j c hc hj
      obtain ⟨ch', hch', hs, hl⟩ := onRebalanceSplit_keeps heq hch
      exact ⟨ch', hch', by rw [hs, hl, hcur]⟩
  · -- The counter of a new chunk is that of no worker.
    have hfresh : ∀ (k : ℕ) (c : WorkerContext), run.contexts[k]? = some c →
        c.chunkProgressSlot = some j → c₁.chunkProgressSlot ≠ some j := by
      intro k c hc hj hps
      rw [hcounter] at hps
      obtain ⟨ch, hch, -⟩ := h.counter k j c hc hj
      have hlt := (List.getElem?_eq_some_iff.1 hch).1
      rcases hnew with hnone | ⟨hsome, -⟩
      · rw [hnone] at hps
        cases hps
      · rw [hsome] at hps
        cases hps
        exact lt_irrefl _ hlt
    rcases hold k c hc with ⟨hk, rfl⟩ | ⟨-, hc⟩ <;> rcases hold k' c' hc' with ⟨hk', rfl⟩ | ⟨-, hc'⟩
    · exact hk.trans hk'.symm
    · exact absurd hj (hfresh k' c' hc' hj')
    · exact absurd hj' (hfresh k c hc hj)
    · exact h.separate k k' j c c' hc hc' hj hj'

/-- What arrives at a callback of the run are bytes of the resource in their place. -/
def ArrivesRight (R : ℕ → UInt8) (served : Range → Answer → Prop) (run : PoolRun) (i n : ℕ) :
    Prop :=
  ∀ c x, run.contexts[i]? = some c → c.phase = .transfer x c.bytesDone → served c.range x →
    c.bytesDone + n ≤ x.len →
      ∀ k < n, x.body R c.range.offset (c.bytesDone + k) = R (c.current + k)

/-- A step of the pool, if what arrives is right and a split wires its own counter. -/
theorem CountedRun.step {a : PoolAct} (h : CountedRun R served w run)
    (hst : PoolStep R w run a w' run')
    (hserved : ∀ i x c, a = .worker i (.answer x) → run.contexts[i]? = some c → served c.range x)
    (hright : ∀ i n wrote, a = .worker i (.data n wrote) → ArrivesRight R served run i n)
    (hown : ∀ i p x, a = .worker i .acquire → run.pool = some p → p.victim = some x →
      OwnCounter w run p) : CountedRun R served w' run' := by
  have ho := h.orderly.step hst hserved
  cases hst with
  | spawn => exact h.modify rfl (fun _ => ⟨rfl, rfl, rfl⟩) ho
  | spawnFails => exact h.congr rfl rfl rfl rfl ho
  | initFails => exact h.modify rfl (fun _ => ⟨rfl, rfl, rfl⟩) ho
  | answer => exact h.modify rfl (fun _ => ⟨rfl, rfl, rfl⟩) ho
  | dataStopped => exact h.modify rfl (fun _ => ⟨rfl, rfl, rfl⟩) ho
  | @dataFails i c x pos n wrote hc hph hn hs hw =>
    obtain ⟨rfl, hsv⟩ := h.orderly.position hc hph
    have hle := run.writable_le c n
    refine (h.pwrite fun k hk => ?_).modify rfl (fun _ => ⟨rfl, rfl, rfl⟩) ho
    exact hright i n wrote rfl c x hc hph hsv hn k (hk.trans (hw.trans_le hle))
  | @data i c x pos n wrote hc hph hn hs hw =>
    obtain ⟨rfl, hsv⟩ := h.orderly.position hc hph
    have hle := run.writable_le c n
    refine h.data hc rfl (fun k hk => ?_) rfl (fun _ => ⟨rfl, rfl, rfl⟩) ho
    exact hright i n wrote rfl c x hc hph hsv hn k (hk.trans_le hle)
  | finish => exact h.modify rfl (fun _ => ⟨rfl, rfl, rfl⟩) ho
  | markDone => exact h.modify rfl (fun _ => ⟨rfl, rfl, rfl⟩) ho
  | segmentEnds => exact h.modify rfl (fun _ => ⟨rfl, rfl, rfl⟩) ho
  | @acquire i c p hc hph hp =>
    generalize hacq : rebalancePoolAcquire w run p i = x at ho
    obtain ⟨w', run'⟩ := x
    cases Acquired.of_eq (h.orderly.noOrphan p hp) hacq with
    | nothing => exact h.modify rfl (fun _ => ⟨rfl, rfl, rfl⟩) ho
    | split _ _ _ hv heq => exact h.split (hown i p _ rfl hp hv) heq rfl rfl rfl ho

end Pool

/-! ## Plans -/

theorem counted_of_chunks_eq_nil (h : w.d.chunks = []) : Counted R w ∧ Flushed R w := by
  constructor <;> intro j c hc <;> rw [h] at hc <;> cases hc

theorem Flushed.congr (h : Flushed R w) (hchunks : w'.d.chunks = w.d.chunks)
    (hfile : w'.disk.file = w.disk.file) : Flushed R w' := by
  intro j c hc x h₁ h₂
  rw [hchunks] at hc
  exact (h j c hc x h₁ h₂).congr hfile

/-- The counters of a resumed table are what is recorded. -/
theorem Flushed.resumed {info : FileInfo} (h : Flushed R w) :
    Counted R (resumed w info) ∧ Flushed R (resumed w info) := by
  refine ⟨fun j c hc x h₁ h₂ => ?_, h.congr rfl rfl⟩
  have hc : w.d.chunks[j]? = some c := hc
  refine (h j c hc x h₁ ?_).congr rfl
  simpa [Cdm.resumed, hc] using h₂

/-- Nothing is counted in a fresh table. -/
theorem counted_persistPlan (rs : List Range) :
    Counted R (persistPlan w rs) ∧ Flushed R (persistPlan w rs) := by
  refine ⟨fun j c hc x h₁ h₂ => ?_, fun j c hc x h₁ h₂ => ?_⟩
  · rw [persistPlan_chunks] at hc
    have hlt : j < (rs.take qmMaxChunks).length := by
      simpa using (List.getElem?_eq_some_iff.1 hc).1
    rw [persistPlan_live rs hlt] at h₂
    omega
  · rw [persistPlan_chunks, List.getElem?_map] at hc
    obtain ⟨r, -, rfl⟩ := Option.map_eq_some_iff.1 hc
    simp only at h₁ h₂
    omega

/-- The pool started on planned ranges whose chunks are counted up to their offsets. -/
theorem countedRun_planned {rs : List (ℕ × Range)} (hfile : w.disk.file.isSome)
    (h : Counted R w ∧ Flushed R w)
    (hrs : ∀ x ∈ rs, ∃ ch, w.d.chunks[x.1]? = some ch ∧
      ch.rangeStart + w.d.chunkLiveBytes x.1 = x.2.offset)
    (hpair : rs.Pairwise fun x y => x.1 < y.1) (b : Bool) :
    CountedRun R served w (plannedRun rs b) := by
  have hget : ∀ (i j : ℕ) (c : WorkerContext), (plannedRun rs b).contexts[i]? = some c →
      c.chunkProgressSlot = some j → ∃ r, rs[i]? = some (j, r) ∧ c.current = r.offset := by
    intro i j c hc hj
    simp only [plannedRun, List.getElem?_mapIdx, Option.map_eq_some_iff] at hc
    obtain ⟨⟨j', r⟩, hx, rfl⟩ := hc
    cases hj
    exact ⟨r, hx, rfl⟩
  refine ⟨hfile, h.1, h.2, orderly_planned _ _ _, fun i j c hc hj => ?_,
    fun i i' j c c' hc hc' hj hj' => ?_⟩
  · obtain ⟨r, hr, hcur⟩ := hget i j c hc hj
    rw [hcur]
    exact hrs _ (List.mem_of_getElem? hr)
  · obtain ⟨r, hr, -⟩ := hget i j c hc hj
    obtain ⟨r', hr', -⟩ := hget i' j c' hc' hj'
    obtain ⟨hlt, hr⟩ := List.getElem?_eq_some_iff.1 hr
    obtain ⟨hlt', hr'⟩ := List.getElem?_eq_some_iff.1 hr'
    have hp := List.pairwise_iff_getElem.1 hpair
    rcases lt_trichotomy i i' with hii | hii | hii
    · have := hp i i' hlt hlt' hii
      rw [hr, hr'] at this
      exact absurd this (lt_irrefl _)
    · exact hii
    · have := hp i' i hlt' hlt hii
      rw [hr, hr'] at this
      exact absurd this (lt_irrefl _)

/-- The counters where the call is. -/
def CountInv (R : ℕ → UInt8) (served : Range → Answer → Prop) (w : World) : Pc → Prop
  | .running _ _ run | .fallback _ run => CountedRun R served w run
  | .planning info => info.supportsRanges = true ∧ Counted R w ∧ Flushed R w
  | _ => Counted R w ∧ Flushed R w

theorem CountInv.plan {info : FileInfo} {io : PlanIo} {pc : Pc}
    (hr : info.supportsRanges = true) (h : Flushed R w) (hst : PlanStep w info io w' pc) :
    CountInv R served w' pc := by
  have hrec : Flushed R (recordSize w info) := h.congr rfl rfl
  have hresumed : Counted R (resumed (recordSize w info) info) ∧
      Flushed R (resumed (recordSize w info) info) := hrec.resumed
  cases hst with
  | complete => exact hresumed
  | resume hne hs hrs hio hfile =>
    refine countedRun_planned (w := resumed (recordSize w info) info) hfile hresumed
      (fun x hx => ?_) (resumeRanges_pairwise _ _ _) _
    obtain ⟨j, r⟩ := x
    obtain ⟨c, -, hc, -, rfl⟩ := mem_resumeRanges.1 hx
    have hc : w.d.chunks[j]? = some c := hc
    refine ⟨c, hc, ?_⟩
    simp [resumed, hc, resumeRange_of_ranges hr, Range.offset]
  | resumeFails => exact hresumed
  | @allocFails w₀ _ rc h₀ halloc =>
    refine counted_of_chunks_eq_nil ?_
    rw [(preallocate_spec halloc).1, recordSize_chunks]
    rcases h₀ with ⟨rfl, hnil⟩ | ⟨rfl, -⟩
    · exact hnil
    · exact clearResumeState_chunks _
  | start h₀ halloc =>
    obtain ⟨f, hf, -⟩ := (preallocate_spec halloc).2.2 rfl
    refine countedRun_planned (by simp [hf]) (counted_persistPlan _) (fun x hx => ?_) ?_ _
    · obtain ⟨i, hi⟩ := List.mem_iff_getElem?.1 hx
      rw [List.getElem?_mapIdx, Option.map_eq_some_iff] at hi
      obtain ⟨r, hri, rfl⟩ := hi
      have hlt : i < (freshRanges info).length := (List.getElem?_eq_some_iff.1 hri).1
      have hle := length_freshRanges_le info
      refine ⟨⟨r.start, r.last, 0⟩, ?_, ?_⟩
      · rw [persistPlan_freshRanges, chunksOfRanges, List.getElem?_map, hri]
        rfl
      · rw [persistPlan_live _ (by rw [List.length_take]; omega), Range.offset,
          resumeOffset_of_mem_freshRanges (List.mem_of_getElem? hri)]
    · rw [List.pairwise_iff_getElem]
      intro i j hi hj hij
      simpa using hij
  | startFails => exact counted_persistPlan _

/-! ## Steps of the session -/

/-- Recording the progress. -/
theorem Counted.flush (h : Counted R w) :
    Counted R (flushProgress w) ∧ Flushed R (flushProgress w) := by
  refine ⟨fun j c hc x h₁ h₂ => ?_, fun j c hc x h₁ h₂ => ?_⟩ <;>
    rw [flushProgress_chunks, List.getElem?_mapIdx, Option.map_eq_some_iff] at hc <;>
    obtain ⟨c₀, hc₀, rfl⟩ := hc
  · rw [flushProgress_live] at h₂
    exact (h j c₀ hc₀ x h₁ h₂).congr flushProgress_file
  · exact (h j c₀ hc₀ x h₁ h₂).congr flushProgress_file

theorem CountInv.congr {pc : Pc} (h : CountInv R served w pc)
    (hchunks : w'.d.chunks = w.d.chunks) (hlive : w'.d.chunkLiveBytes = w.d.chunkLiveBytes)
    (hfile : w'.disk.file = w.disk.file) : CountInv R served w' pc := by
  have hcounted (h : Counted R w ∧ Flushed R w) : Counted R w' ∧ Flushed R w' := by
    refine ⟨fun j c hc x h₁ h₂ => ?_, h.2.congr hchunks hfile⟩
    rw [hchunks] at hc
    rw [hlive] at h₂
    exact (h.1 j c hc x h₁ h₂).congr hfile
  cases pc with
  | running info n run => exact CountedRun.congr h hchunks hlive hfile rfl h.orderly
  | fallback info run => exact CountedRun.congr h hchunks hlive hfile rfl h.orderly
  | planning info => exact ⟨h.1, hcounted h.2⟩
  | _ => exact hcounted h

/-- What a step of a session is assumed to do: the server has range support and answers
    as it may, what arrives is right, and a split wires its own counter. -/
structure CountsRight (R : ℕ → UInt8) (served : Range → Answer → Prop) (s : EngineState)
    (a : EngineAct) : Prop where
  head : ∀ info, a = .head (some info) → info.supportsRanges = true
  answer : ∀ run i x c, s.poolRun = some run → a = .pool (.worker i (.answer x)) →
    run.contexts[i]? = some c → served c.range x
  data : ∀ run i n wrote, s.poolRun = some run → a = .pool (.worker i (.data n wrote)) →
    ArrivesRight R served run i n
  split : ∀ run i p x, s.poolRun = some run → a = .pool (.worker i .acquire) →
    run.pool = some p → p.victim = some x → OwnCounter s.w run p

theorem CountInv.engine {s s' : EngineState} {a : EngineAct} (h : CountInv R served s.w s.pc)
    (hst : EngineStep R s a s') (hok : CountsRight R served s a) :
    CountInv R served s'.w s'.pc := by
  have hnil (w : World) (b : Bool) :
      Counted R (clearResumeState w b) ∧ Flushed R (clearResumeState w b) :=
    counted_of_chunks_eq_nil (clearResumeState_chunks b)
  have hpool {w w' : World} {run run' : PoolRun} {a' : PoolAct} (h : CountedRun R served w run)
      (hs : s.w = w) (hrun : s.poolRun = some run) (ha : a = .pool a')
      (hps : PoolStep R w run a' w' run') : CountedRun R served w' run' := by
    subst hs ha
    exact h.step hps (fun i x c he => hok.answer run i x c hrun (by rw [he]))
      (fun i n wrote he => hok.data run i n wrote hrun (by rw [he]))
      (fun i p x he => hok.split run i p x hrun (by rw [he]))
  cases hst with
  | call => exact h
  | check =>
    simp only [engineCheck]
    split_ifs
    · exact hnil _ _
    · exact h
    · exact h
  | headFails => exact h
  | head => exact ⟨hok.head _ rfl, h⟩
  | plan hplan => exact .plan h.1 h.2.2 (.of_eq hplan)
  | pool hst => exact hpool h rfl rfl rfl hst
  | join => exact ⟨CountedRun.counted h, CountedRun.flushed h⟩
  | flush => exact h.1.flush
  | @decide w info n ok runFails =>
    simp only [engineDecide]
    split_ifs with h₁ h₂ h₃
    · exact h
    · exact h
    · simp only [Bool.or_eq_true, not_or, Bool.not_eq_true] at h₃
      refine ⟨by simpa using h₃.2, h.1, h.2, orderly_singleRun _, fun i j c hc hj => ?_,
        fun i i' j c c' hc hc' hj => ?_⟩ <;>
        rw [singleRun, List.getElem?_singleton] at hc <;> split_ifs at hc <;> cases hc <;> cases hj
    · exact h
  | fallbackPool hst => exact hpool h rfl rfl rfl hst
  | fallbackJoin =>
    simp only
    split_ifs <;> exact ⟨CountedRun.counted h, CountedRun.flushed h⟩
  | finalize => exact h
  | finalizeFails => exact hnil _ _

/-- The invariant over the steps of a session without a restore. -/
theorem CountInv.step {s s' : EngineState} {a : SessionAct} (h : CountInv R served s.w s.pc)
    (hst : sessionStep R s a = some s')
    (hok : ∀ b, a = .engine b → CountsRight R served s b) (hrestore : a ≠ .restore) :
    CountInv R served s'.w s'.pc := by
  cases a with
  | engine a =>
    have hfresh : CountInv R served (⟨s.w.fresh, s.pc⟩ : EngineState).w s.pc :=
      h.congr rfl rfl rfl
    have hok := hok a rfl
    exact hfresh.engine (.of_eq hst) ⟨hok.head, hok.answer, hok.data, hok.split⟩
  | requestCancel b =>
    cases hst
    exact h.congr rfl rfl rfl
  | requestPause b =>
    cases hst
    exact h.congr rfl rfl rfl
  | restore => exact absurd rfl hrestore

theorem CountInv.of_fresh {s : EngineState} (h : Fresh s) : CountInv R served s.w s.pc := by
  rw [h.idle]
  exact counted_of_chunks_eq_nil h.chunks

/-- The invariant, wherever the call is. -/
theorem CountInv.counted {pc : Pc} (h : CountInv R served w pc) : Counted R w ∧ Flushed R w := by
  cases pc with
  | running info n run => exact ⟨CountedRun.counted h, CountedRun.flushed h⟩
  | fallback info run => exact ⟨CountedRun.counted h, CountedRun.flushed h⟩
  | planning info => exact h.2
  | _ => exact h

end Cdm
