import Cdm.Engine.ExactlyOnce
import Cdm.Engine.Wiring

/-!
# The bytes of a resumed call

When a call resumes the chunks of a file, the counter of the download is set to the bytes its
chunks have, each no more than its size, and the ranges planned are what the incomplete chunks
lack. From then on, what the counter lacks is what the slots of the pool still have to write,
whatever the callbacks and the splits (`accounted`). So once the pool has succeeded, with a
rebalance pool or without one, the counter is the size of the file. It is never more, so that
its 64 bits do not wrap.
-/

namespace Cdm

open Interval

/-- What the incomplete chunks lack, each with the index of its chunk. -/
def unfinished (cs : List DownloadChunk) : List (ℕ × Range) :=
  (cs.zipIdx.filter fun x => x.1.bytesDone < x.1.size).map fun x =>
    (x.2, ⟨x.1.rangeStart, x.1.rangeEnd, x.1.bytesDone, false⟩)

/-- A call is about to resume chunks that partition a resource of known size, of which the
    server sends ranges. The table has an entry for every chunk. -/
structure Resumes (info : FileInfo) (s : EngineState) : Prop where
  planning : s.pc = .planning info
  ranges : info.supportsRanges = true
  known : 0 < info.totalSize.toNat
  length_le : s.w.d.chunks.length ≤ qmMaxChunks
  partition : Partition info.totalSize.toNat s.w.d.chunks
  fits : resumeIsStale s.w info = false

variable {R : ℕ → UInt8} {info : FileInfo} {cs : List DownloadChunk} {w w' : World}
  {run run' : PoolRun}

/-! ## Planning -/

theorem resumedBytes_of_ranges (h : info.supportsRanges = true) (c : DownloadChunk) :
    resumedBytes info c = min c.bytesDone c.size := by
  rw [resumedBytes, resumeRange_of_ranges h]
  split_ifs with hc
  · exact (min_eq_right (of_decide_eq_true hc)).symm
  · rw [chunkIsComplete, decide_eq_true_eq, not_le] at hc
    exact (min_eq_left hc.le).symm

theorem resumeRanges_of_ranges (h : info.supportsRanges = true) (cs : List DownloadChunk) :
    resumeRanges info 0 cs = unfinished cs := by
  suffices hall : ∀ i, resumeRanges info i cs = ((cs.zipIdx i).filter fun x =>
      x.1.bytesDone < x.1.size).map fun x =>
        (x.2, ⟨x.1.rangeStart, x.1.rangeEnd, x.1.bytesDone, false⟩) from hall 0
  induction cs with
  | nil => exact fun _ => rfl
  | cons c cs ih =>
    intro i
    rw [resumeRanges, List.zipIdx_cons, List.filter_cons, ih, resumeRange_of_ranges h]
    by_cases hc : c.size ≤ c.bytesDone
    · simp [chunkIsComplete, hc, not_lt.2 hc]
    · simp [chunkIsComplete, hc, not_le.1 hc]

/-- The sizes of the chunks of a partition sum up to the size of the file. -/
theorem Partition.sum_size {n : ℕ} (h : Partition n cs) : (cs.map (·.size)).sum = n :=
  h.tiles.sum_length

/-- What is there and what is planned make up the chunks. -/
theorem sum_planned (h : info.supportsRanges = true) (i : ℕ) (cs : List DownloadChunk) :
    (cs.map (resumedBytes info)).sum +
      ((resumeRanges info i cs).map fun x => x.2.last + 1 - x.2.offset).sum =
        (cs.map (·.size)).sum := by
  induction cs generalizing i with
  | nil => rfl
  | cons c cs ih =>
    have htail := ih (i + 1)
    rw [resumeRanges, List.map_cons, List.sum_cons, List.map_cons, List.sum_cons,
      resumedBytes_of_ranges h]
    split_ifs with hc
    · have hc : c.size ≤ c.bytesDone := of_decide_eq_true hc
      omega
    · have hc : c.bytesDone < c.size := not_le.1 fun hle => hc (decide_eq_true hle)
      rw [List.map_cons, List.sum_cons, resumeRange_of_ranges h, Range.offset]
      simp only [DownloadChunk.size] at hc htail ⊢
      omega

/-! ## Runs of the pool -/

/-- The bytes the slots of a pool still have to write. -/
def RebalancePool.outstanding (p : RebalancePool) : ℕ := (p.slots.map PoolSlot.remaining).sum

theorem onRebalanceSplit_bytes {ps ps' : ℕ → Option ℕ} {x y z : ℕ}
    (h : onRebalanceSplit w ps x y z = (w', ps')) : w'.d.bytesDownloaded = w.d.bytesDownloaded := by
  have hshrink : (shrinkVictim w x y).d.bytesDownloaded = w.d.bytesDownloaded := by
    rw [shrinkVictim]
    split <;> rfl
  rw [onRebalanceSplit] at h
  split_ifs at h
  · cases h
    exact hshrink
  · cases h
    exact hshrink

/-- A split divides what a slot still has to write. -/
theorem RebalancePool.outstanding_split {p : RebalancePool} {s : PoolSlot} {v : ℕ}
    (hv : p.slots[v]? = some s) (counter : Option ℕ) :
    (p.split s v counter).outstanding = p.outstanding := by
  have hsum := List.sum_map_modify (f := fun s => { s with liveEnd := s.middle })
    (g := PoolSlot.remaining) hv
  have hcut : PoolSlot.remaining { s with liveEnd := s.middle } +
      PoolSlot.remaining ⟨s.middle, s.middle, s.liveEnd, true, false, counter⟩ = s.remaining := by
    simp only [PoolSlot.remaining, PoolSlot.middle]
    omega
  rw [outstanding, outstanding, split, List.map_append, List.sum_append, List.map_singleton,
    List.sum_singleton]
  omega

/-- A step of a pool adds to the counter what it takes from what is outstanding. -/
theorem outstanding_step {U : Set ℕ} {written : ℕ → ℕ} {p p' : RebalancePool} {a : PoolAct}
    (h : Exact U run p written) (hst : PoolStep R w run a w' run') (hp' : run'.pool = some p') :
    w'.d.bytesDownloaded + p'.outstanding = w.d.bytesDownloaded + p.outstanding := by
  have hsame : ∀ {run' : PoolRun}, run'.pool = run.pool → run'.pool = some p' →
      p'.outstanding = p.outstanding := by
    intro run' hpool hp'
    rw [hpool, h.pool, Option.some.injEq] at hp'
    rw [hp']
  cases hst with
  | @data i c x pos n wrote hc hph hn hs hw =>
    obtain ⟨s, hslot, -, hpos, -⟩ := h.manned.mans c (List.mem_of_getElem? hc)
    have hle := (h.once.bounds s (List.mem_of_getElem? hslot)).2
    -- The limit of the slot is what bounds a write.
    have hm : run.writable c n ≤ s.remaining := by
      rw [PoolRun.writable, h.limit hslot, ← hpos]
      exact min_le_right _ _
    have hsum := List.sum_map_modify
      (f := fun s => { s with writePos := s.writePos + run.writable c n })
      (g := PoolSlot.remaining) hslot
    have hp : p'.slots = p.slots.modify c.slotIndex
        fun s => { s with writePos := s.writePos + run.writable c n } := by
      simp only [PoolRun.modify, PoolRun.modifySlot, h.pool, Option.map_some,
        Option.some.injEq] at hp'
      rw [← hp']
    show w.d.bytesDownloaded + run.writable c n + _ = _
    have hslot' : PoolSlot.remaining { s with writePos := s.writePos + run.writable c n } =
        s.remaining - run.writable c n := Nat.sub_add_eq _ _ _
    rw [RebalancePool.outstanding, RebalancePool.outstanding, hp]
    omega
  | @markDone i c q hc hph hp =>
    obtain rfl : q = p := Option.some.inj (hp.symm.trans h.pool)
    obtain rfl : q.markDone c.slotIndex = p' := Option.some.inj hp'
    obtain ⟨s, hslot, -⟩ := h.manned.mans c (List.mem_of_getElem? hc)
    have hsum := List.sum_map_modify
      (f := fun s => { s with exhausted := true, claimed := false })
      (g := PoolSlot.remaining) hslot
    -- A slot that is marked keeps what it has still to write.
    exact congrArg _ (Nat.add_right_cancel hsum)
  | @acquire i c q hc hph hp =>
    obtain rfl : q = p := Option.some.inj (hp.symm.trans h.pool)
    generalize hacq : rebalancePoolAcquire w run q i = x at hp' ⊢
    obtain ⟨w', run'⟩ := x
    cases Acquired.of_eq (h.orderly.noOrphan q hp) hacq with
    | nothing => exact congrArg _ (hsame rfl hp')
    | split hv _ _ _ heq =>
      obtain rfl := Option.some.inj hp'
      rw [RebalancePool.outstanding_split hv.get, onRebalanceSplit_bytes heq]
  | _ => exact congrArg _ (hsame rfl hp')

/-- A run without a rebalance pool, whose workers have one range each: the counter is that of
    the start and what the workers have written, which is their range once they are done. -/
structure Plain (total : ℕ) (w : World) (run : PoolRun) : Prop where
  pool : run.pool = none
  nonempty : ∀ c ∈ run.contexts, c.range.offset ≤ c.range.last
  counted : w.d.bytesDownloaded +
      (run.contexts.map fun c => c.range.last + 1 - c.range.offset).sum =
    total + (run.contexts.map (·.bytesDone)).sum
  done : ∀ c ∈ run.contexts, Ranged.finished c.phase = true →
    c.bytesDone = c.range.last + 1 - c.range.offset

/-- A worker changes that is done only if its range is written. -/
theorem Plain.setPhase {total i : ℕ} {c : WorkerContext} {f : WorkerContext → WorkerContext}
    (h : Plain total w run) (hpool : run'.pool = none)
    (hcontexts : run'.contexts = run.contexts.modify i f) (hc : run.contexts[i]? = some c)
    (hf : ∀ c, (f c).range = c.range ∧ (f c).bytesDone = c.bytesDone)
    (hfin : Ranged.finished (f c).phase = true →
      c.bytesDone = c.range.last + 1 - c.range.offset)
    (hbytes : w'.d.bytesDownloaded = w.d.bytesDownloaded) : Plain total w' run' := by
  have hrange := List.sum_map_modify (f := f)
    (g := fun c => c.range.last + 1 - c.range.offset) hc
  have hdone := List.sum_map_modify (f := f) (g := (·.bytesDone)) hc
  simp only [(hf c).1, (hf c).2] at hrange hdone
  refine ⟨hpool, ?_, ?_, ?_⟩
  · rw [hcontexts]
    refine List.forall_mem_modify h.nonempty fun c hc => ?_
    rw [(hf c).1]
    exact h.nonempty c (List.mem_of_getElem? hc)
  · rw [hcontexts, hbytes, Nat.add_right_cancel hrange, Nat.add_right_cancel hdone]
    exact h.counted
  · rw [hcontexts]
    refine List.forall_mem_modify h.done fun c' hc' h' => ?_
    obtain rfl := Option.some.inj (hc.symm.trans hc')
    rw [(hf c).1, (hf c).2]
    exact hfin h'

/-- Without a rebalance pool, a worker has no limit but the end of the answer. -/
theorem Plain.limit {total : ℕ} (h : Plain total w run) (c : WorkerContext) :
    run.limit c = none := by
  rw [PoolRun.limit, h.pool]

/-- A callback counts what it writes. -/
theorem Plain.data {total i m : ℕ} {c : WorkerContext} {f : WorkerContext → WorkerContext}
    (h : Plain total w run) (hpool : run'.pool = none)
    (hcontexts : run'.contexts = run.contexts.modify i f) (hc : run.contexts[i]? = some c)
    (hf : ∀ c, (f c).range = c.range ∧ (f c).bytesDone = c.bytesDone + m)
    (hfin : Ranged.finished (f c).phase = false)
    (hbytes : w'.d.bytesDownloaded = w.d.bytesDownloaded + m) : Plain total w' run' := by
  have hrange := List.sum_map_modify (f := f)
    (g := fun c => c.range.last + 1 - c.range.offset) hc
  have hdone := List.sum_map_modify (f := f) (g := (·.bytesDone)) hc
  have hcounted := h.counted
  simp only [(hf c).1, (hf c).2] at hrange hdone
  refine ⟨hpool, ?_, ?_, ?_⟩
  · rw [hcontexts]
    refine List.forall_mem_modify h.nonempty fun c hc => ?_
    rw [(hf c).1]
    exact h.nonempty c (List.mem_of_getElem? hc)
  · rw [hcontexts, hbytes]
    omega
  · rw [hcontexts]
    refine List.forall_mem_modify h.done fun c' hc' h' => ?_
    obtain rfl := Option.some.inj (hc.symm.trans hc')
    rw [hfin] at h'
    cases h'

theorem Plain.step {total : ℕ} {a : PoolAct} (h : Plain total w run)
    (hst : PoolStep R w run a w' run') : Plain total w' run' := by
  cases hst with
  | spawn hb hlt =>
    exact h.setPhase h.pool rfl (List.getElem?_eq_getElem hlt) (fun _ => ⟨rfl, rfl⟩)
      (fun h' => by cases h') rfl
  | spawnFails => exact ⟨h.pool, h.nonempty, h.counted, h.done⟩
  | initFails hc hph =>
    exact h.setPhase h.pool rfl hc (fun _ => ⟨rfl, rfl⟩) (fun h' => by cases h') rfl
  | answer hc hph =>
    exact h.setPhase h.pool rfl hc (fun _ => ⟨rfl, rfl⟩) (fun h' => by cases h') rfl
  | dataStopped hc hph =>
    exact h.setPhase h.pool rfl hc (fun _ => ⟨rfl, rfl⟩)
      (fun h' => by rw [finished_delivered] at h'; cases h') rfl
  | dataFails hc hph =>
    exact h.setPhase h.pool rfl hc (fun _ => ⟨rfl, rfl⟩)
      (fun h' => by rw [finished_delivered] at h'; cases h') rfl
  | data hc hph hn hs hw =>
    refine h.data ?_ rfl hc (fun _ => ⟨rfl, rfl⟩) (finished_delivered _ _ _ _) rfl
    simp [PoolRun.modify, PoolRun.modifySlot, h.pool]
  | @finish i c x res res' hc hph =>
    refine h.setPhase h.pool rfl hc (fun _ => ⟨rfl, rfl⟩) (fun h' => ?_) rfl
    have hle := h.nonempty c (List.mem_of_getElem? hc)
    by_cases hok : segmentOk run c x.status res' = true
    · -- A segment judged successful has the bytes of its range.
      simp only [segmentOk, decide_eq_true_eq] at hok
      have hbytes := hok.2.1
      rw [expectedBytes, h.limit c] at hbytes
      simp only [if_pos hle] at hbytes
      omega
    · rw [if_neg hok] at h'
      cases h'
  | markDone _ _ hp =>
    rw [h.pool] at hp
    cases hp
  | @segmentEnds i c hc hph =>
    refine h.setPhase h.pool rfl hc (fun _ => ⟨rfl, rfl⟩) (fun _ => ?_) rfl
    exact h.done c (List.mem_of_getElem? hc) (by rw [hph]; rfl)
  | acquire _ _ hp =>
    rw [h.pool] at hp
    cases hp

/-- What the counter lacks is what the slots still have to write. -/
def Balanced (total : ℕ) (w : World) (run : PoolRun) : Prop :=
  (∃ U written p, Exact U run p written ∧ w.d.bytesDownloaded + p.outstanding = total) ∨
    Plain total w run

theorem Balanced.step {total : ℕ} {a : PoolAct} (h : Balanced total w run)
    (hst : PoolStep R w run a w' run') : Balanced total w' run' := by
  rcases h with ⟨U, written, p, hexact, hsum⟩ | hplain
  · obtain ⟨p', hexact'⟩ := hexact.step hst
    exact .inl ⟨U, _, p', hexact', (outstanding_step hexact hst hexact'.pool).trans hsum⟩
  · exact .inr (hplain.step hst)

/-- The invariant depends on the counter and the run. -/
theorem Balanced.congr {total : ℕ} (h : Balanced total w run)
    (hbytes : w'.d.bytesDownloaded = w.d.bytesDownloaded) : Balanced total w' run := by
  rcases h with ⟨U, written, p, hexact, hsum⟩ | ⟨hpool, hnonempty, hcounted, hdone⟩
  · exact .inl ⟨U, written, p, hexact, by rw [hbytes, hsum]⟩
  · exact .inr ⟨hpool, hnonempty, by rw [hbytes, hcounted], hdone⟩

/-- The workers of a run that succeeded are done. -/
theorem finished_of_allSucceeded (h : run.allSucceeded = true) {c : WorkerContext}
    (hc : c ∈ run.contexts) : Ranged.finished c.phase = true := by
  rw [PoolRun.allSucceeded, Bool.and_eq_true, List.all_eq_true] at h
  have hended := h.2 c hc
  rcases hph : c.phase with _ | _ | _ | _ | _ | _ | _ | _
  all_goals first | rfl | (rw [hph] at hended; cases hended)

/-- Once every worker succeeded, nothing is outstanding. -/
theorem Balanced.bytes_eq {total : ℕ} (h : Balanced total w run) (hok : run.allSucceeded = true) :
    w.d.bytesDownloaded = total := by
  rcases h with ⟨U, written, p, hexact, hsum⟩ | hplain
  · have hdone : ∀ s ∈ p.slots, s.remaining = 0 := by
      intro s hs
      obtain ⟨k, hk⟩ := List.mem_iff_getElem?.1 hs
      have heq : s.writePos = s.liveEnd := by
        refine (hexact.manned.rest k s hk).elim id fun ⟨c, hc, hck⟩ => ?_
        obtain ⟨s', hs', -, -, hfin⟩ := hexact.manned.mans c hc
        rw [hck, hk] at hs'
        cases hs'
        exact hfin (finished_of_allSucceeded hok hc)
      rw [PoolSlot.remaining, heq, Nat.sub_self]
    have hzero : p.outstanding = 0 := List.sum_eq_zero fun n hn => by
      obtain ⟨s, hs, rfl⟩ := List.mem_map.1 hn
      exact hdone s hs
    rw [← hsum, hzero, Nat.add_zero]
  · have hsame : run.contexts.map (·.bytesDone) =
        run.contexts.map fun c => c.range.last + 1 - c.range.offset :=
      List.map_congr_left fun c hc => hplain.done c hc (finished_of_allSucceeded hok hc)
    have hcounted := hplain.counted
    rw [hsame] at hcounted
    exact Nat.add_right_cancel hcounted

/-! ## Calls -/

/-- The ranges planned are not empty, and apart. -/
theorem Partition.ranges {n : ℕ} (h : Partition n cs) (hinfo : info.supportsRanges = true) :
    (∀ x ∈ resumeRanges info 0 cs, x.2.offset ≤ x.2.last) ∧
      (resumeRanges info 0 cs).Pairwise fun x y =>
        x.2.last < y.2.offset ∨ y.2.last < x.2.offset := by
  have hchunk : ∀ x ∈ resumeRanges info 0 cs, ∃ c, cs[x.1]? = some c ∧
      c.rangeStart ≤ x.2.offset ∧ x.2.offset ≤ x.2.last ∧ x.2.last = c.rangeEnd := by
    rintro ⟨j, r⟩ hx
    obtain ⟨c, -, hc, hincomplete, rfl⟩ := mem_resumeRanges.1 hx
    rw [chunkIsComplete_eq_false] at hincomplete
    rw [resumeRange_of_ranges hinfo]
    exact ⟨c, hc, Nat.le_add_right _ _, hincomplete, rfl⟩
  refine ⟨fun x hx => ?_, (resumeRanges_pairwise info 0 cs).imp_of_mem fun {x y} hx hy hlt => ?_⟩
  · obtain ⟨c, -, -, hle, -⟩ := hchunk x hx
    exact hle
  · obtain ⟨c, hc, h₁, h₂, h₃⟩ := hchunk x hx
    obtain ⟨c', hc', h₁', h₂', h₃'⟩ := hchunk y hy
    by_contra hmeet
    rw [not_or, not_lt, not_lt] at hmeet
    -- The later of the two offsets is in both chunks.
    have heq := h.index_eq hc hc' (x := max x.2.offset y.2.offset)
      ⟨by omega, by omega⟩ ⟨by omega, by omega⟩
    exact hlt.ne heq

theorem Resumes.chunks_ne_nil {s : EngineState} (h : Resumes info s) : s.w.d.chunks ≠ [] := by
  intro hnil
  have hsum := h.partition.sum_size
  rw [hnil] at hsum
  exact h.known.ne hsum

/-- The counter and the ranges of a call that resumes make up the file. -/
theorem Resumes.sum_eq {s : EngineState} (h : Resumes info s) :
    (s.w.d.chunks.map (resumedBytes info)).sum +
      ((resumeRanges info 0 s.w.d.chunks).map fun x => x.2.last + 1 - x.2.offset).sum =
        info.totalSize.toNat := by
  rw [sum_planned h.ranges, h.partition.sum_size]

/-- A call that resumes starts its run balanced. -/
theorem Resumes.balanced {s : EngineState} (h : Resumes info s) (b : Bool) :
    Balanced info.totalSize.toNat (resumed (recordSize s.w info) info)
      (plannedRun (resumeRanges info 0 s.w.d.chunks) b) := by
  obtain ⟨hle, hdisj⟩ := h.partition.ranges h.ranges
  have hsum := h.sum_eq
  have hcontexts {β : Type} (g : WorkerContext → β) (g' : Range → β)
      (hg : ∀ i j r, g (contextOf i j r) = g' r) :
      (plannedRun (resumeRanges info 0 s.w.d.chunks) b).contexts.map g =
        (resumeRanges info 0 s.w.d.chunks).map fun x => g' x.2 := by
    refine List.ext_getElem? fun k => ?_
    simp [plannedRun, List.getElem?_mapIdx, Function.comp_def, hg]
  by_cases hpool : 1 < (resumeRanges info 0 s.w.d.chunks).length ∧ b = false
  · refine .inl ⟨toFetch (resumeRanges info 0 s.w.d.chunks), fun _ => 0,
      rebalancePoolCreate (resumeRanges info 0 s.w.d.chunks) stealThreshold,
      ⟨if_pos hpool, orderly_planned _ _ _, (by decide : 1 ≤ stealThreshold), ?_, once_create hle hdisj,
        manned_create _⟩, ?_⟩
    · rw [rebalancePoolCreate, List.length_map]
      exact (length_resumeRanges_le _ _ _).trans h.length_le
    · rw [← hsum, RebalancePool.outstanding, rebalancePoolCreate, List.map_map]
      rfl
  · refine .inr ⟨if_neg hpool, fun c hc => ?_, ?_, fun c hc hfin => ?_⟩
    · obtain ⟨k, hk⟩ := List.mem_iff_getElem?.1 hc
      simp only [plannedRun, List.getElem?_mapIdx, Option.map_eq_some_iff] at hk
      obtain ⟨x, hx, rfl⟩ := hk
      exact hle x (List.mem_of_getElem? hx)
    · rw [hcontexts _ (fun r => r.last + 1 - r.offset) fun _ _ _ => rfl,
        hcontexts _ (fun _ => 0) fun _ _ _ => rfl, ← hsum]
      simp [resumed, recordSize]
    · obtain ⟨k, hk⟩ := List.mem_iff_getElem?.1 hc
      simp only [plannedRun, List.getElem?_mapIdx, Option.map_eq_some_iff] at hk
      obtain ⟨x, -, rfl⟩ := hk
      cases hfin

/-- The counter accounts for the bytes of the file while the pool runs, and is the size of the
    file when it has succeeded. -/
def BalancedAt (info : FileInfo) (s : EngineState) : Prop :=
  match s.pc with
  | .entered | .probing => False
  | .planning _ => Resumes info s
  | .running info' _ run => info' = info ∧ Balanced info.totalSize.toNat s.w run
  | .flushing _ _ true => s.w.d.bytesDownloaded = info.totalSize.toNat
  | _ => True

theorem BalancedAt.engine {s s' : EngineState} {a : EngineAct} (h : BalancedAt info s)
    (hst : EngineStep R s a s') (hin : s.inCall = true) : BalancedAt info s' := by
  cases hst with
  | call => cases hin
  | check => cases h
  | headFails => cases h
  | head => cases h
  | @plan w w' pc info' io hplan =>
    have hresumes : Resumes info ⟨w, .planning info'⟩ := h
    obtain rfl : info' = info := Pc.planning.inj hresumes.planning
    cases PlanStep.of_eq hplan with
    | complete => trivial
    | resume => exact ⟨rfl, hresumes.balanced _⟩
    | resumeFails => trivial
    | allocFails h₀ => trivial
    | start h₀ => exact absurd h₀ (by simp [hresumes.chunks_ne_nil, hresumes.fits])
    | startFails => trivial
  | pool hpool => exact ⟨h.1, h.2.step hpool⟩
  | @join w info' n run hjoin =>
    cases hok : run.allSucceeded with
    | false => trivial
    | true => exact h.2.bytes_eq hok
  | decide =>
    simp only [engineDecide]
    split_ifs <;> trivial
  | @fallbackJoin w info' run hjoin =>
    cases run.allSucceeded <;> trivial
  | _ => trivial

theorem BalancedAt.congr {s s' : EngineState} (h : BalancedAt info s) (hpc : s'.pc = s.pc)
    (hbytes : s'.w.d.bytesDownloaded = s.w.d.bytesDownloaded)
    (hchunks : s'.w.d.chunks = s.w.d.chunks) (htotal : s'.w.d.totalSize = s.w.d.totalSize)
    (hfile : s'.w.disk.file = s.w.disk.file) : BalancedAt info s' := by
  obtain ⟨w, pc⟩ := s
  obtain ⟨w', pc'⟩ := s'
  obtain rfl : pc' = pc := hpc
  cases pc' with
  | planning info' =>
    obtain ⟨hpc, hranges, hknown, hlength, hpartition, hfits⟩ : Resumes info _ := h
    refine ⟨hpc, hranges, hknown, ?_, ?_, ?_⟩
    · rw [hchunks]
      exact hlength
    · rw [hchunks]
      exact hpartition
    · rw [resumeIsStale, htotal, hfile]
      exact hfits
  | running info' n run => exact ⟨h.1, h.2.congr hbytes⟩
  | flushing info' n ok =>
    cases ok with
    | false => trivial
    | true => exact hbytes.trans h
  | entered => exact h
  | probing => exact h
  | _ => trivial

theorem BalancedAt.step {s s' : EngineState} {a : SessionAct} (h : BalancedAt info s)
    (hst : sessionStep R s a = some s') (hin : s.inCall = true) : BalancedAt info s' := by
  cases a with
  | engine a =>
    have hfresh : BalancedAt info ⟨s.w.fresh, s.pc⟩ := h.congr rfl rfl rfl rfl rfl
    exact hfresh.engine (.of_eq hst) hin
  | requestCancel b =>
    cases hst
    exact h.congr rfl rfl rfl rfl rfl
  | requestPause b =>
    cases hst
    exact h.congr rfl rfl rfl rfl rfl
  | restore =>
    obtain ⟨w, pc⟩ := s
    simp only [sessionStep] at hst
    split at hst
    · cases hin
    · cases hst

/-- A call that resumes sets the counter to what the chunks have, and plans what they lack. -/
theorem Resumes.planned {s : EngineState} (h : Resumes info s) (io : PlanIo) :
    (planDownload s.w info io).1.d.bytesDownloaded =
        (s.w.d.chunks.map fun c => min c.bytesDone c.size).sum ∧
      (planDownload s.w info io).2 =
        if unfinished s.w.d.chunks = [] then .finalizing info
        else (startPool (planDownload s.w info io).1 info (unfinished s.w.d.chunks) io).2 := by
  have hfits : resumeIsStale s.w info ≠ true := by
    rw [h.fits]
    decide
  have hplan : planDownload s.w info io = resumePlan (recordSize s.w info) info io := by
    rw [planDownload, if_neg h.chunks_ne_nil, if_neg hfits]
  have hranges : resumeRanges info 0 (recordSize s.w info).d.chunks = unfinished s.w.d.chunks :=
    resumeRanges_of_ranges h.ranges _
  have hbytes : s.w.d.chunks.map (resumedBytes info) =
      s.w.d.chunks.map fun c => min c.bytesDone c.size :=
    List.map_congr_left fun c _ => resumedBytes_of_ranges h.ranges c
  rw [hplan, resumePlan]
  simp only [hranges]
  split_ifs with hnone
  · exact ⟨congrArg List.sum hbytes, rfl⟩
  · rw [startPool, startPool]
    split_ifs
    all_goals exact ⟨congrArg List.sum hbytes, rfl⟩

/-- In every call that resumes, the counter is set to what the chunks have, and the ranges
    planned are what they lack. While the pool runs, the counter and what its slots still have to
    write make up the size of the file; when it has succeeded, the counter is the size. -/
theorem accounted {s₀ s : EngineState} (h₀ : Resumes info s₀)
    (hs : Run.Reachable (sessionStep R) (· = s₀) (fun s _ => s.inCall = true) s) :
    (∀ io, (planDownload s₀.w info io).1.d.bytesDownloaded =
          (s₀.w.d.chunks.map fun c => min c.bytesDone c.size).sum ∧
        (planDownload s₀.w info io).2 =
          if unfinished s₀.w.d.chunks = [] then .finalizing info
          else (startPool (planDownload s₀.w info io).1 info (unfinished s₀.w.d.chunks) io).2) ∧
      (∀ p, s.rebalancePool = some p →
        (∀ x ∈ p.slots, x.writePos ≤ x.liveEnd) ∧
          s.w.d.bytesDownloaded + (p.slots.map fun x => x.liveEnd - x.writePos).sum =
            info.totalSize.toNat) ∧
      ∀ n, s.pc = .flushing info n true → s.w.d.bytesDownloaded = info.totalSize.toNat := by
  have hinv : BalancedAt info s := by
    refine hs.invariant (I := BalancedAt info) (fun s hinit => ?_) fun s a s' h hin hst =>
      h.step hst hin
    obtain rfl := hinit
    rw [BalancedAt, h₀.planning]
    exact h₀
  refine ⟨h₀.planned, fun p hp => ?_, fun n hpc => ?_⟩
  · obtain ⟨w, pc⟩ := s
    cases pc with
    | running info' n run =>
      rcases hinv.2 with ⟨U, written, p', hexact, hsum⟩ | hplain
      · obtain rfl : p = p' := Option.some.inj (hp.symm.trans hexact.pool)
        exact ⟨fun x hx => (hexact.once.bounds x hx).2, hsum⟩
      · exact absurd (hp.symm.trans hplain.pool) (Option.some_ne_none p)
    | _ => cases hp
  · rw [BalancedAt, hpc] at hinv
    exact hinv

/-- Eight mebibytes in four chunks: two are complete, one is recorded with more than its size,
    one lacks its second half, and one everything. -/
def halfLive (i : ℕ) : ℕ :=
  if i = 0 then 3000000 else if i = 1 then 1048576 else if i = 2 then 2097152 else 0

def halfResumed : EngineState := resumingState ⟨8388608, true⟩ halfLive

theorem resumes_halfResumed : Resumes ⟨8388608, true⟩ halfResumed where
  planning := rfl
  ranges := rfl
  known := by decide
  length_le := by decide +kernel
  partition := by
    have hT : 0 < (FileInfo.mk 8388608 true).totalSize.toNat := by decide
    exact (partition_freshRanges hT).flush halfLive
  fits := by decide +kernel

/-- The worker of the second chunk fetches what it lacks, and looks for more to do. -/
def halfActs : List EngineAct :=
  planActs 2 ++ gets 0 1048576 ++ [.pool (.worker 0 .acquire)]

/-- The worker of the second chunk is done, and takes half of what the other one has to fetch. -/
theorem accounted_halfResumed :
    ∃ s p, Run.Reachable (sessionStep fun _ => 1) (· = halfResumed) (fun s _ => s.inCall = true) s ∧
      s.rebalancePool = some p ∧ p.slots.length = 3 ∧ s.w.d.bytesDownloaded = 6291456 ∧
      s.w.d.bytesDownloaded + (p.slots.map fun x => x.liveEnd - x.writePos).sum = 8388608 := by
  obtain ⟨s, hs, ⟨p, hp, hlen⟩, hbytes⟩ := Run.exists_reachable_of_exec (sessionStep fun _ => 1)
    (· = halfResumed) (fun s _ => s.inCall = true)
    (fun s => (∃ p ∈ s.rebalancePool, p.slots.length = 3) ∧ s.w.d.bytesDownloaded = 6291456)
    rfl (halfActs.map .engine) (by decide +kernel)
  exact ⟨s, p, hs, hp, hlen, hbytes, ((accounted resumes_halfResumed hs).2.1 p hp).2⟩

end Cdm
