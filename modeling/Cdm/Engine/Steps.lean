import Cdm.Engine.Runner

/-!
# The steps of the engine as a relation

What a step of the pool (`PoolStep`) and of a call (`EngineStep`) can do, a
constructor per case with what is known in it: the handles for the proofs, which
never unfold the step functions (`PoolStep.of_eq`, `EngineStep.of_eq`).
-/

namespace Cdm

variable {R : ℕ → UInt8}

/-- The steps of a run of the pool. -/
inductive PoolStep (R : ℕ → UInt8) (w : World) (run : PoolRun) :
    PoolAct → World → PoolRun → Prop
  | spawn : run.broken = false → run.spawned < run.contexts.length →
      PoolStep R w run (.spawn true) w
        ({ run with spawned := run.spawned + 1 }.setPhase run.spawned .request)
  | spawnFails : run.broken = false → run.spawned < run.contexts.length →
      PoolStep R w run (.spawn false) { w with d := { w.d with cancelRequested := true } }
        { run with broken := true }
  | initFails {i : ℕ} {c : WorkerContext} : run.contexts[i]? = some c → c.phase = .request →
      PoolStep R w run (.worker i .initFails) w (run.setPhase i (.ended false))
  | answer {i : ℕ} {c : WorkerContext} {a : Answer} : run.contexts[i]? = some c →
      c.phase = .request →
      PoolStep R w run (.worker i (.answer a)) w (run.setPhase i (.transfer a 0))
  /-- A callback that finds a request to stop. -/
  | dataStopped {i : ℕ} {c : WorkerContext} {a : Answer} {pos n wrote : ℕ} :
      run.contexts[i]? = some c → c.phase = .transfer a pos → pos + n ≤ a.len →
      userStopped w = true →
      PoolStep R w run (.worker i (.data n wrote)) w (run.setPhase i (delivered a pos n 0))
  /-- A callback whose write fails. -/
  | dataFails {i : ℕ} {c : WorkerContext} {a : Answer} {pos n wrote : ℕ} :
      run.contexts[i]? = some c → c.phase = .transfer a pos → pos + n ≤ a.len →
      userStopped w = false → wrote < run.writable c n →
      PoolStep R w run (.worker i (.data n wrote))
        (w.emit (.pwrite c.current (received R c a pos wrote)))
        (run.modify i fun c' => { c' with
          truncated := c.truncated || run.cuts c n, phase := delivered a pos n 0 })
  /-- A callback that writes and counts. -/
  | data {i : ℕ} {c : WorkerContext} {a : Answer} {pos n wrote : ℕ} :
      run.contexts[i]? = some c → c.phase = .transfer a pos → pos + n ≤ a.len →
      userStopped w = false → run.writable c n ≤ wrote →
      PoolStep R w run (.worker i (.data n wrote))
        ((w.emit (.pwrite c.current (received R c a pos (run.writable c n)))).count
          c.chunkProgressSlot (run.writable c n))
        ((run.modifySlot c fun s => { s with writePos := s.writePos + run.writable c n }).modify i
          fun c' => { c' with
            bytesDone := c'.bytesDone + run.writable c n
            truncated := c.truncated || run.cuts c n
            phase := delivered a pos n (run.writable c n) })
  /-- A judgement: the transfer ended by itself, or by a callback that stopped it. -/
  | finish {i : ℕ} {c : WorkerContext} {a : Answer} {res res' : Bool} :
      run.contexts[i]? = some c →
      ((∃ pos, c.phase = .transfer a pos ∧ res' = res) ∨ (c.phase = .aborted a ∧ res' = false)) →
      PoolStep R w run (.worker i (.finish res)) w
        (run.setPhase i (if segmentOk run c a.status res' then .segmentDone else .ended false))
  | markDone {i : ℕ} {c : WorkerContext} {p : RebalancePool} : run.contexts[i]? = some c →
      c.phase = .segmentDone → run.pool = some p →
      PoolStep R w run (.worker i .markDone) w
        ({ run with pool := some (p.markDone c.slotIndex) }.setPhase i .idle)
  | segmentEnds {i : ℕ} {c : WorkerContext} : run.contexts[i]? = some c →
      c.phase = .segmentDone → run.pool = none →
      PoolStep R w run (.worker i .markDone) w (run.setPhase i (.ended true))
  | acquire {i : ℕ} {c : WorkerContext} {p : RebalancePool} : run.contexts[i]? = some c →
      c.phase = .idle → run.pool = some p →
      PoolStep R w run (.worker i .acquire) (rebalancePoolAcquire w run p i).1
        (rebalancePoolAcquire w run p i).2

theorem PoolStep.of_data {w w' : World} {run run' : PoolRun} {i n wrote pos : ℕ}
    {c : WorkerContext} {a : Answer} (hc : run.contexts[i]? = some c)
    (hph : c.phase = .transfer a pos) (hn : pos + n ≤ a.len)
    (h : workerWriteCallback R w run i c a pos n wrote = (w', run')) :
    PoolStep R w run (.worker i (.data n wrote)) w' run' := by
  rw [workerWriteCallback] at h
  by_cases hs : (w.d.cancelRequested || w.d.pauseRequested) = true
  · rw [if_pos hs] at h
    cases h
    exact .dataStopped hc hph hn hs
  · rw [if_neg hs] at h
    have hs' : userStopped w = false := by simpa [userStopped] using hs
    by_cases hw : wrote < run.writable c n
    · simp only [hw, ↓reduceIte] at h
      cases h
      exact .dataFails hc hph hn hs' hw
    · simp only [hw, ↓reduceIte] at h
      cases h
      exact .data hc hph hn hs' (by omega)

theorem PoolStep.of_worker {w w' : World} {run run' : PoolRun} {i : ℕ} {c : WorkerContext}
    {a : WorkerAct} (hc : run.contexts[i]? = some c)
    (h : workerStep R w run i c a = some (w', run')) :
    PoolStep R w run (.worker i a) w' run' := by
  cases a with
  | initFails =>
    simp only [workerStep] at h
    split at h <;> cases h
    exact .initFails hc ‹_›
  | answer a =>
    simp only [workerStep] at h
    split at h <;> cases h
    exact .answer hc ‹_›
  | data n wrote =>
    simp only [workerStep] at h
    split at h <;> try cases h
    split_ifs at h with hn
    exact .of_data hc ‹_› hn (Option.some.inj h)
  | finish res =>
    simp only [workerStep] at h
    split at h <;> cases h
    · exact .finish hc (.inl ⟨_, ‹_›, rfl⟩)
    · exact .finish hc (.inr ⟨‹_›, rfl⟩)
  | markDone =>
    simp only [workerStep] at h
    split at h <;> cases h
    · exact .markDone hc ‹_› ‹_›
    · exact .segmentEnds hc ‹_› ‹_›
  | acquire =>
    simp only [workerStep] at h
    split at h <;> try cases h
    have hacq := Option.some.inj h
    have := PoolStep.acquire (R := R) (w := w) hc ‹_› ‹_›
    rwa [hacq] at this

/-- Every step of the pool is one of the cases. -/
theorem PoolStep.of_eq {w w' : World} {run run' : PoolRun} {a : PoolAct}
    (h : poolStep R w run a = some (w', run')) : PoolStep R w run a w' run' := by
  cases a with
  | spawn ok =>
    simp only [poolStep] at h
    split_ifs at h with hs hok
    · cases h
      subst hok
      exact .spawn hs.1 hs.2
    · cases h
      rw [Bool.not_eq_true] at hok
      subst hok
      exact .spawnFails hs.1 hs.2
  | worker i a =>
    simp only [poolStep] at h
    split at h
    · cases h
    · exact .of_worker ‹_› h

/-- Without a rebalance pool, nothing is split. -/
theorem PoolStep.of_pool_none {w w' : World} {run run' : PoolRun} {a : PoolAct}
    (hst : PoolStep R w run a w' run') (hp : run.pool = none) :
    w'.d.chunks = w.d.chunks ∧ w'.disk.db = w.disk.db ∧ w'.d.id = w.d.id ∧ run'.pool = none := by
  cases hst with
  | acquire _ _ hp' =>
    rw [hp] at hp'
    cases hp'
  | markDone _ _ hp' =>
    rw [hp] at hp'
    cases hp'
  | data => exact ⟨rfl, rfl, rfl, by simp [PoolRun.modify, PoolRun.modifySlot, hp]⟩
  | _ => exact ⟨rfl, rfl, rfl, hp⟩

/-- The steps of a call, from a state whose log is empty. -/
inductive EngineStep (R : ℕ → UInt8) : EngineState → EngineAct → EngineState → Prop
  | call {w : World} {rc : Option ℤ} : EngineStep R ⟨w, .idle rc⟩ .call ⟨w, .entered⟩
  | check {w : World} : EngineStep R ⟨w, .entered⟩ .check (engineCheck w)
  | headFails {w : World} :
      EngineStep R ⟨w, .probing⟩ (.head none) ⟨w, .idle (some (-1))⟩
  | head {w : World} {info : FileInfo} :
      EngineStep R ⟨w, .probing⟩ (.head (some info)) ⟨w, .planning info⟩
  | plan {w w' : World} {pc : Pc} {info : FileInfo} {io : PlanIo} :
      planDownload w info io = (w', pc) →
      EngineStep R ⟨w, .planning info⟩ (.plan io) ⟨w', pc⟩
  | pool {w w' : World} {info : FileInfo} {n : ℕ} {run run' : PoolRun} {a : PoolAct} :
      PoolStep R w run a w' run' →
      EngineStep R ⟨w, .running info n run⟩ (.pool a) ⟨w', .running info n run'⟩
  | join {w : World} {info : FileInfo} {n : ℕ} {run : PoolRun} : run.Joinable →
      EngineStep R ⟨w, .running info n run⟩ .join
        ⟨w, .flushing info n run.allSucceeded⟩
  | flush {w : World} {info : FileInfo} {n : ℕ} {ok : Bool} :
      EngineStep R ⟨w, .flushing info n ok⟩ .flush
        ⟨flushProgress w, .deciding info n ok⟩
  | decide {w : World} {info : FileInfo} {n : ℕ} {ok runFails : Bool} :
      EngineStep R ⟨w, .deciding info n ok⟩ (.decide runFails)
        (engineDecide w info n ok runFails)
  | fallbackPool {w w' : World} {info : FileInfo} {run run' : PoolRun} {a : PoolAct} :
      PoolStep R w run a w' run' →
      EngineStep R ⟨w, .fallback info run⟩ (.pool a) ⟨w', .fallback info run'⟩
  | fallbackJoin {w : World} {info : FileInfo} {run : PoolRun} : run.Joinable →
      EngineStep R ⟨w, .fallback info run⟩ .join
        ⟨w, if run.allSucceeded then .finalizing info else .idle (some (-1))⟩
  | finalize {w : World} {info : FileInfo} {digestOk : Bool} :
      engineFinalize w info.totalSize.toNat digestOk = true →
      EngineStep R ⟨w, .finalizing info⟩ (.finalize digestOk) ⟨w, .idle (some 0)⟩
  | finalizeFails {w : World} {info : FileInfo} {digestOk : Bool} :
      engineFinalize w info.totalSize.toNat digestOk = false →
      EngineStep R ⟨w, .finalizing info⟩ (.finalize digestOk)
        ⟨clearResumeState w true, .idle (some (-2))⟩

/-- Every step of a call is one of the cases. -/
theorem EngineStep.of_eq {s s' : EngineState} {a : EngineAct}
    (h : engineStep R s a = some s') : EngineStep R ⟨s.w.fresh, s.pc⟩ a s' := by
  obtain ⟨w, pc⟩ := s
  simp only [engineStep] at h
  split at h
  · cases h; exact .call
  · cases h; exact .check
  · cases h; exact .headFails
  · cases h; exact .head
  · cases h; exact .plan rfl
  · obtain ⟨⟨w', run'⟩, hp, rfl⟩ := Option.map_eq_some_iff.1 h
    exact .pool (.of_eq hp)
  · split_ifs at h with hj
    cases h
    exact .join hj
  · cases h; exact .flush
  · cases h; exact .decide
  · obtain ⟨⟨w', run'⟩, hp, rfl⟩ := Option.map_eq_some_iff.1 h
    exact .fallbackPool (.of_eq hp)
  · split at h <;> cases h
    exact .fallbackJoin ‹_›
  · split_ifs at h with hf <;> cases h
    · exact .finalize hf
    · exact .finalizeFails (by simpa using hf)
  · cases h

end Cdm
