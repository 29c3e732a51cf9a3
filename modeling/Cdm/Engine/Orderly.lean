import Cdm.Engine.Splits

/-!
# Orderly runs of the pool

What holds in every run of the pool, given what the server may answer to a request
(`served`): no slot is orphaned, a worker that has not sent its request has received
nothing, and one that receives an answer has written all of it that has arrived.
-/

namespace Cdm

variable {R : ℕ → UInt8} {served : Range → Answer → Prop} {w w' : World} {run run' : PoolRun}

/-- The phase of a worker fits what it has written. -/
def PhaseFits (served : Range → Answer → Prop) (c : WorkerContext) : Prop :=
  match c.phase with
  | .created | .request => c.bytesDone = 0
  | .transfer a pos => pos = c.bytesDone ∧ served c.range a
  | _ => True

/-- The invariant of a run of the pool. -/
structure Orderly (served : Range → Answer → Prop) (run : PoolRun) : Prop where
  noOrphan : ∀ p ∈ run.pool, p.NoOrphan
  waiting : ∀ (i : ℕ) (c : WorkerContext), run.contexts[i]? = some c → run.spawned ≤ i →
    c.phase = .created
  phase : ∀ c ∈ run.contexts, PhaseFits served c

namespace Orderly

theorem position (h : Orderly served run) {i pos : ℕ} {c : WorkerContext} {a : Answer}
    (hc : run.contexts[i]? = some c) (hph : c.phase = .transfer a pos) :
    pos = c.bytesDone ∧ served c.range a := by
  have := h.phase c (List.mem_of_getElem? hc)
  rw [PhaseFits, hph] at this
  exact this

/-- A worker whose thread runs changes. -/
theorem modify (h : Orderly served run) {i : ℕ} {c : WorkerContext}
    {f : WorkerContext → WorkerContext} (hc : run.contexts[i]? = some c)
    (hph : c.phase ≠ .created) (hf : PhaseFits served (f c)) :
    Orderly served (run.modify i f) := by
  refine ⟨h.noOrphan, fun k c' hc' hk => ?_, List.forall_mem_modify h.phase fun c' hc' => ?_⟩
  · rcases List.getElem?_modify_eq_some.1 hc' with ⟨rfl, -⟩ | ⟨-, hc'⟩
    · exact absurd (h.waiting k c hc hk) hph
    · exact h.waiting k c' hc' hk
  · rw [hc] at hc'
    cases hc'
    exact hf

/-- The pool of the run changes, without orphans. -/
theorem withPool (h : Orderly served run) (q : Option RebalancePool) (ps : ℕ → Option ℕ)
    (hq : ∀ p ∈ q, p.NoOrphan) : Orderly served { run with pool := q, progressSlots := ps } :=
  ⟨hq, h.waiting, h.phase⟩

theorem modifySlot (h : Orderly served run) (c : WorkerContext) {f : PoolSlot → PoolSlot}
    (hf : ∀ s, s.exhausted = true ∨ s.claimed = true →
      (f s).exhausted = true ∨ (f s).claimed = true) : Orderly served (run.modifySlot c f) := by
  refine h.withPool _ _ fun p hp => ?_
  obtain ⟨p₀, hp₀, rfl⟩ := Option.map_eq_some_iff.1 hp
  exact (h.noOrphan p₀ hp₀).modify hf

/-- The phase after a callback. -/
theorem phaseFits_delivered {c c' : WorkerContext} {a : Answer} {pos n ret : ℕ}
    (hpos : pos = c.bytesDone ∧ served c.range a) (hph : c'.phase = delivered a pos n ret)
    (hrange : c'.range = c.range) (hbytes : c'.bytesDone = c.bytesDone + ret) :
    PhaseFits served c' := by
  rw [delivered] at hph
  split_ifs at hph with hn
  · rw [PhaseFits, hph]
    exact ⟨by omega, hrange ▸ hpos.2⟩
  · rw [PhaseFits, hph]
    trivial

theorem step {a : PoolAct} (h : Orderly served run) (hst : PoolStep R w run a w' run')
    (hserved : ∀ i x c, a = .worker i (.answer x) → run.contexts[i]? = some c →
      served c.range x) : Orderly served run' := by
  cases hst with
  | spawn hb hlt =>
    refine ⟨h.noOrphan, fun i c hc hi => ?_, List.forall_mem_modify h.phase fun c hc => ?_⟩
    · rcases List.getElem?_modify_eq_some.1 hc with ⟨rfl, -⟩ | ⟨-, hc⟩
      · exact absurd hi (by simp [PoolRun.setPhase, PoolRun.modify])
      · exact h.waiting i c hc (Nat.le_of_succ_le hi)
    · -- The context that is started was waiting.
      have := h.phase c (List.mem_of_getElem? hc)
      rw [PhaseFits, h.waiting _ c hc le_rfl] at this
      exact this
  | spawnFails => exact ⟨h.noOrphan, h.waiting, h.phase⟩
  | initFails hc hph => exact h.modify hc (by simp [hph]) trivial
  | answer hc hph =>
    have hfits := h.phase _ (List.mem_of_getElem? hc)
    rw [PhaseFits, hph] at hfits
    have hsv := hserved _ _ _ rfl hc
    exact h.modify hc (by simp [hph]) ⟨hfits.symm, hsv⟩
  | dataStopped hc hph =>
    exact h.modify hc (by simp [hph]) (phaseFits_delivered (h.position hc hph) rfl rfl rfl)
  | dataFails hc hph =>
    exact h.modify hc (by simp [hph]) (phaseFits_delivered (h.position hc hph) rfl rfl rfl)
  | data hc hph =>
    refine (h.modifySlot _ ?_).modify hc (by simp [hph])
      (phaseFits_delivered (h.position hc hph) rfl rfl rfl)
    exact fun _ h => h
  | finish hc hph =>
    refine h.modify hc ?_ ?_
    · rcases hph with ⟨pos, hph, -⟩ | ⟨hph, -⟩ <;> simp [hph]
    · split_ifs <;> trivial
  | markDone hc hph hp =>
    refine (h.withPool _ run.progressSlots fun p' hp' => ?_).modify hc (by simp [hph]) trivial
    cases hp'
    exact (h.noOrphan _ hp).modify fun _ _ => .inl rfl
  | segmentEnds hc hph => exact h.modify hc (by simp [hph]) trivial
  | @acquire i c p hc hph hp =>
    generalize hacq : rebalancePoolAcquire w run p i = x
    obtain ⟨w', run'⟩ := x
    -- No slot is an orphan, so that a worker gets nothing or what is split off.
    cases Acquired.of_eq (h.noOrphan p hp) hacq with
    | nothing => exact h.modify hc (by simp [hph]) trivial
    | split =>
      refine (h.withPool _ _ fun p' hp' => ?_).modify hc (by simp [hph]) rfl
      cases hp'
      exact (h.noOrphan p hp).split _ _ _

end Orderly

theorem orderly_planned (served : Range → Answer → Prop) (rs : List (ℕ × Range)) (b : Bool) :
    Orderly served (plannedRun rs b) := by
  refine ⟨fun p hp => ?_, fun i c hc _ => ?_, fun c hc => ?_⟩
  · simp only [plannedRun] at hp
    split_ifs at hp
    · cases hp
      exact RebalancePool.noOrphan_create _ _
    · cases hp
  · simp only [plannedRun, List.getElem?_mapIdx, Option.map_eq_some_iff] at hc
    obtain ⟨x, -, rfl⟩ := hc
    rfl
  · obtain ⟨i, hi⟩ := List.mem_iff_getElem?.1 hc
    simp only [plannedRun, List.getElem?_mapIdx, Option.map_eq_some_iff] at hi
    obtain ⟨x, -, rfl⟩ := hi
    rfl

theorem orderly_singleRun (served : Range → Answer → Prop) : Orderly served singleRun := by
  refine ⟨fun p hp => (by cases hp), fun i c hc _ => ?_, fun c hc => ?_⟩
  · rw [singleRun, List.getElem?_singleton] at hc
    split_ifs at hc
    cases hc
    rfl
  · cases List.mem_singleton.1 hc
    rfl

/-- The run of the pool, if one goes on, is orderly, and the single connection has no
    rebalance pool. -/
def SoundPc : Pc → Prop
  | .running _ _ run => Orderly (fun _ _ => True) run
  | .fallback _ run => Orderly (fun _ _ => True) run ∧ run.pool = none
  | _ => True

theorem soundPc_plan {info : FileInfo} {io : PlanIo} {pc : Pc}
    (hst : PlanStep w info io w' pc) : SoundPc pc := by
  cases hst with
  | resume => exact orderly_planned _ _ _
  | start => exact orderly_planned _ _ _
  | _ => trivial

/-- Every call keeps its run of the pool orderly. -/
theorem SoundPc.engine {s s' : EngineState} {a : EngineAct} (h : SoundPc s.pc)
    (hst : EngineStep R s a s') : SoundPc s'.pc := by
  cases hst with
  | check =>
    simp only [engineCheck]
    split_ifs <;> trivial
  | plan hplan => exact soundPc_plan (.of_eq hplan)
  | pool hpool => exact Orderly.step h hpool fun _ _ _ _ _ => trivial
  | decide =>
    simp only [engineDecide]
    split_ifs
    · trivial
    · trivial
    · exact ⟨orderly_singleRun _, rfl⟩
    · trivial
  | fallbackPool hpool =>
    exact ⟨Orderly.step h.1 hpool fun _ _ _ _ _ => trivial, (hpool.of_pool_none h.2).2.2.2⟩
  | fallbackJoin =>
    simp only
    split_ifs <;> trivial
  | _ => trivial

end Cdm
