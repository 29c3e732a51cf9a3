import Cdm.Engine.Session

/-!
# Whole files of unknown length

Two requests for the whole file are made without knowing its length: that of a download of
unknown size, and the single connection tried after a parallel failure. Their range is a
placeholder, from the first byte to the first byte. Once the server has answered `200` and
delivered the whole body (`transfer`), the bytes written are compared with the length of that
range.

`wholeRequest_iff`: the segment succeeds, and the call goes on to verify the file, exactly if
the body has one byte.
-/

namespace Cdm

variable {R : ℕ → UInt8} {w : World} {info : FileInfo} {a : Answer} {ns : List (ℕ × ℕ)}

/-- Where the request is made: on the only range of a plan, or after a parallel failure. -/
inductive Site
  | planned
  | fallback

def Site.pc (site : Site) (info : FileInfo) (run : PoolRun) : Pc :=
  match site with
  | .planned => .running info 1 run
  | .fallback => .fallback info run

/-- A run of the pool with one worker, for the placeholder range, and without a pool. -/
def placeholderRun (slots : ℕ → Option ℕ) (counter : Option ℕ) (k spawned : ℕ) (ph : Phase) :
    PoolRun where
  pool := none
  progressSlots := slots
  contexts := [⟨⟨0, 0, 0, true⟩, k, counter, 0, false, ph⟩]
  spawned := spawned
  broken := false

/-- The pool is about to run on the whole file, of unknown length. -/
inductive WholeRequest (info : FileInfo) : Pc → Prop
  | planned (poolFails : Bool) : info.totalSize = 0 →
      WholeRequest info
        (.running info 1 (plannedRun ((freshRanges info).mapIdx fun i r => (i, r)) poolFails))
  | fallback : WholeRequest info (.fallback info singleRun)

theorem wholeRequest_eq {pc : Pc} (h : WholeRequest info pc) :
    ∃ (site : Site) (slots : ℕ → Option ℕ) (counter : Option ℕ),
      pc = site.pc info (placeholderRun slots counter 0 0 .created) := by
  cases h with
  | planned poolFails hsize =>
    have hranges : freshRanges info = [⟨0, 0, 0, true⟩] := by
      simp [freshRanges, hsize]
    refine ⟨.planned, fun i => ([(0, (⟨0, 0, 0, true⟩ : Range))][i]?).map (·.1), some 0, ?_⟩
    rw [hranges]
    cases poolFails <;> rfl
  | fallback => exact ⟨.fallback, fun _ => none, none, rfl⟩

/-! ## The transfer -/

/-- The steps of a call. -/
abbrev callExec (R : ℕ → UInt8) : EngineState → List EngineAct → Option EngineState :=
  Run.exec (engineStep R) fun _ _ => True

/-- The request is sent and answered, the body arrives in pieces, each with what the system
    writes of it, and the transfer ends without an error. -/
def transfer (a : Answer) (ns : List (ℕ × ℕ)) : List EngineAct :=
  .pool (.spawn true) :: .pool (.worker 0 (.answer a)) ::
    ns.map (fun x => .pool (.worker 0 (.data x.1 x.2))) ++ [.pool (.worker 0 (.finish true))]

variable {slots : ℕ → Option ℕ} {counter : Option ℕ} {site : Site} {k n wrote : ℕ}

theorem engineStep_pool {run : PoolRun} {act : PoolAct} :
    engineStep R ⟨w, site.pc info run⟩ (.pool act) =
      (poolStep R w.fresh run act).map fun x => ⟨x.1, site.pc info x.2⟩ := by
  cases site <;> rfl

/-- A piece of the body is written. -/
theorem step_data (R : ℕ → UInt8) (info : FileInfo) (slots : ℕ → Option ℕ) (counter : Option ℕ)
    (site : Site) (hgo : userStopped w = false) (hle : k + n ≤ a.len) (hwrote : n ≤ wrote) :
    ∃ w', userStopped w' = false ∧
      engineStep R ⟨w, site.pc info (placeholderRun slots counter k 1 (.transfer a k))⟩
          (.pool (.worker 0 (.data n wrote))) =
        some ⟨w', site.pc info (placeholderRun slots counter (k + n) 1 (.transfer a (k + n)))⟩ := by
  have hgo' : (w.fresh.d.cancelRequested || w.fresh.d.pauseRequested) = false := hgo
  let c : WorkerContext := ⟨⟨0, 0, 0, true⟩, k, counter, 0, false, .transfer a k⟩
  refine ⟨(w.fresh.emit (.pwrite c.current (received R c a k n))).count counter n,
    by simpa [userStopped, World.count] using hgo, ?_⟩
  rw [engineStep_pool]
  simp only [poolStep, placeholderRun, List.getElem?_cons_zero, workerStep, if_pos hle,
    workerWriteCallback, hgo', Bool.false_eq_true, if_false, PoolRun.writable, PoolRun.limit,
    PoolRun.cuts, if_neg (not_lt.2 hwrote), delivered, PoolRun.modifySlot, PoolRun.modify,
    Option.map_some, Option.map_none, if_true, Bool.or_false, List.modify_zero_cons]
  rfl

/-- The pieces of the body arrive. -/
theorem exec_data (R : ℕ → UInt8) (info : FileInfo) (slots : ℕ → Option ℕ) (counter : Option ℕ)
    (site : Site) (hgo : userStopped w = false) (hle : k + (ns.map (·.1)).sum ≤ a.len)
    (hwrote : ∀ x ∈ ns, x.1 ≤ x.2) :
    ∃ w', userStopped w' = false ∧ ∀ acts,
      callExec R ⟨w, site.pc info (placeholderRun slots counter k 1 (.transfer a k))⟩
          (ns.map (fun x => .pool (.worker 0 (.data x.1 x.2))) ++ acts) =
        callExec R ⟨w', site.pc info (placeholderRun slots counter (k + (ns.map (·.1)).sum) 1
          (.transfer a (k + (ns.map (·.1)).sum)))⟩ acts := by
  induction ns generalizing w k with
  | nil => exact ⟨w, hgo, fun acts => rfl⟩
  | cons x ns ih =>
    rw [List.map_cons, List.sum_cons] at hle
    obtain ⟨w₁, hgo₁, hstep⟩ := step_data R info slots counter site hgo (by omega : k + x.1 ≤ a.len) (hwrote x List.mem_cons_self)
    obtain ⟨w', hgo', hrest⟩ := ih (k := k + x.1) hgo₁ (by omega)
      fun y hy => hwrote y (List.mem_cons_of_mem _ hy)
    refine ⟨w', hgo', fun acts => ?_⟩
    rw [List.map_cons, List.cons_append, callExec, Run.exec, if_pos trivial, hstep, Option.bind_some,
      List.map_cons, List.sum_cons, ← Nat.add_assoc]
    exact hrest acts

/-- The judgement of the whole body: its length is compared with that of the placeholder. -/
theorem step_finish (hstatus : a.status = 200) :
    engineStep R ⟨w, site.pc info (placeholderRun slots counter k 1 (.transfer a k))⟩
        (.pool (.worker 0 (.finish true))) =
      some ⟨w.fresh, site.pc info (placeholderRun slots counter k 1
        (if k = 1 then .segmentDone else .ended false))⟩ := by
  rw [engineStep_pool]
  have hok : segmentOk (placeholderRun slots counter k 1 (.transfer a k))
      ⟨⟨0, 0, 0, true⟩, k, counter, 0, false, .transfer a k⟩ a.status true = decide (k = 1) := by
    simp [segmentOk, hstatus, expectedBytes, PoolRun.limit, placeholderRun, Range.offset]
  have hstep : poolStep R w.fresh (placeholderRun slots counter k 1 (.transfer a k))
      (.worker 0 (.finish true)) =
    some (w.fresh, (placeholderRun slots counter k 1 (.transfer a k)).setPhase 0
      (if segmentOk (placeholderRun slots counter k 1 (.transfer a k))
        ⟨⟨0, 0, 0, true⟩, k, counter, 0, false, .transfer a k⟩ a.status true then .segmentDone
        else .ended false)) := rfl
  rw [hstep, hok]
  by_cases hk : k = 1 <;> simp [hk, PoolRun.setPhase, PoolRun.modify, placeholderRun]

theorem exec_transfer (R : ℕ → UInt8) (info : FileInfo) (slots : ℕ → Option ℕ)
    (counter : Option ℕ) (site : Site) (hgo : userStopped w = false) (hstatus : a.status = 200)
    (hsum : (ns.map (·.1)).sum = a.len) (hwrote : ∀ x ∈ ns, x.1 ≤ x.2) :
    ∃ w', userStopped w' = false ∧
      callExec R ⟨w, site.pc info (placeholderRun slots counter 0 0 .created)⟩ (transfer a ns) =
        some ⟨w', site.pc info (placeholderRun slots counter a.len 1
          (if a.len = 1 then .segmentDone else .ended false))⟩ := by
  have hspawn : engineStep R ⟨w, site.pc info (placeholderRun slots counter 0 0 .created)⟩
      (.pool (.spawn true)) =
      some ⟨w.fresh, site.pc info (placeholderRun slots counter 0 1 .request)⟩ := by
    rw [engineStep_pool]
    rfl
  have hanswer : engineStep R ⟨w.fresh, site.pc info (placeholderRun slots counter 0 1 .request)⟩
      (.pool (.worker 0 (.answer a))) =
      some ⟨w.fresh, site.pc info (placeholderRun slots counter 0 1 (.transfer a 0))⟩ := by
    rw [engineStep_pool]
    rfl
  obtain ⟨w', hgo', hdata⟩ := exec_data R info slots counter site (w := w.fresh) (a := a) (k := 0) hgo
    (by omega) hwrote
  rw [Nat.zero_add, hsum] at hdata
  refine ⟨w'.fresh, hgo', ?_⟩
  rw [transfer, List.cons_append, List.cons_append, callExec, Run.exec, if_pos trivial, hspawn,
    Option.bind_some, Run.exec, if_pos trivial, hanswer, Option.bind_some]
  refine (hdata _).trans ?_
  rw [callExec, Run.exec, if_pos trivial, step_finish hstatus]
  rfl

/-! ## The rest of the call -/

/-- The file is to be verified, or the call has returned. -/
def Pc.concluded : Pc → Bool
  | .idle _ | .finalizing _ => true
  | _ => false

/-- Where the call may get to. -/
inductive Concludes (R : ℕ → UInt8) : EngineState → Pc → Prop
  | here {s : EngineState} : s.pc.concluded = true → Concludes R s s.pc
  | step {s s' : EngineState} {pc : Pc} (act : EngineAct) : s.pc.concluded = false →
      engineStep R s act = some s' → Concludes R s' pc → Concludes R s pc

/-- The first segment of the run of the pool was judged a success. -/
def SegmentSucceeded (s : EngineState) : Prop :=
  ∃ run c, s.poolRun = some run ∧ run.contexts[0]? = some c ∧ c.phase = .segmentDone

/-- The segment succeeds, and the call goes on to verify the file. -/
def Accepted (R : ℕ → UInt8) (info : FileInfo) (s : EngineState) : Prop :=
  SegmentSucceeded s ∧ (∃ pc, Concludes R s pc) ∧ ∀ pc, Concludes R s pc → pc = .finalizing info

/-- All that a worker can do when its segment has succeeded is to end. -/
theorem poolStep_done {act : PoolAct} {x : World × PoolRun}
    (h : poolStep R w (placeholderRun slots counter k 1 .segmentDone) act = some x) :
    x = (w, placeholderRun slots counter k 1 (.ended true)) := by
  cases act with
  | spawn ok => simp [poolStep, placeholderRun] at h
  | worker i act =>
    cases i with
    | zero =>
      cases act <;> simp only [poolStep, placeholderRun, List.getElem?_cons_zero, workerStep,
        reduceCtorEq, Option.some.injEq] at h
      exact h.symm
    | succ i => simp [poolStep, placeholderRun] at h

theorem poolStep_ended {b : Bool} {act : PoolAct} :
    poolStep R w (placeholderRun slots counter k 1 (.ended b)) act = none := by
  cases act with
  | spawn ok => simp [poolStep, placeholderRun]
  | worker i act =>
    cases i with
    | zero => cases act <;> rfl
    | succ i => rfl

theorem engineStep_done {act : EngineAct} {s : EngineState}
    (h : engineStep R ⟨w, site.pc info (placeholderRun slots counter k 1 .segmentDone)⟩ act = some s) :
    s = ⟨w.fresh, site.pc info (placeholderRun slots counter k 1 (.ended true))⟩ := by
  have hjoin : ¬(placeholderRun slots counter k 1 .segmentDone).Joinable := by
    simp [PoolRun.Joinable, placeholderRun]
  cases act with
  | pool act =>
    rw [engineStep_pool] at h
    obtain ⟨x, hx, rfl⟩ := Option.map_eq_some_iff.1 h
    rw [poolStep_done hx]
  | join => cases site <;> simp [engineStep, Site.pc, hjoin] at h
  | _ => cases site <;> cases h

/-- Where a call gets to when its only worker has ended. -/
def verdict (info : FileInfo) (ok : Bool) : Pc := if ok then .finalizing info else .idle (some (-1))

/-- Every step from a state where the call is not over leads to states it only gets to `pc` from. -/
theorem Concludes.eq_of_step {s : EngineState} {pc pc' : Pc} (h : Concludes R s pc')
    (hs : s.pc.concluded = false)
    (hstep : ∀ act s', engineStep R s act = some s' → Concludes R s' pc' → pc' = pc) : pc' = pc := by
  cases h with
  | here hpc =>
    rw [hs] at hpc
    cases hpc
  | step act _ hact h => exact hstep act _ hact h

theorem Concludes.eq_of_concluded {s : EngineState} {pc : Pc} (h : Concludes R s pc)
    (hs : s.pc.concluded = true) : pc = s.pc := by
  cases h with
  | here => rfl
  | step _ hpc =>
    rw [hs] at hpc
    cases hpc

theorem concluded_verdict (ok : Bool) : (verdict info ok).concluded = true := by
  cases ok <;> rfl

theorem concludes_deciding {ok : Bool} {pc : Pc} (h : Concludes R ⟨w, .deciding info 1 ok⟩ pc) :
    pc = verdict info ok := by
  refine h.eq_of_step rfl fun act s hact h => ?_
  have hpc : s.pc = verdict info ok := by
    cases act with
    | decide runFails =>
      cases hact
      cases ok <;> rfl
    | _ => cases hact
  rw [h.eq_of_concluded (hpc ▸ concluded_verdict ok), hpc]

theorem concludes_flushing {ok : Bool} {pc : Pc} (h : Concludes R ⟨w, .flushing info 1 ok⟩ pc) :
    pc = verdict info ok := by
  refine h.eq_of_step rfl fun act s hact h => ?_
  cases act with
  | flush =>
    cases hact
    exact concludes_deciding h
  | _ => cases hact

theorem joinable_ended (slots : ℕ → Option ℕ) (counter : Option ℕ) (k : ℕ) (b : Bool) :
    (placeholderRun slots counter k 1 (.ended b)).Joinable ∧
      (placeholderRun slots counter k 1 (.ended b)).allSucceeded = b := by
  cases b <;> simp [PoolRun.Joinable, PoolRun.allSucceeded, placeholderRun]

theorem step_join {ok : Bool} :
    engineStep R ⟨w, site.pc info (placeholderRun slots counter k 1 (.ended ok))⟩ .join =
      some ⟨w.fresh, match site with
        | .planned => .flushing info 1 ok
        | .fallback => verdict info ok⟩ := by
  obtain ⟨hjoin, hall⟩ := joinable_ended slots counter k ok
  cases site with
  | planned => simp only [engineStep, Site.pc, if_pos hjoin, hall]
  | fallback => simp only [engineStep, Site.pc, if_pos hjoin, hall, verdict]

theorem concludes_ended {ok : Bool} {pc : Pc}
    (h : Concludes R ⟨w, site.pc info (placeholderRun slots counter k 1 (.ended ok))⟩ pc) :
    pc = verdict info ok := by
  refine h.eq_of_step (by cases site <;> rfl) fun act s hact h => ?_
  cases act with
  | pool act =>
    rw [engineStep_pool, poolStep_ended] at hact
    cases hact
  | join =>
    rw [step_join] at hact
    cases hact
    cases site with
    | planned => exact concludes_flushing h
    | fallback => exact h.eq_of_concluded (concluded_verdict ok)
  | _ => cases site <;> cases hact

theorem exists_concludes (R : ℕ → UInt8) (w : World) (info : FileInfo) (slots : ℕ → Option ℕ)
    (counter : Option ℕ) (site : Site) (k : ℕ) (ok : Bool) :
    ∃ pc, Concludes R ⟨w, site.pc info (placeholderRun slots counter k 1 (.ended ok))⟩ pc := by
  have hverdict (w : World) : ∃ pc, Concludes R ⟨w, verdict info ok⟩ pc :=
    ⟨_, .here (concluded_verdict ok)⟩
  cases site with
  | planned =>
    have hdecide : (engineDecide (flushProgress w.fresh.fresh).fresh info 1 ok false).pc =
        verdict info ok := by
      cases ok <;> rfl
    refine ⟨verdict info ok, .step .join rfl step_join (.step .flush rfl rfl
      (.step (.decide false) rfl rfl ?_))⟩
    exact hdecide ▸ .here (hdecide ▸ concluded_verdict ok)
  | fallback =>
    obtain ⟨pc, hpc⟩ := hverdict w.fresh
    exact ⟨pc, .step .join rfl step_join hpc⟩

/-! ## The length of the body -/

/-- How the call goes on when the segment was judged. -/
theorem accepted_iff {n : ℕ} :
    Accepted R info ⟨w, site.pc info (placeholderRun slots counter n 1
      (if n = 1 then .segmentDone else .ended false))⟩ ↔ n = 1 := by
  by_cases hn : n = 1
  · subst hn
    refine ⟨fun _ => rfl, fun _ => ⟨?_, ?_, fun pc h => ?_⟩⟩
    · exact ⟨placeholderRun slots counter 1 1 .segmentDone, _, by cases site <;> rfl, rfl, rfl⟩
    · have hmark : engineStep R ⟨w, site.pc info (placeholderRun slots counter 1 1 .segmentDone)⟩
          (.pool (.worker 0 .markDone)) =
          some ⟨w.fresh, site.pc info (placeholderRun slots counter 1 1 (.ended true))⟩ := by
        rw [engineStep_pool]
        rfl
      obtain ⟨pc, hpc⟩ := exists_concludes R w.fresh info slots counter site 1 true
      exact ⟨pc, .step _ (by cases site <;> rfl) hmark hpc⟩
    · refine h.eq_of_step (by cases site <;> rfl) fun act s hact h => ?_
      rw [engineStep_done hact] at h
      exact concludes_ended h
  · rw [if_neg hn]
    refine ⟨fun h => ?_, fun h => absurd h hn⟩
    -- The worker has failed, so that the segment was not judged a success.
    obtain ⟨run, c, hrun, hc, hdone⟩ := h.1
    have hrun' : run = placeholderRun slots counter n 1 (.ended false) := by
      cases site <;> exact (Option.some.inj hrun).symm
    subst hrun'
    cases hc
    cases hdone

/-- A body of unknown length is taken for complete if and only if it has one byte. -/
theorem wholeRequest_iff {s : EngineState} (hs : WholeRequest info s.pc)
    (hgo : userStopped s.w = false) (hstatus : a.status = 200)
    (hsum : (ns.map (·.1)).sum = a.len) (hwrote : ∀ x ∈ ns, x.1 ≤ x.2) :
    ∃ s', callExec R s (transfer a ns) = some s' ∧ (Accepted R info s' ↔ a.len = 1) := by
  obtain ⟨w, pc⟩ := s
  obtain ⟨site, slots, counter, rfl⟩ := wholeRequest_eq hs
  obtain ⟨w', -, hexec⟩ := exec_transfer R info slots counter site hgo hstatus hsum hwrote
  exact ⟨_, hexec, accepted_iff⟩

/-- A download of unknown size, planned. -/
def unknownSize : List EngineAct :=
  [.call, .check, .head (some ⟨0, false⟩), .plan ⟨⟨false, false⟩, false, false⟩]

/-- A body of one byte, after a parallel failure. -/
theorem wholeRequest_iff_single :
    ∃ s', callExec (fun _ => 7) ⟨(freshState 1 "http://h/f".toList "/d/f".toList).w,
        .fallback ⟨1, true⟩ singleRun⟩ (transfer (.ok 1) [(1, 1)]) = some s' ∧
      (Accepted (fun _ => 7) ⟨1, true⟩ s' ↔ (Answer.ok 1).len = 1) :=
  wholeRequest_iff .fallback rfl rfl rfl (by decide)

/-- Three bytes of unknown size are received, and the call fails. -/
theorem exists_not_accepted :
    ∃ s s', callExec (fun _ => 7) (freshState 1 "http://h/f".toList "/d/f".toList) unknownSize =
        some s ∧
      WholeRequest ⟨0, false⟩ s.pc ∧ userStopped s.w = false ∧
      callExec (fun _ => 7) s (transfer (.ok 3) [(2, 2), (1, 1)]) = some s' ∧
      ¬Accepted (fun _ => 7) ⟨0, false⟩ s' ∧ Concludes (fun _ => 7) s' (.idle (some (-1))) := by
  refine ⟨_, _, rfl, .planned false rfl, rfl, rfl, ?_, ?_⟩
  · rintro ⟨⟨run, c, hrun, hc, hdone⟩, -⟩
    cases hrun
    cases hc
    cases hdone
  · exact .step .join rfl rfl (.step .flush rfl rfl (.step (.decide false) rfl rfl (.here rfl)))

end Cdm
