import Cdm.Daemon.Ownership

/-!
# A cancel that was acknowledged

The cancel of an active download sets a flag, and is acknowledged at once; it is up to
the worker of the download to heed the flag. The worker reads it once, after the engine
has returned. If no cancel comes after that, on a run that has not succeeded
(`unheardCancel`), a download whose cancel was acknowledged ends up canceled or done.
-/

namespace Cdm.Acknowledged

variable {R : CString → ℕ → UInt8} {s s' : Daemon} {a : Act} {id k : ℕ} {w : SchedulerWorker}

/-- A cancel of the download was acknowledged, and no resume received since. -/
def acknowledged (id : ℕ) : List Event → Bool
  | [] => false
  | .answered .cancel id' .ok :: h => id' = id || acknowledged id h
  | .received .resume id' :: h => id' ≠ id && acknowledged id h
  | _ :: h => acknowledged id h

/-- The worker has not read the cancel flag yet, or heeds it, or the download is done. -/
def heeds (w : SchedulerWorker) : Bool :=
  match w.pc with
  | .sampled rc canceled => rc = 0 || canceled
  | .settling o => o.status = .done || o.status = .canceled
  | _ => true

/-- A cancel is carried out on an active download, too late for its worker. -/
def unheardCancel (s : Daemon) : Act → Bool
  | .next =>
    match s.pc with
    | .handling (.located id _) =>
      s.store.isActive id && s.workers.any fun o => o.any fun w => w.downloadId = id && !heeds w
    | _ => false
  | _ => false

/-- The download is canceled, or will be, unless it is done. -/
def Heard (s : Daemon) (id : ℕ) : Prop :=
  ∃ d, s.store.control id = some d ∧ (d.status = .done ∨ d.status = .canceled ∨
    (d.status = .active ∧ d.cancelRequested = true ∧ s.pc ≠ .picked id ∧
      ∀ k w, s.worker k = some w → w.downloadId = id → heeds w = true))

structure Inv (s : Daemon) : Prop where
  owned : Ownership s
  handler : ∀ id ops, s.pc = .handling (.finishing .cancel id ops .ok) → Heard s id
  heard : ∀ id, acknowledged id s.history = true → Heard s id

theorem outcome_heeds {cfg : Config} {d : Download} {now : ℕ} {rc : ℤ} {canceled paused : Bool}
    (h : (rc = 0 || canceled) = true) :
    (outcome cfg d now rc canceled paused).status = .done ∨
      (outcome cfg d now rc canceled paused).status = .canceled := by
  rcases outcome_cases cfg d now rc canceled paused with
    ⟨-, ho⟩ | ⟨-, -, ho⟩ | ⟨hrc, hcanceled, -⟩
  · exact .inl (by rw [ho]; rfl)
  · exact .inr (by rw [ho]; rfl)
  · simp [hrc, hcanceled] at h

theorem heeds_thread {cfg : Config} {st st' : Store} {d : Download} {pc pc' : ThreadPc}
    {a : ThreadAct} (hd : d.cancelRequested = true) (hw : heeds ⟨id, pc⟩ = true)
    (hst : ThreadStep R cfg st d pc a st' pc') : heeds ⟨id, pc'⟩ = true := by
  cases hst with
  | loadCancel => simp [heeds, hd]
  | loadPause => simpa [heeds] using outcome_heeds hw
  | settle => exact hw
  | _ => rfl

/-- The workers of an active download that is to be canceled go on to heed the flag. -/
theorem heeds_step (hst : Daemon.Step R s a s') {d : Download}
    (hd : s.store.control id = some d) (hcancel : d.cancelRequested = true)
    (hpicked : s.pc ≠ .picked id)
    (hheeds : ∀ k w, s.worker k = some w → w.downloadId = id → heeds w = true)
    (hw : s'.worker k = some w) (hid : w.downloadId = id) : heeds w = true := by
  cases hst with
  | @thread k₁ w₁ d₁ a₁ st pc hw₁ hd₁ hth =>
    rw [Daemon.worker_set (Daemon.lt_of_worker hw₁) rfl] at hw
    split_ifs at hw
    · cases hw
      have hcontrol := Store.control_of_get hd₁
      rw [hid, hd] at hcontrol
      cases hcontrol
      have hc : d₁.cancelRequested = true := hcancel
      exact heeds_thread hc (hheeds _ _ hw₁ hid) hth
    · exact hheeds k w hw hid
  | tick => exact hheeds k w (Daemon.worker_reap rfl hw) hid
  | pick => exact hheeds k w (Daemon.worker_reap rfl hw) hid
  | start hpc hk =>
    rw [Daemon.worker_set (Daemon.lt_of_free hk) rfl] at hw
    split_ifs at hw
    · cases hw
      exact absurd (hid ▸ hpc) hpicked
    · exact hheeds k w hw hid
  | _ => exact hheeds k w hw hid

theorem Heard.step (h : Ownership s) (hst : Daemon.Step R s a s') (hheard : Heard s id) :
    Heard s' id := by
  obtain ⟨d, hd, hdone | hcanceled | ⟨hact, hcancel, hpicked, hheeds⟩⟩ := hheard
  · obtain ⟨d', hd', -, hs' | ⟨-, -, hs'⟩⟩ := h.ended hst hd (.inl hdone)
    · exact ⟨d', hd', .inl (hs'.trans hdone)⟩
    · exact ⟨d', hd', .inr (.inl hs')⟩
  · obtain ⟨d', hd', -, hs' | ⟨-, -, hs'⟩⟩ := h.ended hst hd (.inr hcanceled)
    · exact ⟨d', hd', .inr (.inl (hs'.trans hcanceled))⟩
    · exact ⟨d', hd', .inr (.inl hs')⟩
  · obtain ⟨d', hd', hmove⟩ := hst.moves h.sound h.ids hd
    have hpicked' : s'.pc ≠ .picked id := fun hpc =>
      hpicked (h.picked_of_step hst (Store.isActive_iff.2 ⟨d, hd, hact⟩) hpc)
    have hgoes (hs' : d'.status = .active) (hc' : d'.cancelRequested = true) : Heard s' id :=
      ⟨d', hd', .inr (.inr ⟨hs', hc', hpicked', fun k w hw hid =>
        heeds_step hst hd hcancel hpicked hheeds hw hid⟩)⟩
    cases hmove with
    | keeps => exact hgoes hact hcancel
    | raised => exact hgoes hact rfl
    | published hw hid hpc =>
      have := hheeds _ _ hw hid
      simp only [heeds, hpc, Bool.or_eq_true, decide_eq_true_eq] at this
      rcases this with hdone | hcanceled
      · exact ⟨_, hd', .inl hdone⟩
      · exact ⟨_, hd', .inr (.inl hcanceled)⟩
    | paused => exact hgoes (by simp [Download.pause, hact]) (by simp [Download.pause, hact, hcancel])
    | resumed =>
      exact hgoes (by simp [Download.resume, hact]) (by simp [Download.resume, hact, hcancel])
    | canceled => exact hgoes (by simp [Download.cancel, hact]) (by simp [Download.cancel, hact])
    | picked => exact hgoes rfl hcancel
    | unpicked hpc => exact absurd hpc hpicked

/-- Carried out in time, a cancel is heard. -/
theorem heard_cancel {path : CString} {pc : DaemonPc} (hsome : (s.store.get id).isSome)
    (hpc : s.pc = .handling (.located id path)) (hok : unheardCancel s .next = false)
    (hpc' : pc ≠ .picked id) :
    Heard { s with store := s.store.fresh.modify id Download.cancel, pc := pc } id := by
  obtain ⟨d₀, hd₀⟩ := Option.isSome_iff_exists.1 hsome
  have hd : s.store.fresh.control id = some d₀.control := Store.control_of_get hd₀
  by_cases hact : s.store.isActive id = true
  · obtain ⟨d, hd₁, hs⟩ := Store.isActive_iff.1 hact
    have hd₁' : s.store.fresh.control id = some d := hd₁
    refine ⟨d.cancel, ?_, .inr (.inr ⟨by simp [Download.cancel, hs], by simp [Download.cancel, hs],
      hpc', fun k w hw hid => ?_⟩)⟩
    · rw [Store.control_modify Download.control_cancel Download.cancel_id, if_pos rfl, hd₁']
      rfl
    · -- The workers of the download have been looked at.
      simp only [unheardCancel, hpc, hact, Bool.true_and, List.any_eq_false] at hok
      simpa [hid] using hok (some w) (Daemon.mem_of_worker hw)
  · exact ⟨_, Store.control_cancel hd hact, .inr (.inl rfl)⟩

theorem acknowledged_received {c : Command} {id' : ℕ} {h : List Event}
    (hack : acknowledged id (.received c id' :: h) = true) : acknowledged id h = true := by
  cases c with
  | resume =>
    rw [acknowledged, Bool.and_eq_true] at hack
    exact hack.2
  | _ => exact hack

theorem acknowledged_answered {c : Command} {id' : ℕ} {answer : IpcResult} {h : List Event}
    (hack : acknowledged id (.answered c id' answer :: h) = true) :
    (c = .cancel ∧ id' = id ∧ answer = .ok) ∨ acknowledged id h = true := by
  unfold acknowledged at hack
  split at hack
  · cases ‹_ = []›
  · rename_i heq
    cases heq
    rw [Bool.or_eq_true, decide_eq_true_eq] at hack
    rcases hack with hid | hack
    · exact .inl ⟨rfl, hid, rfl⟩
    · exact .inr hack
  · rename_i heq
    cases heq
  · rename_i heq
    cases heq
    exact .inr hack

theorem Inv.step (h : Inv s) (hok : unheardCancel s a = false) (hst : Daemon.Step R s a s') :
    Inv s' := by
  have hkeep {id : ℕ} (hheard : Heard s id) : Heard s' id := hheard.step h.owned hst
  refine ⟨h.owned.step hst, fun id ops hpc => ?_, fun id hack => ?_⟩
  · cases hst with
    | thread => exact hkeep (h.handler id ops hpc)
    | @request c id' hidle =>
      rcases commandCheck_cases s.store.fresh c id' with ⟨hcheck, -⟩ | ⟨answer, hcheck, hne⟩ <;>
        rw [hcheck] at hpc <;> cases hpc
      exact absurd rfl hne
    | finish hfin =>
      cases hpc
      exact hkeep (h.handler _ _ hfin)
    | resume => split_ifs at hpc <;> cases hpc
    | cancel hlocated =>
      cases hpc
      exact heard_cancel (h.owned.found _ (.inr ⟨_, hlocated⟩)) hlocated hok (by simp)
    | _ => cases hpc
  · cases hst with
    | request => exact hkeep (h.heard id (acknowledged_received hack))
    | answer hpc =>
      rcases acknowledged_answered hack with ⟨rfl, rfl, rfl⟩ | hack
      · exact hkeep (h.handler _ _ hpc)
      · exact hkeep (h.heard id hack)
    | _ => exact hkeep (h.heard id hack)

theorem Inv.of_atRest (h : AtRest s) : Inv s := by
  refine ⟨h.ownership, fun id ops hpc => ?_, fun id hack => ?_⟩
  · rw [h.pc] at hpc
    cases hpc
  · rw [h.history] at hack
    cases hack

/-! ## Runs -/

/-- The daemons that start at rest, and in which every cancel is carried out in time. -/
abbrev Reached (R : CString → ℕ → UInt8) : Daemon → Prop :=
  Run.Reachable (Daemon.step R) AtRest fun s a => unheardCancel s a = false

/-- A download whose cancel was acknowledged, and that was not resumed since, is never
    paused, and has not failed. -/
theorem ended_of_acknowledged (hs : Reached R s) (hack : acknowledged id s.history = true) :
    queueManagerGetStatus s.store id ≠ some .paused ∧
      queueManagerGetStatus s.store id ≠ some .error := by
  have hinv : Inv s :=
    hs.invariant (fun _ => Inv.of_atRest) fun _ _ _ h hok hst => h.step hok (.of_eq hst)
  obtain ⟨d, hd, hstatus⟩ := hinv.heard id hack
  rw [Store.getStatus_eq, hd]
  rcases hstatus with hs | hs | ⟨hs, -⟩ <;> simp [hs]

/-- The download is paused and canceled while its engine runs. -/
theorem ended_of_acknowledged_paused :
    ∃ s, Reached (fun _ _ => 1) s ∧ acknowledged 1 s.history = true ∧
      (s.workers.all fun o => o.all SchedulerWorker.isDone) = true ∧
      queueManagerGetStatus s.store 1 ≠ some .paused ∧
      queueManagerGetStatus s.store 1 ≠ some .error := by
  obtain ⟨s, hs, hack, hended⟩ := reachable_of_exec (fun _ _ => 1)
    (fun s a => unheardCancel s a = false)
    (fun s => acknowledged 1 s.history = true ∧
      (s.workers.all fun o => o.all SchedulerWorker.isDone) = true)
    atRest_oneDownload
    (runActs failureActs ++ [.request .pause 1, .next, .next, .request .cancel 1, .next, .next, .next] ++
      sampleActs ++ List.replicate 8 (.thread 0 .next)) (by decide +kernel)
  exact ⟨s, hs, hack, hended, ended_of_acknowledged hs hack⟩

/-- The worker of a download to be paused finds that it is not canceled; the cancel is
    acknowledged; then the worker publishes that the download is paused, and ends. -/
theorem exists_cancel_lost :
    ∃ s, Run.Reachable (Daemon.step fun _ _ => 1) AtRest (fun _ _ => True) s ∧
      acknowledged 1 s.history = true ∧
      (s.workers.all fun o => o.all SchedulerWorker.isDone) = true ∧
      queueManagerGetStatus s.store 1 = some .paused :=
  reachable_of_exec (fun _ _ => 1) (fun _ _ => True)
    (fun s => acknowledged 1 s.history = true ∧
      (s.workers.all fun o => o.all SchedulerWorker.isDone) = true ∧
      queueManagerGetStatus s.store 1 = some .paused)
    atRest_oneDownload
    (runActs failureActs ++ [.request .pause 1, .next, .next, .thread 0 .loadCancel] ++
      [.request .cancel 1, .next, .next, .next, .thread 0 (.loadPause 0)] ++
      List.replicate 4 (.thread 0 .next)) (by decide +kernel)

end Cdm.Acknowledged
