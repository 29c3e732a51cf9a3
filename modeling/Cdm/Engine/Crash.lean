import Cdm.Engine.Effects

/-!
# Crashes

The process may stop between any two effects of a step: the disk is then the one before
the step, changed by a prefix of its log (`crashDisk`). A fresh plan is stored by one
insertion per range, and a split by an update of the victim's row and an insertion, each
durable by itself: a crash in between leaves chunk rows that miss a part of the file
(`exists_uncovered`). The next start of the daemon takes them for the whole plan.

At every other point of a session in which no split finds the chunk table full, the
chunk rows of the download are empty, or cover the file (`rowsCover_of_settled`).
-/

namespace Cdm.Crash

variable {R : ℕ → UInt8} {info : FileInfo} {n id : ℕ}

/-- The disk after a crash in the step from `s` to `s'`, after `k` of its effects. -/
def crashDisk (s s' : EngineState) (k : ℕ) : Disk := s.w.disk.applyAll (s'.w.log.take k)

/-- The size of the resource is known, and does not change. (There is no restart before
    the crash.) -/
def sized (info : FileInfo) : SessionAct → Bool
  | .engine (.head (some i)) => i = info
  | .restore => false
  | _ => true

/-- After `k` of the effects, the chunk rows are not in the middle of a change: none of
    them was changed, or none is left to insert. -/
def settled (log : List Effect) (k : ℕ) : Bool :=
  (log.take k).all (!·.recasts) || (log.drop k).all (!·.inserts)

/-! ## Effects that keep the ranges -/

theorem rowsCover_map {rows : List ChunkRow} {f : ChunkRow → ChunkRow} (h : RowsCover n rows)
    (hf : ∀ r, (f r).rangeStart = r.rangeStart ∧ (f r).rangeEnd = r.rangeEnd) :
    RowsCover n (rows.map f) := by
  rcases h with rfl | h
  · exact .inl rfl
  · refine .inr fun x hx => ?_
    obtain ⟨r, hr, h₁, h₂⟩ := h x hx
    exact ⟨f r, List.mem_map_of_mem hr, by rw [(hf r).1]; exact h₁, by rw [(hf r).2]; exact h₂⟩

/-- An effect that is not a change of the ranges keeps the file covered. -/
theorem rowsCover_apply {k : Disk} {e : Effect} (h : RowsCover n (k.db.chunksOf id))
    (hown : e.Own id) (hcalm : e.recasts = false) :
    RowsCover n ((k.apply e).db.chunksOf id) := by
  cases e with
  | stmt q =>
    cases q with
    | updateTotalSize => exact h
    | updateChunkProgress i rs b =>
      cases hown
      rw [Disk.apply, Db.chunksOf_updateChunkProgress]
      refine rowsCover_map h fun r => ?_
      split_ifs <;> exact ⟨rfl, rfl⟩
    | deleteChunks i =>
      cases hown
      exact .inl Db.chunksOf_deleteChunks
    | insertChunk => cases hcalm
    | updateChunkRange => cases hcalm
    | insertDownload => cases hown
    | updateStatus => cases hown
  | _ => exact h

theorem rowsCover_applyAll {k : Disk} {es : List Effect} (h : RowsCover n (k.db.chunksOf id))
    (hown : ∀ e ∈ es, e.Own id) (hcalm : Calm es) :
    RowsCover n ((k.applyAll es).db.chunksOf id) := by
  induction es generalizing k with
  | nil => exact h
  | cons e es ih =>
    exact ih (rowsCover_apply h (hown e List.mem_cons_self) (hcalm e List.mem_cons_self))
      (fun e he => hown e (List.mem_cons_of_mem _ he))
      fun e he => hcalm e (List.mem_cons_of_mem _ he)

/-- At a settled point of tidy effects, no range was changed yet, or all are done. -/
theorem Tidy.settled {es : List Effect} {k : ℕ} (h : Tidy es) (hk : settled es k = true) :
    Calm (es.take k) ∨ es.length ≤ k := by
  obtain ⟨l, l', rfl, hl, hl'⟩ := h
  by_cases hkl : k ≤ l.length
  · left
    rw [List.take_append_of_le_length hkl]
    exact fun e he => hl e (List.mem_of_mem_take he)
  rcases hl' with rfl | ⟨l'', e, rfl, he⟩
  · left
    rw [List.append_nil]
    exact fun e he => hl e (List.mem_of_mem_take he)
  simp only [Crash.settled, Bool.or_eq_true, List.all_eq_true, Bool.not_eq_true'] at hk
  rcases hk with hk | hk
  · exact .inl hk
  · right
    by_contra hlt
    -- The insertion at the end is left.
    have hmem : e ∈ (l ++ (l'' ++ [e])).drop k := by
      rw [← List.append_assoc] at hlt ⊢
      rw [List.length_append, List.length_singleton] at hlt
      rw [List.drop_append_of_le_length (by omega)]
      exact List.mem_append_right _ (List.mem_singleton.2 rfl)
    rw [hk e hmem] at he
    cases he

/-! ## The sessions -/

theorem sized_ne_restore {a : SessionAct} (h : sized info a = true) : a ≠ .restore := by
  rintro rfl
  cases h

theorem layoutInv_step {s s' : EngineState} {a : SessionAct} (hT : 0 < info.totalSize.toNat)
    (h : LayoutInv info s.w s.pc) (ha : sized info a = true) (hroom : roomForSplit s a = true)
    (hst : sessionStep R s a = some s') : LayoutInv info s'.w s'.pc := by
  refine h.step hT hst (fun i hi => ?_) hroom (sized_ne_restore ha)
  subst hi
  simpa [sized] using ha

theorem layoutInv {s : EngineState} (hT : 0 < info.totalSize.toNat)
    (hs : SessionReachable R (fun s a => sized info a = true ∧ roomForSplit s a = true) s) :
    LayoutInv info s.w s.pc ∧ SoundPc s.pc := by
  refine hs.invariant (I := fun s => LayoutInv info s.w s.pc ∧ SoundPc s.pc)
    (fun s h => ⟨.of_fresh h, ?_⟩)
    fun s a s' h ok hst => ⟨layoutInv_step hT h.1 ok.1 ok.2 hst, h.2.session hst⟩
  rw [h.idle]
  trivial

/-- At every settled point of a session in which every split finds room in the chunk
    table, the chunk rows of the download are empty or cover the file. -/
theorem rowsCover_of_settled (hT : 0 < info.totalSize.toNat) {s s' : EngineState} {a : SessionAct}
    (hs : SessionReachable R (fun s a => sized info a = true ∧ roomForSplit s a = true) s)
    (ha : sized info a = true ∧ roomForSplit s a = true) (hst : sessionStep R s a = some s')
    {k : ℕ} (hk : settled s'.w.log k = true) :
    RowsCover info.totalSize.toNat ((crashDisk s s' k).db.chunksOf s.w.d.id) := by
  obtain ⟨hlayout, hsound⟩ := layoutInv hT hs
  obtain ⟨hdisk, hid, hown, htidy⟩ := sessionStep_log hsound hst (sized_ne_restore ha.1)
  rcases Tidy.settled (htidy ha.2) hk with hcalm | hle
  · exact rowsCover_applyAll hlayout.rowsCover (fun e he => hown e (List.mem_of_mem_take he)) hcalm
  · have hafter := (layoutInv_step hT hlayout ha.1 ha.2 hst).rowsCover
    rw [crashDisk, List.take_of_length_le hle, ← hdisk, ← hid]
    exact hafter

/-- A call on a resource of a mebibyte, up to the plan, of four ranges. -/
def probeActs : List EngineAct := [.call, .check, .head (some ⟨1048576, true⟩)]

/-- The plan, which the system has nothing against. -/
def planAct : SessionAct := .engine (.plan ⟨⟨false, false⟩, false, false⟩)

/-- The fresh plan, stopped after its last insertion. -/
theorem rowsCover_of_settled_plan :
    ∃ s s', SessionReachable (fun _ => 1)
        (fun s a => sized ⟨1048576, true⟩ a = true ∧ roomForSplit s a = true) s ∧
      sessionStep (fun _ => 1) s planAct = some s' ∧ settled s'.w.log 7 = true ∧
      RowsCover 1048576 ((crashDisk s s' 7).db.chunksOf s.w.d.id) := by
  obtain ⟨s, hs, s', hst, hk⟩ := SessionReachable.of_exec (fun _ => 1)
    (fun s a => sized ⟨1048576, true⟩ a = true ∧ roomForSplit s a = true)
    (fun s => ∃ s' ∈ sessionStep (fun _ => 1) s planAct, settled s'.w.log 7 = true)
    (probeActs.map .engine) (by decide +kernel)
  exact ⟨s, s', hs, hst, hk, rowsCover_of_settled (by decide) hs ⟨rfl, rfl⟩ hst hk⟩

/-- The fresh plan, stopped after the first of its four insertions. -/
theorem exists_uncovered :
    ∃ s s', SessionReachable (fun _ => 1) (fun _ a => sized ⟨1048576, true⟩ a = true) s ∧
      sessionStep (fun _ => 1) s planAct = some s' ∧
      ¬RowsCover 1048576 ((crashDisk s s' 4).db.chunksOf s.w.d.id) := by
  obtain ⟨s, hs, s', hst, hne, hend⟩ := SessionReachable.of_exec (fun _ => 1)
    (fun _ a => sized ⟨1048576, true⟩ a = true)
    (fun s => ∃ s' ∈ sessionStep (fun _ => 1) s planAct,
      (crashDisk s s' 4).db.chunksOf s.w.d.id ≠ [] ∧
        ∀ r ∈ (crashDisk s s' 4).db.chunksOf s.w.d.id, r.rangeEnd < 1048575)
    (probeActs.map .engine) (by decide +kernel)
  refine ⟨s, s', hs, hst, fun hcover => ?_⟩
  obtain ⟨r, hr, -, h₂⟩ := (hcover.resolve_left hne) 1048575 (by decide)
  have := hend r hr
  omega

end Cdm.Crash
