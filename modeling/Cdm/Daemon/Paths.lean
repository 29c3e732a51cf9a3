import Cdm.Daemon.Treats

/-!
# Whose file is unlinked

A destination is chosen where no file exists. But a download keeps its destination when its
file is gone: after a cancel, or when the engine has discarded a file it could not resume or
verify. Then another download may be given the same path (`clash`). As long as that does not
happen, and no download is canceled again after its path was given to another one, downloads
that are not canceled have destinations of their own, and nobody unlinks the file of another
download.
-/

namespace Cdm.Paths

variable {R : CString → ℕ → UInt8} {s s' : Daemon} {id : ℕ} {d : Download}

/-- The download is still to be completed, or is. -/
def isLive : DownloadStatus → Bool
  | .queued | .active | .paused | .done => true
  | .error | .canceled => false

/-- The path chosen for a download to be added is that of one that is not canceled, or a
    canceled download, whose path was given to another one since, is canceled again. -/
def clash (s : Daemon) : Duty → Bool
  | .upkeep u =>
    (s.requested u).any fun dest => (chosenPath s.store dest).any fun p =>
      s.store.queue.any fun d => d.destPath = p && d.status ≠ .canceled
  | .task (.request .cancel id) =>
    (s.store.get id).any fun d => d.status = .canceled &&
      s.store.queue.any fun d' => d'.id ≠ id && d'.destPath = d.destPath && isLive d'.status
  | _ => false

/-- The daemon is not restarted. -/
def stays : Duty → Bool
  | .upkeep (.restart _) => false
  | _ => true

/-- The download `id` is the one a request or a completion is about, or one that the request
    adds. -/
def concerns (s : Daemon) (id : ℕ) : Duty → Prop
  | .task t => s.subject t = some id
  | .upkeep _ => s.store.nextId ≤ id

structure Inv (s : Daemon) : Prop where
  managed : Managed s
  distinct : ∀ id id' d d', s.store.get id = some d → s.store.get id' = some d' →
    d.status ≠ .canceled → d'.status ≠ .canceled → d.destPath = d'.destPath → id = id'

theorem ne_canceled_of_isLive {status : DownloadStatus} (h : isLive status = true) :
    status ≠ .canceled := by
  rintro rfl
  cases h

/-- A download that is not canceled after a task was not before, and had the same path. -/
theorem of_treats {s t : Store} (ht : Treats s t id) (hd : t.get id = some d)
    (hs : d.status ≠ .canceled) :
    ∃ d₀, s.get id = some d₀ ∧ d₀.status ≠ .canceled ∧ d₀.destPath = d.destPath := by
  cases ht with
  | kept hsame => exact ⟨d, hsame.get ▸ hd, hs, rfl⟩
  | worked hd₀ hd' hpath hs₀ =>
    rw [hd'] at hd
    cases hd
    exact ⟨_, hd₀, hs₀, hpath.symm⟩
  | discarded _ hd' _ hs' =>
    rw [hd'] at hd
    cases hd
    exact absurd hs' hs

/-- The path chosen belongs to no download but to canceled ones. -/
theorem free_of_not_clash {u : Upkeep} {dest p : CString} (h : clash s (.upkeep u) = false)
    (hu : s.requested u = some dest) (hp : chosenPath s.store dest = some p)
    (hd : s.store.get id = some d) (hs : d.status ≠ .canceled) : d.destPath ≠ p := by
  intro hpath
  simp only [clash, hu, hp, Option.any_some, List.any_eq_false, Bool.and_eq_true,
    decide_eq_true_eq, not_and] at h
  exact h d (Store.mem_of_get hd) hpath hs

theorem Inv.attend {a : Duty} (h : Inv s) (hstay : stays a = true) (hok : clash s a = false)
    (hst : s.attend R a = some s') : Inv s' := by
  cases a with
  | task t =>
    -- A task gives no paths.
    have ht := Daemon.treats h.managed hst
    refine ⟨h.managed.perform hst, fun id id' d d' hd hd' hs hs' hpath => ?_⟩
    obtain ⟨d₀, hd₀, hs₀, hp₀⟩ := of_treats (ht id) hd hs
    obtain ⟨d₁, hd₁, hs₁, hp₁⟩ := of_treats (ht id') hd' hs'
    exact h.distinct id id' d₀ d₁ hd₀ hd₁ hs₀ hs₁ (hp₀.trans (hpath.trans hp₁.symm))
  | upkeep u =>
    have hu := Daemon.Upkept.of_eq h.managed.numbered.positive hst
    have hm := h.managed.upkept hu
    cases hu with
    | @added _ url dest opts st new _ hu _ hid hres =>
      obtain ⟨path, hpath, -, -, -, hqueue, -, -⟩ := hres.added hid
      have hfree {id : ℕ} {d : Download} (hd : s.store.get id = some d)
          (hs : d.status ≠ .canceled) : d.destPath ≠ path :=
        free_of_not_clash hok hu hpath hd hs
      -- The entry that was added, or one that was there.
      have hget {id : ℕ} {d : Download} (hd : st.get id = some d) :
          (id = new ∧ d.destPath = path) ∨ s.store.get id = some d := by
        rw [Store.get_of_cons hqueue] at hd
        split_ifs at hd with hnew
        · cases hd
          exact .inl ⟨hnew.symm, rfl⟩
        · exact .inr hd
      refine ⟨hm, fun id id' d d' hd hd' hs hs' hpp => ?_⟩
      rcases hget hd with ⟨hid, hp⟩ | hold <;> rcases hget hd' with ⟨hid', hp'⟩ | hold'
      · exact hid.trans hid'.symm
      · exact absurd (hpp.symm.trans hp) (hfree hold' hs')
      · exact absurd (hpp.trans hp') (hfree hold hs)
      · exact h.distinct id id' d d' hold hold' hs hs' hpp
    | refused _ _ hres =>
      obtain ⟨hqueue, -, -⟩ := hres.refused rfl
      refine ⟨hm, fun id id' d d' hd hd' => h.distinct id id' d d' ?_ ?_⟩
      · rw [Store.get, hqueue] at hd
        exact hd
      · rw [Store.get, hqueue] at hd'
        exact hd'
    | settled => exact ⟨hm, h.distinct⟩
    | stopping => exact ⟨hm, h.distinct⟩
    | restarted => cases hstay

theorem Inv.of_firstStart (h : FirstStart s) : Inv s := by
  refine ⟨.of_firstStart h, fun id _ d _ hd => ?_⟩
  rw [h.get] at hd
  cases hd

/-- Whatever is unlinked, no other download that is to be completed, or is, has that path. -/
theorem Inv.unlinked {a : Duty} {p : CString} (h : Inv s) (hstay : stays a = true)
    (hok : clash s a = false) (hst : s.attend R a = some s') (hp : p ∈ s'.store.unlinked)
    (hd : s'.store.get id = some d) (hs : isLive d.status = true) (hpath : d.destPath = p) :
    concerns s id a := by
  have hne := ne_canceled_of_isLive hs
  cases a with
  | task t =>
    have ht := Daemon.treats h.managed hst
    obtain ⟨id₀, d₀, hsub, hd₀, hp₀, hcase⟩ := Daemon.unlinked_perform h.managed hst hp
    by_contra hother
    have hid : id ≠ id₀ := fun heq => hother (heq ▸ hsub)
    by_cases hc : d₀.status = .canceled
    · -- A canceled download is canceled again: it has no path in common with another one.
      obtain rfl := hcase.resolve_left (not_not_intro hc)
      have hsame : s'.store.get id = s.store.get id := by
        cases hpc : s.pc with
        | idle =>
          have hst' : s.perform R (.request .cancel id₀) = some s' := hst
          simp only [Daemon.perform, hpc, Option.some.injEq] at hst'
          subst hst'
          exact (SameAt.handleCommand hid).get
        | _ => simp [Daemon.attend, Daemon.perform, hpc] at hst
      rw [hsame] at hd
      simp only [clash, hd₀, Option.any_some, Bool.and_eq_false_iff, List.any_eq_false,
        decide_eq_false_iff_not, Bool.and_eq_true, decide_eq_true_eq, not_and] at hok
      rcases hok with hok | hok
      · exact hok hc
      · refine hok d (Store.mem_of_get hd) ⟨?_, hpath.trans hp₀.symm⟩ hs
        rw [Store.get_id hd]
        exact hid
    · -- Neither is canceled, so that they have one path only if they are one.
      obtain ⟨d₁, hd₁, hs₁, hp₁⟩ := of_treats (ht id) hd hne
      exact hid (h.distinct id id₀ d₁ d₀ hd₁ hd₀ hs₁ hc (hp₁.trans (hpath.trans hp₀.symm)))
  | upkeep u =>
    have hu := Daemon.Upkept.of_eq h.managed.numbered.positive hst
    have hnil : p ∉ s.store.fresh.unlinked := List.not_mem_nil
    cases hu with
    | @added _ url dest opts st new _ hu _ hid hres =>
      obtain ⟨path, hchosen, -, hle, -, hqueue, -, -⟩ := hres.added hid
      rcases hres.unlinked p hp with hp | hp
      · exact absurd hp hnil
      · rw [Store.get_of_cons hqueue] at hd
        split_ifs at hd with hnew
        · -- The download just added is the one that is concerned.
          exact (show s.store.nextId ≤ new from hle).trans_eq hnew
        · exact absurd hpath (free_of_not_clash hok hu hp hd hne)
    | refused hu _ hres =>
      obtain ⟨hqueue, -, -⟩ := hres.refused rfl
      rcases hres.unlinked p hp with hp | hp
      · exact absurd hp hnil
      · rw [Store.get, hqueue] at hd
        exact absurd hpath (free_of_not_clash hok hu hp hd hne)
    | settled => exact absurd hp hnil
    | stopping => exact absurd hp hnil
    | restarted => cases hstay

/-! ## Runs -/

/-- The daemons in service, never restarted, in which no path is given twice. -/
abbrev Reached (R : CString → ℕ → UInt8) : Daemon → Prop :=
  Run.Reachable (Daemon.attend R) FirstStart fun s a => stays a = true ∧ clash s a = false

/-- Downloads that are to be completed have destinations of their own, and no request or
    completion unlinks the destination of a download it is not about. -/
theorem own_path_of_not_clash (hs : Reached R s) :
    (∀ id id' d d', s.store.get id = some d → s.store.get id' = some d' →
      d.status ∈ [.queued, .active, .paused] → d'.status ∈ [.queued, .active, .paused] →
      d.destPath = d'.destPath → id = id') ∧
    ∀ a s', stays a = true → clash s a = false → s.attend R a = some s' →
      ∀ p ∈ s'.store.unlinked, ∀ id d, s'.store.get id = some d → isLive d.status = true →
        d.destPath = p → concerns s id a := by
  have hinv : Inv s :=
    hs.invariant (fun _ => Inv.of_firstStart) fun _ _ _ h hok hst => h.attend hok.1 hok.2 hst
  refine ⟨fun id id' d d' hd hd' hs hs' => hinv.distinct id id' d d' hd hd' ?_ ?_, ?_⟩
  · rintro hc
    rw [hc] at hs
    exact absurd hs (by decide)
  · rintro hc
    rw [hc] at hs'
    exact absurd hs' (by decide)
  · exact fun a s' hstay hok hst p hp id d hd hlive hpath =>
      hinv.unlinked hstay hok hst hp hd hlive hpath

/-- A download is added, and canceled: its own file is unlinked. -/
theorem own_path_of_not_clash_cancel :
    ∃ s s', Reached (fun _ _ => 1) s ∧
      s.attend (fun _ _ => 1) (.task (.request .cancel 1)) = some s' ∧
      "/d/f".toList ∈ s'.store.unlinked ∧
      ∀ p ∈ s'.store.unlinked, ∀ id d, s'.store.get id = some d → isLive d.status = true →
        d.destPath = p → concerns s id (.task (.request .cancel 1)) := by
  obtain ⟨s, hs, hok, s', hst, hp⟩ := reachable_of_attend (fun _ _ => 1)
    (fun s a => stays a = true ∧ clash s a = false)
    (fun s => clash s (.task (.request .cancel 1)) = false ∧
      ∃ s' ∈ s.attend (fun _ _ => 1) (.task (.request .cancel 1)),
        "/d/f".toList ∈ s'.store.unlinked)
    [.upkeep (addFile "/d/f")] (by decide +kernel)
  exact ⟨s, s', hs, hst, hp, (own_path_of_not_clash hs).2 _ s' rfl hok hst⟩

/-- A download is canceled, its path given to another one, and canceled again: the file of the
    other download, which is queued, is unlinked. -/
theorem exists_other_unlinked :
    ∃ s s' d, Run.Reachable (Daemon.attend fun _ _ => 1) FirstStart (fun _ a => stays a = true) s ∧
      s.attend (fun _ _ => 1) (.task (.request .cancel 1)) = some s' ∧
      s'.store.get 2 = some d ∧ d.status = .queued ∧ d.destPath ∈ s'.store.unlinked := by
  obtain ⟨s, hs, s', hst, d, hd, hq, hp⟩ := reachable_of_attend (fun _ _ => 1)
    (fun _ a => stays a = true)
    (fun s => ∃ s' ∈ s.attend (fun _ _ => 1) (.task (.request .cancel 1)),
      ∃ d ∈ s'.store.get 2, d.status = .queued ∧ d.destPath ∈ s'.store.unlinked)
    [.upkeep (addFile "/d/f"), .task (.request .cancel 1), .upkeep (addFile "/d/f")]
    (by decide +kernel)
  exact ⟨s, s', d, hs, hst, hd, hq, hp⟩

end Cdm.Paths
