import Cdm.Platform.IpcSocket

/-!
# Whose file is removed

`reserve_download` once more, with the files that other programs create between its steps, and
with a record of who had created the files it unlinks. An attempt that fails removes its entry
from the queue, and `queue_manager_remove` unlinks what is at the path of the entry, whoever
has created it.

`removesOwn_iff`: the call unlinks only files it has created if, and only if, in its first
attempt no other program creates a file at the path chosen, before it is claimed or before the
entry of an attempt that fails is removed. A second attempt is made only after such a file was
unlinked. In any case, a call that returns `0` leaves neither a file of its own nor an entry
nor a row.
-/

namespace Cdm

/-- What happens during an attempt: what the system answers, and which files other programs
    create after each step. -/
structure Attempt where
  /-- The path cannot be looked at, and counts as taken. -/
  unreadable : CString → Bool
  add : AddIo
  /-- The path cannot be opened, other than because it exists. -/
  openFails : Bool
  /-- The row is inserted. -/
  inserted : Bool
  afterChoice : List (CString × File)
  afterAdd : List (CString × File)
  afterClaim : List (CString × File)
  afterInsert : List (CString × File)
  afterUnlink : List (CString × File)
  afterRemove : List (CString × File)

/-- The state of a call. -/
structure Reserving where
  store : Store
  /-- There is a file at the path, and the call has created it. -/
  own : CString → Bool
  /-- The files unlinked, each with whether the call had created it. -/
  removed : List (CString × Bool)

/-- The beginning of a call. -/
def Reserving.begin (s : Store) : Reserving := ⟨s, fun _ => false, []⟩

namespace Reserving

/-- Another program creates a file, unless there is one at the path. -/
def createOther (s : Store) (x : CString × File) : Store :=
  if (s.files x.1).isSome then s else intrude s x.1 (some x.2)

def others (s : Reserving) (l : List (CString × File)) : Reserving :=
  { s with store := l.foldl createOther s.store }

/-- The record of an unlink of a path. -/
def unlinked (s : Reserving) (path : CString) : List (CString × Bool) :=
  if (s.store.files path).isSome then [(path, s.own path)] else []

def unlink (s : Reserving) (path : CString) : Reserving where
  store := s.store.unlink path
  own := Function.update s.own path false
  removed := s.removed ++ s.unlinked path

/-- `queue_manager_remove`, which unlinks the path of the entry unless it is active. -/
def remove (s : Reserving) (id : ℕ) : Reserving :=
  match s.store.get id with
  | none => s
  | some d =>
    if d.status = .active ∨ d.destPath = [] then { s with store := queueManagerRemove s.store id }
    else { s.unlink d.destPath with store := queueManagerRemove s.store id }

/-- The path chosen in an attempt. -/
def chosen (s : Reserving) (dest : CString) (a : Attempt) : Option CString :=
  pathMakeUnique (fun p => (s.store.files p).isSome || a.unreadable p) dest ipcMaxPathLen

/-- What an attempt does once its entry is added. -/
def claim (url : CString) (opts : RequestOptions) (a : Attempt) (s : Reserving) (path : CString)
    (id : ℕ) : Reserving × ℕ × Bool :=
  match claimFile s.store path a.openFails with
  | (store, 0) =>
    let s := others
      { s with
        store := store.modify id fun d => { d with reservedFile := true }
        own := Function.update s.own path true } a.afterClaim
    if a.inserted then
      ({ s with store := s.store.query (.insertDownload id url path opts true) }, id, false)
    else
      let s := ((s.others a.afterInsert).unlink path).others a.afterUnlink
      ((s.remove id).others a.afterRemove, 0, false)
  | (store, rc) =>
    let s := { s with store := store }.others a.afterClaim
    ((s.remove id).others a.afterRemove, 0, rc = -2)

/-- An attempt: the identifier, `0` if it fails, and whether another one is made. -/
def attempt (url dest : CString) (opts : RequestOptions) (s : Reserving) (a : Attempt) :
    Reserving × ℕ × Bool :=
  match s.chosen dest a with
  | none => (s, 0, false)
  | some path =>
    let s := s.others a.afterChoice
    match queueManagerAdd s.store url path opts a.add with
    | (_, 0) => (s, 0, false)
    | (store, id) => claim url opts a ({ s with store := store }.others a.afterAdd) path id

/-- `reserve_download`: attempts are made while the path chosen is taken by another program
    before it is claimed. -/
def reserve (url dest : CString) (opts : RequestOptions) :
    (attempts : ℕ) → Reserving → (ℕ → Attempt) → Reserving × ℕ
  | 0, s, _ => (s, 0)
  | attempts + 1, s, env =>
    match attempt url dest opts s (env attempts) with
    | (s, _, true) => reserve url dest opts attempts s env
    | (s, id, false) => (s, id)

/-- The paths at which files are created. -/
def paths (l : List (CString × File)) : List CString := l.map (·.1)

/-- No other program creates a file at the path chosen, once the entry is added, before the path
    is claimed, and before the entry is removed if the attempt fails. -/
structure Undisturbed (s : Reserving) (dest : CString) (a : Attempt) : Prop where
  claim : ∀ path ∈ s.chosen dest a, isSafeDestPath path a.add.inRoot = true →
    a.add.noMemory = false → path ∉ paths a.afterChoice ∧ path ∉ paths a.afterAdd
  openFails : ∀ path ∈ s.chosen dest a, isSafeDestPath path a.add.inRoot = true →
    a.add.noMemory = false → a.openFails = true → path ∉ paths a.afterClaim
  insertFails : ∀ path ∈ s.chosen dest a, isSafeDestPath path a.add.inRoot = true →
    a.add.noMemory = false → a.openFails = false → a.inserted = false → path ∉ paths a.afterUnlink

variable {s : Reserving} {l : List (CString × File)} {path : CString}

/-! ## Other programs -/

theorem createOther_files (s : Store) (x : CString × File) (p : CString) :
    (createOther s x).files p =
      if p = x.1 ∧ s.files p = none then some x.2 else s.files p := by
  rw [createOther]
  by_cases hp : p = x.1
  · subst hp
    cases hfile : s.files x.1 <;> simp [intrude, hfile]
  · split_ifs <;> simp_all [intrude]

theorem createOther_eq (s : Store) (x : CString × File) :
    createOther s x = { s with files := (createOther s x).files } := by
  rw [createOther]
  split_ifs <;> rfl

/-- Other programs change the files only. -/
theorem others_store (s : Reserving) (l : List (CString × File)) :
    (s.others l).store = { s.store with files := (s.others l).store.files } := by
  induction l generalizing s with
  | nil => rfl
  | cons x l ih =>
    have hcons : (s.others (x :: l)).store = (others { s with store := createOther s.store x } l).store := rfl
    rw [hcons, ih, createOther_eq s.store x]

@[simp] theorem others_queue (s : Reserving) (l : List (CString × File)) :
    (s.others l).store.queue = s.store.queue := by rw [others_store]

@[simp] theorem others_db (s : Reserving) (l : List (CString × File)) :
    (s.others l).store.db = s.store.db := by rw [others_store]

@[simp] theorem others_nextId (s : Reserving) (l : List (CString × File)) :
    (s.others l).store.nextId = s.store.nextId := by rw [others_store]

@[simp] theorem others_own (s : Reserving) (l : List (CString × File)) :
    (s.others l).own = s.own := rfl

@[simp] theorem others_removed (s : Reserving) (l : List (CString × File)) :
    (s.others l).removed = s.removed := rfl

/-- A path is taken after other programs have created files if it was before, or they have
    created one there. -/
theorem isSome_others (s : Reserving) (l : List (CString × File)) (p : CString) :
    ((s.others l).store.files p).isSome ↔ (s.store.files p).isSome ∨ p ∈ paths l := by
  induction l generalizing s with
  | nil => simp [others, paths]
  | cons x l ih =>
    have hcons : (s.others (x :: l)).store = (others { s with store := createOther s.store x } l).store := rfl
    have hpaths : paths (x :: l) = x.1 :: paths l := rfl
    rw [hcons, ih, createOther_files, hpaths, List.mem_cons, ← or_assoc]
    refine or_congr_left ?_
    by_cases hp : p = x.1
    · subst hp
      cases s.store.files x.1 <;> simp
    · simp [hp]

/-! ## An attempt -/

/-- Removing an entry at the head of the queue, of which nothing is left. -/
theorem remove_head {t : Reserving} {d : Download} {q : List Download}
    (hqueue : t.store.queue = d :: q) (hs : d.status = .queued) (hne : d.destPath ≠ []) :
    (t.remove d.id).store.queue = q ∧ (t.remove d.id).store.db = t.store.db ∧
      (t.remove d.id).store.nextId = t.store.nextId ∧
      (t.remove d.id).own = Function.update t.own d.destPath false ∧
      (t.remove d.id).removed = t.removed ++ t.unlinked d.destPath := by
  have hget : t.store.get d.id = some d := by
    rw [Store.get, hqueue]
    simp
  have hremove : queueManagerRemove t.store d.id =
      { t.store with queue := q }.unlink d.destPath := by
    rw [queueManagerRemove, hget]
    simp [hs, hne, hqueue]
  have hopen : ¬(d.status = .active ∨ d.destPath = []) := by simp [hs, hne]
  simp only [remove, hget, if_neg hopen, hremove]
  exact ⟨rfl, rfl, rfl, rfl, rfl⟩

/-- What an attempt does: if it fails, nothing is left of it, and the files it unlinks are those
    the call has created, unless another program has created one at the path chosen. -/
structure Attempted (dest : CString) (s : Reserving) (a : Attempt) (s' : Reserving) (id : ℕ)
    (again : Bool) : Prop where
  nextId : s.store.nextId ≤ s'.store.nextId
  undone : id = 0 → s'.store.queue = s.store.queue ∧ s'.store.db = s.store.db ∧
    ∀ p, s'.own p = false
  removed : ∃ l, s'.removed = s.removed ++ l ∧
    ((∀ x ∈ l, x.2 = true) ↔ s.Undisturbed dest a)
  again : again = true → id = 0 ∧ ¬s.Undisturbed dest a

variable {url dest : CString} {opts : RequestOptions} {a : Attempt} {s' t : Reserving} {id : ℕ}
  {again : Bool}

/-- The path chosen is free. -/
theorem chosen_free (h : s.chosen dest a = some path) : s.store.files path = none := by
  have hfree := pathMakeUnique_spec h
  rw [Bool.or_eq_false_iff, ← Bool.not_eq_true, Option.not_isSome_iff_eq_none] at hfree
  exact hfree.1

/-- An attempt that ends before it has added an entry. -/
theorem attempted_refused (hown : ∀ p, s.own p = false)
    (hrefused : ∀ path ∈ s.chosen dest a, isSafeDestPath path a.add.inRoot = true →
      a.add.noMemory = true) (l : List (CString × File)) :
    Attempted dest s a (s.others l) 0 false where
  nextId := (others_nextId s l).ge
  undone _ := ⟨others_queue s l, others_db s l, hown⟩
  removed := by
    have hcontra {path : CString} (hpath : path ∈ s.chosen dest a)
        (hsafe : isSafeDestPath path a.add.inRoot = true) (hmemory : a.add.noMemory = false) :
        False := by
      rw [hrefused path hpath hsafe] at hmemory
      cases hmemory
    exact ⟨[], (List.append_nil _).symm, fun _ =>
      ⟨fun _ h₁ h₂ h₃ => (hcontra h₁ h₂ h₃).elim, fun _ h₁ h₂ h₃ => (hcontra h₁ h₂ h₃).elim,
        fun _ h₁ h₂ h₃ => (hcontra h₁ h₂ h₃).elim⟩, fun _ _ hx => absurd hx List.not_mem_nil⟩
  again := fun h => by cases h

/-- An attempt that fails once it has added the entry `d`: the state before its removal is `t`,
    in which `l` is what the attempt has unlinked. -/
theorem attempted_failed {d : Download} {l : List (CString × Bool)}
    (hqueue : t.store.queue = d :: s.store.queue)
    (hdb : t.store.db = s.store.db) (hnext : t.store.nextId = s.store.nextId + 1)
    (hs : d.status = .queued) (hne : d.destPath ≠ [])
    (hown : ∀ p, p ≠ d.destPath → t.own p = false) (hremoved : t.removed = s.removed ++ l)
    (hiff : (∀ x ∈ l ++ t.unlinked d.destPath, x.2 = true) ↔ s.Undisturbed dest a)
    (hagain : again = true → ¬s.Undisturbed dest a) :
    Attempted dest s a ((t.remove d.id).others a.afterRemove) 0 again := by
  obtain ⟨hq, hd, hn, ho, hr⟩ := remove_head hqueue hs hne
  refine ⟨?_, fun _ => ⟨?_, ?_, fun p => ?_⟩, ⟨l ++ t.unlinked d.destPath, ?_, hiff⟩,
    fun h => ⟨rfl, hagain h⟩⟩
  · rw [others_nextId, hn, hnext]
    exact Nat.le_succ _
  · rw [others_queue, hq]
  · rw [others_db, hd, hdb]
  · rw [others_own, ho]
    by_cases hp : p = d.destPath
    · rw [hp, Function.update_self]
    · rw [Function.update_of_ne hp, hown p hp]
  · rw [others_removed, hr, hremoved, List.append_assoc]

/-- The record of the unlink of a path that the call has not claimed. -/
theorem all_unlinked_iff (hown : s.own path = false) :
    (∀ x ∈ s.unlinked path, x.2 = true) ↔ s.store.files path = none := by
  rw [unlinked, hown]
  cases s.store.files path <;> simp

/-- The condition, once a path is chosen and its entry added. -/
theorem undisturbed_iff (hpath : s.chosen dest a = some path)
    (hsafe : isSafeDestPath path a.add.inRoot = true) (hmemory : a.add.noMemory = false) :
    s.Undisturbed dest a ↔ (path ∉ paths a.afterChoice ∧ path ∉ paths a.afterAdd) ∧
      (a.openFails = true → path ∉ paths a.afterClaim) ∧
      (a.openFails = false → a.inserted = false → path ∉ paths a.afterUnlink) := by
  refine ⟨fun h => ⟨h.claim path hpath hsafe hmemory, h.openFails path hpath hsafe hmemory,
    h.insertFails path hpath hsafe hmemory⟩, fun ⟨h₁, h₂, h₃⟩ => ⟨?_, ?_, ?_⟩⟩
  all_goals
    intro path' hpath' _ _
    obtain rfl : path = path' := Option.some.inj (hpath.symm.trans hpath')
    assumption

theorem attempted_of_claim {t : Reserving} {d : Download}
    (hpath : s.chosen dest a = some path)
    (hsafe : isSafeDestPath path a.add.inRoot = true) (hmemory : a.add.noMemory = false)
    (h0 : 0 < d.id) (hqueue : t.store.queue = d :: s.store.queue) (hdb : t.store.db = s.store.db)
    (hnext : t.store.nextId = s.store.nextId + 1) (hs : d.status = .queued)
    (hdest : d.destPath = path) (hne : path ≠ []) (hown : ∀ p, t.own p = false)
    (hremoved : t.removed = s.removed)
    (hfile : (t.store.files path).isSome ↔ path ∈ paths a.afterChoice ∨ path ∈ paths a.afterAdd)
    (h : claim url opts a t path d.id = (s', id, again)) : Attempted dest s a s' id again := by
  have hiff := undisturbed_iff hpath hsafe hmemory
  subst hdest
  rw [claim, claimFile] at h
  by_cases htaken : (t.store.files d.destPath).isSome = true
  · -- Another program was faster.
    have hdisturbed : ¬s.Undisturbed dest a := fun hu =>
      (hfile.1 htaken).elim (hiff.1 hu).1.1 (hiff.1 hu).1.2
    rw [if_pos htaken] at h
    cases h
    refine attempted_failed (t := t.others a.afterClaim) (l := [])
      (by simpa using hqueue) (by simpa using hdb) (by simpa using hnext) hs hne
      (fun p _ => hown p) (by simpa using hremoved) ?_ fun _ => hdisturbed
    rw [List.nil_append, all_unlinked_iff (s := t.others a.afterClaim) (hown _)]
    refine ⟨fun hfree => ?_, fun hu => absurd hu hdisturbed⟩
    have hsome := (isSome_others t a.afterClaim d.destPath).2 (.inl htaken)
    rw [hfree] at hsome
    cases hsome
  · have hfree : t.store.files d.destPath = none := by simpa using htaken
    have hquiet := not_or.1 (hfile.not.1 htaken)
    rw [if_neg htaken] at h
    cases hopen : a.openFails with
    | true =>
      rw [hopen, if_pos rfl] at h
      cases h
      refine attempted_failed (t := t.others a.afterClaim) (l := []) 
        (by simpa using hqueue) (by simpa using hdb) (by simpa using hnext) hs hne
        (fun p _ => hown p) (by simpa using hremoved) ?_ fun hagain => by cases hagain
      rw [List.nil_append, all_unlinked_iff (s := t.others a.afterClaim) (hown _), hiff,
        ← Option.not_isSome_iff_eq_none, isSome_others]
      simp [hfree, hquiet, hopen]
    | false =>
      rw [hopen, if_neg (by decide)] at h
      simp only at h
      -- The path is claimed.
      generalize hc : others
        { store := Store.modify
            { t.store with files := Function.update t.store.files d.destPath (some .empty) } d.id
              fun d => { d with reservedFile := true }
          own := Function.update t.own d.destPath true
          removed := t.removed } a.afterClaim = c at h
      have hcqueue : c.store.queue = { d with reservedFile := true } :: s.store.queue := by
        rw [← hc, others_queue, Store.modify, hqueue]
        simp [List.modifyFirst]
      have hcdb : c.store.db = s.store.db := by rw [← hc, others_db, ← hdb]; rfl
      have hcnext : c.store.nextId = s.store.nextId + 1 := by rw [← hc, others_nextId, ← hnext]; rfl
      have hcown : c.own = Function.update t.own d.destPath true := by rw [← hc]; rfl
      have hcremoved : c.removed = s.removed := by rw [← hc, ← hremoved]; rfl
      have hcfile : (c.store.files d.destPath).isSome := by
        rw [← hc]
        refine (isSome_others _ _ _).2 (.inl ?_)
        simp [Store.modify]
      cases hinserted : a.inserted with
      | true =>
        rw [hinserted, if_pos rfl] at h
        cases h
        refine ⟨?_, fun h => absurd h h0.ne', ⟨[], ?_, ?_⟩, fun h => by cases h⟩
        · exact hcnext.symm ▸ Nat.le_succ _
        · rw [List.append_nil]
          exact hcremoved
        · rw [hiff]
          simp [hquiet, hopen, hinserted]
      | false =>
        rw [hinserted, if_neg (by decide)] at h
        cases h
        have hunlinked : (c.others a.afterInsert).unlinked d.destPath = [(d.destPath, true)] := by
          have hsome := (isSome_others c a.afterInsert d.destPath).2 (.inl hcfile)
          rw [unlinked, if_pos hsome, others_own, hcown, Function.update_self]
        refine attempted_failed (d := { d with reservedFile := true }) (l := [(d.destPath, true)])
          (t := ((c.others a.afterInsert).unlink d.destPath).others a.afterUnlink) ?_ ?_ ?_ hs hne
          (fun p hp => ?_) ?_ ?_ fun hagain => by cases hagain
        · rw [others_queue]
          exact (others_queue c _).trans hcqueue
        · rw [others_db]
          exact (others_db c _).trans hcdb
        · rw [others_nextId]
          exact (others_nextId c _).trans hcnext
        · show Function.update c.own d.destPath false p = false
          rw [Function.update_of_ne hp, hcown, Function.update_of_ne hp, hown]
        · show c.removed ++ (c.others a.afterInsert).unlinked d.destPath = _
          rw [hunlinked, hcremoved]
        · have hgone : ((c.others a.afterInsert).unlink d.destPath).store.files d.destPath = none :=
            Function.update_self _ _ _
          have hnotown : (((c.others a.afterInsert).unlink d.destPath).others a.afterUnlink).own
              d.destPath = false := Function.update_self _ _ _
          rw [List.forall_mem_append, all_unlinked_iff hnotown, hiff, ← Option.not_isSome_iff_eq_none,
            isSome_others, hgone]
          simp [hquiet, hopen, hinserted]

theorem attempted_of_eq (h0 : 0 < s.store.nextId) (hown : ∀ p, s.own p = false)
    (h : attempt url dest opts s a = (s', id, again)) : Attempted dest s a s' id again := by
  rw [attempt] at h
  split at h
  · rename_i hnone
    cases h
    exact attempted_refused hown (fun path hpath => by rw [hnone] at hpath; cases hpath) []
  · rename_i path hpath
    have hfree := chosen_free hpath
    simp only at h
    by_cases hrefused : (isSafeDestPath path a.add.inRoot = false || a.add.noMemory) = true
    · rw [queueManagerAdd, if_pos hrefused] at h
      cases h
      refine attempted_refused hown (fun path' hpath' hsafe => ?_) a.afterChoice
      rw [Option.mem_def, hpath, Option.some.injEq] at hpath'
      subst hpath'
      simpa [hsafe] using hrefused
    · obtain ⟨hsafe, hmemory⟩ : isSafeDestPath path a.add.inRoot = true ∧ a.add.noMemory = false := by
        simpa using hrefused
      have hne : path ≠ [] := by
        rintro rfl
        simp [isSafeDestPath] at hsafe
      obtain ⟨n, hn⟩ := Nat.exists_eq_succ_of_ne_zero (Nat.pos_iff_ne_zero.1 h0)
      rw [queueManagerAdd, if_neg hrefused, others_nextId, hn] at h
      refine attempted_of_claim (d := newDownload (n + 1) url path opts)
        (t := others { s.others a.afterChoice with store := { (s.others a.afterChoice).store with
          queue := newDownload (n + 1) url path opts :: (s.others a.afterChoice).store.queue
          nextId := n + 1 + 1 } } a.afterAdd)
        hpath hsafe hmemory (Nat.succ_pos n) ?_ ?_ ?_ rfl rfl hne hown rfl ?_ h
      · rw [others_queue]
        exact congrArg _ (others_queue s _)
      · rw [others_db]
        exact others_db s _
      · rw [others_nextId, hn]
      · refine (isSome_others _ _ _).trans (or_congr_left ?_)
        refine (isSome_others s a.afterChoice path).trans ?_
        simp [hfree]

/-! ## The call -/

/-- What the attempts do together. -/
theorem reserve_spec {attempts : ℕ} {env : ℕ → Attempt} (h0 : 0 < s.store.nextId)
    (hown : ∀ p, s.own p = false) (h : reserve url dest opts attempts s env = (s', id)) :
    (∃ l, s'.removed = s.removed ++ l) ∧ (id = 0 →
      s'.store.queue = s.store.queue ∧ s'.store.db = s.store.db ∧ ∀ p, s'.own p = false) := by
  induction attempts generalizing s with
  | zero =>
    cases h
    exact ⟨⟨[], (List.append_nil _).symm⟩, fun _ => ⟨rfl, rfl, hown⟩⟩
  | succ attempts ih =>
    rw [reserve] at h
    rcases hattempt : attempt url dest opts s (env attempts) with ⟨t, id', again⟩
    have hspec := attempted_of_eq h0 hown hattempt
    obtain ⟨l, hl, -⟩ := hspec.removed
    rw [hattempt] at h
    cases again with
    | false =>
      cases h
      exact ⟨⟨l, hl⟩, hspec.undone⟩
    | true =>
      obtain ⟨hqueue, hdb, hown'⟩ := hspec.undone (hspec.again rfl).1
      obtain ⟨⟨l', hl'⟩, hundone⟩ := ih (h0.trans_le hspec.nextId) hown' h
      refine ⟨⟨l ++ l', by rw [hl', hl, List.append_assoc]⟩, fun hid => ?_⟩
      obtain ⟨hqueue', hdb', hown''⟩ := hundone hid
      exact ⟨hqueue'.trans hqueue, hdb'.trans hdb, hown''⟩

/-- A call with an attempt or more unlinks its own files only if its first attempt is not
    disturbed: a second one follows a first one that was. -/
theorem reserve_removed_iff {attempts : ℕ} {env : ℕ → Attempt} (h0 : 0 < s.store.nextId)
    (hown : ∀ p, s.own p = false) (hremoved : s.removed = [])
    (h : reserve url dest opts (attempts + 1) s env = (s', id)) :
    (∀ x ∈ s'.removed, x.2 = true) ↔ s.Undisturbed dest (env attempts) := by
  rw [reserve] at h
  rcases hattempt : attempt url dest opts s (env attempts) with ⟨t, id', again⟩
  have hspec := attempted_of_eq h0 hown hattempt
  obtain ⟨l, hl, hiff⟩ := hspec.removed
  rw [hremoved, List.nil_append] at hl
  rw [hattempt] at h
  cases again with
  | false =>
    cases h
    rw [hl, hiff]
  | true =>
    obtain ⟨hid, hdisturbed⟩ := hspec.again rfl
    obtain ⟨⟨l', hl'⟩, -⟩ :=
      reserve_spec (h0.trans_le hspec.nextId) (hspec.undone hid).2.2 h
    refine ⟨fun hall => absurd (hiff.1 fun x hx => hall x ?_) hdisturbed,
      fun hu => absurd hu hdisturbed⟩
    rw [hl', hl]
    exact List.mem_append_left _ hx

/-- The files unlinked are the call's own, and a call that returns `0` leaves no file of its own,
    no entry and no row. -/
structure RemovesOwn (url dest : CString) (opts : RequestOptions) (s : Store)
    (env : ℕ → Attempt) : Prop where
  removed : ∀ x ∈ (reserve url dest opts reserveAttempts (begin s) env).1.removed, x.2 = true
  undone : (reserve url dest opts reserveAttempts (begin s) env).2 = 0 →
    (reserve url dest opts reserveAttempts (begin s) env).1.store.queue = s.queue ∧
    (reserve url dest opts reserveAttempts (begin s) env).1.store.db = s.db ∧
      ∀ p, (reserve url dest opts reserveAttempts (begin s) env).1.own p = false

variable {s : Store} {env : ℕ → Attempt}

/-- The first of all attempts decides. -/
theorem removed_iff (h0 : 0 < s.nextId) :
    (∀ x ∈ (reserve url dest opts reserveAttempts (begin s) env).1.removed, x.2 = true) ↔
      (begin s).Undisturbed dest (env (reserveAttempts - 1)) := by
  have hfirst : reserveAttempts = reserveAttempts - 1 + 1 := rfl
  rw [hfirst]
  exact reserve_removed_iff h0 (fun _ => rfl) rfl rfl

/-- A call removes nothing but what it has created just if no other program creates a file at
    the path chosen first before it is claimed, or before the entry is removed again. -/
theorem removesOwn_iff (h0 : 0 < s.nextId) :
    RemovesOwn url dest opts s env ↔ (begin s).Undisturbed dest (env (reserveAttempts - 1)) :=
  ⟨fun h => (removed_iff h0).1 h.removed, fun h =>
    ⟨(removed_iff h0).2 h, (reserve_spec h0 (fun _ => rfl) rfl).2⟩⟩

/-- An attempt that goes well. -/
def goodAttempt : Attempt where
  unreadable _ := false
  add := ⟨true, false⟩
  openFails := false
  inserted := true
  afterChoice := []
  afterAdd := []
  afterClaim := []
  afterInsert := []
  afterUnlink := []
  afterRemove := []

/-- A daemon without downloads or files. -/
def noStore : Store := ⟨[], 1, fun _ => none, ⟨[], []⟩, [], []⟩

/-- The row is not inserted, and another program creates a file at another path. -/
theorem removesOwn_iff_elsewhere :
    RemovesOwn "http://h/f".toList "/d/f".toList ⟨[], [], [], [], 0⟩ noStore fun _ =>
      { goodAttempt with inserted := false, afterUnlink := [("/d/g".toList, .empty)] } := by
  have hchosen : (begin noStore).chosen "/d/f".toList
      { goodAttempt with inserted := false, afterUnlink := [("/d/g".toList, .empty)] } =
        some "/d/f".toList := by decide
  refine (removesOwn_iff (by decide)).2 ((undisturbed_iff hchosen (by decide) rfl).2 ?_)
  decide

/-- Another program creates a file at the path chosen before it is claimed. -/
def lateAttempt : Attempt := { goodAttempt with afterAdd := [("/d/f".toList, .empty)] }

/-- The other program's file is unlinked, with the entry of the attempt. -/
theorem exists_not_removesOwn :
    ¬ ∀ (url dest : CString) (opts : RequestOptions) (s : Store) (env : ℕ → Attempt),
      0 < s.nextId → RemovesOwn url dest opts s env := by
  intro hall
  have hchosen : (begin noStore).chosen "/d/f".toList lateAttempt = some "/d/f".toList := by decide
  have hquiet : (begin noStore).Undisturbed "/d/f".toList lateAttempt :=
    (removed_iff Nat.one_pos).1 (hall "http://h/f".toList "/d/f".toList ⟨[], [], [], [], 0⟩ noStore
      (fun _ => lateAttempt) Nat.one_pos).removed
  exact ((undisturbed_iff hchosen (by decide) rfl).1 hquiet).1.2 (by decide)

end Reserving

end Cdm
