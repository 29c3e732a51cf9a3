import Cdm.Core.QueueManager
import Cdm.Utils.Path

/-!
# Requests

The messages of the clients the daemon acts on (`handle_message` of
`platform/ipc_socket.c`): adding a download, directly or by confirming an offer of the
browser, and pausing, resuming or canceling one.

A request to pause, resume or cancel looks up the status of the download first, and acts
on it with the next operation: its handler is a sequence of steps (`HandlerPc`).
-/

namespace Cdm

def ipcMaxPathLen : ℕ := 1024

inductive IpcResult
  | ok
  | notFound
  | rejected
  deriving DecidableEq

/-! ## Adding downloads -/

/-- How the system answers an attempt to reserve a download. -/
structure ReserveIo where
  add : AddIo
  /-- A file that another program puts at the path chosen, before it is claimed. -/
  intruder : Option File
  /-- The path cannot be opened, other than because it exists. -/
  openFails : Bool
  /-- The row is inserted. -/
  inserted : Bool

/-- Creating an empty file at a path; `-2` if it exists. -/
def claimFile (s : Store) (path : CString) (openFails : Bool) : Store × ℤ :=
  if (s.files path).isSome then (s, -2)
  else if openFails then (s, -1)
  else ({ s with files := Function.update s.files path (some .empty) }, 0)

/-- What another program does to a path. -/
def intrude (s : Store) (path : CString) : Option File → Store
  | none => s
  | some f => { s with files := Function.update s.files path (some f) }

/-- Adding a download at a path at which nothing exists, and claiming the path, in at most
    `attempts` attempts; `0` if it fails. What the system answers may differ between
    attempts. -/
def reserveDownload (url dest : CString) (opts : RequestOptions) :
    (attempts : ℕ) → Store → (ℕ → ReserveIo) → Store × ℕ
  | 0, s, _ => (s, 0)
  | attempts + 1, s, ios =>
    let io := ios attempts
    match pathMakeUnique (fun p => (s.files p).isSome) dest ipcMaxPathLen with
    | none => (s, 0)
    | some uniqueDest =>
      match queueManagerAdd s url uniqueDest opts io.add with
      | (s, 0) => (s, 0)
      | (s, id) =>
        match claimFile (intrude s uniqueDest io.intruder) uniqueDest io.openFails with
        | (s, 0) =>
          let s := s.modify id fun d => { d with reservedFile := true }
          if io.inserted then (s.query (.insertDownload id url uniqueDest opts true), id)
          -- Without a row the claim is withdrawn.
          else (queueManagerRemove (s.unlink uniqueDest) id, 0)
        -- The path has been taken in the meantime: another one is chosen.
        | (s, -2) => reserveDownload url dest opts attempts (queueManagerRemove s id) ios
        | (s, _) => (queueManagerRemove s id, 0)

/-- The attempts made. -/
def reserveAttempts : ℕ := 1000000

/-- The path chosen for a destination. -/
def chosenPath (s : Store) (dest : CString) : Option CString :=
  pathMakeUnique (fun p => (s.files p).isSome) dest ipcMaxPathLen

/-- What an add does: a download with a fresh identifier is put at the head of the queue,
    its row inserted and its path, free before, claimed; or nothing but identifiers are
    used up. -/
structure Reserved (s : Store) (url dest : CString) (opts : RequestOptions) (s' : Store)
    (id : ℕ) : Prop where
  nextId : s.nextId ≤ s'.nextId
  unlinked : ∀ p ∈ s'.unlinked, p ∈ s.unlinked ∨ chosenPath s dest = some p
  added : id ≠ 0 → ∃ path, chosenPath s dest = some path ∧ path ≠ [] ∧ s.nextId ≤ id ∧
    id < s'.nextId ∧
    s'.queue = { newDownload id url path opts with reservedFile := true } :: s.queue ∧
    s'.files = Function.update s.files path (some .empty) ∧
    s'.db = s.db.exec (.insertDownload id url path opts true)
  refused : id = 0 → s'.queue = s.queue ∧ s'.files = s.files ∧ s'.db = s.db

theorem reserved_refl {s : Store} {url dest : CString} {opts : RequestOptions} :
    Reserved s url dest opts s 0 :=
  ⟨le_rfl, fun _ hp => .inl hp, fun h => absurd rfl h, fun _ => ⟨rfl, rfl, rfl⟩⟩

/-- A failed add, followed by another. -/
theorem Reserved.trans {s s' s'' : Store} {url dest : CString} {opts : RequestOptions} {id : ℕ}
    (h : Reserved s url dest opts s' 0) (h' : Reserved s' url dest opts s'' id) :
    Reserved s url dest opts s'' id := by
  obtain ⟨hqueue, hfiles, hdb⟩ := h.refused rfl
  have hchosen : chosenPath s' dest = chosenPath s dest := by rw [chosenPath, hfiles, chosenPath]
  refine ⟨h.nextId.trans h'.nextId, fun p hp => ?_, fun hid => ?_, fun hid => ?_⟩
  · rcases h'.unlinked p hp with hp | hp
    · exact h.unlinked p hp
    · exact .inr (hchosen ▸ hp)
  · obtain ⟨path, hpath, hne, hle, hlt, hq, hf, hd⟩ := h'.added hid
    rw [hqueue] at hq
    rw [hfiles] at hf
    rw [hdb] at hd
    exact ⟨path, hchosen ▸ hpath, hne, h.nextId.trans hle, hlt, hq, hf, hd⟩
  · obtain ⟨hq, hf, hd⟩ := h'.refused hid
    exact ⟨hq.trans hqueue, hf.trans hfiles, hd.trans hdb⟩

/-- An attempt that fails is undone, but for its identifier: its entry `d` is removed, and
    what is at its path by now is unlinked. -/
theorem reserved_remove {s t : Store} {url dest path : CString} {opts : RequestOptions}
    {d : Download} {l : List CString} (hpath : chosenPath s dest = some path)
    (hfree : s.files path = none) (hne : path ≠ []) (hqueue : t.queue = d :: s.queue)
    (hd : d.id = s.nextId ∧ d.destPath = path ∧ d.status = .queued)
    (hnext : t.nextId = s.nextId + 1) (hfiles : ∀ p, p ≠ path → t.files p = s.files p)
    (hdb : t.db = s.db) (hun : t.unlinked = s.unlinked ++ l) (hl : ∀ p ∈ l, p = path) :
    Reserved s url dest opts (queueManagerRemove t s.nextId) 0 := by
  obtain ⟨hid, rfl, hs⟩ := hd
  have hget : t.get s.nextId = some d := by
    rw [Store.get, hqueue]
    simp [hid]
  have hupdate : Function.update t.files d.destPath none = s.files := by
    funext p
    by_cases hpd : p = d.destPath
    · rw [hpd, Function.update_self, hfree]
    · rw [Function.update_of_ne hpd, hfiles p hpd]
  have hremove : queueManagerRemove t s.nextId =
      { t with queue := s.queue, files := s.files, unlinked := s.unlinked ++ l ++ [d.destPath] } := by
    rw [queueManagerRemove, hget]
    simp [hs, hne, hqueue, hid, Store.unlink, hupdate, hun]
  rw [hremove]
  refine ⟨hnext ▸ Nat.le_succ _, fun p hp => ?_, fun h => absurd rfl h, fun _ => ⟨rfl, rfl, hdb⟩⟩
  simp only [List.mem_append, List.mem_singleton] at hp
  rcases hp with (hp | hp) | rfl
  · exact .inl hp
  · exact .inr (hl p hp ▸ hpath)
  · exact .inr hpath

theorem reserveDownload_spec {url dest : CString} {opts : RequestOptions} {attempts : ℕ}
    {s s' : Store} {ios : ℕ → ReserveIo} {id : ℕ} (h0 : 0 < s.nextId)
    (h : reserveDownload url dest opts attempts s ios = (s', id)) :
    Reserved s url dest opts s' id := by
  induction attempts generalizing s with
  | zero =>
    cases h
    exact reserved_refl
  | succ attempts ih =>
    rw [reserveDownload] at h
    simp only at h
    generalize ios attempts = io at h
    split at h
    · cases h
      exact reserved_refl
    · rename_i path hpath
      have hchosen : chosenPath s dest = some path := hpath
      have hfree : s.files path = none := by
        simpa using pathMakeUnique_spec hpath
      by_cases hsafe : (isSafeDestPath path io.add.inRoot = false || io.add.noMemory) = true
      · rw [queueManagerAdd, if_pos hsafe] at h
        cases h
        exact reserved_refl
      · have hne : path ≠ [] := by
          rintro rfl
          simp [isSafeDestPath] at hsafe
        obtain ⟨n, hn⟩ := Nat.exists_eq_succ_of_ne_zero (Nat.pos_iff_ne_zero.1 h0)
        rw [queueManagerAdd, if_neg hsafe, hn] at h
        simp only at h
        rw [← hn] at h
        cases hint : io.intruder with
        | some f =>
          -- The path is taken by now: the entry is removed, and the next attempt made.
          rw [hint, claimFile, if_pos (by simp [intrude])] at h
          suffices hfailed : Reserved s url dest opts _ 0 from
            hfailed.trans (ih (h0.trans_le hfailed.nextId) h)
          exact reserved_remove hchosen hfree hne rfl ⟨rfl, rfl, rfl⟩ rfl
            (fun p hp => Function.update_of_ne hp _ _) rfl (List.append_nil _).symm (by simp)
        | none =>
          rw [hint, claimFile, intrude, if_neg (by simp [hfree])] at h
          cases hopen : io.openFails with
          | true =>
            rw [hopen, if_pos rfl] at h
            cases h
            exact reserved_remove hchosen hfree hne rfl ⟨rfl, rfl, rfl⟩ rfl (fun _ _ => rfl) rfl
              (List.append_nil _).symm (by simp)
          | false =>
            rw [hopen, if_neg (by decide)] at h
            simp only at h
            cases hins : io.inserted with
            | true =>
              rw [hins, if_pos rfl] at h
              cases h
              refine ⟨Nat.le_succ _, fun p hp => .inl hp, fun _ => ⟨path, hchosen, hne, le_rfl,
                Nat.lt_succ_self _, ?_, rfl, rfl⟩, fun h => absurd h h0.ne'⟩
              simp [Store.modify, Store.query, List.modifyFirst, newDownload]
            | false =>
              rw [hins, if_neg (by decide)] at h
              cases h
              refine reserved_remove
                (d := { newDownload s.nextId url path opts with reservedFile := true }) hchosen hfree
                hne ?_ ⟨rfl, rfl, rfl⟩ rfl (fun p hp => ?_) rfl rfl (by simp)
              · simp [Store.modify, Store.unlink, List.modifyFirst, newDownload]
              · simp [Store.modify, Store.unlink, Function.update_of_ne hp]

inductive BrowserState
  | waiting
  | confirmed
  | dismissed
  deriving DecidableEq

/-- An offer of the browser. -/
structure BrowserOffer where
  offerId : ℕ
  url : CString
  referrer : CString
  state : BrowserState
  downloadId : ℕ
  deriving DecidableEq

/-- The offer with an identifier, which is not `0`. -/
def browserFindOffer (offers : List BrowserOffer) (id : ℕ) : Option BrowserOffer :=
  offers.find? fun o => id ≠ 0 ∧ o.offerId = id

/-- Confirming an offer: the download it was confirmed as before, or a new one. -/
def browserConfirm (s : Store) (offers : List BrowserOffer) (offerId : ℕ) (dest : CString)
    (ios : ℕ → ReserveIo) : Store × List BrowserOffer × ℕ :=
  if dest = [] ∨ ipcMaxPathLen ≤ dest.length then (s, offers, 0)
  else
    match browserFindOffer offers offerId with
    | none => (s, offers, 0)
    | some offer =>
      match offer.state with
      | .confirmed => (s, offers, offer.downloadId)
      | .dismissed => (s, offers, 0)
      | .waiting =>
        match reserveDownload offer.url dest ⟨[], offer.referrer, [], [], 0⟩ reserveAttempts s ios with
        | (s, 0) => (s, offers, 0)
        | (s, id) =>
          (s, offers.modifyFirst (·.offerId = offerId)
            fun o => { o with downloadId := id, state := .confirmed }, id)

/-! ## Commands -/

inductive Command
  | pause
  | resume
  | cancel
  deriving DecidableEq

/-- What follows the lookup of the status. -/
inductive HandlerPc
  /-- The status found does not forbid the command. -/
  | checked (c : Command) (id : ℕ)
  /-- The path of a download to be canceled has been copied. -/
  | located (id : ℕ) (path : CString)
  /-- Operations are left, then the answer is sent. -/
  | finishing (c : Command) (id : ℕ) (ops : List Op) (answer : IpcResult)

/-- The lookup of the status: the handler goes on, or answers at once. -/
def commandCheck (s : Store) (c : Command) (id : ℕ) : HandlerPc :=
  match c, queueManagerGetStatus s id with
  | c, none => .finishing c id [] .notFound
  | .pause, some .active | .pause, some .queued => .checked .pause id
  | .pause, some _ => .finishing .pause id [] .rejected
  | .resume, some _ => .checked .resume id
  | .cancel, some .done => .finishing .cancel id [] .rejected
  | .cancel, some _ => .checked .cancel id

/-- The handler goes on only if the download is found. -/
theorem commandCheck_cases (st : Store) (c : Command) (id : ℕ) :
    (commandCheck st c id = .checked c id ∧ (st.get id).isSome) ∨
      ∃ answer, commandCheck st c id = .finishing c id [] answer ∧ answer ≠ .ok := by
  have hsome {status : DownloadStatus} (h : queueManagerGetStatus st id = some status) :
      (st.get id).isSome := by
    obtain ⟨d, hd, -⟩ := Option.map_eq_some_iff.1 h
    rw [hd]
    rfl
  unfold commandCheck
  split
  · exact .inr ⟨_, rfl, by decide⟩
  · exact .inl ⟨rfl, hsome ‹_›⟩
  · exact .inl ⟨rfl, hsome ‹_›⟩
  · exact .inr ⟨_, rfl, by decide⟩
  · exact .inl ⟨rfl, hsome ‹_›⟩
  · exact .inr ⟨_, rfl, by decide⟩
  · exact .inl ⟨rfl, hsome ‹_›⟩

/-- The next step of a handler that has not answered yet. -/
def handlerStep (s : Store) : HandlerPc → Option (Store × HandlerPc)
  | .checked .pause id =>
    let (s, wasActive) := queueManagerPause s id
    some (s, .finishing .pause id (if wasActive then [] else [.dbUpdateStatus "PAUSED"]) .ok)
  | .checked .resume id =>
    let (s, resumed) := queueManagerResume s id
    some (s, if resumed then .finishing .resume id [.dbUpdateStatus "QUEUED"] .ok
      else .finishing .resume id [] .rejected)
  | .checked .cancel id => some (s, .located id (((s.get id).map (·.destPath)).getD []))
  | .located id path =>
    let (s, wasActive) := queueManagerCancel s id
    some (s, .finishing .cancel id (if wasActive then [] else discardOps path) .ok)
  | .finishing c id (op :: ops) answer => some (op.exec id s, .finishing c id ops answer)
  | .finishing _ _ [] _ => none

end Cdm
