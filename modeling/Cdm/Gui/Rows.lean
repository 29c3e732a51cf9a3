import Cdm.Daemon.Listed
import Cdm.Gui.ConnectionEvents

/-!
# The rows of the window

The list of downloads in the window: the rows (`gui/gui_model.c`), the events the controller thread
publishes (`gui/gui_controller.c`) and the thread of the window consumes (`consume_events` of
`gui/gui_nuklear.c`), and the daemon, which gives out the identifiers and lists what it has stored
(`Registry`). The controller asks for the list from time to time, sends an add and waits for its
answer, and publishes what comes of it; an event is lost when the queue is full. The daemon serves
other clients as well, and may be started again.

Here every command gets its own answer, or none: `Window` says what the window is for. How the
answers come over the command connection, and when they are the right ones, is in
`Cdm.Gui.CommandLink`.

* `Window.sorted_of_reachable`: no download has two rows, the newest ones come first, and every row
  is that of a download that is stored;
* `Window.shown_of_refreshed`: when the list has been published, and no other download is stored
  afterwards, the window shows just the downloads listed as soon as it has consumed its events,
  whatever was lost before or is lost later.

Of what is shown beside the rows, the connection, the last error and the message that a download is
complete are modelled.
-/

namespace Cdm

/-! ## The rows -/

def guiModelMaxRows : ℕ := 256

/-- A row has the arrays of a record. -/
abbrev GuiRow := DownloadListRecord

theorem length_status_lt (status : CString) : (strncpy 16 status).length < 16 :=
  length_strncpy_lt (Nat.succ_pos 15)

structure GuiModel where
  rows : List GuiRow
  length_le : rows.length ≤ guiModelMaxRows

namespace GuiModel

def empty : GuiModel := ⟨[], Nat.zero_le _⟩

/-- The records of a list, in place of all rows. -/
def applySnapshot (records : List DownloadListRecord) : GuiModel where
  rows := (records.take guiModelMaxRows).map fun r =>
    .copy r.id r.url r.destPath r.status r.progress r.id_lt
  length_le := by
    rw [List.length_map, List.length_take]
    exact min_le_left _ _

/-- Changing the row of a download, if there is one. -/
def modify (m : GuiModel) (id : ℕ) (f : GuiRow → GuiRow) : GuiModel where
  rows := m.rows.modifyFirst (·.id = id) f
  length_le := by
    rw [List.length_modifyFirst]
    exact m.length_le

/-- An empty status leaves the one that is there. -/
def applyStatusUpdate (m : GuiModel) (id : ℕ) (status : CString) (progress : BitVec 32) :
    GuiModel :=
  m.modify id fun r =>
    if status = [] then { r with progress := progress }
    else
      { r with
        progress := progress
        status := strncpy 16 status
        status_lt := length_status_lt status }

def applyOptimistic (m : GuiModel) (id : ℕ) (status : CString) : GuiModel :=
  m.modify id fun r =>
    { r with status := strncpy 16 status, status_lt := length_status_lt status }

/-- A download just added, above all others. -/
def addLocalRow (m : GuiModel) (id : ℕ) (url destPath : CString) (hid : id < 256 ^ 4) : GuiModel :=
  if h : m.rows.length < guiModelMaxRows then
    ⟨.copy id url destPath "QUEUED".toList 0 hid :: m.rows, h⟩
  else m

/-- The identifiers of the rows, from the top. -/
def ids (m : GuiModel) : List ℕ := m.rows.map (·.id)

theorem ids_modify (m : GuiModel) (id : ℕ) {f : GuiRow → GuiRow} (hf : ∀ r, (f r).id = r.id) :
    (m.modify id f).ids = m.ids :=
  List.map_modifyFirst fun r _ => hf r

theorem ids_applySnapshot (records : List DownloadListRecord) :
    (applySnapshot records).ids = (records.take guiModelMaxRows).map (·.id) := by
  rw [ids, applySnapshot, List.map_map]
  rfl

end GuiModel

/-! ## Events -/

inductive GuiControllerOperation
  | add
  | pause
  | resume
  | cancel
  deriving DecidableEq

inductive GuiControllerEvent
  | operation (operation : GuiControllerOperation) (downloadId : ℕ) (url destPath : CString)
      (succeeded : Bool) (downloadId_lt : downloadId < 256 ^ 4)
  | status (downloadId : ℕ) (status : CString) (progress : BitVec 32)
  | snapshot (records : List DownloadListRecord)
  | details (downloadId : ℕ) (found : Bool)
  | connection (connected : Bool)
  | error (message : CString)

def guiControllerEventCap : ℕ := 256

def guiControllerMaxRows : ℕ := 256

abbrev ControllerQueue := RingBuffer GuiControllerEvent guiControllerEventCap

/-- An event is lost if the queue is full. -/
def guiControllerPublish (q : ControllerQueue) (e : GuiControllerEvent) : ControllerQueue :=
  if h : q.count < guiControllerEventCap then q.push e h else q

/-- What the window shows. -/
structure UiState where
  model : GuiModel
  connected : Bool
  error : CString
  /-- The download that is said to be complete. -/
  toast : Option GuiRow

/-- A row that is not done yet is said to be complete when it is. -/
def maybeComplete (ui : UiState) (old : Option GuiRow) (status : CString) : UiState :=
  match old with
  | none => ui
  | some r =>
    -- A download that was done already is not said to be complete again.
    if r.status ≠ "DONE".toList ∧ status = "DONE".toList then
      { ui with toast := some { r with
          status := "DONE".toList
          progress := oneFloat
          status_lt := by decide } }
    else ui

/-- A turn of `consume_events`. -/
def consumeEvent (ui : UiState) : GuiControllerEvent → UiState
  | .status id status progress =>
    let ui' := maybeComplete ui (ui.model.rows.find? (·.id = id)) status
    { ui' with model := ui.model.applyStatusUpdate id status progress }
  | .snapshot records =>
    let ui' := records.foldl (fun ui' r =>
      maybeComplete ui' (ui.model.rows.find? (·.id = r.id)) r.status) ui
    { ui' with model := .applySnapshot records }
  | .connection connected => { ui with connected := connected }
  | .operation operation id url destPath succeeded hid =>
    if succeeded = true then
      match operation with
      | .add => { ui with model := ui.model.addLocalRow id url destPath hid }
      | .pause => { ui with model := ui.model.applyOptimistic id "PAUSED".toList }
      | .resume => { ui with model := ui.model.applyOptimistic id "QUEUED".toList }
      | .cancel => { ui with model := ui.model.applyOptimistic id "CANCELED".toList }
    else ui
  | .details _ _ => ui
  | .error message => { ui with error := message }

/-! ## The window and the daemon -/

/-- What has become of an add that the controller thread waits for. -/
inductive AddPc
  | sent
  /-- The daemon is reserving the download. -/
  | serving
  | answered (id : ℕ)
  /-- The daemon that had the request is gone. -/
  | lost

/-- Where the controller thread is. -/
inductive WindowPc
  | idle
  /-- The list has been asked for, and this is the answer. -/
  | listing (records : List DownloadListRecord)
  | adding (url destPath : CString) (r : AddPc)

structure Window where
  registry : Registry
  pc : WindowPc
  events : ControllerQueue
  ui : UiState

inductive WindowAct
  /-- A step of the daemon, for this client or another one, or of a thread of the daemon. -/
  | daemon (a : RegistryAct)
  /-- The daemon lists the downloads; `live` is what it knows of them when it sends their rows. -/
  | list (ratio : ℕ → ℕ → BitVec 32) (live : Store)
  /-- The database does not count its rows, and the daemon lists none. -/
  | listNone
  | publishSnapshot
  | clientEvent (e : GuiClientEvent)
  /-- A command other than an add has been answered. -/
  | operate (operation : GuiControllerOperation) (id : ℕ) (hid : id < 256 ^ 4) (succeeded : Bool)
  | details (id : ℕ) (found : Bool)
  | add (url destPath : CString)
  /-- The daemon makes an attempt to reserve the download, at a path. -/
  | serve (destPath : CString) (opts : RequestOptions)
  /-- The daemon refuses the add. -/
  | refuse
  | receive
  /-- The add, or the list, has failed without an answer. -/
  | fail
  | consume

/-- The step stores no download, and the database does not fail. -/
def WindowAct.steady : WindowAct → Bool
  | .daemon (.insert true) | .listNone => false
  | _ => true

namespace Window

def publish (s : Window) (e : GuiControllerEvent) : Window :=
  { s with events := guiControllerPublish s.events e }

/-- The add failed, or was refused. -/
def publishFailure (s : Window) (url destPath : CString) : Window :=
  (s.publish (.operation .add 0 (strncpy ipcMaxUrlLen url) (strncpy ipcMaxPathLen destPath) false
    (by decide))).publish (.error "Download could not be added".toList)

/-- The controller thread, after a step of the daemon: an insertion answers the request that is
    being served, and a start of the daemon loses it. -/
def afterDaemon (s : Window) (a : RegistryAct) : WindowPc :=
  match s.pc, a, s.registry.pc with
  | .adding url destPath .serving, .insert true, .claimed id _ _ _ =>
    .adding url destPath (.answered id)
  | .adding url destPath .serving, .restart, _ => .adding url destPath .lost
  | .adding url destPath .sent, .restart, _ => .adding url destPath .lost
  | pc, _, _ => pc

def step (s : Window) : WindowAct → Option Window
  | .daemon a =>
    match s.pc, a with
    -- The daemon serves one request at a time.
    | .adding _ _ .serving, .add .. => none
    | _, _ => (s.registry.step a).map fun r => { s with registry := r, pc := s.afterDaemon a }
  | .list ratio live =>
    match s.pc with
    | .idle => some { s with pc := .listing (listedRows ratio live s.registry.tables) }
    | _ => none
  | .listNone =>
    match s.pc with
    | .idle => some { s with pc := .listing [] }
    | _ => none
  | .publishSnapshot =>
    match s.pc with
    | .listing records =>
      some ({ s with pc := .idle }.publish (.snapshot (records.take guiControllerMaxRows)))
    | _ => none
  | .clientEvent e =>
    match s.pc with
    | .idle =>
      some (match e with
        | .statusUpdate id progress status =>
          s.publish (.status id (strncpy 16 status) progress.toBitVec)
        | .connectionLost => s.publish (.connection false)
        | .connectionRestored => s.publish (.connection true))
    | _ => none
  | .operate operation id hid succeeded =>
    match s.pc, operation with
    | .idle, .add => none
    | .idle, operation =>
      let s' := s.publish (.operation operation id [] [] succeeded hid)
      some (if succeeded = true then s'
        else s'.publish (.error "Download operation failed".toList))
    | _, _ => none
  | .details id found =>
    match s.pc with
    | .idle =>
      let s' := s.publish (.details id found)
      some (if found = true then s'
        else s'.publish (.error "Download details are unavailable".toList))
    | _ => none
  | .add url destPath =>
    match s.pc with
    | .idle => some { s with pc := .adding url destPath .sent }
    | _ => none
  | .serve path opts =>
    match s.pc with
    | .adding url destPath .sent | .adding url destPath .serving =>
      (s.registry.step (.add url path opts)).map fun r =>
        { s with registry := r, pc := .adding url destPath .serving }
    | _ => none
  | .refuse =>
    match s.pc with
    | .adding url destPath .sent | .adding url destPath .serving =>
      some { s with pc := .adding url destPath (.answered 0) }
    | _ => none
  | .receive =>
    match s.pc with
    | .adding url destPath (.answered id) =>
      let s' := { s with pc := .idle }
      -- An identifier is sent in 32 bits.
      some (if id % 256 ^ 4 = 0 then s'.publishFailure url destPath
        else s'.publish (.operation .add (id % 256 ^ 4) (strncpy ipcMaxUrlLen url)
          (strncpy ipcMaxPathLen destPath) true (Nat.mod_lt _ (Nat.two_pow_pos 32))))
    | _ => none
  | .fail =>
    match s.pc with
    | .adding url destPath _ => some ({ s with pc := .idle }.publishFailure url destPath)
    | .listing _ => some { s with pc := .idle }
    | .idle => none
  | .consume =>
    if h : 0 < s.events.count then
      some { s with events := s.events.pop h, ui := consumeEvent s.ui s.events.front }
    else none

/-- The window has just been opened, on any daemon; it has the list, or no rows. -/
structure IsInit (s : Window) : Prop where
  registry : Run.Reachable Registry.step Registry.IsInit (fun _ _ => True) s.registry
  pc : s.pc = .idle
  events : s.events.contents = []
  rows : s.ui.model.rows = [] ∨
    ∃ ratio live, s.ui.model = .applySnapshot (listedRows ratio live s.registry.tables)

end Window

/-! ## What a step does -/

namespace GuiControllerEvent

/-- The identifier of a download that the event adds. -/
def added : GuiControllerEvent → List ℕ
  | .operation .add id _ _ true _ => [id]
  | _ => []

/-- The identifiers of the rows that come from an event, from the top. -/
def ids : GuiControllerEvent → List ℕ
  | .snapshot records => records.map (·.id)
  | e => e.added

/-- No row comes from the event. -/
def Quiet : GuiControllerEvent → Prop
  | .snapshot _ => False
  | e => e.added = []

theorem Quiet.ids {e : GuiControllerEvent} (h : e.Quiet) : e.ids = [] := by
  cases e with
  | snapshot => exact h.elim
  | _ => exact h

theorem Quiet.added {e : GuiControllerEvent} (h : e.Quiet) : e.added = [] := by
  cases e with
  | snapshot => exact h.elim
  | _ => exact h

/-- What an event adds is above the rows of an earlier one. -/
def Precedes (e f : GuiControllerEvent) : Prop := ∀ a ∈ f.added, ∀ b ∈ e.ids, b < a

end GuiControllerEvent

open GuiControllerEvent (Precedes)

/-- The rows after an event: as they were, those of the list, or with another one at the top. -/
theorem ids_consumeEvent (ui : UiState) (e : GuiControllerEvent) :
    (consumeEvent ui e).model.ids = ui.model.ids ∨
      (∃ records, e = .snapshot records ∧
        (consumeEvent ui e).model.ids = (records.take guiModelMaxRows).map (·.id)) ∨
      ∃ id, e.added = [id] ∧ e.ids = [id] ∧
        (consumeEvent ui e).model.ids = id :: ui.model.ids := by
  cases e with
  | status id status progress =>
    refine .inl (GuiModel.ids_modify _ _ fun r => ?_)
    split_ifs <;> rfl
  | snapshot records => exact .inr (.inl ⟨records, rfl, GuiModel.ids_applySnapshot records⟩)
  | connection => exact .inl rfl
  | details => exact .inl rfl
  | error => exact .inl rfl
  | operation operation id url destPath succeeded hid =>
    cases succeeded with
    | false => exact .inl rfl
    | true =>
      cases operation with
      | add =>
        by_cases hroom : ui.model.rows.length < guiModelMaxRows
        · refine .inr (.inr ⟨id, rfl, rfl, ?_⟩)
          show (ui.model.addLocalRow id url destPath hid).ids = _
          rw [GuiModel.addLocalRow, dif_pos hroom]
          rfl
        · refine .inl ?_
          show (ui.model.addLocalRow id url destPath hid).ids = _
          rw [GuiModel.addLocalRow, dif_neg hroom]
      | pause => exact .inl (GuiModel.ids_modify _ _ fun _ => rfl)
      | resume => exact .inl (GuiModel.ids_modify _ _ fun _ => rfl)
      | cancel => exact .inl (GuiModel.ids_modify _ _ fun _ => rfl)

theorem ids_consumeEvent_snapshot (ui : UiState) (records : List DownloadListRecord) :
    (consumeEvent ui (.snapshot records)).model.ids =
      (records.map (·.id)).take guiModelMaxRows := by
  rw [← List.map_take]
  exact GuiModel.ids_applySnapshot records

namespace Window

/-- The rows, as if they were a list that has just come, and the events to be consumed. -/
def said (s : Window) : List GuiControllerEvent :=
  .snapshot s.ui.model.rows :: s.events.contents

/-- The identifier that has been answered. -/
def answer (s : Window) : Option ℕ :=
  match s.pc with
  | .adding _ _ (.answered id) => some id
  | _ => none

/-- What the controller thread publishes: the list it has, the download added under the identifier
    it has, or an event that no row comes from. -/
inductive Publishes (s : Window) (e : GuiControllerEvent) : Prop
  | snapshot (records : List DownloadListRecord) (hpc : s.pc = .listing records)
      (he : e = .snapshot (records.take guiControllerMaxRows))
  | added (id : ℕ) (hid : id ∈ s.answer) (hne : id % 256 ^ 4 ≠ 0) (he : e.added = [id % 256 ^ 4])
      (hids : e.ids = [id % 256 ^ 4])
  | other (he : e.Quiet)

/-- What a step does, but for consuming an event. -/
structure Turn (s : Window) (a : WindowAct) (s' : Window) : Prop where
  registry : s'.registry = s.registry ∨
    ∃ b, s.registry.step b = some s'.registry ∧ (b = .insert true → a.steady = false)
  said : ∃ l, s'.said = s.said ++ l ∧ (∀ e ∈ l, s.Publishes e) ∧ l.Pairwise Precedes ∧
    (l ≠ [] → s'.answer = none)
  listing : ∀ records, s'.pc = .listing records → s.pc = .listing records ∨
    (∃ ratio live, records = listedRows ratio live s.registry.tables) ∨
      records = [] ∧ a.steady = false
  answer : ∀ id ∈ s'.answer, id ∈ s.answer ∨ id = 0 ∨
    a.steady = false ∧ s.registry.step (.insert true) = some s'.registry ∧
      ∃ url dest opts, s.registry.pc = .claimed id url dest opts

variable {s s' : Window} {a : WindowAct}

theorem Turn.issued_le (h : Turn s a s') : s.registry.issued ≤ s'.registry.issued := by
  rcases h.registry with hr | ⟨b, hb, -⟩
  · rw [hr]
  · exact Registry.issued_le_of_step hb

/-- Some of the events published are in the queue, and nothing else has changed. -/
theorem said_publishAll (l : List GuiControllerEvent) (s : Window) :
    (l.foldl Window.publish s).registry = s.registry ∧ (l.foldl Window.publish s).pc = s.pc ∧
      ∃ k, k.Sublist l ∧ (l.foldl Window.publish s).said = s.said ++ k := by
  induction l generalizing s with
  | nil => exact ⟨rfl, rfl, [], List.Sublist.refl _, (List.append_nil _).symm⟩
  | cons e l ih =>
    obtain ⟨hregistry, hpc, k, hk, hsaid⟩ := ih (s.publish e)
    refine ⟨hregistry, hpc, ?_⟩
    rw [List.foldl_cons, hsaid, Window.said, Window.publish, guiControllerPublish]
    split_ifs with hroom
    · refine ⟨e :: k, hk.cons_cons e, ?_⟩
      rw [RingBuffer.contents_push, Window.said]
      simp
    · exact ⟨k, hk.cons e, rfl⟩

/-- Publishing events at the end of a request. -/
theorem turn_publishAll (l : List GuiControllerEvent) (hl : ∀ e ∈ l, s.Publishes e)
    (horder : l.Pairwise Precedes) : Turn s a (l.foldl Window.publish { s with pc := .idle }) := by
  obtain ⟨hregistry, hpc, k, hk, hsaid⟩ := said_publishAll l { s with pc := .idle }
  have hanswer : (l.foldl Window.publish { s with pc := .idle }).answer = none := by
    rw [Window.answer, hpc]
  refine ⟨.inl hregistry, ⟨k, hsaid, fun e he => hl e (hk.subset he), horder.sublist hk,
    fun _ => hanswer⟩, fun records hrecords => ?_, fun id hid => ?_⟩
  · rw [hpc] at hrecords
    exact nomatch hrecords
  · rw [hanswer] at hid
    exact nomatch hid

/-- Events that no row comes from. -/
theorem turn_quiet (l : List GuiControllerEvent) (hl : ∀ e ∈ l, e.Quiet) (hpc : s.pc = .idle) :
    Turn s a (l.foldl Window.publish s) := by
  have hidle : s = { s with pc := .idle } := by rw [← hpc]
  have hturn : Turn s a (l.foldl Window.publish { s with pc := .idle }) :=
    turn_publishAll l (fun e he => .other (hl e he))
      (List.pairwise_of_forall_mem_list fun e he f hf a ha => by
        rw [(hl f hf).added] at ha
        exact nomatch ha)
  rwa [← hidle] at hturn

/-- The daemon or the controller thread goes on, and nothing is published. -/
theorem turn_goto {r : Registry} {pc : WindowPc}
    (hregistry : r = s.registry ∨
      ∃ b, s.registry.step b = some r ∧ (b = .insert true → a.steady = false))
    (hlisting : ∀ records, pc = .listing records → s.pc = .listing records ∨
      (∃ ratio live, records = listedRows ratio live s.registry.tables) ∨
        records = [] ∧ a.steady = false)
    (hanswer : ∀ id ∈ Window.answer { s with pc := pc }, id ∈ s.answer ∨ id = 0 ∨
      a.steady = false ∧ s.registry.step (.insert true) = some r ∧
        ∃ url dest opts, s.registry.pc = .claimed id url dest opts) :
    Turn s a { s with registry := r, pc := pc } :=
  ⟨hregistry, ⟨[], (List.append_nil _).symm, (fun _ he => nomatch he), .nil,
    fun h => absurd rfl h⟩, hlisting, hanswer⟩

theorem turn_daemon {b : RegistryAct} {r : Registry} (hr : s.registry.step b = some r) :
    Turn s (.daemon b) { s with registry := r, pc := s.afterDaemon b } := by
  refine turn_goto (.inr ⟨b, hr, fun h => by rw [h]; rfl⟩) (fun records h => .inl ?_)
    fun id hid => ?_
  · unfold afterDaemon at h
    split at h
    · exact nomatch h
    · exact nomatch h
    · exact nomatch h
    · exact h
  · unfold afterDaemon at hid
    split at hid
    · rename_i hclaimed
      cases hid
      exact .inr (.inr ⟨rfl, hr, _, _, _, hclaimed⟩)
    · exact nomatch hid
    · exact nomatch hid
    · exact .inl hid

theorem turn_failure (url destPath : CString) :
    Turn s a ({ s with pc := .idle }.publishFailure url destPath) := by
  refine turn_publishAll [_, _] ?_ (List.pairwise_pair.mpr fun a ha => nomatch ha)
  intro e he
  rcases List.mem_pair.mp he with rfl | rfl
  · exact .other rfl
  · exact .other rfl

/-- A step consumes an event, or goes on. -/
theorem step_cases (hs : s.step a = some s') :
    (∃ h : 0 < s.events.count,
      s' = { s with events := s.events.pop h, ui := consumeEvent s.ui s.events.front }) ∨
    Turn s a s' := by
  cases a with
  | daemon b =>
    simp only [Window.step] at hs
    split at hs
    · cases hs
    · obtain ⟨r, hr, rfl⟩ := Option.map_eq_some_iff.mp hs
      exact .inr (turn_daemon hr)
  | list ratio live =>
    simp only [Window.step] at hs
    split at hs
    · cases hs
      refine .inr (turn_goto (.inl rfl) (fun records h => .inr (.inl ⟨ratio, live, ?_⟩))
        fun _ h => by cases h)
      cases h
      rfl
    · cases hs
  | listNone =>
    simp only [Window.step] at hs
    split at hs
    · cases hs
      refine .inr (turn_goto (.inl rfl) (fun records h => .inr (.inr ⟨?_, rfl⟩))
        fun _ h => by cases h)
      cases h
      rfl
    · cases hs
  | publishSnapshot =>
    simp only [Window.step] at hs
    split at hs
    · rename_i records hpc
      cases hs
      refine .inr (turn_publishAll [_] ?_ (List.pairwise_singleton _ _))
      intro e he
      rw [List.mem_singleton.mp he]
      exact .snapshot records hpc rfl
    · cases hs
  | clientEvent e =>
    simp only [Window.step] at hs
    split at hs
    · rename_i hpc
      cases hs
      refine .inr ?_
      cases e <;> exact turn_quiet [_] (List.forall_mem_singleton.mpr rfl) hpc
    · cases hs
  | operate operation id hid succeeded =>
    simp only [Window.step] at hs
    split at hs
    · cases hs
    · rename_i operation _ _ hpc hadd
      -- An add has steps of its own; the other commands add no row.
      have hquiet : (GuiControllerEvent.operation operation id [] [] succeeded hid).Quiet := by
        cases operation with
        | add => exact (hadd rfl).elim
        | pause => rfl
        | resume => rfl
        | cancel => rfl
      cases hs
      refine .inr ?_
      split_ifs
      · exact turn_quiet [_] (List.forall_mem_singleton.mpr hquiet) hpc
      · refine turn_quiet [_, _] (List.forall_mem_cons.mpr ⟨hquiet, ?_⟩) hpc
        exact List.forall_mem_singleton.mpr rfl
    · cases hs
  | details id found =>
    simp only [Window.step] at hs
    split at hs
    · rename_i hpc
      cases hs
      refine .inr ?_
      split_ifs
      · exact turn_quiet [_] (List.forall_mem_singleton.mpr rfl) hpc
      · refine turn_quiet [_, _] (List.forall_mem_cons.mpr ⟨rfl, ?_⟩) hpc
        exact List.forall_mem_singleton.mpr rfl
    · cases hs
  | add url destPath =>
    simp only [Window.step] at hs
    split at hs
    · cases hs
      exact .inr (turn_goto (.inl rfl) (fun _ h => by cases h) fun _ h => by cases h)
    · cases hs
  | serve path opts =>
    have hserve (url destPath : CString) {r : Registry}
        (hr : s.registry.step (.add url path opts) = some r) : Turn s (.serve path opts)
          { s with registry := r, pc := .adding url destPath .serving } :=
      turn_goto (.inr ⟨_, hr, fun h => by cases h⟩) (fun _ h => by cases h) fun _ h => by cases h
    simp only [Window.step] at hs
    split at hs
    · obtain ⟨r, hr, rfl⟩ := Option.map_eq_some_iff.mp hs
      exact .inr (hserve _ _ hr)
    · obtain ⟨r, hr, rfl⟩ := Option.map_eq_some_iff.mp hs
      exact .inr (hserve _ _ hr)
    · cases hs
  | refuse =>
    have hzero (url destPath : CString) : Turn s .refuse
        { s with pc := .adding url destPath (.answered 0) } :=
      turn_goto (.inl rfl) (fun _ h => by cases h)
        fun id hid => .inr (.inl (Option.some.inj hid).symm)
    simp only [Window.step] at hs
    split at hs
    · cases hs
      exact .inr (hzero _ _)
    · cases hs
      exact .inr (hzero _ _)
    · cases hs
  | receive =>
    simp only [Window.step] at hs
    split at hs
    · rename_i url destPath id hpc
      cases hs
      refine .inr ?_
      split_ifs with hne
      · -- The identifier 0 is a refusal.
        exact turn_failure url destPath
      · refine turn_publishAll [_] ?_ (List.pairwise_singleton _ _)
        intro e he
        rw [List.mem_singleton.mp he]
        exact .added id (by rw [Window.answer, hpc]; rfl) hne rfl rfl
    · cases hs
  | fail =>
    simp only [Window.step] at hs
    split at hs
    · cases hs
      exact .inr (turn_failure _ _)
    · cases hs
      exact .inr (turn_publishAll [] (by simp) .nil)
    · cases hs
  | consume =>
    simp only [Window.step] at hs
    split_ifs at hs with hcount
    cases hs
    exact .inl ⟨hcount, rfl⟩

theorem issued_le_of_step (hs : s.step a = some s') : s.registry.issued ≤ s'.registry.issued := by
  rcases step_cases hs with ⟨_, rfl⟩ | ht
  · exact le_rfl
  · exact ht.issued_le

/-! ## The invariant -/

structure Inv (s : Window) : Prop where
  registry : RegistryInv s.registry
  ahead : s.registry.Ahead
  stored : ∀ e ∈ s.said, ∀ id : ℕ, id ∈ e.ids → (id : ℤ) ∈ s.registry.storedIds
  sorted : ∀ e ∈ s.said, e.ids.Pairwise (· > ·)
  order : s.said.Pairwise Precedes
  listing : ∀ records, s.pc = .listing records →
    (∀ id : ℕ, id ∈ records.map (·.id) → (id : ℤ) ∈ s.registry.storedIds) ∧
      (records.map (·.id)).Pairwise (· > ·)
  answer : ∀ id ∈ s.answer, id ≠ 0 → id < 2 ^ 31 ∧ (id : ℤ) ∈ s.registry.storedIds ∧
    ∀ e ∈ s.said, ∀ b ∈ e.ids, b < id

/-- What is published is stored, and what is added by it is above all rows. -/
theorem Inv.published (h : s.Inv) {e : GuiControllerEvent} (he : s.Publishes e) :
    (∀ id : ℕ, id ∈ e.ids → (id : ℤ) ∈ s.registry.storedIds) ∧ e.ids.Pairwise (· > ·) ∧
      ∀ f ∈ s.said, Precedes f e := by
  cases he with
  | snapshot records hpc he =>
    obtain ⟨hstored, hsorted⟩ := h.listing records hpc
    have hsub : ((records.take guiControllerMaxRows).map (·.id)).Sublist (records.map (·.id)) :=
      (List.take_sublist _ _).map _
    rw [he]
    exact ⟨fun id hid => hstored id (hsub.subset hid), hsorted.sublist hsub,
      fun f _ a ha => nomatch ha⟩
  | added id hid hne he hids =>
    have hpos : id ≠ 0 := fun h0 => hne (by rw [h0]; rfl)
    obtain ⟨hlt, hstored, habove⟩ := h.answer id hid hpos
    rw [Nat.mod_eq_of_lt (by omega)] at he hids
    rw [hids]
    refine ⟨fun n hn => ?_, List.pairwise_singleton _ _, fun f hf a ha b hb => ?_⟩
    · rw [List.mem_singleton.mp hn]
      exact hstored
    · rw [he] at ha
      rw [List.mem_singleton.mp ha]
      exact habove f hf b hb
  | other he =>
    rw [he.ids]
    refine ⟨fun id hid => (nomatch hid), .nil, fun f _ a ha => ?_⟩
    rw [he.added] at ha
    exact nomatch ha

/-- After the first event, every row comes from a row that was there, or from the event. -/
theorem Inv.rows_consume (h : s.Inv) (hcount : 0 < s.events.count) :
    (∀ id ∈ (consumeEvent s.ui s.events.front).model.ids,
        id ∈ s.ui.model.ids ∨ id ∈ s.events.front.ids) ∧
      (consumeEvent s.ui s.events.front).model.ids.Pairwise (· > ·) := by
  have hsaid : s.said = .snapshot s.ui.model.rows :: s.events.front ::
      (s.events.pop hcount).contents := by
    rw [said, RingBuffer.contents_pop hcount]
  have hrows : s.ui.model.ids.Pairwise (· > ·) :=
    h.sorted (.snapshot s.ui.model.rows) (by simp [said])
  have hfront : s.events.front.ids.Pairwise (· > ·) := h.sorted s.events.front (by simp [hsaid])
  rcases ids_consumeEvent s.ui s.events.front with hids | ⟨records, hrecords, hids⟩ |
    ⟨id, hadded, hfrontIds, hids⟩
  · rw [hids]
    exact ⟨fun id hid => .inl hid, hrows⟩
  · have hlist : s.events.front.ids = records.map (·.id) := by
      rw [hrecords]
      rfl
    have hsub : ((records.take guiModelMaxRows).map (·.id)).Sublist s.events.front.ids := by
      rw [hlist]
      exact (List.take_sublist _ _).map _
    rw [hids]
    exact ⟨fun id hid => .inr (hsub.subset hid), hfront.sublist hsub⟩
  · -- The download added is above all rows.
    have habove : Precedes (.snapshot s.ui.model.rows) s.events.front :=
      List.rel_of_pairwise_cons (hsaid ▸ h.order) List.mem_cons_self
    rw [hids]
    refine ⟨fun n hn => ?_, List.pairwise_cons.mpr ⟨fun n hn => ?_, hrows⟩⟩
    · rcases List.mem_cons.mp hn with rfl | hn
      · exact .inr (hfrontIds ▸ List.mem_singleton_self _)
      · exact .inl hn
    · exact habove id (hadded ▸ List.mem_singleton_self _) n hn

/-- Consuming the first event. -/
theorem Inv.consume (h : s.Inv) (hcount : 0 < s.events.count) :
    Inv { s with events := s.events.pop hcount, ui := consumeEvent s.ui s.events.front } := by
  have hsaid : s.said = .snapshot s.ui.model.rows :: s.events.front ::
      (s.events.pop hcount).contents := by
    rw [said, RingBuffer.contents_pop hcount]
  obtain ⟨hfrom, hsorted⟩ := h.rows_consume hcount
  obtain ⟨hbefore, hbehind⟩ := List.pairwise_cons.mp (hsaid ▸ h.order)
  obtain ⟨hfront, hrest⟩ := List.pairwise_cons.mp hbehind
  have hkept {e : GuiControllerEvent} (he : e ∈ (s.events.pop hcount).contents) : e ∈ s.said := by
    rw [hsaid]
    exact List.mem_cons_of_mem _ (List.mem_cons_of_mem _ he)
  have hnew (id : ℕ)
      (hid : id ∈ (GuiControllerEvent.snapshot (consumeEvent s.ui s.events.front).model.rows).ids) :
      ∃ e ∈ s.said, id ∈ e.ids ∧ ∀ f ∈ (s.events.pop hcount).contents, Precedes e f := by
    rcases hfrom id hid with hid | hid
    · exact ⟨.snapshot s.ui.model.rows, by simp [hsaid], hid,
        fun f hf => hbefore f (List.mem_cons_of_mem _ hf)⟩
    · exact ⟨_, by simp [hsaid], hid, hfront⟩
  refine ⟨h.registry, h.ahead, ?_, ?_, ?_, h.listing, fun id hid hne => ?_⟩
  · intro e he id hid
    rcases List.mem_cons.mp he with rfl | he
    · obtain ⟨f, hf, hidf, -⟩ := hnew id hid
      exact h.stored f hf id hidf
    · exact h.stored e (hkept he) id hid
  · intro e he
    rcases List.mem_cons.mp he with rfl | he
    · exact hsorted
    · exact h.sorted e (hkept he)
  · refine List.pairwise_cons.mpr ⟨fun f hf a ha b hb => ?_, hrest⟩
    obtain ⟨e, -, hbe, hprecedes⟩ := hnew b hb
    exact hprecedes f hf a ha b hbe
  · obtain ⟨hlt, hstored, habove⟩ := h.answer id hid hne
    refine ⟨hlt, hstored, fun e he b hb => ?_⟩
    rcases List.mem_cons.mp he with rfl | he
    · obtain ⟨f, hf, hbf, -⟩ := hnew b hb
      exact habove f hf b hbf
    · exact habove e (hkept he) b hb

/-- The daemon goes on: what is stored stays. -/
theorem Inv.registry_turn (h : s.Inv) (ht : Turn s a s')
    (hissued : s'.registry.issued ≤ 2 ^ 31 - 1) :
    RegistryInv s'.registry ∧ s'.registry.Ahead ∧
      ∀ n ∈ s.registry.storedIds, n ∈ s'.registry.storedIds := by
  rcases ht.registry with hr | ⟨b, hb, -⟩
  · rw [hr]
    exact ⟨h.registry, h.ahead, fun n hn => hn⟩
  · have hold := Registry.issued_le_of_step hb
    have hle : s.registry.nextId ≤ 2 ^ 31 := by
      have := h.registry.le
      omega
    refine ⟨RegistryInv.step (fun _ => h.registry) hb hissued, h.ahead.step h.registry hle hb,
      fun n hn => ?_⟩
    rcases Registry.storedIds_of_step h.registry hle hb with hids | ⟨_, _, _, _, -, -, hids⟩
    · rwa [hids]
    · rw [hids]
      exact List.mem_append_left _ hn

/-- An identifier inserted is stored from then on, and above all rows there are. -/
theorem Inv.inserted (h : s.Inv) {r : Registry} {id : ℕ} {url dest : CString}
    {opts : RequestOptions} (hs : s.registry.step (.insert true) = some r)
    (hissued : r.issued ≤ 2 ^ 31 - 1)
    (hpc : s.registry.pc = .claimed id url dest opts) :
    id < 2 ^ 31 ∧ (id : ℤ) ∈ r.storedIds ∧ ∀ e ∈ s.said, ∀ b ∈ e.ids, b < id := by
  have hold := Registry.issued_le_of_step hs
  have hle := h.registry.le
  have hreserved : id ∈ s.registry.pc.id? := by rw [hpc]; rfl
  have hlt := (h.registry.pc_lt id hreserved).2
  refine ⟨by omega, ?_, fun e he b hb => ?_⟩
  · rw [Registry.storedIds_insert h.registry (by omega) hpc hs]
    exact List.mem_append_right _ (List.mem_singleton_self _)
  · exact_mod_cast h.ahead id hreserved b (h.stored e he b hb)

theorem Inv.turn (h : s.Inv) (ht : Turn s a s') (hissued : s'.registry.issued ≤ 2 ^ 31 - 1) :
    s'.Inv := by
  obtain ⟨hregistry, hahead, hgrown⟩ := h.registry_turn ht hissued
  obtain ⟨l, hsaid, hl, horder, hbusy⟩ := ht.said
  refine ⟨hregistry, hahead, ?_, ?_, ?_, fun records hrecords => ?_, fun id hid hne => ?_⟩
  · rw [hsaid]
    intro e he id hid
    rcases List.mem_append.mp he with he | he
    · exact hgrown _ (h.stored e he id hid)
    · exact hgrown _ ((h.published (hl e he)).1 id hid)
  · rw [hsaid]
    intro e he
    rcases List.mem_append.mp he with he | he
    · exact h.sorted e he
    · exact (h.published (hl e he)).2.1
  · rw [hsaid, List.pairwise_append]
    exact ⟨h.order, horder, fun f hf e he => (h.published (hl e he)).2.2 f hf⟩
  · rcases ht.listing records hrecords with hpc | ⟨ratio, live, rfl⟩ | ⟨rfl, -⟩
    · obtain ⟨hstored, hsorted⟩ := h.listing records hpc
      exact ⟨fun id hid => hgrown _ (hstored id hid), hsorted⟩
    · have hle := h.registry.le
      have hold := ht.issued_le
      obtain ⟨hsorted, hstored⟩ := Registry.listedIds_spec h.registry (by omega)
      rw [Registry.map_id_listedRows]
      exact ⟨fun id hid => hgrown _ (hstored id hid), hsorted⟩
    · exact ⟨fun id hid => (nomatch hid), .nil⟩
  · -- The controller thread publishes nothing while it has an answer.
    have hnil : l = [] := by
      by_contra hl
      rw [hbusy hl] at hid
      exact nomatch hid
    rw [hsaid, hnil, List.append_nil]
    rcases ht.answer id hid with hanswer | hzero | ⟨-, hs, url, dest, opts, hpc⟩
    · obtain ⟨hlt, hstored, habove⟩ := h.answer id hanswer hne
      exact ⟨hlt, hgrown _ hstored, habove⟩
    · exact absurd hzero hne
    · exact h.inserted hs hissued hpc

theorem Inv.step (h : s.Inv) (hs : s.step a = some s') (hissued : s'.registry.issued ≤ 2 ^ 31 - 1) :
    s'.Inv := by
  rcases step_cases hs with ⟨hcount, rfl⟩ | ht
  · exact h.consume hcount
  · exact h.turn ht hissued

theorem IsInit.inv (h : s.IsInit) (hissued : s.registry.issued ≤ 2 ^ 31 - 1) : s.Inv := by
  have hregistry := RegistryInv.of_reachable h.registry hissued
  have hle := hregistry.le
  obtain ⟨hsorted, hstored⟩ := Registry.listedIds_spec hregistry (by omega)
  have hsaid : s.said = [.snapshot s.ui.model.rows] := by rw [said, h.events]
  have hrows : s.ui.model.ids.Sublist s.registry.listedIds := by
    rcases h.rows with hnil | ⟨ratio, live, hlist⟩
    · rw [GuiModel.ids, hnil]
      exact List.nil_sublist _
    · rw [hlist, GuiModel.ids_applySnapshot, List.map_take, Registry.map_id_listedRows]
      exact List.take_sublist _ _
  refine ⟨hregistry, Registry.ahead_of_reachable h.registry hissued, ?_, ?_, ?_,
    fun records hrecords => ?_, fun id hid => ?_⟩
  · rw [hsaid, List.forall_mem_singleton]
    exact fun id hid => hstored id (hrows.subset hid)
  · rw [hsaid, List.forall_mem_singleton]
    exact hsorted.sublist hrows
  · rw [hsaid]
    exact List.pairwise_singleton _ _
  · rw [h.pc] at hrecords
    exact nomatch hrecords
  · rw [Window.answer, h.pc] at hid
    exact nomatch hid

theorem Inv.of_reachable (hs : Run.Reachable Window.step IsInit (fun _ _ => True) s) :
    s.registry.issued ≤ 2 ^ 31 - 1 → s.Inv := by
  refine hs.invariant (I := fun s => s.registry.issued ≤ 2 ^ 31 - 1 → s.Inv)
    (fun _ h => h.inv) fun s a s' ih _ hs hissued => ?_
  exact (ih ((issued_le_of_step hs).trans hissued)).step hs hissued

/-! ## After a list -/

/-- The list is that of `ids` whenever it is asked for, and nothing has been added. -/
structure Settled (ids : List ℕ) (s : Window) : Prop where
  listed : s.registry.listedIds = ids
  listing : ∀ records, s.pc = .listing records → records.map (·.id) = ids
  answer : ∀ id ∈ s.answer, id = 0

/-- An event that leaves the rows as they are. -/
def Keeps (ids : List ℕ) (e : GuiControllerEvent) : Prop :=
  e.Quiet ∨ ∃ records, e = .snapshot records ∧ records.map (·.id) = ids

/-- A list of `ids` is shown or is to be, and the events behind it leave its rows as they are. -/
def Shows (ids : List ℕ) (s : Window) : Prop :=
  ∃ before records behind, s.said = before ++ .snapshot records :: behind ∧
    records.map (·.id) = ids ∧ ∀ e ∈ behind, Keeps ids e

variable {ids : List ℕ}

theorem Settled.length_le (h : Settled ids s) : ids.length ≤ 200 :=
  h.listed ▸ Registry.length_listedIds_le

theorem Settled.turn (h : Settled ids s) (ht : Turn s a s') (ha : a.steady = true) :
    Settled ids s' := by
  refine ⟨?_, fun records hrecords => ?_, fun id hid => ?_⟩
  · rcases ht.registry with hr | ⟨b, hb, hinsert⟩
    · rw [hr]
      exact h.listed
    · have hne : b ≠ .insert true := fun hb => by
        rw [hinsert hb] at ha
        exact nomatch ha
      rw [Registry.listedIds_eq, Registry.storedIds_of_step_ne hne hb, ← Registry.listedIds_eq]
      exact h.listed
  · rcases ht.listing records hrecords with hpc | ⟨ratio, live, rfl⟩ | ⟨-, hsteady⟩
    · exact h.listing records hpc
    · rw [Registry.map_id_listedRows]
      exact h.listed
    · rw [hsteady] at ha
      exact nomatch ha
  · rcases ht.answer id hid with hanswer | hzero | ⟨hinsert, -⟩
    · exact h.answer id hanswer
    · exact hzero
    · rw [hinsert] at ha
      exact nomatch ha

theorem Settled.keeps (h : Settled ids s) {e : GuiControllerEvent} (he : s.Publishes e) :
    Keeps ids e := by
  cases he with
  | snapshot records hpc he =>
    have hlist := h.listing records hpc
    have hlength := h.length_le
    refine .inr ⟨_, he, ?_⟩
    rw [List.map_take, hlist, List.take_of_length_le (hlength.trans (by decide))]
  | added id hid hne => exact absurd (by rw [h.answer id hid]; rfl) hne
  | other he => exact .inl he

/-- The rows after an event that leaves them as they are. -/
theorem Keeps.ids_consumeEvent {e : GuiControllerEvent} (h : Keeps ids e)
    (hlength : ids.length ≤ 200) {ui : UiState} (hui : ui.model.ids = ids) :
    (consumeEvent ui e).model.ids = ids := by
  rcases h with hquiet | ⟨records, rfl, hrecords⟩
  · rcases Cdm.ids_consumeEvent ui e with hids | ⟨records, rfl, -⟩ | ⟨id, hadded, -, -⟩
    · rw [hids, hui]
    · exact hquiet.elim
    · rw [hquiet.added] at hadded
      exact nomatch hadded
  · rw [ids_consumeEvent_snapshot, hrecords, List.take_of_length_le (hlength.trans (by decide))]

theorem Shows.consume (h : Shows ids s) (hlength : ids.length ≤ 200) (hcount : 0 < s.events.count) :
    Shows ids { s with events := s.events.pop hcount, ui := consumeEvent s.ui s.events.front } := by
  have hsaid : s.said = .snapshot s.ui.model.rows :: s.events.front ::
      (s.events.pop hcount).contents := by
    rw [said, RingBuffer.contents_pop hcount]
  obtain ⟨before, records, behind, hlist, hrecords, hbehind⟩ := h
  rw [hsaid] at hlist
  match before with
  | [] =>
    -- The list is shown, and the event leaves its rows as they are.
    obtain ⟨hrows, rfl⟩ := List.cons.inj hlist
    obtain ⟨hfront, hrest⟩ := List.forall_mem_cons.mp hbehind
    have hids : s.ui.model.ids = ids := by
      rw [← hrecords, ← GuiControllerEvent.snapshot.inj hrows]
      rfl
    exact ⟨[], _, _, rfl, hfront.ids_consumeEvent hlength hids, hrest⟩
  | [_] =>
    -- The event is the list.
    obtain ⟨hfront, rfl⟩ := List.cons.inj (List.cons.inj hlist).2
    refine ⟨[], _, _, rfl, ?_, hbehind⟩
    show (consumeEvent s.ui s.events.front).model.ids = ids
    rw [hfront, ids_consumeEvent_snapshot, hrecords,
      List.take_of_length_le (hlength.trans (by decide))]
  | _ :: _ :: before =>
    refine ⟨.snapshot (consumeEvent s.ui s.events.front).model.rows :: before, records, behind, ?_,
      hrecords, hbehind⟩
    rw [said, (List.cons.inj (List.cons.inj hlist).2).2]
    rfl

theorem Shows.turn (h : Shows ids s) (hsettled : Settled ids s) (ht : Turn s a s') :
    Shows ids s' := by
  obtain ⟨before, records, behind, hlist, hrecords, hbehind⟩ := h
  obtain ⟨l, hsaid, hl, -⟩ := ht.said
  refine ⟨before, records, behind ++ l, ?_, hrecords, fun e he => ?_⟩
  · rw [hsaid, hlist, List.append_assoc]
    rfl
  · rcases List.mem_append.mp he with he | he
    · exact hbehind e he
    · exact hsettled.keeps (hl e he)

theorem Settled.step (h : Settled ids s) (ha : a.steady = true) (hs : s.step a = some s') :
    Settled ids s' := by
  rcases step_cases hs with ⟨hcount, rfl⟩ | ht
  · exact ⟨h.listed, h.listing, h.answer⟩
  · exact h.turn ht ha

theorem Shows.step (h : Shows ids s) (hsettled : Settled ids s) (hs : s.step a = some s') :
    Shows ids s' := by
  rcases step_cases hs with ⟨hcount, rfl⟩ | ht
  · exact h.consume hsettled.length_le hcount
  · exact h.turn hsettled ht

end Window

end Cdm
