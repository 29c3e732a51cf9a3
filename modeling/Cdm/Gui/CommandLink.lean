import Cdm.Gui.Rows
import Cdm.Platform.Requests

/-!
# The command connection

The connection on which the window sends its commands and reads their answers (`g_cmd_fd` of
`gui/gui_client.c`), with the controller thread and the daemon at its ends. A call that fails
closes the connection, and the next one opens it again; but details that do not come in time leave
it open (`gui_client_get_details`), and the next call reads what is left of them.

The settings are saved by the other thread, on the same connection; that it does not do so while a
command waits for its answer is taken for granted. A request is written as a whole. The flag that
says whether there is a connection is left to `Cdm.Gui.ConnectionEvents`.

That every call reads its own answer, and when, is in `Cdm.Gui.AnswersInStep`.
-/

namespace Cdm

open Wire

/-! ## The calls -/

/-- A call of the client that waits for an answer. -/
inductive GuiCall
  | addDownload (url destPath : CString)
  | command (c : Command) (id : ℕ) (hid : id < 256 ^ 4)
  | getDetails (id : ℕ)
  | listAll
  | reloadConfig

def Command.operation : Command → GuiControllerOperation
  | .pause => .pause
  | .resume => .resume
  | .cancel => .cancel

namespace GuiCall

/-- What the answer is read as. -/
abbrev Reply : GuiCall → Type
  | addDownload _ _ => ℕ
  | command _ _ _ => Bool
  | getDetails _ => Option IpcDownloadDetails
  | listAll => Option (List DownloadListRecord)
  | reloadConfig => Bool

/-- The options of an add are of no consequence here. -/
def client : (c : GuiCall) → Prog Char c.Reply
  | addDownload url destPath => ipcSendAddDownload (fun _ => none) url destPath none
  | command c id _ => ipcSendCommand c id
  | getDetails id => ipcSendGetDetails id
  | listAll => guiClientListAll
  | reloadConfig => ipcSendReloadConfig

/-- What a call comes to that could not be sent, or whose answer has not come. -/
def failure : (c : GuiCall) → c.Reply
  | addDownload _ _ => (0 : ℕ)
  | command _ _ _ => false
  | getDetails _ => none
  | listAll => none
  | reloadConfig => false

/-- `send_with_retry` makes another attempt. -/
def retry : (c : GuiCall) → c.Reply → Bool
  | command _ _ _, succeeded => !succeeded
  | reloadConfig, succeeded => !succeeded
  | _, _ => false

/-- The connection is closed on an answer that is a failure. -/
def closes : (c : GuiCall) → c.Reply → Bool
  | addDownload _ _, id => (id : ℕ) = 0
  | c, reply => c.retry reply

/-- The connection is left open without an answer. -/
def lenient : GuiCall → Bool
  | getDetails _ => true
  | _ => false

/-- What the controller thread publishes at the end of a call. -/
def events : (c : GuiCall) → c.Reply → List GuiControllerEvent
  | addDownload url destPath, id =>
    if (id : ℕ) % 256 ^ 4 = 0 then
      [.operation .add 0 (strncpy ipcMaxUrlLen url) (strncpy ipcMaxPathLen destPath) false
        (Nat.two_pow_pos 32), .error "Download could not be added".toList]
    else
      [.operation .add ((id : ℕ) % 256 ^ 4) (strncpy ipcMaxUrlLen url)
        (strncpy ipcMaxPathLen destPath) true (Nat.mod_lt _ (Nat.two_pow_pos 32))]
  | command c id hid, succeeded =>
    .operation c.operation id [] [] succeeded hid ::
      if succeeded = true then [] else [.error "Download operation failed".toList]
  | getDetails id, details =>
    .details id details.isSome ::
      if details.isSome = true then [] else [.error "Download details are unavailable".toList]
  | listAll, some records => [.snapshot (records.take guiControllerMaxRows)]
  | listAll, none => []
  | reloadConfig, _ => []

end GuiCall

/-- What `publish_client_events` makes of an event of the client. -/
def GuiClientEvent.published : GuiClientEvent → GuiControllerEvent
  | .statusUpdate id progress status => .status id (strncpy 16 status) progress.toBitVec
  | .connectionLost => .connection false
  | .connectionRestored => .connection true

/-! ## The connection -/

/-- An open connection. -/
structure CommandLink where
  /-- The daemon has not closed it. -/
  alive : Bool
  /-- The calls the daemon has yet to answer. -/
  asked : List GuiCall
  /-- The first of them is an add, and the daemon is reserving its download. -/
  serving : Bool
  /-- What the daemon has written and the window has not read. -/
  unread : List Char

namespace CommandLink

/-- Sending a request, on a new connection if there is none; a write to a daemon that has closed
    the connection fails. -/
def send (link : Option CommandLink) (c : GuiCall) : Option CommandLink :=
  -- The connection is opened by the call itself.
  match link with
  | none => some ⟨true, [c], false, []⟩
  | some l => if l.alive = true then some { l with asked := l.asked ++ [c] } else none

/-- The daemon answers the first request. -/
def answer (l : CommandLink) (r : Response) : CommandLink :=
  { l with asked := l.asked.tail, serving := false, unread := l.unread ++ r.bytes }

/-- The daemon closes the connection, or is gone; what it has written can still be read. -/
def cut (l : CommandLink) : CommandLink :=
  { l with alive := false, asked := [], serving := false }

/-- The connection after a step of the daemon, which was at `pc`: an insertion answers the request
    that is being served, and a start of the daemon loses all requests. -/
def afterDaemon (l : CommandLink) (pc : ReservePc) (a : RegistryAct) : CommandLink :=
  match a, pc with
  | .restart, _ => l.cut
  | .insert true, .claimed id _ _ _ => if l.serving = true then l.answer (.id id) else l
  | _, _ => l

end CommandLink

/-! ## The window -/

/-- Where the thread that makes the calls is. -/
inductive GuiPc
  | idle
  /-- About to send; another attempt may follow. -/
  | calling (c : GuiCall) (again : Bool)
  /-- Waiting for the answer. -/
  | waiting (c : GuiCall) (again : Bool)

structure Gui where
  registry : Registry
  link : Option CommandLink
  pc : GuiPc
  events : ControllerQueue
  ui : UiState

inductive GuiAct
  /-- A step of the daemon, for this client or another one, or of a thread of the daemon. -/
  | daemon (a : RegistryAct)
  /-- The daemon makes an attempt to reserve the download of an add, at a path. -/
  | serve (destPath : CString) (opts : RequestOptions)
  /-- The daemon refuses the add. -/
  | refuse
  /-- The daemon lists the downloads; `live` is what it knows of them when it sends their rows. -/
  | list (ratio : ℕ → ℕ → BitVec 32) (live : Store)
  /-- The database does not count its rows, and the daemon lists none. -/
  | listNone
  | details
  | result (r : IpcResult)
  /-- The daemon closes the connection. -/
  | lose
  | call (c : GuiCall)
  | send
  /-- The window cannot connect, or cannot write. -/
  | sendFails
  /-- The window reads the answer. -/
  | receive
  /-- It gives up, having read all of the `n` bytes that have come. -/
  | giveUp (n : ℕ)
  | clientEvent (e : GuiClientEvent)
  | consume

/-- The step stores no download, and the database does not fail. -/
def GuiAct.steady : GuiAct → Bool
  | .daemon (.insert true) | .listNone => false
  | _ => true

namespace Gui

/-- The end of an attempt: another one follows, or the call is over. -/
def finish (s : Gui) (c : GuiCall) (again : Bool) (link : Option CommandLink) (reply : c.Reply) :
    Gui :=
  if again = true ∧ c.retry reply = true then { s with link := link, pc := .calling c false }
  else { s with
    link := link, pc := .idle, events := (c.events reply).foldl guiControllerPublish s.events }

def step (s : Gui) : GuiAct → Option Gui
  | .daemon a =>
    match s.link, a with
    -- The daemon serves one request at a time.
    | some ⟨_, _, true, _⟩, .add .. => none
    | _, _ => (s.registry.step a).map fun r => { s with
        registry := r, link := s.link.map fun l => l.afterDaemon s.registry.pc a }
  | .serve path opts =>
    match s.link with
    | some ⟨alive, .addDownload url destPath :: asked, _, unread⟩ =>
      (s.registry.step (.add url path opts)).map fun r => { s with
        registry := r, link := some ⟨alive, .addDownload url destPath :: asked, true, unread⟩ }
    | _ => none
  | .refuse =>
    match s.link with
    | some ⟨alive, .addDownload url destPath :: asked, serving, unread⟩ => some { s with
        link := some (CommandLink.answer ⟨alive, .addDownload url destPath :: asked, serving, unread⟩
          (.id 0)) }
    | _ => none
  | .list ratio live =>
    match s.link with
    | some ⟨alive, .listAll :: asked, serving, unread⟩ => some { s with
        link := some (CommandLink.answer ⟨alive, .listAll :: asked, serving, unread⟩
          (.rows (listedRows ratio live s.registry.tables))) }
    | _ => none
  | .listNone =>
    match s.link with
    | some ⟨alive, .listAll :: asked, serving, unread⟩ => some { s with
        link := some (CommandLink.answer ⟨alive, .listAll :: asked, serving, unread⟩ (.rows [])) }
    | _ => none
  | .details =>
    match s.link with
    | some ⟨alive, .getDetails id :: asked, serving, unread⟩ => some { s with
        link := some (CommandLink.answer ⟨alive, .getDetails id :: asked, serving, unread⟩
          (.details (s.registry.tables.dbGetDownloadDetails id))) }
    | _ => none
  | .result r =>
    match s.link with
    | some ⟨alive, .command c id hid :: asked, serving, unread⟩ => some { s with
        link := some (CommandLink.answer ⟨alive, .command c id hid :: asked, serving, unread⟩
          (.result r)) }
    | some ⟨alive, .reloadConfig :: asked, serving, unread⟩ => some { s with
        link := some (CommandLink.answer ⟨alive, .reloadConfig :: asked, serving, unread⟩
          (.result r)) }
    | _ => none
  | .lose =>
    match s.link with
    | some ⟨alive, asked, false, unread⟩ => some { s with
        link := some (CommandLink.cut ⟨alive, asked, false, unread⟩) }
    | _ => none
  | .call c =>
    match s.pc with
    | .idle => some { s with pc := .calling c true }
    | _ => none
  | .send =>
    match s.pc with
    | .calling c again =>
      (CommandLink.send s.link c).map fun l => { s with link := some l, pc := .waiting c again }
    | _ => none
  | .sendFails =>
    match s.pc with
    | .calling c again =>
      some (s.finish c again (if c.lenient = true then s.link else none) c.failure)
    | _ => none
  | .receive =>
    match s.pc, s.link with
    | .waiting c again, some l =>
      if c.client.fed l.unread = true then
        let r := c.client.run l.unread
        some (s.finish c again
          (if c.closes r.value = true then none else some { l with unread := r.rest }) r.value)
      else none
    | _, _ => none
  | .giveUp n =>
    match s.pc, s.link with
    | .waiting c again, some l =>
      if c.client.fed (l.unread.take n) = true then none
      else
        some (s.finish c again
          -- What has been read of the answer is gone, and the rest of it may still come.
          (if c.lenient = true then some { l with unread := l.unread.drop n } else none) c.failure)
    | _, _ => none
  | .clientEvent e =>
    match s.pc with
    -- The settings are saved by the other thread.
    | .idle | .calling .reloadConfig _ | .waiting .reloadConfig _ => some { s with
        events := guiControllerPublish s.events e.published }
    | _ => none
  | .consume =>
    if h : 0 < s.events.count then
      some { s with events := s.events.pop h, ui := consumeEvent s.ui s.events.front }
    else none

/-- The connection is not open, or nothing is on it. -/
def Quiet (link : Option CommandLink) : Prop :=
  ∀ l ∈ link, l.asked = [] ∧ l.serving = false ∧ l.unread = []

/-- The window has just been opened, on any daemon; it has the list, or no rows. -/
structure IsInit (s : Gui) : Prop where
  registry : Run.Reachable Registry.step Registry.IsInit (fun _ _ => True) s.registry
  link : Quiet s.link
  pc : s.pc = .idle
  events : s.events.contents = []
  rows : s.ui.model.rows = [] ∨
    ∃ ratio live, s.ui.model = .applySnapshot (listedRows ratio live s.registry.tables)

/-- Details are not given up while they may still come. -/
def Punctual (s : Gui) : GuiAct → Prop
  | .giveUp n =>
    match s.pc, s.link with
    | .waiting (.getDetails _) _, some l => l.asked = [] ∧ l.unread.length ≤ n
    | _, _ => True
  | _ => True

end Gui

end Cdm
