import Cdm.Lib.Run
import Cdm.Platform.Server

/-!
# The poll loop

`ipc_server_poll` of `platform/ipc_socket.c`, as a sequence of steps: the daemon thread
takes a new client in, and goes through the table of the clients with an index, which it
keeps from one access of the table to the next without the mutex. Other threads broadcast
in between, each time in one step under the mutex, and change the queue.

A connection is named by a number of its own. What its client sends is known from the
start (`Conn.stream`); how much of it a read returns, and whether there is anything to
read, is left open. What happens on the connections is recorded beside the state of the
program: the bytes of a header received from each (`Conn.got`), what was dispatched for it
(`Conn.log`), and the headers handed to `handle_message` (`Handled`).
-/

namespace Cdm

open Wire

/-! ## Reading in pieces -/

/-- What a call of `read` returns: it was interrupted, or there are bytes, at least one. -/
inductive ReadOutcome
  | interrupted
  | bytes (more : ℕ)

/-- Reading a number of bytes by calls of `read`; `none` if it is still waiting for the
    next one to return. -/
def ipcReadExact : (calls : List ReadOutcome) → (remaining : ℕ) → List Char →
    Option (Option (List Char) × List Char)
  | _, 0, s => some (some [], s)
  | [], _ + 1, _ => none
  | .interrupted :: calls, n + 1, s => ipcReadExact calls (n + 1) s
  | .bytes more :: calls, n + 1, s =>
    if s = [] then some (none, [])
    else
      let piece := s.take (min (more + 1) (n + 1))
      (ipcReadExact calls (n + 1 - piece.length) (s.drop piece.length)).map fun x =>
        (x.1.map (piece ++ ·), x.2)

/-! ## Connections -/

/-- What was done with a header. -/
inductive Dispatch
  | handled (header : MsgHeader) (payload : List Char)
  | rejected (header : MsgHeader)
  deriving DecidableEq

/-- How a connection was closed. -/
inductive Fate
  | open
  /-- The client had nothing more to send. -/
  | ended
  /-- A header was invalid. -/
  | rejected
  /-- A read failed. -/
  | failed
  /-- A broadcast removed the client, or there was no room for it. -/
  | dropped
  deriving DecidableEq

structure Conn where
  /-- All that the client sends. -/
  stream : List Char
  /-- What has not been read. -/
  pending : List Char
  /-- What was received of the header that is being read. -/
  got : List Char
  /-- What was dispatched. -/
  log : List Dispatch
  fate : Fate
  deriving DecidableEq

/-- A header handed to `handle_message`, with the descriptor `client`; its bytes were
    received from the connection `source`. -/
structure Handled where
  source : ℕ
  client : Option ℕ
  bytes : List Char
  header : MsgHeader
  deriving DecidableEq

/-! ## Steps -/

/-- Where the loop is; `i` is its index, and `fd` the connection it has read from. -/
inductive PollPc
  | idle
  | loop (i : ℕ)
  | ready (i : ℕ)
  /-- The number of bytes that are missing has been computed. -/
  | sized (i remaining : ℕ)
  /-- Bytes are in the buffer, and not counted. -/
  | received (i n fd : ℕ)
  | counted (i fd : ℕ)
  /-- All bytes of a header are there. -/
  | complete (i fd : ℕ)
  /-- The header has been copied. -/
  | copied (i fd : ℕ) (bytes : List Char)
  /-- The count is `0` again; the bytes received were `taken`. -/
  | zeroed (i fd : ℕ) (bytes taken : List Char)
  /-- The client in the slot is to be removed. -/
  | removing (i : ℕ) (fd : Option ℕ) (fate : Fate)
  deriving DecidableEq

structure Poll where
  server : Server
  conns : ℕ → Conn
  /-- The connections made so far, numbered from `0`. -/
  accepted : ℕ
  pc : PollPc
  handled : List Handled

/-- What `recv` returns. -/
inductive RecvOutcome
  /-- Bytes, at least one. -/
  | data (more : ℕ)
  | closed
  /-- Nothing is there yet, or the call was interrupted. -/
  | nothing
  | failed

/-- What the system decides in a step. -/
structure PollChoice where
  /-- A new connection, and what will be sent on it. -/
  connection : Option (List Char)
  /-- The client is in the set `select` has returned. -/
  isSet : Bool
  recv : RecvOutcome
  /-- How the reads of the handler return. -/
  calls : ℕ → List ReadOutcome
  env : ServerEnv

inductive PollAct
  /-- The next step of the loop. -/
  | poll (c : PollChoice)
  /-- Another thread tells the clients about a download. -/
  | broadcast (downloadId : ℕ) (fails : Option ℕ → Bool)
  /-- Another thread changes the queue. -/
  | work (store : Store)

namespace Poll

variable (s : Poll)

/-- The slots of the clients. -/
def slot (i : ℕ) : Slot := s.server.clients.slots i

def withClients (c : Clients) : Poll := { s with server := { s.server with clients := c } }

def modifySlot (i : ℕ) (f : Slot → Slot) : Poll := s.withClients (s.server.clients.modify i f)

def modifyConn (fd : ℕ) (f : Conn → Conn) : Poll :=
  { s with conns := Function.update s.conns fd (f (s.conns fd)) }

@[simp] theorem slot_modifySlot_self {i : ℕ} {f : Slot → Slot} :
    (s.modifySlot i f).slot i = f (s.slot i) := Function.update_self _ _ _

theorem slot_modifySlot_of_ne {i j : ℕ} {f : Slot → Slot} (h : j ≠ i) :
    (s.modifySlot i f).slot j = s.slot j := Function.update_of_ne h _ _

@[simp] theorem slot_modifyConn (fd : ℕ) (f : Conn → Conn) :
    (s.modifyConn fd f).slot = s.slot := rfl

@[simp] theorem conns_modifyConn_self {fd : ℕ} {f : Conn → Conn} :
    (s.modifyConn fd f).conns fd = f (s.conns fd) := Function.update_self _ _ _

theorem conns_modifyConn_of_ne {fd fd' : ℕ} {f : Conn → Conn} (h : fd' ≠ fd) :
    (s.modifyConn fd f).conns fd' = s.conns fd' := Function.update_of_ne h _ _

theorem modifyConn_id (fd : ℕ) : s.modifyConn fd id = s := by
  simp [modifyConn]

/-- Taking a connection in; it is closed at once if there is no room. -/
def accept (stream : List Char) : Poll :=
  { s with
    server := { s.server with clients := s.server.clients.accept s.accepted }
    conns := Function.update s.conns s.accepted
      { stream := stream
        pending := stream
        got := []
        log := []
        fate := if s.server.clients.count < maxClients then .open else .dropped }
    accepted := s.accepted + 1 }

/-- Bytes are stored in the buffer of the slot, behind those counted. -/
def receive (i fd n : ℕ) : Poll :=
  let bytes := (s.conns fd).pending.take n
  { (s.modifySlot i (·.store bytes)).modifyConn fd fun c =>
      { c with pending := c.pending.drop n, got := c.got ++ bytes } with
    pc := .received i bytes.length fd }

/-- Handling a message on a connection: the handler reads its payload, in pieces. -/
def dispatch (c : PollChoice) (i fd : ℕ) (bytes taken : List Char) : Option Poll :=
  let hdr := MsgHeader.ofBytes bytes
  let e : Handled := ⟨fd, (s.slot i).fd, taken, hdr⟩
  match (s.slot i).fd with
  | none => some { s with pc := .loop (i + 1), handled := e :: s.handled }
  | some client =>
    ((c.env.handlers.handleMessage client hdr s.server).runBy ipcReadExact c.calls
      (s.conns client).pending).map fun r =>
        { s.modifyConn client fun x =>
            { x with
              pending := r.rest
              log := x.log ++ [.handled hdr (x.pending.take (x.pending.length - r.rest.length))] } with
          server := r.value
          pc := .loop (i + 1)
          handled := e :: s.handled }

/-- Closing the connection in a slot, and removing its client. -/
def remove (i : ℕ) (fd : Option ℕ) (fate : Fate) : Poll :=
  { s with
    server := { s.server with clients := s.server.clients.removeClient i }
    conns := fun f => if fd = some f then { s.conns f with fate := fate } else s.conns f
    pc := .loop i }

def pollStep (c : PollChoice) : Option Poll :=
  match s.pc with
  | .idle =>
    match c.connection with
    | none => some { s with pc := .loop 0 }
    | some stream => some { s.accept stream with pc := .loop 0 }
  | .loop i =>
    if i < s.server.clients.count then
      some { s with pc := if c.isSet then .ready i else .loop (i + 1) }
    else some { s with pc := .idle }
  | .ready i => some { s with pc := .sized i (MsgHeader.size - (s.slot i).headerBytes) }
  | .sized i remaining =>
    match (s.slot i).fd, c.recv with
    | none, _ => some { s with pc := .removing i none .failed }
    | some fd, .data more =>
      if remaining = 0 then some { s with pc := .removing i (some fd) .failed }
      else if (s.conns fd).pending = [] then none
      else some (s.receive i fd (min (more + 1) remaining))
    | some fd, .closed =>
      if (s.conns fd).pending = [] then some { s with pc := .removing i (some fd) .ended } else none
    | some _, .nothing => some { s with pc := .loop (i + 1) }
    | some fd, .failed => some { s with pc := .removing i (some fd) .failed }
  | .received i n fd =>
    some { s.modifySlot i fun x => { x with headerBytes := x.headerBytes + n } with
      pc := .counted i fd }
  | .counted i fd =>
    some { s with
      pc := if (s.slot i).headerBytes = MsgHeader.size then .complete i fd else .loop (i + 1) }
  | .complete i fd =>
    some { s with pc := .copied i fd ((List.range MsgHeader.size).map (s.slot i).header) }
  | .copied i fd bytes =>
    some { (s.modifySlot i fun x => { x with headerBytes := 0 }).modifyConn fd fun c =>
        { c with got := [] } with
      pc := .zeroed i fd bytes (s.conns fd).got }
  | .zeroed i fd bytes taken =>
    -- The slot `i` is that of another client if a broadcast has removed one before it.
    if validMessageHeader (.ofBytes bytes) then s.dispatch c i fd bytes taken
    else some ((s.modifyConn fd fun x =>
      { x with log := x.log ++ [.rejected (.ofBytes bytes)] }).remove i (some fd) .rejected)
  | .removing i fd fate => some (s.remove i fd fate)

/-- A broadcast; the connections of the clients removed are closed. -/
def broadcast (downloadId : ℕ) (fails : Option ℕ → Bool) : Poll :=
  let c := s.server.clients.ipcBroadcastStatus downloadId fails
  { s.withClients c with
    conns := fun fd =>
      if (∃ i < s.server.clients.count, (s.slot i).fd = some fd) ∧
          ¬∃ i < c.count, (c.slots i).fd = some fd then
        { s.conns fd with fate := .dropped }
      else s.conns fd }

def step : PollAct → Option Poll
  | .poll c => s.pollStep c
  | .broadcast downloadId fails => some (s.broadcast downloadId fails)
  | .work store => some { s with server := { s.server with store := store } }

/-- The daemon has started, and has no clients. -/
def IsInit : Prop := s.server.clients.count = 0 ∧ s.accepted = 0 ∧ s.pc = .idle ∧ s.handled = []

end Poll

end Cdm
