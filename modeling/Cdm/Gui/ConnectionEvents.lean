import Cdm.Core.Download
import Cdm.Lib.RingBuffer
import Cdm.Lib.Run

/-!
# Connection events

`gui/gui_client.c`: a listener thread and the thread of the commands, each with a connection
of its own, share the flag `g_was_connected`. A thread that loses or restores its connection
exchanges the flag, and, if this has changed it, pushes an event. The exchange and the push are
two steps, so that events may be pushed in the opposite order of the changes
(`exists_disagrees`).

`lastEvent_of_inTurn`: if the events are pushed in the order of the changes, they alternate, and
the last one agrees with the flag. A push out of turn leads to a disagreement
(`disagrees_of_not_inTurn`). The events polled are those pushed, if the queue is never full
(`polled_of_reachable`).
-/

namespace Cdm

inductive GuiClientEvent
  /-- The progress is that of the message, as its four bytes. -/
  | statusUpdate (downloadId : ℕ) (progress : UInt32) (status : CString)
  | connectionLost
  | connectionRestored
  deriving DecidableEq

/-- What an event tells about the connection. -/
def GuiClientEvent.connected : GuiClientEvent → Option Bool
  | .statusUpdate _ _ _ => none
  | .connectionLost => some false
  | .connectionRestored => some true

def guiEventQueueCap : ℕ := 512

/-- Where the listener thread is. -/
inductive ListenerPc
  | reading
  /-- It has changed the flag, and is about to push the event. -/
  | pushing (connected : Bool)
  | reconnecting
  deriving DecidableEq

/-- Where the thread of the commands is. -/
inductive CommandPc
  | connected
  | disconnected
  /-- It has changed the flag, and is about to push the event. -/
  | pushing (connected : Bool)
  deriving DecidableEq

/-- The change whose event the listener has still to push. -/
def ListenerPc.unpushed : ListenerPc → List Bool
  | .pushing b => [b]
  | _ => []

def CommandPc.unpushed : CommandPc → List Bool
  | .pushing b => [b]
  | _ => []

structure GuiClient where
  wasConnected : Bool
  queue : RingBuffer GuiClientEvent guiEventQueueCap
  listener : ListenerPc
  command : CommandPc
  /-- All events pushed, the first one first. -/
  pushed : List GuiClientEvent
  /-- All events polled, the first one first. -/
  polled : List GuiClientEvent

inductive GuiClientAct
  /-- The listener reads a status event. -/
  | status (downloadId : ℕ) (progress : UInt32) (status : CString)
  /-- The listener reads nothing, as the connection is lost. -/
  | readFails
  | reconnect (ok : Bool)
  | listenerPush
  /-- A command needs a connection. -/
  | connect (ok : Bool)
  /-- A command fails, and its connection is closed. -/
  | commandFails
  | noteLost
  | commandPush
  | poll

/-- Adding an event; the oldest one is dropped if the queue is full. -/
def pushEvent (q : RingBuffer GuiClientEvent guiEventQueueCap) (e : GuiClientEvent) :
    RingBuffer GuiClientEvent guiEventQueueCap :=
  if h : q.count < guiEventQueueCap then q.push e h
  else
    have hfull : q.count = guiEventQueueCap := le_antisymm q.count_le (not_lt.1 h)
    (q.pop (by rw [hfull]; decide)).push e (by
      show q.count - 1 < guiEventQueueCap
      rw [hfull]
      decide)

namespace GuiClient

/-- The event for the flag. -/
def connectionEvent (connected : Bool) : GuiClientEvent :=
  if connected then .connectionRestored else .connectionLost

def push (s : GuiClient) (e : GuiClientEvent) : GuiClient :=
  { s with queue := pushEvent s.queue e, pushed := s.pushed ++ [e] }

/-- The exchange of the flag by the listener, which goes on at `next` unless it has changed it. -/
def listenerExchange (s : GuiClient) (connected : Bool) (next : ListenerPc) : GuiClient :=
  { s with
    wasConnected := connected
    listener := if s.wasConnected = connected then next else .pushing connected }

def commandExchange (s : GuiClient) (connected : Bool) (next : CommandPc) : GuiClient :=
  { s with
    wasConnected := connected
    command := if s.wasConnected = connected then next else .pushing connected }

def step (s : GuiClient) : GuiClientAct → Option GuiClient
  | .status id progress status =>
    if s.listener = .reading then some (s.push (.statusUpdate id progress status)) else none
  | .readFails =>
    if s.listener = .reading then some (s.listenerExchange false .reconnecting) else none
  | .reconnect ok =>
    if s.listener = .reconnecting then
      some (if ok then s.listenerExchange true .reading else { s with listener := .reading })
    else none
  | .listenerPush =>
    match s.listener with
    | .pushing b =>
      some ({ s with listener := if b then .reading else .reconnecting }.push (connectionEvent b))
    | _ => none
  | .connect ok =>
    if s.command = .disconnected then some (if ok then s.commandExchange true .connected else s)
    else none
  | .commandFails =>
    if s.command = .connected then some { s with command := .disconnected } else none
  | .noteLost =>
    if s.command = .disconnected then some (s.commandExchange false .disconnected) else none
  | .commandPush =>
    match s.command with
    | .pushing b =>
      some ({ s with command := if b then .connected else .disconnected }.push (connectionEvent b))
    | _ => none
  | .poll =>
    if h : 0 < s.queue.count then
      some { s with queue := s.queue.pop h, polled := s.polled ++ [s.queue.front] }
    else none

theorem step_listenerPush {s : GuiClient} {b : Bool} (hpc : s.listener = .pushing b) :
    s.step .listenerPush = some ({ s with
      listener := if b then .reading else .reconnecting }.push (connectionEvent b)) := by
  simp only [step, hpc]

theorem step_commandPush {s : GuiClient} {b : Bool} (hpc : s.command = .pushing b) :
    s.step .commandPush = some ({ s with
      command := if b then .connected else .disconnected }.push (connectionEvent b)) := by
  simp only [step, hpc]

/-- Both threads are connected, and the queue is empty. -/
structure IsInit (s : GuiClient) : Prop where
  wasConnected : s.wasConnected = true
  contents : s.queue.contents = []
  listener : s.listener = .reading
  command : s.command = .connected
  pushed : s.pushed = []
  polled : s.polled = []

/-! ## What is not pushed yet -/

/-- The changes whose events are still to be pushed. -/
def unpushed (s : GuiClient) : List Bool := s.listener.unpushed ++ s.command.unpushed

/-- The connection events pushed. -/
def connectionEvents (s : GuiClient) : List Bool := s.pushed.filterMap (·.connected)

/-- No thread pushes its event before an older one of the other thread; of two, the newer one
    is that of the flag. -/
def inTurn (s : GuiClient) : GuiClientAct → Bool
  | .listenerPush => s.command.unpushed = [] || s.listener.unpushed ≠ [s.wasConnected]
  | .commandPush => s.listener.unpushed = [] || s.command.unpushed ≠ [s.wasConnected]
  | _ => true

end GuiClient

theorem ListenerPc.length_unpushed_le : ∀ pc : ListenerPc, pc.unpushed.length ≤ 1
  | .reading => Nat.zero_le 1
  | .pushing _ => le_rfl
  | .reconnecting => Nat.zero_le 1

theorem CommandPc.length_unpushed_le : ∀ pc : CommandPc, pc.unpushed.length ≤ 1
  | .connected => Nat.zero_le 1
  | .disconnected => Nat.zero_le 1
  | .pushing _ => le_rfl

/-- The events, followed by those still to be pushed in the order of the changes, alternate,
    beginning with a loss, and the last one of them agrees with the flag. -/
def InOrder (events unpushed : List Bool) (flag : Bool) : Prop :=
  ∃ pending : List Bool, pending.Perm unpushed ∧
    (true :: (events ++ pending)).IsChain (· ≠ ·) ∧ (events ++ pending).getLastD true = flag

namespace InOrder

variable {events own other : List Bool} {flag b c : Bool}

theorem comm (h : InOrder events (own ++ other) flag) : InOrder events (other ++ own) flag := by
  obtain ⟨pending, hperm, hchain, hlast⟩ := h
  exact ⟨pending, hperm.trans List.perm_append_comm, hchain, hlast⟩

theorem chain_push (hchain : (true :: events).IsChain (· ≠ ·))
    (hlast : events.getLastD true = flag) (hb : flag ≠ b) :
    (true :: (events ++ [b])).IsChain (· ≠ ·) := by
  rw [← List.cons_append]
  refine List.isChain_append.2 ⟨hchain, List.isChain_singleton _, fun x hx y hy => ?_⟩
  rw [List.getLast?_cons, ← List.getLastD_eq_getLast?, hlast] at hx
  cases hx
  cases hy
  exact hb

/-- An exchange of the flag by a thread with nothing to push. -/
theorem exchange (h : InOrder events other flag) (b : Bool) :
    InOrder events ((if flag = b then [] else [b]) ++ other) b := by
  by_cases hb : flag = b
  · rw [if_pos hb]
    exact hb ▸ h
  · obtain ⟨pending, hperm, hchain, hlast⟩ := h
    rw [if_neg hb]
    refine ⟨pending ++ [b], (hperm.append_right [b]).trans List.perm_append_comm, ?_, ?_⟩
    · rw [← List.append_assoc]
      exact chain_push hchain hlast hb
    · simp [← List.append_assoc]

/-- Pushing the older one of at most two changes. -/
theorem push (h : InOrder events (b :: other) flag) (hother : other.length ≤ 1)
    (hturn : other = [] ∨ b ≠ flag) : InOrder (events ++ [b]) other flag := by
  obtain ⟨pending, hperm, hchain, hlast⟩ := h
  obtain ⟨rest, rfl⟩ : ∃ rest, pending = b :: rest := by
    rcases other with _ | ⟨c, _ | ⟨d, more⟩⟩
    · exact ⟨[], List.perm_singleton.1 hperm⟩
    · rcases List.perm_pair.1 hperm with rfl | rfl
      · exact ⟨[c], rfl⟩
      -- The other order would have the flag at `b`.
      · exact absurd (by simpa using hlast) (hturn.resolve_left (List.cons_ne_nil c []))
    · exact absurd hother (by simp)
  refine ⟨rest, hperm.cons_inv, ?_, ?_⟩
  · rwa [List.append_assoc]
  · rwa [List.append_assoc]

/-- With nothing left to push. -/
theorem nil (h : InOrder events [] flag) :
    (true :: events).IsChain (· ≠ ·) ∧ events.getLastD true = flag := by
  obtain ⟨pending, hperm, hchain, hlast⟩ := h
  obtain rfl := hperm.eq_nil
  rw [List.append_nil] at hchain hlast
  exact ⟨hchain, hlast⟩

/-- Two changes still to be pushed are opposite. -/
theorem ne (h : InOrder events [b, c] flag) : b ≠ c := by
  obtain ⟨pending, hperm, hchain, -⟩ := h
  rw [← List.cons_append] at hchain
  have hpair := (List.isChain_append.1 hchain).2.1
  rcases List.perm_pair.1 hperm with rfl | rfl
  · exact List.isChain_pair.1 hpair
  · exact (List.isChain_pair.1 hpair).symm

end InOrder

namespace GuiClient

variable {s s' : GuiClient} {a : GuiClientAct}

/-! ## Every step -/

abbrev Inv (s : GuiClient) : Prop := InOrder s.connectionEvents s.unpushed s.wasConnected

theorem connectionEvents_push (e : GuiClientEvent) :
    (s.push e).connectionEvents = s.connectionEvents ++ e.connected.toList := by
  cases e <;> simp [connectionEvents, push, GuiClientEvent.connected]

theorem connected_connectionEvent (b : Bool) : (connectionEvent b).connected.toList = [b] := by
  cases b <;> rfl

theorem unpushed_listenerExchange (b : Bool) {next : ListenerPc} (hnext : next.unpushed = []) :
    (s.listenerExchange b next).unpushed =
      (if s.wasConnected = b then [] else [b]) ++ s.command.unpushed := by
  unfold unpushed GuiClient.listenerExchange
  split_ifs
  · exact congrArg (· ++ s.command.unpushed) hnext
  · rfl

theorem unpushed_commandExchange (b : Bool) {next : CommandPc} (hnext : next.unpushed = []) :
    (s.commandExchange b next).unpushed =
      s.listener.unpushed ++ if s.wasConnected = b then [] else [b] := by
  unfold unpushed GuiClient.commandExchange
  split_ifs
  · exact congrArg (s.listener.unpushed ++ ·) hnext
  · rfl

theorem Inv.listenerExchange {b : Bool} {next : ListenerPc} (h : s.Inv)
    (hown : s.listener.unpushed = []) (hnext : next.unpushed = []) :
    (s.listenerExchange b next).Inv := by
  have hother : InOrder s.connectionEvents s.command.unpushed s.wasConnected := by
    rwa [Inv, unpushed, hown, List.nil_append] at h
  rw [Inv, unpushed_listenerExchange b hnext]
  exact hother.exchange b

theorem Inv.commandExchange {b : Bool} {next : CommandPc} (h : s.Inv)
    (hown : s.command.unpushed = []) (hnext : next.unpushed = []) :
    (s.commandExchange b next).Inv := by
  have hother : InOrder s.connectionEvents s.listener.unpushed s.wasConnected := by
    rwa [Inv, unpushed, hown, List.append_nil] at h
  rw [Inv, unpushed_commandExchange b hnext]
  exact (hother.exchange b).comm

/-- What keeps the events in order is that the changes are pushed in their own order. -/
theorem Inv.step (h : s.Inv) (hturn : s.inTurn a = true) (hstep : s.step a = some s') : s'.Inv := by
  cases a with
  | status id progress status =>
    simp only [GuiClient.step] at hstep
    split_ifs at hstep with hpc
    cases hstep
    rw [Inv, connectionEvents_push, GuiClientEvent.connected, Option.toList_none, List.append_nil]
    exact h
  | readFails =>
    simp only [GuiClient.step] at hstep
    split_ifs at hstep with hpc
    cases hstep
    exact h.listenerExchange (by rw [hpc]; rfl) rfl
  | reconnect ok =>
    simp only [GuiClient.step] at hstep
    split_ifs at hstep with hpc hok
    · cases hstep
      exact h.listenerExchange (by rw [hpc]; rfl) rfl
    · cases hstep
      rw [Inv, unpushed, hpc] at h
      exact h
  | listenerPush =>
    simp only [GuiClient.step] at hstep
    split at hstep
    · rename_i b hpc
      cases hstep
      rw [Inv, unpushed, hpc] at h
      rw [Inv, connectionEvents_push, connected_connectionEvent]
      -- Of two changes that are not pushed, this one is the older.
      have hpush : InOrder _ s.command.unpushed s.wasConnected :=
        InOrder.push h s.command.length_unpushed_le
          (by simpa [inTurn, hpc, ListenerPc.unpushed] using hturn)
      cases b with
      | false => exact hpush
      | true => exact hpush
    · cases hstep
  | connect ok =>
    simp only [GuiClient.step] at hstep
    split_ifs at hstep with hpc hok
    · cases hstep
      exact h.commandExchange (by rw [hpc]; rfl) rfl
    · cases hstep
      exact h
  | commandFails =>
    simp only [GuiClient.step] at hstep
    split_ifs at hstep with hpc
    cases hstep
    rw [Inv, unpushed, hpc] at h
    exact h
  | noteLost =>
    simp only [GuiClient.step] at hstep
    split_ifs at hstep with hpc
    cases hstep
    exact h.commandExchange (by rw [hpc]; rfl) rfl
  | commandPush =>
    simp only [GuiClient.step] at hstep
    split at hstep
    · rename_i b hpc
      cases hstep
      rw [Inv, unpushed, hpc] at h
      rw [Inv, connectionEvents_push, connected_connectionEvent]
      -- As for the listener, with the threads the other way round.
      have hpush : InOrder _ ([] ++ s.listener.unpushed) s.wasConnected :=
        InOrder.push h.comm s.listener.length_unpushed_le
          (by simpa [inTurn, hpc, CommandPc.unpushed] using hturn)
      cases b with
      | false => exact hpush.comm
      | true => exact hpush.comm
    · cases hstep
  | poll =>
    simp only [GuiClient.step] at hstep
    split_ifs at hstep with hcount
    cases hstep
    exact h

/-! ## Every run -/

theorem IsInit.inv (h : s.IsInit) : s.Inv := by
  refine ⟨[], ?_, ?_, ?_⟩
  · rw [unpushed, h.listener, h.command]
    exact List.Perm.refl []
  · rw [connectionEvents, h.pushed]
    exact List.isChain_singleton true
  · rw [connectionEvents, h.pushed, h.wasConnected]
    rfl

theorem inv_of_reachable (hs : Run.Reachable step IsInit (fun s a => s.inTurn a = true) s) :
    s.Inv :=
  hs.invariant (fun _ hinit => hinit.inv) fun _ _ _ h hturn hstep => h.step hturn hstep

/-- If the events are pushed in the order of the changes, the last one agrees with the flag
    whenever none is still to be pushed, and the events alternate. -/
theorem lastEvent_of_inTurn (hs : Run.Reachable step IsInit (fun s a => s.inTurn a = true) s)
    (hquiet : s.unpushed = []) :
    (∀ b ∈ s.connectionEvents.getLast?, b = s.wasConnected) ∧
      s.connectionEvents.IsChain (· ≠ ·) := by
  have hinv := inv_of_reachable hs
  rw [Inv, hquiet] at hinv
  obtain ⟨hchain, hlast⟩ := hinv.nil
  refine ⟨fun b hb => ?_, hchain.tail⟩
  rw [← hlast, List.getLastD_eq_getLast?, Option.mem_def.1 hb]
  rfl

/-- Both threads are connected, and nothing has been pushed. -/
def start : GuiClient where
  wasConnected := true
  queue := RingBuffer.empty .connectionLost (by decide)
  listener := .reading
  command := .connected
  pushed := []
  polled := []

theorem isInit_start : start.IsInit := ⟨rfl, rfl, rfl, rfl, rfl, rfl⟩

/-- The daemon is gone, which both threads note, and comes back. -/
theorem lastEvent_of_inTurn_back :
    ∃ s, Run.Reachable step IsInit (fun s a => s.inTurn a = true) s ∧
      s.connectionEvents = [false, true] ∧
      ((∀ b ∈ s.connectionEvents.getLast?, b = s.wasConnected) ∧
        s.connectionEvents.IsChain (· ≠ ·)) := by
  obtain ⟨s, hs, hquiet, hevents⟩ := Run.exists_reachable_of_exec step IsInit
    (fun s a => s.inTurn a = true)
    (fun s => s.unpushed = [] ∧ s.connectionEvents = [false, true]) isInit_start
    [.commandFails, .readFails, .noteLost, .listenerPush, .connect true, .commandPush]
    ⟨_, rfl, by decide⟩
  exact ⟨s, hs, hevents, lastEvent_of_inTurn hs hquiet⟩

/-- The listener notes the loss; before it pushes its event, the other thread is connected
    again and pushes its own. Then the last event is the loss, while the flag is set. -/
theorem exists_disagrees :
    ¬ ∀ s, Run.Reachable step IsInit (fun s _ => s.queue.count < guiEventQueueCap) s →
      s.unpushed = [] →
        (∀ b ∈ s.connectionEvents.getLast?, b = s.wasConnected) ∧
          s.connectionEvents.IsChain (· ≠ ·) := by
  intro hall
  obtain ⟨s, hs, hquiet, hflag, hevents⟩ := Run.exists_reachable_of_exec step IsInit
    (fun s _ => s.queue.count < guiEventQueueCap)
    (fun s => s.unpushed = [] ∧ s.wasConnected = true ∧ s.connectionEvents = [true, false])
    isInit_start [.commandFails, .readFails, .connect true, .commandPush, .listenerPush]
    ⟨_, rfl, by decide⟩
  have hlast := (hall s hs hquiet).1 false (by rw [hevents]; rfl)
  rw [hflag] at hlast
  cases hlast

/-- The condition is exact: after a push out of turn, the other thread's push leaves the last
    event in disagreement with the flag. -/
theorem disagrees_of_not_inTurn {t : GuiClient}
    (hs : Run.Reachable step IsInit (fun s a => s.inTurn a = true) s)
    (hturn : s.inTurn a = false) (hstep : s.step a = some t) :
    ∃ a' u, t.step a' = some u ∧ u.unpushed = [] ∧
      u.connectionEvents.getLast? = some !u.wasConnected := by
  have hinv := inv_of_reachable hs
  have hlast (r : GuiClient) (b : Bool) :
      (r.push (connectionEvent b)).connectionEvents.getLast? = some b := by
    rw [connectionEvents_push, connected_connectionEvent, List.getLast?_concat]
  cases a with
  | listenerPush =>
    simp only [GuiClient.step] at hstep
    split at hstep
    · rename_i b hpc
      cases hstep
      obtain ⟨c, hc⟩ : ∃ c, s.command = .pushing c := by
        rcases hcommand : s.command with _ | _ | c
        · simp [inTurn, hcommand, CommandPc.unpushed] at hturn
        · simp [inTurn, hcommand, CommandPc.unpushed] at hturn
        · exact ⟨c, rfl⟩
      -- The event that is pushed is the younger one, so that the other, pushed last, is outdated.
      have hb : b = s.wasConnected := by
        simpa [inTurn, hpc, hc, ListenerPc.unpushed, CommandPc.unpushed] using hturn
      rw [Inv, unpushed, hpc, hc] at hinv
      have hne : b ≠ c := InOrder.ne hinv
      refine ⟨.commandPush, _, step_commandPush hc, ?_, (hlast _ c).trans (congrArg some ?_)⟩
      · cases b <;> cases c <;> rfl
      · exact Bool.eq_not.2 fun h => hne (hb.trans h.symm)
    · cases hstep
  | commandPush =>
    simp only [GuiClient.step] at hstep
    split at hstep
    · rename_i c hpc
      cases hstep
      obtain ⟨b, hb⟩ : ∃ b, s.listener = .pushing b := by
        rcases hlistener : s.listener with _ | b | _
        · simp [inTurn, hlistener, ListenerPc.unpushed] at hturn
        · exact ⟨b, rfl⟩
        · simp [inTurn, hlistener, ListenerPc.unpushed] at hturn
      have hc : c = s.wasConnected := by
        simpa [inTurn, hpc, hb, ListenerPc.unpushed, CommandPc.unpushed] using hturn
      rw [Inv, unpushed, hpc, hb] at hinv
      have hne : b ≠ c := InOrder.ne hinv
      refine ⟨.listenerPush, _, step_listenerPush hb, ?_, (hlast _ b).trans (congrArg some ?_)⟩
      · cases b <;> cases c <;> rfl
      · exact Bool.eq_not.2 fun h => hne (h.trans hc.symm)
    · cases hstep
  | _ => simp [inTurn] at hturn

/-! ## The events polled -/

theorem contents_pushEvent {q : RingBuffer GuiClientEvent guiEventQueueCap} {e : GuiClientEvent}
    (h : q.count < guiEventQueueCap) : (pushEvent q e).contents = q.contents ++ [e] := by
  rw [pushEvent, dif_pos h]
  exact q.contents_push h

/-- What a step does with the queue. -/
theorem step_queue (hstep : s.step a = some s') :
    (s'.queue = s.queue ∧ s'.pushed = s.pushed ∧ s'.polled = s.polled) ∨
      (∃ e, s'.queue = pushEvent s.queue e ∧ s'.pushed = s.pushed ++ [e] ∧
        s'.polled = s.polled) ∨
      ∃ h : 0 < s.queue.count, s'.queue = s.queue.pop h ∧ s'.pushed = s.pushed ∧
        s'.polled = s.polled ++ [s.queue.front] := by
  cases a with
  | poll =>
    simp only [GuiClient.step] at hstep
    split_ifs at hstep with hcount
    cases hstep
    exact .inr (.inr ⟨hcount, rfl, rfl, rfl⟩)
  | status id progress status =>
    simp only [GuiClient.step] at hstep
    split_ifs at hstep
    cases hstep
    exact .inr (.inl ⟨_, rfl, rfl, rfl⟩)
  | listenerPush =>
    simp only [GuiClient.step] at hstep
    split at hstep
    · cases hstep
      exact .inr (.inl ⟨_, rfl, rfl, rfl⟩)
    · cases hstep
  | commandPush =>
    simp only [GuiClient.step] at hstep
    split at hstep
    · cases hstep
      exact .inr (.inl ⟨_, rfl, rfl, rfl⟩)
    · cases hstep
  | _ =>
    simp only [GuiClient.step] at hstep
    split_ifs at hstep
    all_goals
      cases hstep
      exact .inl ⟨rfl, rfl, rfl⟩

/-- While the queue is not full, no event is lost, and they are polled in their order. -/
theorem polled_of_reachable
    (hs : Run.Reachable step IsInit (fun s _ => s.queue.count < guiEventQueueCap) s) :
    s.polled ++ s.queue.contents = s.pushed := by
  refine hs.invariant (I := fun s => s.polled ++ s.queue.contents = s.pushed) ?_ ?_
  · intro s hinit
    rw [hinit.polled, hinit.contents, hinit.pushed]
    rfl
  · intro s a s' h hroom hstep
    rcases step_queue hstep with ⟨hqueue, hpushed, hpolled⟩ | ⟨e, hqueue, hpushed, hpolled⟩ |
      ⟨hcount, hqueue, hpushed, hpolled⟩
    · rw [hqueue, hpushed, hpolled, h]
    · rw [hqueue, hpushed, hpolled, contents_pushEvent hroom, ← List.append_assoc, h]
    · rw [hqueue, hpushed, hpolled, List.append_assoc, List.singleton_append,
        ← RingBuffer.contents_pop, h]

end GuiClient

end Cdm
