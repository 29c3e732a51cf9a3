import Cdm.Platform.Frames

/-!
# Framing

What the poll loop makes of the bytes of its clients. A broadcast that moves the slot the
loop is at does harm between the accesses of the loop body (`InPlace`): the bytes received
are then counted for another client, or its descriptor is handed to the handler. Without
such broadcasts the state of the loop is related to the streams of the connections by an
invariant (`PollInv`), from which it follows that

* what was received from a client is in its own buffer, and a header is handled with the
  descriptor of the client it came from (`bookkeeping_of_inPlace`);
* what is dispatched for a client is a function of its stream (`framing`).
-/

namespace Cdm

open Wire

/-! ## The invariant -/

/-- A broadcast does not move the slot the loop is at, between the accesses of its body:
    the slot still has its client, or, as long as nothing was received, is still in use and
    has room for what is asked for. -/
def InPlace (s : Poll) : PollAct → Prop
  | .broadcast downloadId fails =>
    let c := s.server.clients.ipcBroadcastStatus downloadId fails
    match s.pc with
    | .idle | .loop _ => True
    | .ready i => i < c.count
    | .sized i remaining => i < c.count ∧ (c.slots i).headerBytes + remaining ≤ MsgHeader.size
    | .received i _ fd | .counted i fd | .complete i fd | .copied i fd _ | .zeroed i fd _ _ =>
      i < c.count ∧ (c.slots i).fd = some fd
    | .removing i fd _ => i < c.count ∧ (c.slots i).fd = fd
  | _ => True

instance (s : Poll) (a : PollAct) : Decidable (InPlace s a) := by
  cases a <;> unfold InPlace
  · infer_instance
  · cases s.pc <;> infer_instance
  · infer_instance

/-- How far the loop is with a slot: the bytes stored and not counted, those of a header it
    has taken, and whether all bytes of a header may be there. -/
structure SlotView where
  arrived : ℕ
  taken : List Char
  full : Prop

/-- The loop is not at the slot. -/
def SlotView.none : SlotView := ⟨0, [], False⟩

def PollPc.view : PollPc → ℕ → SlotView
  | .received i n _, j => if j = i then ⟨n, [], True⟩ else .none
  | .counted i _, j | .complete i _, j | .copied i _ _, j => if j = i then ⟨0, [], True⟩ else .none
  | .zeroed i _ _ taken, j => if j = i then ⟨0, taken, False⟩ else .none
  | _, _ => .none

/-- The buffer of a slot has what was received of a header from its connection, and the
    frames dispatched and those to come are the frames of the stream. -/
structure SlotInv (x : Slot) (c : Conn) (v : SlotView) : Prop where
  buffer : (List.range (x.headerBytes + v.arrived)).map x.header = c.got
  size : c.got.length ≤ MsgHeader.size
  small : ¬v.full → c.got.length < MsgHeader.size
  frames : c.log ++ frames (v.taken ++ c.got ++ c.pending) = frames c.stream
  valid : ∀ hdr, .rejected hdr ∉ c.log
  fate : c.fate = .open

/-- What the loop relies on where it is. -/
def PcInv (s : Poll) : Prop :=
  match s.pc with
  | .idle | .loop _ => True
  | .ready i => i < s.server.clients.count
  | .sized i remaining =>
    i < s.server.clients.count ∧ (s.slot i).headerBytes + remaining ≤ MsgHeader.size
  | .received i _ fd | .counted i fd => i < s.server.clients.count ∧ (s.slot i).fd = some fd
  | .complete i fd =>
    i < s.server.clients.count ∧ (s.slot i).fd = some fd ∧ (s.conns fd).got.length = MsgHeader.size
  | .copied i fd bytes =>
    i < s.server.clients.count ∧ (s.slot i).fd = some fd ∧ bytes = (s.conns fd).got ∧
      bytes.length = MsgHeader.size
  | .zeroed i fd bytes taken =>
    i < s.server.clients.count ∧ (s.slot i).fd = some fd ∧ bytes = taken ∧
      bytes.length = MsgHeader.size ∧ (s.conns fd).got = []
  | .removing i fd fate =>
    i < s.server.clients.count ∧ (s.slot i).fd = fd ∧ fate ≠ .open ∧ fate ≠ .rejected ∧
      (fate = .ended → ∀ f ∈ fd, (s.conns f).pending = [])

/-- What was dispatched for a connection that is closed. -/
structure ClosedInv (c : Conn) : Prop where
  log : c.log <+: frames c.stream
  complete : c.fate = .ended ∨ c.fate = .rejected → c.log = frames c.stream
  rejected : ∀ hdr, .rejected hdr ∈ c.log → c.fate = .rejected

structure PollInv (s : Poll) : Prop where
  held : ∀ i < s.server.clients.count, ∃ fd < s.accepted, (s.slot i).fd = some fd ∧
    SlotInv (s.slot i) (s.conns fd) (s.pc.view i)
  distinct : s.server.clients.Distinct
  table : ∀ fd < s.accepted, (s.conns fd).fate = .open →
    ∃ i < s.server.clients.count, (s.slot i).fd = some fd
  closed : ∀ fd < s.accepted, (s.conns fd).fate ≠ .open → ClosedInv (s.conns fd)
  pc : PcInv s
  handled : ∀ e ∈ s.handled, e.client = some e.source ∧ e.header = .ofBytes e.bytes

theorem SlotInv.closed {x : Slot} {c : Conn} {v : SlotView} (h : SlotInv x c v)
    {fate : Fate} (hne : fate ≠ .rejected)
    (hended : fate = .ended → c.log = Cdm.frames c.stream) :
    ClosedInv { c with fate := fate } :=
  ⟨⟨_, h.frames⟩, fun hfate => hended (hfate.resolve_right hne),
    fun hdr hmem => absurd hmem (h.valid hdr)⟩

/-- The bytes of a header that has not arrived completely are no frame. -/
theorem SlotInv.log_eq {x : Slot} {c : Conn} (h : SlotInv x c .none) (hp : c.pending = []) :
    c.log = Cdm.frames c.stream := by
  rw [← h.frames, hp, frames_of_lt (by simpa [SlotView.none] using h.small id), List.append_nil]

namespace PollInv

variable {s s' : Poll}

/-- The loop is elsewhere than at the slots of other connections. -/
theorem fd_ne (h : PollInv s) {i j fd fd' : ℕ} (hi : i < s.server.clients.count)
    (hj : j < s.server.clients.count) (hfd : (s.slot i).fd = some fd)
    (hfd' : (s.slot j).fd = some fd') (hne : j ≠ i) : fd' ≠ fd := by
  rintro rfl
  exact hne (h.distinct j hj i hi (hfd'.trans hfd.symm))

theorem slotInv (h : PollInv s) {i fd : ℕ} (hi : i < s.server.clients.count)
    (hfd : (s.slot i).fd = some fd) : SlotInv (s.slot i) (s.conns fd) (s.pc.view i) := by
  obtain ⟨fd', -, hfd', hslot⟩ := h.held i hi
  rw [hfd, Option.some.injEq] at hfd'
  exact hfd' ▸ hslot

/-- What a step of the loop body keeps: the clients are the same, and only their buffers and
    what was read of their connections have changed. -/
theorem of_slots (h : PollInv s) (hcount : s'.server.clients.count = s.server.clients.count)
    (hfd : ∀ i, (s'.slot i).fd = (s.slot i).fd) (hacc : s'.accepted = s.accepted)
    (hslot : ∀ i < s.server.clients.count, ∀ fd, (s.slot i).fd = some fd →
      SlotInv (s.slot i) (s.conns fd) (s.pc.view i) →
      SlotInv (s'.slot i) (s'.conns fd) (s'.pc.view i))
    (hconns : ∀ fd, s'.conns fd ≠ s.conns fd → ∃ i < s.server.clients.count,
      (s.slot i).fd = some fd)
    (hpc : PcInv s')
    (hhandled : ∀ e ∈ s'.handled, e ∉ s.handled →
      e.client = some e.source ∧ e.header = .ofBytes e.bytes) : PollInv s' := by
  have hheld : ∀ i < s'.server.clients.count, ∃ fd < s'.accepted, (s'.slot i).fd = some fd ∧
      SlotInv (s'.slot i) (s'.conns fd) (s'.pc.view i) := fun i hi => by
    rw [hcount] at hi
    obtain ⟨fd, hlt, hfd', hinv⟩ := h.held i hi
    exact ⟨fd, hacc ▸ hlt, (hfd i).trans hfd', hslot i hi fd hfd' hinv⟩
  -- A connection that has changed has a slot, before and after, and is open.
  have hsame : ∀ fd, s'.conns fd = s.conns fd ∨
      (s.conns fd).fate = .open ∧ (s'.conns fd).fate = .open := fun fd => by
    by_cases hfd' : s'.conns fd = s.conns fd
    · exact .inl hfd'
    · obtain ⟨i, hi, hi'⟩ := hconns fd hfd'
      have hinv := h.slotInv hi hi'
      exact .inr ⟨hinv.fate, (hslot i hi fd hi' hinv).fate⟩
  refine ⟨hheld, fun i hi j hj hij => ?_, fun fd hlt hopen => ?_, fun fd hlt hclosed => ?_, hpc,
    fun e he => ?_⟩
  · rw [hcount] at hi hj
    exact h.distinct i hi j hj ((hfd i).symm.trans (hij.trans (hfd j)))
  · have hopen' : (s.conns fd).fate = .open := by
      rcases hsame fd with heq | ⟨ho, -⟩
      · rw [← heq, hopen]
      · exact ho
    obtain ⟨i, hi, hi'⟩ := h.table fd (hacc ▸ hlt) hopen'
    exact ⟨i, hcount ▸ hi, (hfd i).trans hi'⟩
  · rcases hsame fd with heq | ⟨-, ho⟩
    · rw [heq] at hclosed ⊢
      exact h.closed fd (hacc ▸ hlt) hclosed
    · exact absurd ho hclosed
  · by_cases hold : e ∈ s.handled
    · exact h.handled e hold
    · exact hhandled e he hold

/-- What an access of the loop body keeps: one slot has changed, and its connection. -/
theorem of_slot (h : PollInv s) {i fd : ℕ} {f : Slot → Slot} {g : Conn → Conn} {pc : PollPc}
    (hi : i < s.server.clients.count) (hfd : (s.slot i).fd = some fd)
    (hf : (f (s.slot i)).fd = (s.slot i).fd) (hview : ∀ j ≠ i, pc.view j = s.pc.view j)
    (hinv : SlotInv (s.slot i) (s.conns fd) (s.pc.view i) →
      SlotInv (f (s.slot i)) (g (s.conns fd)) (pc.view i))
    (hpc : ((s.modifySlot i f).slot i).fd = some fd →
      ((s.modifySlot i f).modifyConn fd g).conns fd = g (s.conns fd) →
      PcInv { (s.modifySlot i f).modifyConn fd g with pc := pc }) :
    PollInv { (s.modifySlot i f).modifyConn fd g with pc := pc } := by
  have hfds (j : ℕ) : ((s.modifySlot i f).slot j).fd = (s.slot j).fd := by
    by_cases hj : j = i
    · rw [hj, s.slot_modifySlot_self, hf]
    · rw [s.slot_modifySlot_of_ne hj]
  refine h.of_slots rfl hfds rfl (fun j hj fd' hfd' hslot => ?_) (fun fd' hne => ⟨i, hi, ?_⟩)
    (hpc ((hfds i).trans hfd) (s.modifySlot i f).conns_modifyConn_self)
    fun _ he hnot => absurd he hnot
  · change SlotInv ((s.modifySlot i f).slot j) (((s.modifySlot i f).modifyConn fd g).conns fd') _
    by_cases hij : j = i
    · subst hij
      obtain rfl : fd' = fd := Option.some.inj (hfd'.symm.trans hfd)
      rw [s.slot_modifySlot_self, (s.modifySlot j f).conns_modifyConn_self]
      exact hinv hslot
    · rw [s.slot_modifySlot_of_ne hij,
        (s.modifySlot i f).conns_modifyConn_of_ne (h.fd_ne hi hj hfd hfd' hij)]
      exact hview j hij ▸ hslot
  · by_contra hfd'
    exact hne ((s.modifySlot i f).conns_modifyConn_of_ne fun heq => hfd' (heq ▸ hfd))

/-- Going on without a change of the state. -/
theorem goto (h : PollInv s) {pc : PollPc}
    (hview : ∀ i < s.server.clients.count, ∀ fd, (s.slot i).fd = some fd →
      SlotInv (s.slot i) (s.conns fd) (s.pc.view i) → SlotInv (s.slot i) (s.conns fd) (pc.view i))
    (hpc : PcInv { s with pc := pc }) : PollInv { s with pc := pc } :=
  h.of_slots rfl (fun _ => rfl) rfl hview (fun _ hne => absurd rfl hne) hpc
    fun _ he hnot => absurd he hnot

/-- What the removal of clients keeps: those left have their slots and their connections. -/
theorem of_remain (h : PollInv s) (hclients : s.server.clients.Remain s'.server.clients)
    (hacc : s'.accepted = s.accepted)
    (hview : ∀ i < s'.server.clients.count, ∀ j < s.server.clients.count,
      s'.slot i = s.slot j → s'.pc.view i = s.pc.view j)
    (hconns : ∀ i < s'.server.clients.count, ∀ fd, (s'.slot i).fd = some fd →
      s'.conns fd = s.conns fd)
    (htable : ∀ fd < s.accepted, (s'.conns fd).fate = .open →
      ∃ i < s'.server.clients.count, (s'.slot i).fd = some fd)
    (hclosed : ∀ fd < s.accepted, (s'.conns fd).fate ≠ .open → ClosedInv (s'.conns fd))
    (hpc : PcInv s') (hhandled : s'.handled = s.handled) : PollInv s' := by
  refine ⟨fun i hi => ?_, h.distinct.remain hclients, hacc ▸ htable, hacc ▸ hclosed, hpc,
    hhandled ▸ h.handled⟩
  obtain ⟨f, -, hslots⟩ := hclients
  obtain ⟨hlt, hslot⟩ := hslots i hi
  obtain ⟨fd, hfd, hfd', hinv⟩ := h.held _ hlt
  have hfd'' : (s'.slot i).fd = some fd := (congrArg Slot.fd hslot).trans hfd'
  refine ⟨fd, hacc ▸ hfd, hfd'', ?_⟩
  rw [hview i hi _ hlt hslot, hconns i hi fd hfd'']
  exact (show s'.slot i = s.slot (f i) from hslot) ▸ hinv

/-! ## The steps of the loop -/

theorem accept (h : PollInv s) (hpc : s.pc = .idle) (stream : List Char) :
    PollInv { s.accept stream with pc := .loop 0 } := by
  have hview (i : ℕ) : s.pc.view i = .none := by rw [hpc]; rfl
  have hnew : (s.accept stream).conns s.accepted =
      { stream := stream, pending := stream, got := [], log := [],
        fate := if s.server.clients.count < maxClients then .open else .dropped } := by
    simp [Poll.accept]
  have hold : ∀ fd < s.accepted, (s.accept stream).conns fd = s.conns fd := fun fd hlt => by
    simp [Poll.accept, hlt.ne]
  by_cases hroom : s.server.clients.count < maxClients
  · have hcount : (s.accept stream).server.clients.count = s.server.clients.count + 1 := by
      simp [Poll.accept, Clients.accept, hroom]
    have hslot : ∀ i < s.server.clients.count, (s.accept stream).slot i = s.slot i := fun i hi => by
      simp [Poll.accept, Poll.slot, Clients.accept, hroom, hi.ne]
    have hfresh : ((s.accept stream).slot s.server.clients.count).fd = some s.accepted := by
      simp [Poll.accept, Poll.slot, Clients.accept, hroom]
    have hempty : ((s.accept stream).slot s.server.clients.count).headerBytes = 0 := by
      simp [Poll.accept, Poll.slot, Clients.accept, hroom]
    -- The slots in use before keep their clients, and the new one has the new connection.
    have hfd : ∀ i < s.server.clients.count, ∃ fd < s.accepted,
        ((s.accept stream).slot i).fd = some fd := fun i hi => by
      obtain ⟨fd, hlt, hfd, -⟩ := h.held i hi
      exact ⟨fd, hlt, by rw [hslot i hi, hfd]⟩
    refine ⟨fun i hi => ?_, fun i hi j hj hij => ?_, fun fd hlt hopen => ?_,
      fun fd hlt hclosed => ?_, trivial, h.handled⟩
    · change i < (s.accept stream).server.clients.count at hi
      change ∃ fd < s.accepted + 1, ((s.accept stream).slot i).fd = some fd ∧
        SlotInv ((s.accept stream).slot i) ((s.accept stream).conns fd) .none
      rcases Nat.lt_succ_iff_lt_or_eq.1 (hcount ▸ hi) with hi | rfl
      · obtain ⟨fd, hlt, hfd, hinv⟩ := h.held i hi
        refine ⟨fd, by omega, by rw [hslot i hi, hfd], ?_⟩
        rw [hslot i hi, hold fd hlt, ← hview i]
        exact hinv
      · refine ⟨s.accepted, by omega, hfresh, ?_⟩
        rw [hnew]
        exact ⟨by simp [hempty, SlotView.none], by simp, fun _ => by simp [MsgHeader.size],
          by simp [SlotView.none], by simp, by simp [hroom]⟩
    · change i < (s.accept stream).server.clients.count at hi
      change j < (s.accept stream).server.clients.count at hj
      change ((s.accept stream).slot i).fd = ((s.accept stream).slot j).fd at hij
      rcases Nat.lt_succ_iff_lt_or_eq.1 (hcount ▸ hi) with hi | rfl <;>
        rcases Nat.lt_succ_iff_lt_or_eq.1 (hcount ▸ hj) with hj | rfl
      · rw [hslot i hi, hslot j hj] at hij
        exact h.distinct i hi j hj hij
      · obtain ⟨fd, hlt, hfd⟩ := hfd i hi
        rw [hfd, hfresh, Option.some.injEq] at hij
        omega
      · obtain ⟨fd, hlt, hfd⟩ := hfd j hj
        rw [hfd, hfresh, Option.some.injEq] at hij
        omega
      · rfl
    · change fd < s.accepted + 1 at hlt
      change ∃ i < (s.accept stream).server.clients.count, ((s.accept stream).slot i).fd = some fd
      rw [hcount]
      rcases Nat.lt_succ_iff_lt_or_eq.1 hlt with hlt | rfl
      · obtain ⟨i, hi, hi'⟩ := h.table fd hlt (by rw [← hold fd hlt]; exact hopen)
        exact ⟨i, by omega, by rw [hslot i hi, hi']⟩
      · exact ⟨_, by omega, hfresh⟩
    · change fd < s.accepted + 1 at hlt
      change ((s.accept stream).conns fd).fate ≠ .open at hclosed
      change ClosedInv ((s.accept stream).conns fd)
      rcases Nat.lt_succ_iff_lt_or_eq.1 hlt with hlt | rfl
      · rw [hold fd hlt] at hclosed ⊢
        exact h.closed fd hlt hclosed
      · exact absurd (by rw [hnew]; simp [hroom]) hclosed
  · -- There is no room: the table is the same, and the connection is closed.
    have hclients : (s.accept stream).server.clients = s.server.clients := by
      simp [Poll.accept, Clients.accept, hroom]
    have hslot (i : ℕ) : (s.accept stream).slot i = s.slot i := by rw [Poll.slot, hclients]; rfl
    refine ⟨fun i hi => ?_, fun i hi j hj hij => ?_, fun fd hlt hopen => ?_,
      fun fd hlt hclosed => ?_, trivial, h.handled⟩
    · change i < (s.accept stream).server.clients.count at hi
      change ∃ fd < s.accepted + 1, ((s.accept stream).slot i).fd = some fd ∧
        SlotInv ((s.accept stream).slot i) ((s.accept stream).conns fd) .none
      obtain ⟨fd, hlt, hfd, hinv⟩ := h.held i (hclients ▸ hi)
      refine ⟨fd, by omega, by rw [hslot, hfd], ?_⟩
      rw [hslot, hold fd hlt, ← hview i]
      exact hinv
    · change i < (s.accept stream).server.clients.count at hi
      change j < (s.accept stream).server.clients.count at hj
      change ((s.accept stream).slot i).fd = ((s.accept stream).slot j).fd at hij
      rw [hslot, hslot] at hij
      exact h.distinct i (hclients ▸ hi) j (hclients ▸ hj) hij
    · change fd < s.accepted + 1 at hlt
      change ((s.accept stream).conns fd).fate = .open at hopen
      change ∃ i < (s.accept stream).server.clients.count, ((s.accept stream).slot i).fd = some fd
      rcases Nat.lt_succ_iff_lt_or_eq.1 hlt with hlt | rfl
      · obtain ⟨i, hi, hi'⟩ := h.table fd hlt (by rw [← hold fd hlt]; exact hopen)
        exact ⟨i, hclients ▸ hi, by rw [hslot i, hi']⟩
      · rw [hnew] at hopen
        simp [hroom] at hopen
    · change fd < s.accepted + 1 at hlt
      change ((s.accept stream).conns fd).fate ≠ .open at hclosed
      change ClosedInv ((s.accept stream).conns fd)
      rcases Nat.lt_succ_iff_lt_or_eq.1 hlt with hlt | rfl
      · rw [hold fd hlt] at hclosed ⊢
        exact h.closed fd hlt hclosed
      · rw [hnew]
        exact ⟨List.nil_prefix, by simp [hroom], by simp⟩

theorem received {i remaining fd n : ℕ} (h : PollInv s) (hpc : s.pc = .sized i remaining)
    (hfd : (s.slot i).fd = some fd) (hn : n ≤ remaining) : PollInv (s.receive i fd n) := by
  have hpc' := h.pc
  rw [PcInv, hpc] at hpc'
  obtain ⟨hi, hroom⟩ := hpc'
  refine h.of_slot hi hfd rfl (fun j hj => ?_) (fun hinv => ?_) fun hfd' _ => ⟨hi, hfd'⟩
  · rw [hpc]
    simp [PollPc.view, hj]
  · rw [hpc] at hinv
    have hlen : (s.conns fd).got.length = (s.slot i).headerBytes := by
      rw [← hinv.buffer]
      simp [PollPc.view, SlotView.none]
    refine ⟨?_, ?_, fun hfull => absurd trivial (by simp [PollPc.view] at hfull), ?_,
      hinv.valid, hinv.fate⟩
    · -- The bytes are counted later, but they are where the count expects them.
      simp only [PollPc.view, if_true, Slot.store_headerBytes]
      rw [Slot.map_store]
      congr 1
      exact hinv.buffer
    · rw [List.length_append, List.length_take, hlen]
      omega
    · simp only [PollPc.view, if_true, List.nil_append]
      rw [List.append_assoc, List.take_append_drop]
      exact hinv.frames

theorem count {i n fd : ℕ} (h : PollInv s) (hpc : s.pc = .received i n fd) :
    PollInv { s.modifySlot i fun x => { x with headerBytes := x.headerBytes + n } with
      pc := .counted i fd } := by
  have hpc' := h.pc
  rw [PcInv, hpc] at hpc'
  obtain ⟨hi, hfd⟩ := hpc'
  rw [← (s.modifySlot i _).modifyConn_id fd]
  refine h.of_slot hi hfd rfl (fun j hj => ?_) (fun hinv => ?_) fun hfd' _ => ⟨hi, hfd'⟩
  · rw [hpc]
    simp [PollPc.view, hj]
  · rw [hpc] at hinv
    simp only [PollPc.view, if_true] at hinv ⊢
    exact ⟨hinv.buffer, hinv.size, hinv.small, hinv.frames, hinv.valid, hinv.fate⟩

theorem counted {i fd : ℕ} (h : PollInv s) (hpc : s.pc = .counted i fd) :
    PollInv { s with
      pc := if (s.slot i).headerBytes = MsgHeader.size then .complete i fd
        else .loop (i + 1) } := by
  have hpc' := h.pc
  rw [PcInv, hpc] at hpc'
  obtain ⟨hi, hfd⟩ := hpc'
  have hlen : (s.conns fd).got.length = (s.slot i).headerBytes := by
    rw [← (h.slotInv hi hfd).buffer, hpc]
    simp [PollPc.view]
  split_ifs with hfull
  · refine h.goto (fun j hj fd' hfd' hinv => ?_) ⟨hi, hfd, hlen.trans hfull⟩
    rw [hpc] at hinv
    exact hinv
  · refine h.goto (fun j hj fd' hfd' hinv => ?_) trivial
    rw [hpc] at hinv
    by_cases hij : j = i
    · subst hij
      obtain rfl : fd' = fd := Option.some.inj (hfd'.symm.trans hfd)
      simp only [PollPc.view, if_true] at hinv
      exact ⟨hinv.buffer, hinv.size,
        fun _ => lt_of_le_of_ne hinv.size fun heq => hfull (hlen.symm.trans heq), hinv.frames,
        hinv.valid, hinv.fate⟩
    · simpa [PollPc.view, hij] using hinv

theorem complete {i fd : ℕ} (h : PollInv s) (hpc : s.pc = .complete i fd) :
    PollInv { s with pc := .copied i fd ((List.range MsgHeader.size).map (s.slot i).header) } := by
  have hpc' := h.pc
  rw [PcInv, hpc] at hpc'
  obtain ⟨hi, hfd, hsize⟩ := hpc'
  have hbuffer := (h.slotInv hi hfd).buffer
  rw [hpc] at hbuffer
  simp only [PollPc.view, if_true, Nat.add_zero] at hbuffer
  have hlen : (s.slot i).headerBytes = MsgHeader.size := by
    rw [← hsize, ← hbuffer]
    simp
  rw [hlen] at hbuffer
  refine h.goto (fun j hj fd' hfd' hinv => ?_) ⟨hi, hfd, hbuffer, by simp⟩
  rw [hpc] at hinv
  exact hinv

theorem copied {i fd : ℕ} {bytes : List Char} (h : PollInv s) (hpc : s.pc = .copied i fd bytes) :
    PollInv { (s.modifySlot i fun x => { x with headerBytes := 0 }).modifyConn fd fun c =>
        { c with got := [] } with
      pc := .zeroed i fd bytes (s.conns fd).got } := by
  have hpc' := h.pc
  rw [PcInv, hpc] at hpc'
  obtain ⟨hi, hfd, hbytes, hsize⟩ := hpc'
  refine h.of_slot hi hfd rfl (fun j hj => ?_) (fun hinv => ?_)
    fun hfd' hconn => ⟨hi, hfd', hbytes, hsize, congrArg Conn.got hconn⟩
  · rw [hpc]
    simp [PollPc.view, hj]
  · rw [hpc] at hinv
    simp only [PollPc.view, if_true] at hinv ⊢
    exact ⟨rfl, Nat.zero_le _, fun _ => by simp [MsgHeader.size], by simpa using hinv.frames,
      hinv.valid, hinv.fate⟩

theorem dispatched {i fd : ℕ} {bytes taken : List Char} {c : PollChoice} (h : PollInv s)
    (hpc : s.pc = .zeroed i fd bytes taken) (hvalid : validMessageHeader (.ofBytes bytes) = true)
    (hs : s.dispatch c i fd bytes taken = some s') : PollInv s' := by
  have hpc' := h.pc
  rw [PcInv, hpc] at hpc'
  obtain ⟨hi, hfd, rfl, hsize, hgot⟩ := hpc'
  rw [Poll.dispatch] at hs
  split at hs
  · rename_i hnone
    rw [hnone] at hfd
    cases hfd
  rename_i client hclient
  obtain rfl : client = fd := Option.some.inj (hclient.symm.trans hfd)
  obtain ⟨r, hr, rfl⟩ := Option.map_eq_some_iff.1 hs
  -- The handler reads what it would read at once, and leaves the buffers alone.
  obtain rfl := Prog.runBy_eq (fun _ _ _ _ hx => ipcReadExact_eq hx) hr
  have hrest := handleMessage_rest c.env.handlers client (.ofBytes bytes) s.server
    (s.conns client).pending
  have hsame := sameBuffers_handleMessage c.env s.server client (.ofBytes bytes)
    (s.conns client).pending
  refine h.of_slots hsame.count hsame.fd rfl (fun j hj fd' hfd' hinv => ?_)
    (fun fd' hne => ⟨i, hi, ?_⟩) trivial fun e he hnot => ?_
  · have hslot (v : SlotView) (x : Conn) (hx : SlotInv (s.slot j) x v) :
        SlotInv (((c.env.handlers.handleMessage client (.ofBytes bytes) s.server).run
          (s.conns client).pending).value.clients.slots j) x v :=
      ⟨by rw [hsame.headerBytes, hsame.header]; exact hx.buffer, hx.size, hx.small, hx.frames,
        hx.valid, hx.fate⟩
    refine hslot _ _ ?_
    rw [hpc] at hinv
    by_cases hij : j = i
    · subst hij
      obtain rfl : fd' = client := Option.some.inj (hfd'.symm.trans hfd)
      simp only [PollPc.view, if_true, hrest] at hinv ⊢
      rw [s.conns_modifyConn_self]
      have hframes := hinv.frames
      rw [hgot, List.append_nil, frames_valid hsize hvalid] at hframes
      refine ⟨hinv.buffer, hinv.size, hinv.small, ?_, by simpa using hinv.valid, hinv.fate⟩
      simpa [SlotView.none, hgot] using hframes
    · simp only [s.conns_modifyConn_of_ne (h.fd_ne hi hj hfd hfd' hij)]
      simpa [PollPc.view, hij] using hinv
  · by_contra hfd'
    have hne' : fd' ≠ client := fun heq => hfd' (heq ▸ hfd)
    exact hne (Function.update_of_ne hne' _ _)
  · obtain rfl := (List.mem_cons.1 he).resolve_right hnot
    exact ⟨hfd, rfl⟩

/-- Closing the connection of a slot and removing its client. The other connections stay as
    they are. -/
theorem removed {i : ℕ} {fd : Option ℕ} {fate : Fate} {conns : ℕ → Conn} (h : PollInv s)
    (hi : i < s.server.clients.count) (hfd : (s.slot i).fd = fd) (hopen : fate ≠ .open)
    (hview : ∀ j ≠ i, s.pc.view j = .none)
    (hconns : ∀ f, fd ≠ some f → conns f = s.conns f)
    (hclosed : ∀ f ∈ fd, ClosedInv { conns f with fate := fate }) :
    PollInv ({ s with conns := conns }.remove i fd fate) := by
  have hslot : ∀ j < s.server.clients.count - 1,
      ({ s with conns := conns }.remove i fd fate).slot j = s.slot (if i ≤ j then j + 1 else j) :=
    fun j hj => by
      change (s.server.clients.removeClient i).slots j = _
      rw [s.server.clients.slots_removeClient hj]
      exact (apply_ite s.server.clients.slots _ _ _).symm
  have hlt (j : ℕ) (hj : j < s.server.clients.count - 1) :
      (if i ≤ j then j + 1 else j) < s.server.clients.count ∧ (if i ≤ j then j + 1 else j) ≠ i := by
    split_ifs <;> omega
  -- The clients left have other connections.
  have hother : ∀ j < s.server.clients.count - 1, ∀ f,
      (({ s with conns := conns }.remove i fd fate).slot j).fd = some f → fd ≠ some f := by
    intro j hj f hf heq
    rw [hslot j hj] at hf
    exact (hlt j hj).2 (h.distinct _ (hlt j hj).1 i hi (hf.trans (hfd.trans heq).symm))
  have hkeep : ∀ f, fd ≠ some f →
      ({ s with conns := conns }.remove i fd fate).conns f = s.conns f := fun f hf => by
    simp [Poll.remove, hf, hconns f hf]
  refine h.of_remain (s.server.clients.remain_removeClient i) rfl (fun j hj k hk hjk => ?_)
    (fun j hj f hf => hkeep f (hother j hj f hf)) (fun f hlt' ho => ?_) (fun f hlt' hc => ?_)
    trivial rfl
  · -- The slot the loop is at is gone.
    change j < s.server.clients.count - 1 at hj
    rw [hslot j hj] at hjk
    have hk' : k = if i ≤ j then j + 1 else j :=
      h.distinct k hk _ (hlt j hj).1 (congrArg Slot.fd hjk).symm
    rw [hview k (hk' ▸ (hlt j hj).2)]
    rfl
  · have hf : fd ≠ some f := fun heq => by
      refine hopen ?_
      rw [← ho]
      simp [Poll.remove, heq]
    rw [hkeep f hf] at ho
    obtain ⟨k, hk, hk'⟩ := h.table f hlt' ho
    have hki : k ≠ i := fun heq => hf (by rw [← hfd, ← heq, hk'])
    refine ⟨if k < i then k else k - 1, ?_, ?_⟩
    · change _ < s.server.clients.count - 1
      split_ifs <;> omega
    · rw [hslot _ (by split_ifs <;> omega), ← hk']
      congr 2
      split_ifs <;> omega
  · by_cases hf : fd = some f
    · have := hclosed f hf
      simpa [Poll.remove, hf] using this
    · rw [hkeep f hf] at hc ⊢
      exact h.closed f hlt' hc

theorem broadcast {downloadId : ℕ} {fails : Option ℕ → Bool} (h : PollInv s)
    (hok : InPlace s (.broadcast downloadId fails)) : PollInv (s.broadcast downloadId fails) := by
  have hremain := s.server.clients.remain_ipcBroadcastStatus downloadId fails
  have hpc := h.pc
  rw [InPlace] at hok
  generalize hc : s.server.clients.ipcBroadcastStatus downloadId fails = c at *
  have hs' : s.broadcast downloadId fails = { s.withClients c with
      conns := fun fd =>
        if (∃ i < s.server.clients.count, (s.slot i).fd = some fd) ∧
            ¬∃ i < c.count, (c.slots i).fd = some fd then
          { s.conns fd with fate := .dropped }
        else s.conns fd } := by rw [Poll.broadcast, hc]
  have hkeep : ∀ i < c.count, ∀ fd, (c.slots i).fd = some fd →
      (s.broadcast downloadId fails).conns fd = s.conns fd := fun i hi fd hfd => by
    rw [hs']
    exact if_neg fun hno => hno.2 ⟨i, hi, hfd⟩
  have hclients : (s.broadcast downloadId fails).server.clients = c := by rw [hs']; rfl
  have hslot (i : ℕ) : (s.broadcast downloadId fails).slot i = c.slots i := by
    rw [Poll.slot, hclients]
  -- A slot is the one the loop is at after the broadcast, if it was before.
  have hat : ∀ k fd, k < s.server.clients.count ∧ (s.slot k).fd = some fd →
      k < c.count ∧ (c.slots k).fd = some fd → ∀ i < c.count, ∀ j < s.server.clients.count,
      c.slots i = s.slot j → (i = k ↔ j = k) := by
    rintro k fd ⟨hk, hfd⟩ ⟨hk', hfd'⟩ i hi j hj hij
    constructor
    · rintro rfl
      exact h.distinct j hj i hk (by rw [← Poll.slot, ← Poll.slot, hfd, ← hij, hfd'])
    · rintro rfl
      exact h.distinct.remain hremain i hi j hk' (by rw [hij, hfd, hfd'])
  refine h.of_remain (hclients ▸ hremain) (by rw [hs']; rfl) (fun i hi j hj hij => ?_)
    (fun i hi fd hfd => hkeep i (hclients ▸ hi) fd (hslot i ▸ hfd)) (fun fd hlt ho => ?_)
    (fun fd hlt hcl => ?_) ?_ (by rw [hs']; rfl)
  · rw [hclients] at hi
    rw [hslot] at hij
    change s.pc.view i = s.pc.view j
    rw [PcInv] at hpc
    cases hpc' : s.pc with
    | received k n fd =>
      simp only [hpc'] at hok hpc
      simp [PollPc.view, hat k fd hpc hok i hi j hj hij]
    | counted k fd =>
      simp only [hpc'] at hok hpc
      simp [PollPc.view, hat k fd hpc hok i hi j hj hij]
    | complete k fd =>
      simp only [hpc'] at hok hpc
      simp [PollPc.view, hat k fd ⟨hpc.1, hpc.2.1⟩ hok i hi j hj hij]
    | copied k fd bytes =>
      simp only [hpc'] at hok hpc
      simp [PollPc.view, hat k fd ⟨hpc.1, hpc.2.1⟩ hok i hi j hj hij]
    | zeroed k fd bytes taken =>
      simp only [hpc'] at hok hpc
      simp [PollPc.view, hat k fd ⟨hpc.1, hpc.2.1⟩ hok i hi j hj hij]
    | _ => rfl
  · rw [hs'] at ho ⊢
    simp only at ho
    split_ifs at ho with hgone
    obtain ⟨i, hi, hi'⟩ := h.table fd hlt ho
    exact not_not.1 fun hno => hgone ⟨⟨i, hi, hi'⟩, hno⟩
  · rw [hs'] at hcl ⊢
    simp only at hcl ⊢
    split_ifs at hcl ⊢ with hgone
    · obtain ⟨i, hi, hi'⟩ := hgone.1
      exact (h.slotInv hi hi').closed (by simp) (by simp)
    · exact h.closed fd hlt hcl
  · have hpc' : (s.broadcast downloadId fails).pc = s.pc := by rw [hs']; rfl
    rw [PcInv] at hpc ⊢
    rw [hclients, hpc']
    simp only [hslot]
    cases hpc'' : s.pc with
    | idle => trivial
    | loop i => trivial
    | ready i => simpa only [hpc''] using hok
    | sized i remaining => simpa only [hpc''] using hok
    | received i n fd => simpa only [hpc''] using hok
    | counted i fd => simpa only [hpc''] using hok
    | complete i fd =>
      simp only [hpc''] at hok hpc ⊢
      exact ⟨hok.1, hok.2, by rw [hkeep i hok.1 fd hok.2, hpc.2.2]⟩
    | copied i fd bytes =>
      simp only [hpc''] at hok hpc ⊢
      exact ⟨hok.1, hok.2, by rw [hkeep i hok.1 fd hok.2, hpc.2.2.1], hpc.2.2.2⟩
    | zeroed i fd bytes taken =>
      simp only [hpc''] at hok hpc ⊢
      exact ⟨hok.1, hok.2, hpc.2.2.1, hpc.2.2.2.1, by rw [hkeep i hok.1 fd hok.2, hpc.2.2.2.2]⟩
    | removing i fd fate =>
      simp only [hpc''] at hok hpc ⊢
      refine ⟨hok.1, hok.2, hpc.2.2.1, hpc.2.2.2.1, fun hended f hf => ?_⟩
      rw [hkeep i hok.1 f (hok.2.trans hf)]
      exact hpc.2.2.2.2 hended f hf

theorem pollStep {c : PollChoice} (h : PollInv s) (hs : s.pollStep c = some s') : PollInv s' := by
  have hinv := h.pc
  rw [PcInv] at hinv
  -- The accesses that precede `recv` leave everything as it is.
  have hgoto (pc : PollPc) (hnone : ∀ i, s.pc.view i = .none) (hview : ∀ i, pc.view i = .none)
      (hpc' : PcInv { s with pc := pc }) : PollInv { s with pc := pc } :=
    h.goto (fun i _ fd _ hslot => by rw [hview, ← hnone i]; exact hslot) hpc'
  rw [Poll.pollStep] at hs
  cases hpc : s.pc with
  | idle =>
    simp only [hpc] at hs
    cases hconn : c.connection with
    | none =>
      simp only [hconn, Option.some.injEq] at hs
      subst hs
      exact hgoto _ (by simp [hpc, PollPc.view]) (fun _ => rfl) trivial
    | some stream =>
      simp only [hconn, Option.some.injEq] at hs
      subst hs
      exact h.accept hpc stream
  | loop i =>
    simp only [hpc] at hs
    have hnone : ∀ j, s.pc.view j = .none := by simp [hpc, PollPc.view]
    split_ifs at hs with hlt hset
    · cases hs
      exact hgoto _ hnone (fun _ => rfl) hlt
    · cases hs
      exact hgoto _ hnone (fun _ => rfl) trivial
    · cases hs
      exact hgoto _ hnone (fun _ => rfl) trivial
  | ready i =>
    simp only [hpc, Option.some.injEq] at hs hinv
    subst hs
    obtain ⟨fd, -, hfd, hslot⟩ := h.held i hinv
    have hlt : (s.slot i).headerBytes < MsgHeader.size := by
      have hsmall := hslot.small (by simp [hpc, PollPc.view, SlotView.none])
      rw [← hslot.buffer, hpc] at hsmall
      simpa [PollPc.view, SlotView.none] using hsmall
    refine hgoto _ (by simp [hpc, PollPc.view]) (fun _ => rfl) ⟨hinv, ?_⟩
    change (s.slot i).headerBytes + (MsgHeader.size - (s.slot i).headerBytes) ≤ _
    omega
  | sized i remaining =>
    simp only [hpc] at hs hinv
    obtain ⟨fd, -, hfd, -⟩ := h.held i hinv.1
    have hnone : ∀ j, s.pc.view j = .none := by simp [hpc, PollPc.view]
    rw [hfd] at hs
    cases hrecv : c.recv with
    | data more =>
      simp only [hrecv] at hs
      split_ifs at hs
      · cases hs
        exact hgoto _ hnone (fun _ => rfl) ⟨hinv.1, hfd, by simp, by simp, by simp⟩
      · cases hs
        exact h.received hpc hfd (min_le_right _ _)
    | closed =>
      simp only [hrecv] at hs
      split_ifs at hs with hpending
      cases hs
      refine hgoto _ hnone (fun _ => rfl) ⟨hinv.1, hfd, by simp, by simp, fun _ f hf => ?_⟩
      cases hf
      exact hpending
    | nothing =>
      simp only [hrecv, Option.some.injEq] at hs
      subst hs
      exact hgoto _ hnone (fun _ => rfl) trivial
    | failed =>
      simp only [hrecv, Option.some.injEq] at hs
      subst hs
      exact hgoto _ hnone (fun _ => rfl) ⟨hinv.1, hfd, by simp, by simp, by simp⟩
  | received i n fd =>
    simp only [hpc, Option.some.injEq] at hs
    subst hs
    exact h.count hpc
  | counted i fd =>
    simp only [hpc, Option.some.injEq] at hs
    subst hs
    exact h.counted hpc
  | complete i fd =>
    simp only [hpc, Option.some.injEq] at hs
    subst hs
    exact h.complete hpc
  | copied i fd bytes =>
    simp only [hpc, Option.some.injEq] at hs
    subst hs
    exact h.copied hpc
  | zeroed i fd bytes taken =>
    simp only [hpc] at hs hinv
    obtain ⟨hi, hfd, rfl, hsize, hgot⟩ := hinv
    split_ifs at hs with hvalid
    · exact h.dispatched hpc hvalid hs
    · cases hs
      refine h.removed hi hfd (by simp) (fun j hj => by simp [hpc, PollPc.view, hj])
        (fun f hf => Function.update_of_ne (fun heq : f = fd => hf (heq ▸ rfl)) _ _)
        fun f hf => ?_
      cases hf
      have hframes := (h.slotInv hi hfd).frames
      rw [hpc] at hframes
      simp only [PollPc.view, if_true, hgot, List.append_nil,
        frames_invalid hsize (Bool.not_eq_true _ ▸ hvalid)] at hframes
      rw [Function.update_self]
      exact ⟨⟨[], by simpa using hframes⟩, fun _ => hframes, fun _ _ => rfl⟩
  | removing i fd fate =>
    simp only [hpc, Option.some.injEq] at hs hinv
    subst hs
    obtain ⟨hi, hfd, hopen, hrejected, hended⟩ := hinv
    refine h.removed hi hfd hopen (fun j _ => by rw [hpc]; rfl) (fun _ _ => rfl) fun f hf => ?_
    have hslot := h.slotInv hi (hfd.trans hf)
    rw [hpc] at hslot
    exact hslot.closed hrejected fun hfate => hslot.log_eq (hended hfate f hf)

theorem of_isInit {s : Poll} (h : s.IsInit) : PollInv s := by
  obtain ⟨hcount, hacc, hpc, hhandled⟩ := h
  refine ⟨by simp [hcount], fun i hi => by simp [hcount] at hi, by simp [hacc], by simp [hacc], ?_,
    by simp [hhandled]⟩
  rw [PcInv, hpc]
  trivial

theorem work (h : PollInv s) (store : Store) :
    PollInv { s with server := { s.server with store := store } } :=
  ⟨h.held, h.distinct, h.table, h.closed, h.pc, h.handled⟩

theorem step {a : PollAct} (h : PollInv s) (hok : InPlace s a) (hs : s.step a = some s') :
    PollInv s' := by
  cases a with
  | poll c => exact h.pollStep hs
  | broadcast downloadId fails =>
    cases hs
    exact h.broadcast hok
  | work store =>
    cases hs
    exact h.work store

theorem of_reachable (hs : Run.Reachable Poll.step Poll.IsInit InPlace s) : PollInv s :=
  hs.invariant (fun _ => of_isInit) fun _ _ _ h hok hst => h.step hok hst

end PollInv

/-! ## Bookkeeping -/

/-- The bytes received from a connection are in the buffer of its own slot, counted there but
    for those that the loop has just stored, and a header was handled with the descriptor of
    the connection its bytes came from. -/
def Bookkeeping (s : Poll) : Prop :=
  (∀ i < s.server.clients.count, ∀ fd, (s.slot i).fd = some fd →
    (List.range ((s.slot i).headerBytes + (s.pc.view i).arrived)).map (s.slot i).header =
      (s.conns fd).got) ∧
  ∀ e ∈ s.handled, e.client = some e.source ∧ e.header = .ofBytes e.bytes

/-- A daemon without clients. -/
def Poll.start : Poll where
  server := .start .bare
  conns _ := ⟨[], [], [], [], .dropped⟩
  accepted := 0
  pc := .idle
  handled := []

theorem Poll.isInit_start : Poll.start.IsInit := ⟨rfl, rfl, rfl, rfl⟩

namespace PollAct

/-- A step of the loop in which there is nothing to decide. -/
def go : PollAct := .poll ⟨none, true, .nothing, fun _ => [], .bare⟩

def connect (stream : List Char) : PollAct := .poll ⟨some stream, true, .nothing, fun _ => [], .bare⟩

/-- The loop passes a client. -/
def pass : PollAct := .poll ⟨none, false, .nothing, fun _ => [], .bare⟩

def recv (n : ℕ) : PollAct := .poll ⟨none, true, .data (n - 1), fun _ => [], .bare⟩

def close : PollAct := .poll ⟨none, true, .closed, fun _ => [], .bare⟩

/-- Taking a connection in, when there are `n` clients that have sent nothing. -/
def join (n : ℕ) (stream : List Char) : List PollAct :=
  connect stream :: List.replicate (n + 1) pass ++ [go]

/-- Receiving and handling a header from the client the loop is at. -/
def message : List PollAct := [go, go, recv MsgHeader.size, go, go, go, go, go]

end PollAct

def subscribeFrame : List Char := MsgHeader.bytes ⟨0, MsgType.subscribe.code⟩

def listFrame : List Char := MsgHeader.bytes ⟨0, MsgType.list.code⟩

/-- If no broadcast moves the slot the loop is at, the bytes of every client are kept for it,
    and every message is handled for the client that sent it. -/
theorem bookkeeping_of_inPlace {s : Poll} (hs : Run.Reachable Poll.step Poll.IsInit InPlace s) :
    Bookkeeping s := by
  have h := PollInv.of_reachable hs
  exact ⟨fun i hi fd hfd => (h.slotInv hi hfd).buffer, h.handled⟩

/-- Three clients, of which the first asks for the status of all downloads. -/
def threeClients : List PollAct :=
  PollAct.join 0 subscribeFrame ++ PollAct.join 1 listFrame ++ PollAct.join 2 listFrame ++ .go :: PollAct.message

/-- Two clients send a message each. -/
theorem bookkeeping_of_inPlace_message :
    ∃ s, Run.Reachable Poll.step Poll.IsInit InPlace s ∧
      s.handled.map (fun e => (e.source, e.client)) = [(1, some 1), (0, some 0)] ∧
      Bookkeeping s := by
  obtain ⟨s, hs, hp⟩ := Run.exists_reachable_of_exec Poll.step Poll.IsInit InPlace
    (fun s => s.handled.map (fun e => (e.source, e.client)) = [(1, some 1), (0, some 0)])
    Poll.isInit_start (threeClients ++ PollAct.message) (by decide +kernel)
  exact ⟨s, hs, hp, bookkeeping_of_inPlace hs⟩

/-- The header of the second client has been taken out of its buffer when another thread
    finds the first one gone: the message is then handled for the third. -/
theorem exists_misdirected :
    ¬∀ s, Run.Reachable Poll.step Poll.IsInit (fun _ _ => True) s → Bookkeeping s := by
  intro h
  obtain ⟨s, hs, e, he, hne⟩ := Run.exists_reachable_of_exec Poll.step Poll.IsInit
    (fun _ _ => True) (fun s => ∃ e ∈ s.handled, e.client ≠ some e.source) Poll.isInit_start
    (threeClients ++ PollAct.message.take 7 ++ [.broadcast 1 (· = some 0), .go])
    (by decide +kernel)
  exact hne ((h s hs).2 e he).1

/-! ## Framing -/

/-- No other thread broadcasts: what the daemon's own thread reports, it reports between two
    polls. -/
def Quiet (s : Poll) : PollAct → Prop
  | .broadcast _ _ => s.pc = .idle
  | _ => True

instance (s : Poll) (a : PollAct) : Decidable (Quiet s a) := by
  cases a <;> unfold Quiet <;> infer_instance

/-- All that a client has sent was received and dispatched, or it was closed for an invalid
    header. -/
def Poll.Settled (s : Poll) (fd : ℕ) : Prop :=
  (s.conns fd).fate = .ended ∨ (s.conns fd).fate = .rejected ∨
    (s.conns fd).fate = .open ∧ (s.conns fd).pending = [] ∧ s.pc = .idle

/-- What was dispatched for a connection are the frames of its stream, all of them in the
    end. -/
theorem PollInv.framed {s : Poll} (h : PollInv s) {fd : ℕ} (hfd : fd < s.accepted) :
    (s.conns fd).log <+: frames (s.conns fd).stream ∧
      (s.Settled fd → (s.conns fd).log = frames (s.conns fd).stream) ∧
      ∀ hdr, .rejected hdr ∈ (s.conns fd).log → (s.conns fd).fate = .rejected := by
  by_cases hopen : (s.conns fd).fate = .open
  · obtain ⟨i, hi, hi'⟩ := h.table fd hfd hopen
    have hslot := h.slotInv hi hi'
    refine ⟨⟨_, hslot.frames⟩, fun hsettled => ?_, fun hdr hmem => absurd hmem (hslot.valid hdr)⟩
    rcases hsettled with hended | hrejected | ⟨-, hpending, hidle⟩
    · rw [hopen] at hended
      cases hended
    · rw [hopen] at hrejected
      cases hrejected
    · rw [hidle] at hslot
      exact hslot.log_eq hpending
  · obtain ⟨hlog, hcomplete, hrejected⟩ := h.closed fd hfd hopen
    refine ⟨hlog, fun hsettled => ?_, hrejected⟩
    rcases hsettled with hended | hrejected | ⟨hopen', -, -⟩
    · exact hcomplete (.inl hended)
    · exact hcomplete (.inr hrejected)
    · exact absurd hopen' hopen

/-- Two connections on which the same is sent, in two runs without broadcasts of other
    threads, whatever the reads return and the other clients do: the same is dispatched for
    them, as far as they have come; and once all is received, or a header was invalid, all of it. Nothing is
    dispatched after an invalid header, and the connection is then closed. -/
theorem framing {s s' : Poll} (hs : Run.Reachable Poll.step Poll.IsInit Quiet s)
    (hs' : Run.Reachable Poll.step Poll.IsInit Quiet s') {fd fd' : ℕ} (hfd : fd < s.accepted)
    (hfd' : fd' < s'.accepted) (hstream : (s.conns fd).stream = (s'.conns fd').stream) :
    ((s.conns fd).log <+: (s'.conns fd').log ∨ (s'.conns fd').log <+: (s.conns fd).log) ∧
      (s.Settled fd → s'.Settled fd' → (s.conns fd).log = (s'.conns fd').log) ∧
      ∀ pre hdr post, (s.conns fd).log = pre ++ .rejected hdr :: post →
        post = [] ∧ validMessageHeader hdr = false ∧ (s.conns fd).fate = .rejected := by
  have hquiet : ∀ (t : Poll) a, Quiet t a → InPlace t a := by
    rintro t (c | ⟨downloadId, fails⟩ | store) hok
    · trivial
    · rw [Quiet] at hok
      simp only [InPlace, hok]
    · trivial
  obtain ⟨hlog, hsettled, hrejected⟩ := (PollInv.of_reachable (hs.mono hquiet)).framed hfd
  obtain ⟨hlog', hsettled', -⟩ := (PollInv.of_reachable (hs'.mono hquiet)).framed hfd'
  rw [← hstream] at hlog' hsettled'
  refine ⟨List.prefix_or_prefix_of_prefix hlog hlog',
    fun h h' => (hsettled h).trans (hsettled' h').symm, fun pre hdr post hsplit => ?_⟩
  obtain ⟨rest, hrest⟩ := hlog
  rw [hsplit, List.append_assoc, List.cons_append] at hrest
  rcases frames_eq_append hrest.symm with ⟨_, _, hhandled, -⟩ | ⟨hdr', hhdr, hinvalid, hnil⟩
  · cases hhandled
  · cases hhdr
    exact ⟨(List.append_eq_nil_iff.1 hnil).1, hinvalid, hrejected hdr (by simp [hsplit])⟩

/-- Two messages, one after the other, and then in pieces, while another client that came
    before is found gone by a report between the polls. -/
theorem framing_pieces :
    ∃ s s' : Poll, Run.Reachable Poll.step Poll.IsInit Quiet s ∧
      Run.Reachable Poll.step Poll.IsInit Quiet s' ∧
      (s.conns 0).log = [.handled ⟨0, MsgType.list.code⟩ [], .handled ⟨0, MsgType.list.code⟩ []] ∧
      (s.conns 0).log = (s'.conns 1).log := by
  obtain ⟨s, hs, hs₁, hs₂, hs₃, hs₄⟩ := Run.exists_reachable_of_exec Poll.step Poll.IsInit Quiet
    (fun s => (s.conns 0).log =
        [.handled ⟨0, MsgType.list.code⟩ [], .handled ⟨0, MsgType.list.code⟩ []] ∧
      0 < s.accepted ∧ (s.conns 0).stream = listFrame ++ listFrame ∧
      (s.conns 0).fate = .open ∧ (s.conns 0).pending = [] ∧ s.pc = .idle)
    Poll.isInit_start
    (PollAct.join 0 (listFrame ++ listFrame) ++ .go :: PollAct.message ++ [.go, .go] ++ PollAct.message ++ [.go])
    (by decide +kernel)
  obtain ⟨s', hs', hs'₁, hs'₂, hs'₃⟩ := Run.exists_reachable_of_exec Poll.step Poll.IsInit Quiet
    (fun s => 1 < s.accepted ∧ (s.conns 1).stream = listFrame ++ listFrame ∧
      (s.conns 1).fate = .open ∧ (s.conns 1).pending = [] ∧ s.pc = .idle)
    Poll.isInit_start
    (PollAct.join 0 subscribeFrame ++ PollAct.join 1 (listFrame ++ listFrame) ++
      .go :: PollAct.message ++ [.go, .go, .recv 3, .go, .go, .go] ++
      [.broadcast 1 (· = some 0), .go, .go, .go, .recv 5, .go, .go, .go, .go, .go, .go] ++
      .go :: PollAct.message ++ [.go])
    (by decide +kernel)
  exact ⟨s, s', hs, hs', hs₁, (framing hs hs' hs₂ hs'₁ (hs₃.trans hs'₂.symm)).2.1
    (.inr (.inr hs₄)) (.inr (.inr hs'₃))⟩

end Cdm
