import Cdm.Lib.Run
import Cdm.Platform.Messages

/-!
# The progress in the popup

The window of a browser download (`gui/browser_popup.c`) follows its download over a connection
of its own: `connect_progress` asks the daemon for the progress, and `poll_progress` reads the
events that follow, in pieces and without waiting. On the other side stand the handler of the
request and `ipc_broadcast_status` of `platform/ipc_socket.c`, each under the mutex of the
clients. Threads of the daemon broadcast at any time; a broadcast that is cut short closes the
connection. The window connects again when its connection is lost.

`applied_of_reachable`: what is shown is what was sent. However the bytes are cut, the window
shows progresses of its download that the daemon has sent, whole and in their order, the last one
that was sent if nothing is on its way; and it never takes the header of an event for a wrong one
(`header_of_reachable`).

A progress is handed over as it lies in memory, and is read back (`ofBytes_bytes`). The speed,
which is computed with floating-point numbers, is left out.
-/

namespace Cdm

open Wire

/-! ## A progress in memory -/

/-- The text in an array. -/
def arrayText (l : List Char) : CString := l.takeWhile (· ≠ Char.ofNat 0)

theorem length_arrayBytes (size : ℕ) (text : CString) : (arrayBytes size text).length = size := by
  rw [arrayBytes, List.length_take, List.length_append, List.length_replicate]
  exact min_eq_left (Nat.le_add_left size _)

/-- A text that is shorter than its array is read back. -/
theorem arrayText_arrayBytes {size : ℕ} {text : CString} (hlength : text.length < size)
    (hnull : Char.ofNat 0 ∉ text) : arrayText (arrayBytes size text) = text := by
  obtain ⟨n, hn⟩ : ∃ n, size - text.length = n + 1 := ⟨size - text.length - 1, by omega⟩
  have hbytes : arrayBytes size text = text ++ List.replicate (n + 1) (Char.ofNat 0) := by
    rw [arrayBytes, List.take_append, List.take_of_length_le hlength.le, List.take_replicate, hn,
      min_eq_left (by omega)]
  have hpos : ∀ c ∈ text, decide (c ≠ Char.ofNat 0) = true := fun c hc =>
    decide_eq_true fun h => hnull (h ▸ hc)
  rw [hbytes, arrayText, List.takeWhile_append_of_pos hpos, List.replicate_succ]
  simp

namespace IpcBrowserProgress

/-- The bytes of a progress. -/
def size : ℕ := 1336

/-- What the fields of the structure hold. -/
structure Fits (p : IpcBrowserProgress) : Prop where
  downloadId : p.downloadId < 256 ^ 4
  bytesReceived : p.bytesReceived < 256 ^ 8
  totalBytes : p.totalBytes < 256 ^ 8
  status : p.status.length < 24 ∧ Char.ofNat 0 ∉ p.status
  error : p.error.length < 256 ∧ Char.ofNat 0 ∉ p.error
  destPath : p.destPath.length < ipcMaxPathLen ∧ Char.ofNat 0 ∉ p.destPath

/-- The progress that lies in memory. -/
def ofBytes (l : List Char) : IpcBrowserProgress where
  downloadId := value (l.take 4)
  bytesReceived := value ((l.drop 8).take 8)
  totalBytes := value ((l.drop 16).take 8)
  progress := BitVec.ofNat 32 (value ((l.drop 24).take 4))
  status := arrayText ((l.drop 28).take 24)
  error := arrayText ((l.drop 52).take 256)
  destPath := arrayText ((l.drop 308).take ipcMaxPathLen)

theorem length_bytes (p : IpcBrowserProgress) : p.bytes.length = size := by
  simp only [bytes, List.length_append, length_littleEndian, length_arrayBytes]
  rfl

theorem ofBytes_bytes {p : IpcBrowserProgress} (h : p.Fits) : ofBytes p.bytes = p := by
  -- A field, between the fields before it and those after it.
  have hfield (a b c : List Char) {m n : ℕ} (hm : a.length = m) (hn : b.length = n) :
      ((a ++ b ++ c).drop m).take n = b := by
    rw [List.append_assoc, List.drop_left' hm, List.take_left' hn]
  have hid : p.bytes.take 4 = littleEndian 4 p.downloadId := by
    simp only [bytes, List.append_assoc]
    exact List.take_left' (length_littleEndian _ _)
  have hreceived : (p.bytes.drop 8).take 8 = littleEndian 8 p.bytesReceived := by
    simp only [bytes, List.append_assoc]
    rw [← List.append_assoc, ← List.append_assoc]
    exact hfield _ _ _ (by simp) (by simp)
  have htotal : (p.bytes.drop 16).take 8 = littleEndian 8 p.totalBytes := by
    simp only [bytes, List.append_assoc]
    rw [← List.append_assoc, ← List.append_assoc, ← List.append_assoc]
    exact hfield _ _ _ (by simp) (by simp)
  have hprogress : (p.bytes.drop 24).take 4 = littleEndian 4 p.progress.toNat := by
    simp only [bytes, List.append_assoc]
    rw [← List.append_assoc, ← List.append_assoc, ← List.append_assoc, ← List.append_assoc]
    exact hfield _ _ _ (by simp) (by simp)
  have hstatus : (p.bytes.drop 28).take 24 = arrayBytes 24 p.status := by
    rw [bytes, List.append_assoc, List.append_assoc]
    exact hfield _ _ _ (by simp) (length_arrayBytes _ _)
  have herror : (p.bytes.drop 52).take 256 = arrayBytes 256 p.error := by
    rw [bytes, List.append_assoc]
    exact hfield _ _ _ (by simp [length_arrayBytes]) (length_arrayBytes _ _)
  have hpath : (p.bytes.drop 308).take ipcMaxPathLen = arrayBytes ipcMaxPathLen p.destPath :=
    hfield _ _ _ (by simp [length_arrayBytes]) (length_arrayBytes _ _)
  have hbits : value (littleEndian 4 p.progress.toNat) = p.progress.toNat :=
    value_littleEndian_of_lt p.progress.isLt
  rw [ofBytes, hid, hreceived, htotal, hprogress, hstatus, herror, hpath, hbits,
    value_littleEndian_of_lt h.downloadId, value_littleEndian_of_lt h.bytesReceived,
    value_littleEndian_of_lt h.totalBytes, arrayText_arrayBytes h.status.1 h.status.2,
    arrayText_arrayBytes h.error.1 h.error.2, arrayText_arrayBytes h.destPath.1 h.destPath.2,
    BitVec.ofNat_toNat, BitVec.setWidth_eq]

/-- What the daemon says of a download fits, if what it knows of it does. -/
theorem fits_snapshot {ratio : ℕ → ℕ → BitVec 32} {s : Store} {id : ℕ} {error : CString}
    (hid : id < 256 ^ 4) (herror : error.length < 256 ∧ Char.ofNat 0 ∉ error)
    (hsnapshot : ∀ x ∈ queueManagerGetRuntimeSnapshot s id, x.totalSize < 256 ^ 8 ∧
      x.bytesDownloaded < 256 ^ 8 ∧ (x.chunks.map (·.bytesDone)).sum < 256 ^ 8 ∧
      x.destPath.length < ipcMaxPathLen ∧ Char.ofNat 0 ∉ x.destPath) :
    (browserProgressSnapshot ratio s id error).Fits := by
  rw [browserProgressSnapshot]
  rcases hlive : queueManagerGetRuntimeSnapshot s id with _ | x
  · simp only
    refine ⟨hid, Nat.two_pow_pos 64, Nat.two_pow_pos 64, ?_, ?_, ?_⟩ <;> simp only <;> decide
  · obtain ⟨htotal, hdownloaded, hsum, hpath⟩ := hsnapshot x hlive
    refine ⟨hid, ?_, htotal, ?_, herror, hpath⟩
    · simp only
      split
      · exact hdownloaded
      · split_ifs
        · exact htotal
        · exact hdownloaded
      · exact hsum
    · show (statusToString x.status).toList.length < 24 ∧ _ ∉ (statusToString x.status).toList
      cases x.status <;> decide

/-- A progress of which nothing is known. -/
def zero : IpcBrowserProgress := ⟨0, 0, 0, 0, [], [], []⟩

end IpcBrowserProgress

/-- A progress, as the structure holds it. -/
abbrev ProgressRecord := { p : IpcBrowserProgress // p.Fits }

namespace ProgressRecord

/-- The header of an event. -/
def header : MsgHeader := ⟨IpcBrowserProgress.size, MsgType.browserProgressEvent.code⟩

/-- The bytes of `progress_frame`. -/
def frameSize : ℕ := MsgHeader.size + IpcBrowserProgress.size

/-- The event of a progress. -/
def frame (p : ProgressRecord) : List Char := header.bytes ++ p.1.bytes

/-- The download whose events follow an answer. -/
def registered (p : ProgressRecord) : Option ℕ :=
  if p.1.status = "NOT_FOUND".toList then none else some p.1.downloadId

theorem length_frame (p : ProgressRecord) : p.frame.length = frameSize := by
  rw [frame, List.length_append, MsgHeader.length_bytes, p.1.length_bytes, frameSize]

theorem frameHeader_header (l : List Char) : frameHeader (header.bytes ++ l) = header := by
  rw [frameHeader, List.take_left' header.length_bytes]
  exact MsgHeader.ofBytes_bytes (by decide) (by decide)

end ProgressRecord

/-! ## The window and the daemon -/

/-- Where the window is. -/
inductive PopupPc
  | drawing
  /-- It has sent its request, and waits for the answer. -/
  | subscribing
  /-- The next read is the `i`-th one of `poll_progress`. -/
  | polling (i : ℕ)
  deriving DecidableEq

structure PopupState where
  downloadId : ℕ
  /-- There is a connection, `progress_sock`. -/
  connected : Bool
  progress : IpcBrowserProgress
  /-- The bytes of an event that have arrived. -/
  progressFrame : List Char
  fullPath : CString
  filename : CString
  /-- The connection is said to be lost. -/
  lost : Bool

/-- What follows the last slash. -/
def lastComponent (path : CString) : CString := (path.reverse.takeWhile (· ≠ '/')).reverse

/-- The progress that is shown from now on. -/
def PopupState.updateProgress (x : PopupState) (p : IpcBrowserProgress) : PopupState :=
  if p.destPath = [] then { x with progress := p }
  else
    { x with
      progress := p
      fullPath := p.destPath
      filename := (lastComponent p.destPath).take (ipcBrowserFilenameMax - 1) }

/-- Two windows show the same, whatever their connections do. -/
structure PopupState.Shows (x y : PopupState) : Prop where
  progress : x.progress = y.progress
  fullPath : x.fullPath = y.fullPath
  filename : x.filename = y.filename

namespace PopupState.Shows

variable {x y z : PopupState}

theorem refl (x : PopupState) : x.Shows x := ⟨rfl, rfl, rfl⟩

theorem trans (h : x.Shows y) (h' : y.Shows z) : x.Shows z :=
  ⟨h.progress.trans h'.progress, h.fullPath.trans h'.fullPath, h.filename.trans h'.filename⟩

theorem updateProgress (h : x.Shows y) (p : IpcBrowserProgress) :
    (x.updateProgress p).Shows (y.updateProgress p) := by
  rw [PopupState.updateProgress, PopupState.updateProgress]
  split_ifs
  · exact ⟨rfl, h.fullPath, h.filename⟩
  · exact ⟨rfl, rfl, rfl⟩

end PopupState.Shows

@[simp] theorem PopupState.downloadId_updateProgress (x : PopupState) (p : IpcBrowserProgress) :
    (x.updateProgress p).downloadId = x.downloadId := by
  rw [updateProgress]
  split_ifs <;> rfl

@[simp] theorem PopupState.connected_updateProgress (x : PopupState) (p : IpcBrowserProgress) :
    (x.updateProgress p).connected = x.connected := by
  rw [updateProgress]
  split_ifs <;> rfl

@[simp] theorem PopupState.progressFrame_updateProgress (x : PopupState) (p : IpcBrowserProgress) :
    (x.updateProgress p).progressFrame = x.progressFrame := by
  rw [updateProgress]
  split_ifs <;> rfl

structure ProgressLink where
  pc : PopupPc
  popup : PopupState
  /-- What the daemon has written, and the window has not read. -/
  wire : List Char
  /-- The daemon has answered the request. -/
  answered : Bool
  /-- The download whose events the daemon sends over the connection. -/
  registered : Option ℕ
  /-- The daemon has closed the connection. -/
  closed : Bool
  /-- All progresses sent, the first one first. -/
  sent : List IpcBrowserProgress
  /-- All progresses shown, the first one first. -/
  applied : List IpcBrowserProgress

/-- What a call of `recv` returns. -/
inductive PopupRecv
  /-- There is nothing to read at the moment, or the call was interrupted. -/
  | again
  | data (n : ℕ)
  | eof
  | failed

inductive ProgressAct
  /-- The window has no connection, and makes one. -/
  | connect (ok : Bool)
  /-- The daemon handles the request: it answers with the progress of the download asked for. -/
  | subscribe (p : ProgressRecord)
  /-- A thread of the daemon broadcasts the progress of a download; of the event, all is taken
      by the connection, or only some bytes. -/
  | broadcast (p : ProgressRecord) (cut : Option ℕ)
  /-- The daemon closes the connection. -/
  | close
  /-- The window reads the answer. -/
  | initial (ok : Bool)
  | poll
  | recv (r : PopupRecv)

namespace ProgressLink

/-- The reads of `poll_progress`. -/
def maxReads : ℕ := 16

/-- The window closes its connection, and will try again. -/
def disconnect (s : ProgressLink) : ProgressLink :=
  { s with
    pc := .drawing
    popup := { s.popup with connected := false, lost := true }
    wire := []
    answered := false
    registered := none
    closed := false }

def update (s : ProgressLink) (p : IpcBrowserProgress) : ProgressLink :=
  { s with popup := s.popup.updateProgress p, applied := s.applied ++ [p] }

/-- After a read that has found something: the next one, if there is one. -/
def nextRead (s : ProgressLink) (i : ℕ) : ProgressLink :=
  if i + 1 < maxReads then { s with pc := .polling (i + 1) } else s.disconnect

/-- The bytes of an event so far, in the `i`-th read. -/
def received (s : ProgressLink) (i : ℕ) (frame : List Char) : ProgressLink :=
  let s' := { s with popup := { s.popup with progressFrame := frame } }
  if MsgHeader.size ≤ frame.length then
    if frameHeader frame ≠ ProgressRecord.header then s'.disconnect
    else if frame.length = ProgressRecord.frameSize then
      let s'' := s'.update (.ofBytes (frame.drop MsgHeader.size))
      { s'' with popup := { s''.popup with progressFrame := [] } }.nextRead i
    else s'.nextRead i
  else s'.nextRead i

def step (s : ProgressLink) : ProgressAct → Option ProgressLink
  | .connect ok =>
    if s.pc = .drawing ∧ s.popup.connected = false then
      some (if ok then
        { s.disconnect with pc := .subscribing, popup := s.popup }
      else s.disconnect)
    else none
  | .subscribe p =>
    if s.pc = .subscribing ∧ s.answered = false ∧ s.closed = false ∧
        p.1.downloadId = s.popup.downloadId then
      some { s with
        answered := true
        registered := p.registered
        wire := s.wire ++ p.1.bytes
        sent := s.sent ++ [p.1] }
    else none
  | .broadcast p cut =>
    if s.registered = some p.1.downloadId ∧ s.closed = false then
      match cut with
      | none => some { s with wire := s.wire ++ p.frame, sent := s.sent ++ [p.1] }
      -- A connection that does not take all of the event is closed.
      | some n =>
        if n < p.frame.length then some { s with wire := s.wire ++ p.frame.take n, closed := true }
        else none
    else some s
  | .close =>
    if s.closed = false then some { s with closed := true } else none
  | .initial ok =>
    if s.pc = .subscribing then
      if ok = true then
        if IpcBrowserProgress.size ≤ s.wire.length then
          let p := IpcBrowserProgress.ofBytes (s.wire.take IpcBrowserProgress.size)
          if p.status = "NOT_FOUND".toList then some s.disconnect
          else
            some ({ s with
              pc := .drawing
              popup := { s.popup with connected := true, progressFrame := [], lost := false }
              wire := s.wire.drop IpcBrowserProgress.size }.update p)
        else none
      else some s.disconnect
    else none
  | .poll =>
    if s.pc = .drawing ∧ s.popup.connected = true then some { s with pc := .polling 0 } else none
  | .recv r =>
    match s.pc with
    | .polling i =>
      match r with
      | .again => some { s with pc := .drawing }
      | .data n =>
        if 0 < n ∧ n ≤ s.wire.length ∧
            n ≤ ProgressRecord.frameSize - s.popup.progressFrame.length then
          some ({ s with wire := s.wire.drop n }.received i
            (s.popup.progressFrame ++ s.wire.take n))
        else none
      | .eof => if s.closed = true ∧ s.wire = [] then some s.disconnect else none
      | .failed => some s.disconnect
    | _ => none

/-- The window of a download that has just been confirmed, with a path and a name to begin
    with. -/
def start (downloadId : ℕ) (fullPath filename : CString) : ProgressLink where
  pc := .drawing
  popup := ⟨downloadId, false, .zero, [], fullPath, filename, false⟩
  wire := []
  answered := false
  registered := none
  closed := false
  sent := []
  applied := []

/-! ## What is on its way -/

/-- What is left of an event that was cut short. -/
def Torn (closed : Bool) (torn : List Char) : Prop :=
  (closed = false → torn = []) ∧
    ∃ p : ProgressRecord, torn <+: p.frame ∧ torn.length < ProgressRecord.frameSize

theorem torn_nil (closed : Bool) : Torn closed [] :=
  ⟨fun _ => rfl, ⟨⟨.zero, by decide, by decide, by decide, by decide, by decide, by decide⟩,
    List.nil_prefix, by decide⟩⟩

/-- The progresses `pending` are on their way, those `done` have come over this connection. -/
inductive OnWay (s : ProgressLink) (done : List IpcBrowserProgress) (pending : List ProgressRecord)
    (torn : List Char) : Prop
  | idle (pc : s.pc = .drawing) (connected : s.popup.connected = false)
      (registered : s.registered = none) (done_eq : done = []) (pending_eq : pending = [])
  | asked (pc : s.pc = .subscribing) (connected : s.popup.connected = false)
      (answered : s.answered = false) (registered : s.registered = none) (wire : s.wire = [])
      (done_eq : done = []) (pending_eq : pending = []) (torn_eq : torn = [])
  | told (p : ProgressRecord) (rest : List ProgressRecord) (pc : s.pc = .subscribing)
      (connected : s.popup.connected = false) (answered : s.answered = true)
      (wire : s.wire = p.1.bytes ++ (rest.flatMap ProgressRecord.frame ++ torn))
      (done_eq : done = []) (pending_eq : pending = p :: rest)
  | following (pc : s.pc ≠ .subscribing) (connected : s.popup.connected = true)
      (done_ne : done ≠ []) (short : s.popup.progressFrame.length < ProgressRecord.frameSize)
      (bytes : s.popup.progressFrame ++ s.wire = pending.flatMap ProgressRecord.frame ++ torn)

/-- A window that has a connection follows its download. -/
theorem OnWay.following_of {s : ProgressLink} {done : List IpcBrowserProgress}
    {pending : List ProgressRecord} {torn : List Char} (h : OnWay s done pending torn)
    (hpc : s.pc ≠ .subscribing) (hopen : s.pc ≠ .drawing ∨ s.popup.connected = true) :
    s.popup.connected = true ∧ done ≠ [] ∧
      s.popup.progressFrame.length < ProgressRecord.frameSize ∧
      s.popup.progressFrame ++ s.wire = pending.flatMap ProgressRecord.frame ++ torn := by
  cases h with
  | idle hdrawing hnot =>
    rcases hopen with hopen | hopen
    · exact absurd hdrawing hopen
    · exact absurd (hnot.symm.trans hopen) Bool.false_ne_true
  | asked h => exact absurd h hpc
  | told _ _ h => exact absurd h hpc
  | following _ hconnected hdone hshort hbytes => exact ⟨hconnected, hdone, hshort, hbytes⟩

/-- What the daemon writes comes behind what is on its way. -/
theorem OnWay.behind {s s' : ProgressLink} {done : List IpcBrowserProgress}
    {pending tail : List ProgressRecord} {torn : List Char} (h : OnWay s done pending [])
    (hregistered : s.registered ≠ none) (hpc : s'.pc = s.pc) (hpopup : s'.popup = s.popup)
    (hanswered : s'.answered = s.answered)
    (hwire : s'.wire = s.wire ++ (tail.flatMap ProgressRecord.frame ++ torn)) :
    OnWay s' done (pending ++ tail) torn := by
  cases h with
  | idle _ _ hnot => exact absurd hnot hregistered
  | asked _ _ _ hnot => exact absurd hnot hregistered
  | told p rest hp hconnected hans hw hdone hpending =>
    refine .told p (rest ++ tail) (hpc.trans hp) (hpopup ▸ hconnected) (hanswered.trans hans) ?_
      hdone (by rw [hpending, List.cons_append])
    rw [hwire, hw, List.append_nil, List.flatMap_append, List.append_assoc, List.append_assoc]
  | following hp hconnected hdone hshort hbytes =>
    refine .following (hpc ▸ hp) (hpopup ▸ hconnected) hdone (hpopup ▸ hshort) ?_
    rw [List.append_nil] at hbytes
    rw [hwire, hpopup, ← List.append_assoc, hbytes, List.flatMap_append, List.append_assoc]

/-- What has been sent was lost with earlier connections, or has been shown, or is on its way. -/
structure Account (x₀ : PopupState) (s : ProgressLink) (old gone done : List IpcBrowserProgress)
    (pending : List ProgressRecord) : Prop where
  sent : s.sent = old ++ (done ++ pending.map (·.1))
  applied : s.applied = gone ++ done
  sublist : gone.Sublist old
  shows : s.popup.Shows (s.applied.foldl .updateProgress x₀)

def Inv (x₀ : PopupState) (s : ProgressLink) : Prop :=
  ∃ old gone done pending torn, Account x₀ s old gone done pending ∧ Torn s.closed torn ∧
    OnWay s done pending torn

variable {x₀ : PopupState} {s s' : ProgressLink} {old gone done : List IpcBrowserProgress}
  {pending : List ProgressRecord} {torn : List Char}

/-- The bytes that have arrived are the beginning of an event, and all of it if they are as
    many. -/
theorem front {frame wire : List Char} (htorn : Torn s.closed torn)
    (hbytes : frame ++ wire = pending.flatMap ProgressRecord.frame ++ torn)
    (hlength : frame.length ≤ ProgressRecord.frameSize) :
    ∃ p : ProgressRecord, frame <+: p.frame ∧
      (frame.length = ProgressRecord.frameSize → ∃ rest, pending = p :: rest ∧
        frame = p.frame ∧ wire = rest.flatMap ProgressRecord.frame ++ torn) := by
  cases pending with
  | nil =>
    -- Nothing but the rest of a torn event can come.
    obtain ⟨-, p, hcut, hlt⟩ := htorn
    rw [List.flatMap_nil, List.nil_append] at hbytes
    have hle : frame <+: torn := ⟨wire, hbytes⟩
    exact ⟨p, hle.trans hcut, fun heq => absurd (hle.length_le) (by omega)⟩
  | cons p rest =>
    rw [List.flatMap_cons, List.append_assoc] at hbytes
    have hframe : frame <+: p.frame :=
      List.prefix_of_prefix_length_le ⟨wire, hbytes⟩ (List.prefix_append _ _)
        (by rw [p.length_frame]; exact hlength)
    refine ⟨p, hframe, fun heq => ⟨rest, rfl, ?_⟩⟩
    have hall : frame = p.frame := hframe.eq_of_length (by rw [heq, p.length_frame])
    rw [hall] at hbytes
    exact ⟨hall, List.append_cancel_left hbytes⟩

/-- The header of the beginning of an event. -/
theorem frameHeader_of_front {p : ProgressRecord} {frame : List Char} (h : frame <+: p.frame)
    (hsize : MsgHeader.size ≤ frame.length) : frameHeader frame = ProgressRecord.header := by
  have htake : frame.take MsgHeader.size = p.frame.take MsgHeader.size := by
    obtain ⟨rest, hrest⟩ := h
    rw [← hrest, List.take_append_of_le_length hsize]
  rw [frameHeader, htake]
  exact ProgressRecord.frameHeader_header p.1.bytes

/-! ## The invariant -/

namespace Account

theorem of_eq (h : Account x₀ s old gone done pending) (hsent : s'.sent = s.sent)
    (happlied : s'.applied = s.applied) (hshows : s'.popup.Shows s.popup) :
    Account x₀ s' old gone done pending :=
  ⟨hsent ▸ h.sent, happlied ▸ h.applied, h.sublist, happlied ▸ hshows.trans h.shows⟩

/-- Another progress is on its way. -/
theorem send (h : Account x₀ s old gone done pending) {p : ProgressRecord}
    (hsent : s'.sent = s.sent ++ [p.1]) (happlied : s'.applied = s.applied)
    (hshows : s'.popup.Shows s.popup) : Account x₀ s' old gone done (pending ++ [p]) := by
  refine ⟨?_, happlied ▸ h.applied, h.sublist, happlied ▸ hshows.trans h.shows⟩
  rw [hsent, h.sent, List.map_append, List.map_singleton, List.append_assoc, List.append_assoc]

/-- What is on its way is lost with the connection. -/
theorem disconnect (h : Account x₀ s old gone done pending) :
    Account x₀ s.disconnect (old ++ (done ++ pending.map (·.1))) (gone ++ done) [] [] where
  sent := by
    rw [List.map_nil, List.append_nil, List.append_nil]
    exact h.sent
  applied := by
    rw [List.append_nil]
    exact h.applied
  sublist := h.sublist.append (List.sublist_append_left _ _)
  shows := ⟨h.shows.progress, h.shows.fullPath, h.shows.filename⟩

/-- The next progress is shown. -/
theorem update {p : ProgressRecord} (h : Account x₀ s old gone done (p :: pending)) :
    Account x₀ (s.update p.1) old gone (done ++ [p.1]) pending where
  sent := by
    rw [ProgressLink.update, h.sent, List.append_assoc done]
    rfl
  applied := by rw [ProgressLink.update, h.applied, List.append_assoc]
  sublist := h.sublist
  shows := by
    rw [ProgressLink.update, List.foldl_append]
    exact h.shows.updateProgress p.1

end Account

theorem Inv.disconnect (h : Account x₀ s old gone done pending) : Inv x₀ s.disconnect :=
  ⟨_, _, _, _, _, h.disconnect, torn_nil _, .idle rfl rfl rfl rfl rfl⟩

/-- After a read, the window goes on as it was, or without a connection. -/
theorem Inv.nextRead {i : ℕ} (haccount : Account x₀ s old gone done pending)
    (htorn : Torn s.closed torn) (hconnected : s.popup.connected = true) (hdone : done ≠ [])
    (hshort : s.popup.progressFrame.length < ProgressRecord.frameSize)
    (hbytes : s.popup.progressFrame ++ s.wire = pending.flatMap ProgressRecord.frame ++ torn) :
    Inv x₀ (s.nextRead i) := by
  rw [ProgressLink.nextRead]
  split_ifs
  · exact ⟨old, gone, done, pending, torn, haccount.of_eq rfl rfl (.refl _), htorn,
      .following (by simp) hconnected hdone hshort hbytes⟩
  · exact Inv.disconnect haccount

/-- The bytes that have arrived make up an event, or the beginning of one. -/
theorem Inv.received {i : ℕ} {frame : List Char} (haccount : Account x₀ s old gone done pending)
    (htorn : Torn s.closed torn) (hconnected : s.popup.connected = true) (hdone : done ≠ [])
    (hbytes : frame ++ s.wire = pending.flatMap ProgressRecord.frame ++ torn)
    (hlength : frame.length ≤ ProgressRecord.frameSize) : Inv x₀ (s.received i frame) := by
  obtain ⟨p, hcut, hwhole⟩ := front htorn hbytes hlength
  have hkept : Account x₀ { s with popup := { s.popup with progressFrame := frame } } old gone done
      pending := haccount.of_eq rfl rfl ⟨rfl, rfl, rfl⟩
  rw [ProgressLink.received]
  split_ifs with hsize hheader hfull
  · exact absurd (frameHeader_of_front hcut hsize) hheader
  · obtain ⟨rest, rfl, rfl, hwire⟩ := hwhole hfull
    have hdrop : p.frame.drop MsgHeader.size = p.1.bytes :=
      List.drop_left' ProgressRecord.header.length_bytes
    rw [hdrop, IpcBrowserProgress.ofBytes_bytes p.2]
    exact Inv.nextRead (hkept.update.of_eq rfl rfl ⟨rfl, rfl, rfl⟩) htorn
      ((PopupState.connected_updateProgress _ _).trans hconnected) (by simp)
      (show 0 < ProgressRecord.frameSize by decide) hwire
  · exact Inv.nextRead hkept htorn hconnected hdone (lt_of_le_of_ne hlength hfull) hbytes
  · exact Inv.nextRead hkept htorn hconnected hdone
      ((not_le.mp hsize).trans (by decide)) hbytes

theorem Inv.step {a : ProgressAct} (h : Inv x₀ s) (hs : s.step a = some s') : Inv x₀ s' := by
  obtain ⟨old, gone, done, pending, torn, haccount, htorn, hway⟩ := h
  cases a with
  | connect ok =>
    simp only [ProgressLink.step] at hs
    split_ifs at hs with hidle hok
    · -- A new connection, on which nothing has been sent.
      cases hs
      exact ⟨_, _, [], [], [], haccount.disconnect.of_eq rfl rfl ⟨rfl, rfl, rfl⟩, torn_nil _,
        .asked rfl hidle.2 rfl rfl rfl rfl rfl rfl⟩
    · cases hs
      exact Inv.disconnect haccount
  | subscribe p =>
    simp only [ProgressLink.step] at hs
    split_ifs at hs with hasked
    cases hs
    rcases hway with ⟨hpc, -⟩ | ⟨hpc, hconnected, -, -, hwire, rfl, rfl, rfl⟩ |
      ⟨q, rest, hpc, -, hanswered, -⟩ | ⟨hpc, -⟩
    · rw [hpc] at hasked
      exact nomatch hasked.1
    · -- The answer goes before all broadcasts, as none has been sent on this connection yet.
      refine ⟨old, gone, [], [p], [], haccount.send rfl rfl (.refl _), htorn,
        .told p [] hpc hconnected rfl ?_ rfl rfl⟩
      simp [hwire]
    · rw [hanswered] at hasked
      exact nomatch hasked.2.1
    · exact absurd hasked.1 hpc
  | broadcast p cut =>
    simp only [ProgressLink.step] at hs
    split_ifs at hs with hopen
    · have hregistered : s.registered ≠ none := by simp [hopen.1]
      obtain rfl := htorn.1 hopen.2
      cases cut with
      | none =>
        -- A whole record goes behind those on the way.
        cases hs
        exact ⟨old, gone, done, pending ++ [p], [], haccount.send rfl rfl (.refl _), torn_nil _,
          hway.behind hregistered rfl rfl rfl (by simp)⟩
      | some n =>
        -- A part of a record is the last of what is sent.
        simp only at hs
        split_ifs at hs with hn
        cases hs
        rw [p.length_frame] at hn
        have htorn' : Torn true (p.frame.take n) :=
          ⟨(fun h => nomatch h), p, List.take_prefix _ _, (List.length_take_le _ _).trans_lt hn⟩
        have hway' : OnWay { s with wire := s.wire ++ p.frame.take n, closed := true } done
            (pending ++ []) (p.frame.take n) := hway.behind hregistered rfl rfl rfl rfl
        rw [List.append_nil] at hway'
        exact ⟨old, gone, done, pending, _, haccount.of_eq rfl rfl (.refl _), htorn', hway'⟩
    · -- The broadcast is of another download, or the connection is closed.
      cases hs
      exact ⟨old, gone, done, pending, torn, haccount, htorn, hway⟩
  | close =>
    simp only [ProgressLink.step] at hs
    split_ifs at hs with hopen
    cases hs
    -- What has been sent may still be read.
    obtain rfl := htorn.1 hopen
    refine ⟨old, gone, done, pending, [], haccount.of_eq rfl rfl (.refl _), torn_nil _, ?_⟩
    rcases hway with ⟨h₁, h₂, h₃, h₄, h₅⟩ | ⟨h₁, h₂, h₃, h₄, h₅, h₆, h₇, h₈⟩ |
      ⟨q, rest, h₁, h₂, h₃, h₄, h₅, h₆⟩ | ⟨h₁, h₂, h₃, h₄, h₅⟩
    · exact .idle h₁ h₂ h₃ h₄ h₅
    · exact .asked h₁ h₂ h₃ h₄ h₅ h₆ h₇ h₈
    · exact .told q rest h₁ h₂ h₃ h₄ h₅ h₆
    · exact .following h₁ h₂ h₃ h₄ h₅
  | initial ok =>
    simp only [ProgressLink.step] at hs
    split_ifs at hs with hpc hok hsize hfound
    · cases hs
      exact Inv.disconnect haccount
    · cases hs
      -- The popup waits for the answer, and that is on the wire in full.
      rcases hway with ⟨h, -⟩ | ⟨-, -, -, -, hwire, -⟩ |
        ⟨p, rest, -, hconnected, -, hwire, rfl, rfl⟩ | ⟨h, -⟩
      · rw [hpc] at h
        exact nomatch h
      · rw [hwire] at hsize
        exact absurd hsize (by decide)
      · -- The answer comes before all events.
        have hlength := p.1.length_bytes
        rw [hwire, List.take_left' hlength, List.drop_left' hlength,
          IpcBrowserProgress.ofBytes_bytes p.2]
        have hkept : Account x₀ { s with
            pc := .drawing
            popup := { s.popup with connected := true, progressFrame := [], lost := false }
            wire := rest.flatMap ProgressRecord.frame ++ torn } old gone [] (p :: rest) :=
          haccount.of_eq rfl rfl ⟨rfl, rfl, rfl⟩
        exact ⟨old, gone, [p.1], rest, torn, hkept.update, htorn, .following (fun h => nomatch h)
          (PopupState.connected_updateProgress _ _) (by simp)
          (by
            rw [ProgressLink.update, PopupState.progressFrame_updateProgress]
            exact Nat.succ_pos _)
          (by rw [ProgressLink.update, PopupState.progressFrame_updateProgress]; rfl)⟩
      · exact absurd hpc h
    · cases hs
      exact Inv.disconnect haccount
  | poll =>
    simp only [ProgressLink.step] at hs
    split_ifs at hs with hdrawing
    cases hs
    obtain ⟨hconnected, hdone, hshort, hbytes⟩ :=
      hway.following_of (by rw [hdrawing.1]; simp) (.inr hdrawing.2)
    exact ⟨old, gone, done, pending, torn, haccount.of_eq rfl rfl (.refl _), htorn,
      .following (by simp) hconnected hdone hshort hbytes⟩
  | recv r =>
    simp only [ProgressLink.step] at hs
    split at hs
    · rename_i i hpc
      obtain ⟨hconnected, hdone, hshort, hbytes⟩ :=
        hway.following_of (by rw [hpc]; simp) (.inl (by rw [hpc]; simp))
      cases r with
      | again =>
        cases hs
        exact ⟨old, gone, done, pending, torn, haccount.of_eq rfl rfl (.refl _), htorn,
          .following (by simp) hconnected hdone hshort hbytes⟩
      | data n =>
        simp only at hs
        split_ifs at hs with hn
        cases hs
        refine Inv.received (haccount.of_eq rfl rfl (.refl _)) htorn hconnected hdone ?_ ?_
        · rw [List.append_assoc, List.take_append_drop, hbytes]
        · rw [List.length_append, List.length_take]
          omega
      | eof =>
        simp only at hs
        split_ifs at hs
        cases hs
        exact Inv.disconnect haccount
      | failed =>
        cases hs
        exact Inv.disconnect haccount
    · cases hs

variable {downloadId : ℕ} {fullPath filename : CString}

/-- All that goes over the connection is about the download of the window. -/
structure Followed (downloadId : ℕ) (s : ProgressLink) : Prop where
  popup : s.popup.downloadId = downloadId
  registered : ∀ id ∈ s.registered, id = downloadId
  sent : ∀ p ∈ s.sent, p.downloadId = downloadId

namespace Followed

theorem of_eq (h : Followed downloadId s) (hid : s'.popup.downloadId = s.popup.downloadId)
    (hregistered : s'.registered = s.registered) (hsent : s'.sent = s.sent) :
    Followed downloadId s' :=
  ⟨hid.trans h.popup, hregistered ▸ h.registered, hsent ▸ h.sent⟩

theorem disconnect (h : Followed downloadId s) : Followed downloadId s.disconnect :=
  ⟨h.popup, fun _ hid => (Option.not_mem_none _ hid).elim, h.sent⟩

theorem nextRead (h : Followed downloadId s) (i : ℕ) : Followed downloadId (s.nextRead i) := by
  rw [ProgressLink.nextRead]
  split_ifs
  · exact h.of_eq rfl rfl rfl
  · exact h.disconnect

theorem received (h : Followed downloadId s) (i : ℕ) (frame : List Char) :
    Followed downloadId (s.received i frame) := by
  have hkept : Followed downloadId { s with popup := { s.popup with progressFrame := frame } } :=
    h.of_eq rfl rfl rfl
  rw [ProgressLink.received]
  split_ifs
  · exact hkept.disconnect
  · refine nextRead ?_ i
    exact hkept.of_eq (PopupState.downloadId_updateProgress _ _) rfl rfl
  · exact hkept.nextRead i
  · exact hkept.nextRead i

theorem step {a : ProgressAct} (h : Followed downloadId s) (hs : s.step a = some s') :
    Followed downloadId s' := by
  cases a with
  | connect ok =>
    simp only [ProgressLink.step] at hs
    split_ifs at hs
    · cases hs
      exact h.disconnect.of_eq rfl rfl rfl
    · cases hs
      exact h.disconnect
  | subscribe p =>
    simp only [ProgressLink.step] at hs
    split_ifs at hs with hasked
    cases hs
    have hid : p.1.downloadId = downloadId := hasked.2.2.2.trans h.popup
    refine ⟨h.popup, fun id hmem => ?_, fun q hq => ?_⟩
    · simp only [ProgressRecord.registered] at hmem
      split_ifs at hmem
      · cases hmem
      · cases hmem
        exact hid
    · rcases List.mem_append.1 hq with hq | hq
      · exact h.sent q hq
      · rwa [List.mem_singleton.1 hq]
  | broadcast p cut =>
    simp only [ProgressLink.step] at hs
    split_ifs at hs with hopen
    · cases cut with
      | none =>
        cases hs
        refine ⟨h.popup, h.registered, fun q hq => ?_⟩
        rcases List.mem_append.1 hq with hq | hq
        · exact h.sent q hq
        · rw [List.mem_singleton.1 hq]
          exact h.registered _ hopen.1
      | some n =>
        simp only at hs
        split_ifs at hs
        cases hs
        exact h.of_eq rfl rfl rfl
    · cases hs
      exact h
  | close =>
    simp only [ProgressLink.step] at hs
    split_ifs at hs
    cases hs
    exact h.of_eq rfl rfl rfl
  | initial ok =>
    simp only [ProgressLink.step] at hs
    split_ifs at hs
    · cases hs
      exact h.disconnect
    · cases hs
      exact h.of_eq (PopupState.downloadId_updateProgress _ _) rfl rfl
    · cases hs
      exact h.disconnect
  | poll =>
    simp only [ProgressLink.step] at hs
    split_ifs at hs
    cases hs
    exact h.of_eq rfl rfl rfl
  | recv r =>
    simp only [ProgressLink.step] at hs
    split at hs
    · cases r with
      | again =>
        cases hs
        exact h.of_eq rfl rfl rfl
      | data n =>
        simp only at hs
        split_ifs at hs
        cases hs
        refine received ?_ _ _
        exact h.of_eq rfl rfl rfl
      | eof =>
        simp only at hs
        split_ifs at hs
        cases hs
        exact h.disconnect
      | failed =>
        cases hs
        exact h.disconnect
    · cases hs

end Followed

theorem inv_of_reachable
    (hs : Run.Reachable step (· = start downloadId fullPath filename) (fun _ _ => True) s) :
    Inv (start downloadId fullPath filename).popup s := by
  refine hs.invariant (fun s hinit => ?_) fun _ _ _ hinv _ hstep => hinv.step hstep
  subst hinit
  exact ⟨[], [], [], [], [], ⟨rfl, rfl, .refl _, .refl _⟩, torn_nil _, .idle rfl rfl rfl rfl rfl⟩

/-- No event is taken for something else: when a header is complete, it is that of an event. -/
theorem header_of_reachable
    (hs : Run.Reachable step (· = start downloadId fullPath filename) (fun _ _ => True) s) {i n : ℕ}
    (hpc : s.pc = .polling i)
    (hn : n ≤ ProgressRecord.frameSize - s.popup.progressFrame.length)
    (hsize : MsgHeader.size ≤ (s.popup.progressFrame ++ s.wire.take n).length) :
    frameHeader (s.popup.progressFrame ++ s.wire.take n) = ProgressRecord.header := by
  obtain ⟨old, gone, done, pending, torn, -, htorn, hway⟩ := inv_of_reachable hs
  obtain ⟨-, -, hshort, hbytes⟩ :=
    hway.following_of (by rw [hpc]; simp) (.inl (by rw [hpc]; simp))
  rw [← List.take_append_drop n s.wire, ← List.append_assoc] at hbytes
  obtain ⟨p, hcut, -⟩ := front htorn hbytes (by
    rw [List.length_append, List.length_take]
    omega)
  exact frameHeader_of_front hcut hsize

/-- What the window has shown are progresses of its download that were sent, in their order;
    it shows what the last ones of them say; and with a connection on which nothing is on its
    way, the last one shown is the last one sent. -/
theorem applied_of_reachable
    (hs : Run.Reachable step (· = start downloadId fullPath filename) (fun _ _ => True) s) :
    s.applied.Sublist s.sent ∧ (∀ p ∈ s.sent, p.downloadId = downloadId) ∧
      s.popup.Shows (s.applied.foldl .updateProgress (start downloadId fullPath filename).popup) ∧
      (s.popup.connected = true → s.popup.progressFrame = [] → s.wire = [] →
        s.applied.getLast? = s.sent.getLast?) := by
  obtain ⟨old, gone, done, pending, torn, haccount, -, hway⟩ := inv_of_reachable hs
  have hfollowed : Followed downloadId s :=
    hs.invariant (fun s hinit => by
      subst hinit
      exact ⟨rfl, fun _ hid => (Option.not_mem_none _ hid).elim,
        fun _ hp => (List.not_mem_nil hp).elim⟩)
      fun _ _ _ h _ hstep => h.step hstep
  refine ⟨?_, hfollowed.sent, haccount.shows, fun hconnected hframe hwire => ?_⟩
  · rw [haccount.sent, haccount.applied]
    exact haccount.sublist.append (List.sublist_append_left _ _)
  · have hpc : s.pc ≠ .subscribing := by
      rintro hpc
      cases hway with
      | idle h => exact nomatch h.symm.trans hpc
      | asked _ h => exact Bool.false_ne_true (h.symm.trans hconnected)
      | told _ _ _ h => exact Bool.false_ne_true (h.symm.trans hconnected)
      | following h => exact h hpc
    obtain ⟨-, hdone, -, hbytes⟩ := hway.following_of hpc (.inr hconnected)
    -- An event is not empty, so that none is on its way.
    obtain rfl : pending = [] := by
      cases pending with
      | nil => rfl
      | cons p rest =>
        have hlength := congrArg List.length hbytes
        simp only [hframe, hwire, List.flatMap_cons, List.length_append, p.length_frame,
          List.length_nil, ProgressRecord.frameSize, MsgHeader.size] at hlength
        omega
    rw [haccount.sent, haccount.applied, List.map_nil, List.append_nil,
      List.getLast?_append_of_ne_nil _ hdone, List.getLast?_append_of_ne_nil _ hdone]

/-- A download of ten bytes, of which some have been received. -/
def tenBytes (received : ℕ) : IpcBrowserProgress :=
  ⟨1, received, 10, 0, "ACTIVE".toList, [], "/d/f".toList⟩

theorem tenBytes_fits {received : ℕ} (h : received < 10) : (tenBytes received).Fits := by
  refine ⟨?_, h.trans (by decide), ?_, ?_, ?_, ?_⟩ <;> simp only [tenBytes] <;> decide

/-- An event comes in two pieces, that of another download does not come, the next one is lost
    with the connection, and the window asks again. -/
theorem applied_of_reachable_again :
    ∃ s : ProgressLink,
      Run.Reachable step (· = start 1 "/d/e".toList "e".toList) (fun _ _ => True) s ∧
      s.applied.map (·.bytesReceived) = [2, 5, 9] ∧
      s.sent.map (·.bytesReceived) = [2, 5, 7, 9] ∧ s.applied.Sublist s.sent ∧
      s.popup.filename = "f".toList := by
  let p (n : ℕ) (h : n < 10) : ProgressRecord := ⟨tenBytes n, tenBytes_fits h⟩
  let other : ProgressRecord := ⟨{ tenBytes 3 with downloadId := 2 },
    { tenBytes_fits (by decide : 3 < 10) with downloadId := by decide }⟩
  obtain ⟨s, hs, happlied, hsent, hname⟩ := Run.exists_reachable_of_exec step
    (· = start 1 "/d/e".toList "e".toList) (fun _ _ => True)
    (fun s => s.applied.map (·.bytesReceived) = [2, 5, 9] ∧
      s.sent.map (·.bytesReceived) = [2, 5, 7, 9] ∧ s.popup.filename = "f".toList) rfl
    [.connect true, .subscribe (p 2 (by decide)), .broadcast (p 5 (by decide)) none,
      .initial true, .poll, .recv (.data 1000), .broadcast other none, .recv (.data 344),
      .broadcast (p 7 (by decide)) none, .recv .failed, .connect true,
      .subscribe (p 9 (by decide)), .initial true]
    (by decide +kernel)
  exact ⟨s, hs, happlied, hsent, (applied_of_reachable hs).1, hname⟩

end ProgressLink

end Cdm
