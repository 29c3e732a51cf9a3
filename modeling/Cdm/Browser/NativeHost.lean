import Cdm.Platform.BrowserOffers
import Cdm.Platform.Messages
import Cdm.Platform.Protocol

/-!
# The native host

`native_host/main_host.c`: the program between the extension of the browser and the daemon. It
reads the messages of the extension from its standard input, offers their downloads to the
daemon, and tells the extension what becomes of the offers, which it polls.

What the daemon and the system answer to the host are parameters, and the daemon is handed on:
it is that of `BrowserOffers`. A message of the host is sent, or the host ends. The host polls its
offers over one connection (`Query`): a read that is given up leaves its answer there, or what is
left of it, and the host takes it for that of the next offer.

`hostReads_iff`: the host takes exactly the messages that are framed as the browser frames them.
-/

namespace Cdm

open Wire

namespace NativeHost

/-! ## Frames -/

def nativeMaxMessage : ℕ := 1024 * 1024

/-- What a read of standard input gives: a message and the bytes behind it, or the end, which
    is not in order if it is inside a frame. -/
inductive NativeRead
  | message (json rest : CString)
  | eof
  | malformed
  deriving DecidableEq

/-- Reading a message; standard input ends behind `l`. -/
def nativeRead (l : List Char) : NativeRead :=
  if l = [] then .eof
  else if l.length < 4 then .malformed
  else
    let length := value (l.take 4)
    let rest := l.drop 4
    if length = 0 ∨ nativeMaxMessage < length then .malformed
    else if rest.length < length then .malformed
    -- A message is handed on as a string, which a null would cut.
    else if Char.ofNat 0 ∈ rest.take length then .malformed
    else .message (rest.take length) (rest.drop length)

/-- The messages read until the end, and whether that was in order. A message takes up more
    than one byte. -/
def readMessages : (fuel : ℕ) → List Char → List CString × Bool
  | 0, _ => ([], false)
  | fuel + 1, l =>
    match nativeRead l with
    | .eof => ([], true)
    | .malformed => ([], false)
    | .message json rest =>
      let (messages, inOrder) := readMessages fuel rest
      (json :: messages, inOrder)

def hostReads (l : List Char) : List CString × Bool := readMessages (l.length + 1) l

/-- A message as it is written: its length and its bytes. -/
def nativeFrame (json : CString) : List Char := littleEndian 4 json.length ++ json

/-- A message that may be sent. -/
structure Sendable (json : CString) : Prop where
  nonempty : json ≠ []
  length : json.length ≤ nativeMaxMessage
  noNull : Char.ofNat 0 ∉ json

theorem nativeFrame_lt {json : CString} (h : ∀ c ∈ json, c.toNat < 256) :
    ∀ c ∈ nativeFrame json, c.toNat < 256 := by
  rw [nativeFrame, List.forall_mem_append]
  exact ⟨fun c hc => lt_of_mem_littleEndian hc, h⟩

theorem nativeRead_frame {json : CString} (h : Sendable json) (rest : List Char) :
    nativeRead (nativeFrame json ++ rest) = .message json rest := by
  have hmax := h.length
  rw [nativeMaxMessage] at hmax
  have hpos := List.length_pos_iff.mpr h.nonempty
  have htake : (nativeFrame json ++ rest).take 4 = littleEndian 4 json.length := by
    rw [nativeFrame, List.append_assoc, List.take_left' (length_littleEndian _ _)]
  have hdrop : (nativeFrame json ++ rest).drop 4 = json ++ rest := by
    rw [nativeFrame, List.append_assoc, List.drop_left' (length_littleEndian _ _)]
  have hlength : 4 ≤ (nativeFrame json ++ rest).length := by
    simp [nativeFrame]
  have hne : nativeFrame json ++ rest ≠ [] := by
    intro hnil
    rw [hnil] at hlength
    exact absurd hlength (by decide)
  rw [nativeRead, if_neg hne, if_neg hlength.not_gt]
  simp only [htake, hdrop, value_littleEndian_of_lt (show json.length < 256 ^ 4 by omega)]
  rw [if_neg (by rw [nativeMaxMessage]; omega), if_neg (by rw [List.length_append]; omega),
    List.take_left, List.drop_left, if_neg h.noNull]

/-- A message is read only from its frame. -/
theorem eq_of_nativeRead {l json rest : List Char} (hl : ∀ c ∈ l, c.toNat < 256)
    (h : nativeRead l = .message json rest) : Sendable json ∧ l = nativeFrame json ++ rest := by
  rw [nativeRead] at h
  split_ifs at h with hnil hshort
  simp only at h
  split_ifs at h with hlength htrunc hnull
  cases h
  rw [not_lt] at hshort htrunc
  rw [not_or, not_lt] at hlength
  have htake : ((l.drop 4).take (value (l.take 4))).length = value (l.take 4) :=
    List.length_take_of_le htrunc
  refine ⟨⟨?_, ?_, hnull⟩, ?_⟩
  · intro hnil
    rw [hnil] at htake
    exact hlength.1 htake.symm
  · rw [htake]
    exact hlength.2
  · have hhead : littleEndian 4 (value (l.take 4)) = l.take 4 :=
      littleEndian_value (List.length_take_of_le hshort) fun c hc => hl c (List.mem_of_mem_take hc)
    rw [nativeFrame, htake, hhead, List.append_assoc, List.take_append_drop, List.take_append_drop]

/-- Nothing is read where no frame begins. -/
theorem nativeRead_malformed {l : List Char} (hl : ∀ c ∈ l, c.toNat < 256) :
    nativeRead l = .malformed ↔
      l ≠ [] ∧ ∀ json rest, Sendable json → l ≠ nativeFrame json ++ rest := by
  constructor
  · intro h
    refine ⟨?_, ?_⟩
    · rintro rfl
      cases h
    · rintro json rest hjson rfl
      rw [nativeRead_frame hjson] at h
      cases h
  · rintro ⟨hne, hno⟩
    cases h : nativeRead l with
    | malformed => rfl
    | eof =>
      rw [nativeRead, if_neg hne] at h
      simp only at h
      split_ifs at h
    | message json rest =>
      obtain ⟨hjson, heq⟩ := eq_of_nativeRead hl h
      exact absurd heq (hno json rest hjson)

theorem readMessages_frames {messages : List CString} {tail : List Char} {fuel : ℕ}
    (h : ∀ json ∈ messages, Sendable json) :
    readMessages (messages.length + fuel) (messages.flatMap nativeFrame ++ tail) =
      (messages ++ (readMessages fuel tail).1, (readMessages fuel tail).2) := by
  induction messages with
  | nil => rw [List.length_nil, Nat.zero_add]; rfl
  | cons json messages ih =>
    rw [List.forall_mem_cons] at h
    rw [List.length_cons, Nat.add_right_comm, List.flatMap_cons, List.append_assoc, readMessages,
      nativeRead_frame h.1]
    simp only
    rw [ih h.2]
    rfl

/-- A stream is frames, and then nothing, or something that does not begin with a frame. -/
structure Framed (l : List Char) (messages : List CString) (inOrder : Bool) : Prop where
  sendable : ∀ json ∈ messages, Sendable json
  frames : ∃ tail, l = messages.flatMap nativeFrame ++ tail ∧
    if inOrder then tail = []
    else tail ≠ [] ∧ ∀ json rest, Sendable json → tail ≠ nativeFrame json ++ rest

theorem exists_framed {l : List Char} (hl : ∀ c ∈ l, c.toNat < 256) :
    ∃ messages inOrder, Framed l messages inOrder := by
  induction hn : l.length using Nat.strong_induction_on generalizing l with
  | _ n ih =>
    subst hn
    cases h : nativeRead l with
    | eof =>
      have hnil : l = [] := by
        by_contra hne
        rw [nativeRead, if_neg hne] at h
        simp only at h
        split_ifs at h
      exact ⟨[], true, by simp, [], by simp [hnil], rfl⟩
    | malformed => exact ⟨[], false, by simp, l, rfl, (nativeRead_malformed hl).mp h⟩
    | message json rest =>
      obtain ⟨hjson, rfl⟩ := eq_of_nativeRead hl h
      obtain ⟨messages, inOrder, hmessages, tail, rfl, htail⟩ := ih rest.length
        (by simp [nativeFrame]; omega) (fun c hc => hl c (List.mem_append_right _ hc)) rfl
      refine ⟨json :: messages, inOrder, List.forall_mem_cons.mpr ⟨hjson, hmessages⟩, tail, ?_, htail⟩
      rw [List.flatMap_cons, List.append_assoc]

/-- The host reads a message from each frame, up to the end or to where no frame begins. -/
theorem hostReads_iff {l : List Char} {messages : List CString} {inOrder : Bool}
    (hl : ∀ c ∈ l, c.toNat < 256) :
    hostReads l = (messages, inOrder) ↔ Framed l messages inOrder := by
  have hreads {messages : List CString} {inOrder : Bool} (h : Framed l messages inOrder) :
      hostReads l = (messages, inOrder) := by
    obtain ⟨hsendable, tail, rfl, htail⟩ := h
    have hle : messages.length ≤ (messages.flatMap nativeFrame ++ tail).length := by
      have hsum := List.length_le_sum_of_one_le (messages.map fun json => (nativeFrame json).length)
        (by simp [nativeFrame]; omega)
      rw [List.length_map] at hsum
      rw [List.length_append, List.length_flatMap]
      omega
    obtain ⟨k, hk⟩ := Nat.exists_eq_add_of_le hle
    rw [hostReads, hk, Nat.add_assoc, readMessages_frames hsendable, readMessages]
    cases inOrder with
    | true =>
      rw [if_pos rfl] at htail
      subst htail
      simp [nativeRead]
    | false =>
      rw [if_neg Bool.false_ne_true] at htail
      rw [(nativeRead_malformed fun c hc => hl c (List.mem_append_right _ hc)).mpr htail]
      simp
  refine ⟨fun h => ?_, hreads⟩
  obtain ⟨messages', inOrder', hframed⟩ := exists_framed hl
  have heq := hreads hframed
  rw [h] at heq
  cases heq
  exact hframed

/-- Two messages are read from their frames. -/
theorem hostReads_two :
    hostReads (nativeFrame "\x7b\x7d".toList ++ nativeFrame "[]".toList) =
      (["\x7b\x7d".toList, "[]".toList], true) := by
  have hbytes := List.forall_mem_append.mpr
    ⟨@nativeFrame_lt "\x7b\x7d".toList (by simp), @nativeFrame_lt "[]".toList (by simp)⟩
  refine (hostReads_iff hbytes).mpr ⟨?_, [], by simp, rfl⟩
  simp only [List.forall_mem_cons, List.not_mem_nil, false_implies, implies_true, and_true]
  exact ⟨⟨by decide, by decide, by decide⟩, by decide, by decide, by decide⟩

/-! ## The offers of the host -/

/-- An offer, and what the extension has been told of it. -/
structure HostOffer where
  offer : IpcBrowserOffer
  reportedState : BrowserState
  reportedBytes : ℕ
  reportedStatus : CString
  deriving DecidableEq

def HostOffer.zero : HostOffer := ⟨.zero, .waiting, 0, []⟩

def HostOffer.live (x : HostOffer) : Bool := x.offer.offerId ≠ 0

def hostMaxOffers : ℕ := 64

/-- What the host tells the extension. -/
inductive HostMsg
  | error (requestId message : CString)
  | registered (requestId : CString) (offerId : ℕ)
  | state (requestId state : CString) (offerId downloadId : ℕ)
      (progress : Option IpcBrowserProgress)

/-- The connection on which the host asks for its offers. -/
structure Query where
  connected : Bool
  /-- The identifiers asked for, until the daemon answers. -/
  asked : List ℕ
  /-- The answers, until the host reads them. -/
  answers : List IpcBrowserOffer
  /-- The host has given up in the middle of an answer. -/
  torn : Bool
  deriving DecidableEq

def Query.start : Query := ⟨true, [], [], false⟩

/-- What a read gives: an answer; or, after one that was torn, what is there in its place. -/
def Query.next (q : Query) (stray : IpcBrowserOffer) : Option (IpcBrowserOffer × Query) :=
  if q.torn = true then some (stray, q)
  else
    match q.answers with
    | [] => none
    | current :: answers => some (current, { q with answers := answers })

/-- A read that does not begin in the middle of an answer gives the next one. -/
theorem Query.next_eq_some {q q' : Query} {stray current : IpcBrowserOffer}
    (htorn : q.torn = false) (h : q.next stray = some (current, q')) :
    ∃ answers, q.answers = current :: answers ∧ q' = { q with answers := answers } := by
  rw [Query.next, if_neg (by simp [htorn])] at h
  split at h
  · cases h
  · rename_i next answers hanswers
    cases h
    exact ⟨answers, hanswers, rfl⟩

/-- Where the loop of `main` is. -/
inductive HostPc
  | idle
  /-- At an offer of those it polls. -/
  | polling (i : ℕ) (q : Query)
  /-- It has asked for the offer it is at. -/
  | asking (i : ℕ) (q : Query)
  deriving DecidableEq

def HostPc.query? : HostPc → Option Query
  | .idle => none
  | .polling _ q | .asking _ q => some q

def HostPc.withQuery : HostPc → Query → HostPc
  | .idle, _ => .idle
  | .polling i _, q => .polling i q
  | .asking i _, q => .asking i q

structure Host where
  offers : List HostOffer
  pc : HostPc

def Host.start : Host := ⟨List.replicate hostMaxOffers .zero, .idle⟩

/-- The text of a key, if it has one. -/
def stringOf (root : JsonRoot) (key : String) : Option CString :=
  match root key with
  | some (.string text) => some text
  | _ => none

/-- `copy_field` is `browser_json_string`. -/
def parseOffer (root : JsonRoot) : Option IpcBrowserOffer := do
  if stringOf root "type" = some "download_offer".toList then
    let requestId ← browserJsonString root "request_id" ipcBrowserRequestIdMax true
    let url ← browserJsonString root "url" ipcMaxUrlLen true
    let filename ← browserJsonString root "filename" ipcBrowserFilenameMax false
    let mime ← browserJsonString root "mime" ipcBrowserMimeMax false
    let referrer ← browserJsonString root "referrer" ipcMaxUrlLen false
    let totalBytes ← browserTotalBytes root
    some ⟨0, 0, totalBytes, .waiting, requestId, url, filename, mime, referrer⟩
  else none

def stateName : BrowserState → CString
  | .waiting => "waiting".toList
  | .confirmed => "confirmed".toList
  | .dismissed => "dismissed".toList

def sendState (offer : IpcBrowserOffer) (progress : Option IpcBrowserProgress) : HostMsg :=
  let state :=
    match progress with
    | none => stateName offer.state
    | some p =>
      if p.status = "DONE".toList then "complete".toList
      else if p.status = "ERROR".toList then "error".toList
      -- A download that is canceled counts as failed.
      else if p.status = "CANCELED".toList then "error".toList
      else if p.status = "ACTIVE".toList then "started".toList
      else stateName offer.state
  .state offer.requestId state offer.offerId offer.downloadId progress

/-- The index of the offer of a request, or of one that is not in use. -/
def findOfferSlot (offers : List HostOffer) (requestId : CString) : Option ℕ :=
  match offers.findIdx? fun x => x.live ∧ x.offer.requestId = requestId with
  | some i => some i
  | none => offers.findIdx? (!·.live)

/-- What comes of offering a download to the daemon. -/
structure OfferCall where
  running : Bool
  connected : Bool
  /-- The daemon handles the offer. -/
  handled : Bool
  /-- The answer arrives. -/
  answered : Bool
  /-- The size that the daemon reads, which JSON may have rounded. -/
  totalBytes : ℕ
  now : ℤ
  randomId : ℕ → ℕ
  popupFound : Bool
  popupSpawned : Bool

/-- What the daemon is sent of an offer. -/
def offeredRoot (o : IpcBrowserOffer) (totalBytes : ℕ) : JsonRoot := fun key =>
  if key = "request_id" then some (.string o.requestId)
  else if key = "url" then some (.string o.url)
  else if key = "filename" then some (.string o.filename)
  else if key = "mime" then some (.string o.mime)
  else if key = "referrer" then some (.string o.referrer)
  else if key = "total_bytes" then some (.number (some totalBytes))
  else none

/-- Registering what the daemon has answered, in a slot. -/
def register (offers : List HostOffer) (i : ℕ) (slot : HostOffer) (registered : IpcBrowserOffer)
    (call : OfferCall) : List HostOffer × List HostMsg :=
  let launch := slot.offer.offerId ≠ registered.offerId ∧ registered.state = .waiting
  -- A popup is opened for an offer that is new to the host and waits for the user.
  let messages := HostMsg.registered registered.requestId registered.offerId ::
    if launch then
      if call.popupFound = false then
        [.error registered.requestId "cannot locate cdm popup binary".toList]
      else if call.popupSpawned = false then
        [.error registered.requestId "could not launch cdm popup".toList]
      else []
    else []
  (offers.set i ⟨registered, registered.state, 0, []⟩, messages)

/-- Handling a message; `root` is its JSON, if it is any. -/
def handleMessage (offers : List HostOffer) (daemon : BrowserOffers) (root : Option JsonRoot)
    (call : OfferCall) : List HostOffer × BrowserOffers × List HostMsg :=
  match root with
  | none => (offers, daemon, [.error [] "invalid JSON".toList])
  | some root =>
    match parseOffer root with
    | none =>
      (offers, daemon, [.error ((stringOf root "request_id").getD [])
        "invalid or unsupported download offer".toList])
    | some offered =>
      match findOfferSlot offers offered.requestId with
      -- All slots are in use, by other requests.
      | none => (offers, daemon, [.error offered.requestId "too many pending downloads".toList])
      | some i =>
        if call.running = false then
          (offers, daemon, [.error offered.requestId "cdm daemon could not start".toList])
        else if call.connected = false then
          (offers, daemon, [.error offered.requestId "cdm daemon is unavailable".toList])
        else
          let (daemon', registered) :=
            if call.handled then
              daemon.handleOffer (some (offeredRoot offered call.totalBytes)) call.now call.randomId
            else (daemon, .zero)
          if call.answered = false ∨ registered.offerId = 0 then
            (offers, daemon', [.error offered.requestId "daemon rejected download offer".toList])
          else
            let (offers', messages) :=
              register offers i (offers.getD i .zero) registered call
            (offers', daemon', messages)

/-! ## Polling -/

/-- The daemon cannot be reached: every offer is given up. -/
def dropOffers (offers : List HostOffer) : List HostOffer × List HostMsg :=
  (offers.map fun _ => .zero, (offers.filter (·.live)).map fun x =>
    .error x.offer.requestId "cdm daemon disconnected".toList)

def isTerminal (status : CString) : Prop :=
  status = "DONE".toList ∨ status = "CANCELED".toList ∨ status = "ERROR".toList

instance (status : CString) : Decidable (isTerminal status) := by
  unfold isTerminal
  infer_instance

/-- Telling the extension of the progress of a confirmed offer. -/
def reportProgress (slot : HostOffer) (snapshot : IpcBrowserProgress) : HostOffer × List HostMsg :=
  let (slot, messages) :=
    if snapshot.bytesReceived ≠ slot.reportedBytes ∨ snapshot.status ≠ slot.reportedStatus then
      ({ slot with
          reportedBytes := snapshot.bytesReceived
          reportedStatus := strncpy 24 snapshot.status },
        [sendState slot.offer (some snapshot)])
    else (slot, [])
  (if isTerminal snapshot.status then .zero else slot, messages)

/-- Telling the extension of the state of an offer, which `current` is now. -/
def reportOffer (slot : HostOffer) (current : IpcBrowserOffer)
    (snapshot : Option IpcBrowserProgress) : HostOffer × List HostMsg :=
  let (slot, messages) :=
    if current.state ≠ slot.reportedState then
      ({ slot with reportedState := current.state }, [sendState current none])
    else (slot, [])
  let slot := { slot with offer := current }
  if current.state = .dismissed then (.zero, messages)
  else if current.state ≠ .confirmed ∨ current.downloadId = 0 then (slot, messages)
  else
    match snapshot with
    | none => (slot, messages)
    | some snapshot =>
      let (slot, more) := reportProgress slot snapshot
      (slot, messages ++ more)

/-- The query has failed, or the daemon does not have the offer. -/
def expire (slot : HostOffer) : HostOffer × List HostMsg :=
  (.zero, [.error slot.offer.requestId "download offer expired".toList])

/-- Polling an offer, with the answer that is read. -/
def pollOffer (slot : HostOffer) (current : IpcBrowserOffer)
    (snapshot : Option IpcBrowserProgress) : HostOffer × List HostMsg :=
  if current.offerId = 0 then expire slot else reportOffer slot current snapshot

end NativeHost

end Cdm
