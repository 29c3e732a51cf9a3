import Cdm.Lib.ListUpdate
import Cdm.Lib.Run
import Cdm.Platform.IpcSocket
import Cdm.Utils.Filename

/-!
# The offers of the browser

The browser offers a download to the daemon, and the user confirms or dismisses the offer:
the browser messages of `handle_message`, and the expiry of old offers, in
`platform/ipc_socket.c`. An offer is kept in one of `maxBrowserOffers` slots; a slot whose
offer has the identifier `0` is free.

The frames are handled one at a time, whichever client sends them. What is outside is a
parameter: the time, the source of random identifiers, the statuses of the downloads, and
the download reserved when an offer is confirmed, if any.

The slots are told apart over time by a serial number, and what happened to the offers is
recorded (`OfferEvent`), so that what holds over a whole run can be stated.
-/

namespace Cdm

/-- An offer, as it is sent to the clients. -/
structure IpcBrowserOffer where
  offerId : ℕ
  downloadId : ℕ
  totalBytes : ℕ
  state : BrowserState
  requestId : CString
  url : CString
  filename : CString
  mime : CString
  referrer : CString
  deriving DecidableEq

def IpcBrowserOffer.zero : IpcBrowserOffer := ⟨0, 0, 0, .waiting, [], [], [], [], []⟩

structure BrowserOfferSlot where
  offer : IpcBrowserOffer
  touchedAt : ℤ
  /-- Which offer of the run it is. -/
  serial : ℕ

/-- What a confirmation uses of an offer. -/
def IpcBrowserOffer.confirmable (o : IpcBrowserOffer) : BrowserOffer :=
  ⟨o.offerId, o.url, o.referrer, o.state, o.downloadId⟩

def BrowserOfferSlot.zero : BrowserOfferSlot := ⟨.zero, 0, 0⟩

/-- The slot is in use. -/
def BrowserOfferSlot.live (x : BrowserOfferSlot) : Bool := x.offer.offerId ≠ 0

/-- What happened to an offer. -/
inductive OfferEvent
  /-- A download was reserved for it. -/
  | reserved (serial downloadId : ℕ)
  /-- A confirmation was answered with a download. -/
  | answered (serial downloadId : ℕ)
  | dismissed (serial : ℕ)
  deriving DecidableEq

structure BrowserOffers where
  slots : List BrowserOfferSlot
  /-- The offers registered so far. -/
  opened : ℕ
  /-- The last event first. -/
  history : List OfferEvent

def maxBrowserOffers : ℕ := 64
def browserOfferTtlSeconds : ℤ := 600
def ipcMaxUrlLen : ℕ := 2048
def ipcBrowserRequestIdMax : ℕ := 128
def ipcBrowserFilenameMax : ℕ := 512
def ipcBrowserMimeMax : ℕ := 128

/-! ## Parsing an offer -/

/-- A value of a JSON object. -/
inductive JsonValue
  | string (text : CString)
  /-- A number: its integer part, if it is neither negative nor above `2 ^ 53 - 1`. -/
  | number (total : Option ℕ)
  | other

/-- The value of a key, if the JSON has one. -/
abbrev JsonRoot := String → Option JsonValue

/-- The text of a key, of less than `capacity` bytes; an empty one if there is none and it
    is not required. -/
def browserJsonString (root : JsonRoot) (key : String) (capacity : ℕ) (required : Bool) :
    Option CString :=
  match root key with
  | none => if required then none else some []
  | some (.string text) =>
    if required ∧ text = [] ∨ capacity ≤ text.length then none else some text
  | some _ => none

/-- A file name of a single component, other than the two directories. -/
def isPlainFilename (name : CString) : Bool :=
  !name.contains '/' && !name.contains '\\' && name ≠ ".".toList && name ≠ "..".toList

def hasHttpScheme (url : CString) : Bool :=
  "https://".toList.isPrefixOf url || "http://".toList.isPrefixOf url

/-- The size announced, `0` if there is none. -/
def browserTotalBytes (root : JsonRoot) : Option ℕ :=
  match root "total_bytes" with
  | none => some 0
  | some (.number total) => total
  | some _ => none

def browserParseOffer (root : JsonRoot) : Option IpcBrowserOffer := do
  let requestId ← browserJsonString root "request_id" ipcBrowserRequestIdMax true
  let url ← browserJsonString root "url" ipcMaxUrlLen true
  let filename ← browserJsonString root "filename" ipcBrowserFilenameMax false
  let mime ← browserJsonString root "mime" ipcBrowserMimeMax false
  let referrer ← browserJsonString root "referrer" ipcMaxUrlLen false
  let totalBytes ← browserTotalBytes root
  if hasHttpScheme url then
    -- Without a file name, one is derived from the URL.
    let name := if filename = [] then pathFilenameFromUrl url ipcBrowserFilenameMax else filename
    if isPlainFilename name then
      some ⟨0, 0, totalBytes, .waiting, requestId, url, name, mime, referrer⟩
    else none
  else none

/-! ## Slots -/

namespace BrowserOffers

/-- The first slot with a property, and its index. -/
def findSlot (s : BrowserOffers) (p : BrowserOfferSlot → Bool) : Option (BrowserOfferSlot × ℕ) :=
  s.slots.zipIdx.find? fun x => p x.1

def findOffer (s : BrowserOffers) (id : ℕ) : Option (BrowserOfferSlot × ℕ) :=
  s.findSlot fun x => id ≠ 0 ∧ x.offer.offerId = id

def findRequest (s : BrowserOffers) (requestId : CString) : Option (BrowserOfferSlot × ℕ) :=
  s.findSlot fun x => x.live ∧ x.offer.requestId = requestId

def put (s : BrowserOffers) (i : ℕ) (x : BrowserOfferSlot) : BrowserOffers :=
  { s with slots := s.slots.set i x }

def record (s : BrowserOffers) (e : OfferEvent) : BrowserOffers :=
  { s with history := e :: s.history }

/-- An identifier that no offer has, in at most `attempts` attempts; `0` if there is none. -/
def newId (s : BrowserOffers) (randomId : ℕ → ℕ) : (attempts : ℕ) → ℕ
  | 0 => 0
  | attempts + 1 =>
    let id := randomId attempts
    if id ≠ 0 ∧ (s.findOffer id).isNone then id else newId s randomId attempts

/-- The offers, as far as a confirmation uses them. -/
def confirmable (s : BrowserOffers) : List BrowserOffer := s.slots.map (·.offer.confirmable)

@[simp] theorem confirmable_record (s : BrowserOffers) (e : OfferEvent) :
    (s.record e).confirmable = s.confirmable := rfl

/-! ## Messages -/

def handleOffer (s : BrowserOffers) (root : Option JsonRoot) (now : ℤ) (randomId : ℕ → ℕ) :
    BrowserOffers × IpcBrowserOffer :=
  match root.bind browserParseOffer with
  | none => (s, .zero)
  | some proposed =>
    match s.findRequest proposed.requestId with
    -- An offer that is made again is answered as before; its other texts are not looked at.
    | some (x, _) => if x.offer.url ≠ proposed.url then (s, .zero) else (s, x.offer)
    | none =>
      match s.findSlot (!·.live) with
      | none => (s, .zero)
      | some (_, i) =>
        let id := s.newId randomId 16
        if id = 0 then (s, .zero)
        else
          let offer := { proposed with offerId := id }
          ({ s.put i ⟨offer, now, s.opened⟩ with opened := s.opened + 1 }, offer)

def handleGetOffer (s : BrowserOffers) (id : ℕ) (now : ℤ) : BrowserOffers × IpcBrowserOffer :=
  match s.findOffer id with
  | none => (s, .zero)
  | some (x, i) => (s.put i { x with touchedAt := now }, x.offer)

/-- A confirmation: an identifier, the length of a path, and what follows it in the frame. -/
def handleConfirm (s : BrowserOffers) (offerId pathLen : ℕ) (path : CString) (now : ℤ)
    (reserve : (url dest : CString) → RequestOptions → ℕ) : BrowserOffers × ℕ :=
  if 0 < pathLen ∧ pathLen < ipcMaxPathLen ∧ path.length = pathLen ∧ Char.ofNat 0 ∉ path then
    match s.findOffer offerId with
    | none => (s, 0)
    | some (x, i) =>
      match x.offer.state with
      -- A confirmation that comes again gets the download of the first one.
      | .confirmed => (s.record (.answered x.serial x.offer.downloadId), x.offer.downloadId)
      | .dismissed => (s, 0)
      | .waiting =>
        let id := reserve x.offer.url path ⟨[], x.offer.referrer, [], [], 0⟩
        if id = 0 then (s, 0)
        else
          let offer := { x.offer with downloadId := id, state := .confirmed }
          (((s.put i { x with offer := offer, touchedAt := now }).record (.reserved x.serial id)).record
            (.answered x.serial id), id)
  else (s, 0)

def handleDismiss (s : BrowserOffers) (id : ℕ) (now : ℤ) : BrowserOffers × IpcResult :=
  match s.findOffer id with
  | none => (s, .notFound)
  | some (x, i) =>
    match x.offer.state with
    | .waiting =>
      let offer := { x.offer with state := .dismissed }
      ((s.put i { x with offer := offer, touchedAt := now }).record (.dismissed x.serial), .ok)
    | .dismissed => (s, .ok)
    | .confirmed => (s, .rejected)

/-- The download of a confirmed offer is there, and has not ended. -/
def isRunning (status : ℕ → Option DownloadStatus) (id : ℕ) : Bool :=
  match status id with
  | none | some .done | some .error | some .canceled => false
  | some _ => true

/-- A slot that has not been touched for long is freed, unless its download is running. -/
def expireSlot (now : ℤ) (status : ℕ → Option DownloadStatus) (x : BrowserOfferSlot) :
    BrowserOfferSlot :=
  if x.live = false then x
  else if now - x.touchedAt ≤ browserOfferTtlSeconds then x
  else if x.offer.state = .confirmed ∧ isRunning status x.offer.downloadId = true then x
  else .zero

def expire (s : BrowserOffers) (now : ℤ) (status : ℕ → Option DownloadStatus) : BrowserOffers :=
  { s with slots := s.slots.map (expireSlot now status) }

end BrowserOffers

/-- What happens to the offers. -/
inductive OfferAct
  | offer (root : Option JsonRoot) (now : ℤ) (randomId : ℕ → ℕ)
  | getOffer (id : ℕ) (now : ℤ)
  | confirm (offerId pathLen : ℕ) (path : CString) (now : ℤ)
      (reserve : (url dest : CString) → RequestOptions → ℕ)
  | dismiss (id : ℕ) (now : ℤ)
  | expire (now : ℤ) (status : ℕ → Option DownloadStatus)

/-- The answer to a frame. -/
inductive OfferReply
  | offer (o : IpcBrowserOffer)
  | download (id : ℕ)
  | result (r : IpcResult)
  | silence
  deriving DecidableEq

namespace BrowserOffers

def step (s : BrowserOffers) : OfferAct → BrowserOffers × OfferReply
  | .offer root now randomId => (s.handleOffer root now randomId).map id .offer
  | .getOffer id' now => (s.handleGetOffer id' now).map id .offer
  | .confirm offerId pathLen path now reserve =>
    (s.handleConfirm offerId pathLen path now reserve).map id .download
  | .dismiss id' now => (s.handleDismiss id' now).map id .result
  | .expire now status => (s.expire now status, .silence)

/-- The slots when the daemon starts. -/
def start : BrowserOffers := ⟨List.replicate maxBrowserOffers .zero, 0, []⟩

def next (s : BrowserOffers) (a : OfferAct) : Option BrowserOffers := some (s.step a).1

end BrowserOffers

/-! ## What holds of the offers -/

/-- An offer has a web address, and a file name of a single component. -/
structure IpcBrowserOffer.Valid (o : IpcBrowserOffer) : Prop where
  url : "https://".toList <+: o.url ∨ "http://".toList <+: o.url
  nonempty : o.filename ≠ []
  component : '/' ∉ o.filename ∧ '\\' ∉ o.filename
  dots : o.filename ≠ ".".toList ∧ o.filename ≠ "..".toList

def OfferEvent.serial : OfferEvent → ℕ
  | .reserved k _ | .answered k _ | .dismissed k => k

/-- A download was reserved for the offer `k`. -/
def OfferEvent.reserves (k : ℕ) : OfferEvent → Bool
  | .reserved k' _ => k' = k
  | _ => false

/-- What the user may rely on, in every state. -/
structure OffersSound (s : BrowserOffers) : Prop where
  /-- Offers in use have distinct identifiers, and come from distinct requests. -/
  distinct : ∀ (i j : ℕ) (x y : BrowserOfferSlot), s.slots[i]? = some x → s.slots[j]? = some y → x.live = true →
    y.live = true → x.offer.offerId = y.offer.offerId ∨ x.offer.requestId = y.offer.requestId →
      i = j
  valid : ∀ x ∈ s.slots, x.live = true → x.offer.Valid
  confirmed : ∀ x ∈ s.slots, x.live = true →
    (x.offer.state = .confirmed ↔ x.offer.downloadId ≠ 0)
  /-- At most one download is reserved for an offer. -/
  once : ∀ k, (s.history.filter (·.reserves k)).length ≤ 1
  /-- The confirmations of an offer are answered with the download reserved for it. -/
  answers : ∀ k id, .answered k id ∈ s.history → .reserved k id ∈ s.history
  exclusive : ∀ k id, .dismissed k ∈ s.history → .reserved k id ∉ s.history

/-- What the user may rely on, in every step. -/
structure OfferStepSound (s : BrowserOffers) (a : OfferAct) : Prop where
  /-- An offer that has been confirmed or dismissed stays as it is, until it expires. -/
  settled : ∀ (i : ℕ) (x : BrowserOfferSlot), s.slots[i]? = some x → x.live = true → x.offer.state ≠ .waiting →
    ∃ y, (s.step a).1.slots[i]? = some y ∧ (y.offer = x.offer ∧ y.serial = x.serial ∨
      y = .zero ∧ ∃ now status, a = .expire now status)
  /-- A request made again is answered with its offer. -/
  again : ∀ root now randomId o x, a = .offer (some root) now randomId →
    browserParseOffer root = some o → x ∈ s.slots → x.live = true →
      x.offer.requestId = o.requestId → x.offer.url = o.url → s.step a = (s, .offer x.offer)
  /-- A confirmed offer does not expire while its download is there, and has not ended. -/
  kept : ∀ now status (i : ℕ) (x : BrowserOfferSlot) st, a = .expire now status → s.slots[i]? = some x → x.live = true →
    x.offer.state = .confirmed → status x.offer.downloadId = some st → st ≠ .done →
      st ≠ .error → st ≠ .canceled → (s.step a).1.slots[i]? = some x

/-- The invariant: the events of an offer in use are those of its state. -/
structure OfferInv (s : BrowserOffers) : Prop extends OffersSound s where
  serials : ∀ (i j : ℕ) (x y : BrowserOfferSlot), s.slots[i]? = some x → s.slots[j]? = some y → x.live = true →
    y.live = true → x.serial = y.serial → i = j
  opened : ∀ x ∈ s.slots, x.live = true → x.serial < s.opened
  past : ∀ e ∈ s.history, e.serial < s.opened
  reserved : ∀ x ∈ s.slots, x.live = true → ∀ id, .reserved x.serial id ∈ s.history ↔
    x.offer.state = .confirmed ∧ x.offer.downloadId = id
  dismissed : ∀ x ∈ s.slots, x.live = true →
    (.dismissed x.serial ∈ s.history ↔ x.offer.state = .dismissed)

/-! ## Parsing -/

/-- What is parsed waits for the user, and is valid. -/
theorem browserParseOffer_spec {root : JsonRoot} {o : IpcBrowserOffer}
    (h : browserParseOffer root = some o) : o.Valid ∧ o.state = .waiting ∧ o.downloadId = 0 := by
  simp only [browserParseOffer, Option.bind_eq_bind, Option.bind_eq_some_iff] at h
  obtain ⟨requestId, -, url, -, filename, -, mime, -, referrer, -, total, -, h⟩ := h
  have hvalid {name : CString} (hurl : hasHttpScheme url = true) (hne : name ≠ [])
      (hplain : isPlainFilename name = true) :
      IpcBrowserOffer.Valid ⟨0, 0, total, .waiting, requestId, url, name, mime, referrer⟩ := by
    simp only [isPlainFilename, Bool.and_eq_true, Bool.not_eq_true', List.contains_eq_mem,
      decide_eq_false_iff_not, decide_eq_true_eq] at hplain
    exact ⟨by simpa [hasHttpScheme] using hurl, hne, hplain.1.1, hplain.1.2, hplain.2⟩
  split_ifs at h with hurl hnil hplain hplain
  · cases h
    exact ⟨hvalid hurl (pathFilenameFromUrl_ne_nil (by decide)) hplain, rfl, rfl⟩
  · cases h
    exact ⟨hvalid hurl hnil hplain, rfl, rfl⟩

namespace BrowserOffers

variable {s : BrowserOffers} {p : BrowserOfferSlot → Bool} {x y : BrowserOfferSlot} {i id : ℕ}

theorem findSlot_spec (h : s.findSlot p = some (x, i)) : s.slots[i]? = some x ∧ p x = true := by
  have hp := List.find?_some h
  exact ⟨List.mk_mem_zipIdx_iff_getElem?.1 (List.mem_of_find?_eq_some h), hp⟩

theorem not_of_findSlot (h : s.findSlot p = none) (hx : x ∈ s.slots) : p x = false := by
  obtain ⟨i, hi⟩ := List.mem_iff_getElem?.1 hx
  have := List.find?_eq_none.1 h (x, i) (List.mk_mem_zipIdx_iff_getElem?.2 hi)
  simpa using this

theorem findOffer_spec (h : s.findOffer id = some (x, i)) :
    s.slots[i]? = some x ∧ x.live = true := by
  obtain ⟨hx, hid⟩ := findSlot_spec h
  have hid : id ≠ 0 ∧ x.offer.offerId = id := of_decide_eq_true hid
  refine ⟨hx, ?_⟩
  rw [BrowserOfferSlot.live, hid.2]
  exact decide_eq_true hid.1

theorem browserFindOffer_of_findOffer (h : s.findOffer id = some (x, i)) :
    browserFindOffer s.confirmable id = some x.offer.confirmable := by
  rw [findOffer, findSlot] at h
  exact (List.map_set_of_find?_zipIdx (b := x) (f := fun o => o) h (fun _ => rfl) rfl).1

theorem browserFindOffer_eq_none (h : s.findOffer id = none) :
    browserFindOffer s.confirmable id = none := by
  rw [findOffer, findSlot] at h
  exact List.find?_map_of_find?_zipIdx h fun _ => rfl

/-- To put an offer into the slot found is to change the first offer of the identifier. -/
theorem confirmable_put (h : s.findOffer id = some (x, i)) {f : BrowserOffer → BrowserOffer}
    (hy : y.offer.confirmable = f x.offer.confirmable) :
    (s.put i y).confirmable = s.confirmable.modifyFirst (·.offerId = id) f := by
  have hid : id ≠ 0 := (of_decide_eq_true (findSlot_spec h).2 : id ≠ 0 ∧ _).1
  rw [findOffer, findSlot] at h
  exact (List.map_set_of_find?_zipIdx (g := fun z : BrowserOfferSlot => z.offer.confirmable)
    (p := fun z => id ≠ 0 ∧ z.offer.offerId = id) (q := (·.offerId = id)) h
    (fun z => decide_eq_decide.2 (and_iff_right hid).symm) hy).2

theorem newId_spec {randomId : ℕ → ℕ} {attempts : ℕ} (h : s.newId randomId attempts ≠ 0) :
    ∀ x ∈ s.slots, x.offer.offerId ≠ s.newId randomId attempts := by
  induction attempts with
  | zero => exact absurd rfl h
  | succ attempts ih =>
    rw [newId] at h ⊢
    split_ifs at h ⊢ with hfree
    · intro x hx heq
      have := not_of_findSlot (Option.isNone_iff_eq_none.1 hfree.2) hx
      simp [hfree.1, heq] at this
    · exact ih h

end BrowserOffers

/-! ## What the steps keep -/

namespace OfferInv

open BrowserOffers

variable {s : BrowserOffers} {x y : BrowserOfferSlot} {i : ℕ} {now : ℤ}

theorem getElem?_put {j : ℕ} (h : (s.put i y).slots[j]? = some x) :
    j = i ∧ x = y ∨ j ≠ i ∧ s.slots[j]? = some x := by
  rw [put, List.getElem?_set] at h
  split_ifs at h with hij hlt
  · exact .inl ⟨hij.symm, (Option.some.inj h).symm⟩
  · exact .inr ⟨fun hji => hij hji.symm, h⟩

/-- The offers in use are as before, or fewer. -/
theorem of_slots {slots : List BrowserOfferSlot} (h : OfferInv s)
    (hold : ∀ (j : ℕ) (y : BrowserOfferSlot), slots[j]? = some y → y.live = true →
      ∃ y₀ : BrowserOfferSlot, s.slots[j]? = some y₀ ∧ y.offer = y₀.offer ∧ y.serial = y₀.serial) :
    OfferInv { s with slots := slots } := by
  have hlive {j : ℕ} {y : BrowserOfferSlot} (hy : slots[j]? = some y) (hl : y.live = true) :
      ∃ y₀, s.slots[j]? = some y₀ ∧ y₀.live = true ∧ y.offer = y₀.offer ∧ y.serial = y₀.serial := by
    obtain ⟨y₀, hy₀, ho, hs⟩ := hold j y hy hl
    exact ⟨y₀, hy₀, by rwa [BrowserOfferSlot.live, ho] at hl, ho, hs⟩
  have hmem {y : BrowserOfferSlot} (hy : y ∈ slots) (hl : y.live = true) :
      ∃ y₀ ∈ s.slots, y₀.live = true ∧ y.offer = y₀.offer ∧ y.serial = y₀.serial := by
    obtain ⟨j, hj⟩ := List.mem_iff_getElem?.1 hy
    obtain ⟨y₀, hy₀, heq⟩ := hlive hj hl
    exact ⟨y₀, List.mem_of_getElem? hy₀, heq⟩
  refine ⟨⟨fun j k y z hy hz hly hlz heq => ?_, fun y hy hl => ?_, fun y hy hl => ?_, h.once,
    h.answers, h.exclusive⟩, fun j k y z hy hz hly hlz heq => ?_, fun y hy hl => ?_, h.past,
    fun y hy hl => ?_, fun y hy hl => ?_⟩
  · obtain ⟨y₀, hy₀, hly₀, hyo, -⟩ := hlive hy hly
    obtain ⟨z₀, hz₀, hlz₀, hzo, -⟩ := hlive hz hlz
    exact h.distinct j k y₀ z₀ hy₀ hz₀ hly₀ hlz₀ (by rwa [hyo, hzo] at heq)
  · obtain ⟨y₀, hy₀, hl₀, hyo, -⟩ := hmem hy hl
    exact hyo ▸ h.valid y₀ hy₀ hl₀
  · obtain ⟨y₀, hy₀, hl₀, hyo, -⟩ := hmem hy hl
    exact hyo ▸ h.confirmed y₀ hy₀ hl₀
  · obtain ⟨y₀, hy₀, hly₀, -, hys⟩ := hlive hy hly
    obtain ⟨z₀, hz₀, hlz₀, -, hzs⟩ := hlive hz hlz
    exact h.serials j k y₀ z₀ hy₀ hz₀ hly₀ hlz₀ (by rw [← hys, ← hzs, heq])
  · obtain ⟨y₀, hy₀, hl₀, -, hys⟩ := hmem hy hl
    exact hys ▸ h.opened y₀ hy₀ hl₀
  · obtain ⟨y₀, hy₀, hl₀, hyo, hys⟩ := hmem hy hl
    exact hyo ▸ hys ▸ h.reserved y₀ hy₀ hl₀
  · obtain ⟨y₀, hy₀, hl₀, hyo, hys⟩ := hmem hy hl
    exact hyo ▸ hys ▸ h.dismissed y₀ hy₀ hl₀

/-- A slot whose offer stays as it is. -/
theorem touch (h : OfferInv s) (hx : s.slots[i]? = some x) :
    OfferInv (s.put i { x with touchedAt := now }) := by
  refine h.of_slots fun j y hy _ => ?_
  rcases getElem?_put hy with ⟨rfl, rfl⟩ | ⟨-, hy⟩
  · exact ⟨x, hx, rfl, rfl⟩
  · exact ⟨y, hy, rfl, rfl⟩

theorem expire (h : OfferInv s) (now : ℤ) (status : ℕ → Option DownloadStatus) :
    OfferInv (s.expire now status) := by
  refine h.of_slots fun j y hy hl => ?_
  rw [List.getElem?_map] at hy
  obtain ⟨y₀, hy₀, rfl⟩ := Option.map_eq_some_iff.1 hy
  refine ⟨y₀, hy₀, ?_⟩
  rw [expireSlot] at hl ⊢
  split_ifs at hl ⊢
  · exact ⟨rfl, rfl⟩
  · exact ⟨rfl, rfl⟩
  · exact ⟨rfl, rfl⟩
  · cases hl

/-- A confirmation is answered with the download reserved before. -/
theorem answer {k id : ℕ} (h : OfferInv s) (hk : .reserved k id ∈ s.history) :
    OfferInv (s.record (.answered k id)) := by
  have hmem {e : OfferEvent} : e ∈ (s.record (.answered k id)).history ↔
      e = .answered k id ∨ e ∈ s.history := List.mem_cons
  refine ⟨⟨h.distinct, h.valid, h.confirmed, fun k' => ?_, fun k' id' he => ?_,
    fun k' id' hd hr => ?_⟩, h.serials, h.opened, fun e he => ?_, fun y hy hl id' => ?_,
    fun y hy hl => ?_⟩
  · exact h.once k'
  · rcases hmem.1 he with he | he
    · cases he
      exact hmem.2 (.inr hk)
    · exact hmem.2 (.inr (h.answers k' id' he))
  · exact h.exclusive k' id' ((hmem.1 hd).resolve_left (by simp)) ((hmem.1 hr).resolve_left (by simp))
  · rcases hmem.1 he with rfl | he
    · have hlt := h.past _ hk
      exact hlt
    · exact h.past e he
  · rw [hmem, ← h.reserved y hy hl id']
    simp
  · rw [hmem, ← h.dismissed y hy hl]
    simp

/-- An offer that waits is confirmed or dismissed, which is recorded by the event `e`. -/
theorem settle {o : IpcBrowserOffer} {e : OfferEvent} (h : OfferInv s)
    (hx : s.slots[i]? = some x) (hl : x.live = true) (hw : x.offer.state = .waiting)
    (hid : o.offerId = x.offer.offerId) (hreq : o.requestId = x.offer.requestId)
    (hvalid : o.Valid) (he : (o.state = .dismissed ∧ o.downloadId = 0 ∧ e = .dismissed x.serial) ∨
      (o.state = .confirmed ∧ o.downloadId ≠ 0 ∧ e = .reserved x.serial o.downloadId)) :
    OfferInv ((s.put i { x with offer := o, touchedAt := now }).record e) := by
  set x' : BrowserOfferSlot := { x with offer := o, touchedAt := now }
  have hxm := List.mem_of_getElem? hx
  -- Nothing has happened to the offer before.
  have hnew (id : ℕ) : .reserved x.serial id ∉ s.history := by
    rw [h.reserved x hxm hl, hw]
    simp
  have hnot : .dismissed x.serial ∉ s.history := by
    rw [h.dismissed x hxm hl, hw]
    simp
  have hserial : e.serial = x.serial := by
    rcases he with ⟨-, -, rfl⟩ | ⟨-, -, rfl⟩ <;> rfl
  have hmem {e' : OfferEvent} : e' ∈ ((s.put i x').record e).history ↔ e' = e ∨ e' ∈ s.history :=
    List.mem_cons
  -- A slot is the one settled, or one from before.
  have hslot {j : ℕ} {y : BrowserOfferSlot} (hy : ((s.put i x').record e).slots[j]? = some y)
      (hly : y.live = true) : ∃ y₀, s.slots[j]? = some y₀ ∧ y₀.live = true ∧
        y.offer.offerId = y₀.offer.offerId ∧ y.offer.requestId = y₀.offer.requestId ∧
        y.serial = y₀.serial ∧ (j = i ∧ y = x' ∨ y.serial ≠ x.serial ∧ y = y₀) := by
    rcases getElem?_put hy with ⟨rfl, rfl⟩ | ⟨hne, hy⟩
    · exact ⟨x, hx, hl, hid, hreq, rfl, .inl ⟨rfl, rfl⟩⟩
    · exact ⟨y, hy, hly, rfl, rfl, rfl, .inr ⟨fun hs => hne (h.serials j i y x hy hx hly hl hs), rfl⟩⟩
  have hslots {y : BrowserOfferSlot} (hy : y ∈ ((s.put i x').record e).slots)
      (hly : y.live = true) : y = x' ∨ y ∈ s.slots ∧ y.serial ≠ x.serial := by
    obtain ⟨j, hj⟩ := List.mem_iff_getElem?.1 hy
    obtain ⟨y₀, hy₀, -, -, -, -, ⟨-, rfl⟩ | ⟨hs, rfl⟩⟩ := hslot hj hly
    · exact .inl rfl
    · exact .inr ⟨List.mem_of_getElem? hy₀, hs⟩
  refine ⟨⟨fun j k y z hy hz hly hlz heq => ?_, fun y hy hly => ?_, fun y hy hly => ?_,
    fun k => ?_, fun k id hk => ?_, fun k id hd hr => ?_⟩, fun j k y z hy hz hly hlz heq => ?_,
    fun y hy hly => ?_, fun e' he' => ?_, fun y hy hly id => ?_, fun y hy hly => ?_⟩
  · obtain ⟨y₀, hy₀, hly₀, hyi, hyr, -⟩ := hslot hy hly
    obtain ⟨z₀, hz₀, hlz₀, hzi, hzr, -⟩ := hslot hz hlz
    exact h.distinct j k y₀ z₀ hy₀ hz₀ hly₀ hlz₀ (by rwa [hyi, hyr, hzi, hzr] at heq)
  · rcases hslots hy hly with rfl | ⟨hy, -⟩
    · exact hvalid
    · exact h.valid y hy hly
  · rcases hslots hy hly with rfl | ⟨hy, -⟩
    · rcases he with ⟨hs, hd, -⟩ | ⟨hs, hd, -⟩ <;> simp [x', hs, hd]
    · exact h.confirmed y hy hly
  · change ((e :: s.history).filter (·.reserves k)).length ≤ 1
    by_cases hk : e.reserves k = true
    · -- No download was reserved for it before.
      have hnil : s.history.filter (·.reserves k) = [] := by
        rcases he with ⟨-, -, rfl⟩ | ⟨-, -, rfl⟩
        · cases hk
        · have hk : x.serial = k := by simpa [OfferEvent.reserves] using hk
          subst hk
          refine List.filter_eq_nil_iff.2 fun e' he' => ?_
          cases e' with
          | reserved k' id' =>
            rw [OfferEvent.reserves, decide_eq_true_eq]
            rintro rfl
            exact hnew id' he'
          | _ => simp [OfferEvent.reserves]
      rw [List.filter_cons_of_pos hk, hnil]
      exact le_rfl
    · rw [List.filter_cons_of_neg hk]
      exact h.once k
  · rcases hmem.1 hk with hk | hk
    · rcases he with ⟨-, -, rfl⟩ | ⟨-, -, rfl⟩ <;> cases hk
    · exact hmem.2 (.inr (h.answers k id hk))
  · rcases hmem.1 hd with hd₀ | hd₀ <;> rcases hmem.1 hr with hr₀ | hr₀
    · rw [← hd₀] at hr₀
      cases hr₀
    · rcases he with ⟨-, -, rfl⟩ | ⟨-, -, rfl⟩ <;> cases hd₀
      exact hnew id hr₀
    · rcases he with ⟨-, -, rfl⟩ | ⟨-, -, rfl⟩ <;> cases hr₀
      exact hnot hd₀
    · exact h.exclusive k id hd₀ hr₀
  · obtain ⟨y₀, hy₀, hly₀, -, -, hys, -⟩ := hslot hy hly
    obtain ⟨z₀, hz₀, hlz₀, -, -, hzs, -⟩ := hslot hz hlz
    exact h.serials j k y₀ z₀ hy₀ hz₀ hly₀ hlz₀ (by rw [← hys, ← hzs, heq])
  · rcases hslots hy hly with rfl | ⟨hy, -⟩
    · exact h.opened x hxm hl
    · exact h.opened y hy hly
  · rcases hmem.1 he' with rfl | he'
    · exact hserial.symm ▸ h.opened x hxm hl
    · exact h.past e' he'
  · rw [hmem]
    rcases hslots hy hly with rfl | ⟨hy, hs⟩
    · rcases he with ⟨hs, hd, rfl⟩ | ⟨hs, hd, rfl⟩ <;> simp [x', hs, hnew, eq_comm]
    · have hne : OfferEvent.reserved y.serial id ≠ e := by
        rintro rfl
        exact hs hserial
      rw [← h.reserved y hy hly]
      simp [hne]
  · rw [hmem]
    rcases hslots hy hly with rfl | ⟨hy, hs⟩
    · rcases he with ⟨hs, hd, rfl⟩ | ⟨hs, hd, rfl⟩ <;> simp [x', hs, hnot]
    · have hne : OfferEvent.dismissed y.serial ≠ e := by
        rintro rfl
        exact hs hserial
      rw [← h.dismissed y hy hly]
      simp [hne]

/-- An offer is put in a free slot. -/
theorem register {o : IpcBrowserOffer} (h : OfferInv s) (hx : s.slots[i]? = some x)
    (hfresh : ∀ y ∈ s.slots, y.live = true →
      y.offer.offerId ≠ o.offerId ∧ y.offer.requestId ≠ o.requestId)
    (hvalid : o.Valid) (hw : o.state = .waiting) (hd : o.downloadId = 0) :
    OfferInv { s.put i ⟨o, now, s.opened⟩ with opened := s.opened + 1 } := by
  set x' : BrowserOfferSlot := ⟨o, now, s.opened⟩
  have hslots {y : BrowserOfferSlot} (hy : y ∈ (s.put i x').slots) : y = x' ∨ y ∈ s.slots := by
    obtain ⟨j, hj⟩ := List.mem_iff_getElem?.1 hy
    rcases getElem?_put hj with ⟨-, rfl⟩ | ⟨-, hj⟩
    · exact .inl rfl
    · exact .inr (List.mem_of_getElem? hj)
  -- Its number is used for the first time.
  have hnew {e : OfferEvent} (he : e ∈ s.history) : e.serial ≠ s.opened := (h.past e he).ne
  refine ⟨⟨fun j k y z hy hz hly hlz heq => ?_, fun y hy hly => ?_, fun y hy hly => ?_, h.once,
    h.answers, h.exclusive⟩, fun j k y z hy hz hly hlz heq => ?_, fun y hy hly => ?_,
    fun e he => (h.past e he).trans (Nat.lt_succ_self _), fun y hy hly id => ?_, fun y hy hly => ?_⟩
  · rcases getElem?_put hy with ⟨rfl, rfl⟩ | ⟨-, hy₀⟩ <;>
      rcases getElem?_put hz with ⟨rfl, rfl⟩ | ⟨-, hz₀⟩
    · rfl
    · obtain ⟨h₁, h₂⟩ := hfresh z (List.mem_of_getElem? hz₀) hlz
      rcases heq with heq | heq
      · exact absurd heq.symm h₁
      · exact absurd heq.symm h₂
    · obtain ⟨h₁, h₂⟩ := hfresh y (List.mem_of_getElem? hy₀) hly
      rcases heq with heq | heq
      · exact absurd heq h₁
      · exact absurd heq h₂
    · exact h.distinct j k y z hy₀ hz₀ hly hlz heq
  · rcases hslots hy with rfl | hy
    · exact hvalid
    · exact h.valid y hy hly
  · rcases hslots hy with rfl | hy
    · simp [x', hw, hd]
    · exact h.confirmed y hy hly
  · rcases getElem?_put hy with ⟨rfl, rfl⟩ | ⟨-, hy₀⟩ <;>
      rcases getElem?_put hz with ⟨rfl, rfl⟩ | ⟨-, hz₀⟩
    · rfl
    · exact absurd heq.symm (h.opened z (List.mem_of_getElem? hz₀) hlz).ne
    · exact absurd heq (h.opened y (List.mem_of_getElem? hy₀) hly).ne
    · exact h.serials j k y z hy₀ hz₀ hly hlz heq
  · rcases hslots hy with rfl | hy
    · exact Nat.lt_succ_self _
    · exact (h.opened y hy hly).trans (Nat.lt_succ_self _)
  · rcases hslots hy with rfl | hy
    · refine iff_of_false (fun he => hnew he rfl) ?_
      simp [x', hw]
    · exact h.reserved y hy hly id
  · rcases hslots hy with rfl | hy
    · refine iff_of_false (fun he => hnew he rfl) ?_
      simp [x', hw]
    · exact h.dismissed y hy hly

theorem handleOffer {root : Option JsonRoot} {randomId : ℕ → ℕ} (h : OfferInv s) :
    OfferInv (s.handleOffer root now randomId).1 := by
  rw [BrowserOffers.handleOffer]
  cases hparse : root.bind browserParseOffer with
  | none => exact h
  | some proposed =>
    obtain ⟨root, -, hparse⟩ := Option.bind_eq_some_iff.1 hparse
    obtain ⟨hvalid, hw, hd⟩ := browserParseOffer_spec hparse
    simp only
    cases hreq : s.findRequest proposed.requestId with
    | some r =>
      simp only
      split_ifs <;> exact h
    | none =>
      cases hfree : s.findSlot (!·.live) with
      | none => exact h
      | some r =>
        obtain ⟨x, i⟩ := r
        simp only
        split_ifs with hid
        · exact h
        · refine h.register (findSlot_spec hfree).1 (fun y hy hly => ⟨newId_spec hid y hy, ?_⟩)
            ⟨hvalid.url, hvalid.nonempty, hvalid.component, hvalid.dots⟩ hw hd
          intro heq
          have := not_of_findSlot hreq hy
          simp [hly, heq] at this

theorem handleGetOffer {id : ℕ} (h : OfferInv s) : OfferInv (s.handleGetOffer id now).1 := by
  rw [BrowserOffers.handleGetOffer]
  cases hfind : s.findOffer id with
  | none => exact h
  | some r => exact h.touch (findOffer_spec hfind).1

theorem handleConfirm {offerId pathLen : ℕ} {path : CString}
    {reserve : (url dest : CString) → RequestOptions → ℕ} (h : OfferInv s) :
    OfferInv (s.handleConfirm offerId pathLen path now reserve).1 := by
  rw [BrowserOffers.handleConfirm]
  split_ifs with hpath
  · cases hfind : s.findOffer offerId with
    | none => exact h
    | some r =>
      obtain ⟨x, i⟩ := r
      obtain ⟨hx, hl⟩ := findOffer_spec hfind
      simp only
      cases hstate : x.offer.state with
      | confirmed => exact h.answer ((h.reserved x (List.mem_of_getElem? hx) hl _).2 ⟨hstate, rfl⟩)
      | dismissed => exact h
      | waiting =>
        simp only
        split_ifs with hid
        · exact h
        · have hv := h.valid x (List.mem_of_getElem? hx) hl
          exact (h.settle (o := { x.offer with downloadId := _, state := .confirmed }) hx hl hstate
            rfl rfl ⟨hv.url, hv.nonempty, hv.component, hv.dots⟩ (.inr ⟨rfl, hid, rfl⟩)).answer
              List.mem_cons_self
  · exact h

theorem handleDismiss {id : ℕ} (h : OfferInv s) : OfferInv (s.handleDismiss id now).1 := by
  rw [BrowserOffers.handleDismiss]
  cases hfind : s.findOffer id with
  | none => exact h
  | some r =>
    obtain ⟨x, i⟩ := r
    obtain ⟨hx, hl⟩ := findOffer_spec hfind
    simp only
    cases hstate : x.offer.state with
    | confirmed => exact h
    | dismissed => exact h
    | waiting =>
      have hv := h.valid x (List.mem_of_getElem? hx) hl
      have hzero : x.offer.downloadId = 0 := by
        by_contra hne
        have := (h.confirmed x (List.mem_of_getElem? hx) hl).2 hne
        rw [hstate] at this
        cases this
      exact h.settle (o := { x.offer with state := .dismissed }) hx hl hstate rfl rfl
        ⟨hv.url, hv.nonempty, hv.component, hv.dots⟩ (.inl ⟨rfl, hzero, rfl⟩)

/-- Every frame, and every expiry, keeps the invariant. -/
theorem step (h : OfferInv s) (a : OfferAct) : OfferInv (s.step a).1 := by
  cases a with
  | offer => exact h.handleOffer
  | getOffer => exact h.handleGetOffer
  | confirm => exact h.handleConfirm
  | dismiss => exact h.handleDismiss
  | expire now status => exact h.expire now status

/-- The slots of a daemon that starts are free. -/
theorem start : OfferInv .start := by
  have hslot {x : BrowserOfferSlot} (hx : x ∈ BrowserOffers.start.slots) : ¬x.live = true := by
    rw [List.eq_of_mem_replicate hx]
    decide
  have hfree {x : BrowserOfferSlot} {i : ℕ} (hx : BrowserOffers.start.slots[i]? = some x) :
      ¬x.live = true := hslot (List.mem_of_getElem? hx)
  exact ⟨⟨fun _ _ _ _ hx _ hl => absurd hl (hfree hx), fun _ hx hl => absurd hl (hslot hx),
    fun _ hx hl => absurd hl (hslot hx), fun _ => Nat.zero_le _, fun _ _ he => (by cases he),
    fun _ _ he => (by cases he)⟩, fun _ _ _ _ hx _ hl => absurd hl (hfree hx),
    fun _ hx hl => absurd hl (hslot hx), fun _ he => (by cases he),
    fun _ hx hl => absurd hl (hslot hx), fun _ hx hl => absurd hl (hslot hx)⟩

end OfferInv

/-! ## Steps -/

namespace BrowserOffers

variable {s : BrowserOffers} {x : BrowserOfferSlot} {i : ℕ} {now : ℤ}

/-- The slot found is the one asked for, as offers have distinct identifiers. -/
theorem findSlot_eq {p : BrowserOfferSlot → Bool} (hx : x ∈ s.slots) (hp : p x = true) :
    ∃ y j, s.findSlot p = some (y, j) ∧ s.slots[j]? = some y ∧ p y = true := by
  cases hfind : s.findSlot p with
  | none => exact absurd hp (by simp [not_of_findSlot hfind hx])
  | some r => exact ⟨r.1, r.2, rfl, findSlot_spec hfind⟩

/-- A step on the slot `k` leaves another one alone, and one with the same offer its offer. -/
theorem getElem?_put_of_offer {k : ℕ} {y y' : BrowserOfferSlot} (hx : s.slots[i]? = some x)
    (hy : s.slots[k]? = some y) (h : k = i → y'.offer = y.offer ∧ y'.serial = y.serial) :
    ∃ z, (s.put k y').slots[i]? = some z ∧ z.offer = x.offer ∧ z.serial = x.serial := by
  rw [put, List.getElem?_set]
  split_ifs with hki hlt
  · subst hki
    rw [hx] at hy
    cases hy
    exact ⟨y', rfl, h rfl⟩
  · subst hki
    exact absurd (List.getElem?_eq_some_iff.1 hx).1 hlt
  · exact ⟨x, hx, rfl, rfl⟩

end BrowserOffers

namespace OfferInv

open BrowserOffers

variable {s : BrowserOffers} {x : BrowserOfferSlot} {i : ℕ}

theorem stepSound (h : OfferInv s) (a : OfferAct) : OfferStepSound s a := by
  refine ⟨fun i x hx hl hstate => ?_, fun root now randomId o x ha ho hx hl hreq hurl => ?_,
    fun now status i x st ha hx hl hstate hst hd he hc => ?_⟩
  · have hstay (s' : BrowserOffers) (hs' : ∃ y, s'.slots[i]? = some y ∧ y.offer = x.offer ∧
        y.serial = x.serial) : ∃ y, s'.slots[i]? = some y ∧ (y.offer = x.offer ∧
          y.serial = x.serial ∨ y = .zero ∧ ∃ now status, a = .expire now status) := by
      obtain ⟨y, hy, heq⟩ := hs'
      exact ⟨y, hy, .inl heq⟩
    have hsame : ∃ y, s.slots[i]? = some y ∧ y.offer = x.offer ∧ y.serial = x.serial :=
      ⟨x, hx, rfl, rfl⟩
    cases a with
    | offer root now randomId =>
      refine hstay _ ?_
      change ∃ y, (s.handleOffer root now randomId).1.slots[i]? = some y ∧ _
      rw [BrowserOffers.handleOffer]
      split
      · exact hsame
      · split
        · split_ifs <;> exact hsame
        · split
          · exact hsame
          · rename_i y k hfree
            obtain ⟨hy, hfree⟩ := findSlot_spec hfree
            simp only
            split_ifs
            · exact hsame
            · -- The slot is free, so it is another one.
              refine getElem?_put_of_offer hx hy fun hki => ?_
              subst hki
              rw [hx] at hy
              cases hy
              simp [hl] at hfree
    | getOffer id now =>
      refine hstay _ ?_
      change ∃ y, (s.handleGetOffer id now).1.slots[i]? = some y ∧ _
      rw [BrowserOffers.handleGetOffer]
      split
      · exact hsame
      · rename_i y k hfind
        exact getElem?_put_of_offer hx (findOffer_spec hfind).1 fun _ => ⟨rfl, rfl⟩
    | confirm offerId pathLen path now reserve =>
      refine hstay _ ?_
      change ∃ y, (s.handleConfirm offerId pathLen path now reserve).1.slots[i]? = some y ∧ _
      rw [BrowserOffers.handleConfirm]
      split_ifs
      · split
        · exact hsame
        · rename_i y k hfind
          split
          · exact hsame
          · exact hsame
          · rename_i hw
            simp only
            split_ifs
            · exact hsame
            · refine getElem?_put_of_offer hx (findOffer_spec hfind).1 fun hki => ?_
              have hy := (findOffer_spec hfind).1
              rw [hki, hx] at hy
              cases hy
              exact absurd hw hstate
      · exact hsame
    | dismiss id now =>
      refine hstay _ ?_
      change ∃ y, (s.handleDismiss id now).1.slots[i]? = some y ∧ _
      rw [BrowserOffers.handleDismiss]
      split
      · exact hsame
      · rename_i y k hfind
        split
        · rename_i hw
          refine getElem?_put_of_offer hx (findOffer_spec hfind).1 fun hki => ?_
          have hy := (findOffer_spec hfind).1
          rw [hki, hx] at hy
          cases hy
          exact absurd hw hstate
        · exact hsame
        · exact hsame
    | expire now status =>
      refine ⟨expireSlot now status x, ?_, ?_⟩
      · change (s.slots.map _)[i]? = _
        rw [List.getElem?_map, hx]
        rfl
      · rw [expireSlot]
        split_ifs
        · exact .inl ⟨rfl, rfl⟩
        · exact .inl ⟨rfl, rfl⟩
        · exact .inl ⟨rfl, rfl⟩
        · exact .inr ⟨rfl, now, status, rfl⟩
  · subst ha
    obtain ⟨y, j, hfind, hy, hpy⟩ := findSlot_eq
      (p := fun y => y.live ∧ y.offer.requestId = o.requestId) hx (decide_eq_true ⟨hl, hreq⟩)
    -- There is only one offer for a request.
    obtain ⟨i, hi⟩ := List.mem_iff_getElem?.1 hx
    have hpy : y.live = true ∧ y.offer.requestId = o.requestId := of_decide_eq_true hpy
    have hij := h.distinct i j x y hi hy hl hpy.1 (.inr (hreq.trans hpy.2.symm))
    subst hij
    rw [hi] at hy
    cases hy
    have hreply : s.handleOffer (some root) now randomId = (s, x.offer) := by
      rw [BrowserOffers.handleOffer, Option.bind_some, ho]
      simp only
      rw [show s.findRequest o.requestId = some (x, i) from hfind]
      simp [hurl]
    rw [BrowserOffers.step, hreply]
    rfl
  · subst ha
    have hrun : isRunning status x.offer.downloadId = true := by
      rw [isRunning, hst]
      cases st <;> simp_all
    change (s.slots.map _)[i]? = _
    rw [List.getElem?_map, hx, Option.map_some, expireSlot, if_neg (by simp [hl])]
    split_ifs with hold hkeep
    · rfl
    · rfl
    · exact absurd ⟨hstate, hrun⟩ hkeep

end OfferInv

/-- The offers are sound in every state reached, and in every step from there: whatever
    frames come, whatever identifiers are drawn and downloads reserved, and whenever offers
    expire. -/
theorem offers_sound {s : BrowserOffers}
    (h : Run.Reachable BrowserOffers.next (· = .start) (fun _ _ => True) s) :
    OffersSound s ∧ ∀ a, OfferStepSound s a := by
  have hinv : OfferInv s := by
    refine h.invariant (fun s hs => hs ▸ .start) fun s a s' hs _ hst => ?_
    cases hst
    exact hs.step a
  exact ⟨hinv.toOffersSound, hinv.stepSound⟩

/-- The JSON of an offer, without a file name. -/
def archiveRoot : JsonRoot := fun key =>
  if key = "request_id" then some (.string "r".toList)
  else if key = "url" then some (.string "https://h/a.zip".toList)
  else none

/-- An offer is made twice, and confirmed twice: it is one offer, with one download. -/
theorem offers_sound_confirmed :
    ∃ s, Run.Reachable BrowserOffers.next (· = .start) (fun _ _ => True) s ∧
      s.history = [.answered 0 5, .answered 0 5, .reserved 0 5] ∧ OffersSound s := by
  obtain ⟨s, hs, hhistory⟩ := Run.exists_reachable_of_exec BrowserOffers.next (· = .start)
    (fun _ _ => True) (fun s => s.history = [.answered 0 5, .answered 0 5, .reserved 0 5]) rfl
    [.offer (some archiveRoot) 0 fun _ => 7, .offer (some archiveRoot) 1 fun _ => 8,
      .confirm 7 2 "/a".toList 2 fun _ _ _ => 5, .confirm 7 2 "/b".toList 3 fun _ _ _ => 6]
    (by decide +kernel)
  exact ⟨s, hs, hhistory, (offers_sound hs).1⟩

end Cdm
