import Cdm.Browser.NativeHost
import Cdm.Lib.Run

/-!
# The bridge to the browser

The extension of the browser (`browser/chromium/service_worker.js`), the native host and the
daemon, with the pipes between the first two. The extension hands a download over and keeps its
request as pending until the host says how it has ended, or is gone; it shows errors on its badge.

The parties take turns in any order. The host may end at any time, the daemon may be restarted,
and other programs offer, confirm and dismiss downloads at the daemon.

* `pending_accounted`: a pending request is never forgotten, as long as the host takes no late
  answer on one offer, nor what is left of it, for that on another. The request is on its way to
  the host, or the host has an offer for it, or what ends it is on its way to the extension; or the
  host is gone, and the extension is about to be told.
-/

namespace Cdm

namespace NativeHost

/-! ## The extension -/

structure Extension where
  /-- A host was connected, and is not known to be gone. -/
  connected : Bool
  pending : List CString
  /-- The error on the badge. -/
  shown : Option CString

/-- The message says that a request has ended. -/
def HostMsg.ends (requestId : CString) : HostMsg → Bool
  | .error requestId' _ => requestId' = requestId
  | .state requestId' name _ _ _ =>
    requestId' = requestId ∧
      name ∈ ["complete".toList, "dismissed".toList, "error".toList]
  | .registered _ _ => false

def orElseText (text other : CString) : CString := if text = [] then other else text

/-- The listener of the messages of the host. -/
def Extension.onMessage (e : Extension) : HostMsg → Extension
  | .error requestId message =>
    { e with
      shown := some (orElseText message "native host error".toList)
      pending := e.pending.filter (· ≠ requestId) }
  | .registered _ _ => { e with shown := none }
  | .state requestId state _ _ progress =>
    { e with
      pending :=
        if state ∈ ["complete".toList, "dismissed".toList, "error".toList] then
          e.pending.filter (· ≠ requestId)
        else e.pending
      shown :=
        if state = "error".toList then
          some (orElseText ((progress.map (·.error)).getD []) "download failed".toList)
        else e.shown }

/-- The listener of the end of the host. -/
def Extension.onDisconnect (e : Extension) (reason : CString) : Extension where
  connected := false
  pending := []
  shown := if e.pending = [] then e.shown else some reason

/-! ## The parties -/

structure Bridge where
  extension : Extension
  /-- The messages to the host: their JSON, if it is any. -/
  toHost : List (Option JsonRoot)
  host : Option Host
  toExtension : List HostMsg
  daemon : BrowserOffers
  /-- The requests the extension has made. -/
  requests : List CString
  /-- The identifiers the daemons have given, with their requests. -/
  issued : List (ℕ × CString)

def Bridge.start : Bridge := ⟨⟨false, [], none⟩, [], none, [], .start, [], []⟩

inductive BridgeAct
  /-- A download of the browser is handed over. -/
  | post (requestId : CString) (root : Option JsonRoot)
  /-- The browser could not post a message. -/
  | postFails (message : CString)
  | deliver
  | disconnect (reason : CString)
  /-- The host handles a message. -/
  | read (call : OfferCall)
  /-- The host begins to poll. -/
  | poll (connected : Bool)
  /-- The host asks for the offer it is at. -/
  | ask
  /-- The daemon answers the host. -/
  | answer (now : ℤ)
  /-- The host reads an answer, or what is there in the place of one (`stray`); `snapshot` is the
      progress of the download, if that arrives. -/
  | receive (stray : IpcBrowserOffer) (snapshot : Option IpcBrowserProgress)
  /-- The host gives up reading the answer, of which some bytes may have come (`torn`). -/
  | timeout (torn : Bool)
  /-- The connection of the host is closed by the daemon. -/
  | lose
  | hostExit
  /-- Another program acts on the daemon, or offers expire. -/
  | daemon (a : OfferAct)
  | restart

/-- What the daemon has given identifiers to. -/
def liveOffers (daemon : BrowserOffers) : List (ℕ × CString) :=
  (daemon.slots.filter (·.live)).map fun x => (x.offer.offerId, x.offer.requestId)

/-- The daemon goes on. -/
def Bridge.withDaemon (s : Bridge) (daemon : BrowserOffers) : Bridge :=
  { s with daemon := daemon, issued := liveOffers daemon ++ s.issued }

/-- The host goes on, having sent some messages. -/
def Bridge.withHost (s : Bridge) (host : Host) (messages : List HostMsg) : Bridge :=
  { s with host := some host, toExtension := s.toExtension ++ messages }

/-- The connection of the host, if it has one, is closed by the daemon; what is on it may still be
    read. -/
def Bridge.lose (s : Bridge) : Bridge :=
  { s with host := s.host.map fun h =>
      match h.pc.query? with
      | some q => { h with pc := h.pc.withQuery { q with connected := false } }
      | none => h }

def Bridge.post (s : Bridge) (requestId : CString) (root : Option JsonRoot) : Bridge :=
  { s with
    extension := { s.extension with
      connected := true, pending := requestId :: s.extension.pending }
    host := if s.extension.connected then s.host else some .start
    toHost := s.toHost ++ [root]
    requests := requestId :: s.requests }

def step (s : Bridge) : BridgeAct → Option Bridge
  | .post requestId root => some (s.post requestId root)
  | .postFails message => some { s with extension := { s.extension with
      shown := some (orElseText message "could not contact native host".toList) } }
  | .deliver =>
    match s.toExtension with
    | [] => none
    | m :: rest => some { s with extension := s.extension.onMessage m, toExtension := rest }
  | .disconnect reason =>
    if s.extension.connected ∧ s.host.isNone then
      some { s with
        extension := s.extension.onDisconnect reason, toHost := [], toExtension := [] }
    else none
  | .read call =>
    match s.host, s.toHost with
    | some ⟨offers, .idle⟩, root :: rest =>
      let (offers', daemon', messages) := handleMessage offers s.daemon root call
      some ((Bridge.withHost { s with toHost := rest } ⟨offers', .idle⟩ messages).withDaemon daemon')
    | _, _ => none
  | .poll connected =>
    match s.host with
    | some ⟨offers, .idle⟩ =>
      if offers.any (·.live) then
        if connected then some (s.withHost ⟨offers, .polling 0 .start⟩ [])
        else
          -- Without a daemon every offer is given up.
          let (offers', messages) := dropOffers offers
          some (s.withHost ⟨offers', .idle⟩ messages)
      else some s
    | _ => none
  | .ask =>
    match s.host with
    | some ⟨offers, .polling i q⟩ =>
      match offers[i]? with
      -- The last slot has been polled.
      | none => some (s.withHost ⟨offers, .idle⟩ [])
      | some slot =>
        if slot.live = false then some (s.withHost ⟨offers, .polling (i + 1) q⟩ [])
        else if q.connected = false then
          -- The request cannot be written; the other slots are tried all the same.
          some (s.withHost ⟨offers.set i (expire slot).1, .polling (i + 1) q⟩ (expire slot).2)
        else
          let q' := { q with asked := q.asked ++ [slot.offer.offerId] }
          some (s.withHost ⟨offers, .asking i q'⟩ [])
    | _ => none
  | .answer now =>
    match s.host with
    | some ⟨offers, pc⟩ =>
      match pc.query? with
      | some ⟨true, id :: asked, answers, torn⟩ =>
        let (daemon', current) := s.daemon.handleGetOffer id now
        let q' := ⟨true, asked, answers ++ [current], torn⟩
        some ((s.withHost ⟨offers, pc.withQuery q'⟩ []).withDaemon daemon')
      | _ => none
    | none => none
  | .receive stray snapshot =>
    match s.host with
    | some ⟨offers, .asking i q⟩ =>
      match offers[i]?, q.next stray with
      | some slot, some (current, q') =>
        let (slot', messages) := NativeHost.pollOffer slot current snapshot
        some (s.withHost ⟨offers.set i slot', .polling (i + 1) q'⟩ messages)
      | _, _ => none
    | _ => none
  | .timeout torn =>
    match s.host with
    | some ⟨offers, .asking i q⟩ =>
      match offers[i]? with
      | none => none
      | some slot =>
        -- The next slot is polled on the same connection, on which the answer may still come.
        let q' := { q with torn := q.torn || torn }
        some (s.withHost ⟨offers.set i (expire slot).1, .polling (i + 1) q'⟩ (expire slot).2)
    | _ => none
  | .lose => some s.lose
  | .hostExit => if s.host.isSome then some { s with host := none } else none
  | .daemon a => some (s.withDaemon (s.daemon.step a).1)
  | .restart => some { s.lose with daemon := .start }

/-! ## What the parties rely on -/

/-- The request a message of the extension is for. -/
def requestOf (root : Option JsonRoot) : Option CString :=
  root.bind fun root => stringOf root "request_id"

/-- The source of random identifiers never gives one again, in the attempts of the daemon. -/
def FreshIds (s : Bridge) (randomId : ℕ → ℕ) : Prop :=
  ∀ n < 16, ∀ x ∈ s.issued, x.1 ≠ randomId n

instance (s : Bridge) (randomId : ℕ → ℕ) : Decidable (FreshIds s randomId) := by
  unfold FreshIds
  infer_instance

/-- The extension makes a new request for each download, in JSON that cJSON can read; the
    identifiers of offers are new as well; and nobody else offers a request that is on its way. -/
def Fresh (s : Bridge) : BridgeAct → Prop
  | .post requestId root =>
    requestOf root = some requestId ∧ requestId ∉ s.requests ∧
      ∀ x ∈ liveOffers s.daemon, x.2 ≠ requestId
  | .read call => FreshIds s call.randomId
  | .daemon (.offer root _ randomId) =>
    FreshIds s randomId ∧ ∀ m ∈ s.toHost, requestOf root ≠ requestOf m
  | _ => True

/-- What the host takes for an answer is one, and not a late one, on another offer than that it is
    at. -/
def InTurn (s : Bridge) : BridgeAct → Prop
  | .receive _ _ =>
    match s.host with
    | some ⟨offers, .asking i q⟩ =>
      q.torn = false ∧ ∀ current ∈ q.answers.head?, ∀ slot ∈ offers[i]?,
        current.offerId ≠ 0 → current.offerId = slot.offer.offerId
    | _ => True
  | _ => True

/-- A pending request is not forgotten. -/
def Accounted (s : Bridge) (requestId : CString) : Prop :=
  s.host = none ∨ (∃ m ∈ s.toHost, requestOf m = some requestId) ∨
    (∃ h, s.host = some h ∧ ∃ x ∈ h.offers, x.live = true ∧ x.offer.requestId = requestId) ∨
    ∃ m ∈ s.toExtension, m.ends requestId = true

/-- What the extension has been told of an offer in use has not ended it. -/
structure HostOffer.Open (x : HostOffer) : Prop where
  state : x.reportedState ≠ .dismissed
  status : ¬isTerminal x.reportedStatus

/-- The answers the host has yet to read are on offers, if the daemon had them. -/
def HostPc.Answered (issued : List (ℕ × CString)) (pc : HostPc) : Prop :=
  ∀ q, pc.query? = some q → ∀ current ∈ q.answers, current.offerId ≠ 0 →
    (current.offerId, current.requestId) ∈ issued

/-- What the identifiers and the requests of a state say. -/
structure Orderly (s : Bridge) : Prop where
  slots : ∀ h, s.host = some h → ∀ x ∈ h.offers, x.live = true →
    (x.offer.offerId, x.offer.requestId) ∈ s.issued ∧ x.Open
  answered : ∀ h, s.host = some h → h.pc.Answered s.issued
  daemon : ∀ p ∈ liveOffers s.daemon, p ∈ s.issued
  /-- An identifier is that of one request. -/
  issued : ∀ p ∈ s.issued, ∀ q ∈ s.issued, p.1 = q.1 → p.2 = q.2
  /-- The daemon has no offer of a request that is on its way. -/
  waiting : ∀ m ∈ s.toHost, ∃ r, requestOf m = some r ∧ r ∈ s.requests ∧
    ∀ p ∈ liveOffers s.daemon, p.2 ≠ r
  distinct : (s.toHost.map requestOf).Nodup
  disconnected : s.extension.connected = false → s.host = none ∧ s.extension.pending = []

/-- The invariant. -/
structure Inv (s : Bridge) : Prop extends Orderly s where
  accounted : ∀ r ∈ s.extension.pending, Accounted s r

/-! ## The daemon -/

section

variable {daemon : BrowserOffers} {root : Option JsonRoot} {now : ℤ} {randomId : ℕ → ℕ}

theorem mem_liveOffers {p : ℕ × CString} :
    p ∈ liveOffers daemon ↔
      ∃ x ∈ daemon.slots, x.live = true ∧ x.offer.offerId = p.1 ∧ x.offer.requestId = p.2 := by
  simp only [liveOffers, List.mem_map, List.mem_filter]
  constructor
  · rintro ⟨x, ⟨hx, hlive⟩, rfl⟩
    exact ⟨x, hx, hlive, rfl, rfl⟩
  · rintro ⟨x, hx, hlive, h1, h2⟩
    exact ⟨x, ⟨hx, hlive⟩, Prod.ext h1 h2⟩

theorem requestOf_of_parse {o : IpcBrowserOffer} (h : root.bind browserParseOffer = some o) :
    requestOf root = some o.requestId := by
  obtain ⟨root, rfl, hparse⟩ := Option.bind_eq_some_iff.mp h
  simp only [browserParseOffer, Option.bind_eq_bind, Option.bind_eq_some_iff] at hparse
  obtain ⟨requestId, hid, url, -, filename, -, mime, -, referrer, -, total, -, hparse⟩ := hparse
  have hrequest : requestOf (some root) = some requestId := by
    rw [browserJsonString] at hid
    rw [requestOf, Option.bind_some, stringOf]
    split at hid
    · cases hid
    · rename_i text hroot
      split_ifs at hid
      rw [hroot]
      exact hid
    · cases hid
  split_ifs at hparse <;> cases hparse <;> exact hrequest

theorem newId_cases (daemon : BrowserOffers) (randomId : ℕ → ℕ) (attempts : ℕ) :
    daemon.newId randomId attempts = 0 ∨ ∃ n < attempts, daemon.newId randomId attempts = randomId n := by
  induction attempts with
  | zero => exact .inl rfl
  | succ attempts ih =>
    rw [BrowserOffers.newId]
    split_ifs
    · exact .inr ⟨attempts, Nat.lt_succ_self _, rfl⟩
    · rcases ih with h | ⟨n, hn, h⟩
      · exact .inl h
      · exact .inr ⟨n, hn.trans (Nat.lt_succ_self _), h⟩

/-- The offers in use after an offer is made. -/
theorem liveOffers_handleOffer {p : ℕ × CString}
    (hp : p ∈ liveOffers (daemon.handleOffer root now randomId).1) :
    p ∈ liveOffers daemon ∨ (∃ n < 16, p.1 = randomId n) ∧ requestOf root = some p.2 := by
  rw [BrowserOffers.handleOffer] at hp
  split at hp
  · exact .inl hp
  rename_i proposed hparse
  split at hp
  · split_ifs at hp <;> exact .inl hp
  split at hp
  · exact .inl hp
  rename_i i hfree
  simp only at hp
  split_ifs at hp with hid
  · exact .inl hp
  obtain ⟨x, hx, hlive, hx1, hx2⟩ := mem_liveOffers.mp hp
  rcases List.mem_or_eq_of_mem_set hx with hx | rfl
  · exact .inl (mem_liveOffers.mpr ⟨x, hx, hlive, hx1, hx2⟩)
  · refine .inr ⟨?_, ?_⟩
    · rcases newId_cases daemon randomId 16 with h | ⟨n, hn, h⟩
      · exact absurd h hid
      · exact ⟨n, hn, by rw [← hx1, ← h]⟩
    · rw [requestOf_of_parse hparse, ← hx2]

/-- A slot whose offer keeps its identifier and its request adds nothing. -/
theorem liveOffers_set {daemon' : BrowserOffers} {i : ℕ} {x y : BrowserOfferSlot} {p : ℕ × CString}
    (hp : p ∈ liveOffers daemon') (hslots : daemon'.slots = daemon.slots.set i x)
    (hy : daemon.slots[i]? = some y) (hid : x.offer.offerId = y.offer.offerId)
    (hrequest : x.offer.requestId = y.offer.requestId) : p ∈ liveOffers daemon := by
  obtain ⟨z, hz, hlive, h1, h2⟩ := mem_liveOffers.mp hp
  rw [hslots] at hz
  rcases List.mem_or_eq_of_mem_set hz with hz | rfl
  · exact mem_liveOffers.mpr ⟨z, hz, hlive, h1, h2⟩
  · refine mem_liveOffers.mpr ⟨y, List.mem_of_getElem? hy, ?_, by rw [← hid, h1],
      by rw [← hrequest, h2]⟩
    rw [BrowserOfferSlot.live, ← hid]
    exact hlive

theorem liveOffers_handleGetOffer {id : ℕ} {p : ℕ × CString}
    (hp : p ∈ liveOffers (daemon.handleGetOffer id now).1) : p ∈ liveOffers daemon := by
  rw [BrowserOffers.handleGetOffer] at hp
  split at hp
  · exact hp
  · rename_i x i hfound
    exact liveOffers_set hp rfl (BrowserOffers.findOffer_spec hfound).1 rfl rfl

/-- An offer that a query finds is in use. -/
theorem handleGetOffer_found {id : ℕ} (h : (daemon.handleGetOffer id now).2.offerId ≠ 0) :
    (daemon.handleGetOffer id now).2.offerId = id ∧
      (id, (daemon.handleGetOffer id now).2.requestId) ∈ liveOffers daemon := by
  rw [BrowserOffers.handleGetOffer] at h ⊢
  split at h
  · exact absurd rfl h
  · rename_i x i hfound
    obtain ⟨hx, hlive⟩ := BrowserOffers.findOffer_spec hfound
    have hid := (BrowserOffers.findSlot_spec hfound).2
    rw [decide_eq_true_eq] at hid
    exact ⟨hid.2, mem_liveOffers.mpr ⟨x, List.mem_of_getElem? hx, hlive, hid.2, rfl⟩⟩

/-- The offers in use after anything else were in use before. -/
theorem liveOffers_step {a : OfferAct} {p : ℕ × CString} (hp : p ∈ liveOffers (daemon.step a).1) :
    p ∈ liveOffers daemon ∨ ∃ root now randomId, a = .offer root now randomId ∧
      (∃ n < 16, p.1 = randomId n) ∧ requestOf root = some p.2 := by
  cases a with
  | offer root now randomId =>
    exact (liveOffers_handleOffer hp).imp_right fun h => ⟨root, now, randomId, rfl, h⟩
  | getOffer id now => exact .inl (liveOffers_handleGetOffer hp)
  | confirm offerId pathLen path now reserve =>
    refine .inl ?_
    change p ∈ liveOffers (daemon.handleConfirm offerId pathLen path now reserve).1 at hp
    rw [BrowserOffers.handleConfirm] at hp
    split_ifs at hp
    · split at hp
      · exact hp
      · rename_i x i hfound
        split at hp
        · exact hp
        · exact hp
        · simp only at hp
          split_ifs at hp
          · exact hp
          · exact liveOffers_set hp rfl (BrowserOffers.findOffer_spec hfound).1 rfl rfl
    · exact hp
  | dismiss id now =>
    refine .inl ?_
    change p ∈ liveOffers (daemon.handleDismiss id now).1 at hp
    rw [BrowserOffers.handleDismiss] at hp
    split at hp
    · exact hp
    · rename_i x i hfound
      split at hp
      · exact liveOffers_set hp rfl (BrowserOffers.findOffer_spec hfound).1 rfl rfl
      · exact hp
      · exact hp
  | expire now status =>
    refine .inl ?_
    obtain ⟨x, hx, hlive, h1, h2⟩ := mem_liveOffers.mp hp
    obtain ⟨y, hy, rfl⟩ := List.mem_map.mp hx
    have hkept : BrowserOffers.expireSlot now status y = y := by
      rw [BrowserOffers.expireSlot] at hlive ⊢
      split_ifs at hlive ⊢
      all_goals first | rfl | exact absurd hlive (by decide)
    rw [hkept] at hlive h1 h2
    exact mem_liveOffers.mpr ⟨y, hy, hlive, h1, h2⟩

/-- A new request that is answered waits for the user, and is in use from then on. -/
theorem handleOffer_new {r : CString} (hroot : requestOf root = some r)
    (hnone : ∀ p ∈ liveOffers daemon, p.2 ≠ r)
    (h : (daemon.handleOffer root now randomId).2.offerId ≠ 0) :
    (daemon.handleOffer root now randomId).2.state = .waiting ∧
      (daemon.handleOffer root now randomId).2.requestId = r ∧
      ((daemon.handleOffer root now randomId).2.offerId, r) ∈
        liveOffers (daemon.handleOffer root now randomId).1 := by
  rw [BrowserOffers.handleOffer] at h ⊢
  split at h
  · exact absurd rfl h
  rename_i proposed hparse
  have hrequest : proposed.requestId = r := by
    rw [requestOf_of_parse hparse] at hroot
    exact Option.some_inj.mp hroot
  split at h
  · rename_i x i hfound
    obtain ⟨hx, hp⟩ := BrowserOffers.findSlot_spec hfound
    rw [decide_eq_true_eq] at hp
    exact absurd (hp.2.trans hrequest)
      (hnone (x.offer.offerId, x.offer.requestId)
        (mem_liveOffers.mpr ⟨x, List.mem_of_getElem? hx, hp.1, rfl, rfl⟩))
  split at h
  · exact absurd rfl h
  rename_i i hfree
  simp only at h ⊢
  split_ifs at h with hid
  · exact absurd rfl h
  have hi : i < daemon.slots.length :=
    (List.getElem?_eq_some_iff.mp (BrowserOffers.findSlot_spec hfree).1).1
  have hstate : proposed.state = .waiting := by
    obtain ⟨root, -, hparse⟩ := Option.bind_eq_some_iff.mp hparse
    exact (browserParseOffer_spec hparse).2.1
  rw [if_neg hid]
  refine ⟨hstate, hrequest, mem_liveOffers.mpr ⟨_, List.mem_set hi _, ?_, rfl, hrequest⟩⟩
  simpa [BrowserOfferSlot.live] using hid

end

/-! ## The host -/

theorem parseOffer_requestId {root : JsonRoot} {o : IpcBrowserOffer} (h : parseOffer root = some o) :
    stringOf root "request_id" = some o.requestId := by
  rw [parseOffer] at h
  split_ifs at h
  simp only [Option.bind_eq_bind, Option.bind_eq_some_iff] at h
  obtain ⟨requestId, hid, url, -, filename, -, mime, -, referrer, -, total, -, h⟩ := h
  cases h
  rw [browserJsonString] at hid
  rw [stringOf]
  split at hid
  · cases hid
  · rename_i text hroot
    split_ifs at hid
    rw [hroot]
    exact hid
  · cases hid

/-- The slot found is that of the request, or is not in use. -/
theorem findOfferSlot_spec {offers : List HostOffer} {r : CString} {i : ℕ}
    (h : findOfferSlot offers r = some i) :
    ∃ x, offers[i]? = some x ∧ (x.live = true → x.offer.requestId = r) := by
  rw [findOfferSlot] at h
  split at h
  · rename_i j hfound
    cases h
    obtain ⟨hlt, hp, -⟩ := List.findIdx?_eq_some_iff_getElem.mp hfound
    rw [decide_eq_true_eq] at hp
    exact ⟨_, List.getElem?_eq_getElem hlt, fun _ => hp.2⟩
  · obtain ⟨hlt, hp, -⟩ := List.findIdx?_eq_some_iff_getElem.mp h
    refine ⟨_, List.getElem?_eq_getElem hlt, fun hlive => ?_⟩
    rw [hlive] at hp
    cases hp

/-- A request that is handled is answered with an error, or has a slot. -/
theorem handleMessage_spec {offers : List HostOffer} {daemon : BrowserOffers}
    {root : Option JsonRoot} {call : OfferCall} {r : CString} (hroot : requestOf root = some r)
    (hnone : ∀ p ∈ liveOffers daemon, p.2 ≠ r) {offers' : List HostOffer}
    {daemon' : BrowserOffers} {messages : List HostMsg}
    (h : handleMessage offers daemon root call = (offers', daemon', messages)) :
    (∀ p ∈ liveOffers daemon', p ∈ liveOffers daemon ∨
      (∃ n < 16, p.1 = call.randomId n) ∧ p.2 = r) ∧
    (offers' = offers ∧ (∃ m ∈ messages, m.ends r = true) ∨
      ∃ (i : ℕ) (x : HostOffer) (o : IpcBrowserOffer), offers[i]? = some x ∧
        (x.live = true → x.offer.requestId = r) ∧
        offers' = offers.set i ⟨o, .waiting, 0, []⟩ ∧ o.offerId ≠ 0 ∧ o.requestId = r ∧
        (o.offerId, r) ∈ liveOffers daemon') := by
  have herror (text : CString) : (HostMsg.error r text).ends r = true := decide_eq_true rfl
  obtain ⟨root, rfl, hid⟩ := Option.bind_eq_some_iff.mp hroot
  rw [handleMessage] at h
  simp only at h
  split at h
  · cases h
    rw [hid]
    exact ⟨fun p hp => .inl hp, .inl ⟨rfl, _, List.mem_singleton_self _, herror _⟩⟩
  rename_i offered hparse
  have hrequest : offered.requestId = r := by
    rw [parseOffer_requestId hparse] at hid
    exact Option.some_inj.mp hid
  rw [hrequest] at h
  split at h
  · cases h
    exact ⟨fun p hp => .inl hp, .inl ⟨rfl, _, List.mem_singleton_self _, herror _⟩⟩
  rename_i i hslot
  have hsent : requestOf (some (offeredRoot offered call.totalBytes)) = some r := by
    rw [← hrequest]
    rfl
  generalize hout : (if call.handled = true then
    daemon.handleOffer (some (offeredRoot offered call.totalBytes)) call.now call.randomId
    else (daemon, .zero)) = out at h
  have hlive : ∀ p ∈ liveOffers out.1, p ∈ liveOffers daemon ∨
      (∃ n < 16, p.1 = call.randomId n) ∧ p.2 = r := by
    intro p hp
    rw [← hout] at hp
    split_ifs at hp
    · refine (liveOffers_handleOffer hp).imp_right fun ⟨hn, hr⟩ => ⟨hn, ?_⟩
      rw [hsent] at hr
      exact (Option.some_inj.mp hr).symm
    · exact .inl hp
  have hnew : out.2.offerId ≠ 0 → out.2.state = .waiting ∧ out.2.requestId = r ∧
      (out.2.offerId, r) ∈ liveOffers out.1 := by
    intro hne
    rw [← hout] at hne ⊢
    split_ifs at hne ⊢
    · exact handleOffer_new hsent hnone hne
    · exact absurd rfl hne
  obtain ⟨daemon'', registered⟩ := out
  simp only at h hlive hnew
  split_ifs at h with hrunning hconnected hfailed
  · cases h
    exact ⟨fun p hp => .inl hp, .inl ⟨rfl, _, List.mem_singleton_self _, herror _⟩⟩
  · cases h
    exact ⟨fun p hp => .inl hp, .inl ⟨rfl, _, List.mem_singleton_self _, herror _⟩⟩
  · cases h
    exact ⟨hlive, .inl ⟨rfl, _, List.mem_singleton_self _, herror _⟩⟩
  · cases h
    rw [not_or] at hfailed
    obtain ⟨hstate, hid', hmem⟩ := hnew hfailed.2
    obtain ⟨x, hx, hxr⟩ := findOfferSlot_spec hslot
    refine ⟨hlive, .inr ⟨i, x, registered, hx, hxr, ?_, hfailed.2, hid', hmem⟩⟩
    rw [register, hstate]

/-! ## Telling the extension -/

section

variable {slot : HostOffer} {current : IpcBrowserOffer} {snapshot : IpcBrowserProgress}

theorem isTerminal_strncpy {status : CString} (h : isTerminal (strncpy 24 status)) :
    isTerminal status := by
  have heq {word : CString} (hword : word.length < 23) (h : strncpy 24 status = word) :
      status = word := by
    have hlength := congrArg List.length h
    rw [strncpy, List.length_take] at hlength
    rw [← h, strncpy, List.take_of_length_le (by omega)]
  rcases h with h | h | h
  · exact .inl (heq (by decide) h)
  · exact .inr (.inl (heq (by decide) h))
  · exact .inr (.inr (heq (by decide) h))

/-- The end of a download ends its request. -/
theorem ends_sendState (h : isTerminal snapshot.status) :
    (sendState current (some snapshot)).ends current.requestId = true := by
  rcases h with h | h | h <;> simp [sendState, HostMsg.ends, h]

theorem ends_sendState_dismissed (h : current.state = .dismissed) :
    (sendState current none).ends current.requestId = true := by
  have hsent : sendState current none = .state current.requestId "dismissed".toList
      current.offerId current.downloadId none := by
    rw [sendState, h]
    rfl
  rw [hsent, HostMsg.ends]
  simp

/-- After the extension has been told of an offer, the offer is still open, or the extension
    knows that its request has ended. -/
def Told (offer : IpcBrowserOffer) (out : HostOffer × List HostMsg) : Prop :=
  out.1 = .zero ∧ (∃ m ∈ out.2, m.ends offer.requestId = true) ∨ out.1.offer = offer ∧ out.1.Open

theorem reportProgress_told (h : slot.Open) (snapshot : IpcBrowserProgress) :
    Told slot.offer (reportProgress slot snapshot) := by
  rw [reportProgress]
  by_cases hterminal : isTerminal snapshot.status
  · -- The extension has not been told of the end before.
    have hchanged : snapshot.status ≠ slot.reportedStatus := fun heq => h.status (heq ▸ hterminal)
    simp only [if_pos (Or.inr hchanged), if_pos hterminal]
    exact .inl ⟨rfl, _, List.mem_singleton_self _, ends_sendState hterminal⟩
  · simp only [if_neg hterminal]
    refine .inr ?_
    split_ifs
    · exact ⟨rfl, h.state, fun hshort => hterminal (isTerminal_strncpy hshort)⟩
    · exact ⟨rfl, h⟩

theorem reportOffer_told (h : slot.Open) (current : IpcBrowserOffer)
    (snapshot : Option IpcBrowserProgress) :
    Told current (reportOffer slot current snapshot) := by
  rw [reportOffer]
  -- The state is told first; the slot that is left is open unless the offer is dismissed.
  generalize hout : (if current.state ≠ slot.reportedState then
    ({ slot with reportedState := current.state }, [sendState current none])
    else (slot, [])) = out
  have hopen : current.state ≠ .dismissed → out.1.Open := by
    intro hstate
    rw [← hout]
    split_ifs
    · exact ⟨hstate, h.status⟩
    · exact h
  have htold : current.state = .dismissed → ∃ m ∈ out.2, m.ends current.requestId = true := by
    intro hstate
    have hchanged : current.state ≠ slot.reportedState := fun heq => h.state (heq ▸ hstate)
    rw [← hout, if_pos hchanged]
    exact ⟨_, List.mem_singleton_self _, ends_sendState_dismissed hstate⟩
  obtain ⟨slot, messages⟩ := out
  simp only at hopen htold ⊢
  split_ifs with hdismissed hwaiting
  · exact .inl ⟨rfl, htold hdismissed⟩
  · exact .inr ⟨rfl, (hopen hdismissed).state, (hopen hdismissed).status⟩
  · have hopen' : HostOffer.Open { slot with offer := current } :=
      ⟨(hopen hdismissed).state, (hopen hdismissed).status⟩
    cases snapshot with
    | none => exact .inr ⟨rfl, hopen'⟩
    | some snapshot =>
      rcases reportProgress_told hopen' snapshot with ⟨hzero, m, hm, hends⟩ | hslot
      · exact .inl ⟨hzero, m, List.mem_append_right _ hm, hends⟩
      · exact .inr hslot

/-- The request of an offer that is given up has ended. -/
theorem ends_expire (slot : HostOffer) :
    ∃ m ∈ (expire slot).2, m.ends slot.offer.requestId = true :=
  ⟨_, List.mem_singleton_self _, decide_eq_true rfl⟩

/-- An offer that has been polled is still open, or its request has ended. -/
theorem pollOffer_spec {issued : List (ℕ × CString)} (snapshot : Option IpcBrowserProgress)
    (hopen : slot.Open) (hslot : (slot.offer.offerId, slot.offer.requestId) ∈ issued)
    (hturn : current.offerId ≠ 0 → current.offerId = slot.offer.offerId)
    (hcurrent : current.offerId ≠ 0 → (current.offerId, current.requestId) ∈ issued)
    (hissued : ∀ p ∈ issued, ∀ q ∈ issued, p.1 = q.1 → p.2 = q.2) :
    (pollOffer slot current snapshot).1 = .zero ∧
        (∃ m ∈ (pollOffer slot current snapshot).2, m.ends slot.offer.requestId = true) ∨
      (pollOffer slot current snapshot).1.offer.offerId = slot.offer.offerId ∧
        (pollOffer slot current snapshot).1.offer.requestId = slot.offer.requestId ∧
        (pollOffer slot current snapshot).1.Open := by
  rw [pollOffer]
  split_ifs with hgone
  · exact .inl ⟨rfl, ends_expire slot⟩
  · have hid := hturn hgone
    have hrequest : current.requestId = slot.offer.requestId :=
      hissued _ (hcurrent hgone) _ hslot hid
    rcases reportOffer_told hopen current snapshot with ⟨hzero, m, hm, hends⟩ | h
    · exact .inl ⟨hzero, m, hm, hrequest ▸ hends⟩
    · exact .inr ⟨by rw [h.1, hid], by rw [h.1, hrequest], h.2⟩

end

/-! ## The steps -/

section

variable {s : Bridge} {r : CString}

theorem HostPc.Answered.mono {issued issued' : List (ℕ × CString)} {pc : HostPc}
    (h : pc.Answered issued) (hmono : ∀ p ∈ issued, p ∈ issued') : pc.Answered issued' :=
  fun q hq current hcurrent hne => hmono _ (h q hq current hcurrent hne)

theorem HostPc.answered_idle {issued : List (ℕ × CString)} : HostPc.idle.Answered issued := by
  rintro q ⟨⟩

/-- The daemon goes on: what is new has a new identifier, and is for one request that is not
    on its way. -/
theorem Orderly.withDaemon {daemon : BrowserOffers} (h : Orderly s)
    (hlive : ∀ p ∈ liveOffers daemon, p ∈ liveOffers s.daemon ∨
      (∀ q ∈ s.issued, q.1 ≠ p.1) ∧ p.2 = r ∧ ∀ m ∈ s.toHost, requestOf m ≠ some r) :
    Orderly (s.withDaemon daemon) where
  slots host hhost x hx hxlive :=
    (h.slots host hhost x hx hxlive).imp_left fun hmem => List.mem_append_right _ hmem
  answered host hhost := (h.answered host hhost).mono fun p hp => List.mem_append_right _ hp
  daemon p hp := List.mem_append_left _ hp
  issued := by
    -- A new offer has an identifier of its own, and all new ones are for the request `r`.
    have hcases : ∀ p ∈ liveOffers daemon ++ s.issued,
        p ∈ s.issued ∨ (∀ q ∈ s.issued, q.1 ≠ p.1) ∧ p.2 = r := by
      intro p hp
      rcases List.mem_append.mp hp with hp | hp
      · exact (hlive p hp).imp (h.daemon p) fun ⟨hid, hr, _⟩ => ⟨hid, hr⟩
      · exact .inl hp
    intro p hp q hq heq
    rcases hcases p hp with hp | ⟨hp, hpr⟩ <;> rcases hcases q hq with hq | ⟨hq, hqr⟩
    · exact h.issued p hp q hq heq
    · exact absurd heq (hq p hp)
    · exact absurd heq.symm (hp q hq)
    · rw [hpr, hqr]
  waiting m hm := by
    obtain ⟨r', hr', hmem, hnone⟩ := h.waiting m hm
    refine ⟨r', hr', hmem, fun p hp => ?_⟩
    rcases hlive p hp with hp | ⟨-, hpr, hwaiting⟩
    · exact hnone p hp
    · rintro rfl
      exact hwaiting m hm (by rw [hr', hpr])
  distinct := h.distinct
  disconnected := h.disconnected

/-- The host goes on with offers that are open. -/
theorem Orderly.withHost {host host' : Host} {messages : List HostMsg} (h : Orderly s)
    (hhost : s.host = some host)
    (hslots : ∀ x ∈ host'.offers, x.live = true →
      (x.offer.offerId, x.offer.requestId) ∈ s.issued ∧ x.Open)
    (hanswered : host'.pc.Answered s.issued) : Orderly (s.withHost host' messages) where
  slots := by
    rintro h' ⟨⟩
    exact hslots
  answered := by
    rintro h' ⟨⟩
    exact hanswered
  daemon := h.daemon
  issued := h.issued
  waiting := h.waiting
  distinct := h.distinct
  disconnected hconnected := by
    have hnone := (h.disconnected hconnected).1
    rw [hhost] at hnone
    cases hnone

theorem Inv.post {root : Option JsonRoot} (h : Inv s) (hfresh : Fresh s (.post r root)) :
    Inv (s.post r root) := by
  obtain ⟨hroot, hnew, hnone⟩ := hfresh
  refine ⟨⟨?_, ?_, h.daemon, h.issued, ?_, ?_, fun hfalse => nomatch hfalse⟩, ?_⟩
  · intro host hhost x hx hlive
    simp only [Bridge.post] at hhost
    split_ifs at hhost
    · exact h.slots host hhost x hx hlive
    · cases hhost
      rw [List.eq_of_mem_replicate hx] at hlive
      cases hlive
  · intro host hhost
    simp only [Bridge.post] at hhost
    split_ifs at hhost
    · exact h.answered host hhost
    · cases hhost
      exact HostPc.answered_idle
  · intro m hm
    rcases List.mem_append.mp hm with hm | hm
    · obtain ⟨r', hr', hmem, hnone'⟩ := h.waiting m hm
      exact ⟨r', hr', List.mem_cons_of_mem _ hmem, hnone'⟩
    · rw [List.mem_singleton.mp hm]
      exact ⟨r, hroot, List.mem_cons_self, hnone⟩
  · simp only [Bridge.post, List.map_append, List.map_cons, List.map_nil]
    refine List.nodup_append.mpr ⟨h.distinct, List.nodup_singleton _, ?_⟩
    intro x hx y hy heq
    obtain ⟨m, hm, rfl⟩ := List.mem_map.mp hx
    rw [List.mem_singleton] at hy
    subst hy
    obtain ⟨r', hr', hmem, -⟩ := h.waiting m hm
    rw [hr', hroot, Option.some_inj] at heq
    exact hnew (heq ▸ hmem)
  · intro r' hr'
    -- The new request is on its way to the host.
    rcases List.mem_cons.mp hr' with rfl | hr'
    · exact .inr (.inl ⟨root, List.mem_append_right _ (List.mem_singleton_self _), hroot⟩)
    · by_cases hconnected : s.extension.connected = true
      · rcases h.accounted r' hr' with hgone | ⟨m, hm, hmr⟩ | ⟨host, hhost, hslot⟩ | hends
        · exact .inl (by simp only [Bridge.post, if_pos hconnected, hgone])
        · exact .inr (.inl ⟨m, List.mem_append_left _ hm, hmr⟩)
        · exact .inr (.inr (.inl ⟨host, by simp only [Bridge.post, if_pos hconnected, hhost], hslot⟩))
        · exact .inr (.inr (.inr hends))
      · -- A new host is started only where nothing is pending.
        have hnil := (h.disconnected (Bool.eq_false_iff.mpr hconnected)).2
        rw [hnil] at hr'
        cases hr'

/-- A message ends its own request only. -/
theorem mem_onMessage {m : HostMsg} {e : Extension} (h : r ∈ (e.onMessage m).pending) :
    r ∈ e.pending ∧ m.ends r = false := by
  cases m with
  | error r' text =>
    obtain ⟨hmem, hne⟩ := List.mem_filter.mp h
    rw [decide_eq_true_eq] at hne
    exact ⟨hmem, decide_eq_false hne.symm⟩
  | registered r' id => exact ⟨h, rfl⟩
  | state r' name offerId downloadId progress =>
    simp only [Extension.onMessage] at h
    split_ifs at h with hname
    · obtain ⟨hmem, hne⟩ := List.mem_filter.mp h
      rw [decide_eq_true_eq] at hne
      exact ⟨hmem, decide_eq_false fun heq => hne heq.1.symm⟩
    · exact ⟨h, decide_eq_false fun heq => hname heq.2⟩

theorem Inv.deliver {m : HostMsg} {rest : List HostMsg} (h : Inv s) (hm : s.toExtension = m :: rest) :
    Inv { s with extension := s.extension.onMessage m, toExtension := rest } := by
  have hconnected : (s.extension.onMessage m).connected = s.extension.connected := by
    cases m <;> rfl
  refine ⟨⟨h.slots, h.answered, h.daemon, h.issued, h.waiting, h.distinct, fun hfalse => ?_⟩,
    fun r hr => ?_⟩
  · obtain ⟨hnone, hnil⟩ := h.disconnected (hconnected ▸ hfalse)
    refine ⟨hnone, List.eq_nil_iff_forall_not_mem.mpr fun r hr => ?_⟩
    have hmem := (mem_onMessage hr).1
    rw [hnil] at hmem
    cases hmem
  · obtain ⟨hr, hnot⟩ := mem_onMessage hr
    rcases h.accounted r hr with hgone | hwaiting | hslot | ⟨m', hm', hends⟩
    · exact .inl hgone
    · exact .inr (.inl hwaiting)
    · exact .inr (.inr (.inl hslot))
    · rw [hm] at hm'
      rcases List.mem_cons.mp hm' with rfl | hm'
      · rw [hnot] at hends
        cases hends
      · exact .inr (.inr (.inr ⟨m', hm', hends⟩))

theorem Inv.disconnect (h : Inv s) (hhost : s.host = none) (reason : CString) :
    Inv { s with extension := s.extension.onDisconnect reason, toHost := [], toExtension := [] } :=
  ⟨⟨h.slots, h.answered, h.daemon, h.issued, fun _ hm => (nomatch hm), List.nodup_nil,
    fun _ => ⟨hhost, rfl⟩⟩, fun _ hr => (nomatch hr)⟩

theorem Inv.hostExit (h : Inv s) : Inv { s with host := none } :=
  ⟨⟨fun _ hhost => (nomatch hhost), fun _ hhost => (nomatch hhost), h.daemon, h.issued, h.waiting,
    h.distinct, fun hfalse => ⟨rfl, (h.disconnected hfalse).2⟩⟩, fun _ _ => .inl rfl⟩

/-- Losing a connection leaves the offers, and the answers. -/
theorem lose_host {host' : Host} (h : s.lose.host = some host') :
    ∃ host, s.host = some host ∧ host'.offers = host.offers ∧
      ∀ issued, host.pc.Answered issued → host'.pc.Answered issued := by
  obtain ⟨host, hhost, rfl⟩ := Option.map_eq_some_iff.mp h
  refine ⟨host, hhost, ?_⟩
  split
  · rename_i q hq
    refine ⟨rfl, fun issued hanswered q' hq' => ?_⟩
    have hq'' : q' = { q with connected := false } := by
      obtain ⟨offers, pc⟩ := host
      cases pc <;> cases hq <;> cases hq' <;> rfl
    subst hq''
    exact hanswered q hq
  · exact ⟨rfl, fun issued hanswered => hanswered⟩

theorem lose_isSome : s.lose.host.isSome = s.host.isSome := Option.isSome_map

theorem Inv.lose (h : Inv s) : Inv s.lose := by
  refine ⟨⟨fun host' hhost' => ?_, fun host' hhost' => ?_, h.daemon, h.issued, h.waiting, h.distinct,
    fun hfalse => ?_⟩, fun r hr => ?_⟩
  · obtain ⟨host, hhost, hoffers, -⟩ := lose_host hhost'
    rw [hoffers]
    exact h.slots host hhost
  · obtain ⟨host, hhost, -, hanswered⟩ := lose_host hhost'
    exact hanswered _ (h.answered host hhost)
  · obtain ⟨hnone, hnil⟩ := h.disconnected hfalse
    exact ⟨Option.map_eq_none_iff.mpr hnone, hnil⟩
  · rcases h.accounted r hr with hgone | hwaiting | ⟨host, hhost, hslot⟩ | hends
    · exact .inl (Option.map_eq_none_iff.mpr hgone)
    · exact .inr (.inl hwaiting)
    · obtain ⟨host', hhost'⟩ := Option.isSome_iff_exists.mp
        (lose_isSome.trans (Option.isSome_of_eq_some hhost))
      obtain ⟨host'', hhost'', hoffers, -⟩ := lose_host hhost'
      rw [hhost] at hhost''
      cases hhost''
      exact .inr (.inr (.inl ⟨host', hhost', hoffers ▸ hslot⟩))
    · exact .inr (.inr (.inr hends))

theorem Inv.restart (h : Inv s) : Inv { s with daemon := .start } := by
  have hlive : ∀ p : ℕ × CString, p ∉ liveOffers .start := by
    intro p hp
    obtain ⟨x, hx, hlive, -⟩ := mem_liveOffers.mp hp
    rw [List.eq_of_mem_replicate hx] at hlive
    cases hlive
  refine ⟨⟨h.slots, h.answered, fun p hp => absurd hp (hlive p), h.issued, fun m hm => ?_,
    h.distinct, h.disconnected⟩, h.accounted⟩
  obtain ⟨r, hr, hmem, -⟩ := h.waiting m hm
  exact ⟨r, hr, hmem, fun p hp => absurd hp (hlive p)⟩

/-- Where a request is kept does not depend on the daemon. -/
theorem Inv.daemonActs {a : OfferAct} (h : Inv s) (hfresh : Fresh s (.daemon a)) :
    Inv (s.withDaemon (s.daemon.step a).1) := by
  refine ⟨?_, h.accounted⟩
  cases a with
  | offer root now randomId =>
    obtain ⟨hids, hwaiting⟩ := hfresh
    refine h.toOrderly.withDaemon (r := (requestOf root).getD []) fun p hp => ?_
    refine (liveOffers_handleOffer hp).imp_right fun ⟨⟨n, hn, hpn⟩, hpr⟩ => ?_
    rw [hpr] at hwaiting ⊢
    refine ⟨fun q hq => ?_, rfl, fun m hm => (hwaiting m hm).symm⟩
    rw [hpn]
    exact hids n hn q hq
  | _ =>
    refine h.toOrderly.withDaemon (r := []) fun p hp => ?_
    rcases liveOffers_step hp with hp | ⟨_, _, _, hact, -⟩
    · exact .inl hp
    · cases hact

/-- The host and what it has sent decide what is accounted for. -/
theorem accounted_of_host {s' : Bridge} (host' : Host) (hhost' : s'.host = some host')
    (hmessages : ∀ m ∈ s.toExtension, m ∈ s'.toExtension)
    (hwaiting : ∀ m ∈ s.toHost, requestOf m = some r → m ∈ s'.toHost ∨ Accounted s' r)
    (hslot : ∀ h, s.host = some h → ∀ x ∈ h.offers, x.live = true → x.offer.requestId = r →
      (∃ y ∈ host'.offers, y.live = true ∧ y.offer.requestId = r) ∨
        ∃ m ∈ s'.toExtension, m.ends r = true)
    (hhost : s.host ≠ none) (h : Accounted s r) : Accounted s' r := by
  rcases h with hgone | ⟨m, hm, hmr⟩ | ⟨host, hs, x, hx, hlive, hxr⟩ | ⟨m, hm, hends⟩
  · exact absurd hgone hhost
  · rcases hwaiting m hm hmr with hm | hdone
    · exact .inr (.inl ⟨m, hm, hmr⟩)
    · exact hdone
  · rcases hslot host hs x hx hlive hxr with hkept | hends
    · exact .inr (.inr (.inl ⟨host', hhost', hkept⟩))
    · exact .inr (.inr (.inr hends))
  · exact .inr (.inr (.inr ⟨m, hmessages m hm, hends⟩))

theorem Inv.read {offers offers' : List HostOffer} {root : Option JsonRoot}
    {rest : List (Option JsonRoot)} {call : OfferCall} {daemon' : BrowserOffers}
    {messages : List HostMsg} (h : Inv s) (hhost : s.host = some ⟨offers, .idle⟩)
    (hpipe : s.toHost = root :: rest) (hfresh : FreshIds s call.randomId)
    (hout : handleMessage offers s.daemon root call = (offers', daemon', messages)) :
    Inv ((Bridge.withHost { s with toHost := rest } ⟨offers', .idle⟩ messages).withDaemon
      daemon') := by
  have hmem : root ∈ s.toHost := by
    rw [hpipe]
    exact List.mem_cons_self
  obtain ⟨r, hroot, -, hnone⟩ := h.waiting root hmem
  obtain ⟨hlive, hdone⟩ := handleMessage_spec hroot hnone hout
  have hdistinct := h.distinct
  rw [hpipe, List.map_cons, List.nodup_cons] at hdistinct
  have hrest (m : Option JsonRoot) (hm : m ∈ rest) : m ∈ s.toHost := by
    rw [hpipe]
    exact List.mem_cons_of_mem _ hm
  have hrest' : Orderly { s with toHost := rest } :=
    ⟨h.slots, h.answered, h.daemon, h.issued, fun m hm => h.waiting m (hrest m hm), hdistinct.2,
      h.disconnected⟩
  have hdaemon : Orderly (Bridge.withDaemon { s with toHost := rest } daemon') := by
    refine hrest'.withDaemon (r := r) fun p hp => ?_
    refine (hlive p hp).imp_right fun ⟨⟨n, hn, hpn⟩, hpr⟩ => ⟨fun q hq => ?_, hpr, fun m hm heq => ?_⟩
    · rw [hpn]
      exact hfresh n hn q hq
    · exact hdistinct.1 (hroot ▸ heq ▸ List.mem_map_of_mem hm)
  have hissued : ∀ p ∈ s.issued, p ∈ liveOffers daemon' ++ s.issued := fun p hp =>
    List.mem_append_right _ hp
  refine ⟨hdaemon.withHost hhost (fun x hx hxlive => ?_) HostPc.answered_idle, fun r' hr' => ?_⟩
  · rcases hdone with ⟨rfl, -⟩ | ⟨i, y, o, -, -, rfl, -, hor, hmem'⟩
    · exact (h.slots _ hhost x hx hxlive).imp_left (hissued _)
    · rcases List.mem_or_eq_of_mem_set hx with hx | rfl
      · exact (h.slots _ hhost x hx hxlive).imp_left (hissued _)
      · refine ⟨List.mem_append_left _ (hor ▸ hmem'), fun hstate => (nomatch hstate), ?_⟩
        simp [isTerminal]
  · refine accounted_of_host (s := s) ⟨offers', .idle⟩ rfl
      (fun m hm => List.mem_append_left _ hm) (fun m hm hmr => ?_) (fun host hs x hx hxlive hxr => ?_)
      (by rw [hhost]; exact Option.some_ne_none _) (h.accounted r' hr')
    · rw [hpipe] at hm
      rcases List.mem_cons.mp hm with rfl | hm
      · -- It is the request that has been handled.
        refine .inr ?_
        rw [hroot, Option.some_inj] at hmr
        subst hmr
        rcases hdone with ⟨-, m, hm, hends⟩ | ⟨i, y, o, hy, -, rfl, hid, hor, -⟩
        · exact .inr (.inr (.inr ⟨m, List.mem_append_right _ hm, hends⟩))
        · have hi := (List.getElem?_eq_some_iff.mp hy).1
          exact .inr (.inr (.inl ⟨_, rfl, _, List.mem_set hi _, by simpa [HostOffer.live] using hid,
            hor⟩))
      · exact .inl hm
    · rw [hhost] at hs
      cases hs
      rcases hdone with ⟨rfl, -⟩ | ⟨i, y, o, hy, hyr, rfl, hid, hor, -⟩
      · exact .inl ⟨x, hx, hxlive, hxr⟩
      · have hi := (List.getElem?_eq_some_iff.mp hy).1
        obtain ⟨j, hj⟩ := List.mem_iff_getElem?.mp hx
        -- The slot that is filled was free, or held the same request.
        by_cases hij : i = j
        · subst hij
          rw [hy] at hj
          cases hj
          exact .inl ⟨_, List.mem_set hi _, by simpa [HostOffer.live] using hid,
            hor.trans ((hyr hxlive).symm.trans hxr)⟩
        · refine .inl ⟨x, List.mem_iff_getElem?.mpr ⟨j, ?_⟩, hxlive, hxr⟩
          rw [List.getElem?_set_ne hij]
          exact hj

/-- A host that keeps its offers, or says that they have ended, keeps what is accounted for. -/
theorem accounted_withHost {host host' : Host} {messages : List HostMsg} (hhost : s.host = some host)
    (hslot : ∀ x ∈ host.offers, x.live = true → x.offer.requestId = r →
      (∃ y ∈ host'.offers, y.live = true ∧ y.offer.requestId = r) ∨
        ∃ m ∈ messages, m.ends r = true)
    (h : Accounted s r) : Accounted (s.withHost host' messages) r := by
  refine accounted_of_host (s := s) host' rfl (fun m hm => List.mem_append_left _ hm)
    (fun m hm _ => .inl hm) (fun h' hs x hx hlive hxr => ?_)
    (by rw [hhost]; exact Option.some_ne_none _) h
  rw [hhost] at hs
  cases hs
  exact (hslot x hx hlive hxr).imp_right fun ⟨m, hm, hends⟩ => ⟨m, List.mem_append_right _ hm, hends⟩

/-- The host goes on polling, or does not. -/
theorem Inv.withPc {host : Host} {pc : HostPc} (h : Inv s) (hhost : s.host = some host)
    (hanswered : pc.Answered s.issued) : Inv (s.withHost ⟨host.offers, pc⟩ []) :=
  ⟨h.toOrderly.withHost hhost (h.slots host hhost) hanswered, fun r hr =>
    accounted_withHost hhost (fun x hx hlive hxr => .inl ⟨x, hx, hlive, hxr⟩) (h.accounted r hr)⟩

theorem Inv.drop {offers : List HostOffer} (h : Inv s) (hhost : s.host = some ⟨offers, .idle⟩) :
    Inv (s.withHost ⟨(dropOffers offers).1, .idle⟩ (dropOffers offers).2) := by
  have hzero : ∀ x ∈ (dropOffers offers).1, ¬x.live = true := by
    intro x hx
    obtain ⟨y, -, rfl⟩ := List.mem_map.mp hx
    decide
  refine ⟨h.toOrderly.withHost hhost (fun x hx hlive => absurd hlive (hzero x hx))
    HostPc.answered_idle, fun r hr =>
    accounted_withHost hhost (fun x hx hlive hxr => .inr ?_) (h.accounted r hr)⟩
  exact ⟨_, List.mem_map_of_mem (List.mem_filter.mpr ⟨hx, hlive⟩), decide_eq_true hxr⟩

/-- The offer the host is at is given up, or remains that of its request. -/
theorem Inv.setSlot {offers : List HostOffer} {pc pc' : HostPc} {i : ℕ} {slot slot' : HostOffer}
    {messages : List HostMsg} (h : Inv s) (hhost : s.host = some ⟨offers, pc⟩)
    (hslot : offers[i]? = some slot) (hanswered : pc'.Answered s.issued)
    (hdone : slot' = .zero ∧ (∃ m ∈ messages, m.ends slot.offer.requestId = true) ∨
      slot'.offer.offerId = slot.offer.offerId ∧
        slot'.offer.requestId = slot.offer.requestId ∧ slot'.Open) :
    Inv (s.withHost ⟨offers.set i slot', pc'⟩ messages) := by
  have hi := (List.getElem?_eq_some_iff.mp hslot).1
  have hmem : slot ∈ offers := List.mem_of_getElem? hslot
  refine ⟨h.toOrderly.withHost hhost (fun x hx hlive => ?_) hanswered, fun r hr => ?_⟩
  · rcases List.mem_or_eq_of_mem_set hx with hx | rfl
    · exact h.slots _ hhost x hx hlive
    · rcases hdone with ⟨rfl, -⟩ | ⟨hid, hrequest, hopen⟩
      · cases hlive
      · rw [HostOffer.live, hid] at hlive
        rw [hid, hrequest]
        exact ⟨(h.slots _ hhost slot hmem hlive).1, hopen⟩
  · refine accounted_withHost hhost (fun x hx hlive hxr => ?_) (h.accounted r hr)
    obtain ⟨j, hj⟩ := List.mem_iff_getElem?.mp hx
    -- Another slot keeps what it has.
    by_cases hij : i = j
    · subst hij
      simp only at hj
      rw [hslot] at hj
      cases hj
      rcases hdone with ⟨-, hends⟩ | ⟨hid, hrequest, -⟩
      · exact .inr (hxr ▸ hends)
      · refine .inl ⟨_, List.mem_set hi _, ?_, hrequest.trans hxr⟩
        rw [HostOffer.live, hid]
        exact hlive
    · refine .inl ⟨x, List.mem_iff_getElem?.mpr ⟨j, ?_⟩, hlive, hxr⟩
      rw [List.getElem?_set_ne hij]
      exact hj

theorem Inv.expire {offers : List HostOffer} {pc pc' : HostPc} {i : ℕ} {slot : HostOffer}
    (h : Inv s) (hhost : s.host = some ⟨offers, pc⟩) (hslot : offers[i]? = some slot)
    (hanswered : pc'.Answered s.issued) :
    Inv (s.withHost ⟨offers.set i (NativeHost.expire slot).1, pc'⟩ (NativeHost.expire slot).2) :=
  h.setSlot hhost hslot hanswered (.inl ⟨rfl, ends_expire slot⟩)

theorem Inv.answer {offers : List HostOffer} {pc : HostPc} {q : Query} {id : ℕ} {asked : List ℕ}
    {torn : Bool} (h : Inv s) (hhost : s.host = some ⟨offers, pc⟩) (hq : pc.query? = some q)
    (now : ℤ) :
    Inv ((s.withHost ⟨offers, pc.withQuery
      ⟨true, asked, q.answers ++ [(s.daemon.handleGetOffer id now).2], torn⟩⟩ []).withDaemon
        (s.daemon.handleGetOffer id now).1) := by
  have hdaemon : Orderly (s.withDaemon (s.daemon.handleGetOffer id now).1) :=
    h.toOrderly.withDaemon (r := []) fun p hp => .inl (liveOffers_handleGetOffer hp)
  have hanswered : HostPc.Answered (s.withDaemon (s.daemon.handleGetOffer id now).1).issued
      (pc.withQuery ⟨true, asked, q.answers ++ [(s.daemon.handleGetOffer id now).2], torn⟩) := by
    intro q' hq' current hcurrent hne
    have heq : q' = ⟨true, asked, q.answers ++ [(s.daemon.handleGetOffer id now).2], torn⟩ := by
      cases pc <;> cases hq <;> cases hq' <;> rfl
    subst heq
    rcases List.mem_append.mp hcurrent with hcurrent | hcurrent
    · exact hdaemon.answered ⟨offers, pc⟩ hhost q hq current hcurrent hne
    · -- The answer is on an offer that the daemon has, or is empty.
      rw [List.mem_singleton] at hcurrent
      subst hcurrent
      obtain ⟨hid, hmem⟩ := handleGetOffer_found hne
      rw [hid]
      exact List.mem_append_right _ (h.daemon _ hmem)
  exact ⟨hdaemon.withHost hhost (hdaemon.slots ⟨offers, pc⟩ hhost) hanswered, fun r hr =>
    accounted_withHost (s := s) hhost (fun x hx hlive hxr => .inl ⟨x, hx, hlive, hxr⟩)
      (h.accounted r hr)⟩

theorem Inv.receive {offers : List HostOffer} {i : ℕ} {q : Query} {slot : HostOffer}
    {current : IpcBrowserOffer} {answers : List IpcBrowserOffer} (h : Inv s)
    (hhost : s.host = some ⟨offers, .asking i q⟩) (hanswers : q.answers = current :: answers)
    (hslot : offers[i]? = some slot)
    (hturn : current.offerId ≠ 0 → current.offerId = slot.offer.offerId)
    (snapshot : Option IpcBrowserProgress) :
    Inv (s.withHost ⟨offers.set i (pollOffer slot current snapshot).1,
      .polling (i + 1) { q with answers := answers }⟩ (pollOffer slot current snapshot).2) := by
  have hanswered := h.answered _ hhost q rfl
  rw [hanswers, List.forall_mem_cons] at hanswered
  refine h.setSlot hhost hslot ?_ ?_
  · rintro q' ⟨⟩
    exact hanswered.2
  · by_cases hlive : slot.live = true
    · obtain ⟨hmem, hopen⟩ := h.slots _ hhost slot (List.mem_of_getElem? hslot) hlive
      exact pollOffer_spec snapshot hopen hmem hturn hanswered.1 h.issued
    · -- Nothing but an empty answer is taken for a slot that is not in use.
      have hzero : slot.offer.offerId = 0 := by simpa [HostOffer.live] using hlive
      have hgone : current.offerId = 0 := by
        by_contra hne
        exact hne ((hturn hne).trans hzero)
      rw [pollOffer, if_pos hgone]
      exact .inl ⟨rfl, ends_expire slot⟩

theorem Inv.step {a : BridgeAct} {s' : Bridge} (h : Inv s) (hfresh : Fresh s a)
    (hturn : InTurn s a) (hstep : step s a = some s') : Inv s' := by
  cases a with
  | post r root =>
    cases hstep
    exact h.post hfresh
  | postFails message =>
    cases hstep
    exact ⟨⟨h.slots, h.answered, h.daemon, h.issued, h.waiting, h.distinct, h.disconnected⟩,
      h.accounted⟩
  | deliver =>
    rw [NativeHost.step] at hstep
    split at hstep
    · cases hstep
    · rename_i m rest hm
      cases hstep
      exact h.deliver hm
  | disconnect reason =>
    rw [NativeHost.step] at hstep
    split_ifs at hstep with hgone
    cases hstep
    exact h.disconnect (Option.isNone_iff_eq_none.mp hgone.2) reason
  | read call =>
    rw [NativeHost.step] at hstep
    split at hstep
    · rename_i offers root rest hhost hpipe
      cases hstep
      exact h.read hhost hpipe hfresh rfl
    · cases hstep
  | poll connected =>
    rw [NativeHost.step] at hstep
    split at hstep
    · rename_i offers hhost
      split_ifs at hstep <;> cases hstep
      · refine h.withPc hhost ?_
        rintro q ⟨⟩
        exact fun current hcurrent => (nomatch hcurrent)
      · exact h.drop hhost
      · exact h
    · cases hstep
  | ask =>
    rw [NativeHost.step] at hstep
    split at hstep
    · rename_i offers i q hhost
      have hanswered : HostPc.Answered s.issued (.polling (i + 1) q) := h.answered _ hhost
      split at hstep
      · cases hstep
        exact h.withPc hhost HostPc.answered_idle
      · rename_i slot hslot
        split_ifs at hstep <;> cases hstep
        · exact h.withPc hhost hanswered
        · exact h.expire hhost hslot hanswered
        · refine h.withPc hhost ?_
          rintro q' ⟨⟩
          exact hanswered q rfl
    · cases hstep
  | answer now =>
    rw [NativeHost.step] at hstep
    split at hstep
    · rename_i offers pc hhost
      split at hstep
      · rename_i id asked answers torn hq
        cases hstep
        exact h.answer hhost hq now
      · cases hstep
    · cases hstep
  | receive stray snapshot =>
    rw [NativeHost.step] at hstep
    rw [InTurn] at hturn
    split at hstep
    · rename_i offers i q hhost
      rw [hhost] at hturn
      split at hstep
      · rename_i slot current q' hslot hnext
        cases hstep
        obtain ⟨answers, hanswers, rfl⟩ := Query.next_eq_some hturn.1 hnext
        have hid := hturn.2 current (by simp [hanswers]) slot hslot
        exact h.receive hhost hanswers hslot hid snapshot
      · cases hstep
    · cases hstep
  | timeout torn =>
    rw [NativeHost.step] at hstep
    split at hstep
    · rename_i offers i q hhost
      split at hstep
      · cases hstep
      · rename_i slot hslot
        cases hstep
        refine h.expire hhost hslot ?_
        rintro q' ⟨⟩
        exact h.answered _ hhost q rfl
    · cases hstep
  | lose =>
    cases hstep
    exact h.lose
  | hostExit =>
    rw [NativeHost.step] at hstep
    split_ifs at hstep
    cases hstep
    exact h.hostExit
  | daemon a =>
    cases hstep
    exact h.daemonActs hfresh
  | restart =>
    cases hstep
    exact h.lose.restart

theorem Inv.start : Inv .start := by
  have hlive : ∀ p : ℕ × CString, p ∉ liveOffers .start := by
    intro p hp
    obtain ⟨x, hx, hlive, -⟩ := mem_liveOffers.mp hp
    rw [List.eq_of_mem_replicate hx] at hlive
    cases hlive
  exact ⟨⟨fun _ hhost => (nomatch hhost), fun _ hhost => (nomatch hhost),
    fun p hp => absurd hp (hlive p), fun _ hp => (nomatch hp), fun _ hm => (nomatch hm),
    List.nodup_nil, fun _ => ⟨rfl, rfl⟩⟩, fun _ hr => (nomatch hr)⟩

end

instance (s : Bridge) (a : BridgeAct) : Decidable (Fresh s a) := by
  unfold Fresh
  split <;> infer_instance

instance (s : Bridge) (a : BridgeAct) : Decidable (InTurn s a) := by
  unfold InTurn
  split
  · split <;> infer_instance
  · infer_instance

/-- The message of an archive. -/
def archiveMessage (requestId : CString) : JsonRoot := fun key =>
  if key = "type" then some (.string "download_offer".toList)
  else if key = "request_id" then some (.string requestId)
  else if key = "url" then some (.string "https://h/a".toList)
  else if key = "filename" then some (.string ['a'])
  else none

end NativeHost

end Cdm
