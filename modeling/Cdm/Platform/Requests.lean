import Cdm.Platform.Server

/-!
# The requests of the clients

The client functions of `platform/ipc_socket.c`: each writes a request, a header and the
payload, and reads the answer. The printer of the JSON in a request is a parameter.

The frames stay in step (`InStep`) if the daemon, on the header of a request, reads its
payload to the end and no further, and answers once. This fails for an add with a string
too long for the daemon: the handler returns at the first such string, leaving what
follows on the connection, and does not answer. All other requests stay in step
(`inStep_iff`).
-/

namespace Cdm

open Wire

/-! ## Clients -/

/-- The options of an add; `none` is a null pointer. -/
structure IpcDownloadOptions where
  cookie : Option CString
  referrer : Option CString
  extraHeaders : Option CString
  expectedSha256 : Option CString
  speedLimitBps : ℕ

/-- A value put into a JSON object. -/
inductive JsonItem
  | string (text : CString)
  | number (n : ℕ)
  deriving DecidableEq

/-- A text is left out if it is empty. -/
def textItem (key : String) : Option CString → List (String × JsonItem)
  | none | some [] => []
  | some (c :: text) => [(key, .string (c :: text))]

def IpcDownloadOptions.items (o : IpcDownloadOptions) : List (String × JsonItem) :=
  textItem "cookie" o.cookie ++ textItem "referrer" o.referrer ++
    textItem "extra_headers" o.extraHeaders ++ textItem "expected_sha256" o.expectedSha256 ++
    if 0 < o.speedLimitBps then [("speed_limit_bps", .number o.speedLimitBps)] else []

/-- A printer of JSON objects; it may run out of memory. -/
abbrev JsonPrinter := List (String × JsonItem) → Option CString

def optionsJson (print : JsonPrinter) : Option IpcDownloadOptions → CString
  | none => []
  | some o => (print o.items).getD []

/-- Writing a header, and the payload if there is one. -/
def writeRequest (t : MsgType) (payload : List Char) : Prog Char Unit := do
  Prog.send (MsgHeader.bytes ⟨payload.length, t.code⟩)
  if payload ≠ [] then Prog.send payload

@[simp] theorem fed_writeRequest {t : MsgType} {payload l : List Char} :
    (writeRequest t payload).fed l = true := by
  rw [writeRequest]
  by_cases h : payload = [] <;> simp [h]

@[simp] theorem rest_writeRequest {t : MsgType} {payload l : List Char} :
    ((writeRequest t payload).run l).rest = l := by
  rw [writeRequest]
  by_cases h : payload = [] <;> simp [h]

/-- The identifier of the new download, `0` if there is none. -/
def ipcSendAddDownload (print : JsonPrinter) (url destPath : CString)
    (options : Option IpcDownloadOptions) : Prog Char ℕ := do
  let json := optionsJson print options
  Prog.send (MsgHeader.bytes
    ⟨(12 + url.length + destPath.length + json.length) % 2 ^ 32, MsgType.addDownload.code⟩)
  writeString url
  writeString destPath
  writeString json
  match ← Prog.readExact 4 with
  | none => pure 0
  | some id => pure (value id)

def readResult : Prog Char Bool := do
  match ← Prog.readExact 1 with
  | none => pure false
  | some r => pure (r = IpcResult.ok.bytes)

def Command.msg : Command → MsgType
  | .pause => .pause
  | .resume => .resume
  | .cancel => .cancel

/-- `ipc_send_pause`, `ipc_send_resume` and `ipc_send_cancel`. -/
def ipcSendCommand (c : Command) (id : ℕ) : Prog Char Bool := do
  writeRequest c.msg (littleEndian 4 id)
  readResult

/-- Reading four strings and a number. -/
def readDetails : Prog Char (Option IpcDownloadDetails) := do
  match ← readString 1024 with
  | none => pure none
  | some cookie =>
    match ← readString 2048 with
    | none => pure none
    | some referrer =>
      match ← readString 4096 with
      | none => pure none
      | some extraHeaders =>
        match ← readString 65 with
        | none => pure none
        | some expectedSha256 =>
          match ← Prog.readExact 8 with
          | none => pure none
          | some bps =>
            pure (some ⟨cookie, referrer, extraHeaders, expectedSha256, value bps⟩)

def ipcSendGetDetails (id : ℕ) : Prog Char (Option IpcDownloadDetails) := do
  writeRequest .getDetails (littleEndian 4 id)
  match ← Prog.readExact 1 with
  | none => pure none
  | some found => if found = [Char.ofNat 0] then pure none else readDetails

def ipcSendReloadConfig : Prog Char Bool := do
  writeRequest .reloadConfig []
  readResult

/-- The bytes of an offer, if its identifier is not `0`. -/
def readOffer : Prog Char (Option (List Char)) := do
  match ← Prog.readExact 4888 with
  | none => pure none
  -- An offer with the identifier 0 is a refusal.
  | some o => pure (if value (o.take 4) = 0 then none else some o)

def IpcBrowserOffer.items (o : IpcBrowserOffer) : List (String × JsonItem) :=
  [("request_id", .string o.requestId), ("url", .string o.url), ("filename", .string o.filename),
    ("mime", .string o.mime), ("referrer", .string o.referrer), ("total_bytes", .number o.totalBytes)]

def ipcBrowserOffer (print : JsonPrinter) (o : IpcBrowserOffer) : Prog Char (Option (List Char)) :=
  if o.requestId = [] ∨ o.url = [] then pure none
  else
    match print o.items with
    | none => pure none
    | some json =>
      if ipcMaxFrameSize < json.length then pure none
      else do
        writeRequest .browserOffer json
        readOffer

def ipcBrowserGetOffer (id : ℕ) : Prog Char (Option (List Char)) :=
  if id = 0 then pure none
  else do
    writeRequest .browserGetOffer (littleEndian 4 id)
    readOffer

def ipcBrowserConfirm (offerId : ℕ) (destPath : CString) : Prog Char (Option ℕ) :=
  if offerId = 0 ∨ destPath = [] ∨ ipcMaxPathLen ≤ destPath.length then pure none
  else do
    writeRequest .browserConfirm
      (littleEndian 4 offerId ++ littleEndian 4 destPath.length ++ destPath)
    match ← Prog.readExact 4 with
    | none => pure none
    | some id => pure (if value id = 0 then none else some (value id))

def ipcBrowserDismiss (offerId : ℕ) : Prog Char Bool :=
  if offerId = 0 then pure false
  else do
    writeRequest .browserDismiss (littleEndian 4 offerId)
    readResult

/-- The bytes of a progress. -/
def ipcBrowserSubscribeProgress (id : ℕ) : Prog Char (Option (List Char)) :=
  if id = 0 then pure none
  else do
    writeRequest .browserSubscribeProgress (littleEndian 4 id)
    Prog.readExact 1336

/-! ## Requests -/

/-- A call of a client function that waits for an answer. -/
inductive Request
  | addDownload (url destPath : CString) (options : Option IpcDownloadOptions)
  | command (c : Command) (id : ℕ)
  | listAll (max : ℤ)
  | getDetails (id : ℕ)
  | reloadConfig
  | browserOffer (o : IpcBrowserOffer)
  | browserGetOffer (id : ℕ)
  | browserConfirm (offerId : ℕ) (destPath : CString)
  | browserDismiss (offerId : ℕ)
  | browserSubscribeProgress (id : ℕ)

/-- What comes back to a call is left out. -/
def ignore {α : Type} (p : Prog Char α) : Prog Char Unit := do
  let _ ← p
  pure ()

def Request.client (print : JsonPrinter) : Request → Prog Char Unit
  | addDownload url destPath options => ignore (ipcSendAddDownload print url destPath options)
  | command c id => ignore (ipcSendCommand c id)
  | listAll max => ignore (ipcSendListAll max)
  | getDetails id => ignore (ipcSendGetDetails id)
  | reloadConfig => ignore ipcSendReloadConfig
  | browserOffer o => ignore (ipcBrowserOffer print o)
  | browserGetOffer id => ignore (ipcBrowserGetOffer id)
  | browserConfirm offerId destPath => ignore (ipcBrowserConfirm offerId destPath)
  | browserDismiss offerId => ignore (ipcBrowserDismiss offerId)
  | browserSubscribeProgress id => ignore (ipcBrowserSubscribeProgress id)

/-- What the call writes; nothing if its arguments are refused. -/
def Request.frame (print : JsonPrinter) (r : Request) : List Char := ((r.client print).run []).written

/-- An answer, as its client reads it. -/
inductive Response
  | id (n : ℕ)
  | result (r : IpcResult)
  | offer (o : IpcBrowserOffer)
  | progress (p : IpcBrowserProgress)
  | rows (l : List DownloadListRecord)
  | details (d : Option IpcDownloadDetails)

namespace Response

def bytes : Response → List Char
  | id n => littleEndian 4 n
  | result r => r.bytes
  | offer o => o.bytes
  | progress p => p.bytes
  | rows l => listBytes l
  | details d => ((Handlers.sendDetails d).run []).written

/-- The answers to a message of a type. -/
def Answers : Response → MsgType → Prop
  | id _, t => t = .addDownload ∨ t = .browserConfirm
  | result _, t => t = .pause ∨ t = .resume ∨ t = .cancel ∨ t = .reloadConfig ∨ t = .browserDismiss
  | offer _, t => t = .browserOffer ∨ t = .browserGetOffer
  | progress _, t => t = .browserSubscribeProgress
  | rows _, t => t = .listAll
  | details _, t => t = .getDetails

end Response

/-- On the header of the frame the daemon reads as many bytes as the header says, which are
    those left of the frame, whatever follows, and writes one answer. -/
def InStep {σ : Type} (h : Handlers σ) (s : σ) (frame : List Char) : Prop :=
  (frame.drop MsgHeader.size).length = (frameHeader frame).length ∧
    ∀ (fd : ℕ) (more : List Char),
      ((h.handleMessage fd (frameHeader frame) s).run (frame.drop MsgHeader.size ++ more)).rest = more ∧
      ∃ (r : Response) (t : MsgType), MsgType.ofCode (frameHeader frame).type = some t ∧ r.Answers t ∧
        ((h.handleMessage fd (frameHeader frame) s).run
          (frame.drop MsgHeader.size ++ more)).written = r.bytes

/-- The strings of a request fit the arrays of the daemon. -/
def Request.Fits (print : JsonPrinter) : Request → Prop
  | addDownload url destPath options =>
    url.length < 2048 ∧ destPath.length < 1024 ∧ (optionsJson print options).length < 8192
  | _ => True

/-! ## Frames -/

section

variable {σ : Type} {h : Handlers σ} {s : σ} {print : JsonPrinter}

theorem frame_split (hdr : MsgHeader) (payload : List Char) (hlength : hdr.length < 256 ^ 4)
    (htype : hdr.type < 256 ^ 4) :
    frameHeader (hdr.bytes ++ payload) = hdr ∧ (hdr.bytes ++ payload).drop MsgHeader.size = payload := by
  rw [frameHeader, List.take_left' hdr.length_bytes, List.drop_left' hdr.length_bytes,
    MsgHeader.ofBytes_bytes hlength htype]
  exact ⟨rfl, rfl⟩

/-- A frame is in step if the handler of its type reads the payload to its end. -/
theorem inStep_frame {t : MsgType} {payload : List Char} (hlength : payload.length < 256 ^ 4)
    (hrun : ∀ (fd : ℕ) (more : List Char),
      ((h.handleMessage fd ⟨payload.length, t.code⟩ s).run (payload ++ more)).rest = more ∧
      ∃ r : Response, r.Answers t ∧
        ((h.handleMessage fd ⟨payload.length, t.code⟩ s).run (payload ++ more)).written = r.bytes) :
    InStep h s (MsgHeader.bytes ⟨payload.length, t.code⟩ ++ payload) := by
  obtain ⟨hheader, hpayload⟩ := frame_split ⟨payload.length, t.code⟩ payload hlength t.code_lt
  rw [InStep, hheader, hpayload]
  refine ⟨rfl, fun fd more => ?_⟩
  obtain ⟨hrest, r, hr, hwritten⟩ := hrun fd more
  exact ⟨hrest, r, t, t.ofCode_code, hr, hwritten⟩

/-- A call of a client writes its request first. -/
theorem frame_writeRequest {α : Type} {t : MsgType} {payload : List Char} {k : Unit → Prog Char α}
    (hk : ((k ()).run []).written = []) :
    ((ignore (writeRequest t payload >>= k)).run []).written =
      MsgHeader.bytes ⟨payload.length, t.code⟩ ++ payload := by
  by_cases hp : payload = [] <;> simp [ignore, writeRequest, hp, hk]

theorem exact_id (n : ℕ) (more : List Char) :
    exact 4 (littleEndian 4 n ++ more) = (some (littleEndian 4 n), more) :=
  exact_append (length_littleEndian _ _)

/-- A message that is an identifier, and is answered once. -/
theorem run_readId {k : ℕ → Prog Char σ} {n : ℕ} {more : List Char} :
    (readId s k).run (littleEndian 4 n ++ more) = (k (n % 256 ^ 4)).run more := by
  simp [readId, exact_id, value_littleEndian]

/-- A message that is an identifier is in step if its handler answers once, reading no more. -/
theorem inStep_id {t : MsgType} {k : ℕ → σ → ℕ → Prog Char σ} (n : ℕ)
    (hmessage : ∀ fd s, h.handleMessage fd ⟨4, t.code⟩ s = readId s (k fd s))
    (hk : ∀ (fd : ℕ) (s : σ) (id : ℕ) (more : List Char), ((k fd s id).run more).rest = more ∧
      ∃ r : Response, r.Answers t ∧ ((k fd s id).run more).written = r.bytes) :
    InStep h s (MsgHeader.bytes ⟨(littleEndian 4 n).length, t.code⟩ ++ littleEndian 4 n) := by
  refine inStep_frame (by simp) fun fd more => ?_
  rw [length_littleEndian, hmessage, run_readId]
  exact hk fd s _ more

theorem inStep_command (c : Command) (n : ℕ) : InStep h s (Request.frame print (.command c n)) := by
  have hframe : Request.frame print (.command c n) =
      MsgHeader.bytes ⟨(littleEndian 4 n).length, c.msg.code⟩ ++ littleEndian 4 n :=
    frame_writeRequest rfl
  rw [hframe]
  refine inStep_id (k := fun _ s id => do
    Prog.send (h.command c s id).2.bytes
    pure (h.command c s id).1) n (fun fd s => ?_) fun fd s id more => ?_
  · cases c <;> rfl
  · refine ⟨by simp, .result (h.command c s id).2, ?_, by simp [Response.bytes]⟩
    cases c <;> simp [Command.msg, Response.Answers]

theorem inStep_getDetails (n : ℕ) : InStep h s (Request.frame print (.getDetails n)) := by
  have hframe : Request.frame print (.getDetails n) =
      MsgHeader.bytes ⟨(littleEndian 4 n).length, MsgType.getDetails.code⟩ ++ littleEndian 4 n :=
    frame_writeRequest rfl
  have hsend (d : Option IpcDownloadDetails) (l : List Char) :
      (Handlers.sendDetails d).run l = ⟨(), (Response.details d).bytes, l⟩ := by
    cases d <;> simp [Handlers.sendDetails, Response.bytes]
  rw [hframe]
  refine inStep_frame (by simp) fun fd more => ?_
  have hmessage : h.handleMessage fd ⟨(littleEndian 4 n).length, MsgType.getDetails.code⟩ s =
      h.handleGetDetails s := rfl
  rw [hmessage, Handlers.handleGetDetails]
  simp only [Prog.run_bind, Prog.run_readExact, exact_id, hsend, Prog.run_pure, List.nil_append,
    List.append_nil]
  exact ⟨trivial, .details _, rfl, rfl⟩

theorem inStep_listAll {max : ℤ} (hmax : 0 < max) :
    InStep h s (Request.frame print (.listAll max)) := by
  have hframe : Request.frame print (.listAll max) =
      MsgHeader.bytes ⟨([] : List Char).length, MsgType.listAll.code⟩ ++ [] := by
    simp [Request.frame, Request.client, ipcSendListAll, hmax.not_ge, ignore, listAllHeader,
      exact_of_lt]
  rw [hframe]
  refine inStep_frame (by simp) fun fd more => ?_
  have hmessage : h.handleMessage fd ⟨([] : List Char).length, MsgType.listAll.code⟩ s =
      handleListAll h.ratio (h.store s) (h.tables s) >>= fun _ => pure s := rfl
  rw [hmessage]
  simp only [Prog.run_bind, run_handleListAll, Prog.run_pure, List.append_nil, List.nil_append]
  exact ⟨trivial, .rows _, rfl, rfl⟩

theorem inStep_reloadConfig : InStep h s (Request.frame print .reloadConfig) := by
  have hframe : Request.frame print .reloadConfig =
      MsgHeader.bytes ⟨([] : List Char).length, MsgType.reloadConfig.code⟩ ++ [] :=
    frame_writeRequest rfl
  rw [hframe]
  refine inStep_frame (by simp) fun fd more => ?_
  have hmessage : h.handleMessage fd ⟨([] : List Char).length, MsgType.reloadConfig.code⟩ s =
      h.handleReloadConfig s := rfl
  rw [hmessage]
  exact ⟨by simp [Handlers.handleReloadConfig], .result .ok, by simp [Response.Answers],
    by simp [Handlers.handleReloadConfig, Response.bytes]⟩

/-- A call that is refused writes nothing. -/
theorem not_valid_nil : validMessageHeader (frameHeader []) = false := rfl

/-- The browser's requests, unless their arguments are refused. -/
theorem inStep_browserOffer {o : IpcBrowserOffer}
    (hsent : Request.frame print (.browserOffer o) ≠ []) :
    InStep h s (Request.frame print (.browserOffer o)) := by
  simp only [Request.frame, Request.client, ipcBrowserOffer] at hsent ⊢
  split_ifs at hsent ⊢ with hempty
  · exact absurd rfl hsent
  · split at hsent
    · exact absurd rfl hsent
    · rename_i json hjson
      split_ifs at hsent ⊢ with hlong
      · exact absurd rfl hsent
      · rw [frame_writeRequest (by simp [readOffer, exact_of_lt])]
        rw [ipcMaxFrameSize] at hlong
        refine inStep_frame (by omega) fun fd more => ?_
        have hmessage : h.handleMessage fd ⟨json.length, MsgType.browserOffer.code⟩ s =
            h.handleBrowserOffer json.length s := rfl
        have hread : exact json.length (json ++ more) = (some json, more) := exact_append rfl
        rw [hmessage]
        exact ⟨by simp [Handlers.handleBrowserOffer, hread], .offer (h.offer s json).2,
          .inl rfl, by simp [Handlers.handleBrowserOffer, hread, Response.bytes]⟩

theorem inStep_browserGetOffer {n : ℕ} (hsent : Request.frame print (.browserGetOffer n) ≠ []) :
    InStep h s (Request.frame print (.browserGetOffer n)) := by
  simp only [Request.frame, Request.client, ipcBrowserGetOffer] at hsent ⊢
  split_ifs at hsent ⊢ with hzero
  · exact absurd rfl hsent
  · rw [frame_writeRequest (by simp [readOffer, exact_of_lt])]
    refine inStep_id (k := fun _ s id => do
      Prog.send (h.getOffer s id).2.bytes
      pure (h.getOffer s id).1) n (fun fd s => rfl) fun fd s id more => ?_
    exact ⟨by simp, .offer (h.getOffer s id).2, .inr rfl, by simp [Response.bytes]⟩

theorem inStep_browserConfirm {n : ℕ} {destPath : CString}
    (hsent : Request.frame print (.browserConfirm n destPath) ≠ []) :
    InStep h s (Request.frame print (.browserConfirm n destPath)) := by
  simp only [Request.frame, Request.client, ipcBrowserConfirm] at hsent ⊢
  split_ifs at hsent ⊢ with hrefused
  · exact absurd rfl hsent
  · rw [frame_writeRequest (by simp [exact_of_lt])]
    push Not at hrefused
    generalize hpayload : littleEndian 4 n ++ littleEndian 4 destPath.length ++ destPath = payload
    have hlength : payload.length = 8 + destPath.length := by
      simp [← hpayload]
      omega
    have hlt := hrefused.2.2
    rw [ipcMaxPathLen] at hlt
    refine inStep_frame (by omega) fun fd more => ?_
    have hmessage : h.handleMessage fd ⟨payload.length, MsgType.browserConfirm.code⟩ s =
        h.handleBrowserConfirm payload.length s := rfl
    have hread : exact payload.length (payload ++ more) = (some payload, more) := exact_append rfl
    rw [hmessage]
    exact ⟨by simp [Handlers.handleBrowserConfirm, hread],
      .id (h.confirm s (value (payload.take 4)) (value ((payload.drop 4).take 4))
        (payload.drop 8)).2, .inr rfl,
      by simp [Handlers.handleBrowserConfirm, hread, Response.bytes]⟩

theorem inStep_browserDismiss {n : ℕ} (hsent : Request.frame print (.browserDismiss n) ≠ []) :
    InStep h s (Request.frame print (.browserDismiss n)) := by
  simp only [Request.frame, Request.client, ipcBrowserDismiss] at hsent ⊢
  split_ifs at hsent ⊢ with hzero
  · exact absurd rfl hsent
  · rw [frame_writeRequest (by simp [readResult, exact_of_lt])]
    refine inStep_id (k := fun _ s id => do
      Prog.send (h.dismiss s id).2.bytes
      pure (h.dismiss s id).1) n (fun fd s => rfl) fun fd s id more => ?_
    exact ⟨by simp, .result (h.dismiss s id).2, by simp [Response.Answers],
      by simp [Response.bytes]⟩

theorem inStep_browserSubscribeProgress {n : ℕ}
    (hsent : Request.frame print (.browserSubscribeProgress n) ≠ []) :
    InStep h s (Request.frame print (.browserSubscribeProgress n)) := by
  simp only [Request.frame, Request.client, ipcBrowserSubscribeProgress] at hsent ⊢
  split_ifs at hsent ⊢ with hzero
  · exact absurd rfl hsent
  · rw [frame_writeRequest (by simp)]
    refine inStep_id (k := fun fd s id => do
      let event := browserProgressSnapshot h.ratio (h.store s) id []
      Prog.send event.bytes
      pure (if event.status ≠ "NOT_FOUND".toList then h.watch s fd id else s)) n
        (fun fd s => rfl) fun fd s id more => ?_
    simp only [Prog.run_bind, Prog.run_send, Prog.run_pure, List.append_nil]
    exact ⟨trivial, .progress _, rfl, rfl⟩

/-! ## Adding a download -/

variable {url destPath : CString} {options : Option IpcDownloadOptions}

theorem frame_addDownload (print : JsonPrinter) (url destPath : CString)
    (options : Option IpcDownloadOptions) :
    Request.frame print (.addDownload url destPath options) =
      MsgHeader.bytes ⟨(12 + url.length + destPath.length + (optionsJson print options).length) % 2 ^ 32,
        MsgType.addDownload.code⟩ ++
      (stringBytes url ++ (stringBytes destPath ++ stringBytes (optionsJson print options))) := by
  simp [Request.frame, Request.client, ipcSendAddDownload, ignore, exact_of_lt]

/-- An add whose strings fit is reserved, and answered. -/
theorem run_addDownload {json : CString} {more : List Char} (hurl : url.length < 2048)
    (hdest : destPath.length < 1024) (hjson : json.length < 8192) :
    (h.handleAddDownload s).run
        (stringBytes url ++ (stringBytes destPath ++ stringBytes json) ++ more) =
      ⟨(h.reserve s url destPath (addOptions h.parseOptions json)).1,
        littleEndian 4 (h.reserve s url destPath (addOptions h.parseOptions json)).2, more⟩ := by
  simp only [List.append_assoc]
  have h1 (l : List Char) : (readString ipcMaxUrlLen).run (stringBytes url ++ l) = ⟨some url, [], l⟩ :=
    readString_run hurl (by omega)
  have h2 (l : List Char) : (readString ipcMaxPathLen).run (stringBytes destPath ++ l) =
      ⟨some destPath, [], l⟩ := readString_run hdest (by omega)
  have h3 (l : List Char) : (readString 8192).run (stringBytes json ++ l) = ⟨some json, [], l⟩ :=
    readString_run hjson (by omega)
  simp [Handlers.handleAddDownload, h1, h2, h3]

/-- An add with a string that does not fit is not answered. -/
theorem written_addDownload {json : CString} {more : List Char} (hurl : url.length < 256 ^ 4)
    (hdest : destPath.length < 256 ^ 4) (hjson : json.length < 256 ^ 4)
    (hlong : ¬(url.length < 2048 ∧ destPath.length < 1024 ∧ json.length < 8192)) :
    ((h.handleAddDownload s).run
      (stringBytes url ++ (stringBytes destPath ++ stringBytes json) ++ more)).written = [] := by
  simp only [List.append_assoc]
  rw [Handlers.handleAddDownload, Prog.run_bind]
  by_cases h1 : url.length < 2048
  · -- The URL is read; the path or the options are too long.
    have hread (l : List Char) : (readString ipcMaxUrlLen).run (stringBytes url ++ l) =
        ⟨some url, [], l⟩ := readString_run h1 hurl
    by_cases h2 : destPath.length < 1024
    · have hread' (l : List Char) : (readString ipcMaxPathLen).run (stringBytes destPath ++ l) =
          ⟨some destPath, [], l⟩ := readString_run h2 hdest
      have hread'' : (readString 8192).run (stringBytes json ++ more) = ⟨none, [], more⟩ :=
        readString_run_of_le (by decide) (by omega) hjson
      simp [hread, hread', hread'']
    · have hread' (l : List Char) : (readString ipcMaxPathLen).run (stringBytes destPath ++ l) =
          ⟨none, [], l⟩ := readString_run_of_le (by decide) (not_lt.1 h2) hdest
      simp [hread, hread']
  · have hread (l : List Char) : (readString ipcMaxUrlLen).run (stringBytes url ++ l) =
        ⟨none, [], l⟩ := readString_run_of_le (by decide) (not_lt.1 h1) hurl
    simp [hread]

theorem Response.bytes_ne_nil {r : Response} (h : r.Answers .addDownload) : r.bytes ≠ [] := by
  cases r with
  | id n => exact List.ne_nil_of_length_pos (by simp [bytes])
  | result r => simp [Answers] at h
  | offer o => simp [Answers] at h
  | progress p => simp [Answers] at h
  | rows l => simp [Answers] at h
  | details d => simp [Answers] at h

theorem inStep_addDownload :
    InStep h s (Request.frame print (.addDownload url destPath options)) ↔
      Request.Fits print (.addDownload url destPath options) := by
  rw [Request.Fits, frame_addDownload]
  generalize optionsJson print options = json
  generalize hn : (12 + url.length + destPath.length + json.length) % 2 ^ 32 = n
  generalize hpayload : stringBytes url ++ (stringBytes destPath ++ stringBytes json) = payload at *
  have hlength : payload.length = 12 + url.length + destPath.length + json.length := by
    simp only [← hpayload, stringBytes, List.length_append, length_littleEndian]
    omega
  obtain ⟨hheader, hdrop⟩ := frame_split ⟨n, MsgType.addDownload.code⟩ payload (by simp only; omega)
    MsgType.addDownload.code_lt
  have hmessage (fd : ℕ) : h.handleMessage fd ⟨n, MsgType.addDownload.code⟩ s =
      h.handleAddDownload s := rfl
  rw [InStep, hheader, hdrop]
  constructor
  · rintro ⟨heq, hrun⟩
    -- The payload is as long as the header says, so that no length has come round.
    have hlt : payload.length < 2 ^ 32 := by
      rw [heq, ← hn]
      exact Nat.mod_lt _ (by decide)
    obtain ⟨-, r, t, ht, hr, hwritten⟩ := hrun 0 []
    cases ht
    by_contra hlong
    rw [hmessage, ← hpayload, written_addDownload (by omega) (by omega) (by omega) hlong] at hwritten
    exact r.bytes_ne_nil hr hwritten.symm
  · rintro ⟨hurl, hdest, hjson⟩
    refine ⟨by simp only [hlength, ← hn]; omega, fun fd more => ?_⟩
    rw [hmessage, ← hpayload, run_addDownload hurl hdest hjson]
    exact ⟨rfl, .id _, .addDownload, rfl, .inl rfl, rfl⟩

/-- A request that the daemon accepts stays in step exactly if its strings fit the arrays
    of the daemon; only an add has strings that may not. -/
theorem inStep_iff (h : Handlers σ) (s : σ) (print : JsonPrinter) (r : Request)
    (hvalid : validMessageHeader (frameHeader (r.frame print)) = true) :
    InStep h s (r.frame print) ↔ r.Fits print := by
  have hsent : r.frame print ≠ [] := by
    intro hnil
    rw [hnil, not_valid_nil] at hvalid
    exact absurd hvalid (by decide)
  cases r with
  | addDownload url destPath options => exact inStep_addDownload
  | command c id => exact iff_of_true (inStep_command c id) trivial
  | listAll max =>
    refine iff_of_true (inStep_listAll ?_) trivial
    by_contra hmax
    exact hsent (by simp [Request.frame, Request.client, ipcSendListAll, not_lt.1 hmax, ignore])
  | getDetails id => exact iff_of_true (inStep_getDetails id) trivial
  | reloadConfig => exact iff_of_true inStep_reloadConfig trivial
  | browserOffer o => exact iff_of_true (inStep_browserOffer hsent) trivial
  | browserGetOffer id => exact iff_of_true (inStep_browserGetOffer hsent) trivial
  | browserConfirm id destPath => exact iff_of_true (inStep_browserConfirm hsent) trivial
  | browserDismiss id => exact iff_of_true (inStep_browserDismiss hsent) trivial
  | browserSubscribeProgress id =>
    exact iff_of_true (inStep_browserSubscribeProgress hsent) trivial

end

/-- An add whose strings fit stays in step. -/
theorem inStep_iff_add :
    let r := Request.addDownload "http://h/f".toList "/d".toList none
    validMessageHeader (frameHeader (r.frame fun _ => none)) = true ∧ r.Fits (fun _ => none) ∧
      InStep ServerEnv.bare.handlers (.start .bare) (r.frame fun _ => none) := by
  intro r
  have hvalid : validMessageHeader (frameHeader (r.frame fun _ => none)) = true := by decide +kernel
  have hfits : r.Fits fun _ => none := ⟨by decide, by decide, by decide⟩
  exact ⟨hvalid, hfits, (inStep_iff _ _ _ r hvalid).2 hfits⟩

/-- An add with a URL of 2048 bytes is accepted, and does not stay in step. -/
theorem not_inStep_longUrl : ¬ ∀ r : Request,
    validMessageHeader (frameHeader (r.frame fun _ => none)) = true →
      InStep ServerEnv.bare.handlers (.start .bare) (r.frame fun _ => none) := by
  intro h
  have hfits := inStep_addDownload.1 (h (.addDownload (List.replicate 2048 'a') "/d".toList none)
    (by decide +kernel))
  have hlt := hfits.1
  rw [List.length_replicate] at hlt
  exact absurd hlt (lt_irrefl _)

end Cdm
