import Cdm.Platform.ListAll

/-!
# The messages

`handle_message` of `platform/ipc_socket.c`: the daemon reads the payload of a message whose
header it has accepted, acts on it, and answers. It is a program on the connection, over the
state of the daemon.

What the daemon does on a message is a parameter (`Handlers`), of which only the queue and
the tables, that two of the messages read, are given; so is the parser of the options
of an add.
-/

namespace Cdm

open Wire

/-! ## Answers -/

def IpcResult.code : IpcResult → ℕ
  | .ok => 0
  | .notFound => 1
  | .rejected => 2

/-- A result, in a byte. -/
def IpcResult.bytes (r : IpcResult) : List Char := [Char.ofNat r.code]

/-- The progress of a download, for the browser. -/
structure IpcBrowserProgress where
  downloadId : ℕ
  bytesReceived : ℕ
  totalBytes : ℕ
  /-- The bits of a `float`. -/
  progress : BitVec 32
  status : CString
  error : CString
  destPath : CString

/-- An array of `size` bytes that holds a text. -/
def arrayBytes (size : ℕ) (text : CString) : List Char :=
  (text ++ List.replicate size (Char.ofNat 0)).take size

def BrowserState.code : BrowserState → ℕ
  | .waiting => 0
  | .confirmed => 1
  | .dismissed => 2

/-- An offer as it lies in memory, with four bytes of padding at the end. -/
def IpcBrowserOffer.bytes (o : IpcBrowserOffer) : List Char :=
  littleEndian 4 o.offerId ++ littleEndian 4 o.downloadId ++ littleEndian 8 o.totalBytes ++
    littleEndian 4 o.state.code ++ arrayBytes ipcBrowserRequestIdMax o.requestId ++
    arrayBytes ipcMaxUrlLen o.url ++ arrayBytes ipcBrowserFilenameMax o.filename ++
    arrayBytes ipcBrowserMimeMax o.mime ++ arrayBytes ipcMaxUrlLen o.referrer ++ littleEndian 4 0

/-- A progress as it lies in memory, with padding after the identifier and at the end. -/
def IpcBrowserProgress.bytes (p : IpcBrowserProgress) : List Char :=
  littleEndian 4 p.downloadId ++ littleEndian 4 0 ++ littleEndian 8 p.bytesReceived ++
    littleEndian 8 p.totalBytes ++ littleEndian 4 p.progress.toNat ++ arrayBytes 24 p.status ++
    arrayBytes 256 p.error ++ arrayBytes ipcMaxPathLen p.destPath ++ littleEndian 4 0

/-- The progress of a download; the status says so if there is no such download. -/
def browserProgressSnapshot (ratio : ℕ → ℕ → BitVec 32) (s : Store) (id : ℕ) (error : CString) :
    IpcBrowserProgress :=
  match queueManagerGetRuntimeSnapshot s id with
  | none => ⟨id, 0, 0, 0, "NOT_FOUND".toList, [], []⟩
  | some x =>
    { downloadId := id
      bytesReceived :=
        match x.status with
        | .active => x.bytesDownloaded
        -- The chunks of a download that is done have been deleted.
        | .done => if x.totalSize ≠ 0 then x.totalSize else x.bytesDownloaded
        | _ => (x.chunks.map (·.bytesDone)).sum
      totalBytes := x.totalSize
      progress := if x.status = .done then oneFloat else snapshotProgress ratio x
      status := (statusToString x.status).toList
      error := error
      destPath := x.destPath }

/-! ## The options of an add -/

/-- A value in the options. -/
inductive OptionValue
  | string (text : CString)
  /-- A number: its integer part, `0` if it is not positive. -/
  | number (bps : ℕ)
  | other

/-- The value of a key, if the options have one. -/
abbrev OptionsRoot := String → Option OptionValue

/-- The text of a key, copied into an array of `size` bytes. -/
def optionText (root : OptionsRoot) (key : String) (size : ℕ) : CString :=
  match root key with
  | some (.string text) => strncpy size text
  | _ => []

def optionNumber (root : OptionsRoot) (key : String) : ℕ :=
  match root key with
  | some (.number bps) => bps
  | _ => 0

/-- The options of a request, none of them set if there is nothing to parse. -/
def addOptions (parse : CString → Option OptionsRoot) (json : CString) : RequestOptions :=
  if json = [] then noOptions
  else
    match parse json with
    | none => noOptions
    | some root =>
      { cookie := optionText root "cookie" 1024
        referrer := optionText root "referrer" 2048
        extraHeaders := optionText root "extra_headers" 4096
        expectedSha256 := optionText root "expected_sha256" 65
        speedLimitBps := optionNumber root "speed_limit_bps" }

/-! ## Messages -/

/-- What the daemon does on the messages; `fd` is the connection of the client. -/
structure Handlers (σ : Type) where
  store : σ → Store
  tables : σ → Sqlite
  ratio : ℕ → ℕ → BitVec 32
  parseOptions : CString → Option OptionsRoot
  reserve : σ → (url dest : CString) → RequestOptions → σ × ℕ
  offer : σ → (json : CString) → σ × IpcBrowserOffer
  getOffer : σ → (id : ℕ) → σ × IpcBrowserOffer
  confirm : σ → (offerId pathLen : ℕ) → (path : CString) → σ × ℕ
  dismiss : σ → (id : ℕ) → σ × IpcResult
  command : Command → σ → (id : ℕ) → σ × IpcResult
  reload : σ → σ
  subscribe : σ → (fd : ℕ) → σ
  watch : σ → (fd id : ℕ) → σ
  /-- What a variable holds that a failed read has left as it was. -/
  unset : ℕ

variable {σ : Type}

/-- Reading an identifier; the message is dropped if that fails. -/
def readId (s : σ) (k : ℕ → Prog Char σ) : Prog Char σ := do
  match ← Prog.readExact 4 with
  | none => pure s
  | some l => k (value l)

namespace Handlers

variable (h : Handlers σ)

def handleAddDownload (s : σ) : Prog Char σ := do
  match ← readString ipcMaxUrlLen with
  -- The handler returns, and what is left of the request stays on the connection.
  | none => pure s
  | some url =>
    match ← readString ipcMaxPathLen with
    | none => pure s
    | some dest =>
      match ← readString 8192 with
      | none => pure s
      | some json => do
        let (s, id) := h.reserve s url dest (addOptions h.parseOptions json)
        Prog.send (littleEndian 4 id)
        pure s

def handleBrowserOffer (length : ℕ) (s : σ) : Prog Char σ := do
  match ← Prog.readExact length with
  | none => pure s
  | some json =>
    let (s, o) := h.offer s json
    Prog.send o.bytes
    pure s

def handleBrowserGetOffer (s : σ) : Prog Char σ :=
  readId s fun id => do
    let (s, o) := h.getOffer s id
    Prog.send o.bytes
    pure s

/-- An identifier, the length of a path, and the path. -/
def handleBrowserConfirm (length : ℕ) (s : σ) : Prog Char σ := do
  match ← Prog.readExact length with
  | none => pure s
  | some payload =>
    let (s, id) := h.confirm s (value (payload.take 4)) (value ((payload.drop 4).take 4))
      (payload.drop 8)
    Prog.send (littleEndian 4 id)
    pure s

def handleBrowserDismiss (s : σ) : Prog Char σ :=
  readId s fun id => do
    let (s, r) := h.dismiss s id
    Prog.send r.bytes
    pure s

/-- The client is told of the progress of a download from now on, if there is one. -/
def handleBrowserSubscribeProgress (fd : ℕ) (s : σ) : Prog Char σ :=
  readId s fun id => do
    let event := browserProgressSnapshot h.ratio (h.store s) id []
    Prog.send event.bytes
    pure (if event.status ≠ "NOT_FOUND".toList then h.watch s fd id else s)

def handleReloadConfig (s : σ) : Prog Char σ := do
  Prog.send IpcResult.ok.bytes
  pure (h.reload s)

def handleCommand (c : Command) (s : σ) : Prog Char σ :=
  readId s fun id => do
    let (s, r) := h.command c s id
    Prog.send r.bytes
    pure s

def handleList (s : σ) : Prog Char σ := do
  Prog.send (littleEndian 4 (queueManagerCountByStatus (h.store s) .active +
    queueManagerCountByStatus (h.store s) .queued))
  pure s

/-- The details of a download, if there is one. -/
def sendDetails : Option IpcDownloadDetails → Prog Char Unit
  | none => Prog.send [Char.ofNat 0]
  | some d => do
    Prog.send [Char.ofNat 1]
    writeString d.cookie
    writeString d.referrer
    writeString d.extraHeaders
    writeString d.expectedSha256
    Prog.send (littleEndian 8 d.speedLimitBps)

/-- The message is answered even if its identifier could not be read. -/
def handleGetDetails (s : σ) : Prog Char σ := do
  let l ← Prog.readExact 4
  sendDetails ((h.tables s).dbGetDownloadDetails ((l.map value).getD h.unset))
  pure s

def handleMessage (fd : ℕ) (hdr : MsgHeader) (s : σ) : Prog Char σ :=
  match MsgType.ofCode hdr.type with
  | some .addDownload => h.handleAddDownload s
  | some .browserOffer => h.handleBrowserOffer hdr.length s
  | some .browserGetOffer => h.handleBrowserGetOffer s
  | some .browserConfirm => h.handleBrowserConfirm hdr.length s
  | some .browserDismiss => h.handleBrowserDismiss s
  | some .browserSubscribeProgress => h.handleBrowserSubscribeProgress fd s
  | some .reloadConfig => h.handleReloadConfig s
  | some .pause => h.handleCommand .pause s
  | some .resume => h.handleCommand .resume s
  | some .cancel => h.handleCommand .cancel s
  | some .list => h.handleList s
  | some .listAll => do
    handleListAll h.ratio (h.store s) (h.tables s)
    pure s
  | some .getDetails => h.handleGetDetails s
  | some .subscribe => pure (h.subscribe s fd)
  | some .statusEvent | some .progressEvent | some .browserProgressEvent | none => pure s

end Handlers

end Cdm
