import Cdm.Platform.AddRequest
import Cdm.Vendor.CJson

/-!
# The JSON of the requests

The options of an add and the offers of the browser are objects that cJSON prints and parses:
what the clients of `platform/ipc_socket.c` put into them, and what `handle_message` and
`browser_parse_offer` take out. Of the numbers it is assumed that the C library keeps every
digit of a whole number of at most fifteen digits (`JsonNumbers.Exact`).

An add that is answered with an identifier leaves an entry with the options that were given,
each cut to its array, or with none if they are too long to be printed (`addDownload_cut`). An
offer that is answered is registered with the texts of the client, or was before
(`browserOffer_registered`).
-/

namespace Cdm

open Wire

/-- What the messages make of a number. -/
structure JsonNumbers (δ : Type) extends Doubles δ where
  /-- The conversion to `uint64_t`, `0` if the number is not positive. -/
  toUint64 : δ → ℕ
  /-- The number is neither negative nor above `2 ^ 53 - 1`. -/
  inRange : δ → Bool

section

variable {δ : Type} [DecidableEq δ] (N : JsonNumbers δ)

/-! ## What is put into an object -/

def JsonItem.json : JsonItem → CJson δ
  | .string text => .string text
  | .number n => .number (N.ofInt n)

def itemsObject : List (String × JsonItem) → CJsonItems δ
  | [] => .nil
  | (key, item) :: items => .cons key.toList (item.json N) (itemsObject items)

def printItems : JsonPrinter := fun items =>
  cJsonPrintUnformatted N.toDoubles (.object (itemsObject N items))

/-- The options, unless they are too long to be printed. -/
def printedOptions (options : Option IpcDownloadOptions) : Option IpcDownloadOptions :=
  options.filter fun o => (printItems N o.items).isSome

/-! ## What is taken out -/

/-- The bytes of a message, up to the first null byte. -/
def parseMessage (json : CString) : Option (CJson δ) :=
  cJsonParse N.toDoubles (json.takeWhile (· ≠ Char.ofNat 0))

def optionValue : CJson δ → OptionValue
  | .string text => .string text
  | .number d => .number (N.toUint64 d)
  | _ => .other

def parseOptionsJson (json : CString) : Option OptionsRoot :=
  (parseMessage N json).map fun root key => (root.getObjectItem key.toList).map (optionValue N)

def jsonValue : CJson δ → JsonValue
  | .string text => .string text
  | .number d => .number (if N.inRange d then some (N.toUint64 d) else none)
  | _ => .other

def parseOfferJson (json : CString) : Option JsonRoot :=
  (parseMessage N json).map fun root key => (root.getObjectItem key.toList).map (jsonValue N)

/-! ## Numbers -/

/-- Every digit is kept of a whole number with at most fifteen. -/
structure JsonNumbers.Exact : Prop where
  isFinite {n : ℕ} (h : n < 10 ^ 15) : N.isFinite (N.ofInt n) = true
  injective {m n : ℕ} (hm : m < 10 ^ 15) (hn : n < 10 ^ 15) (h : N.ofInt m = N.ofInt n) : m = n
  toInt {n : ℕ} (h : n < 10 ^ 15) : N.toInt (N.ofInt n) = (min n (2 ^ 31 - 1) : ℕ)
  format {n : ℕ} (h : n < 10 ^ 15) : N.format (N.ofInt n) = Toml.decimal n
  strtod {n : ℕ} (h : n < 10 ^ 15) :
    N.strtod (Toml.decimal n) = some (N.ofInt n, (Toml.decimal n).length)
  toUint64 {n : ℕ} (h : n < 10 ^ 15) : N.toUint64 (N.ofInt n) = n
  inRange {n : ℕ} (h : n < 10 ^ 15) : N.inRange (N.ofInt n) = true

variable {N}

theorem printNumber_ofInt (hN : N.Exact) {n : ℕ} (hn : n < 10 ^ 15) :
    printNumber N.toDoubles (N.ofInt n) = Toml.decimal n := by
  rw [printNumber, if_neg (by rw [hN.isFinite hn]; decide), hN.toInt hn]
  split_ifs with h
  · have hmin := hN.injective hn (by omega) h
    rw [← hmin]
  · exact hN.format hn

/-! ## Objects -/

/-- The texts have no null byte, and the numbers at most fifteen digits. -/
def JsonItem.Plain : JsonItem → Prop
  | .string text => Char.ofNat 0 ∉ text
  | .number n => n < 10 ^ 15

theorem readable_itemsObject (hN : N.Exact) {items : List (String × JsonItem)}
    (h : ∀ x ∈ items, Char.ofNat 0 ∉ x.1.toList ∧ x.2.Plain) :
    (itemsObject N items).Readable N.toDoubles true := by
  induction items with
  | nil =>
    rw [itemsObject, CJsonItems.Readable]
    trivial
  | cons x items ih =>
    obtain ⟨key, item⟩ := x
    obtain ⟨hkey, hitem⟩ := h (key, item) List.mem_cons_self
    rw [itemsObject, CJsonItems.Readable]
    refine ⟨hkey, ?_, ih fun x hx => h x (List.mem_cons_of_mem _ hx)⟩
    cases item with
    | string text => rwa [JsonItem.json, CJson.Readable]
    | number n =>
      rw [JsonItem.json, CJson.Readable]
      exact Doubles.reads_decimal (printNumber_ofInt hN hitem) (hN.strtod hitem)

omit [DecidableEq δ] in
theorem depth_itemsObject (items : List (String × JsonItem)) : (itemsObject N items).depth = 0 := by
  induction items with
  | nil => rfl
  | cons x items ih =>
    obtain ⟨key, item⟩ := x
    rw [itemsObject, CJsonItems.depth, ih]
    cases item <;> rfl

omit [DecidableEq δ] in
theorem find_itemsObject (items : List (String × JsonItem)) (key : String) :
    (itemsObject N items).find key.toList =
      (items.find? (·.1 = key)).map fun x => x.2.json N := by
  induction items with
  | nil => rfl
  | cons x items ih =>
    obtain ⟨key', item⟩ := x
    rw [itemsObject, CJsonItems.find, List.find?_cons]
    by_cases hkey : key' = key
    · rw [if_pos (by rw [hkey]), decide_eq_true hkey]
      rfl
    · rw [if_neg fun h => hkey (String.toList_inj.mp h), decide_eq_false hkey, ih]

theorem printItems_eq {items : List (String × JsonItem)} {text : CString}
    (h : printItems N items = some text) :
    text = (CJson.object (itemsObject N items)).print N.toDoubles ∧ text.length < 2 ^ 31 := by
  rw [printItems, cJsonPrintUnformatted] at h
  split_ifs at h with hlength
  cases h
  exact ⟨rfl, by omega⟩

/-- An object is parsed as it was printed. -/
theorem parseMessage_printItems (hN : N.Exact) {items : List (String × JsonItem)}
    (h : ∀ x ∈ items, Char.ofNat 0 ∉ x.1.toList ∧ x.2.Plain) {text : CString}
    (htext : printItems N items = some text) :
    parseMessage N text = some (.object (itemsObject N items)) := by
  rw [(printItems_eq htext).1]
  have hreadable : (CJson.object (itemsObject N items)).Readable N.toDoubles := by
    rw [CJson.Readable]
    exact readable_itemsObject hN h
  have hnull := null_notMem_print _ hreadable
  have htake : ((CJson.object (itemsObject N items)).print N.toDoubles).takeWhile
      (· ≠ Char.ofNat 0) = (CJson.object (itemsObject N items)).print N.toDoubles :=
    List.takeWhile_eq_self_iff.mpr fun c hc => decide_eq_true fun hzero => hnull (hzero ▸ hc)
  rw [parseMessage, htake]
  refine cJsonParse_print _ hreadable ?_
  rw [CJson.depth, depth_itemsObject]
  decide

theorem parseOptionsJson_printItems (hN : N.Exact) {items : List (String × JsonItem)}
    (h : ∀ x ∈ items, Char.ofNat 0 ∉ x.1.toList ∧ x.2.Plain) {text : CString}
    (htext : printItems N items = some text) :
    parseOptionsJson N text = some (itemsRoot items) := by
  rw [parseOptionsJson, parseMessage_printItems hN h htext, Option.map_some]
  congr 1
  funext key
  rw [CJson.getObjectItem, find_itemsObject, itemsRoot, Option.map_map]
  cases hfind : items.find? (·.1 = key) with
  | none => rfl
  | some x =>
    obtain ⟨key', item⟩ := x
    have hplain := (h _ (List.mem_of_find?_eq_some hfind)).2
    cases item with
    | string text => rfl
    | number n => simp [JsonItem.json, optionValue, JsonItem.value, hN.toUint64 hplain]

/-! ## The options of an add -/

/-- The options as the arrays of the daemon hold them. -/
def RequestOptions.cut (o : RequestOptions) : RequestOptions where
  cookie := strncpy 1024 o.cookie
  referrer := strncpy 2048 o.referrer
  extraHeaders := strncpy 4096 o.extraHeaders
  expectedSha256 := strncpy 65 o.expectedSha256
  speedLimitBps := o.speedLimitBps

/-- The texts have no null byte, and the speed has at most fifteen digits. -/
structure IpcDownloadOptions.Plain (o : IpcDownloadOptions) : Prop where
  cookie : Char.ofNat 0 ∉ o.cookie.getD []
  referrer : Char.ofNat 0 ∉ o.referrer.getD []
  extraHeaders : Char.ofNat 0 ∉ o.extraHeaders.getD []
  expectedSha256 : Char.ofNat 0 ∉ o.expectedSha256.getD []
  speedLimitBps : o.speedLimitBps < 10 ^ 15

theorem IpcDownloadOptions.Plain.items {o : IpcDownloadOptions} (h : o.Plain) :
    ∀ x ∈ o.items, Char.ofNat 0 ∉ x.1.toList ∧ x.2.Plain := by
  have htext {key : String} {text : Option CString} (hkey : Char.ofNat 0 ∉ key.toList)
      (htext : Char.ofNat 0 ∉ text.getD []) :
      ∀ x ∈ textItem key text, Char.ofNat 0 ∉ x.1.toList ∧ x.2.Plain := by
    rcases text with _ | _ | ⟨c, text⟩
    · simp [textItem]
    · simp [textItem]
    · intro x hx
      rw [textItem, List.mem_singleton] at hx
      subst hx
      exact ⟨hkey, htext⟩
  intro x hx
  simp only [IpcDownloadOptions.items, List.mem_append] at hx
  rcases hx with (((hx | hx) | hx) | hx) | hx
  · exact htext (by decide) h.cookie x hx
  · exact htext (by decide) h.referrer x hx
  · exact htext (by decide) h.extraHeaders x hx
  · exact htext (by decide) h.expectedSha256 x hx
  · split_ifs at hx
    · rw [List.mem_singleton] at hx
      subst hx
      exact ⟨show Char.ofNat 0 ∉ "speed_limit_bps".toList by decide, h.speedLimitBps⟩
    · cases hx

/-- What the daemon takes out of the options is what the client has put into them, each text
    cut to its array. -/
theorem addOptions_printItems (hN : N.Exact) {options : Option IpcDownloadOptions}
    (hoptions : ∀ o ∈ options, o.Plain) :
    addOptions (parseOptionsJson N) (optionsJson (printItems N) options) =
      (givenOptions (printedOptions N options)).cut := by
  cases options with
  | none => rfl
  | some o =>
    cases hprint : printItems N o.items with
    | none =>
      have hnone : printedOptions N (some o) = none := by
        rw [printedOptions, Option.filter_some_neg (by rw [hprint]; decide)]
      rw [optionsJson, hprint, hnone]
      rfl
    | some text =>
      have hsome : printedOptions N (some o) = some o := by
        rw [printedOptions, Option.filter_some_pos (by rw [hprint]; rfl)]
      have hne : text ≠ [] := by
        rw [(printItems_eq hprint).1, CJson.print]
        exact List.cons_ne_nil _ _
      rw [optionsJson, hprint, Option.getD_some, addOptions, if_neg hne,
        parseOptionsJson_printItems hN (hoptions o rfl).items hprint, hsome]
      simp only [(options_items o 1024).1, (options_items o 2048).2.1, (options_items o 4096).2.2.1,
        (options_items o 65).2.2.2.1, (options_items o 0).2.2.2.2]
      rfl

theorem length_optionsJson_lt (options : Option IpcDownloadOptions) :
    (optionsJson (printItems N) options).length < 256 ^ 4 := by
  cases options with
  | none => exact Nat.pow_pos (by decide)
  | some o =>
    cases hprint : printItems N o.items with
    | none =>
      rw [optionsJson, hprint]
      exact Nat.pow_pos (by decide)
    | some text =>
      have hlength := (printItems_eq hprint).2
      rw [optionsJson, hprint, Option.getD_some]
      omega

/-- Whatever the daemon knows, an add that is answered with an identifier has left an entry
    with the options of the client that can be printed, each text cut to its array. The
    identifiers have not come round, and there is no file with an empty path. -/
theorem addDownload_cut (hN : N.Exact) {env : ServerEnv} {s s' : Server} {fd id : ℕ}
    {url destPath : CString} {options : Option IpcDownloadOptions}
    (henv : env.parseOptions = parseOptionsJson N) (hurl : Char.ofNat 0 ∉ url)
    (hdest : Char.ofNat 0 ∉ destPath) (hoptions : ∀ o ∈ options, o.Plain)
    (hnext : 0 < s.store.nextId)
    (hempty : s.store.files [] = none) (hbound : s'.store.nextId ≤ 2 ^ 32)
    (hadd : addDownload env (printItems N) s fd url destPath options = (s', id)) (hid : id ≠ 0) :
    ∃ d, s'.store.get id = some d ∧ d.url = url ∧
      d.request.getD noOptions = (givenOptions (printedOptions N options)).cut ∧
      (d.destPath = destPath ∨ ∃ n, d.destPath = numberedPath destPath n) := by
  have hrefused : ¬AddRefused (printItems N) url destPath options := by
    intro hrefused
    have hzero : (addDownload env (printItems N) s fd url destPath options).2 = 0 :=
      addDownload_refused hurl hdest hempty hrefused
    rw [hadd] at hzero
    exact hid hzero
  simp only [AddRefused, not_or, not_le] at hrefused
  obtain ⟨h1, -, h3, h4⟩ := hrefused
  have hmod : (optionsJson (printItems N) options).length % 256 ^ 4 =
      (optionsJson (printItems N) options).length := Nat.mod_eq_of_lt (length_optionsJson_lt options)
  rw [addDownload_accepted h1 (by omega) h4, henv, hmod, List.take_length,
    addOptions_printItems hN hoptions] at hadd
  generalize hr : env.reserve s url destPath (givenOptions (printedOptions N options)).cut = r at hadd
  obtain ⟨t, id'⟩ := r
  obtain ⟨rfl, rfl⟩ := Prod.mk.inj hadd
  have hid' : id' ≠ 0 := fun h => hid (by rw [h]; rfl)
  obtain ⟨hlt, path, hpath, hget⟩ := get_reserve hnext hr hid'
  have hmod' : id' % 256 ^ 4 = id' := Nat.mod_eq_of_lt (by simp only at hbound; omega)
  rw [hmod']
  refine ⟨_, hget, rfl, request_newDownload id' url path _, ?_⟩
  rcases chosenPath_cases (by rw [intMax]; omega) hpath with ⟨rfl, -⟩ | ⟨n, rfl, -, -⟩
  · exact .inl rfl
  · exact .inr ⟨n, rfl⟩

/-! ## The offers of the browser -/

/-- The name an offer is registered with. -/
def IpcBrowserOffer.name (o : IpcBrowserOffer) : CString :=
  if o.filename = [] then pathFilenameFromUrl o.url ipcBrowserFilenameMax else o.filename

/-- The texts are strings in the arrays of the client, and the size has at most fifteen digits. -/
structure IpcBrowserOffer.Plain (o : IpcBrowserOffer) : Prop where
  noNull : ∀ text ∈ [o.requestId, o.url, o.filename, o.mime, o.referrer], Char.ofNat 0 ∉ text
  requestId : o.requestId.length < ipcBrowserRequestIdMax
  url : o.url.length < ipcMaxUrlLen
  filename : o.filename.length < ipcBrowserFilenameMax
  mime : o.mime.length < ipcBrowserMimeMax
  referrer : o.referrer.length < ipcMaxUrlLen
  totalBytes : o.totalBytes < 10 ^ 15

theorem IpcBrowserOffer.Plain.items {o : IpcBrowserOffer} (h : o.Plain) :
    ∀ x ∈ o.items, Char.ofNat 0 ∉ x.1.toList ∧ x.2.Plain := by
  have hnull := h.noNull
  simp only [List.forall_mem_cons, List.not_mem_nil, false_implies, implies_true, and_true] at hnull
  obtain ⟨h1, h2, h3, h4, h5⟩ := hnull
  simp only [IpcBrowserOffer.items, List.forall_mem_cons, List.not_mem_nil, false_implies,
    implies_true, and_true]
  exact ⟨⟨by decide, h1⟩, ⟨by decide, h2⟩, ⟨by decide, h3⟩, ⟨by decide, h4⟩, ⟨by decide, h5⟩,
    by decide, h.totalBytes⟩

/-- What `browser_parse_offer` finds in an offer. -/
def IpcBrowserOffer.root (o : IpcBrowserOffer) : JsonRoot := fun key =>
  (o.items.find? (·.1 = key)).map fun x =>
    match x.2 with
    | .string text => .string text
    | .number n => .number (some n)

theorem parseOfferJson_printItems (hN : N.Exact) {o : IpcBrowserOffer} (h : o.Plain)
    {text : CString} (htext : printItems N o.items = some text) :
    parseOfferJson N text = some o.root := by
  rw [parseOfferJson, parseMessage_printItems hN h.items htext, Option.map_some]
  congr 1
  funext key
  rw [CJson.getObjectItem, find_itemsObject, IpcBrowserOffer.root, Option.map_map]
  cases hfind : o.items.find? (·.1 = key) with
  | none => rfl
  | some x =>
    obtain ⟨key', item⟩ := x
    have hplain := (h.items _ (List.mem_of_find?_eq_some hfind)).2
    cases item with
    | string text => rfl
    | number n => simp [JsonItem.json, jsonValue, hN.toUint64 hplain, hN.inRange hplain]

/-- What the daemon makes of the offer of a client. -/
theorem browserParseOffer_root {o : IpcBrowserOffer} (h : o.Plain) (hid : o.requestId ≠ [])
    (hurl : o.url ≠ []) :
    browserParseOffer o.root =
      if hasHttpScheme o.url = true ∧ isPlainFilename o.name = true then
        some ⟨0, 0, o.totalBytes, .waiting, o.requestId, o.url, o.name, o.mime, o.referrer⟩
      else none := by
  have hget (key : String) : o.root key = (o.items.find? (·.1 = key)).map fun x =>
      match x.2 with
      | .string text => JsonValue.string text
      | .number n => .number (some n) := rfl
  have h1 : browserJsonString o.root "request_id" ipcBrowserRequestIdMax true = some o.requestId := by
    simp [browserJsonString, hget, IpcBrowserOffer.items, hid, h.requestId]
  have h2 : browserJsonString o.root "url" ipcMaxUrlLen true = some o.url := by
    simp [browserJsonString, hget, IpcBrowserOffer.items, hurl, h.url]
  have h3 : browserJsonString o.root "filename" ipcBrowserFilenameMax false = some o.filename := by
    simp [browserJsonString, hget, IpcBrowserOffer.items, h.filename]
  have h4 : browserJsonString o.root "mime" ipcBrowserMimeMax false = some o.mime := by
    simp [browserJsonString, hget, IpcBrowserOffer.items, h.mime]
  have h5 : browserJsonString o.root "referrer" ipcMaxUrlLen false = some o.referrer := by
    simp [browserJsonString, hget, IpcBrowserOffer.items, h.referrer]
  have h6 : browserTotalBytes o.root = some o.totalBytes := by
    simp [browserTotalBytes, hget, IpcBrowserOffer.items]
  simp only [browserParseOffer, h1, h2, h3, h4, h5, h6, Option.bind_eq_bind, Option.bind_some]
  rw [IpcBrowserOffer.name]
  split_ifs <;> simp_all

theorem length_offerBytes (o : IpcBrowserOffer) : o.bytes.length = 4888 := by
  have harray (size : ℕ) (text : CString) : (arrayBytes size text).length = size := by
    rw [arrayBytes, List.length_take, List.length_append, List.length_replicate]
    omega
  simp only [IpcBrowserOffer.bytes, List.length_append, length_littleEndian, harray]
  decide

/-- An offer, from the call of the client to its answer: the daemon after it, and the bytes
    the client is left with. -/
def browserOffer (env : ServerEnv) (print : JsonPrinter) (s : Server) (fd : ℕ)
    (o : IpcBrowserOffer) : Server × Option (List Char) :=
  let frame := Request.frame print (.browserOffer o)
  if frame ≠ [] ∧ validMessageHeader (frameHeader frame) = true then
    let out := (env.handlers.handleMessage fd (frameHeader frame) s).run (frame.drop MsgHeader.size)
    (out.value, ((ipcBrowserOffer print o).run out.written).value)
  else (s, none)

/-- An offer that is sent is handled once, and answered with what it was registered as. -/
theorem browserOffer_sent {env : ServerEnv} {print : JsonPrinter} {s : Server} {fd : ℕ}
    {o : IpcBrowserOffer} {json : CString} (hid : o.requestId ≠ []) (hurl : o.url ≠ [])
    (hprint : print o.items = some json) (hlength : json.length ≤ ipcMaxFrameSize) :
    browserOffer env print s fd o =
      let r := s.offers.handleOffer (env.parseOffer json) env.now env.randomId
      ({ s with offers := r.1 },
        if r.2.offerId % 2 ^ 32 = 0 then none else some r.2.bytes) := by
  have hempty : ¬(o.requestId = [] ∨ o.url = []) := by simp [hid, hurl]
  have hframe : Request.frame print (.browserOffer o) =
      MsgHeader.bytes ⟨json.length, MsgType.browserOffer.code⟩ ++ json := by
    simp only [Request.frame, Request.client, ipcBrowserOffer, if_neg hempty, hprint,
      if_neg hlength.not_gt]
    exact frame_writeRequest (by simp [readOffer, exact_of_lt])
  have hle : json.length ≤ 16384 := hlength
  obtain ⟨hheader, hdrop⟩ := frame_split ⟨json.length, MsgType.browserOffer.code⟩ json
    (by simp only; omega) MsgType.browserOffer.code_lt
  have hvalid : validMessageHeader ⟨json.length, MsgType.browserOffer.code⟩ = true := by
    simp [validMessageHeader, hlength.not_gt, hlength]
  have hne : MsgHeader.bytes ⟨json.length, MsgType.browserOffer.code⟩ ++ json ≠ [] := by
    intro hnil
    have h := congrArg List.length hnil
    rw [List.length_append, MsgHeader.length_bytes, MsgHeader.size] at h
    simp at h
  have hmessage : env.handlers.handleMessage fd ⟨json.length, MsgType.browserOffer.code⟩ s =
      env.handlers.handleBrowserOffer json.length s := rfl
  have hread : exact json.length json = (some json, []) := by
    have h := exact_append (l := json) (s := []) rfl
    rwa [List.append_nil] at h
  rw [browserOffer, hframe]
  simp only [hheader, hdrop, hvalid, hne, ne_eq, not_false_eq_true, and_self, if_true, hmessage]
  have hrun : (env.handlers.handleBrowserOffer json.length s).run json =
      ⟨{ s with offers := (s.offers.handleOffer (env.parseOffer json) env.now env.randomId).1 },
        (s.offers.handleOffer (env.parseOffer json) env.now env.randomId).2.bytes, []⟩ := by
    simp [Handlers.handleBrowserOffer, hread, ServerEnv.handlers]
  rw [hrun]
  generalize s.offers.handleOffer (env.parseOffer json) env.now env.randomId = r
  have hanswer : exact 4888 r.2.bytes = (some r.2.bytes, []) := by
    have h := exact_append (l := r.2.bytes) (s := []) (length_offerBytes _)
    rwa [List.append_nil] at h
  have hvalue : value (r.2.bytes.take 4) = r.2.offerId % 2 ^ 32 := by
    simp only [IpcBrowserOffer.bytes, List.append_assoc]
    rw [List.take_left' (length_littleEndian _ _), value_littleEndian]
    norm_num
  simp only [ipcBrowserOffer, if_neg hempty, hprint, if_neg hlength.not_gt]
  congr 1
  -- Writing takes nothing from what is to be read.
  have hwrite (l : List Char) : ((writeRequest .browserOffer json).run l).rest = l := by
    rw [writeRequest]
    by_cases hp : json = [] <;> simp [hp]
  simp [readOffer, hwrite, hanswer, hvalue]

/-- An offer that the client does not send is not answered. -/
theorem browserOffer_unsent {env : ServerEnv} {print : JsonPrinter} {s : Server} {fd : ℕ}
    {o : IpcBrowserOffer}
    (h : o.requestId = [] ∨ o.url = [] ∨ ∀ json ∈ print o.items, ipcMaxFrameSize < json.length) :
    browserOffer env print s fd o = (s, none) := by
  have hframe : Request.frame print (.browserOffer o) = [] := by
    simp only [Request.frame, Request.client, ipcBrowserOffer]
    by_cases hempty : o.requestId = [] ∨ o.url = []
    · rw [if_pos hempty]
      rfl
    · rw [if_neg hempty]
      cases hprint : print o.items with
      | none => rfl
      | some json =>
        have hlong : ipcMaxFrameSize < json.length := by
          rcases h with h | h | h
          · exact absurd (.inl h) hempty
          · exact absurd (.inr h) hempty
          · exact h json hprint
        simp only [if_pos hlong]
        rfl
  rw [browserOffer, hframe, if_neg fun h => h.1 rfl]

/-- An offer that is answered is one of the web with the name of a file, and is in use from
    then on, under its request and its URL: either it was already, or every text is the client's.
    Nothing is done to the queue. -/
theorem browserOffer_registered (hN : N.Exact) {env : ServerEnv} {s s' : Server} {fd : ℕ}
    {o : IpcBrowserOffer} {bytes : List Char} (henv : env.parseOffer = parseOfferJson N)
    (ho : o.Plain) (h : browserOffer env (printItems N) s fd o = (s', some bytes)) :
    hasHttpScheme o.url = true ∧ isPlainFilename o.name = true ∧ s'.store = s.store ∧
      ∃ x ∈ s'.offers.slots, x.live = true ∧ bytes = x.offer.bytes ∧
        (s'.offers = s.offers ∧ x.offer.requestId = o.requestId ∧ x.offer.url = o.url ∨
          x.offer = ⟨x.offer.offerId, 0, o.totalBytes, .waiting, o.requestId, o.url, o.name, o.mime,
            o.referrer⟩) := by
  by_cases hsent : o.requestId = [] ∨ o.url = [] ∨
      ∀ json ∈ printItems N o.items, ipcMaxFrameSize < json.length
  · rw [browserOffer_unsent hsent] at h
    cases h
  simp only [not_or, not_forall, not_lt] at hsent
  obtain ⟨hid, hurl, json, hprint, hlength⟩ := hsent
  rw [browserOffer_sent hid hurl hprint hlength, henv, parseOfferJson_printItems hN ho hprint] at h
  simp only [Prod.mk.injEq] at h
  obtain ⟨rfl, h⟩ := h
  split_ifs at h with hzero
  cases h
  rw [BrowserOffers.handleOffer, Option.bind_some, browserParseOffer_root ho hid hurl] at hzero ⊢
  by_cases hvalid : hasHttpScheme o.url = true ∧ isPlainFilename o.name = true
  · refine ⟨hvalid.1, hvalid.2, rfl, ?_⟩
    rw [if_pos hvalid] at hzero ⊢
    simp only at hzero ⊢
    split at hzero
    · -- An offer with the same request is in use.
      rename_i x i hfound
      split_ifs at hzero with hother
      · exact absurd rfl hzero
      obtain ⟨hx, hp⟩ := BrowserOffers.findSlot_spec hfound
      rw [decide_eq_true_eq] at hp
      simp only [if_neg hother]
      exact ⟨x, List.mem_of_getElem? hx, hp.1, rfl, .inl ⟨trivial, hp.2, not_not.mp hother⟩⟩
    · rename_i hnone
      split at hzero
      · exact absurd rfl hzero
      -- A slot is taken for the offer.
      rename_i y i hfree
      split_ifs at hzero with hnew
      · exact absurd rfl hzero
      simp only [if_neg hnew]
      have hi : i < s.offers.slots.length :=
        (List.getElem?_eq_some_iff.mp (BrowserOffers.findSlot_spec hfree).1).1
      refine ⟨_, List.mem_set hi _, ?_, rfl, .inr rfl⟩
      simpa [BrowserOfferSlot.live] using hnew
  · rw [if_neg hvalid] at hzero
    exact absurd rfl hzero

end

/-- Whole numbers, of which no digit is lost. -/
def JsonNumbers.whole : JsonNumbers ℤ where
  toDoubles := Doubles.whole
  toUint64 := Int.toNat
  inRange n := 0 ≤ n ∧ n ≤ 2 ^ 53 - 1

theorem JsonNumbers.whole_exact : JsonNumbers.whole.Exact where
  isFinite _ := rfl
  injective _ _ h := Int.ofNat_inj.mp h
  toInt {n} _ := by
    change max (-2 ^ 31) (min (2 ^ 31 - 1) (n : ℤ)) = (min n (2 ^ 31 - 1) : ℕ)
    omega
  format _ := rfl
  strtod {n} _ := by
    change (Toml.parseInt (Toml.decimal n)).map _ = _
    rw [Toml.parseInt_decimal]
    rfl
  toUint64 {n} _ := Int.toNat_natCast n
  inRange {n} h := by
    change decide (0 ≤ (n : ℤ) ∧ (n : ℤ) ≤ 2 ^ 53 - 1) = true
    rw [decide_eq_true_eq]
    omega

/-- A cookie is kept by a daemon that has just started. -/
theorem addDownload_cut_cookie :
    let env := { ServerEnv.bare with parseOptions := parseOptionsJson JsonNumbers.whole }
    let options : Option IpcDownloadOptions := some ⟨some ['a'], none, none, none, 0⟩
    let r := addDownload env (printItems JsonNumbers.whole) (.start env) 0 "http://h/f".toList
      "/d/f".toList options
    ∃ d, r.1.store.get r.2 = some d ∧ d.url = "http://h/f".toList ∧
      d.request.getD noOptions = (givenOptions options).cut ∧
      (d.destPath = "/d/f".toList ∨ ∃ n, d.destPath = numberedPath "/d/f".toList n) := by
  intro env options r
  have hlength : (optionsJson (printItems JsonNumbers.whole) options).length = 14 := by decide
  have hprinted : printedOptions JsonNumbers.whole options = options :=
    Option.filter_some_pos (by decide)
  have haccepted : r = _ := addDownload_accepted (by decide) (by decide) (by rw [hlength]; decide)
  obtain ⟨hid, hnext⟩ := @reserve_start "/d/f".toList
    (parseOptionsJson JsonNumbers.whole) "http://h/f".toList
    (addOptions env.parseOptions ((optionsJson (printItems JsonNumbers.whole) options).take
      ((optionsJson (printItems JsonNumbers.whole) options).length % 256 ^ 4)))
    (by decide) (by decide)
  rw [← hprinted]
  refine addDownload_cut JsonNumbers.whole_exact (s := .start env) rfl (by decide) (by decide) ?_
    Nat.one_pos rfl ?_ rfl ?_
  · intro o ho
    cases Option.mem_some_iff.mp ho
    exact ⟨by decide, by decide, by decide, by decide, by decide⟩
  · rw [haccepted]
    exact hnext.trans_le (by decide)
  · rw [haccepted]
    exact fun h => absurd (hid ▸ h : 1 % 256 ^ 4 = 0) (by decide)

def archiveEnv : ServerEnv :=
  { ServerEnv.bare with parseOffer := parseOfferJson JsonNumbers.whole, randomId := fun _ => 7 }

def archiveOffer : IpcBrowserOffer :=
  ⟨0, 0, 0, .waiting, "r".toList, "https://h/a".toList, "a".toList, [], []⟩

/-- An archive is offered to a daemon that has just started. -/
theorem browserOffer_registered_archive :
    ∃ s' bytes, browserOffer archiveEnv (printItems JsonNumbers.whole) (.start archiveEnv) 0
      archiveOffer = (s', some bytes) ∧ s'.store = (Server.start archiveEnv).store := by
  have hplain : archiveOffer.Plain := ⟨by decide, by decide, by decide, by decide, by decide,
    by decide, by decide⟩
  have hlength : ((CJson.object (itemsObject JsonNumbers.whole archiveOffer.items)).print
      JsonNumbers.whole.toDoubles).length ≤ ipcMaxFrameSize := by
    decide
  have hprint : printItems JsonNumbers.whole archiveOffer.items =
      some ((CJson.object (itemsObject JsonNumbers.whole archiveOffer.items)).print
        JsonNumbers.whole.toDoubles) := by
    decide
  have hsent := @browserOffer_sent archiveEnv (printItems JsonNumbers.whole) (.start archiveEnv) 0
    archiveOffer _ (by decide) (by decide) hprint hlength
  have hid : (BrowserOffers.start.handleOffer (some archiveOffer.root) 0 fun _ => 7).2.offerId = 7 := by
    decide
  rw [show archiveEnv.parseOffer = parseOfferJson JsonNumbers.whole from rfl,
    parseOfferJson_printItems JsonNumbers.whole_exact hplain hprint,
    show (Server.start archiveEnv).offers = .start from rfl,
    show archiveEnv.now = 0 from rfl, show archiveEnv.randomId = fun _ => 7 from rfl] at hsent
  simp only [hid] at hsent
  exact ⟨_, _, hsent, (browserOffer_registered JsonNumbers.whole_exact rfl hplain hsent).2.2.1⟩

end Cdm
