import Cdm.Platform.Requests

/-!
# What is kept of a request

An add crosses a JSON object, a frame, the arrays of the daemon and the entry of the queue.
The printer and the parser of the JSON are parameters; of those it is assumed that they are
exact on the options of the request (`JsonExact`).

The entry holds what the client gave (`Keeps`) if every option fits the array it is copied
into. The daemon does not check that, and cuts an option that does not fit: it is then
kept as given only if the add is refused for another reason (`keeps_iff`).
-/

namespace Cdm

open Wire

/-! ## Paths -/

/-- The path chosen differs from the one given by a number at most. -/
theorem chosenPath_cases {s : Store} {dest path : CString} (hlen : dest.length + 8 ≤ intMax)
    (h : chosenPath s dest = some path) :
    path = dest ∧ s.files dest = none ∨
      ∃ n, path = numberedPath dest n ∧ dest.length < path.length ∧ (s.files dest).isSome := by
  have hpicks := @picksFirstFree_of_length (fun p => (s.files p).isSome) dest ipcMaxPathLen
    (pathParts dest) hlen (by decide)
  rcases (hpicks.picks path h).2.2 with ⟨hfree, rfl⟩ | ⟨hthere, n, -, -, rfl, -⟩
  · exact .inl ⟨rfl, by simpa using hfree⟩
  · have hnumbered := (pathParts dest).length_numbered n
    exact .inr ⟨n, ((pathParts dest).numberedPath_eq n).symm, by omega, hthere⟩

/-- No download is added at a path that is too long. -/
theorem reserveDownload_refused {url dest : CString} {opts : RequestOptions} {attempts : ℕ}
    {s : Store} {ios : ℕ → ReserveIo}
    (h : ∀ path, chosenPath s dest = some path → path = [] ∨ 900 ≤ path.length) :
    reserveDownload url dest opts attempts s ios = (s, 0) := by
  cases attempts with
  | zero => rfl
  | succ attempts =>
    rw [reserveDownload]
    simp only
    split
    · rfl
    · rename_i path hpath
      have hunsafe : isSafeDestPath path (ios attempts).add.inRoot = false := by
        rcases h path hpath with rfl | hlong
        · rfl
        · simp [isSafeDestPath, hlong.not_gt]
      rw [queueManagerAdd, hunsafe]
      rfl

/-! ## Options -/

/-- The options of a request, as given. -/
def givenOptions : Option IpcDownloadOptions → RequestOptions
  | none => noOptions
  | some o => ⟨o.cookie.getD [], o.referrer.getD [], o.extraHeaders.getD [],
      o.expectedSha256.getD [], o.speedLimitBps⟩

/-- Every option fits the array it is copied into. -/
def RequestOptions.FitArrays (o : RequestOptions) : Prop :=
  o.cookie.length < 1024 ∧ o.referrer.length < 2048 ∧ o.extraHeaders.length < 4096 ∧
    o.expectedSha256.length < 65

def JsonItem.value : JsonItem → OptionValue
  | .string text => .string text
  | .number n => .number n

/-- The value of the first item with a key. -/
def itemsRoot (items : List (String × JsonItem)) : OptionsRoot := fun key =>
  (items.find? (·.1 = key)).map (·.2.value)

def JsonItem.textLength : JsonItem → ℕ
  | .string text => text.length
  | .number _ => 0

/-- The options are printed, with at most six bytes for a byte of a text, and parsed as they
    were; the numbers are read as they were up to `2 ^ 53`. -/
structure JsonExact (print : JsonPrinter) (parse : CString → Option OptionsRoot)
    (items : List (String × JsonItem)) : Prop where
  exact : ∃ json, json ≠ [] ∧ print items = some json ∧
    json.length ≤ 6 * (items.map fun x => x.2.textLength).sum + 256 ∧
    ((∀ x ∈ items, ∀ n, x.2 = .number n → n ≤ 2 ^ 53) → parse json = some (itemsRoot items))

theorem itemsRoot_textItem {key key' : String} {text : Option CString}
    {items : List (String × JsonItem)} :
    itemsRoot (textItem key text ++ items) key' =
      if key' = key ∧ text.getD [] ≠ [] then some (.string (text.getD []))
      else itemsRoot items key' := by
  rcases text with _ | _ | ⟨c, text⟩
  · simp [textItem]
  · simp [textItem]
  · by_cases hkey : key' = key
    · simp [textItem, itemsRoot, JsonItem.value, hkey]
    · simp [textItem, itemsRoot, hkey, Ne.symm hkey]

/-- The text of a key of the options is that of its item, cut to the array. -/
theorem optionText_textItem {key : String} {text : Option CString} {size : ℕ}
    {items : List (String × JsonItem)} (h : itemsRoot items key = none) :
    optionText (itemsRoot (textItem key text ++ items)) key size = strncpy size (text.getD []) := by
  rw [optionText, itemsRoot_textItem, h]
  by_cases htext : text.getD [] = [] <;> simp [htext, strncpy]

theorem itemsRoot_speed {n : ℕ} {key : String} :
    itemsRoot (if 0 < n then [("speed_limit_bps", .number n)] else []) key =
      if key = "speed_limit_bps" ∧ 0 < n then some (.number n) else none := by
  by_cases hn : 0 < n
  · by_cases hkey : key = "speed_limit_bps"
    · simp [itemsRoot, hn, hkey, JsonItem.value]
    · simp [itemsRoot, hn, hkey, Ne.symm hkey]
  · simp [itemsRoot, hn]

/-- What the daemon reads from the options the client has printed. -/
theorem options_items (o : IpcDownloadOptions) (size : ℕ) :
    optionText (itemsRoot o.items) "cookie" size = strncpy size (o.cookie.getD []) ∧
      optionText (itemsRoot o.items) "referrer" size = strncpy size (o.referrer.getD []) ∧
      optionText (itemsRoot o.items) "extra_headers" size = strncpy size (o.extraHeaders.getD []) ∧
      optionText (itemsRoot o.items) "expected_sha256" size =
        strncpy size (o.expectedSha256.getD []) ∧
      optionNumber (itemsRoot o.items) "speed_limit_bps" = o.speedLimitBps := by
  have hskip {key key' : String} {text : Option CString} {items : List (String × JsonItem)}
      (hne : key' ≠ key) : itemsRoot (textItem key text ++ items) key' = itemsRoot items key' := by
    rw [itemsRoot_textItem, if_neg (fun h => hne h.1)]
  simp only [IpcDownloadOptions.items, List.append_assoc]
  refine ⟨optionText_textItem ?_, ?_, ?_, ?_, ?_⟩
  · rw [hskip (by decide), hskip (by decide), hskip (by decide), itemsRoot_speed,
      if_neg (by simp)]
  · rw [optionText, hskip (by decide), ← optionText, optionText_textItem]
    rw [hskip (by decide), hskip (by decide), itemsRoot_speed, if_neg (by simp)]
  · rw [optionText, hskip (by decide), hskip (by decide), ← optionText, optionText_textItem]
    rw [hskip (by decide), itemsRoot_speed, if_neg (by simp)]
  · rw [optionText, hskip (by decide), hskip (by decide), hskip (by decide), ← optionText,
      optionText_textItem]
    rw [itemsRoot_speed, if_neg (by simp)]
  · rw [optionNumber, hskip (by decide), hskip (by decide), hskip (by decide), hskip (by decide),
      itemsRoot_speed]
    by_cases hn : 0 < o.speedLimitBps
    · simp [hn]
    · simp only [hn, and_false, if_false]
      omega

/-! ## The add -/

section

variable {σ : Type} {url destPath json : List Char}

/-- Four bytes of a string, none of which is zero, are a large number. -/
theorem value_of_nonzero {l : List Char} (h4 : l.length = 4) (h0 : ∀ c ∈ l, c ≠ Char.ofNat 0) :
    16843009 ≤ value l := by
  have hpos (c : Char) (hc : c ∈ l) : 1 ≤ c.toNat := by
    by_contra hlt
    refine h0 c hc (Char.toNat_inj.1 ?_)
    rw [Nat.lt_one_iff.1 (not_le.1 hlt)]
    rfl
  match l, h4 with
  | [a, b, c, d], _ =>
    have ha := hpos a (by simp)
    have hb := hpos b (by simp)
    have hc := hpos c (by simp)
    have hd := hpos d (by simp)
    simp only [value]
    omega

/-- What follows a string whose length has come round is no length of another string. -/
theorem readString_behind {maxLen n : ℕ} {text : CString} {more : List Char} (hmax : maxLen ≤ 16843009)
    (h0 : Char.ofNat 0 ∉ text) (hn : n + 4 ≤ text.length) :
    ((readString maxLen).run (text.drop n ++ more)).value = none := by
  have hlength : 4 ≤ (text.drop n).length := by
    rw [List.length_drop]
    omega
  refine readString_none (by rw [List.length_append]; omega) (hmax.trans (value_of_nonzero ?_ ?_))
  · rw [List.length_take, List.length_append]
    omega
  · intro c hc hzero
    rw [List.take_append_of_le_length hlength] at hc
    exact h0 (hzero ▸ List.mem_of_mem_drop (List.mem_of_mem_take hc))

/-- An add is not answered if one of its strings is rejected. -/
theorem written_rejected (h : Handlers σ) (s : σ) (more : List Char)
    (hurl : Char.ofNat 0 ∉ url) (hdest : Char.ofNat 0 ∉ destPath)
    (hlong : 2048 ≤ url.length ∨ 1024 ≤ destPath.length ∨ 8192 ≤ json.length % 256 ^ 4) :
    ((h.handleAddDownload s).run
      (stringBytes url ++ (stringBytes destPath ++ (stringBytes json ++ more)))).written = [] := by
  -- The length that is sent has four bytes; a string is rejected for what they say.
  have hnone {maxLen : ℕ} {text l : List Char} (hmax : maxLen ≤ text.length % 256 ^ 4) :
      ((readString maxLen).run (stringBytes text ++ l)).value = none := by
    refine readString_none (by simp [stringBytes]) ?_
    rwa [stringBytes, List.append_assoc, List.take_left' (length_littleEndian _ _),
      value_littleEndian]
  rw [Handlers.handleAddDownload]
  by_cases h1 : url.length % 256 ^ 4 < 2048
  · have hread : (readString ipcMaxUrlLen).run
        (stringBytes url ++ (stringBytes destPath ++ (stringBytes json ++ more))) = _ :=
      readString_run_mod h1
    by_cases hurl' : 2048 ≤ url.length
    · -- The length of the URL has come round: its next bytes are taken for a length.
      have hread' : ((readString ipcMaxPathLen).run (url.drop (url.length % 256 ^ 4) ++
          (stringBytes destPath ++ (stringBytes json ++ more)))).value = none :=
        readString_behind (by decide) hurl (by omega)
      generalize url.length % 256 ^ 4 = n at hread hread'
      simp [hread, hread', readString_written]
    · have hmod : url.length % 256 ^ 4 = url.length := by omega
      rw [hmod, List.take_length, List.drop_length, List.nil_append] at hread
      by_cases h2 : destPath.length % 256 ^ 4 < 1024
      · have hread' : (readString ipcMaxPathLen).run
            (stringBytes destPath ++ (stringBytes json ++ more)) = _ := readString_run_mod h2
        by_cases hdest' : 1024 ≤ destPath.length
        · -- As for the URL, with the length of the path.
          have hread'' : ((readString 8192).run (destPath.drop (destPath.length % 256 ^ 4) ++
              (stringBytes json ++ more))).value = none :=
            readString_behind (by decide) hdest (by omega)
          generalize destPath.length % 256 ^ 4 = n at hread' hread''
          simp [hread, hread', hread'', readString_written]
        · have hmod' : destPath.length % 256 ^ 4 = destPath.length := by omega
          rw [hmod', List.take_length, List.drop_length, List.nil_append] at hread'
          have hread'' : ((readString 8192).run (stringBytes json ++ more)).value = none :=
            hnone (by omega)
          simp [hread, hread', hread'', readString_written]
      · have hread' : ((readString ipcMaxPathLen).run
            (stringBytes destPath ++ (stringBytes json ++ more))).value = none := hnone (not_lt.1 h2)
        simp [hread, hread', readString_written]
  · have hread : ((readString ipcMaxUrlLen).run
        (stringBytes url ++ (stringBytes destPath ++ (stringBytes json ++ more)))).value = none :=
      hnone (not_lt.1 h1)
    simp [hread, readString_written]

/-- An add whose strings are read is reserved, and answered; of the options as much is read
    as the number in front of them says. -/
theorem run_accepted (h : Handlers σ) (s : σ) (more : List Char) (hurl : url.length < 2048) (hdest : destPath.length < 1024)
    (hjson : json.length % 256 ^ 4 < 8192) :
    let r := h.reserve s url destPath
      (addOptions h.parseOptions (json.take (json.length % 256 ^ 4)))
    let out := (h.handleAddDownload s).run
      (stringBytes url ++ (stringBytes destPath ++ (stringBytes json ++ more)))
    out.value = r.1 ∧ out.written = littleEndian 4 r.2 := by
  have h1 (l : List Char) : (readString ipcMaxUrlLen).run (stringBytes url ++ l) = ⟨some url, [], l⟩ :=
    readString_run hurl (by omega)
  have h2 (l : List Char) : (readString ipcMaxPathLen).run (stringBytes destPath ++ l) =
      ⟨some destPath, [], l⟩ := readString_run hdest (by omega)
  simp [Handlers.handleAddDownload, h1, h2, readString_run_mod hjson]

end

/-- An add, from the call of the client to its answer: the daemon after it, and the
    identifier answered. -/
def addDownload (env : ServerEnv) (print : JsonPrinter) (s : Server) (fd : ℕ)
    (url destPath : CString) (options : Option IpcDownloadOptions) : Server × ℕ :=
  let frame := Request.frame print (.addDownload url destPath options)
  if validMessageHeader (frameHeader frame) then
    let out := (env.handlers.handleMessage fd (frameHeader frame) s).run (frame.drop MsgHeader.size)
    (out.value, ((ipcSendAddDownload print url destPath options).run out.written).value)
  else (s, 0)

/-- The entry has what the client gave; its path may have a number. -/
structure Keeps (d : Download) (url destPath : CString) (options : Option IpcDownloadOptions) :
    Prop where
  url : d.url = url
  options : d.request.getD noOptions = givenOptions options
  destPath : d.destPath = destPath ∨ ∃ n, d.destPath = numberedPath destPath n

/-- Whatever the daemon knows and the system answers, an add that is answered with an
    identifier has left an entry that keeps the request. The identifiers have not come
    round, and there is no file with an empty path. -/
def AddKept (print : JsonPrinter) (parse : CString → Option OptionsRoot) (url destPath : CString)
    (options : Option IpcDownloadOptions) : Prop :=
  ∀ (env : ServerEnv) (s s' : Server) (fd id : ℕ), env.parseOptions = parse →
    0 < s.store.nextId → s.store.files [] = none →
      addDownload env print s fd url destPath options = (s', id) → s'.store.nextId ≤ 2 ^ 32 →
        id ≠ 0 → ∃ d, s'.store.get id = some d ∧ Keeps d url destPath options

/-- The add is refused for its URL, its destination, or the length of its options. -/
def AddRefused (print : JsonPrinter) (url destPath : CString)
    (options : Option IpcDownloadOptions) : Prop :=
  2048 ≤ url.length ∨ destPath = [] ∨ 900 ≤ destPath.length ∨
    8192 ≤ (optionsJson print options).length % 256 ^ 4

section

variable {env : ServerEnv} {print : JsonPrinter} {parse : CString → Option OptionsRoot}
  {s : Server} {fd : ℕ} {url destPath : CString} {options : Option IpcDownloadOptions}

theorem answer_addDownload (l : List Char) :
    ((ipcSendAddDownload print url destPath options).run l).value =
      ((exact 4 l).1.map value).getD 0 := by
  simp only [ipcSendAddDownload, Prog.run_bind, Prog.run_send, run_writeString, Prog.run_readExact]
  cases (exact 4 l).1 <;> rfl

/-- An add whose strings are read is answered with the download reserved. -/
theorem addDownload_accepted (hurl : url.length < 2048) (hdest : destPath.length < 1024)
    (hjson : (optionsJson print options).length % 256 ^ 4 < 8192) :
    let json := optionsJson print options
    let r := env.reserve s url destPath
      (addOptions env.parseOptions (json.take (json.length % 256 ^ 4)))
    addDownload env print s fd url destPath options = (r.1, r.2 % 256 ^ 4) := by
  have hframe := frame_addDownload print url destPath options
  generalize optionsJson print options = json at *
  generalize hn : (12 + url.length + destPath.length + json.length) % 2 ^ 32 = n at hframe
  obtain ⟨hheader, hdrop⟩ := frame_split ⟨n, MsgType.addDownload.code⟩
    (stringBytes url ++ (stringBytes destPath ++ stringBytes json)) (by simp only; omega)
    MsgType.addDownload.code_lt
  have hvalid : validMessageHeader ⟨n, MsgType.addDownload.code⟩ = true := by
    have hle : n ≤ 16384 := by omega
    simp [validMessageHeader, ipcMaxFrameSize, hle.not_gt, hle]
  have hmessage : env.handlers.handleMessage fd ⟨n, MsgType.addDownload.code⟩ s =
      env.handlers.handleAddDownload s := rfl
  obtain ⟨hvalue, hwritten⟩ := run_accepted env.handlers s [] hurl hdest hjson
  rw [List.append_nil] at hvalue hwritten
  rw [addDownload, hframe]
  simp only [hheader, hdrop, hvalid, if_true, hmessage, answer_addDownload]
  have hread (id : ℕ) : exact 4 (littleEndian 4 id) = (some (littleEndian 4 id), []) := by
    have h := exact_id id []
    rwa [List.append_nil] at h
  rw [hvalue, hwritten, hread, Option.map_some, Option.getD_some, value_littleEndian]
  rfl

/-- An add is not answered if one of its strings is rejected. -/
theorem addDownload_rejected (hurl : Char.ofNat 0 ∉ url) (hdest : Char.ofNat 0 ∉ destPath)
    (hlong : 2048 ≤ url.length ∨ 1024 ≤ destPath.length ∨
      8192 ≤ (optionsJson print options).length % 256 ^ 4) :
    (addDownload env print s fd url destPath options).2 = 0 := by
  have hframe := frame_addDownload print url destPath options
  generalize optionsJson print options = json at *
  generalize hn : (12 + url.length + destPath.length + json.length) % 2 ^ 32 = n at hframe
  obtain ⟨hheader, hdrop⟩ := frame_split ⟨n, MsgType.addDownload.code⟩
    (stringBytes url ++ (stringBytes destPath ++ stringBytes json)) (by simp only; omega)
    MsgType.addDownload.code_lt
  have hmessage : env.handlers.handleMessage fd ⟨n, MsgType.addDownload.code⟩ s =
      env.handlers.handleAddDownload s := rfl
  have hwritten := written_rejected env.handlers s [] hurl hdest hlong
  rw [List.append_nil] at hwritten
  rw [addDownload, hframe]
  simp only [hheader, hdrop, hmessage, answer_addDownload]
  split_ifs
  · simp only [hwritten]
    rw [exact_of_lt (by decide)]
    rfl
  · rfl

/-- An add that is refused gets no identifier. -/
theorem addDownload_refused (hurl : Char.ofNat 0 ∉ url) (hdest : Char.ofNat 0 ∉ destPath)
    (hempty : s.store.files [] = none) (h : AddRefused print url destPath options) :
    (addDownload env print s fd url destPath options).2 = 0 := by
  by_cases hlong : 2048 ≤ url.length ∨ 1024 ≤ destPath.length ∨
      8192 ≤ (optionsJson print options).length % 256 ^ 4
  · exact addDownload_rejected hurl hdest hlong
  · push Not at hlong
    obtain ⟨h1, h2, h3⟩ := hlong
    have hdest' : destPath = [] ∨ 900 ≤ destPath.length := by
      rcases h with h | h | h | h
      · omega
      · exact .inl h
      · exact .inr h
      · omega
    rw [addDownload_accepted h1 h2 h3]
    -- The path chosen is no shorter than the destination.
    have hpath (path : CString) (hpath : chosenPath s.store destPath = some path) :
        path = [] ∨ 900 ≤ path.length := by
      have hlen : destPath.length + 8 ≤ intMax := by rw [intMax]; omega
      rcases chosenPath_cases hlen hpath with ⟨rfl, -⟩ | ⟨n, rfl, hlonger, hthere⟩
      · exact hdest'
      · rcases hdest' with rfl | hlong
        · rw [hempty] at hthere
          cases hthere
        · exact .inr (hlong.trans hlonger.le)
    simp only [ServerEnv.reserve, reserveDownload_refused hpath]
    rfl

/-- What the daemon makes of options that fit is what was given. -/
theorem addOptions_given (hexact : ∀ o ∈ options, JsonExact print parse o.items)
    (hspeed : ∀ o ∈ options, o.speedLimitBps ≤ 2 ^ 53) (hfit : (givenOptions options).FitArrays)
    (hjson : (optionsJson print options).length % 256 ^ 4 < 8192) :
    addOptions parse ((optionsJson print options).take
      ((optionsJson print options).length % 256 ^ 4)) = givenOptions options := by
  cases options with
  | none => rfl
  | some o =>
    obtain ⟨json, hne, hprint, hlength, hparse⟩ := (hexact o rfl).exact
    have hjson' : optionsJson print (some o) = json := by
      rw [optionsJson, hprint]
      rfl
    obtain ⟨h1, h2, h3, h4⟩ := hfit
    simp only [givenOptions] at h1 h2 h3 h4
    have htext (key : String) (text : Option CString) :
        ((textItem key text).map fun x => x.2.textLength).sum = (text.getD []).length := by
      rcases text with _ | _ | ⟨c, text⟩ <;> simp [textItem, JsonItem.textLength]
    have hsum : (o.items.map fun x => x.2.textLength).sum ≤ 7230 := by
      simp only [IpcDownloadOptions.items, List.map_append, List.sum_append, htext]
      split_ifs <;> simp [JsonItem.textLength] <;> omega
    have hnumber : ∀ x ∈ o.items, ∀ n, x.2 = .number n → n ≤ 2 ^ 53 := by
      intro x hx n hn
      have htext' {key : String} {text : Option CString} (hx : x ∈ textItem key text) : False := by
        rcases text with _ | _ | ⟨c, text⟩
        · cases hx
        · cases hx
        · rw [List.mem_singleton.1 hx] at hn
          cases hn
      simp only [IpcDownloadOptions.items, List.mem_append] at hx
      rcases hx with (((hx | hx) | hx) | hx) | hx
      · exact (htext' hx).elim
      · exact (htext' hx).elim
      · exact (htext' hx).elim
      · exact (htext' hx).elim
      · split_ifs at hx
        · rw [List.mem_singleton.1 hx] at hn
          cases hn
          exact hspeed o rfl
        · cases hx
    have hmod : json.length % 256 ^ 4 = json.length := by omega
    rw [hjson', hmod, List.take_length, addOptions, if_neg hne, hparse hnumber]
    simp only [(options_items o 1024).1, (options_items o 2048).2.1, (options_items o 4096).2.2.1,
      (options_items o 65).2.2.2.1, (options_items o 0).2.2.2.2, strncpy_of_lt h1, strncpy_of_lt h2,
      strncpy_of_lt h3, strncpy_of_lt h4, givenOptions]

/-- The daemon never keeps an option that does not fit. -/
theorem addOptions_fitArrays (json : CString) : (addOptions parse json).FitArrays := by
  have htext (root : OptionsRoot) (key : String) {size : ℕ} (hsize : 0 < size) :
      (optionText root key size).length < size := by
    rw [optionText]
    split
    · exact length_strncpy_lt hsize
    · exact hsize
  have hnone : noOptions.FitArrays := by
    simp [RequestOptions.FitArrays, noOptions]
  rw [addOptions]
  split_ifs
  · exact hnone
  · split
    · exact hnone
    · exact ⟨htext _ _ (by decide), htext _ _ (by decide), htext _ _ (by decide),
        htext _ _ (by decide)⟩

theorem request_newDownload (id : ℕ) (url path : CString) (opts : RequestOptions) :
    (newDownload id url path opts).request.getD noOptions = opts := by
  rw [newDownload]
  simp only
  split_ifs with h
  · rfl
  · obtain ⟨cookie, referrer, extraHeaders, sha, bps⟩ := opts
    simp [requestOptionsPresent] at h
    simp [noOptions, h]

/-- What an add that is answered leaves in the queue. -/
theorem get_reserve {opts : RequestOptions} {s' : Server} {id : ℕ} (h0 : 0 < s.store.nextId)
    (h : env.reserve s url destPath opts = (s', id)) (hid : id ≠ 0) :
    id < s'.store.nextId ∧ ∃ path, chosenPath s.store destPath = some path ∧
      s'.store.get id = some { newDownload id url path opts with reservedFile := true } := by
  rw [ServerEnv.reserve] at h
  simp only at h
  obtain ⟨rfl, rfl⟩ := Prod.mk.inj h
  obtain ⟨path, hpath, -, -, hlt, hqueue, -, -⟩ := (reserveDownload_spec h0 rfl).added hid
  refine ⟨hlt, path, hpath, ?_⟩
  simp only [Store.get, hqueue]
  exact List.find?_cons_of_pos (by simp [newDownload])

/-- A daemon that has just started reserves what is not refused. -/
theorem reserve_start (parse : CString → Option OptionsRoot) (url : CString)
    (opts : RequestOptions) (hempty : destPath ≠ []) (hlong : destPath.length < 900) :
    let env' := { ServerEnv.bare with parseOptions := parse }
    (env'.reserve (.start env') url destPath opts).2 = 1 ∧
      (env'.reserve (.start env') url destPath opts).1.store.nextId = 2 := by
  have hsafe : isSafeDestPath destPath true = true := by
    simp [isSafeDestPath, hempty, hlong]
  have hunique : pathMakeUnique (fun _ => false) destPath ipcMaxPathLen = some destPath := by
    rw [pathMakeUnique, if_neg (by decide), if_pos rfl, if_neg (by rw [ipcMaxPathLen]; omega)]
  simp [ServerEnv.reserve, Server.start, reserveAttempts, reserveDownload, ServerEnv.bare, hunique,
    queueManagerAdd, hsafe, claimFile, intrude, Store.modify, Store.query]

/-- An add that is not refused, and keeps its request whatever the daemon knows, has options
    that fit. -/
theorem fitArrays_of_addKept (hkept : AddKept print parse url destPath options)
    (haccepted : ¬AddRefused print url destPath options) : (givenOptions options).FitArrays := by
  simp only [AddRefused, not_or, not_le] at haccepted
  obtain ⟨h1, h2, h3, h4⟩ := haccepted
  -- A daemon that has just started takes the add, with options cut to their arrays.
  generalize hopts : addOptions parse ((optionsJson print options).take
    ((optionsJson print options).length % 256 ^ 4)) = opts
  obtain ⟨hid, hnext⟩ := reserve_start parse url opts h2 h3
  generalize henv : { ServerEnv.bare with parseOptions := parse } = env at hid hnext
  have hparse : env.parseOptions = parse := by rw [← henv]
  have hadd : addDownload env print (.start env) 0 url destPath options =
      ((env.reserve (.start env) url destPath opts).1,
        (env.reserve (.start env) url destPath opts).2 % 256 ^ 4) := by
    rw [← hopts, ← hparse]
    exact addDownload_accepted h1 (h3.trans (by decide)) h4
  generalize hr : env.reserve (Server.start env) url destPath opts = r at hid hnext hadd
  obtain ⟨s', id⟩ := r
  simp only at hid hnext hadd
  subst hid
  obtain ⟨d, hd, hkeeps⟩ := hkept env (.start env) s' 0 1 hparse Nat.one_pos rfl hadd
    (by omega) one_ne_zero
  obtain ⟨-, path, -, hget⟩ := get_reserve Nat.one_pos hr one_ne_zero
  rw [hget] at hd
  cases hd
  have hoptions := hkeeps.options
  rw [show ({ newDownload 1 url path opts with reservedFile := true } : Download).request =
    (newDownload 1 url path opts).request from rfl, request_newDownload] at hoptions
  exact hoptions ▸ hopts ▸ addOptions_fitArrays _

/-- An add keeps the request of the client exactly if every option given fits the array of
    the daemon, or the add is refused for another reason. -/
theorem keeps_iff (print : JsonPrinter) (parse : CString → Option OptionsRoot)
    (url destPath : CString) (options : Option IpcDownloadOptions) (hurl : Char.ofNat 0 ∉ url)
    (hdest : Char.ofNat 0 ∉ destPath) (hexact : ∀ o ∈ options, JsonExact print parse o.items)
    (hspeed : ∀ o ∈ options, o.speedLimitBps ≤ 2 ^ 53) :
    AddKept print parse url destPath options ↔
      (givenOptions options).FitArrays ∨ AddRefused print url destPath options := by
  constructor
  · intro hkept
    by_cases hrefused : AddRefused print url destPath options
    · exact .inr hrefused
    · exact .inl (fitArrays_of_addKept hkept hrefused)
  · intro hcond env s s' fd id hparse hnext hempty hadd hbound hid
    by_cases hrefused : AddRefused print url destPath options
    · have hzero : (addDownload env print s fd url destPath options).2 = 0 :=
        addDownload_refused hurl hdest hempty hrefused
      rw [hadd] at hzero
      exact absurd hzero hid
    · have hfit := hcond.resolve_right hrefused
      simp only [AddRefused, not_or, not_le] at hrefused
      obtain ⟨h1, -, h3, h4⟩ := hrefused
      rw [addDownload_accepted h1 (by omega) h4, hparse, addOptions_given hexact hspeed hfit h4] at hadd
      generalize hr : env.reserve s url destPath (givenOptions options) = r at hadd
      obtain ⟨t, id'⟩ := r
      obtain ⟨rfl, rfl⟩ := Prod.mk.inj hadd
      have hid' : id' ≠ 0 := fun h => hid (by rw [h]; rfl)
      obtain ⟨hlt, path, hpath, hget⟩ := get_reserve hnext hr hid'
      have hmod : id' % 256 ^ 4 = id' := Nat.mod_eq_of_lt (by simp only at hbound; omega)
      rw [hmod]
      refine ⟨_, hget, rfl, request_newDownload id' url path (givenOptions options), ?_⟩
      rcases chosenPath_cases (by rw [intMax]; omega) hpath with ⟨rfl, -⟩ | ⟨n, rfl, -, -⟩
      · exact .inl rfl
      · exact .inr ⟨n, rfl⟩

end

/-- A cookie of a single byte is kept. -/
theorem keeps_iff_cookie :
    AddKept (fun _ => some "\x7b\"cookie\":\"a\"\x7d".toList)
      (fun _ => some (itemsRoot [("cookie", .string ['a'])])) "http://h/f".toList "/d/f".toList
      (some ⟨some ['a'], none, none, none, 0⟩) := by
  refine (keeps_iff _ _ _ _ _ (by decide) (by decide) ?_ ?_).2 (.inl ?_)
  · rintro o ⟨⟩
    exact ⟨_, by decide, rfl, by decide, fun _ => rfl⟩
  · rintro o ⟨⟩
    decide
  · simp [RequestOptions.FitArrays, givenOptions]

/-- A digest of 65 bytes is printed and parsed exactly, and is not kept. -/
theorem not_addKept_digest :
    let digest := List.replicate 65 'a'
    let o : IpcDownloadOptions := ⟨none, none, none, some digest, 0⟩
    let print : JsonPrinter := fun _ =>
      some ("\x7b\"expected_sha256\":\"".toList ++ digest ++ "\"\x7d".toList)
    let parse : CString → Option OptionsRoot := fun _ =>
      some (itemsRoot [("expected_sha256", .string digest)])
    JsonExact print parse o.items ∧
      ¬AddKept print parse "http://h/f".toList "/d/f".toList (some o) := by
  refine ⟨⟨_, by decide, rfl, by decide, fun _ => rfl⟩, fun hkept => ?_⟩
  have hfit := fitArrays_of_addKept hkept (by
    rw [AddRefused]
    decide)
  exact absurd hfit.2.2.2 (by decide)

end Cdm
