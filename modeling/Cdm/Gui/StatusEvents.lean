import Cdm.Core.Scheduler
import Cdm.Gui.ConnectionEvents
import Cdm.Persistence.Sqlite
import Cdm.Platform.Protocol

/-!
# The status of the downloads in the window

A worker that has settled the result of a run, and the report of the progress, broadcast what is
new of a download (`ipc_broadcast_status` of `platform/ipc_socket.c`). The listener thread of the
window (`listener_thread_fn` of `gui/gui_client.c`) reads the events from its connection, and puts
the texts of the broadcasts into the words of the database (`normalize_status`).

* `listened_broadcasts`: the listener reads one event for every broadcast, in their order; a
  broadcast that was cut short leads to one more event at most, the last one;
* `normalizeStatus_text`: the status that is shown is the one the worker has published and stored.

A read that fails leaves in its variable what was there (`Leftover`), and the listener goes on
with it.
-/

namespace Cdm

open Wire

/-! ## Broadcasts -/

/-- What is broadcast of a download; the progress is a `float`, as its bits. -/
structure StatusBroadcast where
  downloadId : ℕ
  status : CString
  progress : UInt32
  downloadId_lt : downloadId < 256 ^ 4

namespace StatusBroadcast

def payload (b : StatusBroadcast) : List Char :=
  littleEndian 4 b.downloadId ++ littleEndian 4 b.progress.toNat ++ stringBytes b.status

/-- A payload that is too long is not sent. -/
def fits (b : StatusBroadcast) : Bool := b.payload.length ≤ ipcMaxFrameSize

def frame (b : StatusBroadcast) : List Char :=
  MsgHeader.bytes ⟨b.payload.length, MsgType.statusEvent.code⟩ ++ b.payload

theorem length_payload (b : StatusBroadcast) : b.payload.length = 12 + b.status.length := by
  simp [payload, stringBytes]
  omega

end StatusBroadcast

/-! ## The listener -/

/-- The texts of the broadcasts, and the words of the database. -/
def statusMap : List (CString × CString) :=
  [("Downloading".toList, "ACTIVE".toList), ("Retrying".toList, "QUEUED".toList),
    ("Paused".toList, "PAUSED".toList), ("Canceled".toList, "CANCELED".toList),
    ("Error".toList, "ERROR".toList), ("Verification failed".toList, "ERROR".toList),
    ("Done".toList, "DONE".toList)]

/-- The array for a status has 16 bytes; an unknown text is put into capitals. -/
def normalizeStatus (raw : CString) : CString :=
  match statusMap.find? (·.1 = raw) with
  | some entry => strncpy 16 entry.2
  | none => (raw.take 15).map Char.toUpper

/-- What a read that fails leaves in the variables of the listener. -/
structure Leftover where
  downloadId : ℕ
  progress : UInt32
  rawStatus : CString

/-- What comes of a turn of the listener. -/
inductive Listened
  | lost
  | skipped
  | event (e : GuiClientEvent)

/-- The text of a status. A text that does not fit is read to its end, and dropped. -/
def readStatus (left : Leftover) (slen : ℕ) : Prog Char CString :=
  if slen = 0 then pure []
  else if slen < 32 then do
    let text ← Prog.readExact slen
    pure (text.getD left.rawStatus)
  else do
    let _ ← drain slen slen
    pure []

/-- The payload of an event. Without its length, nothing can be read of the text. -/
def readEvent (left : Leftover) : Prog Char GuiClientEvent := do
  let id ← Prog.readExact 4
  let progress ← Prog.readExact 4
  let slen ← Prog.readExact 4
  let raw ← readStatus left ((slen.map value).getD 0)
  pure (.statusUpdate ((id.map value).getD left.downloadId)
    ((progress.map fun l => UInt32.ofNat (value l)).getD left.progress)
    (if raw = [] then [] else normalizeStatus raw))

/-- A turn of `listener_thread_fn`. -/
def listenerRead (left : Leftover) : Prog Char Listened := do
  match ← Prog.readExact MsgHeader.size with
  | none => pure .lost
  | some h =>
    if (MsgHeader.ofBytes h).type ≠ MsgType.statusEvent.code then pure .skipped
    else do
      let e ← readEvent left
      pure (.event e)

/-- The events of a connection, in at most `turns` turns. -/
def listen (left : Leftover) : (turns : ℕ) → List Char → List GuiClientEvent
  | 0, _ => []
  | turns + 1, l =>
    match (listenerRead left).run l with
    | ⟨.lost, _, _⟩ => []
    | ⟨.skipped, _, rest⟩ => listen left turns rest
    | ⟨.event e, _, rest⟩ => e :: listen left turns rest

/-- The events of a connection: a turn that does not find it lost reads a header. -/
def listened (left : Leftover) (l : List Char) : List GuiClientEvent :=
  listen left (l.length + 2) l

/-- The event of a broadcast. -/
def StatusBroadcast.event (b : StatusBroadcast) : GuiClientEvent :=
  .statusUpdate b.downloadId b.progress
    (if b.status.length < 32 then normalizeStatus b.status else [])

variable {left : Leftover}

theorem readStatus_run {status l : List Char} :
    (readStatus left status.length).run (status ++ l) =
      ⟨if status.length < 32 then status else [], [], l⟩ := by
  rw [readStatus]
  split_ifs with hnil hfits hfits
  · simp [List.length_eq_zero_iff.mp hnil]
  · exact absurd (hnil ▸ (by decide : 0 < 32)) hfits
  · simp [exact_append]
  · simp [drain_run]

/-- The payload of a broadcast is read, and nothing more. -/
theorem readEvent_run {b : StatusBroadcast} {l : List Char} (h : b.status.length < 256 ^ 4) :
    (readEvent left).run (b.payload ++ l) = ⟨b.event, [], l⟩ := by
  have hfour (n : ℕ) (l : List Char) : exact 4 (littleEndian 4 n ++ l) =
      (some (littleEndian 4 n), l) := exact_append (length_littleEndian _ _)
  have hslen : value (littleEndian 4 b.status.length) = b.status.length :=
    value_littleEndian_of_lt h
  have hprogress : UInt32.ofNat (value (littleEndian 4 b.progress.toNat)) = b.progress := by
    rw [value_littleEndian_of_lt b.progress.toNat_lt, UInt32.ofNat_toNat]
  have hempty : normalizeStatus [] = [] := by decide
  simp only [readEvent, Prog.run_bind, Prog.run_readExact, StatusBroadcast.payload, stringBytes,
    List.append_assoc, hfour, Option.map_some, Option.getD_some, hslen, readStatus_run, hprogress,
    value_littleEndian_of_lt b.downloadId_lt, Prog.run_pure, List.nil_append,
    StatusBroadcast.event]
  by_cases hshort : b.status.length < 32
  · rw [if_pos hshort, if_pos hshort]
    split_ifs with hnil
    · rw [hnil, hempty]
    · rfl
  · rw [if_neg hshort, if_neg hshort, if_pos rfl]

/-- After the header of a broadcast. -/
theorem listenerRead_header {b : StatusBroadcast} {l : List Char} (h : b.payload.length < 256 ^ 4) :
    (listenerRead left).run (MsgHeader.bytes ⟨b.payload.length, MsgType.statusEvent.code⟩ ++ l) =
      let r := (readEvent left).run l
      ⟨.event r.value, r.written, r.rest⟩ := by
  have hheader := exact_append (s := l)
    (MsgHeader.length_bytes ⟨b.payload.length, MsgType.statusEvent.code⟩)
  have htype : (MsgHeader.ofBytes (MsgHeader.bytes
      ⟨b.payload.length, MsgType.statusEvent.code⟩)).type = MsgType.statusEvent.code := by
    rw [MsgHeader.ofBytes_bytes h (MsgType.code_lt .statusEvent)]
  simp [listenerRead, hheader, htype]

/-- A broadcast is read, and nothing more. -/
theorem listenerRead_run {b : StatusBroadcast} {l : List Char} (h : b.fits = true) :
    (listenerRead left).run (b.frame ++ l) = ⟨.event b.event, [], l⟩ := by
  have hlength : b.payload.length ≤ ipcMaxFrameSize := of_decide_eq_true h
  have hpayload := b.length_payload
  rw [ipcMaxFrameSize] at hlength
  rw [StatusBroadcast.frame, List.append_assoc, listenerRead_header (by omega),
    readEvent_run (by omega)]

/-! ## A broadcast that is cut short -/

/-- Reading beyond the end of what has come of `a` and what follows it. -/
theorem exact_prefix {a rest t : List Char} {n : ℕ} (ha : a.length = n) (h : t <+: a ++ rest) :
    (t.length < n ∧ exact n t = (none, [])) ∨
      ∃ t', t = a ++ t' ∧ t' <+: rest ∧ exact n t = (some a, t') := by
  rcases Nat.lt_or_ge t.length n with hlt | hge
  · exact .inl ⟨hlt, exact_of_lt hlt⟩
  · have hcut : a <+: t :=
      List.prefix_of_prefix_length_le (List.prefix_append _ _) h (by omega)
    obtain ⟨t', rfl⟩ := hcut
    exact .inr ⟨t', rfl, (List.prefix_append_right_inj a).mp h, exact_append ha⟩

theorem drain_short {chunks excess : ℕ} {l : List Char} (hl : l.length < excess)
    (h : excess ≤ chunks) : ((drain chunks excess).run l).rest = [] := by
  induction chunks generalizing excess l with
  | zero => omega
  | succ chunks ih =>
    rw [drain, if_neg (by omega)]
    rcases Nat.lt_or_ge l.length (min excess 256) with hlt | hge
    · simp [exact_of_lt hlt]
    · have hread : exact (min excess 256) l =
          (some (l.take (min excess 256)), l.drop (min excess 256)) := if_pos hge
      have hrest : ((drain chunks (excess - min excess 256)).run
          (l.drop (min excess 256))).rest = [] :=
        ih (by rw [List.length_drop]; omega) (by omega)
      simpa [hread] using hrest

/-- What has come of a payload is read to its end. -/
theorem readEvent_short {b : StatusBroadcast} {l : List Char} (h : b.status.length < 256 ^ 4)
    (hcut : l <+: b.payload) (hlt : l.length < b.payload.length) :
    ((readEvent left).run l).rest = [] := by
  have hnil : exact 4 ([] : List Char) = (none, []) := exact_of_lt (by decide)
  rw [StatusBroadcast.payload, stringBytes, List.append_assoc] at hcut
  rcases exact_prefix (length_littleEndian _ _) hcut with ⟨-, hid⟩ | ⟨l₁, rfl, hcut, hid⟩
  · simp [readEvent, readStatus, hid, hnil]
  rcases exact_prefix (length_littleEndian _ _) hcut with ⟨-, hpr⟩ | ⟨l₂, rfl, hcut, hpr⟩
  · simp [readEvent, readStatus, hid, hpr, hnil]
  rcases exact_prefix (length_littleEndian _ _) hcut with ⟨-, hsl⟩ | ⟨l₃, rfl, hcut, hsl⟩
  · simp [readEvent, readStatus, hid, hpr, hsl]
  -- All but the text has come.
  have hslen : value (littleEndian 4 b.status.length) = b.status.length :=
    value_littleEndian_of_lt h
  have hshort : l₃.length < b.status.length := by
    rw [b.length_payload] at hlt
    simp only [List.length_append, length_littleEndian] at hlt
    omega
  simp only [readEvent, Prog.run_bind, Prog.run_readExact, hid, hpr, hsl, Option.map_some,
    Option.getD_some, hslen, readStatus, Prog.run_pure]
  rw [if_neg (by omega)]
  split_ifs
  · simp [exact_of_lt hshort]
  · simp [drain_short hshort]

/-! ## The events of a connection -/

theorem listen_frames {bs : List StatusBroadcast} {turns : ℕ} {tail : List Char}
    (h : ∀ b ∈ bs, b.fits = true) :
    listen left (bs.length + turns) (bs.flatMap StatusBroadcast.frame ++ tail) =
      bs.map StatusBroadcast.event ++ listen left turns tail := by
  induction bs with
  | nil => simp
  | cons b bs ih =>
    obtain ⟨hb, hbs⟩ := List.forall_mem_cons.mp h
    rw [List.length_cons, Nat.add_right_comm, List.flatMap_cons, List.append_assoc, listen,
      listenerRead_run hb]
    simp only [ih hbs, List.map_cons, List.cons_append]

/-- A broadcast that was cut short, after its header, is taken for an event. -/
theorem listen_short {b : StatusBroadcast} {tail : List Char} (left : Leftover) (turns : ℕ)
    (h : b.fits = true)
    (hcut : tail <+: b.frame) (hlt : tail.length < b.frame.length) :
    ∃ more, listen left (turns + 2) tail = more ∧ more.length ≤ 1 ∧
      (tail.length < MsgHeader.size → more = []) := by
  have hlength : b.payload.length ≤ ipcMaxFrameSize := of_decide_eq_true h
  have hpayload := b.length_payload
  rw [ipcMaxFrameSize] at hlength
  have hend (turns : ℕ) : listen left (turns + 1) [] = [] := by
    rw [listen]
    simp [listenerRead, exact_of_lt (show ([] : List Char).length < MsgHeader.size by decide)]
  rcases exact_prefix (MsgHeader.length_bytes _) hcut with ⟨hshort, hread⟩ | ⟨l, rfl, hl, -⟩
  · refine ⟨[], ?_, Nat.zero_le _, fun _ => rfl⟩
    rw [listen]
    simp [listenerRead, hread]
  · rw [StatusBroadcast.frame, List.length_append, List.length_append] at hlt
    have hrest : ((readEvent left).run l).rest = [] := readEvent_short (by omega) hl (by omega)
    rw [listen, listenerRead_header (by omega)]
    simp only [hrest, hend]
    refine ⟨_, rfl, le_rfl, fun hshort => ?_⟩
    rw [List.length_append, MsgHeader.length_bytes] at hshort
    omega

/-- The listener reads an event for every broadcast, in their order, and at most one more, if
    the last broadcast was cut short after its header. -/
theorem listened_broadcasts {bs : List StatusBroadcast} {b : StatusBroadcast} {tail : List Char}
    (left : Leftover) (h : ∀ b ∈ bs, b.fits = true) (hb : b.fits = true)
    (hcut : tail <+: b.frame)
    (hlt : tail.length < b.frame.length) :
    ∃ more, listened left (bs.flatMap StatusBroadcast.frame ++ tail) =
        bs.map StatusBroadcast.event ++ more ∧ more.length ≤ 1 ∧
      (tail.length < MsgHeader.size → more = []) := by
  -- There are enough turns, as every frame has a byte.
  have hturns : bs.length ≤ (bs.flatMap StatusBroadcast.frame).length := by
    have hsum := List.length_le_sum_of_one_le (bs.map fun b => b.frame.length)
      (by simp [StatusBroadcast.frame, MsgHeader.length_bytes, MsgHeader.size]; omega)
    rwa [List.length_map, ← List.length_flatMap] at hsum
  obtain ⟨k, hk⟩ := Nat.exists_eq_add_of_le (hturns.trans
    (List.sublist_append_left _ tail).length_le)
  obtain ⟨more, hmore, hone, hnone⟩ := listen_short left k hb hcut hlt
  rw [listened, hk, Nat.add_assoc, listen_frames h, hmore]
  exact ⟨more, rfl, hone, hnone⟩

/-! ## What is shown -/

/-- A text that is broadcast when a download has a status: by a worker that has settled the
    result of its run, or by the report of the progress. -/
def Says (text : String) (status : DownloadStatus) : Prop :=
  (text = "Downloading" ∧ status = .active) ∨
    ∃ cfg d now rc canceled paused,
      .broadcast text ∈ (outcome cfg d now rc canceled paused).before ++
        (outcome cfg d now rc canceled paused).after ∧
      (outcome cfg d now rc canceled paused).status = status

/-- The broadcasts of the workers. -/
def workerTexts : List (String × DownloadStatus) :=
  [("Done", .done), ("Canceled", .canceled), ("Paused", .paused), ("Verification failed", .error),
    ("Error", .error), ("Retrying", .queued)]

theorem mem_workerTexts {text : String} {cfg : Config} {d : Download} {now : ℕ} {rc : ℤ}
    {canceled paused : Bool} (h : .broadcast text ∈ (outcome cfg d now rc canceled paused).before ++
      (outcome cfg d now rc canceled paused).after) :
    (text, (outcome cfg d now rc canceled paused).status) ∈ workerTexts := by
  have hdiscard : Op.broadcast text ∉ discardOps d.destPath := by
    rw [discardOps]
    split_ifs <;> simp
  rw [outcome] at h ⊢
  split_ifs at h ⊢ <;>
    simp [doneOutcome, canceledOutcome, pausedOutcome, errorOutcome, retryOutcome, hdiscard]
      at h ⊢ <;>
    simp [h, workerTexts]

/-- The texts are put back into the words for the status. -/
theorem normalizeStatus_text {text : String} {status : DownloadStatus} (h : Says text status) :
    normalizeStatus text.toList = (statusToString status).toList ∧ text.toList.length < 32 := by
  rcases h with ⟨rfl, rfl⟩ | ⟨cfg, d, now, rc, canceled, paused, hmem, rfl⟩
  · decide
  · have htexts : ∀ x ∈ workerTexts, normalizeStatus x.1.toList = (statusToString x.2).toList ∧
        x.1.toList.length < 32 := by decide
    exact htexts _ (mem_workerTexts hmem)

/-- The window learns what the workers publish: for every broadcast there is an event with the
    status of the download, in their order; and at most one more event, if the last broadcast
    was cut short after its header. -/
theorem listened_said {rs : List (StatusBroadcast × DownloadStatus)} {b : StatusBroadcast}
    {tail : List Char} (h : ∀ r ∈ rs, ∃ text, Says text r.2 ∧ r.1.status = text.toList)
    (hb : b.fits = true) (hcut : tail <+: b.frame) (hlt : tail.length < b.frame.length) :
    ∃ more, listened left ((rs.map (·.1)).flatMap StatusBroadcast.frame ++ tail) =
        rs.map (fun r =>
          .statusUpdate r.1.downloadId r.1.progress (statusToString r.2).toList) ++ more ∧
      more.length ≤ 1 ∧ (tail.length < MsgHeader.size → more = []) := by
  have hsaid {r : StatusBroadcast × DownloadStatus} (hr : r ∈ rs) : r.1.fits = true ∧
      r.1.event = .statusUpdate r.1.downloadId r.1.progress (statusToString r.2).toList := by
    obtain ⟨text, hsays, htext⟩ := h r hr
    obtain ⟨hnormal, hlength⟩ := normalizeStatus_text hsays
    rw [StatusBroadcast.fits, StatusBroadcast.event, r.1.length_payload, htext, if_pos hlength,
      hnormal]
    exact ⟨decide_eq_true (by rw [ipcMaxFrameSize]; omega), rfl⟩
  have hfits : ∀ b ∈ rs.map (·.1), b.fits = true := by
    intro b hb
    obtain ⟨r, hr, rfl⟩ := List.mem_map.mp hb
    exact (hsaid hr).1
  obtain ⟨more, hmore, hone, hnone⟩ := listened_broadcasts left hfits hb hcut hlt
  refine ⟨more, ?_, hone, hnone⟩
  rw [hmore, List.map_map]
  exact congrArg (· ++ more) (List.map_congr_left fun r hr => (hsaid hr).2)

/-- A download is paused and another one is done, before a broadcast that is cut short. -/
theorem listened_said_two :
    let paused : StatusBroadcast := ⟨1, "Paused".toList, 0, by decide⟩
    let done : StatusBroadcast := ⟨2, "Done".toList, 0x3F800000, by decide⟩
    ∃ more, listened ⟨0, 0, []⟩ (paused.frame ++ done.frame ++ done.frame.take 9) =
        [.statusUpdate 1 0 "PAUSED".toList, .statusUpdate 2 0x3F800000 "DONE".toList] ++ more ∧
      more.length ≤ 1 := by
  intro paused done
  have hpaused : Says "Paused" .paused :=
    .inr ⟨⟨1, 0, 0, 0⟩, Download.zero, 0, 1, false, true, by decide, by decide⟩
  have hdone : Says "Done" .done :=
    .inr ⟨⟨1, 0, 0, 0⟩, Download.zero, 0, 0, false, false, by decide, by decide⟩
  obtain ⟨more, hmore, hone, -⟩ := @listened_said ⟨0, 0, []⟩
    [(paused, .paused), (done, .done)] done (done.frame.take 9)
    (by
      intro r hr
      rcases List.mem_pair.mp hr with rfl | rfl
      · exact ⟨_, hpaused, rfl⟩
      · exact ⟨_, hdone, rfl⟩)
    (by decide) (List.take_prefix _ _) (by decide)
  have hframes : paused.frame ++ done.frame ++ done.frame.take 9 =
      ([(paused, DownloadStatus.paused), (done, .done)].map (·.1)).flatMap StatusBroadcast.frame ++
        done.frame.take 9 := by
    simp
  rw [hframes]
  exact ⟨more, hmore, hone⟩

end Cdm
