import Cdm.Platform.Poll

/-!
# Frames

What a handler reads of a connection does not depend on the daemon, nor on how the reads
return (`handleMessage_rest`, `ipcReadExact_eq`), so that the frames of a stream
(`frames`) can be told from the stream alone: header by header, each followed by what the
handler reads of its payload, up to the first header that is invalid.
-/

namespace Cdm

open Wire

/-! ## Reading -/

/-- Reading in pieces reads what is read at once. -/
theorem ipcReadExact_eq {calls : List ReadOutcome} {n : ℕ} {s : List Char}
    {x : Option (List Char) × List Char} (h : ipcReadExact calls n s = some x) : x = exact n s := by
  induction calls generalizing n s x with
  | nil =>
    cases n with
    | zero =>
      cases h
      simp [exact]
    | succ n => cases h
  | cons call calls ih =>
    cases n with
    | zero =>
      cases call <;>
      · cases h
        simp [exact]
    | succ n =>
      cases call with
      | interrupted => exact ih h
      | bytes more =>
        rw [ipcReadExact] at h
        split_ifs at h with hnil
        · cases h
          simp [exact, hnil]
        · obtain ⟨y, hy, rfl⟩ := Option.map_eq_some_iff.1 h
          have hpos : 0 < s.length := List.length_pos_of_ne_nil hnil
          -- A piece of the bytes asked for, then the rest of them.
          generalize hm : (s.take (min (more + 1) (n + 1))).length = m at *
          have hlen : m = min (min (more + 1) (n + 1)) s.length := by rw [← hm, List.length_take]
          have hpiece : s.take (min (more + 1) (n + 1)) = s.take m := by
            rw [hlen, List.take_eq_take_iff, min_assoc _ s.length, min_self]
          rw [ih hy, hpiece, exact, exact]
          by_cases hle : n + 1 ≤ s.length
          · rw [if_pos (by rw [List.length_drop]; omega), if_pos hle]
            have hsplit : n + 1 = m + (n + 1 - m) := by omega
            conv_rhs => rw [hsplit, List.take_add, ← List.drop_drop]
            rfl
          · rw [if_neg (by rw [List.length_drop]; omega), if_neg hle]
            rfl

/-- What the handler of a message leaves on the connection. -/
def afterPayload (hdr : MsgHeader) (l : List Char) : List Char :=
  match MsgType.ofCode hdr.type with
  | some .addDownload =>
    let url := (readString ipcMaxUrlLen).run l
    -- An over-long text has been drained, and the handler returns: what is behind it stays.
    if url.value.isNone then url.rest
    else
      let dest := (readString ipcMaxPathLen).run url.rest
      if dest.value.isNone then dest.rest else ((readString 8192).run dest.rest).rest
  | some .browserOffer | some .browserConfirm => (exact hdr.length l).2
  | some .pause | some .resume | some .cancel | some .getDetails | some .browserGetOffer
  | some .browserDismiss | some .browserSubscribeProgress => (exact 4 l).2
  | _ => l

/-- Whatever the daemon does on a message, it reads the same. -/
theorem handleMessage_rest {σ : Type} (h : Handlers σ) (fd : ℕ) (hdr : MsgHeader) (s : σ)
    (l : List Char) : ((h.handleMessage fd hdr s).run l).rest = afterPayload hdr l := by
  -- The handlers that read an identifier, and then nothing.
  have hid (k : ℕ → Prog Char σ) (hk : ∀ (id : ℕ) (l : List Char), ((k id).run l).rest = l) :
      ((readId s k).run l).rest = (exact 4 l).2 := by
    rw [readId, Prog.run_bind]
    simp only [Prog.run_readExact]
    split
    · rfl
    · exact hk _ _
  have hdetails (d : Option IpcDownloadDetails) (l : List Char) :
      ((Handlers.sendDetails d).run l).rest = l := by
    cases d <;> simp [Handlers.sendDetails]
  rw [Handlers.handleMessage, afterPayload]
  rcases MsgType.ofCode hdr.type with _ | t
  · rfl
  cases t with
  | addDownload =>
    simp only [Handlers.handleAddDownload, Prog.run_bind]
    cases (readString ipcMaxUrlLen).run l with
    | mk url w r =>
      cases url with
      | none => rfl
      | some url =>
        simp only [Prog.run_bind]
        cases (readString ipcMaxPathLen).run r with
        | mk dest w' r' =>
          cases dest with
          | none => rfl
          | some dest =>
            simp only [Prog.run_bind]
            cases (readString 8192).run r' with
            | mk json w'' r'' => cases json <;> simp
  | browserOffer =>
    simp only [Handlers.handleBrowserOffer, Prog.run_bind, Prog.run_readExact]
    cases (exact hdr.length l).1 <;> simp
  | browserConfirm =>
    simp only [Handlers.handleBrowserConfirm, Prog.run_bind, Prog.run_readExact]
    cases (exact hdr.length l).1 <;> simp
  | getDetails => simp [Handlers.handleGetDetails, hdetails]
  | browserSubscribeProgress =>
    exact hid _ fun id l => by simp only [Prog.run_bind, Prog.run_send, Prog.run_pure]
  | pause => exact hid _ fun id l => by simp
  | resume => exact hid _ fun id l => by simp
  | cancel => exact hid _ fun id l => by simp
  | browserGetOffer => exact hid _ fun id l => by simp
  | browserDismiss => exact hid _ fun id l => by simp
  | list => simp [Handlers.handleList]
  | listAll => simp [run_handleListAll]
  | reloadConfig => simp [Handlers.handleReloadConfig]
  | subscribe => rfl
  | statusEvent => rfl
  | progressEvent => rfl
  | browserProgressEvent => rfl

/-- What the daemon does on a message keeps a property. -/
structure Handlers.Keep {σ : Type} (h : Handlers σ) (P : σ → Prop) : Prop where
  reserve : ∀ s url dest opts, P s → P (h.reserve s url dest opts).1
  offer : ∀ s json, P s → P (h.offer s json).1
  getOffer : ∀ s id, P s → P (h.getOffer s id).1
  confirm : ∀ s offerId pathLen path, P s → P (h.confirm s offerId pathLen path).1
  dismiss : ∀ s id, P s → P (h.dismiss s id).1
  command : ∀ c s id, P s → P (h.command c s id).1
  reload : ∀ s, P s → P (h.reload s)
  subscribe : ∀ s fd, P s → P (h.subscribe s fd)
  watch : ∀ s fd id, P s → P (h.watch s fd id)

theorem Handlers.Keep.run {σ : Type} {h : Handlers σ} {P : σ → Prop} (hP : h.Keep P) {s : σ}
    (hs : P s) (fd : ℕ) (hdr : MsgHeader) (l : List Char) :
    P ((h.handleMessage fd hdr s).run l).value := by
  -- Where no identifier arrives, the state is as it was.
  have hid (k : ℕ → Prog Char σ) (hk : ∀ (id : ℕ) (l : List Char), P ((k id).run l).value) :
      P ((readId s k).run l).value := by
    rw [readId, Prog.run_bind]
    simp only [Prog.run_readExact]
    split
    · exact hs
    · exact hk _ _
  rw [Handlers.handleMessage]
  rcases MsgType.ofCode hdr.type with _ | t
  · exact hs
  cases t with
  | addDownload =>
    simp only [Handlers.handleAddDownload, Prog.run_bind]
    cases (readString ipcMaxUrlLen).run l with
    | mk url w r =>
      cases url with
      | none => exact hs
      | some url =>
        simp only [Prog.run_bind]
        cases (readString ipcMaxPathLen).run r with
        | mk dest w' r' =>
          cases dest with
          | none => exact hs
          | some dest =>
            simp only [Prog.run_bind]
            cases (readString 8192).run r' with
            | mk json w'' r'' =>
              cases json with
              | none => exact hs
              | some json => exact hP.reserve _ _ _ _ hs
  | browserOffer =>
    simp only [Handlers.handleBrowserOffer, Prog.run_bind, Prog.run_readExact]
    cases (exact hdr.length l).1 with
    | none => exact hs
    | some json => exact hP.offer _ _ hs
  | browserConfirm =>
    simp only [Handlers.handleBrowserConfirm, Prog.run_bind, Prog.run_readExact]
    cases (exact hdr.length l).1 with
    | none => exact hs
    | some payload => exact hP.confirm _ _ _ _ hs
  | getDetails =>
    simp only [Handlers.handleGetDetails, Prog.run_bind, Prog.run_pure]
    exact hs
  | browserSubscribeProgress =>
    refine hid _ fun id l => ?_
    simp only [Prog.run_bind, Prog.run_send, Prog.run_pure]
    split_ifs
    · exact hP.watch _ _ _ hs
    · exact hs
  | pause => exact hid _ fun id l => hP.command _ _ _ hs
  | resume => exact hid _ fun id l => hP.command _ _ _ hs
  | cancel => exact hid _ fun id l => hP.command _ _ _ hs
  | browserGetOffer => exact hid _ fun id l => hP.getOffer _ _ hs
  | browserDismiss => exact hid _ fun id l => hP.dismiss _ _ hs
  | list => exact hs
  | listAll =>
    simp only [Prog.run_bind, Prog.run_pure]
    exact hs
  | reloadConfig => exact hP.reload _ hs
  | subscribe => exact hP.subscribe _ _ hs
  | statusEvent => exact hs
  | progressEvent => exact hs
  | browserProgressEvent => exact hs

/-- Two tables have the same clients, with the same bytes in their buffers. -/
structure Clients.SameBuffers (c c' : Clients) : Prop where
  count : c'.count = c.count
  fd : ∀ i, (c'.slots i).fd = (c.slots i).fd
  headerBytes : ∀ i, (c'.slots i).headerBytes = (c.slots i).headerBytes
  header : ∀ i, (c'.slots i).header = (c.slots i).header

theorem Clients.SameBuffers.modifyFd {c c' : Clients} (h : c.SameBuffers c') (fd : ℕ)
    {f : Slot → Slot} (hf : ∀ x, (f x).fd = x.fd ∧ (f x).headerBytes = x.headerBytes ∧
      (f x).header = x.header) : c.SameBuffers (c'.modifyFd fd f) := by
  rw [Clients.modifyFd]
  split
  · exact h
  · rename_i i _
    have hupdate {α : Type} (g : Slot → α) (hg : ∀ x, g (f x) = g x) (j : ℕ) :
        g ((c'.modify i f).slots j) = g (c'.slots j) := by
      by_cases hj : j = i
      · subst hj
        rw [c'.slots_modify_self, hg]
      · rw [c'.slots_modify_of_ne hj]
    exact ⟨h.count, fun j => (hupdate _ (fun x => (hf x).1) j).trans (h.fd j),
      fun j => (hupdate _ (fun x => (hf x).2.1) j).trans (h.headerBytes j),
      fun j => (hupdate _ (fun x => (hf x).2.2) j).trans (h.header j)⟩

/-- A message changes no buffer. -/
theorem sameBuffers_handleMessage (env : ServerEnv) (s : Server) (fd : ℕ) (hdr : MsgHeader)
    (l : List Char) :
    s.clients.SameBuffers ((env.handlers.handleMessage fd hdr s).run l).value.clients := by
  have hkeep : env.handlers.Keep fun t => s.clients.SameBuffers t.clients := by
    refine ⟨fun t _ _ _ h => h, fun t _ h => h, fun t _ h => h, fun t offerId pathLen path h => ?_,
      fun t _ h => h, fun c t _ h => h, fun t h => h, fun t fd h => ?_, fun t fd id h => ?_⟩
    · simp only [ServerEnv.handlers, ServerEnv.confirm]
      split
      · exact h
      · simp only
        split_ifs <;> exact h
    · exact h.modifyFd fd fun x => ⟨rfl, rfl, rfl⟩
    · exact h.modifyFd fd fun x => ⟨rfl, rfl, rfl⟩
  exact hkeep.run ⟨rfl, fun _ => rfl, fun _ => rfl, fun _ => rfl⟩ fd hdr l

/-! ## The frames of a stream -/

theorem afterPayload_suffix (hdr : MsgHeader) (l : List Char) : afterPayload hdr l <:+ l :=
  handleMessage_rest ServerEnv.bare.handlers 0 hdr (.start .bare) l ▸ Prog.run_suffix _ _

/-- What is dispatched for a stream, up to the first invalid header. -/
def frames (l : List Char) : List Dispatch :=
  if l.length < MsgHeader.size then []
  else
    let hdr := frameHeader l
    let payload := l.drop MsgHeader.size
    let rest := afterPayload hdr payload
    if validMessageHeader hdr then
      .handled hdr (payload.take (payload.length - rest.length)) :: frames rest
    else [.rejected hdr]
termination_by l.length
decreasing_by
  have hle := (afterPayload_suffix (frameHeader l) (l.drop MsgHeader.size)).length_le
  rw [List.length_drop, MsgHeader.size] at hle
  rename_i hlt _
  rw [MsgHeader.size] at hlt ⊢
  omega

theorem frames_of_lt {l : List Char} (h : l.length < MsgHeader.size) : frames l = [] := by
  rw [frames, if_pos h]

theorem frames_valid {bytes l : List Char} (h8 : bytes.length = MsgHeader.size)
    (hvalid : validMessageHeader (.ofBytes bytes) = true) :
    frames (bytes ++ l) =
      .handled (.ofBytes bytes)
        (l.take (l.length - (afterPayload (.ofBytes bytes) l).length)) ::
          frames (afterPayload (.ofBytes bytes) l) := by
  have hheader : frameHeader (bytes ++ l) = .ofBytes bytes := by
    rw [frameHeader, List.take_left' h8]
  rw [frames, if_neg (by rw [List.length_append]; omega)]
  simp only [hheader, List.drop_left' h8, hvalid, if_true]

/-- Every frame but the last is that of a valid header. -/
theorem frames_eq_append {l : List Char} {d : Dispatch} {pre post : List Dispatch}
    (h : frames l = pre ++ d :: post) :
    (∃ hdr payload, d = .handled hdr payload ∧ validMessageHeader hdr = true) ∨
      ∃ hdr, d = .rejected hdr ∧ validMessageHeader hdr = false ∧ post = [] := by
  induction l using frames.induct generalizing pre with
  | case1 l hlt =>
    rw [frames_of_lt hlt] at h
    simp at h
  | case2 l hlt =>
    rename_i hvalid ih
    rw [frames, if_neg hlt] at h
    simp only [show validMessageHeader (frameHeader l) = true from hvalid, if_true] at h
    cases pre with
    | nil =>
      simp only [List.nil_append, List.cons.injEq] at h
      exact .inl ⟨_, _, h.1.symm, hvalid⟩
    | cons x pre =>
      simp only [List.cons_append, List.cons.injEq] at h
      exact ih h.2
  | case3 l hlt =>
    rename_i hvalid
    rw [frames, if_neg hlt] at h
    simp only [show ¬validMessageHeader (frameHeader l) = true from hvalid] at h
    cases pre with
    | nil =>
      simp only [List.nil_append] at h
      cases h
      exact .inr ⟨_, rfl, Bool.not_eq_true _ ▸ hvalid, rfl⟩
    | cons x pre => simp at h

theorem frames_invalid {bytes l : List Char} (h8 : bytes.length = MsgHeader.size)
    (hvalid : validMessageHeader (.ofBytes bytes) = false) :
    frames (bytes ++ l) = [.rejected (.ofBytes bytes)] := by
  have hheader : frameHeader (bytes ++ l) = .ofBytes bytes := by
    rw [frameHeader, List.take_left' h8]
  rw [frames, if_neg (by rw [List.length_append]; omega)]
  simp [hheader, hvalid]

end Cdm
