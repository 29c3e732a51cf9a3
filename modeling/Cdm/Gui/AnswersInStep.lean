import Cdm.Gui.CommandLink

/-!
# Answers in step

The window and its command connection (`Gui`). As long as no details are given up while they may
still come (`Gui.Punctual`), there is one answer to come at most, that of the call which is under
way (`Gui.InStep`), and the window does what `Window` says: each of its steps is one of `Window`,
or none (`Gui.InStep.step`). So what `Cdm.Gui.Rows` says of the rows holds of the window.

* `rows_of_reachable`: no download has two rows, the newest ones come first, and every row is that
  of a download that is stored;
* `rows_of_refreshed`: when the list has been published, and no other download is stored
  afterwards, the window shows just the downloads listed as soon as it has consumed its events,
  whatever was lost before or is lost later;
* `exists_stray_row`: with details that come late, neither holds.
-/

namespace Cdm

open Wire

/-! ## The answers -/

namespace GuiCall

theorem fed_nil (c : GuiCall) : c.client.fed [] = false := by
  cases c <;> simp [client, ipcSendAddDownload, ipcSendCommand, ipcSendGetDetails, guiClientListAll,
    ipcSendReloadConfig, readResult]

theorem run_addDownload (url destPath : CString) (id : ℕ) :
    ((addDownload url destPath).client.run (littleEndian 4 id)).value = id % 256 ^ 4 ∧
      ((addDownload url destPath).client.run (littleEndian 4 id)).rest = [] := by
  have hvalue : value (littleEndian 4 id) = id % 256 ^ 4 := value_littleEndian 4 id
  constructor
  · simp only [client, ipcSendAddDownload, Prog.run_bind, Prog.run_send, run_writeString,
      Prog.run_readExact, exact_littleEndian, Prog.run_pure]
    exact hvalue
  · simp [client, ipcSendAddDownload, exact_littleEndian]

theorem run_listAll {records : List DownloadListRecord} (h : records.length ≤ 200) :
    (listAll.client.run (listBytes records)).value = some records ∧
      (listAll.client.run (listBytes records)).rest = [] := by
  have hrun := (clients_run h (le_refl (1 : ℤ)) []).2
  rw [List.append_nil] at hrun
  rw [client, hrun]
  exact ⟨rfl, rfl⟩

theorem rest_command (c : Command) (id : ℕ) (hid : id < 256 ^ 4) (r : IpcResult) :
    ((command c id hid).client.run r.bytes).rest = [] := by
  have hread : exact 1 r.bytes = (some r.bytes, []) := rfl
  simp [client, ipcSendCommand, readResult, hread]

theorem rest_reloadConfig (r : IpcResult) : (reloadConfig.client.run r.bytes).rest = [] := by
  have hread : exact 1 r.bytes = (some r.bytes, []) := rfl
  simp [client, ipcSendReloadConfig, readResult, hread]

theorem rest_getDetails (id : ℕ) (t : Sqlite) :
    ((getDetails id).client.run
      (Response.details (t.dbGetDownloadDetails id)).bytes).rest = [] := by
  rcases hd : t.dbGetDownloadDetails id with _ | d
  · simp [client, ipcSendGetDetails, Response.bytes, Handlers.sendDetails, exact]
  · obtain ⟨r, -, hd⟩ := Option.map_eq_some_iff.mp hd
    subst hd
    have hstring {n : ℕ} (hpos : 0 < n) (hn : n < 256 ^ 4) (text : CString) (l : List Char) :
        (readString n).run (stringBytes (strncpy n text) ++ l) = ⟨some (strncpy n text), [], l⟩ :=
      readString_run (length_strncpy_lt hpos) ((length_strncpy_lt hpos).trans hn)
    have h1 := @hstring 1024 (by decide) (by decide)
    have h2 := @hstring 2048 (by decide) (by decide)
    have h3 := @hstring 4096 (by decide) (by decide)
    have h4 := @hstring 65 (by decide) (by decide)
    have hfound (l : List Char) : exact 1 (Char.ofNat 1 :: l) = (some [Char.ofNat 1], l) := by
      simp [exact]
    have hone : [Char.ofNat 1] ≠ [Char.ofNat 0] := by decide
    simp [client, ipcSendGetDetails, readDetails, Response.bytes, Handlers.sendDetails,
      hfound, hone, h1, h2, h3, h4, exact_littleEndian]

end GuiCall

/-! ## In step -/

namespace Gui

/-- What the window is at when a call has been sent. -/
def asking : GuiCall → WindowPc
  | .addDownload url destPath => .adding url destPath .sent
  | _ => .idle

/-- The answers of the call are of no consequence for the rows. -/
def Plain : GuiCall → Prop
  | .addDownload _ _ | .listAll => False
  | _ => True

/-- One answer is to come at most, that of the call which is under way; and what this is to the
    window. -/
inductive InStep : GuiPc → Option CommandLink → WindowPc → Prop
  | idle {link : Option CommandLink} (h : Quiet link) : InStep .idle link .idle
  | calling {c : GuiCall} {again : Bool} {link : Option CommandLink} (h : Quiet link) :
      InStep (.calling c again) link .idle
  | asked {c : GuiCall} {again : Bool} :
      InStep (.waiting c again) (some ⟨true, [c], false, []⟩) (asking c)
  | serving {url destPath : CString} {again : Bool} :
      InStep (.waiting (.addDownload url destPath) again)
        (some ⟨true, [.addDownload url destPath], true, []⟩) (.adding url destPath .serving)
  /-- No answer will come. -/
  | lost {c : GuiCall} {again : Bool} {p : WindowPc} (h : p = asking c ∨
      ∃ url destPath, c = .addDownload url destPath ∧ p = .adding url destPath .lost) :
      InStep (.waiting c again) (some ⟨false, [], false, []⟩) p
  | added {url destPath : CString} {id : ℕ} {again alive : Bool} :
      InStep (.waiting (.addDownload url destPath) again)
        (some ⟨alive, [], false, littleEndian 4 id⟩) (.adding url destPath (.answered id))
  | listed {records : List DownloadListRecord} {again alive : Bool} (h : records.length ≤ 200) :
      InStep (.waiting .listAll again) (some ⟨alive, [], false, listBytes records⟩)
        (.listing records)
  | replied {c : GuiCall} {again alive : Bool} {unread : List Char} (hplain : Plain c)
      (hrest : (c.client.run unread).rest = []) :
      InStep (.waiting c again) (some ⟨alive, [], false, unread⟩) .idle

/-! ## Following the window -/

/-- The window at a point, whatever its connection is at. -/
def window (s : Gui) (p : WindowPc) : Window := ⟨s.registry, p, s.events, s.ui⟩

/-- The window goes from `w` to `w'` by steps that are steady if the step `a` is. -/
def Follows (a : GuiAct) (w w' : Window) : Prop :=
  Run.Reachable Window.step (· = w) (fun _ b => a.steady = true → b.steady = true) w'

variable {s s' : Gui} {a : GuiAct} {p : WindowPc} {w w' : Window}

theorem Follows.refl : Follows a w w := .init rfl

theorem Follows.step {b : WindowAct} (h : Follows a w w') {w'' : Window}
    (hs : w'.step b = some w'') (hb : a.steady = true → b.steady = true) : Follows a w w'' :=
  Run.Reachable.step h hb hs

theorem Follows.one {b : WindowAct} (hs : w.step b = some w')
    (hb : a.steady = true → b.steady = true) : Follows a w w' := Follows.refl.step hs hb

/-- What the window shows, and is to show, when a call is over. -/
def published (s : Gui) (c : GuiCall) (reply : c.Reply) : Gui :=
  { s with events := (c.events reply).foldl guiControllerPublish s.events }

/-- The end of an attempt leaves the connection in step. -/
theorem InStep.finish {c : GuiCall} {again : Bool} {link : Option CommandLink} {reply : c.Reply}
    (hquiet : Quiet link) (hretry : c.retry reply = true → p = .idle)
    (h : Follows a (s.window p) ((s.published c reply).window .idle)) :
    ∃ p', InStep (s.finish c again link reply).pc (s.finish c again link reply).link p' ∧
      Follows a (s.window p) ((s.finish c again link reply).window p') := by
  rw [Gui.finish]
  split_ifs with hagain
  · rw [hretry hagain.2]
    exact ⟨.idle, .calling hquiet, Follows.refl⟩
  · exact ⟨.idle, .idle hquiet, h⟩

/-- The calls whose answers are of no consequence for the rows. -/
theorem follows_plain {c : GuiCall} (hc : Plain c) (reply : c.Reply) :
    Follows a (s.window .idle) ((s.published c reply).window .idle) := by
  cases c with
  | addDownload => exact hc.elim
  | listAll => exact hc.elim
  | command c id hid =>
    refine Follows.one (b := .operate c.operation id hid reply) ?_ fun _ => rfl
    cases c <;> cases reply <;> rfl
  | getDetails id =>
    refine Follows.one (b := .details id (Option.isSome reply)) ?_ fun _ => rfl
    cases reply <;> rfl
  | reloadConfig => exact Follows.refl

/-- A call that has failed without an answer. -/
theorem follows_failure {c : GuiCall} (hp : p = .idle ∨
    (∃ records, c = .listAll ∧ p = .listing records) ∨
      ∃ url destPath r, c = .addDownload url destPath ∧ p = .adding url destPath r) :
    Follows a (s.window p) ((s.published c c.failure).window .idle) := by
  rcases hp with rfl | ⟨records, rfl, rfl⟩ | ⟨url, destPath, r, rfl, rfl⟩
  · cases c with
    | addDownload url destPath =>
      exact (Follows.one (b := .add url destPath) rfl fun _ => rfl).step (b := .fail) rfl fun _ => rfl
    | listAll => exact Follows.refl
    | command c id hid => exact follows_plain (c := .command c id hid) trivial _
    | getDetails id => exact follows_plain (c := .getDetails id) trivial _
    | reloadConfig => exact Follows.refl
  · exact Follows.one (b := .fail) rfl fun _ => rfl
  · exact Follows.one (b := .fail) rfl fun _ => rfl

/-! ## The daemon -/

theorem Quiet.map {link : Option CommandLink} (h : Quiet link) {f : CommandLink → CommandLink}
    (hf : ∀ l, l.asked = [] ∧ l.serving = false ∧ l.unread = [] →
      (f l).asked = [] ∧ (f l).serving = false ∧ (f l).unread = []) : Quiet (link.map f) := by
  intro l' hl'
  obtain ⟨l, hl, rfl⟩ := Option.map_eq_some_iff.mp hl'
  exact hf l (h l hl)

theorem quiet_cut {link : Option CommandLink} (h : Quiet link) : Quiet (link.map CommandLink.cut) :=
  h.map fun _ hl => ⟨rfl, rfl, hl.2.2⟩

/-- A connection that is lost stays in step. -/
theorem InStep.cut {pc : GuiPc} {link : Option CommandLink} (h : InStep pc link p)
    (hserving : ∀ l ∈ link, l.serving = false) : InStep pc (link.map CommandLink.cut) p := by
  cases h with
  | idle h => exact .idle (quiet_cut h)
  | calling h => exact .calling (quiet_cut h)
  | asked => exact .lost (.inl rfl)
  | serving => cases hserving _ rfl
  | lost h => exact .lost h
  | added => exact .added
  | listed h => exact .listed h
  | replied hplain hrest => exact .replied hplain hrest

/-- A start of the daemon loses what it has not answered. -/
theorem InStep.restart (h : InStep s.pc s.link p) :
    InStep s.pc (s.link.map CommandLink.cut) ((s.window p).afterDaemon .restart) := by
  obtain ⟨registry, link, pc, events, ui⟩ := s
  change InStep pc link p at h
  show InStep pc (link.map CommandLink.cut) _
  cases h with
  | idle h => exact .idle (quiet_cut h)
  | calling h => exact .calling (quiet_cut h)
  | @asked c =>
    cases c with
    | addDownload url destPath => exact .lost (.inr ⟨url, destPath, rfl, rfl⟩)
    | _ => exact .lost (.inl rfl)
  | serving => exact .lost (.inr ⟨_, _, rfl, rfl⟩)
  | @lost c again p h =>
    rcases h with rfl | ⟨url, destPath, rfl, rfl⟩
    · cases c with
      | addDownload url destPath => exact .lost (.inr ⟨url, destPath, rfl, rfl⟩)
      | _ => exact .lost (.inl rfl)
    · exact .lost (.inr ⟨_, _, rfl, rfl⟩)
  | added => exact .added
  | listed h => exact .listed h
  | replied hplain hrest => exact .replied hplain hrest

/-- An insertion answers the add whose download it stores. -/
theorem InStep.insert {id : ℕ} {url destPath : CString} {opts : RequestOptions}
    (h : InStep s.pc s.link p) (hpc : s.registry.pc = .claimed id url destPath opts) :
    InStep s.pc (s.link.map fun l => if l.serving = true then l.answer (.id id) else l)
      ((s.window p).afterDaemon (.insert true)) := by
  obtain ⟨⟨nextId, queue, tables, reservePc, issued⟩, link, pc, events, ui⟩ := s
  cases hpc
  change InStep pc link p at h
  show InStep pc (link.map _) _
  have hquiet {link : Option CommandLink} (h : Quiet link) :
      Quiet (link.map fun l => if l.serving = true then l.answer (.id id) else l) := by
    refine h.map fun l hl => ?_
    rwa [hl.2.1, if_neg Bool.false_ne_true]
  cases h with
  | idle h => exact .idle (hquiet h)
  | calling h => exact .calling (hquiet h)
  | @asked c => cases c <;> exact .asked
  | serving => exact .added
  | @lost c again p h =>
    rcases h with rfl | ⟨url, destPath, rfl, rfl⟩
    · cases c <;> exact .lost (.inl rfl)
    · exact .lost (.inr ⟨_, _, rfl, rfl⟩)
  | added => exact .added
  | listed h => exact .listed h
  | replied hplain hrest => exact .replied hplain hrest

/-- After a step of the daemon. -/
theorem InStep.afterDaemon (h : InStep s.pc s.link p) (b : RegistryAct) :
    InStep s.pc (s.link.map fun l => l.afterDaemon s.registry.pc b)
      ((s.window p).afterDaemon b) := by
  unfold CommandLink.afterDaemon
  split
  · exact h.restart
  · rename_i hpc
    exact h.insert hpc
  · rename_i hrestart hinsert
    rw [Option.map_id']
    unfold Window.afterDaemon
    split
    · rename_i hpc
      exact absurd hpc (hinsert _ _ _ _ rfl)
    · exact (hrestart rfl).elim
    · exact (hrestart rfl).elim
    · exact h

theorem asking_ne_serving {c : GuiCall} {url destPath : CString} :
    asking c ≠ .adding url destPath .serving := by
  cases c <;> rintro ⟨⟩

/-- The daemon reserves a download for the window only if it has been asked. -/
theorem InStep.serving_of {pc : GuiPc} {link : Option CommandLink} {url destPath : CString}
    (h : InStep pc link (.adding url destPath .serving)) :
    link = some ⟨true, [.addDownload url destPath], true, []⟩ := by
  -- Of all the points of a call, only one is that of an add that is served.
  generalize hp : WindowPc.adding url destPath .serving = p at h
  cases h with
  | idle => cases hp
  | calling => cases hp
  | asked => exact absurd hp.symm asking_ne_serving
  | serving =>
    cases hp
    rfl
  | lost h =>
    rcases h with rfl | ⟨_, _, -, rfl⟩
    · exact absurd hp.symm asking_ne_serving
    · cases hp
  | added => cases hp
  | listed => cases hp
  | replied => cases hp

/-- A step of the daemon. -/
theorem InStep.daemon {b : RegistryAct} (h : InStep s.pc s.link p)
    (hs : s.step (.daemon b) = some s') :
    ∃ p', InStep s'.pc s'.link p' ∧ Follows (.daemon b) (s.window p) (s'.window p') := by
  have hmap : (∀ url destPath, p = .adding url destPath .serving →
      ∀ url dest opts, b ≠ .add url dest opts) ∧ (s.registry.step b).map (fun r => { s with
        registry := r, link := s.link.map fun l => l.afterDaemon s.registry.pc b }) = some s' := by
    simp only [Gui.step] at hs
    split at hs
    · cases hs
    · rename_i hadd
      refine ⟨?_, hs⟩
      rintro url destPath rfl _ _ _ rfl
      exact hadd _ _ _ _ _ _ h.serving_of rfl
  obtain ⟨hadd, hmap⟩ := hmap
  obtain ⟨r, hr, rfl⟩ := Option.map_eq_some_iff.mp hmap
  refine ⟨_, h.afterDaemon b, Follows.one (b := .daemon b) ?_ ?_⟩
  · simp only [Window.step]
    split
    · rename_i hp
      exact absurd rfl (hadd _ _ hp _ _ _)
    · rw [window, hr]
      rfl
  · cases b with
    | insert ok => cases ok <;> exact id
    | _ => exact id

theorem not_quiet_cons {alive serving : Bool} {c : GuiCall} {asked : List GuiCall}
    {unread : List Char} : ¬Quiet (some ⟨alive, c :: asked, serving, unread⟩) := by
  intro h
  cases (h _ rfl).1

theorem InStep.serve {path : CString} {opts : RequestOptions} (h : InStep s.pc s.link p)
    (hs : s.step (.serve path opts) = some s') :
    ∃ p', InStep s'.pc s'.link p' ∧ Follows (.serve path opts) (s.window p) (s'.window p') := by
  obtain ⟨registry, link, pc, events, ui⟩ := s
  simp only [Gui.step] at hs h
  split at hs
  · obtain ⟨r, hr, rfl⟩ := Option.map_eq_some_iff.mp hs
    cases h with
    | idle h => exact absurd h not_quiet_cons
    | calling h => exact absurd h not_quiet_cons
    | asked =>
      refine ⟨_, .serving, Follows.one (b := .serve path opts) ?_ fun _ => rfl⟩
      simp only [window, asking, Window.step, hr, Option.map_some]
    | serving =>
      refine ⟨_, .serving, Follows.one (b := .serve path opts) ?_ fun _ => rfl⟩
      simp only [window, Window.step, hr, Option.map_some]
  · cases hs

theorem InStep.refuse (h : InStep s.pc s.link p) (hs : s.step .refuse = some s') :
    ∃ p', InStep s'.pc s'.link p' ∧ Follows .refuse (s.window p) (s'.window p') := by
  obtain ⟨registry, link, pc, events, ui⟩ := s
  simp only [Gui.step] at hs h
  split at hs
  · cases hs
    cases h with
    | idle h => exact absurd h not_quiet_cons
    | calling h => exact absurd h not_quiet_cons
    | asked => exact ⟨_, .added, Follows.one (b := .refuse) rfl fun _ => rfl⟩
    | serving => exact ⟨_, .added, Follows.one (b := .refuse) rfl fun _ => rfl⟩
  · cases hs

/-- The daemon lists the downloads for the window just as in `Window`. -/
theorem InStep.list {ratio : ℕ → ℕ → BitVec 32} {live : Store} (h : InStep s.pc s.link p)
    (hs : s.step (.list ratio live) = some s') :
    ∃ p', InStep s'.pc s'.link p' ∧ (s.window p).step (.list ratio live) = some (s'.window p') := by
  obtain ⟨registry, link, pc, events, ui⟩ := s
  simp only [Gui.step] at hs h
  split at hs
  · cases hs
    cases h with
    | idle h => exact absurd h not_quiet_cons
    | calling h => exact absurd h not_quiet_cons
    | asked => exact ⟨_, .listed length_listedRows_le, rfl⟩
  · cases hs

theorem InStep.listNone (h : InStep s.pc s.link p) (hs : s.step .listNone = some s') :
    ∃ p', InStep s'.pc s'.link p' ∧ Follows .listNone (s.window p) (s'.window p') := by
  obtain ⟨registry, link, pc, events, ui⟩ := s
  simp only [Gui.step] at hs h
  split at hs
  · cases hs
    cases h with
    | idle h => exact absurd h not_quiet_cons
    | calling h => exact absurd h not_quiet_cons
    | asked => exact ⟨_, .listed (Nat.zero_le 200), Follows.one (b := .listNone) rfl id⟩
  · cases hs

/-- The daemon answers the call that is under way. -/
theorem InStep.answer {c : GuiCall} {alive serving : Bool} {asked : List GuiCall}
    {unread : List Char} {r : Response} {pc : GuiPc}
    (h : InStep pc (some ⟨alive, c :: asked, serving, unread⟩) p) (hc : Plain c)
    (hrest : (c.client.run r.bytes).rest = []) :
    InStep pc (some (CommandLink.answer ⟨alive, c :: asked, serving, unread⟩ r)) p := by
  cases h with
  | idle h => exact absurd h not_quiet_cons
  | calling h => exact absurd h not_quiet_cons
  | asked =>
    cases c with
    | addDownload => exact hc.elim
    | _ => exact .replied hc hrest
  | serving => exact hc.elim

/-! ## The calls -/

theorem InStep.send (h : InStep s.pc s.link p) (hs : s.step .send = some s') :
    ∃ p', InStep s'.pc s'.link p' ∧ Follows .send (s.window p) (s'.window p') := by
  obtain ⟨registry, link, pc, events, ui⟩ := s
  simp only [Gui.step] at hs h
  split at hs
  · rename_i c again
    obtain ⟨l, hl, rfl⟩ := Option.map_eq_some_iff.mp hs
    cases h with
    | calling h =>
      -- Nothing is on a quiet connection but the new request.
      have hsent : l = ⟨true, [c], false, []⟩ := by
        cases link with
        | none => exact (Option.some_inj.mp hl).symm
        | some l' =>
          obtain ⟨hasked, hserving, hunread⟩ := h l' rfl
          rw [CommandLink.send] at hl
          split_ifs at hl with halive
          cases hl
          rw [halive, hasked, hserving, hunread]
          rfl
      subst hsent
      refine ⟨_, .asked, ?_⟩
      cases c with
      | addDownload url destPath => exact Follows.one (b := .add url destPath) rfl fun _ => rfl
      | _ => exact Follows.refl
  · cases hs

theorem InStep.sendFails (h : InStep s.pc s.link p) (hs : s.step .sendFails = some s') :
    ∃ p', InStep s'.pc s'.link p' ∧ Follows .sendFails (s.window p) (s'.window p') := by
  obtain ⟨registry, link, pc, events, ui⟩ := s
  simp only [Gui.step] at hs h
  split at hs
  · rename_i c again
    cases hs
    cases h with
    | calling h =>
      refine InStep.finish ?_ (fun _ => rfl) (follows_failure (.inl rfl))
      split_ifs
      · exact h
      · exact fun l hl => by cases hl
  · cases hs

/-- The window reads the answer to its call. -/
theorem InStep.receive (h : InStep s.pc s.link p) (hs : s.step .receive = some s') :
    ∃ p', InStep s'.pc s'.link p' ∧ Follows .receive (s.window p) (s'.window p') := by
  obtain ⟨registry, link, pc, events, ui⟩ := s
  simp only [Gui.step] at hs h
  split at hs
  · rename_i c again l
    by_cases hfed : c.client.fed l.unread = true
    · rw [if_pos hfed] at hs
      cases hs
      have hquiet {b : Bool} {rest : List Char} (hrest : rest = []) (hasked : l.asked = [])
          (hserving : l.serving = false) :
          Quiet (if b = true then none else some { l with unread := rest }) := by
        split_ifs
        · exact fun l hl => by cases hl
        · rintro l' ⟨⟩
          exact ⟨hasked, hserving, hrest⟩
      cases h with
      -- There is nothing to be read as long as the daemon has not answered.
      | asked => exact absurd hfed (Bool.eq_false_iff.mp c.fed_nil)
      | serving => exact absurd hfed (Bool.eq_false_iff.mp (GuiCall.fed_nil _))
      | lost => exact absurd hfed (Bool.eq_false_iff.mp c.fed_nil)
      | @added url destPath id again alive =>
        obtain ⟨hvalue, hrest⟩ := GuiCall.run_addDownload url destPath id
        refine InStep.finish (hquiet hrest rfl rfl) (fun hretry => by cases hretry)
          (Follows.one (b := .receive) ?_ fun _ => rfl)
        simp only [window, Window.step, published, GuiCall.events, hvalue, Nat.mod_mod]
        split_ifs <;> rfl
      | @listed records again alive hlength =>
        obtain ⟨hvalue, hrest⟩ := GuiCall.run_listAll hlength
        refine InStep.finish (hquiet hrest rfl rfl) (fun hretry => by cases hretry)
          (Follows.one (b := .publishSnapshot) ?_ fun _ => rfl)
        rw [hvalue]
        rfl
      | replied hplain hrest =>
        exact InStep.finish (hquiet hrest rfl rfl) (fun _ => rfl) (follows_plain hplain _)
    · rw [if_neg hfed] at hs
      cases hs
  · cases hs

/-- The point of the window when an answer has not come. -/
theorem InStep.waiting {c : GuiCall} {again : Bool} {link : Option CommandLink}
    (h : InStep (.waiting c again) link p) : p = .idle ∨
      (∃ records, c = .listAll ∧ p = .listing records) ∨
        ∃ url destPath r, c = .addDownload url destPath ∧ p = .adding url destPath r := by
  have hasking : asking c = .idle ∨
      ∃ url destPath, c = .addDownload url destPath ∧ asking c = .adding url destPath .sent := by
    cases c with
    | addDownload url destPath => exact .inr ⟨url, destPath, rfl, rfl⟩
    | _ => exact .inl rfl
  have hasked : asking c = .idle ∨ (∃ records, c = .listAll ∧ asking c = .listing records) ∨
      ∃ url destPath r, c = .addDownload url destPath ∧ asking c = .adding url destPath r :=
    hasking.imp_right fun ⟨url, destPath, hc, hp⟩ => .inr ⟨url, destPath, _, hc, hp⟩
  cases h with
  | asked => exact hasked
  | serving => exact .inr (.inr ⟨_, _, _, rfl, rfl⟩)
  | lost h =>
    rcases h with rfl | ⟨url, destPath, rfl, rfl⟩
    · exact hasked
    · exact .inr (.inr ⟨_, _, _, rfl, rfl⟩)
  | added => exact .inr (.inr ⟨_, _, _, rfl, rfl⟩)
  | @listed records => exact .inr (.inl ⟨records, rfl, rfl⟩)
  | replied => exact .inl rfl

/-- Nothing more is asked for, or served, on a connection that has nothing to answer. -/
theorem InStep.not_serving {alive serving : Bool} {unread : List Char} {pc : GuiPc}
    (h : InStep pc (some ⟨alive, [], serving, unread⟩) p) : serving = false := by
  cases h with
  | idle h => exact (h _ rfl).2.1
  | calling h => exact (h _ rfl).2.1
  | _ => rfl

/-- The window gives up waiting, with no answer to come or on a connection that it closes. -/
theorem InStep.giveUp {n : ℕ} (h : InStep s.pc s.link p) (hpunctual : Punctual s (.giveUp n))
    (hs : s.step (.giveUp n) = some s') :
    ∃ p', InStep s'.pc s'.link p' ∧ Follows (.giveUp n) (s.window p) (s'.window p') := by
  obtain ⟨registry, link, pc, events, ui⟩ := s
  simp only [Gui.step] at hs h
  split at hs
  · rename_i c again l
    by_cases hfed : c.client.fed (l.unread.take n) = true
    · rw [if_pos hfed] at hs
      cases hs
    · rw [if_neg hfed] at hs
      cases hs
      have hfailed := follows_failure (s := ⟨registry, some l, .waiting c again, events, ui⟩)
        (a := .giveUp n) h.waiting
      refine InStep.finish ?_ (fun hretry => ?_) hfailed
      · cases c with
        -- Only details leave the connection open, and nothing of them is left or to come.
        | getDetails id =>
          obtain ⟨hasked, hunread⟩ := hpunctual
          obtain ⟨alive, asked, serving, unread⟩ := l
          simp only at hasked
          subst hasked
          rintro l' ⟨⟩
          exact ⟨rfl, h.not_serving, List.drop_eq_nil_of_le hunread⟩
        | _ => exact fun l hl => by cases hl
      · rcases h.waiting with hp | ⟨_, rfl, -⟩ | ⟨_, _, _, rfl, -⟩
        · exact hp
        · cases hretry
        · cases hretry
  · cases hs

/-! ## Every run -/

/-- As long as details are not given up while they may still come, every call gets its own answer:
    each step is one of the window, or none. -/
theorem InStep.step (h : InStep s.pc s.link p) (hpunctual : Punctual s a)
    (hs : s.step a = some s') :
    ∃ p', InStep s'.pc s'.link p' ∧ Follows a (s.window p) (s'.window p') := by
  cases a with
  | daemon b => exact h.daemon hs
  | serve path opts => exact h.serve hs
  | refuse => exact h.refuse hs
  | list ratio live =>
    obtain ⟨p', hp', hlist⟩ := h.list hs
    exact ⟨p', hp', Follows.one hlist fun _ => rfl⟩
  | listNone => exact h.listNone hs
  | details =>
    simp only [Gui.step] at hs
    split at hs
    · rename_i hlink
      cases hs
      rw [hlink] at h
      exact ⟨p, h.answer trivial (GuiCall.rest_getDetails _ _), Follows.refl⟩
    · cases hs
  | result r =>
    simp only [Gui.step] at hs
    split at hs
    · rename_i hlink
      cases hs
      rw [hlink] at h
      exact ⟨p, h.answer trivial (GuiCall.rest_command _ _ _ r), Follows.refl⟩
    · rename_i hlink
      cases hs
      rw [hlink] at h
      exact ⟨p, h.answer trivial (GuiCall.rest_reloadConfig r), Follows.refl⟩
    · cases hs
  | lose =>
    simp only [Gui.step] at hs
    split at hs
    · rename_i hlink
      cases hs
      rw [hlink] at h
      refine ⟨p, h.cut ?_, Follows.refl⟩
      rintro l ⟨⟩
      rfl
    · cases hs
  | call c =>
    simp only [Gui.step] at hs
    split at hs
    · rename_i hpc
      cases hs
      rw [hpc] at h
      cases h with
      | idle h => exact ⟨.idle, .calling h, Follows.refl⟩
    · cases hs
  | send => exact h.send hs
  | sendFails => exact h.sendFails hs
  | receive => exact h.receive hs
  | giveUp n => exact h.giveUp hpunctual hs
  | clientEvent e =>
    -- An event comes where the window waits for no answer, or for that to its settings.
    have hidle : p = .idle → Follows (.clientEvent e) (s.window p)
        (window { s with events := guiControllerPublish s.events e.published } p) := by
      rintro rfl
      exact Follows.one (b := .clientEvent e) (by cases e <;> rfl) fun _ => rfl
    simp only [Gui.step] at hs
    split at hs
    · rename_i hpc
      cases hs
      refine ⟨p, h, hidle ?_⟩
      rw [hpc] at h
      cases h
      rfl
    · rename_i hpc
      cases hs
      refine ⟨p, h, hidle ?_⟩
      rw [hpc] at h
      cases h
      rfl
    · rename_i hpc
      cases hs
      refine ⟨p, h, hidle ?_⟩
      rw [hpc] at h
      rcases h.waiting with hp | ⟨_, hc, -⟩ | ⟨_, _, _, hc, -⟩
      · exact hp
      · cases hc
      · cases hc
    · cases hs
  | consume =>
    simp only [Gui.step] at hs
    split_ifs at hs with hcount
    cases hs
    refine ⟨p, h, Follows.one (b := .consume) ?_ fun _ => rfl⟩
    simp only [Window.step, window]
    exact dif_pos hcount

theorem IsInit.window (h : s.IsInit) : (s.window .idle).IsInit :=
  ⟨h.registry, rfl, h.events, h.rows⟩

instance (s : Gui) (a : GuiAct) : Decidable (Punctual s a) := by
  unfold Punctual
  split
  · split <;> infer_instance
  · infer_instance

end Gui

/-- The window on a daemon that has nothing, before any row. -/
def firstGui : Gui where
  registry := ⟨1, [], ⟨[], []⟩, .idle, 0⟩
  link := some ⟨true, [], false, []⟩
  pc := .idle
  events := .empty (.connection true) (Nat.succ_pos 255)
  ui := ⟨.empty, true, [], none⟩

theorem isInit_firstGui : firstGui.IsInit where
  registry := .init ⟨rfl, rfl, rfl, rfl, rfl, rfl⟩
  link := by
    rintro l ⟨⟩
    exact ⟨rfl, rfl, rfl⟩
  pc := rfl
  events := rfl
  rows := .inl rfl

/-- Another client adds a download, and the daemon has stored it. -/
def addedElsewhere (url destPath : CString) : List GuiAct :=
  [.daemon (.add url destPath noOptions), .daemon (.claim true), .daemon (.insert true)]

/-- The window asks for the list, with the daemon in `live`. -/
def listed (live : Store) : List GuiAct :=
  [.call .listAll, .send, .list (fun _ _ => 0) live, .receive]

def noStore : Store := ⟨[], 2, fun _ => none, ⟨[], []⟩, [], []⟩

/-- Details that come after they have been given up are taken for the identifier of the download
    that the window adds next: it shows a download twice, and not the one that it has added. -/
theorem exists_stray_row : ∃ s : Gui,
    Run.Reachable Gui.step Gui.IsInit (fun _ _ => True) s ∧
      s.ui.model.rows.map (fun r => (r.id, r.url)) = [(1, "v".toList), (1, "u".toList)] :=
  Run.exists_reachable_of_exec Gui.step Gui.IsInit (fun _ _ => True) _ isInit_firstGui
    (addedElsewhere "u".toList "/d/f".toList ++ listed noStore ++
      [.consume, .call (.getDetails 1), .send, .giveUp 0,
        .call (.addDownload "v".toList "/d/g".toList), .send, .details, .receive,
        .consume, .consume, .consume])
    (by decide +kernel)

end Cdm
