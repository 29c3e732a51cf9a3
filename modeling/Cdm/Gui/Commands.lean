import Cdm.Platform.Requests
import Cdm.Lib.RingBuffer
import Cdm.Lib.Run

/-!
# Commands of the interface

`gui/gui_controller.c`: the thread of the interface puts commands into a ring of 64 slots, and
the controller thread takes and processes them. A command taken is a copy of its slot, but the
pointers of its options still point to the texts in the slot, which are read while the command
is processed. The slot is used again by an enqueue while 63 other commands wait.

`processed_of_spares`: unless an enqueue changes a text that is still to be read, the commands
are processed in order, and each add is sent with the texts that were given. An enqueue that
does change one leads to an add with a wrong text (`misread_of_not_spares`).
-/

namespace Cdm

inductive GuiControllerCommandType
  | add
  | pause
  | resume
  | cancel
  | details
  deriving DecidableEq

/-- The texts of the options. -/
inductive OptionText
  | cookie
  | referrer
  | extraHeaders
  | expectedSha256
  deriving DecidableEq

namespace OptionText

/-- The size of the array for the text in a command. -/
def capacity : OptionText → ℕ
  | cookie => 1024
  | referrer => 2048
  | extraHeaders => 4096
  | expectedSha256 => 65

/-- In the order in which they are read. -/
def all : List OptionText := [cookie, referrer, extraHeaders, expectedSha256]

theorem mem_all (f : OptionText) : f ∈ all := by cases f <;> decide

end OptionText

namespace IpcDownloadOptions

def text (o : IpcDownloadOptions) : OptionText → Option CString
  | .cookie => o.cookie
  | .referrer => o.referrer
  | .extraHeaders => o.extraHeaders
  | .expectedSha256 => o.expectedSha256

def ofTexts (text : OptionText → Option CString) (speedLimitBps : ℕ) : IpcDownloadOptions :=
  ⟨text .cookie, text .referrer, text .extraHeaders, text .expectedSha256, speedLimitBps⟩

/-- Whether there is anything to send. -/
def nonempty (o : IpcDownloadOptions) : Bool :=
  OptionText.all.any (fun f => (o.text f).isSome) || 0 < o.speedLimitBps

@[simp] theorem text_ofTexts (text : OptionText → Option CString) (n : ℕ) :
    (ofTexts text n).text = text := by
  funext f
  cases f <;> rfl

end IpcDownloadOptions

/-- What the interface asks for. -/
inductive GuiRequest
  | add (url destPath : CString) (options : Option IpcDownloadOptions)
  | pause (id : ℕ)
  | resume (id : ℕ)
  | cancel (id : ℕ)
  | details (id : ℕ)

/-- What is asked for: options with nothing to send are as good as none. -/
def GuiRequest.given : GuiRequest → GuiRequest
  | .add url destPath options => .add url destPath (options.filter (·.nonempty))
  | r => r

/-- A command; its options point to texts at places of type `ρ`. -/
structure GuiControllerCommand (ρ : Type) where
  type : GuiControllerCommandType
  id : ℕ
  url : CString
  destPath : CString
  /-- `none` is a null pointer. -/
  options : OptionText → Option ρ
  speedLimitBps : ℕ
  /-- The arrays `cookie`, `referrer`, `extra_headers` and `expected_sha256`. -/
  text : OptionText → CString

namespace GuiControllerCommand

variable {ρ σ : Type}

/-- `gui_controller_enqueue_add`, up to the enqueue; the pointers are to the command itself. -/
def ofAdd (url destPath : CString) (options : Option IpcDownloadOptions) :
    GuiControllerCommand Unit where
  type := .add
  id := 0
  url := strncpy ipcMaxUrlLen url
  destPath := strncpy ipcMaxPathLen destPath
  options f := (options.bind (·.text f)).map fun _ => ()
  speedLimitBps := (options.map (·.speedLimitBps)).getD 0
  text f := strncpy f.capacity ((options.bind (·.text f)).getD [])

/-- `enqueue_id_command`, up to the enqueue. -/
def ofId (type : GuiControllerCommandType) (id : ℕ) : GuiControllerCommand Unit where
  type := type
  id := id
  url := []
  destPath := []
  options _ := none
  speedLimitBps := 0
  text _ := []

/-- The command with its pointers to the texts in the slot `k`. -/
def inSlot (c : GuiControllerCommand ρ) (k : ℕ) : GuiControllerCommand ℕ :=
  { c with options := fun f => (c.options f).map fun _ => k }

/-- What `process_command` asks the client for, having read the texts of the options. -/
def request (c : GuiControllerCommand ρ) (text : OptionText → Option CString) : GuiRequest :=
  match c.type with
  | .add => .add c.url c.destPath
      ((some (.ofTexts text c.speedLimitBps)).filter (·.nonempty))
  | .pause => .pause c.id
  | .resume => .resume c.id
  | .cancel => .cancel c.id
  | .details => .details c.id

/-- The texts of the options, if they are in the arrays of the command. -/
def own (c : GuiControllerCommand ρ) (f : OptionText) : Option CString :=
  (c.options f).map fun _ => c.text f

end GuiControllerCommand

def GuiRequest.command : GuiRequest → GuiControllerCommand Unit
  | .add url destPath options => .ofAdd url destPath options
  | .pause id => .ofId .pause id
  | .resume id => .ofId .resume id
  | .cancel id => .ofId .cancel id
  | .details id => .ofId .details id

/-- The texts are within the capacities of the arrays. -/
def GuiRequest.fits : GuiRequest → Bool
  | .add url destPath options =>
    url.length < ipcMaxUrlLen && destPath.length < ipcMaxPathLen &&
      OptionText.all.all fun f => ((options.bind (·.text f)).getD []).length < f.capacity
  | _ => true

theorem GuiControllerCommand.request_inSlot {ρ : Type} (c : GuiControllerCommand ρ) (k : ℕ) :
    (c.inSlot k).request (c.inSlot k).own = c.request c.own := by
  have hown : (c.inSlot k).own = c.own := by
    funext f
    rw [own, own, inSlot, Option.map_map]
    rfl
  rw [hown]
  rfl

/-- The texts are used by an add only. -/
theorem GuiControllerCommand.request_congr {ρ : Type} (c : GuiControllerCommand ρ)
    {text text' : OptionText → Option CString} (h : c.type = .add → text = text') :
    c.request text = c.request text' := by
  rcases htype : c.type with _ | _ | _ | _ | _
  · rw [h htype]
  all_goals simp only [request, htype]

/-- An add with a text is another one if the text is another one. -/
theorem GuiControllerCommand.request_ne {ρ : Type} {c : GuiControllerCommand ρ}
    {text text' : OptionText → Option CString} {f : OptionText} (htype : c.type = .add)
    (hf : (text f).isSome) (h : text f ≠ text' f) : c.request text ≠ c.request text' := by
  intro heq
  have hnonempty : (IpcDownloadOptions.ofTexts text c.speedLimitBps).nonempty = true := by
    refine Bool.or_eq_true_iff.2 (.inl (List.any_eq_true.2 ⟨f, f.mem_all, ?_⟩))
    rwa [IpcDownloadOptions.text_ofTexts]
  simp only [request, htype, GuiRequest.add.injEq, true_and] at heq
  rw [Option.filter_some_pos hnonempty] at heq
  obtain ⟨heq, -⟩ := Option.filter_eq_some_iff.1 heq.symm
  have htext := congrArg (fun o => o.text f) (Option.some.inj heq)
  simp only [IpcDownloadOptions.text_ofTexts] at htext
  exact h htext.symm

theorem GuiRequest.request_command {r : GuiRequest} (h : r.fits = true) :
    r.command.request r.command.own = r.given := by
  cases r with
  | add url destPath options =>
    obtain ⟨⟨hurl, hdest⟩, htexts⟩ : (url.length < ipcMaxUrlLen ∧ destPath.length < ipcMaxPathLen) ∧
        ∀ f ∈ OptionText.all, ((options.bind (·.text f)).getD []).length < f.capacity := by
      simpa [fits] using h
    have hown : (GuiControllerCommand.ofAdd url destPath options).own =
        fun f => options.bind (·.text f) := by
      funext f
      have htext := strncpy_of_lt (htexts f f.mem_all)
      simp only [GuiControllerCommand.own, GuiControllerCommand.ofAdd, Option.map_map]
      rcases hf : options.bind (·.text f) with _ | text
      · rfl
      · rw [hf] at htext
        exact congrArg some htext
    show GuiRequest.add (strncpy ipcMaxUrlLen url) (strncpy ipcMaxPathLen destPath) _ = _
    rw [command, hown, strncpy_of_lt hurl, strncpy_of_lt hdest]
    cases options with
    | none => rfl
    | some o => rfl
  | _ => rfl

/-! ## The two threads -/

def guiControllerCommandCap : ℕ := 64

/-- Where the controller thread is. -/
inductive ControllerPc
  | idle
  /-- It processes a command, a copy of its slot: the texts read, and those still to be read. -/
  | processing (c : GuiControllerCommand ℕ) (got : OptionText → Option CString)
      (todo : List OptionText)

structure GuiController where
  commands : RingBuffer (GuiControllerCommand ℕ) guiControllerCommandCap
  pc : ControllerPc
  /-- The requests whose commands were accepted, the first one first. -/
  accepted : List GuiRequest
  /-- The requests made of the client, the first one first. -/
  processed : List GuiRequest

inductive GuiControllerAct
  | enqueue (r : GuiRequest)
  | dequeue
  /-- The next text of the options is read from the slot. -/
  | readText
  | finish

namespace GuiController

/-- `enqueue_command`, which refuses a command if the ring is full. -/
def enqueueCommand (s : GuiController) (r : GuiRequest) : GuiController :=
  if h : s.commands.count < guiControllerCommandCap then
    { s with
      commands := s.commands.push (r.command.inSlot s.commands.tail) h
      accepted := s.accepted ++ [r] }
  else s

/-- The texts that are read: those of the options of an add, unless their pointer is null. -/
def textsOf (c : GuiControllerCommand ℕ) : List OptionText :=
  if c.type = .add then OptionText.all.filter fun f => (c.options f).isSome else []

def dequeueCommand (s : GuiController) (h : 0 < s.commands.count) : GuiController :=
  { s with
    commands := s.commands.pop h
    pc := .processing s.commands.front (fun _ => none) (textsOf s.commands.front) }

def step (s : GuiController) : GuiControllerAct → Option GuiController
  | .enqueue r => some (s.enqueueCommand r)
  | .dequeue =>
    match s.pc with
    | .idle => if h : 0 < s.commands.count then some (s.dequeueCommand h) else none
    | .processing _ _ _ => none
  | .readText =>
    match s.pc with
    | .processing c got (f :: todo) =>
      let text := (c.options f).map fun k => (s.commands.slots k).text f
      some { s with pc := .processing c (Function.update got f text) todo }
    | _ => none
  | .finish =>
    match s.pc with
    | .processing c got [] => some { s with pc := .idle, processed := s.processed ++ [c.request got] }
    | _ => none

/-- No command is waiting or has been accepted, and no slot has been used. -/
structure IsInit (s : GuiController) : Prop where
  contents : s.commands.contents = []
  slots : ∀ k f, (s.commands.slots k).options f = none
  pc : s.pc = .idle
  accepted : s.accepted = []
  processed : s.processed = []

/-- The command that is being processed. -/
def inProcess (s : GuiController) : List (GuiControllerCommand ℕ) :=
  match s.pc with
  | .idle => []
  | .processing c _ _ => [c]

/-- The requests accepted and not processed yet. -/
def pending (s : GuiController) : List GuiRequest :=
  (s.inProcess ++ s.commands.contents).map fun c => c.request c.own

/-- The texts given are within the capacities. -/
def fits : GuiControllerAct → Bool
  | .enqueue r => r.fits
  | _ => true

/-- An enqueue while 63 commands wait does not change a text that is still to be read. -/
def spares (s : GuiController) : GuiControllerAct → Bool
  | .enqueue r =>
    match s.pc with
    | .idle => true
    | .processing c _ todo => s.commands.count + 1 ≠ guiControllerCommandCap ||
        todo.all fun f => r.command.text f = c.text f
  | _ => true

/-! ## Every step -/

variable {s s' : GuiController} {a : GuiControllerAct}

/-- The command `c` was taken from the slot `k`, before the head, which still has its texts that
    are not read yet. -/
structure Reading (commands : RingBuffer (GuiControllerCommand ℕ) guiControllerCommandCap)
    (c : GuiControllerCommand ℕ) (got : OptionText → Option CString) (todo : List OptionText)
    (k : ℕ) : Prop where
  slot_lt : k < guiControllerCommandCap
  head : (k + 1) % guiControllerCommandCap = commands.head
  pointers : ∀ f, ∀ j ∈ c.options f, j = k
  unread : ∀ f ∈ todo, c.type = .add ∧ (c.options f).isSome
  texts : ∀ f ∈ todo, (commands.slots k).text f = c.text f
  got : c.type = .add → ∀ f ∉ todo, got f = c.own f

theorem mem_textsOf {c : GuiControllerCommand ℕ} {f : OptionText} :
    f ∈ textsOf c ↔ c.type = .add ∧ (c.options f).isSome := by
  rw [textsOf]
  split_ifs with htype
  · simp [htype, f.mem_all]
  · simp [htype]

structure Inv (s : GuiController) : Prop where
  order : s.processed ++ s.pending = s.accepted.map (·.given)
  pointers : ∀ k f, ∀ j ∈ (s.commands.slots k).options f, j = k
  reading : ∀ c got todo, s.pc = .processing c got todo → ∃ k, Reading s.commands c got todo k

theorem IsInit.inv (h : s.IsInit) : s.Inv where
  order := by
    rw [h.processed, h.accepted, pending, inProcess, h.pc, h.contents]
    rfl
  pointers k f j hj := by
    rw [h.slots k f] at hj
    cases hj
  reading c got todo hpc := by
    rw [h.pc] at hpc
    cases hpc

theorem Inv.enqueue {r : GuiRequest} (h : s.Inv) (hfits : r.fits = true)
    (hspares : s.spares (.enqueue r) = true) : (s.enqueueCommand r).Inv := by
  rw [enqueueCommand]
  split_ifs with hcount
  swap
  · exact h
  refine ⟨?_, fun k f j hj => ?_, fun c got todo hpc => ?_⟩
  · have hpending : pending { s with
        commands := s.commands.push (r.command.inSlot s.commands.tail) hcount
        accepted := s.accepted ++ [r] } = s.pending ++ [r.given] := by
      rw [pending, RingBuffer.contents_push, ← List.append_assoc, List.map_append,
        List.map_singleton, GuiControllerCommand.request_inSlot, GuiRequest.request_command hfits]
      rfl
    rw [hpending, ← List.append_assoc, h.order, List.map_append, List.map_singleton]
  · by_cases hk : k = s.commands.tail
    · subst hk
      simp only [RingBuffer.slots_push_tail] at hj
      obtain ⟨-, -, rfl⟩ := Option.map_eq_some_iff.1 hj
      rfl
    · simp only [RingBuffer.slots_push_of_ne hk] at hj
      exact h.pointers k f j hj
  · obtain ⟨k, hk⟩ := h.reading c got todo hpc
    refine ⟨k, hk.slot_lt, hk.head, hk.pointers, hk.unread, fun f hf => ?_, hk.got⟩
    by_cases htail : k = s.commands.tail
    · -- The slot is used again, but the text stays.
      have hfull : s.commands.count + 1 = guiControllerCommandCap :=
        le_antisymm hcount (not_lt.1 fun hlt =>
          RingBuffer.tail_ne hk.slot_lt hk.head hlt htail.symm)
      have htext : ∀ f ∈ todo, r.command.text f = c.text f := by
        have hpc' : s.pc = .processing c got todo := hpc
        simpa [spares, hpc', hfull] using hspares
      simp only [htail, RingBuffer.slots_push_tail]
      exact htext f hf
    · simp only [RingBuffer.slots_push_of_ne htail]
      exact hk.texts f hf

theorem Inv.dequeue (h : s.Inv) (hpc : s.pc = .idle) (hcount : 0 < s.commands.count) :
    (s.dequeueCommand hcount).Inv := by
  refine ⟨?_, h.pointers, fun c got todo hpc' => ?_⟩
  · have hpending : (s.dequeueCommand hcount).pending = s.pending := by
      rw [pending, pending, s.commands.contents_pop hcount, inProcess, inProcess, hpc]
      rfl
    rw [hpending]
    exact h.order
  · cases hpc'
    refine ⟨s.commands.head, s.commands.head_lt, rfl, h.pointers s.commands.head,
      fun _ => mem_textsOf.1, fun _ _ => rfl, fun htype f hf => ?_⟩
    -- The texts that are not read have null pointers.
    have hnone : s.commands.front.options f = none :=
      Option.not_isSome_iff_eq_none.1 fun hsome => hf (mem_textsOf.2 ⟨htype, hsome⟩)
    rw [GuiControllerCommand.own, hnone]
    rfl

theorem Inv.step (h : s.Inv) (hfits : fits a = true) (hspares : s.spares a = true)
    (hstep : s.step a = some s') : s'.Inv := by
  cases a with
  | enqueue r =>
    cases hstep
    exact h.enqueue hfits hspares
  | dequeue =>
    simp only [GuiController.step] at hstep
    split at hstep
    · rename_i hpc
      split_ifs at hstep with hcount
      cases hstep
      exact h.dequeue hpc hcount
    · cases hstep
  | readText =>
    simp only [GuiController.step] at hstep
    split at hstep
    · rename_i c got f todo hpc
      cases hstep
      refine ⟨?_, h.pointers, fun c' got' todo' hpc' => ?_⟩
      · rw [← h.order, pending, pending, inProcess, inProcess, hpc]
      · cases hpc'
        obtain ⟨k, hk⟩ := h.reading _ _ _ hpc
        refine ⟨k, hk.slot_lt, hk.head, hk.pointers,
          fun g hg => hk.unread g (List.mem_cons_of_mem f hg),
          fun g hg => hk.texts g (List.mem_cons_of_mem f hg), fun htype g hg => ?_⟩
        -- The text just read, or one read before.
        by_cases hgf : g = f
        · subst hgf
          rw [Function.update_self, GuiControllerCommand.own]
          refine Option.map_congr fun j hj => ?_
          rw [hk.pointers g j hj]
          exact hk.texts g List.mem_cons_self
        · rw [Function.update_of_ne hgf]
          exact hk.got htype g (by simp [hgf, hg])
    · cases hstep
  | finish =>
    simp only [GuiController.step] at hstep
    split at hstep
    · rename_i c got hpc
      cases hstep
      refine ⟨?_, h.pointers, fun c' got' todo' hpc' => nomatch hpc'⟩
      obtain ⟨k, hk⟩ := h.reading _ _ _ hpc
      -- All texts have been read, so that the request is the one given.
      have hrequest : c.request got = c.request c.own :=
        c.request_congr fun htype => funext fun f => hk.got htype f List.not_mem_nil
      rw [← h.order, pending, pending, inProcess, inProcess, hpc, List.append_assoc, hrequest]
      rfl
    · cases hstep

/-! ## Every run -/

/-- The runs in which the texts fit. -/
abbrev Reached (ok : GuiController → GuiControllerAct → Prop) : GuiController → Prop :=
  Run.Reachable step IsInit fun s a => fits a = true ∧ ok s a

/-- The commands are processed in the order of their acceptance, none is lost and none processed
    twice, and each add is sent with the texts given. -/
def AsEnqueued (s : GuiController) : Prop :=
  s.processed ++ s.pending = s.accepted.map (·.given) ∧
    s.pending.length = s.commands.count + s.inProcess.length

theorem processed_of_spares (hs : Reached (fun s a => s.spares a = true) s) : s.AsEnqueued := by
  have hinv : s.Inv := hs.invariant (fun _ hinit => hinit.inv)
    fun _ _ _ h hok hstep => h.step hok.1 hok.2 hstep
  refine ⟨hinv.order, ?_⟩
  rw [pending, List.length_map, List.length_append, RingBuffer.length_contents, Nat.add_comm]

/-- An unused ring. -/
def start : GuiController where
  commands := RingBuffer.empty ((GuiRequest.pause 0).command.inSlot 0) (by decide)
  pc := .idle
  accepted := []
  processed := []

theorem isInit_start : start.IsInit := ⟨rfl, fun _ _ => rfl, rfl, rfl, rfl⟩

/-- An add with a cookie. -/
def cookieAdd (cookie : CString) : GuiRequest :=
  .add "u".toList "d".toList (some ⟨some cookie, none, none, none, 0⟩)

/-- An add is processed while another command is put into the queue. -/
theorem processed_of_spares_add :
    ∃ s, Reached (fun s a => s.spares a = true) s ∧
      s.processed = [cookieAdd ['a']] ∧ s.AsEnqueued := by
  obtain ⟨s, hs, hprocessed⟩ := Run.exists_reachable_of_exec step IsInit
    (fun s a => fits a = true ∧ s.spares a = true)
    (fun s => s.processed = [cookieAdd ['a']]) isInit_start
    [.enqueue (cookieAdd ['a']), .dequeue, .enqueue (.pause 1), .readText, .finish]
    ⟨_, rfl, rfl⟩
  exact ⟨s, hs, hprocessed, processed_of_spares hs⟩

set_option maxRecDepth 2000 in
/-- The 64th command put into the queue while an add is processed is written over its cookie,
    which is still to be read. -/
theorem exists_not_asEnqueued : ¬ ∀ s, Reached (fun _ _ => True) s → s.AsEnqueued := by
  intro hall
  have hrun : (Run.exec step (fun _ a => fits a = true ∧ True) start
      ([.enqueue (cookieAdd ['a']), .dequeue] ++ List.replicate 64 (.enqueue (.pause 1)) ++
        [.readText, .finish])).map (fun s => (s.processed.head?, s.accepted.head?)) =
      some (some (cookieAdd []), some (cookieAdd ['a'])) := rfl
  obtain ⟨s, hs, hheads⟩ := Option.map_eq_some_iff.1 hrun
  obtain ⟨hprocessed, haccepted⟩ := Prod.mk.inj hheads
  have horder := congrArg List.head? (hall s ((Run.Reachable.init isInit_start).exec hs)).1
  rw [List.head?_append, hprocessed, List.head?_map, haccepted] at horder
  simp [cookieAdd, GuiRequest.given, Option.filter] at horder

/-! ## The condition is exact -/

/-- The texts still to be read are read. -/
theorem exec_reads {c : GuiControllerCommand ℕ} {todo : List OptionText} :
    ∀ {got : OptionText → Option CString} {s : GuiController}, s.pc = .processing c got todo →
      ∃ got', (∀ f ∈ todo, got' f = (c.options f).map fun k => (s.commands.slots k).text f) ∧
        (∀ f ∉ todo, got' f = got f) ∧
        Run.Reachable step (· = s) (fun _ a => fits a = true)
          { s with pc := .processing c got' [] } := by
  induction todo with
  | nil =>
    intro got s hpc
    refine ⟨got, fun _ hf => absurd hf List.not_mem_nil, fun _ _ => rfl, .init ?_⟩
    rw [← hpc]
  | cons f todo ih =>
    intro got s hpc
    let text := (c.options f).map fun k => (s.commands.slots k).text f
    obtain ⟨got', hread, hkept, hrun⟩ :=
      ih (s := { s with pc := .processing c (Function.update got f text) todo }) rfl
    have hstep : s.step .readText =
        some { s with pc := .processing c (Function.update got f text) todo } := by
      simp only [step, hpc, text]
    refine ⟨got', fun g hg => ?_, fun g hg => ?_,
      Run.Reachable.trans (.step (.init rfl) rfl hstep) hrun⟩
    · by_cases hmem : g ∈ todo
      · exact hread g hmem
      · obtain rfl := (List.mem_cons.1 hg).resolve_right hmem
        rw [hkept g hmem, Function.update_self]
    · obtain ⟨hne, hmem⟩ := not_or.1 (List.mem_cons.not.1 hg)
      rw [hkept g hmem, Function.update_of_ne hne]

/-- After an enqueue that changes a text still to be read, the add is sent with a wrong one. -/
theorem misread_of_not_spares {r : GuiRequest} (hs : Reached (fun s a => s.spares a = true) s)
    (hspares : s.spares (.enqueue r) = false) :
    ∃ t, Run.Reachable step (· = s.enqueueCommand r) (fun _ a => fits a = true) t ∧
      ¬ t.AsEnqueued := by
  have hinv : s.Inv := hs.invariant (fun _ hinit => hinit.inv)
    fun _ _ _ h hok hstep => h.step hok.1 hok.2 hstep
  obtain ⟨c, got, todo, hpc⟩ : ∃ c got todo, s.pc = .processing c got todo := by
    rcases hpc : s.pc with _ | ⟨c, got, todo⟩
    · simp [spares, hpc] at hspares
    · exact ⟨c, got, todo, rfl⟩
  obtain ⟨hfull, f, hf, hne⟩ : s.commands.count + 1 = guiControllerCommandCap ∧
      ∃ f ∈ todo, r.command.text f ≠ c.text f := by
    simpa [spares, hpc] using hspares
  have hcount : s.commands.count < guiControllerCommandCap := by omega
  obtain ⟨k, hk⟩ := hinv.reading c got todo hpc
  obtain ⟨htype, hsome⟩ := hk.unread f hf
  obtain ⟨j, hj⟩ := Option.isSome_iff_exists.1 hsome
  obtain rfl := hk.pointers f j hj
  -- The texts are read from the slot that was used again.
  rw [enqueueCommand, dif_pos hcount]
  obtain ⟨got', hread, -, hrun⟩ := exec_reads (s := { s with
    commands := s.commands.push (r.command.inSlot s.commands.tail) hcount
    accepted := s.accepted ++ [r] }) hpc
  have htext : got' f = some (r.command.text f) := by
    have htail := RingBuffer.tail_eq_of_head hk.slot_lt hk.head hfull
    have hslot := RingBuffer.slots_push_tail (x := r.command.inSlot s.commands.tail) hcount
    rw [htail] at hslot
    rw [hread f hf, hj]
    simp only [Option.map_some, htail, hslot]
    rfl
  refine ⟨_, .step hrun (a := .finish) rfl rfl, fun hall => ?_⟩
  have hrequest : c.request got' ≠ c.request c.own := by
    refine GuiControllerCommand.request_ne htype (by rw [htext]; rfl) ?_
    rw [htext, GuiControllerCommand.own, hj]
    exact fun h => hne (Option.some.inj h)
  have horder := hall.1
  simp only [List.map_append, List.append_assoc, ← hinv.order] at horder
  have hpending : s.pending.head? = some (c.request c.own) := by
    rw [pending, inProcess, hpc]
    rfl
  have hhead := congrArg List.head? (List.append_cancel_left horder)
  rw [List.head?_append, List.head?_append, hpending] at hhead
  exact hrequest (Option.some.inj hhead)

end GuiController

end Cdm
