import Cdm.Platform.Clients
import Cdm.Platform.Messages
import Cdm.Utils.Config

/-!
# The server

What the daemon does on the messages of its clients: the handlers of `handle_message`, over
the queue, the offers of the browser, the table of the clients and the settings. A handler
is not interrupted here; what the system answers is a parameter (`ServerEnv`).
-/

namespace Cdm

structure Server where
  store : Store
  offers : BrowserOffers
  clients : Clients
  settings : ConfigState

structure ServerEnv where
  /-- A rounded quotient, at most one. -/
  ratio : ℕ → ℕ → BitVec 32
  parseOptions : CString → Option OptionsRoot
  parseOffer : CString → Option JsonRoot
  now : ℤ
  randomId : ℕ → ℕ
  reserveIo : ℕ → ReserveIo
  config : ConfigEnv
  unset : ℕ

/-- The rest of a command, in at most `fuel` steps. -/
def finishCommand : (fuel : ℕ) → Store → HandlerPc → Store × IpcResult
  | 0, s, _ => (s, .rejected)
  | fuel + 1, s, pc =>
    match pc, handlerStep s pc with
    | .finishing _ _ [] answer, _ => (s, answer)
    | _, none => (s, .rejected)
    | _, some (s', pc') => finishCommand fuel s' pc'

/-- A command, with no other thread in between; its handler takes at most ten steps. -/
def runCommand (c : Command) (s : Store) (id : ℕ) : Store × IpcResult :=
  finishCommand 10 s (commandCheck s c id)

namespace ServerEnv

variable (env : ServerEnv)

def reserve (s : Server) (url dest : CString) (opts : RequestOptions) : Server × ℕ :=
  let (store, id) := reserveDownload url dest opts reserveAttempts s.store env.reserveIo
  ({ s with store := store }, id)

/-- Confirming an offer; a download is reserved if the offer waits for it. -/
def confirm (s : Server) (offerId pathLen : ℕ) (path : CString) : Server × ℕ :=
  let (offers, id) := s.offers.handleConfirm offerId pathLen path env.now fun url dest opts =>
    (env.reserve s url dest opts).2
  let wellFormed := 0 < pathLen ∧ pathLen < ipcMaxPathLen ∧ path.length = pathLen ∧
    Char.ofNat 0 ∉ path
  match s.offers.findOffer offerId with
  | none => (s, id)
  | some (x, _) =>
    let s' := if wellFormed ∧ x.offer.state = .waiting then
        (env.reserve s x.offer.url path ⟨[], x.offer.referrer, [], [], 0⟩).1
      else s
    ({ s' with offers := offers }, id)

/-- A confirmation by the handler is the one that the runs of the daemon take, which sees of
    the offers only what it uses (`Upkeep.confirm`); a frame that holds no path leaves
    everything as it is. -/
theorem confirm_eq (s : Server) (offerId pathLen : ℕ) (path : CString) :
    let x := env.confirm s offerId pathLen path
    (x.1.store, x.1.offers.confirmable, x.2) =
      if path.length = pathLen ∧ Char.ofNat 0 ∉ path then
        browserConfirm s.store s.offers.confirmable offerId path env.reserveIo
      else (s.store, s.offers.confirmable, 0) := by
  intro x
  by_cases hframe : path.length = pathLen ∧ Char.ofNat 0 ∉ path
  · have hwell : (0 < pathLen ∧ pathLen < ipcMaxPathLen ∧ path.length = pathLen ∧
        Char.ofNat 0 ∉ path) ↔ ¬(path = [] ∨ ipcMaxPathLen ≤ path.length) := by
      rw [not_or, not_le, ← hframe.1, ← ne_eq, ← List.length_pos_iff]
      exact ⟨fun h => ⟨h.1, h.2.1⟩, fun h => ⟨h.1, h.2, rfl, hframe.2⟩⟩
    -- The test of the handler and that of the runs agree on a frame that holds its path.
    rw [if_pos hframe]
    simp only [x, confirm, BrowserOffers.handleConfirm, hwell, browserConfirm]
    by_cases hdest : path = [] ∨ ipcMaxPathLen ≤ path.length
    · simp only [hdest]
      cases hfind : s.offers.findOffer offerId <;> simp
    · simp only [hdest]
      cases hfind : s.offers.findOffer offerId with
      | none => simp [BrowserOffers.browserFindOffer_eq_none hfind]
      | some r =>
        obtain ⟨y, i⟩ := r
        rw [BrowserOffers.browserFindOffer_of_findOffer hfind]
        simp only [IpcBrowserOffer.confirmable]
        cases hstate : y.offer.state with
        | confirmed => simp
        | dismissed => simp
        | waiting =>
          rcases hres : reserveDownload y.offer.url path ⟨[], y.offer.referrer, [], [], 0⟩
            reserveAttempts s.store env.reserveIo with ⟨store, _ | n⟩
          · simp [reserve, hres]
          · have hput := BrowserOffers.confirmable_put hfind
              (f := fun o => { o with downloadId := n + 1, state := .confirmed })
              (y := ⟨{ y.offer with downloadId := n + 1, state := .confirmed }, env.now, y.serial⟩) rfl
            simpa [reserve, hres] using hput
  · have hwell : ¬(0 < pathLen ∧ pathLen < ipcMaxPathLen ∧ path.length = pathLen ∧
        Char.ofNat 0 ∉ path) := fun h => hframe h.2.2
    rw [if_neg hframe]
    simp only [x, confirm, BrowserOffers.handleConfirm, hwell]
    cases hfind : s.offers.findOffer offerId <;> simp

/-- The handlers of the daemon. -/
def handlers : Handlers Server where
  store s := s.store
  tables s := s.store.db.encode
  ratio := env.ratio
  parseOptions := env.parseOptions
  reserve := env.reserve
  offer s json :=
    let (offers, o) := s.offers.handleOffer (env.parseOffer json) env.now env.randomId
    ({ s with offers := offers }, o)
  getOffer s id :=
    let (offers, o) := s.offers.handleGetOffer id env.now
    ({ s with offers := offers }, o)
  confirm := env.confirm
  dismiss s id :=
    let (offers, r) := s.offers.handleDismiss id env.now
    ({ s with offers := offers }, r)
  command c s id :=
    let (store, r) := runCommand c s.store id
    ({ s with store := store }, r)
  reload s := { s with settings := { s.settings with
    config := configInit env.config s.settings.file } }
  subscribe s fd := { s with clients := s.clients.subscribe fd }
  watch s fd id := { s with clients := s.clients.watch fd id }
  unset := env.unset

end ServerEnv

/-- A daemon that has just started, with an empty database. -/
def Server.start (env : ServerEnv) : Server where
  store := ⟨[], 1, fun _ => none, ⟨[], []⟩, [], []⟩
  offers := .start
  clients := ⟨0, fun _ => ⟨none, false, 0, 0, fun _ => Char.ofNat 0⟩⟩
  settings := ⟨none, configInit env.config none⟩

/-- An environment in which there is nothing to be read, and every add succeeds. -/
def ServerEnv.bare : ServerEnv where
  ratio _ _ := 0
  parseOptions _ := none
  parseOffer _ := none
  now := 0
  randomId n := n
  reserveIo _ := ⟨⟨true, false⟩, none, false, true⟩
  config := ⟨some "/root".toList, fun _ => none, fun _ => true, fun _ => true⟩
  unset := 0

end Cdm
