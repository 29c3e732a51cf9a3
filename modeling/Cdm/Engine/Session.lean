import Cdm.Engine.Steps
import Cdm.Lib.Run

/-!
# Sequences of calls

A *session* is a sequence of calls of the engine on one download, with what happens
to the download around and during them: cancels and pauses requested and withdrawn,
and, between calls, the daemon restarted, the download restored from the database.
It starts with a download just added (`Fresh`).
-/

namespace Cdm

inductive SessionAct
  | engine (a : EngineAct)
  | requestCancel (b : Bool)
  | requestPause (b : Bool)
  | restore

/-- A step of a session. The daemon restarts between calls only; downloads that are
    done are not restored. -/
def sessionStep (R : ℕ → UInt8) (s : EngineState) : SessionAct → Option EngineState
  | .engine a => engineStep R s a
  | .requestCancel b =>
    some { s with w := { s.w.fresh with d := { s.w.d with cancelRequested := b } } }
  | .requestPause b =>
    some { s with w := { s.w.fresh with d := { s.w.d with pauseRequested := b } } }
  | .restore =>
    match s.pc, s.w.disk.db.row s.w.d.id with
    | .idle rc, some r =>
      if r.status = "DONE" then none
      else some ⟨{ s.w.fresh with d := restoreRow s.w.disk.db r }, .idle rc⟩
    | _, _ => none

/-- A download just added: no chunks, in memory or in the database, which has its
    row. Its destination may exist, claimed for it or not. -/
structure Fresh (s : EngineState) : Prop where
  idle : s.pc = .idle none
  chunks : s.w.d.chunks = []
  rows : s.w.disk.db.chunksOf s.w.d.id = []
  row : ∃ r, s.w.disk.db.row s.w.d.id = some r ∧ r.url = s.w.d.url ∧
    r.destPath = s.w.d.destPath ∧ r.reservedFile = s.w.d.reservedFile

/-- The states of the sessions on the resource `R` whose steps all meet `ok`. -/
abbrev SessionReachable (R : ℕ → UInt8) (ok : EngineState → SessionAct → Prop) :
    EngineState → Prop :=
  Run.Reachable (sessionStep R) Fresh ok

/-- What the last call returned, between calls. -/
def EngineState.returned (s : EngineState) : Option ℤ :=
  match s.pc with
  | .idle rc => rc
  | _ => none

/-- A call is running. -/
def EngineState.inCall (s : EngineState) : Bool :=
  match s.pc with
  | .idle _ => false
  | _ => true

/-- The run of the pool, while one goes on. -/
def EngineState.poolRun (s : EngineState) : Option PoolRun :=
  match s.pc with
  | .running _ _ run | .fallback _ run => some run
  | _ => none

/-- The file of the download is the resource `R` of `n` bytes. -/
def Complete (R : ℕ → UInt8) (n : ℕ) (s : EngineState) : Prop :=
  ∃ f, s.w.disk.file = some f ∧ f.size = n ∧ f.Agrees R 0 n

/-- A download just added, with an identifier, a URL and a destination. -/
def freshState (id : ℕ) (url destPath : CString) : EngineState :=
  ⟨⟨{ Download.zero with id := id, url := url, destPath := destPath, reservedFile := true },
    ⟨some .empty, Db.exec ⟨[], []⟩ (.insertDownload id url destPath ⟨[], [], [], [], 0⟩ true)⟩, []⟩,
    .idle none⟩

theorem fresh_freshState (id : ℕ) (url destPath : CString) : Fresh (freshState id url destPath) where
  idle := rfl
  chunks := rfl
  rows := rfl
  row := by simp [freshState, Db.exec, Db.row]

/-- A state satisfying `P` is reached if the session of a list of actions, on a download
    just added, ends in one. -/
theorem SessionReachable.of_exec (R : ℕ → UInt8) (ok : EngineState → SessionAct → Prop)
    [∀ s a, Decidable (ok s a)] (P : EngineState → Prop) (as : List SessionAct)
    (h : ∃ s ∈ Run.exec (sessionStep R) ok (freshState 1 "http://h/f".toList "/d/f".toList) as,
      P s) : ∃ s, SessionReachable R ok s ∧ P s :=
  Run.exists_reachable_of_exec _ _ _ _ (fresh_freshState _ _ _) as h

end Cdm
