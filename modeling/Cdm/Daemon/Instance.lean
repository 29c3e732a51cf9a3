import Cdm.Core.Download
import Cdm.Lib.Run
import Cdm.Lib.Toml

/-!
# One daemon

`run_daemon` of `daemon/daemon.c`, as far as it decides whether there is a daemon already: the
lock (`ipc_daemon_lock_acquire`), the probe of the socket (`ipc_server_get_pid`), and
`ipc_server_start` and `ipc_server_stop` of `platform/ipc_socket.c`. Any number of processes run
it, each with an environment of its own; any of them may be killed at any time, leaving its
socket behind.

The lock and the socket are chosen by the same rule, so that daemons that would serve the same
socket take the same lock (`lockPath_of_socketPath`). At most one process serves a socket, which
is bound to it as long as it does (`serves_alone`); and a socket that has been left behind is in
nobody's way (`serves`).

The files are told apart by their paths, and nothing but the daemons touches them. The fork of
`daemonize` is left out: the lock stays with the process that goes on.
-/

namespace Cdm

namespace Instance

/-! ## Paths -/

structure Env where
  runtimeDir : Option CString
  home : Option CString
  uid : ℕ
  deriving DecidableEq

inductive IpcBaseKind
  | runtime
  | home
  | tmp

/-- The two texts, if they fit an array of `size` bytes. -/
def joinPath (size : ℕ) (base suffix : CString) : Option CString :=
  if size < base.length + suffix.length + 1 then none else some (base ++ suffix)

def isAbsolute : Option CString → Option CString
  | some ('/' :: path) => some ('/' :: path)
  | _ => none

def getIpcBase (env : Env) (size : ℕ) : Option (CString × IpcBaseKind) :=
  match isAbsolute env.runtimeDir with
  | some dir => if dir.length < size then some (dir, .runtime) else none
  | none =>
    match isAbsolute env.home with
    | some home => (joinPath size home "/.local/share".toList).map fun base => (base, .home)
    | none => if "/tmp".length < size then some ("/tmp".toList, .tmp) else none

/-- The name of the file of a user in the common directory. -/
def tmpPath (env : Env) (suffix : CString) : CString :=
  "/tmp/cdm_".toList ++ Toml.decimal env.uid ++ suffix

/-- The path of the socket, empty if it is too long. -/
def getSocketPath (env : Env) : CString :=
  match getIpcBase env 1024 with
  | none => []
  | some (base, .runtime) => (joinPath 1024 base "/cdm.sock".toList).getD []
  | some (base, .home) => (joinPath 1024 base "/cdm/ipc.sock".toList).getD []
  | some (_, .tmp) => tmpPath env ".sock".toList

def lockPath (env : Env) : Option CString :=
  match getIpcBase env 1024 with
  | none => none
  | some (_, .tmp) => some (tmpPath env ".lock".toList)
  | some (base, _) => joinPath 1024 base "/cdm.lock".toList

/-- The path fits the address of a socket. -/
def Connectable (path : CString) : Prop := path ≠ [] ∧ path.length < 108

instance (path : CString) : Decidable (Connectable path) := by
  unfold Connectable
  infer_instance

/-! ## Processes -/

/-- Where a process is in `run_daemon`, by what it has done last. -/
inductive Pc
  | start
  | locked
  /-- There is no daemon. -/
  | probed
  /-- There is still none: the data is opened. -/
  | opened
  /-- In `ipc_server_start`, where it is looked for once more. -/
  | checked
  | unlinked
  | bound
  | serving
  /-- The socket is closed, and its file has not been removed. -/
  | closed
  /-- The file has been removed; the lock is given up at the end. -/
  | removed
  | exited
  deriving DecidableEq

/-- Past the lock. -/
def Pc.holds : Pc → Bool
  | .start | .exited => false
  | _ => true

/-- The file of the socket is the process's. -/
def Pc.owns : Pc → Bool
  | .bound | .serving | .closed => true
  | _ => false

/-- The probe has been passed. -/
def Pc.connectable : Pc → Bool
  | .probed | .opened | .checked | .unlinked | .bound | .serving | .closed | .removed => true
  | _ => false

structure System where
  env : ℕ → Env
  pc : ℕ → Pc
  /-- The holder of a lock. -/
  lock : CString → Option ℕ
  /-- The process that has bound a socket, which may be gone. -/
  socket : CString → Option ℕ

namespace System

variable (s : System)

def path (p : ℕ) : CString := getSocketPath (s.env p)

/-- Somebody listens on a socket. -/
def accepts (path : CString) : Bool :=
  match s.socket path with
  | none => false
  | some p => s.pc p = .serving

def goto (p : ℕ) (pc : Pc) : System := { s with pc := Function.update s.pc p pc }

/-- The process ends, or is killed: its lock is free. -/
def exit (p : ℕ) : System :=
  { s.goto p .exited with lock := fun l => if s.lock l = some p then none else s.lock l }

def unlink (path : CString) : System := { s with socket := Function.update s.socket path none }

/-- A step of a process; `ok` says whether the system does what it is asked. -/
def advance (p : ℕ) (ok : Bool) : System :=
  match s.pc p with
  | .start =>
    match lockPath (s.env p) with
    | none => s.exit p
    | some l =>
      if ok = true ∧ s.lock l = none then
        { s.goto p .locked with lock := Function.update s.lock l (some p) }
      else s.exit p
  | .locked =>
    if ok = true ∧ Connectable (s.path p) ∧ s.accepts (s.path p) = false then s.goto p .probed
    else s.exit p
  | .probed => if s.accepts (s.path p) then s.exit p else s.goto p .opened
  | .opened => if ok = true ∧ s.accepts (s.path p) = false then s.goto p .checked else s.exit p
  | .checked => (s.unlink (s.path p)).goto p .unlinked
  | .unlinked =>
    if ok = true ∧ s.socket (s.path p) = none then
      { s.goto p .bound with socket := Function.update s.socket (s.path p) (some p) }
    else s.exit p
  | .bound => if ok then s.goto p .serving else s.goto p .closed
  | .serving => s.goto p .closed
  | .closed => (s.unlink (s.path p)).goto p .removed
  | .removed => s.exit p
  | .exited => s

end System

inductive Act
  | advance (p : ℕ) (ok : Bool)
  | kill (p : ℕ)

def step (s : System) : Act → Option System
  | .advance p ok => some (s.advance p ok)
  | .kill p => some (s.exit p)

/-- No process is past the lock, which nobody holds; there may be sockets of earlier daemons. -/
structure Initial (s : System) : Prop where
  pc : ∀ p, s.pc p = .start ∨ s.pc p = .exited
  lock : ∀ l, s.lock l = none
  socket : ∀ path p, s.socket path = some p → s.pc p = .exited

/-! ## The lock and the socket -/

/-- How the socket and the lock of an environment are named. -/
theorem socketPath_cases {env : Env} (h : getSocketPath env ≠ []) :
    (∃ base, getSocketPath env = base ++ "/cdm.sock".toList ∧
        lockPath env = joinPath 1024 base "/cdm.lock".toList) ∨
      (∃ base, getSocketPath env = base ++ "/cdm/ipc.sock".toList ∧
        lockPath env = joinPath 1024 base "/cdm.lock".toList) ∨
      getSocketPath env = tmpPath env ".sock".toList ∧
        lockPath env = some (tmpPath env ".lock".toList) := by
  rw [getSocketPath] at h ⊢
  rw [lockPath]
  split at h
  · exact absurd rfl h
  · rename_i base hbase
    rw [hbase]
    refine .inl ⟨base, ?_, rfl⟩
    rw [joinPath] at h ⊢
    split_ifs at h ⊢
    · exact absurd rfl h
    · rfl
  · rename_i base hbase
    rw [hbase]
    refine .inr (.inl ⟨base, ?_, rfl⟩)
    rw [joinPath] at h ⊢
    split_ifs at h ⊢
    · exact absurd rfl h
    · rfl
  · rename_i base hbase
    rw [hbase]
    exact .inr (.inr ⟨rfl, rfl⟩)

/-- Two texts with different endings of one length are different. -/
theorem append_ne {a b x y : CString} (hlength : x.length = y.length) (hne : x ≠ y) :
    a ++ x ≠ b ++ y :=
  fun h => hne (List.append_inj_right' h hlength)

/-- The name of a user's file ends in a digit, but for its suffix. -/
theorem tmpPath_ne {env : Env} {base suffix : CString} {c : Char} (hc : c.isDigit = false) :
    base ++ c :: suffix ≠ tmpPath env suffix := by
  intro h
  unfold tmpPath at h
  generalize "/tmp/cdm_".toList = dir at h
  rw [List.append_cons] at h
  have hlast := congrArg List.getLast? (List.append_cancel_right h)
  rw [Toml.decimal_natCast, List.getLast?_concat,
    List.getLast?_append_of_ne_nil _ Nat.toDigits_ne_nil] at hlast
  rw [Toml.isDigit_of_decimal (List.mem_of_getLast? hlast.symm)] at hc
  cases hc

theorem tmpPath_lock {env env' : Env} {suffix suffix' : CString}
    (h : tmpPath env suffix = tmpPath env' suffix) :
    tmpPath env suffix' = tmpPath env' suffix' := by
  unfold tmpPath at h ⊢
  generalize "/tmp/cdm_".toList = dir at h ⊢
  rw [List.append_cancel_right h]

/-- Daemons that serve the same socket take the same lock. -/
theorem lockPath_of_socketPath {env env' : Env} (h : getSocketPath env = getSocketPath env')
    (hne : getSocketPath env ≠ []) : lockPath env = lockPath env' := by
  have hne' : getSocketPath env' ≠ [] := h ▸ hne
  have hruntime : "/cdm.sock".toList = "/cd".toList ++ 'm' :: ".sock".toList := by decide
  have hhome : "/cdm/ipc.sock".toList = "/cdm/ip".toList ++ 'c' :: ".sock".toList := by decide
  have htail : "/cdm/ipc.sock".toList = "/cdm".toList ++ "/ipc.sock".toList := by decide
  have hlength : "/cdm.sock".toList.length = "/ipc.sock".toList.length := by decide
  have hdiffer : "/cdm.sock".toList ≠ "/ipc.sock".toList := by decide
  rcases socketPath_cases hne with ⟨base, hp, hl⟩ | ⟨base, hp, hl⟩ | ⟨hp, hl⟩ <;>
    rcases socketPath_cases hne' with ⟨base', hp', hl'⟩ | ⟨base', hp', hl'⟩ | ⟨hp', hl'⟩ <;>
    rw [hp, hp'] at h
  · rw [hl, hl', List.append_cancel_right h]
  · rw [htail, ← List.append_assoc] at h
    exact absurd h (append_ne hlength hdiffer)
  · rw [hruntime, ← List.append_assoc] at h
    exact absurd h (tmpPath_ne (by decide))
  · rw [htail, ← List.append_assoc] at h
    exact absurd h.symm (append_ne hlength hdiffer)
  · rw [hl, hl', List.append_cancel_right h]
  · rw [hhome, ← List.append_assoc] at h
    exact absurd h (tmpPath_ne (by decide))
  · rw [hruntime, ← List.append_assoc] at h
    exact absurd h.symm (tmpPath_ne (by decide))
  · rw [hhome, ← List.append_assoc] at h
    exact absurd h.symm (tmpPath_ne (by decide))
  · rw [hl, hl', tmpPath_lock h]

/-! ## The invariant -/

structure Inv (s : System) : Prop where
  lock : ∀ p, (s.pc p).holds = true → ∃ l, lockPath (s.env p) = some l ∧ s.lock l = some p
  socket : ∀ p, (s.pc p).owns = true → s.socket (s.path p) = some p
  path : ∀ p, (s.pc p).connectable = true → Connectable (s.path p)
  bound : ∀ path p, s.socket path = some p → s.pc p = .exited ∨ s.path p = path

section

variable {s : System} {p q : ℕ}

/-- Of the processes of a socket one is past the lock. -/
theorem Inv.eq_of_path (h : Inv s) (hp : (s.pc p).connectable = true) (hq : (s.pc q).holds = true)
    (hpath : s.path q = s.path p) : q = p := by
  have hholds : (s.pc p).holds = true := by
    cases hpc : s.pc p <;> rw [hpc] at hp <;> first | rfl | cases hp
  obtain ⟨l, hl, hlock⟩ := h.lock p hholds
  obtain ⟨l', hl', hlock'⟩ := h.lock q hq
  have hsame := lockPath_of_socketPath hpath.symm (h.path p hp).1
  rw [hl, hl', Option.some_inj] at hsame
  rw [hsame, hlock'] at hlock
  exact Option.some_inj.mp hlock

theorem pc_goto (pc : Pc) (q : ℕ) : (s.goto p pc).pc q = if q = p then pc else s.pc q := by
  exact Function.update_apply _ _ _ _

/-- A process goes on without touching a file. -/
theorem Inv.goto {pc : Pc} (h : Inv s) (hholds : pc.holds = true → (s.pc p).holds = true)
    (howns : pc.owns = true → (s.pc p).owns = true)
    (hpath : pc.connectable = true → Connectable (s.path p)) (hexited : s.pc p ≠ .exited) :
    Inv (s.goto p pc) where
  lock q hq := by
    rw [pc_goto] at hq
    split_ifs at hq with hqp
    · subst hqp
      exact h.lock q (hholds hq)
    · exact h.lock q hq
  socket q hq := by
    rw [pc_goto] at hq
    split_ifs at hq with hqp
    · subst hqp
      exact h.socket q (howns hq)
    · exact h.socket q hq
  path q hq := by
    rw [pc_goto] at hq
    split_ifs at hq with hqp
    · subst hqp
      exact hpath hq
    · exact h.path q hq
  bound path q hq := by
    rw [pc_goto]
    rcases h.bound path q hq with hgone | hown
    · have hqp : q ≠ p := by
        rintro rfl
        exact hexited hgone
      rw [if_neg hqp]
      exact .inl hgone
    · exact .inr hown

theorem Inv.exit (h : Inv s) (p : ℕ) : Inv (s.exit p) where
  lock q hq := by
    change ((s.goto p .exited).pc q).holds = true at hq
    rw [pc_goto] at hq
    split_ifs at hq with hqp
    · cases hq
    · obtain ⟨l, hl, hlock⟩ := h.lock q hq
      refine ⟨l, hl, ?_⟩
      change (if s.lock l = some p then none else s.lock l) = some q
      rw [if_neg fun hp => hqp (Option.some_inj.mp (hlock.symm.trans hp)), hlock]
  socket q hq := by
    change ((s.goto p .exited).pc q).owns = true at hq
    rw [pc_goto] at hq
    split_ifs at hq
    · cases hq
    · exact h.socket q hq
  path q hq := by
    change ((s.goto p .exited).pc q).connectable = true at hq
    rw [pc_goto] at hq
    split_ifs at hq
    · cases hq
    · exact h.path q hq
  bound path q hq := by
    change (s.goto p .exited).pc q = .exited ∨ _
    rw [pc_goto]
    split_ifs
    · exact .inl rfl
    · exact h.bound path q hq

/-- A process that is past the probe removes its own socket, if any. -/
theorem Inv.unlink {pc : Pc} (h : Inv s) (hp : (s.pc p).connectable = true)
    (howns : pc.owns = false) (hholds : (s.pc p).holds = true) :
    Inv ((s.unlink (s.path p)).goto p pc) where
  lock q hq := by
    rw [pc_goto] at hq
    split_ifs at hq with hqp
    · subst hqp
      exact h.lock q hholds
    · exact h.lock q hq
  socket q hq := by
    rw [pc_goto] at hq
    split_ifs at hq with hqp
    · rw [howns] at hq
      cases hq
    · have hne : s.path q ≠ s.path p := by
        intro heq
        have hqholds : (s.pc q).holds = true := by
          cases hpc : s.pc q <;> rw [System.unlink] at hq <;> simp only at hq <;>
            rw [hpc] at hq <;> first | rfl | cases hq
        exact hqp (h.eq_of_path hp hqholds heq)
      change Function.update s.socket (s.path p) none (s.path q) = some q
      rw [Function.update_of_ne hne]
      exact h.socket q hq
  path q hq := by
    rw [pc_goto] at hq
    split_ifs at hq with hqp
    · subst hqp
      exact h.path q hp
    · exact h.path q hq
  bound path q hq := by
    change Function.update s.socket (s.path p) none path = some q at hq
    rw [Function.update_apply] at hq
    split_ifs at hq
    rw [pc_goto]
    rcases h.bound path q hq with hgone | hown
    · have hqp : q ≠ p := by
        rintro rfl
        rw [hgone] at hp
        cases hp
      rw [if_neg hqp]
      exact .inl hgone
    · exact .inr hown

/-- A process binds its socket where there is none. -/
theorem Inv.bind (h : Inv s) (hpc : s.pc p = .unlinked) (hnone : s.socket (s.path p) = none) :
    Inv { s.goto p .bound with socket := Function.update s.socket (s.path p) (some p) } where
  lock q hq := by
    change ((s.goto p .bound).pc q).holds = true at hq
    rw [pc_goto] at hq
    split_ifs at hq with hqp
    · subst hqp
      exact h.lock q (by rw [hpc]; rfl)
    · exact h.lock q hq
  socket q hq := by
    change ((s.goto p .bound).pc q).owns = true at hq
    change Function.update s.socket (s.path p) (some p) (s.path q) = some q
    rw [pc_goto] at hq
    rw [Function.update_apply]
    split_ifs at hq with hqp
    · rw [hqp, if_pos rfl]
    · have hsocket := h.socket q hq
      rw [if_neg fun heq => by rw [heq, hnone] at hsocket; cases hsocket]
      exact hsocket
  path q hq := by
    change ((s.goto p .bound).pc q).connectable = true at hq
    rw [pc_goto] at hq
    split_ifs at hq with hqp
    · subst hqp
      exact h.path q (by rw [hpc]; rfl)
    · exact h.path q hq
  bound path q hq := by
    change Function.update s.socket (s.path p) (some p) path = some q at hq
    change (s.goto p .bound).pc q = .exited ∨ s.path q = path
    rw [Function.update_apply] at hq
    split_ifs at hq with hpath
    · cases hq
      exact .inr hpath.symm
    · rw [pc_goto]
      rcases h.bound path q hq with hgone | hown
      · rw [if_neg fun hqp => by rw [hqp, hpc] at hgone; cases hgone]
        exact .inl hgone
      · exact .inr hown

/-- A process takes its lock. -/
theorem Inv.lockTaken {l : CString} (h : Inv s) (hpc : s.pc p = .start)
    (hl : lockPath (s.env p) = some l) (hfree : s.lock l = none) :
    Inv { s.goto p .locked with lock := Function.update s.lock l (some p) } where
  lock q hq := by
    change ((s.goto p .locked).pc q).holds = true at hq
    rw [pc_goto] at hq
    split_ifs at hq with hqp
    · subst hqp
      exact ⟨l, hl, Function.update_self _ _ _⟩
    · obtain ⟨l', hl', hlock⟩ := h.lock q hq
      -- The lock of another process is another one: this was free.
      have hne : l' ≠ l := by
        rintro rfl
        rw [hfree] at hlock
        cases hlock
      exact ⟨l', hl', (Function.update_of_ne hne _ _).trans hlock⟩
  socket q hq := by
    change ((s.goto p .locked).pc q).owns = true at hq
    rw [pc_goto] at hq
    split_ifs at hq
    · cases hq
    · exact h.socket q hq
  path q hq := by
    change ((s.goto p .locked).pc q).connectable = true at hq
    rw [pc_goto] at hq
    split_ifs at hq
    · cases hq
    · exact h.path q hq
  bound path q hq := by
    change (s.goto p .locked).pc q = .exited ∨ _
    rw [pc_goto]
    rcases h.bound path q hq with hgone | hown
    · rw [if_neg fun hqp => by rw [hqp, hpc] at hgone; cases hgone]
      exact .inl hgone
    · exact .inr hown

theorem Inv.advance (h : Inv s) (p : ℕ) (ok : Bool) : Inv (s.advance p ok) := by
  rw [System.advance]
  cases hpc : s.pc p with
  | start =>
    simp only
    split
    · exact h.exit p
    · rename_i l hl
      split_ifs with hfree
      · exact h.lockTaken hpc hl hfree.2
      · -- The lock is taken, or cannot be opened.
        exact h.exit p
  | locked =>
    simp only
    split_ifs with hfound
    · exact h.goto (fun _ => by rw [hpc]; rfl) (fun hfalse => nomatch hfalse) (fun _ => hfound.2.1)
        (by rw [hpc]; decide)
    · exact h.exit p
  | probed =>
    simp only
    split_ifs
    · exact h.exit p
    · exact h.goto (fun _ => by rw [hpc]; rfl) (fun hfalse => nomatch hfalse)
        (fun _ => h.path p (by rw [hpc]; rfl)) (by rw [hpc]; decide)
  | opened =>
    simp only
    split_ifs
    · exact h.goto (fun _ => by rw [hpc]; rfl) (fun hfalse => nomatch hfalse)
        (fun _ => h.path p (by rw [hpc]; rfl)) (by rw [hpc]; decide)
    · exact h.exit p
  | checked => exact h.unlink (by rw [hpc]; rfl) rfl (by rw [hpc]; rfl)
  | unlinked =>
    simp only
    split_ifs with hfree
    · exact h.bind hpc hfree.2
    · exact h.exit p
  | bound =>
    simp only
    split_ifs
    -- Listening or not, the process owns what it has bound.
    all_goals
      exact h.goto (fun _ => by rw [hpc]; rfl) (fun _ => by rw [hpc]; rfl)
        (fun _ => h.path p (by rw [hpc]; rfl)) (by rw [hpc]; decide)
  | serving =>
    exact h.goto (fun _ => by rw [hpc]; rfl) (fun _ => by rw [hpc]; rfl)
      (fun _ => h.path p (by rw [hpc]; rfl)) (by rw [hpc]; decide)
  | closed => exact h.unlink (by rw [hpc]; rfl) rfl (by rw [hpc]; rfl)
  | removed => exact h.exit p
  | exited => exact h

theorem Inv.initial (h : Initial s) : Inv s where
  lock p hp := by rcases h.pc p with hpc | hpc <;> rw [hpc] at hp <;> cases hp
  socket p hp := by rcases h.pc p with hpc | hpc <;> rw [hpc] at hp <;> cases hp
  path p hp := by rcases h.pc p with hpc | hpc <;> rw [hpc] at hp <;> cases hp
  bound path p hp := .inl (h.socket path p hp)

theorem inv_reachable (h : Run.Reachable step Initial (fun _ _ => True) s) : Inv s := by
  refine h.invariant (fun s => Inv.initial) fun s a s' hs _ hstep => ?_
  cases a with
  | advance p ok =>
    cases hstep
    exact hs.advance p ok
  | kill p =>
    cases hstep
    exact hs.exit p

/-- While a process serves a socket it is the one that has bound it, and no other process with
    this socket is past its lock. -/
theorem serves_alone (h : Run.Reachable step Initial (fun _ _ => True) s) (hp : s.pc p = .serving) :
    s.socket (s.path p) = some p ∧
      ∀ q, (s.pc q).holds = true → s.path q = s.path p → q = p :=
  have hinv := inv_reachable h
  ⟨hinv.socket p (by rw [hp]; rfl), fun _ hq hpath => hinv.eq_of_path (by rw [hp]; rfl) hq hpath⟩

end

/-- Processes of a user, of whom none has started. -/
def noDaemon : System :=
  ⟨fun _ => ⟨some "/r".toList, none, 0⟩, fun _ => .start, fun _ => none, fun _ => none⟩

theorem noDaemon_initial : Initial noDaemon :=
  ⟨fun _ => .inl rfl, fun _ => rfl, fun _ _ h => nomatch h⟩

/-- A process serves after another one has been killed with its socket bound. -/
theorem serves_alone_killed :
    ∃ s, Run.Reachable step Initial (fun _ _ => True) s ∧ s.pc 1 = .serving ∧
      s.socket (s.path 1) = some 1 := by
  obtain ⟨s, hs, hpc⟩ := Run.exists_reachable_of_exec step Initial (fun _ _ => True)
    (fun s => s.pc 1 = .serving) noDaemon_initial
    (List.replicate 6 (.advance 0 true) ++ [.kill 0] ++ List.replicate 7 (.advance 1 true))
    (by decide +kernel)
  exact ⟨s, hs, hpc, (serves_alone hs hpc).1⟩

/-! ## A daemon that starts -/

section

variable {s : System} {p q : ℕ}

/-- Nobody listens where a process is past its lock and does not serve. -/
theorem Inv.not_accepts (h : Inv s) (hp : (s.pc p).holds = true) (hserving : s.pc p ≠ .serving) :
    s.accepts (s.path p) = false := by
  rw [System.accepts]
  cases hsocket : s.socket (s.path p) with
  | none => rfl
  | some q =>
    refine decide_eq_false fun hq => ?_
    rcases h.bound _ q hsocket with hgone | hown
    · rw [hq] at hgone
      cases hgone
    · have heq := h.eq_of_path (p := q) (by rw [hq]; rfl) hp hown.symm
      exact hserving (heq ▸ hq)

/-- A process of which nothing is refused goes on, from `pc` to `pc'`. -/
def GoesOn (p : ℕ) (pc pc' : Pc) : Prop :=
  ∀ s, Inv s → Connectable (s.path p) → s.pc p = pc → (s.advance p true).pc p = pc'

theorem goesOn_locked : GoesOn p .locked .probed := by
  intro s h hpath hpc
  have hfree := h.not_accepts (p := p) (by rw [hpc]; rfl) (by rw [hpc]; decide)
  rw [System.advance, hpc]
  simp only
  rw [if_pos ⟨trivial, hpath, hfree⟩, pc_goto, if_pos rfl]

theorem goesOn_probed : GoesOn p .probed .opened := by
  intro s h _ hpc
  have hfree := h.not_accepts (p := p) (by rw [hpc]; rfl) (by rw [hpc]; decide)
  rw [System.advance, hpc]
  simp only
  rw [hfree, if_neg Bool.false_ne_true, pc_goto, if_pos rfl]

theorem goesOn_opened : GoesOn p .opened .checked := by
  intro s h _ hpc
  have hfree := h.not_accepts (p := p) (by rw [hpc]; rfl) (by rw [hpc]; decide)
  rw [System.advance, hpc]
  simp only
  rw [if_pos ⟨trivial, hfree⟩, pc_goto, if_pos rfl]

theorem path_advance (p q : ℕ) (ok : Bool) : (s.advance p ok).path q = s.path q := by
  have henv : (s.advance p ok).env = s.env := by
    rw [System.advance]
    cases s.pc p with
    | start =>
      simp only
      split
      · rfl
      · split_ifs <;> rfl
    | locked => simp only; split_ifs <;> rfl
    | probed => simp only; split_ifs <;> rfl
    | opened => simp only; split_ifs <;> rfl
    | unlinked => simp only; split_ifs <;> rfl
    | bound => simp only; split_ifs <;> rfl
    | _ => rfl
  rw [System.path, henv, System.path]

/-- From a process that has removed the socket it found, if any, to one that serves its own. -/
theorem advance_checked (hpc : s.pc p = .checked) :
    (((s.advance p true).advance p true).advance p true).pc p = .serving := by
  have h₁ : s.advance p true = (s.unlink (s.path p)).goto p .unlinked := by
    rw [System.advance, hpc]
  have hpc₁ : (s.advance p true).pc p = .unlinked := by rw [h₁, pc_goto, if_pos rfl]
  have hnone : (s.advance p true).socket ((s.advance p true).path p) = none := by
    rw [path_advance, h₁]
    exact Function.update_self _ _ _
  have hpc₂ : ((s.advance p true).advance p true).pc p = .bound := by
    generalize s.advance p true = t at hpc₁ hnone
    rw [System.advance, hpc₁]
    simp only
    rw [if_pos ⟨trivial, hnone⟩]
    exact Function.update_self _ _ _
  generalize (s.advance p true).advance p true = t at hpc₂
  rw [System.advance, hpc₂]
  simp only
  rw [if_pos trivial, pc_goto, if_pos rfl]

/-- A process that takes a free lock comes to serve its socket if the system does what it is
    asked, whatever earlier daemons have left behind. -/
theorem serves {l : CString} (h : Run.Reachable step Initial (fun _ _ => True) s)
    (hpc : s.pc p = .start) (hl : lockPath (s.env p) = some l) (hfree : s.lock l = none)
    (hpath : Connectable (s.path p)) :
    ∃ s', Run.Reachable step (· = s) (fun _ a => a = .advance p true) s' ∧ s'.pc p = .serving := by
  let next : System → System := fun s => s.advance p true
  have hrun : ∀ n, Run.Reachable step (· = s) (fun _ a => a = .advance p true) (next^[n] s) := by
    intro n
    induction n with
    | zero => exact .init rfl
    | succ n ih =>
      rw [Function.iterate_succ_apply']
      exact ih.step rfl rfl
  have hinv : ∀ n, Inv (next^[n] s) := by
    intro n
    induction n with
    | zero => exact inv_reachable h
    | succ n ih =>
      rw [Function.iterate_succ_apply']
      exact ih.advance p true
  have hpaths : ∀ n, Connectable ((next^[n] s).path p) := by
    intro n
    induction n with
    | zero => exact hpath
    | succ n ih =>
      rw [Function.iterate_succ_apply', path_advance]
      exact ih
  have hgo {n : ℕ} {pc pc' : Pc} (hgoes : GoesOn p pc pc') (hn : (next^[n] s).pc p = pc) :
      (next^[n + 1] s).pc p = pc' := by
    rw [Function.iterate_succ_apply']
    exact hgoes _ (hinv n) (hpaths n) hn
  have hlocked : (next^[1] s).pc p = .locked := by
    change (s.advance p true).pc p = .locked
    rw [System.advance, hpc]
    simp only [hl]
    rw [if_pos ⟨trivial, hfree⟩]
    exact Function.update_self _ _ _
  have hchecked := hgo goesOn_opened (hgo goesOn_probed (hgo goesOn_locked hlocked))
  refine ⟨next^[7] s, hrun 7, ?_⟩
  rw [show (7 : ℕ) = 4 + 1 + 1 + 1 from rfl, Function.iterate_succ_apply',
    Function.iterate_succ_apply', Function.iterate_succ_apply']
  exact advance_checked hchecked

end

/-- The first process of a user comes to serve. -/
theorem serves_first :
    ∃ s', Run.Reachable step (· = noDaemon) (fun _ a => a = .advance 0 true) s' ∧
      s'.pc 0 = .serving :=
  serves (l := "/r/cdm.lock".toList) (.init noDaemon_initial) rfl (by decide) rfl (by decide)

end Instance

end Cdm
