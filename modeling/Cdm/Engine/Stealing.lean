import Cdm.Engine.Splits
import Cdm.Lib.Run

/-!
# Stealing, one atomic operation at a time

A worker that is done takes the upper half of what another one still has to write, while that
one goes on writing: the write callback does not take the lock of the pool. Here a step is one
atomic operation of a worker (`StealState.step`, and case by case `StealStep`), so that callbacks
may run between the loads of the thief and its store. The counters of the chunks play no part.

A thief that nobody interrupts splits the victim as `RebalancePool.split` does
(`StealState.alone_split`).
-/

namespace Cdm

/-! ## The workers -/

/-- How a transfer ended. -/
inductive TransferEnd
  /-- The server has sent all it was going to. -/
  | complete
  /-- The connection failed. -/
  | broken
  /-- A callback took less than it was given, at the limit of its slot. -/
  | cut
  /-- A callback took nothing: a flag was set, or the file could not be written. -/
  | stopped
  deriving DecidableEq

/-- The next operation of a worker. -/
inductive StealPc
  | request
  /-- Between two callbacks. -/
  | transfer
  /-- A callback on `n` bytes is about to load the limit. -/
  | callback (n : ℕ)
  /-- `m` of the `n` bytes are to be written. -/
  | write (n m : ℕ)
  /-- They are to be added to the bytes done, -/
  | count (n m : ℕ)
  /-- and to the write position of the slot. -/
  | advance (n m : ℕ)
  /-- The segment is to be judged. -/
  | judge (e : TransferEnd)
  | failed (e : TransferEnd)
  | succeeded
  /-- The slot is released, and another one looked for. -/
  | idle
  /-- The slot `k` is the next one to be looked at; `best` is what was found so far. -/
  | scan (k : ℕ) (best : Option (PoolSlot × ℕ))
  | loadPos (v : ℕ)
  | loadEnd (v wp : ℕ)
  | store (v wp le : ℕ)
  /-- The limit of the victim is lowered to `split`, and the new slot is not there yet. -/
  | publish (split le : ℕ)
  | ended
  deriving DecidableEq

structure StealWorker where
  range : Range
  bytesDone : ℕ
  slotIndex : ℕ
  truncated : Bool
  /-- The status of the response. -/
  status : ℕ
  /-- The bytes the server has sent for the request. -/
  sent : ℕ
  pc : StealPc
  deriving DecidableEq

/-- What happens in a step of a worker. -/
inductive StealEvent
  | respond (status : ℕ)
  /-- The callback is called on the next `n` bytes. -/
  | receive (n : ℕ)
  /-- The transfer ends, with an error or without. -/
  | finish (ok : Bool)
  /-- The callback finds a flag set, or waits for bandwidth in vain. -/
  | stop
  | write (ok : Bool)
  | next

/-- The most bytes a callback is called on. -/
def curlMaxWriteSize : ℕ := 16384

namespace StealWorker

/-- A worker that enters a segment, the bytes `[start, liveEnd)` of the slot `k`. -/
def assign (k start liveEnd : ℕ) : StealWorker where
  range := ⟨start, liveEnd - 1, 0, false⟩
  bytesDone := 0
  slotIndex := k
  truncated := false
  status := 0
  sent := 0
  pc := .request

variable (w : StealWorker)

/-- The offset the next byte received is written at. -/
def current : ℕ := w.range.offset + w.bytesDone

/-- The callback has loaded the limit of the slot. -/
def callback (liveEnd n : ℕ) : StealWorker :=
  if liveEnd ≤ w.current then { w with truncated := true, pc := .judge .cut }
  else if liveEnd - w.current < n then
    { w with truncated := true, pc := .write n (liveEnd - w.current) }
  else { w with pc := .write n n }

/-- The response is one to the request, out of `workers`. -/
def HttpOk (workers : ℕ) : Prop :=
  w.status = 206 ∨
    w.status = 200 ∧ (w.range.wholeFile = true ∨ workers = 1 ∧ w.range.offset = 0)

instance (workers : ℕ) : Decidable (w.HttpOk workers) := inferInstanceAs (Decidable (_ ∨ _))

/-- The judgement of a segment, when the limit of its slot is `liveEnd`. -/
def segmentOk (workers liveEnd : ℕ) (e : TransferEnd) : Bool :=
  decide (w.HttpOk workers ∧ w.bytesDone = liveEnd - w.range.offset ∧
    (e = .complete ∨ w.truncated = true))

/-- The server has sent all that was asked for, or as much of it as the worker took. -/
def Served (workers : ℕ) (e : TransferEnd) : Prop :=
  w.HttpOk workers ∧
    (e = .complete ∧ w.sent = w.range.last + 1 - w.range.offset ∨ e = .cut)

instance (workers : ℕ) (e : TransferEnd) : Decidable (w.Served workers e) :=
  inferInstanceAs (Decidable (_ ∧ _))

end StealWorker

/-- Where a slot is split, in 64 bits. -/
def splitPoint (wp le : ℕ) : ℕ := (UInt64.ofNat wp + (UInt64.ofNat le - UInt64.ofNat wp) / 2).toNat

theorem splitPoint_eq {wp le : ℕ} (h : wp ≤ le) (hle : le < 2 ^ 64) :
    splitPoint wp le = wp + (le - wp) / 2 := by
  have hsize : UInt64.size = 2 ^ 64 := rfl
  have hwp : (UInt64.ofNat wp).toNat = wp := UInt64.toNat_ofNat_of_lt' (by omega)
  have hend : (UInt64.ofNat le).toNat = le := UInt64.toNat_ofNat_of_lt' (by omega)
  have hsub : (UInt64.ofNat le - UInt64.ofNat wp).toNat = le - wp := by
    rw [UInt64.toNat_sub_of_le _ _ (by rwa [UInt64.le_iff_toNat_le, hwp, hend]), hwp, hend]
  have htwo : (2 : UInt64).toNat = 2 := rfl
  rw [splitPoint, UInt64.toNat_add, UInt64.toNat_div, hsub, hwp, htwo]
  exact Nat.mod_eq_of_lt (by omega)

/-! ## The steps -/

structure StealState where
  pool : RebalancePool
  workers : List StealWorker
  /-- The worker that holds the lock of the pool. -/
  holder : Option ℕ

namespace StealState

variable (s : StealState)

def setWorker (i : ℕ) (w : StealWorker) : StealState := { s with workers := s.workers.set i w }

def modifySlot (k : ℕ) (f : PoolSlot → PoolSlot) : StealState :=
  { s with pool := { s.pool with slots := s.pool.slots.modify k f } }

/-- The worker `i` takes the lock, and an orphaned slot if there is one. -/
def acquire (i : ℕ) (w : StealWorker) : StealState :=
  match s.pool.orphan with
  | some (x, k) =>
    { s.setWorker i (.assign k x.writePos x.liveEnd) with pool := s.pool.claim k }
  | none => { s.setWorker i { w with pc := .scan 0 none } with holder := some i }

/-- All slots have been looked at. -/
def choose (i : ℕ) (w : StealWorker) (best : Option (PoolSlot × ℕ)) : StealState :=
  match best with
  | none => { s.setWorker i { w with pc := .ended } with holder := none }
  | some x =>
    if x.1.remaining < s.pool.minStealBytes ∨ maxWorkers ≤ s.pool.slots.length then
      { s.setWorker i { w with pc := .ended } with holder := none }
    else s.setWorker i { w with pc := .loadPos x.2 }

/-- The worker `i` enters the new slot, and releases the lock. -/
def publish (i split le : ℕ) : StealState :=
  { pool := { s.pool with slots := s.pool.slots ++ [⟨split, split, le, true, false, none⟩] }
    workers := s.workers.set i (.assign s.pool.slots.length split le)
    holder := none }

/-- A step of the worker `w`, the `i`-th. -/
def stepOf (i : ℕ) (w : StealWorker) (e : StealEvent) : Option StealState :=
  match w.pc, e with
  | .request, .respond status => some (s.setWorker i { w with status := status, pc := .transfer })
  | .transfer, .receive n =>
    if 0 < n ∧ n ≤ curlMaxWriteSize then
      some (s.setWorker i { w with sent := w.sent + n, pc := .callback n })
    else none
  | .transfer, .finish ok =>
    some (s.setWorker i { w with pc := .judge (if ok then .complete else .broken) })
  | .callback _, .stop => some (s.setWorker i { w with pc := .judge .stopped })
  | .callback n, .next =>
    (s.pool.slots[w.slotIndex]?).map fun x => s.setWorker i (w.callback x.liveEnd n)
  | .write n m, .write ok =>
    some (s.setWorker i { w with pc := if ok then .count n m else .judge .stopped })
  | .count n m, .next =>
    some (s.setWorker i { w with bytesDone := w.bytesDone + m, pc := .advance n m })
  | .advance n m, .next =>
    some ((s.modifySlot w.slotIndex fun x => { x with writePos := x.writePos + m }).setWorker i
      { w with pc := if m = n then .transfer else .judge .cut })
  | .judge e, .next =>
    (s.pool.slots[w.slotIndex]?).map fun x => s.setWorker i
      { w with pc := if w.segmentOk s.workers.length x.liveEnd e then .succeeded else .failed e }
  | .succeeded, .next =>
    if s.holder = none then
      some { s.setWorker i { w with pc := .idle } with pool := s.pool.markDone w.slotIndex }
    else none
  | .idle, .next => if s.holder = none then some (s.acquire i w) else none
  | .scan k best, .next =>
    match s.pool.slots[k]? with
    | some x =>
      some (s.setWorker i { w with pc := .scan (k + 1) (RebalancePool.busier best (x, k)) })
    | none => some (s.choose i w best)
  | .loadPos v, .next =>
    (s.pool.slots[v]?).map fun x => s.setWorker i { w with pc := .loadEnd v x.writePos }
  | .loadEnd v wp, .next =>
    (s.pool.slots[v]?).map fun x => s.setWorker i { w with pc := .store v wp x.liveEnd }
  | .store v wp le, .next =>
    some ((s.modifySlot v fun x => { x with liveEnd := splitPoint wp le }).setWorker i
      { w with pc := .publish (splitPoint wp le) le })
  | .publish split le, .next => some (s.publish i split le)
  | _, _ => none

def step (a : ℕ × StealEvent) : Option StealState :=
  (s.workers[a.1]?).bind fun w => s.stepOf a.1 w a.2

end StealState

/-- The worker of the `i`-th range. -/
def StealWorker.create (i : ℕ) (r : Range) : StealWorker := ⟨r, 0, i, false, 0, 0, .request⟩

def minStealBytes : ℕ := 1024 * 1024

/-- A pool for the planned ranges, and a worker for each. -/
def stealingCreate (rs : List Range) : StealState where
  pool := rebalancePoolCreate (rs.mapIdx fun i r => (i, r)) minStealBytes
  workers := rs.mapIdx StealWorker.create
  holder := none

def StealState.IsInit (s : StealState) : Prop :=
  ∃ rs : List Range, s = stealingCreate rs ∧
    ∀ r ∈ rs, r.offset ≤ r.last + 1 ∧ r.last + 1 < 2 ^ 64

/-! ## What a step does -/

/-- The steps of the worker `w`, the `i`-th. -/
inductive StealStep (s : StealState) (i : ℕ) (w : StealWorker) : StealEvent → StealState → Prop
  | respond {status : ℕ} (hpc : w.pc = .request) :
      StealStep s i w (.respond status) (s.setWorker i { w with status := status, pc := .transfer })
  | receive {n : ℕ} (hpc : w.pc = .transfer) (hn : 0 < n) (hmax : n ≤ curlMaxWriteSize) :
      StealStep s i w (.receive n) (s.setWorker i { w with sent := w.sent + n, pc := .callback n })
  | finish {ok : Bool} (hpc : w.pc = .transfer) :
      StealStep s i w (.finish ok)
        (s.setWorker i { w with pc := .judge (if ok then .complete else .broken) })
  | stop {n : ℕ} (hpc : w.pc = .callback n) :
      StealStep s i w .stop (s.setWorker i { w with pc := .judge .stopped })
  | loadLimit {n : ℕ} {x : PoolSlot} (hpc : w.pc = .callback n)
      (hx : s.pool.slots[w.slotIndex]? = some x) :
      StealStep s i w .next (s.setWorker i (w.callback x.liveEnd n))
  | write {n m : ℕ} {ok : Bool} (hpc : w.pc = .write n m) :
      StealStep s i w (.write ok)
        (s.setWorker i { w with pc := if ok then .count n m else .judge .stopped })
  | count {n m : ℕ} (hpc : w.pc = .count n m) :
      StealStep s i w .next
        (s.setWorker i { w with bytesDone := w.bytesDone + m, pc := .advance n m })
  | advance {n m : ℕ} (hpc : w.pc = .advance n m) :
      StealStep s i w .next
        ((s.modifySlot w.slotIndex fun x => { x with writePos := x.writePos + m }).setWorker i
          { w with pc := if m = n then .transfer else .judge .cut })
  | judge {e : TransferEnd} {x : PoolSlot} (hpc : w.pc = .judge e)
      (hx : s.pool.slots[w.slotIndex]? = some x) :
      StealStep s i w .next (s.setWorker i
        { w with pc := if w.segmentOk s.workers.length x.liveEnd e then .succeeded else .failed e })
  | markDone (hpc : w.pc = .succeeded) (hfree : s.holder = none) :
      StealStep s i w .next
        { s.setWorker i { w with pc := .idle } with pool := s.pool.markDone w.slotIndex }
  | acquire (hpc : w.pc = .idle) (hfree : s.holder = none) :
      StealStep s i w .next (s.acquire i w)
  | look {k : ℕ} {best : Option (PoolSlot × ℕ)} {x : PoolSlot} (hpc : w.pc = .scan k best)
      (hx : s.pool.slots[k]? = some x) :
      StealStep s i w .next
        (s.setWorker i { w with pc := .scan (k + 1) (RebalancePool.busier best (x, k)) })
  | choose {k : ℕ} {best : Option (PoolSlot × ℕ)} (hpc : w.pc = .scan k best)
      (hx : s.pool.slots[k]? = none) : StealStep s i w .next (s.choose i w best)
  | loadPos {v : ℕ} {x : PoolSlot} (hpc : w.pc = .loadPos v) (hx : s.pool.slots[v]? = some x) :
      StealStep s i w .next (s.setWorker i { w with pc := .loadEnd v x.writePos })
  | loadEnd {v wp : ℕ} {x : PoolSlot} (hpc : w.pc = .loadEnd v wp)
      (hx : s.pool.slots[v]? = some x) :
      StealStep s i w .next (s.setWorker i { w with pc := .store v wp x.liveEnd })
  | store {v wp le : ℕ} (hpc : w.pc = .store v wp le) :
      StealStep s i w .next
        ((s.modifySlot v fun x => { x with liveEnd := splitPoint wp le }).setWorker i
          { w with pc := .publish (splitPoint wp le) le })
  | publish {split le : ℕ} (hpc : w.pc = .publish split le) :
      StealStep s i w .next (s.publish i split le)

theorem StealStep.of_eq {s s' : StealState} {i : ℕ} {w : StealWorker} {e : StealEvent}
    (h : s.stepOf i w e = some s') : StealStep s i w e s' := by
  unfold StealState.stepOf at h
  split at h
  · cases h
    exact .respond ‹_›
  · split_ifs at h with hn
    cases h
    exact .receive ‹_› hn.1 hn.2
  · cases h
    exact .finish ‹_›
  · cases h
    exact .stop ‹_›
  · obtain ⟨x, hx, rfl⟩ := Option.map_eq_some_iff.1 h
    exact .loadLimit ‹_› hx
  · cases h
    exact .write ‹_›
  · cases h
    exact .count ‹_›
  · cases h
    exact .advance ‹_›
  · obtain ⟨x, hx, rfl⟩ := Option.map_eq_some_iff.1 h
    exact .judge ‹_› hx
  · split_ifs at h with hfree
    cases h
    exact .markDone ‹_› hfree
  · split_ifs at h with hfree
    cases h
    exact .acquire ‹_› hfree
  · split at h
    · cases h
      exact .look ‹_› ‹_›
    · cases h
      exact .choose ‹_› ‹_›
  · obtain ⟨x, hx, rfl⟩ := Option.map_eq_some_iff.1 h
    exact .loadPos ‹_› hx
  · obtain ⟨x, hx, rfl⟩ := Option.map_eq_some_iff.1 h
    exact .loadEnd ‹_› hx
  · cases h
    exact .store ‹_›
  · cases h
    exact .publish ‹_›
  · cases h

/-! ## A thief alone -/

namespace StealState

variable {s : StealState} {i : ℕ} {w : StealWorker}

/-- The run of the worker `i` alone. -/
abbrev Alone (s : StealState) (i : ℕ) (s' : StealState) : Prop :=
  Run.Reachable StealState.step (· = s) (fun _ a => a = (i, .next)) s'

/-- The pool, while the worker `i` is at a place in which it holds the lock. -/
def hold (s : StealState) (i : ℕ) (w : StealWorker) (pc : StealPc) : StealState :=
  ⟨s.pool, s.workers.set i { w with pc := pc }, some i⟩

theorem step_hold (hw : s.workers[i]? = some w) {pc : StealPc} {s' : StealState}
    (h : (s.hold i w pc).stepOf i { w with pc := pc } .next = some s') :
    (s.hold i w pc).step (i, .next) = some s' := by
  have hlt := (List.getElem?_eq_some_iff.1 hw).1
  rw [step, hold, List.getElem?_set_self hlt]
  exact h

/-- All slots are looked at in turn. -/
theorem alone_scan (hw : s.workers[i]? = some w) (hpc : w.pc = .idle) (hfree : s.holder = none)
    (horphan : s.pool.NoOrphan) {k : ℕ} (hk : k ≤ s.pool.slots.length) :
    Alone s i (s.hold i w
      (.scan k ((s.pool.slots.zipIdx.take k).foldl RebalancePool.busier none))) := by
  -- The scan looks at one slot in each step, under the lock.
  induction k with
  | zero =>
    refine .step (.init rfl) rfl ?_
    obtain ⟨range, bytesDone, slotIndex, truncated, status, sent, pc⟩ := w
    obtain rfl : pc = .idle := hpc
    rw [step, hw]
    simp only [Option.bind_some, stepOf, hfree, if_true, acquire, horphan.orphan_eq_none]
    rfl
  | succ k ih =>
    refine .step (ih (by omega)) rfl (step_hold hw ?_)
    have hx : s.pool.slots[k]? = some s.pool.slots[k] := List.getElem?_eq_getElem hk
    have htake : s.pool.slots.zipIdx.take (k + 1) =
        s.pool.slots.zipIdx.take k ++ [(s.pool.slots[k], k)] := by
      rw [List.take_add_one, List.getElem?_eq_getElem (by simpa using hk)]
      simp
    rw [htake, List.foldl_append]
    simp only [stepOf, hold, hx, setWorker, List.set_set]
    rfl

/-- A thief that nobody interrupts splits the victim at its middle. -/
theorem alone_split (hw : s.workers[i]? = some w) (hpc : w.pc = .idle) (hfree : s.holder = none)
    (horphan : s.pool.NoOrphan) {x : PoolSlot} {v : ℕ} (hv : s.pool.victim = some (x, v))
    (hx : x.writePos ≤ x.liveEnd) (hlt : x.liveEnd < 2 ^ 64) :
    Alone s i ⟨s.pool.split x v none,
      s.workers.set i (.assign s.pool.slots.length x.middle x.liveEnd), none⟩ := by
  obtain ⟨hsteal, hmin, hroom⟩ := RebalancePool.victim_spec hv
  have hget := hsteal.get
  have hmiddle : splitPoint x.writePos x.liveEnd = x.middle := splitPoint_eq hx hlt
  -- The busiest slot is the victim, and is loaded once more.
  have hscan := alone_scan hw hpc hfree horphan le_rfl
  have hbest : s.pool.slots.zipIdx.foldl RebalancePool.busier none = some (x, v) := by
    rw [RebalancePool.victim] at hv
    split at hv
    · cases hv
    · rename_i y hy
      split_ifs at hv
      exact hy.trans hv
  rw [List.take_of_length_le (by simp), hbest] at hscan
  have hchosen : Alone s i (s.hold i w (.loadPos v)) := by
    have henough : ¬(x.remaining < s.pool.minStealBytes ∨ maxWorkers ≤ s.pool.slots.length) := by
      omega
    refine .step hscan rfl (step_hold hw ?_)
    simp only [stepOf, hold, List.getElem?_eq_none le_rfl]
    exact congrArg some ((if_neg henough).trans (by simp [setWorker]))
  have hpos : Alone s i (s.hold i w (.loadEnd v x.writePos)) := by
    refine .step hchosen rfl (step_hold hw ?_)
    simp [stepOf, hold, hget, setWorker]
  have hend : Alone s i (s.hold i w (.store v x.writePos x.liveEnd)) := by
    refine .step hpos rfl (step_hold hw ?_)
    simp [stepOf, hold, hget, setWorker]
  have hstored : Alone s i { s.hold i w (.publish x.middle x.liveEnd) with
      pool := { s.pool with
        slots := s.pool.slots.modify v fun y => { y with liveEnd := x.middle } } } := by
    refine .step hend rfl (step_hold hw ?_)
    simp [stepOf, hold, modifySlot, setWorker, hmiddle]
  have hmodify : s.pool.slots.modify v (fun y => { y with liveEnd := x.middle }) =
      s.pool.slots.modify v fun y => { y with liveEnd := y.middle } := by
    refine List.ext_getElem? fun k => ?_
    rw [List.getElem?_modify, List.getElem?_modify]
    by_cases hk : v = k
    · subst hk
      rw [hget]
      simp
    · simp [hk]
  refine .step hstored rfl ?_
  have hlt' := (List.getElem?_eq_some_iff.1 hw).1
  rw [step, hold, List.getElem?_set_self hlt']
  simp only [Option.bind_some, stepOf, StealState.publish, List.set_set, List.length_modify,
    RebalancePool.split, hmodify]

end StealState

end Cdm
