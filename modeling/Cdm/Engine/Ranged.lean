import Cdm.Engine.Layout
import Cdm.Engine.Progress

/-!
# Servers with range support

The chunk table has eight entries; the pool splits slots without looking whether it has
room. The tail handed over by a split with a full table is in no chunk, and if its
worker fails, nothing fetches it again: the calls that follow find every chunk complete,
and report success (`exists_lost_range`).

Two other slips have the same effect. The counter of a new slot is read under the index
of the slot, while it was stored under the index of the chunk, which differ when some
chunks were complete before the call: a slot may add to the counter of another chunk.
And the single connection tried last expects one byte, so that it succeeds on an answer
of one byte.

In every session without these (`roomForSplit`, `ownCounter`, `noByteFallback`), a call
that returns `0` leaves the resource in the file (`complete_of_tracked`): what is not
right in the file is always some worker's to write (`CoverRun`).
-/

namespace Cdm.Ranged

variable {R : ℕ → UInt8} {T : UInt64} {w w' : World} {run run' : PoolRun}

/-- The answers to a request: a prefix of the range, or of the resource if the request is
    for all of it. -/
def answers (T : UInt64) (r : Range) : Answer → Bool
  | .partialContent len => r.wholeFile = false ∧ r.offset + len ≤ r.last + 1
  | .ok len => r.wholeFile = true ∧ r.offset = 0 ∧ len ≤ T.toNat
  | .refused _ => true
  | .other _ _ _ => false

/-- The server: it has range support, and answers a request with a prefix of what was
    asked for, if at all. (There is no restart between the calls.) -/
def serves (T : UInt64) (s : EngineState) : SessionAct → Bool
  | .engine (.head (some info)) => info = ⟨T, true⟩
  | .engine (.pool (.worker i (.answer a))) =>
    s.poolRun.all fun run => (run.contexts[i]?).all fun c => answers T c.range a
  | .restore => false
  | _ => true

/-- The single connection tried last does not end without an error after one byte. -/
def noByteFallback (s : EngineState) : SessionAct → Bool
  | .engine (.pool (.worker i (.finish res))) =>
    match s.pc with
    | .fallback _ run => (run.contexts[i]?).all fun c => !(res && c.bytesDone = 1)
    | _ => true
  | _ => true

/-- A step that keeps track of what is to fetch. -/
def tracked (s : EngineState) (a : SessionAct) : Bool :=
  roomForSplit s a && ownCounter s a && noByteFallback s a

/-! ## What the workers have to write -/

/-- The worker is done with its segment. -/
def finished : Phase → Bool
  | .segmentDone | .idle | .ended true => true
  | _ => false

/-- Where a worker stops writing: at the limit of its slot, or the end of its range. -/
def stop (run : PoolRun) (c : WorkerContext) : ℕ := (run.limit c).getD (c.range.last + 1)

/-- Every byte of the file that is not right is some worker's to write. -/
structure CoverRun (R : ℕ → UInt8) (n : ℕ) (w : World) (run : PoolRun) : Prop where
  ranged : ∀ c ∈ run.contexts, c.range.wholeFile = false
  le_stop : ∀ c ∈ run.contexts, c.current ≤ stop run c
  done : ∀ c ∈ run.contexts, finished c.phase = true → c.current = stop run c
  slot : ∀ p ∈ run.pool, ∀ c ∈ run.contexts,
    ∃ s, p.slots[c.slotIndex]? = some s ∧ s.writePos = c.current
  apart : ∀ (i i' : ℕ) (c c' : WorkerContext), run.contexts[i]? = some c →
    run.contexts[i']? = some c' → c.slotIndex = c'.slotIndex → i = i'
  cover : ∀ x < n, w.Right R x ∨ ∃ c ∈ run.contexts, c.current ≤ x ∧ x < stop run c

/-- Everything is right. -/
def AllRight (R : ℕ → UInt8) (n : ℕ) (w : World) : Prop := ∀ x < n, w.Right R x

section Pool

variable {n i : ℕ}

/-- A worker changes, but for its progress and its slot. -/
theorem CoverRun.modify (h : CoverRun R n w run) {f : WorkerContext → WorkerContext}
    (hpool : run'.pool = run.pool) (hcontexts : run'.contexts = run.contexts.modify i f)
    (hf : ∀ c, (f c).range = c.range ∧ (f c).bytesDone = c.bytesDone ∧
      (f c).slotIndex = c.slotIndex)
    (hdone : ∀ c, run.contexts[i]? = some c → finished (f c).phase = true →
      c.current = stop run c)
    (hright : ∀ x, w.Right R x → w'.Right R x) : CoverRun R n w' run' := by
  have hcur : ∀ c, (f c).current = c.current := fun c => by
    rw [WorkerContext.current, (hf c).1, (hf c).2.1]
    rfl
  have hstop : ∀ c, stop run' (f c) = stop run c := fun c => by
    simp only [stop, PoolRun.limit, hpool, (hf c).1, (hf c).2.2]
  have hstop' : ∀ c, stop run' c = stop run c := fun c => by
    simp only [stop, PoolRun.limit, hpool]
  refine ⟨?_, ?_, ?_, fun p hp => ?_, fun k k' c c' hc hc' hs => ?_, fun x hx => ?_⟩
  · rw [hcontexts]
    refine List.forall_mem_modify h.ranged fun c hc => ?_
    rw [(hf c).1]
    exact h.ranged c (List.mem_of_getElem? hc)
  · rw [hcontexts]
    refine List.forall_mem_modify (fun c hc => ?_) fun c hc => ?_
    · rw [hstop']
      exact h.le_stop c hc
    · rw [hstop, hcur]
      exact h.le_stop c (List.mem_of_getElem? hc)
  · rw [hcontexts]
    refine List.forall_mem_modify (fun c hc => ?_) fun c hc hfin => ?_
    · rw [hstop']
      exact h.done c hc
    · rw [hstop, hcur]
      exact hdone c hc hfin
  · rw [hpool] at hp
    rw [hcontexts]
    refine List.forall_mem_modify (h.slot p hp) fun c hc => ?_
    rw [hcur, (hf c).2.2]
    exact h.slot p hp c (List.mem_of_getElem? hc)
  · rw [hcontexts] at hc hc'
    have hold : ∀ (k : ℕ) (c : WorkerContext), (run.contexts.modify i f)[k]? = some c →
        ∃ c₀, run.contexts[k]? = some c₀ ∧ c.slotIndex = c₀.slotIndex := by
      intro k c hc
      rcases List.getElem?_modify_eq_some.1 hc with ⟨-, c₀, hc₀, rfl⟩ | ⟨-, hc₀⟩
      · exact ⟨c₀, hc₀, (hf c₀).2.2⟩
      · exact ⟨c, hc₀, rfl⟩
    obtain ⟨c₀, hc₀, hs₀⟩ := hold k c hc
    obtain ⟨c₀', hc₀', hs₀'⟩ := hold k' c' hc'
    exact h.apart k k' c₀ c₀' hc₀ hc₀' (by rw [← hs₀, hs, hs₀'])
  · -- Who is to write a byte stays the same.
    rcases h.cover x hx with hx | ⟨c, hc, h₁, h₂⟩
    · exact .inl (hright x hx)
    · right
      obtain ⟨k, hk⟩ := List.mem_iff_getElem?.1 hc
      by_cases hki : k = i
      · subst hki
        have hmem : (run.contexts.modify k f)[k]? = some (f c) :=
          List.getElem?_modify_eq_some.2 (.inl ⟨rfl, c, hk, rfl⟩)
        refine ⟨f c, by rw [hcontexts]; exact List.mem_of_getElem? hmem, ?_, ?_⟩
        · rw [hcur]
          exact h₁
        · rw [hstop]
          exact h₂
      · have hmem : (run.contexts.modify i f)[k]? = some c :=
          List.getElem?_modify_eq_some.2 (.inr ⟨hki, hk⟩)
        refine ⟨c, by rw [hcontexts]; exact List.mem_of_getElem? hmem, h₁, ?_⟩
        rw [hstop']
        exact h₂

/-- A judged segment that succeeds was written up to where the worker stops. -/
theorem CoverRun.current_eq_of_segmentOk (h : CoverRun R n w run) {c : WorkerContext}
    {status : ℕ} {res : Bool} (hc : c ∈ run.contexts) (hok : segmentOk run c status res = true) :
    c.current = stop run c := by
  have hle := h.le_stop c hc
  simp only [segmentOk, decide_eq_true_eq] at hok
  have hbytes := hok.2.1
  rw [stop] at hle ⊢
  rw [WorkerContext.current] at hle ⊢
  rw [expectedBytes] at hbytes
  cases hl : run.limit c with
  | some l =>
    rw [hl] at hle hbytes
    simp only [Option.getD_some] at hle hbytes ⊢
    omega
  | none =>
    rw [hl] at hle hbytes
    simp only [Option.getD_none] at hle hbytes ⊢
    split_ifs at hbytes <;> omega

/-- A callback writes no further than the worker stops. -/
theorem add_writable_le {c : WorkerContext} {m : ℕ} (hle : c.current ≤ stop run c)
    (hm : c.current + m ≤ c.range.last + 1) : c.current + run.writable c m ≤ stop run c := by
  rw [stop] at hle ⊢
  rw [PoolRun.writable]
  cases hl : run.limit c with
  | some l =>
    rw [hl] at hle
    simp only [Option.getD_some] at hle ⊢
    omega
  | none => exact hm

/-- A callback that writes `m` bytes of the resource in their place. -/
theorem CoverRun.data (h : CoverRun R n w run) {c : WorkerContext} {m : ℕ} {buf : Buf}
    {f : WorkerContext → WorkerContext} (hc : run.contexts[i]? = some c) (hm : buf.size = m)
    (hfile : w.disk.file.isSome) (hb : ∀ k < buf.size, buf.byte k = R (c.current + k))
    (hle : c.current + m ≤ stop run c)
    (hpool : run'.pool = run.pool.map fun p => { p with
      slots := p.slots.modify c.slotIndex fun s => { s with writePos := s.writePos + m } })
    (hcontexts : run'.contexts = run.contexts.modify i f)
    (hf : ∀ c, (f c).range = c.range ∧ (f c).bytesDone = c.bytesDone + m ∧
      (f c).slotIndex = c.slotIndex) (hfin : finished (f c).phase = false) :
    CoverRun R n ((w.emit (.pwrite c.current buf)).count c.chunkProgressSlot m) run' := by
  have hcur : (f c).current = c.current + m := by
    rw [WorkerContext.current, (hf c).1, (hf c).2.1]
    exact (Nat.add_assoc _ _ _).symm
  have hlimit : ∀ c', run'.limit c' = run.limit c' := by
    intro c'
    simp only [PoolRun.limit, hpool]
    cases run.pool with
    | none => rfl
    | some p =>
      simp only [Option.map_some, List.getElem?_modify]
      split_ifs
      · simp [Option.map_map, Function.comp_def]
      · simp
  have hstop : ∀ c', stop run' c' = stop run c' := fun c' => by rw [stop, hlimit, stop]
  have hstopf : stop run' (f c) = stop run c := by
    rw [hstop]
    simp only [stop, PoolRun.limit, (hf c).1, (hf c).2.2]
  -- The workers after the callback.
  have hold : ∀ (k : ℕ) (c' : WorkerContext), run'.contexts[k]? = some c' →
      (k = i ∧ c' = f c) ∨ (k ≠ i ∧ run.contexts[k]? = some c') := by
    intro k c' hc'
    rw [hcontexts] at hc'
    rcases List.getElem?_modify_eq_some.1 hc' with ⟨rfl, c₀, hc₀, rfl⟩ | h
    · rw [hc] at hc₀
      cases hc₀
      exact .inl ⟨rfl, rfl⟩
    · exact .inr h
  refine ⟨fun c' hc' => ?_, fun c' hc' => ?_, fun c' hc' hfin' => ?_, fun p hp c' hc' => ?_,
    fun k k' c₁ c₂ hc₁ hc₂ hs => ?_, fun x hx => ?_⟩
  · obtain ⟨k, hk⟩ := List.mem_iff_getElem?.1 hc'
    rcases hold k c' hk with ⟨-, rfl⟩ | ⟨-, hk⟩
    · rw [(hf c).1]
      exact h.ranged c (List.mem_of_getElem? hc)
    · exact h.ranged c' (List.mem_of_getElem? hk)
  · obtain ⟨k, hk⟩ := List.mem_iff_getElem?.1 hc'
    rcases hold k c' hk with ⟨-, rfl⟩ | ⟨-, hk⟩
    · rw [hcur, hstopf]
      exact hle
    · rw [hstop]
      exact h.le_stop c' (List.mem_of_getElem? hk)
  · obtain ⟨k, hk⟩ := List.mem_iff_getElem?.1 hc'
    rcases hold k c' hk with ⟨-, rfl⟩ | ⟨-, hk⟩
    · rw [hfin] at hfin'
      cases hfin'
    · rw [hstop]
      exact h.done c' (List.mem_of_getElem? hk) hfin'
  · rw [hpool] at hp
    obtain ⟨p₀, hp₀, rfl⟩ := Option.map_eq_some_iff.1 hp
    obtain ⟨k, hk⟩ := List.mem_iff_getElem?.1 hc'
    rcases hold k c' hk with ⟨-, rfl⟩ | ⟨hki, hk⟩
    · obtain ⟨s, hs, hpos⟩ := h.slot p₀ hp₀ c (List.mem_of_getElem? hc)
      refine ⟨_, List.getElem?_modify_eq_some.2 (.inl ⟨(hf c).2.2, s, ?_, rfl⟩), ?_⟩
      · rw [(hf c).2.2]
        exact hs
      · rw [hcur, ← hpos]
    · obtain ⟨s, hs, hpos⟩ := h.slot p₀ hp₀ c' (List.mem_of_getElem? hk)
      refine ⟨s, List.getElem?_modify_eq_some.2 (.inr ⟨fun he => hki ?_, hs⟩), hpos⟩
      exact h.apart k i c' c hk hc he
  · have hget : ∀ (k : ℕ) (c' : WorkerContext), run'.contexts[k]? = some c' →
        ∃ c₀, run.contexts[k]? = some c₀ ∧ c'.slotIndex = c₀.slotIndex := by
      intro k c' hc'
      rcases hold k c' hc' with ⟨rfl, rfl⟩ | ⟨-, hk⟩
      · exact ⟨c, hc, (hf c).2.2⟩
      · exact ⟨c', hk, rfl⟩
    obtain ⟨d₁, hd₁, hs₁⟩ := hget k c₁ hc₁
    obtain ⟨d₂, hd₂, hs₂⟩ := hget k' c₂ hc₂
    exact h.apart k k' d₁ d₂ hd₁ hd₂ (by rw [← hs₁, hs, hs₂])
  · rcases h.cover x hx with hx | ⟨c', hc', h₁, h₂⟩
    · exact .inl (hx.pwrite hb)
    · obtain ⟨k, hk⟩ := List.mem_iff_getElem?.1 hc'
      by_cases hki : k = i
      · subst hki
        rw [hc] at hk
        cases hk
        -- What the worker had to write is written now, or still its to write.
        by_cases hxm : x < c.current + m
        · exact .inl (World.right_pwrite hfile hb h₁ (by omega))
        · refine .inr ⟨f c, ?_, by rw [hcur]; omega, by rw [hstopf]; exact h₂⟩
          rw [hcontexts]
          exact List.mem_of_getElem? (List.getElem?_modify_eq_some.2 (.inl ⟨rfl, c, hc, rfl⟩))
      · refine .inr ⟨c', ?_, h₁, by rw [hstop]; exact h₂⟩
        rw [hcontexts]
        exact List.mem_of_getElem? (List.getElem?_modify_eq_some.2 (.inr ⟨hki, hk⟩))

/-- Marking a slot changes nothing of what is to write. -/
theorem CoverRun.markDone (h : CoverRun R n w run) {p : RebalancePool} {k : ℕ}
    (hp : run.pool = some p) : CoverRun R n w { run with pool := some (p.markDone k) } := by
  have hget : ∀ (j : ℕ) (s : PoolSlot), p.slots[j]? = some s →
      ∃ s', (p.markDone k).slots[j]? = some s' ∧ s'.writePos = s.writePos ∧
        s'.liveEnd = s.liveEnd := by
    intro j s hs
    by_cases hj : j = k
    · exact ⟨_, List.getElem?_modify_eq_some.2 (.inl ⟨hj, s, hs, rfl⟩), rfl, rfl⟩
    · exact ⟨s, List.getElem?_modify_eq_some.2 (.inr ⟨hj, hs⟩), rfl, rfl⟩
  have hstop : ∀ c ∈ run.contexts,
      stop { run with pool := some (p.markDone k) } c = stop run c := by
    intro c hc
    obtain ⟨s, hs, -⟩ := h.slot p hp c hc
    obtain ⟨s', hs', -, hl⟩ := hget _ s hs
    simp only [stop, PoolRun.limit, hp, hs, hs', Option.map_some, hl]
  refine ⟨h.ranged, fun c hc => ?_, fun c hc hfin => ?_, fun p' hp' c hc => ?_, h.apart,
    fun x hx => ?_⟩
  · rw [hstop c hc]
    exact h.le_stop c hc
  · rw [hstop c hc]
    exact h.done c hc hfin
  · cases hp'
    obtain ⟨s, hs, hpos⟩ := h.slot p hp c hc
    obtain ⟨s', hs', hpos', -⟩ := hget _ s hs
    exact ⟨s', hs', hpos'.trans hpos⟩
  · rcases h.cover x hx with hx | ⟨c, hc, h₁, h₂⟩
    · exact .inl hx
    · exact .inr ⟨c, hc, h₁, by rw [hstop c hc]; exact h₂⟩

/-- A split hands what is past the middle to the worker that looked for more to do. -/
theorem CoverRun.split (h : CoverRun R n w run) {p : RebalancePool} {s : PoolSlot} {v : ℕ}
    {ps : ℕ → Option ℕ} {c : WorkerContext} (hp : run.pool = some p)
    (hc : run.contexts[i]? = some c) (hidle : c.phase = .idle) (hs : p.slots[v]? = some s)
    (hrem : 2 ≤ s.remaining) (hright : ∀ x, w.Right R x → w'.Right R x) :
    CoverRun R n w' (PoolRun.assign
      { run with pool := some (p.split s v (ps p.slots.length)), progressSlots := ps }
      i p.slots.length s.middle s.liveEnd (ps p.slots.length)) := by
  obtain ⟨hwm, hml⟩ := s.middle_bounds hrem
  set c₁ : WorkerContext := ⟨⟨s.middle, s.liveEnd - 1, 0, false⟩, 0, ps p.slots.length,
    p.slots.length, false, .request⟩
  set run₁ : PoolRun := PoolRun.assign
    { run with pool := some (p.split s v (ps p.slots.length)), progressSlots := ps }
    i p.slots.length s.middle s.liveEnd (ps p.slots.length)
  have hcur₁ : c₁.current = s.middle := rfl
  have hnew : (p.split s v (ps p.slots.length)).slots[p.slots.length]? =
      some ⟨s.middle, s.middle, s.liveEnd, true, false, ps p.slots.length⟩ :=
    List.getElem?_concat_eq_some.2 (.inr ⟨by simp, rfl⟩)
  have hcut : (p.split s v (ps p.slots.length)).slots[v]? = some { s with liveEnd := s.middle } :=
    List.getElem?_concat_eq_some.2
      (.inl (List.getElem?_modify_eq_some.2 (.inl ⟨rfl, s, hs, rfl⟩)))
  have hother : ∀ (j : ℕ) (s' : PoolSlot), j ≠ v → p.slots[j]? = some s' →
      (p.split s v (ps p.slots.length)).slots[j]? = some s' := fun j s' hj hs' =>
    List.getElem?_concat_eq_some.2 (.inl (List.getElem?_modify_eq_some.2 (.inr ⟨hj, hs'⟩)))
  have hold : ∀ (k : ℕ) (c' : WorkerContext), run₁.contexts[k]? = some c' →
      (k = i ∧ c' = c₁) ∨ (k ≠ i ∧ run.contexts[k]? = some c') := by
    intro k c' hc'
    rcases List.getElem?_modify_eq_some.1 hc' with ⟨rfl, c₀, -, rfl⟩ | h
    · exact .inl ⟨rfl, rfl⟩
    · exact .inr h
  have hmem₁ : c₁ ∈ run₁.contexts :=
    List.mem_of_getElem? (List.getElem?_modify_eq_some.2 (.inl ⟨rfl, c, hc, rfl⟩))
  have hstop₁ : stop run₁ c₁ = s.liveEnd := by
    simp only [stop, PoolRun.limit, run₁, PoolRun.assign, PoolRun.modify, c₁, hnew,
      Option.map_some, Option.getD_some]
  -- A worker on another slot goes on as before; the victim stops at the middle.
  have hstop : ∀ c' ∈ run.contexts, (c'.slotIndex ≠ v ∧ stop run₁ c' = stop run c') ∨
      (c'.slotIndex = v ∧ c'.current = s.writePos ∧ stop run c' = s.liveEnd ∧
        stop run₁ c' = s.middle) := by
    intro c' hc'
    obtain ⟨s', hs', hpos⟩ := h.slot p hp c' hc'
    by_cases hv : c'.slotIndex = v
    · right
      rw [hv, hs] at hs'
      cases hs'
      simp only [stop, PoolRun.limit, run₁, PoolRun.assign, PoolRun.modify, hp, hv, hs, hcut,
        Option.map_some, Option.getD_some]
      exact ⟨trivial, hpos.symm, trivial, trivial⟩
    · left
      simp only [stop, PoolRun.limit, run₁, PoolRun.assign, PoolRun.modify, hp, hs',
        hother _ _ hv hs', Option.map_some]
      exact ⟨hv, trivial⟩
  refine ⟨fun c' hc' => ?_, fun c' hc' => ?_, fun c' hc' hfin => ?_, fun p' hp' c' hc' => ?_,
    fun k k' d d' hd hd' hss => ?_, fun x hx => ?_⟩
  · obtain ⟨k, hk⟩ := List.mem_iff_getElem?.1 hc'
    rcases hold k c' hk with ⟨-, rfl⟩ | ⟨-, hk⟩
    · rfl
    · exact h.ranged c' (List.mem_of_getElem? hk)
  · obtain ⟨k, hk⟩ := List.mem_iff_getElem?.1 hc'
    rcases hold k c' hk with ⟨-, rfl⟩ | ⟨-, hk⟩
    · rw [hstop₁]
      exact hml.le
    · have hmem := List.mem_of_getElem? hk
      rcases hstop c' hmem with ⟨-, he⟩ | ⟨-, hpos, -, he⟩
      · rw [he]
        exact h.le_stop c' hmem
      · rw [he, hpos]
        exact hwm.le
  · obtain ⟨k, hk⟩ := List.mem_iff_getElem?.1 hc'
    rcases hold k c' hk with ⟨-, rfl⟩ | ⟨-, hk⟩
    · cases hfin
    · have hmem := List.mem_of_getElem? hk
      have hdone := h.done c' hmem hfin
      rcases hstop c' hmem with ⟨-, he⟩ | ⟨-, hpos, he, -⟩
      · rw [he]
        exact hdone
      · omega
  · cases hp'
    obtain ⟨k, hk⟩ := List.mem_iff_getElem?.1 hc'
    rcases hold k c' hk with ⟨-, rfl⟩ | ⟨-, hk⟩
    · exact ⟨_, hnew, rfl⟩
    · obtain ⟨s', hs', hpos⟩ := h.slot p hp c' (List.mem_of_getElem? hk)
      by_cases hv : c'.slotIndex = v
      · rw [hv, hs] at hs'
        cases hs'
        exact ⟨{ s with liveEnd := s.middle }, by rw [hv]; exact hcut, hpos⟩
      · exact ⟨s', hother _ _ hv hs', hpos⟩
  · have hlt : ∀ (k : ℕ) (d : WorkerContext), run.contexts[k]? = some d →
        d.slotIndex ≠ c₁.slotIndex := by
      intro k d hd he
      obtain ⟨s', hs', -⟩ := h.slot p hp d (List.mem_of_getElem? hd)
      rw [he] at hs'
      exact absurd (List.getElem?_eq_some_iff.1 hs').1 (lt_irrefl _)
    rcases hold k d hd with ⟨hk, rfl⟩ | ⟨-, hd⟩ <;>
      rcases hold k' d' hd' with ⟨hk', rfl⟩ | ⟨-, hd'⟩
    · exact hk.trans hk'.symm
    · exact absurd hss.symm (hlt k' d' hd')
    · exact absurd hss (hlt k d hd)
    · exact h.apart k k' d d' hd hd' hss
  · rcases h.cover x hx with hx | ⟨c', hc', h₁, h₂⟩
    · exact .inl (hright x hx)
    · right
      obtain ⟨k, hk⟩ := List.mem_iff_getElem?.1 hc'
      by_cases hki : k = i
      · subst hki
        rw [hc] at hk
        cases hk
        have := h.done c hc' (by rw [hidle]; rfl)
        omega
      · have hmem : c' ∈ run₁.contexts :=
          List.mem_of_getElem? (List.getElem?_modify_eq_some.2 (.inr ⟨hki, hk⟩))
        rcases hstop c' hc' with ⟨-, he⟩ | ⟨-, -, he, he'⟩
        · exact ⟨c', hmem, h₁, by rw [he]; exact h₂⟩
        · by_cases hxm : x < s.middle
          · exact ⟨c', hmem, h₁, by rw [he']; exact hxm⟩
          · exact ⟨c₁, hmem₁, by rw [hcur₁]; omega, by rw [hstop₁, ← he]; exact h₂⟩

theorem arrivesRight {k : ℕ} : ArrivesRight R (fun r a => answers T r a = true) run i k := by
  intro c x hc hph hserved hn j hj
  cases x with
  | partialContent len => simp [Answer.body, WorkerContext.current, Nat.add_assoc]
  | ok len =>
    simp only [answers, decide_eq_true_eq] at hserved
    simp [Answer.body, WorkerContext.current, hserved.2.1]
  | refused =>
    simp only [Answer.len] at hn
    omega
  | other => simp [answers] at hserved

/-- What a request of the pool gets stays within its range. -/
theorem CoverRun.answer_le (h : CoverRun R n w run) {c : WorkerContext} {x : Answer} {m : ℕ}
    (hc : run.contexts[i]? = some c) (hserved : answers T c.range x = true)
    (hm : c.bytesDone + m ≤ x.len) : c.current + m ≤ c.range.last + 1 ∨ m = 0 := by
  have hranged := h.ranged c (List.mem_of_getElem? hc)
  cases x with
  | partialContent len =>
    simp only [answers, decide_eq_true_eq, Answer.len] at hserved hm
    rw [WorkerContext.current]
    omega
  | ok len => simp [answers, hranged] at hserved
  | refused =>
    simp only [Answer.len] at hm
    omega
  | other => simp [answers] at hserved

theorem CoverRun.step {a : PoolAct} {prim : ℕ → Prop} {info : FileInfo} (h : CoverRun R n w run)
    (hcounted : CountedRun R (fun r a => answers T r a = true) w run)
    (hlaid : LaidRun info w run prim) (hst : PoolStep R w run a w' run') :
    CoverRun R n w' run' := by
  -- A callback does not finish a segment.
  have hfin : ∀ (x : Answer) (pos k ret : ℕ), finished (delivered x pos k ret) = false := by
    intro x pos k ret
    rw [delivered]
    split_ifs <;> rfl
  cases hst with
  | spawn =>
    exact h.modify rfl rfl (fun _ => ⟨rfl, rfl, rfl⟩) (fun _ _ hf => by cases hf) fun _ hx => hx
  | spawnFails =>
    exact ⟨h.ranged, h.le_stop, h.done, h.slot, h.apart, h.cover⟩
  | initFails =>
    exact h.modify rfl rfl (fun _ => ⟨rfl, rfl, rfl⟩) (fun _ _ hf => by cases hf) fun _ hx => hx
  | answer =>
    exact h.modify rfl rfl (fun _ => ⟨rfl, rfl, rfl⟩) (fun _ _ hf => by cases hf) fun _ hx => hx
  | dataStopped =>
    refine h.modify rfl rfl (fun _ => ⟨rfl, rfl, rfl⟩) (fun _ _ hf => ?_) fun _ hx => hx
    rw [hfin] at hf
    cases hf
  | @dataFails i c x pos m wrote hc hph hn hs hw =>
    obtain ⟨rfl, hserved⟩ := hcounted.orderly.position hc hph
    -- The bytes that are written, though not counted, are right.
    have hle := run.writable_le c m
    refine h.modify rfl rfl (fun _ => ⟨rfl, rfl, rfl⟩) (fun _ _ hf => ?_)
      fun _ hx => hx.pwrite fun k hk => ?_
    · rw [hfin] at hf
      cases hf
    · exact arrivesRight c x hc hph hserved hn k (hk.trans (hw.trans_le hle))
  | @data i c x pos m wrote hc hph hn hs hw =>
    obtain ⟨rfl, hserved⟩ := hcounted.orderly.position hc hph
    have hle := run.writable_le c m
    refine h.data hc rfl hcounted.file (fun k hk => ?_) ?_ rfl rfl
      (fun _ => ⟨rfl, rfl, rfl⟩) (hfin _ _ _ _)
    · exact arrivesRight c x hc hph hserved hn k (hk.trans_le hle)
    · have hstop := h.le_stop c (List.mem_of_getElem? hc)
      rcases h.answer_le hc hserved hn with hlast | rfl
      · exact add_writable_le hstop hlast
      · omega
  | @finish i c x res res' hc hph =>
    refine h.modify rfl rfl (fun _ => ⟨rfl, rfl, rfl⟩) (fun c' hc' hf => ?_) fun _ hx => hx
    rw [hc] at hc'
    cases hc'
    simp only at hf
    split_ifs at hf with hok
    · exact h.current_eq_of_segmentOk (List.mem_of_getElem? hc) hok
    · cases hf
  | @markDone i c p hc hph hp =>
    have hmem := List.mem_of_getElem? hc
    -- The slot is marked first; the worker has written up to where it stops.
    have hmark := h.markDone (k := c.slotIndex) hp
    refine hmark.modify rfl rfl (fun _ => ⟨rfl, rfl, rfl⟩) (fun c' hc' _ => ?_) fun _ hx => hx
    have hc' : run.contexts[i]? = some c' := hc'
    rw [hc] at hc'
    cases hc'
    exact hmark.done c hmem (by rw [hph]; rfl)
  | @segmentEnds i c hc hph hp =>
    refine h.modify rfl rfl (fun _ => ⟨rfl, rfl, rfl⟩) (fun c' hc' _ => ?_) fun _ hx => hx
    rw [hc] at hc'
    cases hc'
    exact h.done c (List.mem_of_getElem? hc) (by rw [hph]; rfl)
  | @acquire i c p hc hph hp =>
    generalize hacq : rebalancePoolAcquire w run p i = x
    obtain ⟨w', run'⟩ := x
    cases Acquired.of_eq (hlaid.orderly.noOrphan p hp) hacq with
    | nothing =>
      refine h.modify rfl rfl (fun _ => ⟨rfl, rfl, rfl⟩) (fun c' hc' _ => ?_) fun _ hx => hx
      rw [hc] at hc'
      cases hc'
      exact h.done c (List.mem_of_getElem? hc) (by rw [hph]; rfl)
    | split hs hmin hlt hv heq =>
      refine h.split hp hc hph hs.get ?_ fun x hx => hx.congr (onRebalanceSplit_frame heq).2
      -- The threshold leaves bytes to both parts.
      rw [hlaid.threshold p hp] at hmin
      exact le_trans (by decide) hmin

/-- When every worker has succeeded, everything is right. -/
theorem CoverRun.allRight (h : CoverRun R n w run) (hok : run.allSucceeded = true) :
    AllRight R n w := by
  intro x hx
  rcases h.cover x hx with hx | ⟨c, hc, h₁, h₂⟩
  · exact hx
  · simp only [PoolRun.allSucceeded, Bool.and_eq_true, List.all_eq_true] at hok
    have hend := hok.2 c hc
    have hdone : finished c.phase = true := by
      split at hend
      · rename_i hph
        rw [hph]
        rfl
      · cases hend
    have := h.done c hc hdone
    omega

end Pool

/-! ## Plans -/

/-- The pool started on the incomplete chunks of a table covers what is not right. -/
theorem coverRun_planned {info : FileInfo} {prim : ℕ → Prop} {n : ℕ}
    (h : Tiled n w.d.chunks prim) (hf : Flushed R w) (hr : info.supportsRanges = true) (b : Bool) :
    CoverRun R n w (plannedRun (resumeRanges info 0 w.d.chunks) b) := by
  set rs := resumeRanges info 0 w.d.chunks with hrs
  -- A worker starts at the first missing byte of an incomplete chunk.
  have hget : ∀ (k : ℕ) (c : WorkerContext), (plannedRun rs b).contexts[k]? = some c →
      ∃ j ch, rs[k]? = some (j, resumeRange info ch) ∧ c = contextOf k (some j) (resumeRange info ch) ∧
        ch.rangeStart + ch.bytesDone ≤ ch.rangeEnd := by
    intro k c hc
    simp only [plannedRun, List.getElem?_mapIdx, Option.map_eq_some_iff] at hc
    obtain ⟨⟨j, r⟩, hx, rfl⟩ := hc
    obtain ⟨ch, -, -, hcomp, rfl⟩ := mem_resumeRanges.1 (List.mem_of_getElem? hx)
    exact ⟨j, ch, hx, rfl, chunkIsComplete_eq_false.1 hcomp⟩
  have hslot : ∀ (k j : ℕ) (ch : DownloadChunk), rs[k]? = some (j, resumeRange info ch) →
      ∀ p ∈ (plannedRun rs b).pool, p.slots[k]? = some (slotOf (j, resumeRange info ch)) := by
    intro k j ch hk p hp
    obtain ⟨rfl, -⟩ := plannedRun_pool hp
    rw [rebalancePoolCreate, List.getElem?_map, hk]
    rfl
  have hstop : ∀ (k j : ℕ) (ch : DownloadChunk), rs[k]? = some (j, resumeRange info ch) →
      stop (plannedRun rs b) (contextOf k (some j) (resumeRange info ch)) = ch.rangeEnd + 1 := by
    intro k j ch hk
    rw [stop, PoolRun.limit]
    cases hp : (plannedRun rs b).pool with
    | none => simp [contextOf, resumeRange_of_ranges hr]
    | some p => simp [contextOf, hslot k j ch hk p hp, slotOf, resumeRange_of_ranges hr]
  have hcur : ∀ (k j : ℕ) (ch : DownloadChunk),
      (contextOf k (some j) (resumeRange info ch)).current = ch.rangeStart + ch.bytesDone := by
    intro k j ch
    simp [WorkerContext.current, contextOf, Range.offset, resumeRange_of_ranges hr]
  refine ⟨fun c hc => ?_, fun c hc => ?_, fun c hc hfin => ?_, fun p hp c hc => ?_,
    fun k k' c c' hc hc' hs => ?_, fun x hx => ?_⟩
  · obtain ⟨k, hk⟩ := List.mem_iff_getElem?.1 hc
    obtain ⟨j, ch, -, rfl, -⟩ := hget k c hk
    simp [contextOf, resumeRange_of_ranges hr]
  · obtain ⟨k, hk⟩ := List.mem_iff_getElem?.1 hc
    obtain ⟨j, ch, hj, rfl, hle⟩ := hget k c hk
    rw [hstop k j ch hj, hcur]
    omega
  · obtain ⟨k, hk⟩ := List.mem_iff_getElem?.1 hc
    obtain ⟨j, ch, -, rfl, -⟩ := hget k c hk
    cases hfin
  · obtain ⟨k, hk⟩ := List.mem_iff_getElem?.1 hc
    obtain ⟨j, ch, hj, rfl, -⟩ := hget k c hk
    exact ⟨_, hslot k j ch hj p hp, rfl⟩
  · obtain ⟨j, ch, -, rfl, -⟩ := hget k c hc
    obtain ⟨j', ch', -, rfl, -⟩ := hget k' c' hc'
    exact hs
  · obtain ⟨j, ch, hj, hch, hx₁, hx₂⟩ := h.cover x hx
    by_cases hxb : x < ch.rangeStart + ch.bytesDone
    · exact .inl (hf j ch hch x hx₁ hxb)
    · right
      have hmem : (j, resumeRange info ch) ∈ rs := mem_resumeRanges.2
        ⟨ch, Nat.zero_le _, hch, chunkIsComplete_eq_false.2 (by omega), rfl⟩
      obtain ⟨k, hk⟩ := List.mem_iff_getElem?.1 hmem
      refine ⟨contextOf k (some j) (resumeRange info ch), ?_, ?_, ?_⟩
      · refine List.mem_of_getElem? (i := k) ?_
        simp only [plannedRun, List.getElem?_mapIdx, hk, Option.map_some]
      · rw [hcur]
        omega
      · rw [hstop k j ch hk]
        omega

/-- If every chunk is complete, everything is right. -/
theorem allRight_of_complete {info : FileInfo} {prim : ℕ → Prop} {n : ℕ}
    (h : Tiled n w.d.chunks prim) (hf : Flushed R w)
    (hrs : resumeRanges info 0 w.d.chunks = []) : AllRight R n w := by
  intro x hx
  obtain ⟨j, ch, hj, hch, hx₁, hx₂⟩ := h.cover x hx
  by_cases hxb : x < ch.rangeStart + ch.bytesDone
  · exact hf j ch hch x hx₁ hxb
  · have hmem : (j, resumeRange info ch) ∈ resumeRanges info 0 w.d.chunks := mem_resumeRanges.2
      ⟨ch, Nat.zero_le _, hch, chunkIsComplete_eq_false.2 (by omega), rfl⟩
    rw [hrs] at hmem
    cases hmem

/-! ## Steps of the session -/

/-- The single connection tried last: it has not succeeded. -/
structure Fallback (run : PoolRun) : Prop where
  pool : run.pool = none
  contexts : ∃ c, run.contexts = [c] ∧ c.range = ⟨0, 0, 0, true⟩ ∧ c.truncated = false ∧
    finished c.phase = false

/-- What is right where the call is. -/
def PcInv (R : ℕ → UInt8) (n : ℕ) (w : World) : Pc → Prop
  | .idle rc => rc = some 0 → AllRight R n w ∧ fileGetSize w.disk.file = n
  | .running _ _ run => CoverRun R n w run
  | .flushing _ _ ok | .deciding _ _ ok => ok = true → AllRight R n w
  | .fallback _ run => Fallback run
  | .finalizing _ => AllRight R n w
  | _ => True

structure Inv (R : ℕ → UInt8) (T : UInt64) (s : EngineState) : Prop where
  layout : LayoutInv ⟨T, true⟩ s.w s.pc
  count : CountInv R (fun r a => answers T r a = true) s.w s.pc
  pc : PcInv R T.toNat s.w s.pc

theorem Inv.of_fresh {s : EngineState} (h : Fresh s) : Inv R T s where
  layout := .of_fresh h
  count := .of_fresh h
  pc := by
    rw [h.idle]
    intro hrc
    cases hrc

theorem Fallback.step {a : PoolAct} {info : FileInfo} (h : Fallback run)
    (hst : PoolStep R w run a w' run')
    (hbyte : noByteFallback ⟨w, .fallback info run⟩ (.engine (.pool a)) = true) :
    Fallback run' := by
  obtain ⟨hp, c, hc, hrange, htrunc, hfin⟩ := h
  have hp' := (hst.of_pool_none hp).2.2.2
  have hget {i : ℕ} {c' : WorkerContext} (hc' : run.contexts[i]? = some c') : i = 0 ∧ c' = c := by
    rw [hc, List.getElem?_singleton] at hc'
    split_ifs at hc' with hi
    exact ⟨hi, (Option.some.inj hc').symm⟩
  have hcuts (m : ℕ) : run.cuts c m = false := by
    rw [PoolRun.cuts, PoolRun.limit, hp]
  have hdelivered (x : Answer) (pos m ret : ℕ) : finished (delivered x pos m ret) = false := by
    rw [delivered]
    split_ifs <;> rfl
  -- The worker after a step that changes it.
  have hset {f : WorkerContext → WorkerContext} (hcontexts : run'.contexts = run.contexts.modify 0 f)
      (hf : (f c).range = c.range ∧ (f c).truncated = false ∧ finished (f c).phase = false) :
      Fallback run' :=
    ⟨hp', f c, by rw [hcontexts, hc]; rfl, hf.1.trans hrange, hf.2⟩
  cases hst with
  | spawn hb hlt =>
    have hs : run.spawned = 0 := by
      rw [hc] at hlt
      simpa using hlt
    exact hset (by rw [PoolRun.setPhase, PoolRun.modify, hs]) ⟨rfl, htrunc, rfl⟩
  | spawnFails => exact ⟨hp, c, hc, hrange, htrunc, hfin⟩
  | initFails hc' =>
    obtain ⟨rfl, -⟩ := hget hc'
    exact hset rfl ⟨rfl, htrunc, rfl⟩
  | answer hc' =>
    obtain ⟨rfl, -⟩ := hget hc'
    exact hset rfl ⟨rfl, htrunc, rfl⟩
  | dataStopped hc' =>
    obtain ⟨rfl, -⟩ := hget hc'
    exact hset rfl ⟨rfl, htrunc, hdelivered _ _ _ _⟩
  | dataFails hc' =>
    obtain ⟨rfl, rfl⟩ := hget hc'
    exact hset rfl ⟨rfl, by rw [htrunc, hcuts]; rfl, hdelivered _ _ _ _⟩
  | data hc' =>
    obtain ⟨rfl, rfl⟩ := hget hc'
    exact hset rfl ⟨rfl, by rw [htrunc, hcuts]; rfl, hdelivered _ _ _ _⟩
  | @finish i c' x res res' hc' hph =>
    obtain ⟨rfl, rfl⟩ := hget hc'
    refine hset rfl ⟨rfl, htrunc, ?_⟩
    -- Success takes one byte and no error, which is excluded.
    have hnot : segmentOk run c' x.status res' = false := by
      have hexp : expectedBytes run c' = 1 := by
        simp [expectedBytes, PoolRun.limit, hp, hrange, Range.offset]
      simp only [noByteFallback, hc', Option.all_some, Bool.not_eq_true', Bool.and_eq_false_iff,
        decide_eq_false_iff_not] at hbyte
      simp only [segmentOk, hexp, htrunc, decide_eq_false_iff_not]
      rintro ⟨-, hone, hres | htr⟩
      · rcases hph with ⟨pos, -, rfl⟩ | ⟨-, rfl⟩
        · rcases hbyte with h | h
          · rw [h] at hres
            cases hres
          · exact h hone
        · cases hres
      · cases htr
    simp only [hnot]
    rfl
  | markDone _ _ hp₁ =>
    rw [hp] at hp₁
    cases hp₁
  | segmentEnds hc' hph =>
    obtain ⟨-, rfl⟩ := hget hc'
    rw [hph] at hfin
    cases hfin
  | acquire _ _ hp₁ =>
    rw [hp] at hp₁
    cases hp₁

theorem Fallback.not_succeeded (h : Fallback run) : run.allSucceeded = false := by
  obtain ⟨-, c, hc, -, -, hfin⟩ := h
  rw [PoolRun.allSucceeded, hc]
  cases hph : c.phase with
  | ended ok =>
    cases ok with
    | true =>
      rw [hph] at hfin
      cases hfin
    | false => simp [hph]
  | _ => simp [hph]

theorem AllRight.congr {n : ℕ} (h : AllRight R n w) (hf : w'.disk.file = w.disk.file) :
    AllRight R n w' :=
  fun x hx => (h x hx).congr hf

theorem PcInv.congr {n : ℕ} {pc : Pc} (h : PcInv R n w pc) (hf : w'.disk.file = w.disk.file) :
    PcInv R n w' pc := by
  cases pc with
  | idle rc => exact fun hrc => ⟨(h hrc).1.congr hf, by rw [hf]; exact (h hrc).2⟩
  | running info k run =>
    refine ⟨h.ranged, h.le_stop, h.done, h.slot, h.apart, fun x hx => ?_⟩
    exact (h.cover x hx).imp_left fun hx => hx.congr hf
  | flushing info k ok => exact fun hok => (h hok).congr hf
  | deciding info k ok => exact fun hok => (h hok).congr hf
  | fallback info run => exact h
  | finalizing info => exact AllRight.congr h hf
  | _ => trivial

theorem PcInv.plan {io : PlanIo} {pc : Pc} (hT : 0 < T.toNat) (hrec : Recorded ⟨T, true⟩ w)
    (hf : Flushed R w) (hst : PlanStep w ⟨T, true⟩ io w' pc) : PcInv R T.toNat w' pc := by
  cases hst with
  | complete hne hs hrs =>
    obtain ⟨prim, hs⟩ := hrec.resolve_left fun h => hne h.chunks
    exact (allRight_of_complete hs.laid.toTiled hf hrs).congr rfl
  | resume hne =>
    obtain ⟨prim, hs⟩ := hrec.resolve_left fun h => hne h.chunks
    exact coverRun_planned (w := resumed (recordSize w ⟨T, true⟩) ⟨T, true⟩) hs.laid.toTiled
      (hf.congr rfl rfl) rfl _
  | resumeFails => exact fun h => by cases h
  | allocFails =>
    intro h
    split_ifs at h <;> simp at h
  | @start w₀ w₁ =>
    have htiled : Tiled T.toNat (persistPlan w₁ (freshRanges ⟨T, true⟩)).d.chunks
        (· < (freshRanges ⟨T, true⟩).length) := by
      rw [persistPlan_freshRanges]
      exact tiled_freshRanges ⟨T, true⟩ hT
    rw [freshRanges_mapIdx hT rfl, ← persistPlan_freshRanges w₁]
    exact coverRun_planned htiled (counted_persistPlan _).2 rfl _
  | startFails => exact fun h => by cases h

theorem PcInv.engine {s s' : EngineState} {a : EngineAct} (hT : 0 < T.toNat) (h : Inv R T s)
    (hst : EngineStep R s a s') (hbyte : noByteFallback s (.engine a) = true) :
    PcInv R T.toNat s'.w s'.pc := by
  obtain ⟨hlayout, hcount, hpc⟩ := h
  cases hst with
  | call => trivial
  | check =>
    simp only [engineCheck]
    split_ifs
    · exact fun h => by simp at h
    · trivial
    · exact fun h => by simp at h
  | headFails => exact fun h => by simp at h
  | head => trivial
  | plan hplan =>
    obtain ⟨rfl, hrec⟩ := hlayout
    exact .plan hT hrec hcount.2.2 (.of_eq hplan)
  | pool hst =>
    obtain ⟨-, prim, hlaid⟩ := hlayout
    exact CoverRun.step hpc hcount hlaid hst
  | join => exact CoverRun.allRight hpc
  | flush => exact fun hok => (hpc hok).congr flushProgress_file
  | decide =>
    simp only [engineDecide]
    split_ifs with hok
    · exact hpc hok
    · exact fun h => by simp at h
    · exact ⟨rfl, _, rfl, rfl, rfl, rfl⟩
    · exact fun h => by simp at h
  | fallbackPool hst => exact Fallback.step hpc hst hbyte
  | fallbackJoin =>
    simp only [Fallback.not_succeeded hpc]
    exact fun h => by simp at h
  | finalize hfin =>
    refine fun _ => ⟨hpc, ?_⟩
    obtain ⟨rfl, -⟩ := hlayout
    simp only [engineFinalize, Bool.and_eq_true, Bool.or_eq_true, decide_eq_true_eq] at hfin
    exact hfin.1.resolve_left (by omega)
  | finalizeFails => exact fun h => by simp at h

theorem Inv.step {s s' : EngineState} {a : SessionAct} (hT : 0 < T.toNat) (h : Inv R T s)
    (hserves : serves T s a = true) (htracked : tracked s a = true)
    (hst : sessionStep R s a = some s') : Inv R T s' := by
  simp only [tracked, Bool.and_eq_true] at htracked
  obtain ⟨⟨hroom, hown⟩, hbyte⟩ := htracked
  have hrestore : a ≠ .restore := by
    rintro rfl
    cases hserves
  refine ⟨h.layout.step hT hst (fun i ha => ?_) hroom hrestore,
    h.count.step hst (fun b hb => ?_) hrestore, ?_⟩
  · subst ha
    simpa [serves] using hserves
  · subst hb
    refine ⟨?_, ?_, fun _ _ _ _ _ _ => arrivesRight, ?_⟩
    · rintro info rfl
      simp only [serves, decide_eq_true_eq] at hserves
      rw [hserves]
    · rintro run i x c hrun rfl hc
      simpa [serves, hrun, hc] using hserves
    · rintro run i p x hrun rfl hp hv
      simpa [ownCounter, hrun, hp, hv] using hown
  · cases a with
    | engine a =>
      have hfresh : Inv R T ⟨s.w.fresh, s.pc⟩ :=
        ⟨h.layout.congr rfl rfl rfl rfl, h.count.congr rfl rfl rfl, h.pc.congr rfl⟩
      exact PcInv.engine hT hfresh (.of_eq hst) hbyte
    | requestCancel b =>
      cases hst
      exact h.pc.congr rfl
    | requestPause b =>
      cases hst
      exact h.pc.congr rfl
    | restore => exact absurd rfl hrestore

/-- Against a server with range support, a call that returns `0` leaves the resource in
    the file, in every session in which every split is recorded and has its own counter,
    and the single connection tried last does not succeed on one byte. -/
theorem complete_of_tracked (hT : 0 < T.toNat) {s : EngineState}
    (hs : SessionReachable R (fun s a => serves T s a = true ∧ tracked s a = true) s)
    (hret : s.returned = some 0) : Complete R T.toNat s := by
  have hinv : Inv R T s :=
    hs.invariant (fun _ => .of_fresh) fun _ _ _ h ok hst => h.step hT ok.1 ok.2 hst
  have hpc := hinv.pc
  rw [EngineState.returned] at hret
  split at hret
  · rename_i rc hidle
    rw [hidle] at hpc
    obtain ⟨hright, hsize⟩ := hpc hret
    cases hfile : s.w.disk.file with
    | none =>
      rw [hfile] at hsize
      exact absurd hsize.symm hT.ne'
    | some f =>
      rw [hfile] at hsize
      refine ⟨f, hfile, hsize, fun x _ hx => ?_⟩
      obtain ⟨g, hg, hx⟩ := hright x hx
      rw [hfile] at hg
      cases hg
      exact hx
  · cases hret

/-- The beginning of a call on a resource of `size` bytes, with `k` workers. -/
def enterActs (size : UInt64) (k : ℕ) : List EngineAct :=
  [.call, .check, .head (some ⟨size, true⟩), .plan ⟨⟨false, false⟩, false, false⟩] ++
    List.replicate k (.pool (.spawn true))

/-- A worker gets the `n` bytes it asks for, or the first `m` that its slot is cut to. -/
def segmentActs (i n : ℕ) (res : Bool) : List EngineAct :=
  [.pool (.worker i (.answer (.partialContent n))), .pool (.worker i (.data n n)),
    .pool (.worker i (.finish res)), .pool (.worker i .markDone)]

/-- A worker looks for more to do. -/
def acquireAct (i : ℕ) : EngineAct := .pool (.worker i .acquire)

/-- The request of a worker fails. -/
def refusedActs (i : ℕ) : List EngineAct :=
  [.pool (.worker i (.answer (.refused 503))), .pool (.worker i (.finish false))]

/-- A mebibyte. -/
def mib : ℕ := 1024 * 1024

/-- Four workers on four mebibytes, the first of which takes half of the second one's. -/
def stealActs : List EngineAct :=
  enterActs 4194304 4 ++ segmentActs 2 mib true ++ segmentActs 3 mib true ++
    segmentActs 0 mib true ++ [acquireAct 0] ++ segmentActs 0 (mib / 2) true ++
    segmentActs 1 mib false ++ [acquireAct 0, acquireAct 1, acquireAct 2, acquireAct 3] ++
    [.join, .flush, .decide false, .finalize true]

/-- A call with a split. -/
theorem complete_of_tracked_split :
    ∃ s, SessionReachable (fun _ => 1)
        (fun s a => serves 4194304 s a = true ∧ tracked s a = true) s ∧
      s.returned = some 0 ∧ s.w.d.chunks.length = 5 ∧ Complete (fun _ => 1) 4194304 s := by
  obtain ⟨s, hs, hret, hlen⟩ := SessionReachable.of_exec (fun _ => 1)
    (fun s a => serves 4194304 s a = true ∧ tracked s a = true)
    (fun s => s.returned = some 0 ∧ s.w.d.chunks.length = 5) (stealActs.map .engine)
    (by decide +kernel)
  exact ⟨s, hs, hret, hlen, complete_of_tracked (by decide) hs hret⟩

/-- Twenty mebibytes in eight chunks, the requests for the last two of which fail. -/
def interruptedActs : List EngineAct :=
  enterActs 20971520 8 ++
    ((List.range 6).flatMap fun i => segmentActs i 2621440 true ++ [acquireAct i]) ++
    refusedActs 6 ++ refusedActs 7 ++ [.join, .flush]

/-- The first of the two remaining workers takes half of the other one's chunk, for which
    the table has no room, and fails; so does a single connection. -/
def lostActs : List EngineAct :=
  enterActs 20971520 2 ++ segmentActs 0 2621440 true ++ [acquireAct 0] ++ refusedActs 0 ++
    segmentActs 1 2621440 false ++ [acquireAct 1] ++ refusedActs 1 ++ [.join, .flush, .decide true] ++
    enterActs 20971520 0 ++ [.finalize true]

/-- The session of these calls, the download being paused between them. -/
def lostSession : List SessionAct :=
  interruptedActs.map .engine ++
    [.requestPause true, .engine (.decide false), .requestPause false] ++ lostActs.map .engine

/-- The tail of a split that finds the table full is lost. -/
theorem exists_lost_range :
    ∃ s, SessionReachable (fun _ => 1) (fun s a => serves 20971520 s a = true) s ∧
      s.returned = some 0 ∧ ¬Complete (fun _ => 1) 20971520 s := by
  obtain ⟨s, hs, hret, f, hf, hbyte⟩ := SessionReachable.of_exec (fun _ => 1)
    (fun s a => serves 20971520 s a = true)
    (fun s => s.returned = some 0 ∧ ∃ f ∈ s.w.disk.file, f.byte 20971519 ≠ 1)
    lostSession (by decide +kernel)
  refine ⟨s, hs, hret, fun ⟨g, hg, _, hagrees⟩ => hbyte ?_⟩
  rw [hf] at hg
  cases hg
  exact hagrees 20971519 (by decide) (by decide)

end Cdm.Ranged
