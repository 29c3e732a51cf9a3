import Cdm.Engine.Stealing

/-!
# Victims that are overtaken

Between the loads of a thief and its store of the lowered limit, the victim may write on, past
the limit to be stored. As long as it does not (`NotOvertaken`), every worker stays below the
limit of its slot (`StealState.Inv`): `stealing_of_notOvertaken`. Otherwise it may fail, though it
was sent what it asked for: `exists_overtaken`.
-/

namespace Cdm

/-! ## The guard -/

/-- The bytes that a callback is going to write. -/
def StealPc.taken : StealPc → ℕ
  | .write _ m | .count _ m => m
  | _ => 0

/-- What the worker has written, or is going to write in the callback it is in. -/
def StealWorker.reach (w : StealWorker) : ℕ := w.current + w.pc.taken

/-- The slot whose limit is stored in a step, and the limit. -/
def StealState.stores (s : StealState) (a : ℕ × StealEvent) : Option (ℕ × ℕ) :=
  match (s.workers[a.1]?).map StealWorker.pc, a.2 with
  | some (.store v wp le), .next => some (v, splitPoint wp le)
  | _, _ => none

/-- A limit is not lowered below what the worker of the slot has reached, since the thief has
    looked at it. -/
def NotOvertaken (s : StealState) (a : ℕ × StealEvent) : Prop :=
  ∀ x ∈ s.stores a, ∀ w ∈ s.workers, w.slotIndex = x.1 → w.reach ≤ x.2

instance (s : StealState) (a : ℕ × StealEvent) : Decidable (NotOvertaken s a) := by
  unfold NotOvertaken
  infer_instance

theorem StealState.stores_of_store {s : StealState} {i v wp le : ℕ} {w : StealWorker}
    (hw : s.workers[i]? = some w) (hpc : w.pc = .store v wp le) :
    s.stores (i, .next) = some (v, splitPoint wp le) := by
  simp [stores, hw, hpc]

/-! ## The invariant -/

namespace StealPc

/-- The worker has a slot of its own. -/
def attached : StealPc → Bool
  | .idle | .scan _ _ | .loadPos _ | .loadEnd _ _ | .store _ _ _ | .publish _ _ | .ended => false
  | _ => true

/-- The worker holds the lock. -/
def locks : StealPc → Bool
  | .scan _ _ | .loadPos _ | .loadEnd _ _ | .store _ _ _ | .publish _ _ => true
  | _ => false

/-- The bytes done that the slot does not count yet. -/
def pending : StealPc → ℕ
  | .advance _ m => m
  | _ => 0

/-- What a thief has found out about the slots. -/
def Knows (slots : List PoolSlot) : StealPc → Prop
  | .scan _ best => ∀ x ∈ best, ∃ y, slots[x.2]? = some y ∧ y.exhausted = false
  | .loadPos v => ∃ y, slots[v]? = some y ∧ y.exhausted = false
  | .loadEnd v wp => ∃ y, slots[v]? = some y ∧ y.exhausted = false ∧ wp ≤ y.liveEnd
  | .store v wp le =>
    ∃ y, slots[v]? = some y ∧ y.exhausted = false ∧ wp ≤ y.liveEnd ∧ y.liveEnd = le
  | .publish split le => split ≤ le ∧ le < 2 ^ 64
  | _ => True

theorem knows_of_not_locks {pc : StealPc} (h : pc.locks = false) (slots : List PoolSlot) :
    pc.Knows slots := by
  cases pc with
  | scan | loadPos | loadEnd | store | publish => cases h
  | _ => trivial

/-- What a thief knows, it knows of the limits. -/
theorem Knows.modify {slots : List PoolSlot} {pc : StealPc} {k : ℕ} {f : PoolSlot → PoolSlot}
    (h : pc.Knows slots)
    (hf : ∀ x, (f x).exhausted = x.exhausted ∧ (f x).liveEnd = x.liveEnd) :
    pc.Knows (slots.modify k f) := by
  have hget {v : ℕ} {y : PoolSlot} (hy : slots[v]? = some y) :
      ∃ y', (slots.modify k f)[v]? = some y' ∧ y'.exhausted = y.exhausted ∧
        y'.liveEnd = y.liveEnd := by
    by_cases hv : v = k
    · exact ⟨f y, List.getElem?_modify_eq_some.2 (.inl ⟨hv, y, hy, rfl⟩), hf y⟩
    · exact ⟨y, List.getElem?_modify_eq_some.2 (.inr ⟨hv, hy⟩), rfl, rfl⟩
  cases pc with
  | scan _ best =>
    intro x hx
    obtain ⟨y, hy, hex⟩ := h x hx
    obtain ⟨y', hy', hex', -⟩ := hget hy
    exact ⟨y', hy', hex'.trans hex⟩
  | loadPos v =>
    obtain ⟨y, hy, hex⟩ := h
    obtain ⟨y', hy', hex', -⟩ := hget hy
    exact ⟨y', hy', hex'.trans hex⟩
  | loadEnd v wp =>
    obtain ⟨y, hy, hex, hle⟩ := h
    obtain ⟨y', hy', hex', hend⟩ := hget hy
    exact ⟨y', hy', hex'.trans hex, hle.trans_eq hend.symm⟩
  | store v wp le =>
    obtain ⟨y, hy, hex, hle, heq⟩ := h
    obtain ⟨y', hy', hex', hend⟩ := hget hy
    exact ⟨y', hy', hex'.trans hex, hle.trans_eq hend.symm, hend.trans heq⟩
  | _ => exact h

end StealPc

/-- What is known of a worker in its segment, by what it does next. A transfer is cut where the
    limit is. -/
def StealWorker.Phase (w : StealWorker) (workers liveEnd : ℕ) : Prop :=
  match w.pc with
  | .request => w.bytesDone = 0 ∧ w.truncated = false ∧ w.sent = 0
  | .transfer => w.truncated = false ∧ w.sent = w.bytesDone
  | .callback n => w.truncated = false ∧ w.sent = w.bytesDone + n
  | .write n m | .count n m => w.sent = w.bytesDone + n ∧
    (m = n ∧ w.truncated = false ∨ m ≠ n ∧ w.truncated = true ∧ w.current + m = liveEnd)
  | .advance n m => w.sent + m = w.bytesDone + n ∧
    (m = n ∧ w.truncated = false ∨ m ≠ n ∧ w.truncated = true ∧ w.current = liveEnd)
  | .judge .complete => w.sent = w.bytesDone
  | .judge .cut => w.truncated = true ∧ w.current = liveEnd
  | .failed e => ¬w.Served workers e
  | _ => True

/-- What is known of a worker and its slot. -/
structure StealWorker.Inv (w : StealWorker) (workers : ℕ) (x : PoolSlot) : Prop where
  position : x.writePos + w.pc.pending = w.current
  reach : w.reach ≤ x.liveEnd
  last : x.liveEnd ≤ w.range.last + 1
  phase : w.Phase workers x.liveEnd

structure StealState.Inv (s : StealState) : Prop where
  bounds : ∀ (k : ℕ) (x : PoolSlot), s.pool.slots[k]? = some x →
    x.writePos ≤ x.liveEnd ∧ x.liveEnd < 2 ^ 64
  /-- A slot that is not exhausted has a worker. -/
  worked : ∀ (k : ℕ) (x : PoolSlot), s.pool.slots[k]? = some x → x.exhausted = false →
    x.claimed = true ∧ ∃ (i : ℕ) (w : StealWorker), s.workers[i]? = some w ∧ w.slotIndex = k ∧
      w.pc.attached = true
  segment : ∀ (i : ℕ) (w : StealWorker), s.workers[i]? = some w → w.pc.attached = true →
    ∃ x, s.pool.slots[w.slotIndex]? = some x ∧ x.exhausted = false ∧ w.Inv s.workers.length x
  unique : ∀ (i j : ℕ) (w w' : StealWorker), s.workers[i]? = some w → s.workers[j]? = some w' →
    w.pc.attached = true → w'.pc.attached = true → w.slotIndex = w'.slotIndex → i = j
  holder : ∀ (i : ℕ) (w : StealWorker), s.workers[i]? = some w → w.pc.locks = true →
    s.holder = some i
  knows : ∀ (i : ℕ) (w : StealWorker), s.workers[i]? = some w → w.pc.Knows s.pool.slots

/-! ### A worker and its slot -/

namespace StealWorker.Inv

variable {w : StealWorker} {workers n m : ℕ} {x : PoolSlot}

/-- Bytes about to be written stay below the limit; if some are left out, they reach it. -/
theorem callback (h : w.Inv workers x) (hpc : w.pc = .callback n) :
    (w.callback x.liveEnd n).Inv workers x := by
  obtain ⟨range, bytesDone, slotIndex, truncated, status, sent, pc⟩ := w
  obtain rfl : pc = .callback n := hpc
  obtain ⟨hpos, hreach, hlast, htruncated, hsent⟩ := h
  have hcurrent : range.offset + bytesDone ≤ x.liveEnd := hreach
  rw [StealWorker.callback]
  split_ifs with hfull hcut
  · exact ⟨hpos, hreach, hlast, rfl, le_antisymm hcurrent hfull⟩
  · have hfits : range.offset + bytesDone + (x.liveEnd - (range.offset + bytesDone)) = x.liveEnd :=
      Nat.add_sub_of_le hcurrent
    exact ⟨hpos, hfits.le, hlast, hsent, .inr ⟨hcut.ne, rfl, hfits⟩⟩
  · have hfits : range.offset + bytesDone + n ≤ x.liveEnd := by
      have : n ≤ x.liveEnd - (range.offset + bytesDone) := not_lt.1 hcut
      omega
    exact ⟨hpos, hfits, hlast, hsent, .inl ⟨rfl, htruncated⟩⟩

/-- A segment that was sent what it asked for is judged to have succeeded. -/
theorem judge {e : TransferEnd} (h : w.Inv workers x) (hpc : w.pc = .judge e) :
    StealWorker.Inv { w with
      pc := if w.segmentOk workers x.liveEnd e then .succeeded else .failed e } workers x := by
  obtain ⟨range, bytesDone, slotIndex, truncated, status, sent, pc⟩ := w
  obtain rfl : pc = .judge e := hpc
  obtain ⟨hpos, hreach, hlast, hphase⟩ := h
  have hcurrent : range.offset + bytesDone ≤ x.liveEnd := hreach
  split_ifs with hok
  · exact ⟨hpos, hreach, hlast, trivial⟩
  · refine ⟨hpos, hreach, hlast, fun hserved => hok ?_⟩
    obtain ⟨hhttp, ⟨rfl, hall⟩ | rfl⟩ := hserved
    · have hsent : sent = bytesDone := hphase
      have hlast' : x.liveEnd ≤ range.last + 1 := hlast
      have hall' : sent = range.last + 1 - range.offset := hall
      exact decide_eq_true ⟨hhttp, show bytesDone = x.liveEnd - range.offset by omega, .inl rfl⟩
    · obtain ⟨htruncated, hend⟩ := hphase
      have hend' : range.offset + bytesDone = x.liveEnd := hend
      exact decide_eq_true ⟨hhttp, show bytesDone = x.liveEnd - range.offset by omega,
        .inr htruncated⟩

/-- A limit may be lowered to what the worker has reached. -/
theorem shrink {split : ℕ} (h : w.Inv workers x) (hreach : w.reach ≤ split)
    (hle : split ≤ x.liveEnd) : w.Inv workers { x with liveEnd := split } := by
  obtain ⟨range, bytesDone, slotIndex, truncated, status, sent, pc⟩ := w
  obtain ⟨hpos, -, hlast, hphase⟩ := h
  refine ⟨hpos, hreach, hle.trans hlast, ?_⟩
  -- A transfer that is cut has reached the limit, which stays where it is.
  have hcut (hend : StealWorker.reach ⟨range, bytesDone, slotIndex, truncated, status, sent, pc⟩ =
      x.liveEnd) : x.liveEnd = split := le_antisymm (hend ▸ hreach) hle
  cases pc with
  | write n m =>
    exact ⟨hphase.1, hphase.2.imp_right fun ⟨hne, ht, hend⟩ => ⟨hne, ht, hend.trans (hcut hend)⟩⟩
  | count n m =>
    exact ⟨hphase.1, hphase.2.imp_right fun ⟨hne, ht, hend⟩ => ⟨hne, ht, hend.trans (hcut hend)⟩⟩
  | advance n m =>
    exact ⟨hphase.1, hphase.2.imp_right fun ⟨hne, ht, hend⟩ => ⟨hne, ht, hend.trans (hcut hend)⟩⟩
  | judge e =>
    cases e with
    | cut => exact ⟨hphase.1, hphase.2.trans (hcut hphase.2)⟩
    | _ => exact hphase
  | _ => exact hphase

end StealWorker.Inv

/-! ### The steps keep it -/

namespace StealState.Inv

variable {s s' : StealState} {i k : ℕ} {w w' : StealWorker}

theorem noOrphan (h : s.Inv) : s.pool.NoOrphan := by
  intro x hx
  obtain ⟨k, hk⟩ := List.getElem?_of_mem hx
  cases hex : x.exhausted with
  | true => exact .inl rfl
  | false => exact .inr (h.worked k x hk hex).1

/-- A step of a worker that keeps its slot, or its having none. -/
theorem of_set (h : s.Inv) (hw : s.workers[i]? = some w)
    (hworkers : s'.workers = s.workers.set i w')
    (hslot : w'.slotIndex = w.slotIndex) (hattached : w'.pc.attached = w.pc.attached)
    (hslots : ∀ (k : ℕ) (x' : PoolSlot), s'.pool.slots[k]? = some x' →
      (x'.writePos ≤ x'.liveEnd ∧ x'.liveEnd < 2 ^ 64) ∧
        ∃ x, s.pool.slots[k]? = some x ∧ x'.exhausted = x.exhausted ∧ x'.claimed = x.claimed)
    (hself : w'.pc.attached = true → ∃ x', s'.pool.slots[w'.slotIndex]? = some x' ∧
      x'.exhausted = false ∧ w'.Inv s.workers.length x')
    (hother : ∀ (j : ℕ) (u : StealWorker) (x : PoolSlot), j ≠ i → s.workers[j]? = some u →
      u.pc.attached = true → s.pool.slots[u.slotIndex]? = some x → x.exhausted = false →
      u.Inv s.workers.length x → ∃ x', s'.pool.slots[u.slotIndex]? = some x' ∧
        x'.exhausted = false ∧ u.Inv s.workers.length x')
    (hlocks : w'.pc.locks = true → s'.holder = some i)
    (hlocks' : ∀ (j : ℕ) (u : StealWorker), j ≠ i → s.workers[j]? = some u → u.pc.locks = true →
      s'.holder = some j)
    (hknows : w'.pc.Knows s'.pool.slots)
    (hknows' : ∀ (j : ℕ) (u : StealWorker), j ≠ i → s.workers[j]? = some u →
      u.pc.Knows s.pool.slots → u.pc.Knows s'.pool.slots) : s'.Inv := by
  have hget (j : ℕ) : s'.workers[j]? = if j = i then some w' else s.workers[j]? := by
    rw [hworkers, List.getElem?_set_of_eq_some hw]
  have hlen : s'.workers.length = s.workers.length := by rw [hworkers, List.length_set]
  -- A worker after the step was there before, with the same slot.
  have hold {j : ℕ} {u : StealWorker} (hu : s'.workers[j]? = some u) :
      ∃ u₀, s.workers[j]? = some u₀ ∧ u.slotIndex = u₀.slotIndex ∧
        u.pc.attached = u₀.pc.attached := by
    rw [hget] at hu
    split_ifs at hu with hj
    · cases hu
      exact ⟨w, hj ▸ hw, hslot, hattached⟩
    · exact ⟨u, hu, rfl, rfl⟩
  refine ⟨fun k x' hx' => (hslots k x' hx').1, fun k x' hx' hex => ?_, fun j u hu ha => ?_,
    fun j j' u u' hu hu' ha ha' hid => ?_, fun j u hu hl => ?_, fun j u hu => ?_⟩
  · obtain ⟨-, x, hx, hexhausted, hclaimed⟩ := hslots k x' hx'
    obtain ⟨hc, j, u, hu, hid, ha⟩ := h.worked k x hx (hexhausted ▸ hex)
    refine ⟨hclaimed.trans hc, ?_⟩
    by_cases hj : j = i
    · subst hj
      rw [hw] at hu
      cases hu
      exact ⟨j, w', by rw [hget, if_pos rfl], hslot.trans hid, hattached.trans ha⟩
    · exact ⟨j, u, by rw [hget, if_neg hj, hu], hid, ha⟩
  · rw [hlen]
    rw [hget] at hu
    split_ifs at hu with hj
    · cases hu
      exact hself ha
    · obtain ⟨x, hx, hex, hinv⟩ := h.segment j u hu ha
      exact hother j u x hj hu ha hx hex hinv
  · obtain ⟨u₀, hu₀, hid₀, ha₀⟩ := hold hu
    obtain ⟨u₁, hu₁, hid₁, ha₁⟩ := hold hu'
    exact h.unique j j' u₀ u₁ hu₀ hu₁ (ha₀ ▸ ha) (ha₁ ▸ ha') (by rw [← hid₀, hid, hid₁])
  · rw [hget] at hu
    split_ifs at hu with hj
    · cases hu
      exact hj ▸ hlocks hl
    · exact hlocks' j u hj hu hl
  · rw [hget] at hu
    split_ifs at hu with hj
    · cases hu
      exact hknows
    · exact hknows' j u hj hu (h.knows j u hu)

/-- A step of a worker that changes nothing else. -/
theorem setWorker (h : s.Inv) (hw : s.workers[i]? = some w)
    (hslot : w'.slotIndex = w.slotIndex) (hattached : w'.pc.attached = w.pc.attached)
    (hinv : ∀ x, s.pool.slots[w.slotIndex]? = some x → w.pc.attached = true →
      w.Inv s.workers.length x → w'.Inv s.workers.length x)
    (hlocks : w'.pc.locks = true → w.pc.locks = true) (hknows : w'.pc.Knows s.pool.slots) :
    (s.setWorker i w').Inv := by
  refine h.of_set hw rfl hslot hattached
    (fun k x hx => ⟨h.bounds k x hx, x, hx, rfl, rfl⟩) (fun ha => ?_)
    (fun j u x _ _ _ hx hex hu => ⟨x, hx, hex, hu⟩) (fun hl => h.holder i w hw (hlocks hl))
    (fun j u _ hu hl => h.holder j u hu hl) hknows fun _ _ _ _ hu => hu
  obtain ⟨x, hx, hex, hw'⟩ := h.segment i w hw (hattached ▸ ha)
  exact ⟨x, hslot ▸ hx, hex, hinv x hx (hattached ▸ ha) hw'⟩

/-- Nobody else holds the lock. -/
theorem not_locks (h : s.Inv) {j : ℕ} {u : StealWorker} (hu : s.workers[j]? = some u)
    (hj : s.holder ≠ some j) : u.pc.locks = false := by
  by_contra hl
  exact hj (h.holder j u hu (by simpa using hl))

/-- A step of a worker that changes a slot, which stays as it is otherwise. -/
theorem modifySlot (h : s.Inv) (hw : s.workers[i]? = some w) {f : PoolSlot → PoolSlot}
    (hf : ∀ x, (f x).exhausted = x.exhausted ∧ (f x).claimed = x.claimed)
    (hslot : w'.slotIndex = w.slotIndex) (hattached : w'.pc.attached = w.pc.attached)
    (hbounds : ∀ x, s.pool.slots[k]? = some x →
      (f x).writePos ≤ (f x).liveEnd ∧ (f x).liveEnd < 2 ^ 64)
    (hself : w'.pc.attached = true → ∃ x', (s.pool.slots.modify k f)[w'.slotIndex]? = some x' ∧
      x'.exhausted = false ∧ w'.Inv s.workers.length x')
    (hother : ∀ (j : ℕ) (u : StealWorker) (x : PoolSlot), j ≠ i → s.workers[j]? = some u →
      u.pc.attached = true → u.slotIndex = k → u.Inv s.workers.length x →
      s.pool.slots[k]? = some x → u.Inv s.workers.length (f x))
    (hlocks : w'.pc.locks = true → w.pc.locks = true)
    (hknows : w'.pc.Knows (s.pool.slots.modify k f))
    (hknows' : ∀ (j : ℕ) (u : StealWorker), j ≠ i → s.workers[j]? = some u →
      u.pc.Knows s.pool.slots → u.pc.Knows (s.pool.slots.modify k f)) :
    ((s.modifySlot k f).setWorker i w').Inv := by
  refine h.of_set hw rfl hslot hattached (fun k' x' hx' => ?_) hself
    (fun j u x hj hu ha hx hex hinv => ?_) (fun hl => h.holder i w hw (hlocks hl))
    (fun j u _ hu hl => h.holder j u hu hl) hknows hknows'
  · rcases List.getElem?_modify_eq_some.1 hx' with ⟨rfl, x, hx, rfl⟩ | ⟨-, hx⟩
    · exact ⟨hbounds x hx, x, hx, hf x⟩
    · exact ⟨h.bounds k' x' hx, x', hx, rfl, rfl⟩
  · by_cases hk : u.slotIndex = k
    · refine ⟨f x, List.getElem?_modify_eq_some.2 (.inl ⟨hk, x, hx, rfl⟩), (hf x).1.trans hex, ?_⟩
      exact hother j u x hj hu ha hk hinv (hk ▸ hx)
    · exact ⟨x, List.getElem?_modify_eq_some.2 (.inr ⟨hk, hx⟩), hex, hinv⟩

theorem advance (h : s.Inv) {range : Range} {bytesDone slotIndex status sent n m : ℕ}
    {truncated : Bool} (hw : s.workers[i]? =
      some ⟨range, bytesDone, slotIndex, truncated, status, sent, .advance n m⟩) :
    ((s.modifySlot slotIndex fun x => { x with writePos := x.writePos + m }).setWorker i
      ⟨range, bytesDone, slotIndex, truncated, status, sent,
        if m = n then .transfer else .judge .cut⟩).Inv := by
  obtain ⟨x, hx, hex, hpos, hreach, hlast, hsent, hm⟩ := h.segment i _ hw rfl
  -- The bytes that the slot did not count yet.
  have hpos' : x.writePos + m = range.offset + bytesDone := hpos
  have hreach' : range.offset + bytesDone ≤ x.liveEnd := hreach
  refine h.modifySlot hw (fun _ => ⟨rfl, rfl⟩) rfl ?_ (fun y hy => ?_) (fun _ => ?_)
    (fun j u y hj hu ha hslot _ _ => absurd (h.unique j i u _ hu hw ha rfl hslot) hj)
    (fun hl => ?_) ?_ fun j u _ _ hknows => ?_
  · split_ifs <;> rfl
  · obtain rfl := Option.some.inj (hx.symm.trans hy)
    exact ⟨hpos'.trans_le hreach', (h.bounds _ x hx).2⟩
  · refine ⟨_, List.getElem?_modify_eq_some.2 (.inl ⟨rfl, x, hx, rfl⟩), hex, ?_⟩
    have hsent' : sent + m = bytesDone + n := hsent
    split_ifs with hmn
    · obtain ⟨-, htruncated⟩ := hm.resolve_right fun hne => hne.1 hmn
      exact ⟨hpos', hreach, hlast, htruncated, show sent = bytesDone by omega⟩
    · obtain ⟨-, hcut⟩ := hm.resolve_left fun heq => hmn heq.1
      exact ⟨hpos', hreach, hlast, hcut⟩
  · split_ifs at hl <;> cases hl
  · split_ifs <;> trivial
  · exact hknows.modify fun _ => ⟨rfl, rfl⟩

theorem markDone (h : s.Inv) (hw : s.workers[i]? = some w) (hpc : w.pc = .succeeded)
    (hfree : s.holder = none) :
    Inv { s.setWorker i { w with pc := .idle } with pool := s.pool.markDone w.slotIndex } := by
  have hlocks {j : ℕ} {u : StealWorker} (hu : s.workers[j]? = some u) : u.pc.locks = false :=
    h.not_locks hu (by rw [hfree]; simp)
  have hget (j : ℕ) : (s.workers.set i { w with pc := .idle })[j]? =
      if j = i then some { w with pc := .idle } else s.workers[j]? :=
    List.getElem?_set_of_eq_some hw
  have hattached : w.pc.attached = true := by rw [hpc]; rfl
  -- A worker that has a slot after the step is another one, and has another slot.
  have hother {j : ℕ} {u : StealWorker}
      (hu : (s.workers.set i { w with pc := .idle })[j]? = some u) (ha : u.pc.attached = true) :
      s.workers[j]? = some u ∧ u.slotIndex ≠ w.slotIndex := by
    rw [hget] at hu
    split_ifs at hu with hj
    · cases hu
      cases ha
    · exact ⟨hu, fun hid => hj (h.unique j i u w hu hw ha hattached hid)⟩
  refine ⟨fun k x' hx' => ?_, fun k x' hx' hex => ?_, fun j u hu ha => ?_,
    fun j j' u u' hu hu' ha ha' hid => ?_, fun j u hu hl => ?_, fun j u hu => ?_⟩
  · rcases List.getElem?_modify_eq_some.1 hx' with ⟨rfl, x, hx, rfl⟩ | ⟨-, hx⟩
    · exact h.bounds _ x hx
    · exact h.bounds k x' hx
  · rcases List.getElem?_modify_eq_some.1 hx' with ⟨rfl, x, hx, rfl⟩ | ⟨hk, hx⟩
    · cases hex
    · obtain ⟨hc, j, u, hu, hid, ha⟩ := h.worked k x' hx hex
      have hj : j ≠ i := by
        rintro rfl
        rw [hw] at hu
        cases hu
        exact hk hid.symm
      exact ⟨hc, j, u, (hget j).trans (by rw [if_neg hj, hu]), hid, ha⟩
  · obtain ⟨hu₀, hne⟩ := hother hu ha
    obtain ⟨x, hx, hex, hinv⟩ := h.segment j u hu₀ ha
    refine ⟨x, List.getElem?_modify_eq_some.2 (.inr ⟨hne, hx⟩), hex, ?_⟩
    change u.Inv (s.workers.set i { w with pc := .idle }).length x
    rw [List.length_set]
    exact hinv
  · exact h.unique j j' u u' (hother hu ha).1 (hother hu' ha').1 ha ha' hid
  · replace hu := (hget j).symm.trans hu
    split_ifs at hu with hj
    · cases hu
      cases hl
    · rw [hlocks hu] at hl
      cases hl
  · replace hu := (hget j).symm.trans hu
    split_ifs at hu with hj
    · cases hu
      trivial
    · exact StealPc.knows_of_not_locks (hlocks hu) _

theorem store (h : s.Inv) {range : Range} {bytesDone slotIndex status sent v wp le : ℕ}
    {truncated : Bool} (hw : s.workers[i]? =
      some ⟨range, bytesDone, slotIndex, truncated, status, sent, .store v wp le⟩)
    (hok : ∀ u ∈ s.workers, u.slotIndex = v → u.reach ≤ splitPoint wp le) :
    ((s.modifySlot v fun x => { x with liveEnd := splitPoint wp le }).setWorker i
      ⟨range, bytesDone, slotIndex, truncated, status, sent,
        .publish (splitPoint wp le) le⟩).Inv := by
  obtain ⟨y, hy, hex, hle, rfl⟩ := h.knows i _ hw
  obtain ⟨hwp, hlt⟩ := h.bounds v y hy
  have hsplit : splitPoint wp y.liveEnd ≤ y.liveEnd := by
    rw [splitPoint_eq hle hlt]
    omega
  refine h.modifySlot hw (fun _ => ⟨rfl, rfl⟩) rfl rfl (fun x hx => ?_) (fun ha => by cases ha)
    (fun j u x _ hu _ hid hinv hx => ?_) (fun _ => rfl) ⟨hsplit, hlt⟩ fun j u hj hu _ =>
      StealPc.knows_of_not_locks (h.not_locks hu (by
        rw [h.holder i _ hw rfl]
        simpa using hj.symm)) _
  · -- The victim has a worker, and has not reached further.
    obtain rfl := Option.some.inj (hy.symm.trans hx)
    obtain ⟨-, j, u, hu, hid, ha⟩ := h.worked v y hy hex
    obtain ⟨x, hx', -, hinv⟩ := h.segment j u hu ha
    obtain rfl := Option.some.inj (hy.symm.trans (hid ▸ hx'))
    have hreach := hok u (List.mem_of_getElem? hu) hid
    have hposition := hinv.position
    rw [StealWorker.reach] at hreach
    exact ⟨show y.writePos ≤ splitPoint wp y.liveEnd by omega, hsplit.trans_lt hlt⟩
  · obtain rfl := Option.some.inj (hy.symm.trans hx)
    exact hinv.shrink (hok u (List.mem_of_getElem? hu) hid) hsplit

theorem publish (h : s.Inv) {split le : ℕ} (hw : s.workers[i]? = some w)
    (hpc : w.pc = .publish split le) : (s.publish i split le).Inv := by
  have hknows := h.knows i w hw
  rw [hpc] at hknows
  obtain ⟨hle, hlt⟩ := hknows
  have hholder : s.holder = some i := h.holder i w hw (by rw [hpc]; rfl)
  have hget (j : ℕ) : (s.publish i split le).workers[j]? =
      if j = i then some (.assign s.pool.slots.length split le) else s.workers[j]? :=
    List.getElem?_set_of_eq_some hw
  have hlocks {j : ℕ} {u : StealWorker} (hj : j ≠ i) (hu : s.workers[j]? = some u) :
      u.pc.locks = false :=
    h.not_locks hu (by rw [hholder]; simpa using hj.symm)
  -- The slots of the others are where they were.
  have hother {j : ℕ} {u : StealWorker} (hu : s.workers[j]? = some u) (ha : u.pc.attached = true) :
      u.slotIndex < s.pool.slots.length := by
    obtain ⟨x, hx, -⟩ := h.segment j u hu ha
    exact (List.getElem?_eq_some_iff.1 hx).1
  refine ⟨fun k x hx => ?_, fun k x hx hex => ?_, fun j u hu ha => ?_,
    fun j j' u u' hu hu' ha ha' hid => ?_, fun j u hu hl => ?_, fun j u hu => ?_⟩
  · rcases List.getElem?_concat_eq_some.1 hx with hx | ⟨-, rfl⟩
    · exact h.bounds k x hx
    · exact ⟨hle, hlt⟩
  · rcases List.getElem?_concat_eq_some.1 hx with hx | ⟨rfl, rfl⟩
    · obtain ⟨hc, j, u, hu, hid, ha⟩ := h.worked k x hx hex
      have hj : j ≠ i := by
        rintro rfl
        rw [hw] at hu
        cases hu
        rw [hpc] at ha
        cases ha
      exact ⟨hc, j, u, by rw [hget, if_neg hj, hu], hid, ha⟩
    · exact ⟨rfl, i, _, by rw [hget, if_pos rfl], rfl, rfl⟩
  · rw [show (s.publish i split le).workers.length = s.workers.length from List.length_set]
    rw [hget] at hu
    split_ifs at hu with hj
    · cases hu
      exact ⟨_, List.getElem?_concat_eq_some.2 (.inr ⟨rfl, rfl⟩), rfl,
        ⟨rfl, hle, show le ≤ le - 1 + 1 by omega, rfl, rfl, rfl⟩⟩
    · obtain ⟨x, hx, hex, hinv⟩ := h.segment j u hu ha
      exact ⟨x, List.getElem?_concat_eq_some.2 (.inl hx), hex, hinv⟩
  · rw [hget] at hu hu'
    split_ifs at hu hu' with hj hj' hj'
    · exact hj.trans hj'.symm
    · cases hu
      -- The new slot is behind all that are in use.
      exact absurd (hother hu' ha') (by rw [← hid]; exact lt_irrefl _)
    · cases hu'
      exact absurd (hother hu ha) (by rw [hid]; exact lt_irrefl _)
    · exact h.unique j j' u u' hu hu' ha ha' hid
  · rw [hget] at hu
    split_ifs at hu with hj
    · cases hu
      cases hl
    · rw [hlocks hj hu] at hl
      cases hl
  · rw [hget] at hu
    split_ifs at hu with hj
    · cases hu
      trivial
    · exact StealPc.knows_of_not_locks (hlocks hj hu) _

theorem step (h : s.Inv) {e : StealEvent} (hok : NotOvertaken s (i, e))
    (hw : s.workers[i]? = some w) (hs : StealStep s i w e s') : s'.Inv := by
  obtain ⟨range, bytesDone, slotIndex, truncated, status, sent, pc⟩ := w
  cases hs with
  | respond hpc =>
    obtain rfl : pc = _ := hpc
    refine h.setWorker hw rfl rfl (fun x _ _ hx => ?_) id trivial
    obtain ⟨hpos, hreach, hlast, hbytes, htruncated, hsent⟩ := hx
    exact ⟨hpos, hreach, hlast, htruncated, hsent.trans hbytes.symm⟩
  | @receive n hpc =>
    obtain rfl : pc = _ := hpc
    refine h.setWorker hw rfl rfl (fun x _ _ hx => ?_) id trivial
    obtain ⟨hpos, hreach, hlast, htruncated, hsent⟩ := hx
    exact ⟨hpos, hreach, hlast, htruncated, congrArg (· + n) hsent⟩
  | @finish ok hpc =>
    obtain rfl : pc = _ := hpc
    refine h.setWorker hw rfl rfl (fun x _ _ hx => ?_) id trivial
    obtain ⟨hpos, hreach, hlast, htruncated, hsent⟩ := hx
    cases ok with
    | true => exact ⟨hpos, hreach, hlast, hsent⟩
    | false => exact ⟨hpos, hreach, hlast, trivial⟩
  | stop hpc =>
    obtain rfl : pc = _ := hpc
    exact h.setWorker hw rfl rfl (fun x _ _ hx => ⟨hx.position, hx.reach, hx.last, trivial⟩) id
      trivial
  | @loadLimit n x hpc hx =>
    obtain rfl : pc = _ := hpc
    refine h.setWorker hw ?_ ?_ (fun y hy _ hinv => ?_) (fun hl => ?_) ?_
    · rw [StealWorker.callback]
      split_ifs <;> rfl
    · rw [StealWorker.callback]
      split_ifs <;> rfl
    · obtain rfl := Option.some.inj (hx.symm.trans hy)
      exact hinv.callback rfl
    · rw [StealWorker.callback] at hl
      split_ifs at hl <;> cases hl
    · rw [StealWorker.callback]
      split_ifs <;> trivial
  | @write n m ok hpc =>
    obtain rfl : pc = _ := hpc
    cases ok with
    | true =>
      exact h.setWorker hw rfl rfl (fun x _ _ hx => ⟨hx.position, hx.reach, hx.last, hx.phase⟩) id
        trivial
    | false =>
      refine h.setWorker hw rfl rfl (fun x _ _ hx => ⟨hx.position, ?_, hx.last, trivial⟩) id trivial
      exact (Nat.le_add_right _ m).trans hx.reach
  | @count n m hpc =>
    obtain rfl : pc = _ := hpc
    refine h.setWorker hw rfl rfl (fun x _ _ hx => ?_) id trivial
    obtain ⟨hpos, hreach, hlast, hsent, hm⟩ := hx
    have hpos' : x.writePos = range.offset + bytesDone := hpos
    refine ⟨?_, ?_, hlast, ?_, ?_⟩
    · change x.writePos + m = range.offset + (bytesDone + m)
      omega
    · change range.offset + (bytesDone + m) ≤ x.liveEnd
      exact (Nat.add_assoc _ _ _).symm.trans_le hreach
    · change sent + m = bytesDone + m + n
      have : sent = bytesDone + n := hsent
      omega
    · exact hm.imp_right fun ⟨hne, htruncated, hend⟩ =>
        ⟨hne, htruncated, (Nat.add_assoc _ _ _).symm.trans hend⟩
  | @advance n m hpc =>
    obtain rfl : pc = _ := hpc
    exact h.advance hw
  | @judge e x hpc hx =>
    obtain rfl : pc = _ := hpc
    refine h.setWorker hw rfl ?_ (fun y hy _ hinv => ?_) (fun hl => ?_) ?_
    · split_ifs <;> rfl
    · obtain rfl := Option.some.inj (hx.symm.trans hy)
      exact hinv.judge rfl
    · split_ifs at hl <;> cases hl
    · split_ifs <;> trivial
  | markDone hpc hfree =>
    obtain rfl : pc = _ := hpc
    exact h.markDone hw rfl hfree
  | acquire hpc hfree =>
    obtain rfl : pc = _ := hpc
    -- There is no orphan to take, so that the pool is scanned, under a lock that was free.
    rw [StealState.acquire, h.noOrphan.orphan_eq_none]
    refine h.of_set hw rfl rfl rfl (fun k x hx => ⟨h.bounds k x hx, x, hx, rfl, rfl⟩)
      (fun ha => by cases ha) (fun j u x _ _ _ hx hex hu => ⟨x, hx, hex, hu⟩) (fun _ => rfl)
      (fun j u _ hu hl => ?_) (fun _ hx => by cases hx) fun _ _ _ _ hu => hu
    rw [h.not_locks hu (by rw [hfree]; simp)] at hl
    cases hl
  | @look k best x hpc hx =>
    obtain rfl : pc = _ := hpc
    refine h.setWorker hw rfl rfl (fun _ _ ha _ => by cases ha) id fun y hy => ?_
    have hknows := h.knows i _ hw
    rw [RebalancePool.busier] at hy
    split_ifs at hy with hskip
    · exact hknows y hy
    · cases hy
      simp only [Bool.or_eq_true, not_or, Bool.not_eq_true] at hskip
      exact ⟨x, hx, hskip.1⟩
    · exact hknows y hy
  | @choose k best hpc hx =>
    obtain rfl : pc = _ := hpc
    -- A worker that finds nothing to steal gives up the lock, which is its own.
    have hended : Inv { s.setWorker i ⟨range, bytesDone, slotIndex, truncated, status, sent, .ended⟩
        with holder := none } := by
      refine h.of_set hw rfl rfl rfl (fun k x hx => ⟨h.bounds k x hx, x, hx, rfl, rfl⟩)
        (fun ha => by cases ha) (fun j u x _ _ _ hx hex hu => ⟨x, hx, hex, hu⟩)
        (fun hl => by cases hl) (fun j u hj hu hl => ?_) trivial fun _ _ _ _ hu => hu
      rw [h.not_locks hu (by rw [h.holder i _ hw rfl]; simpa using hj.symm)] at hl
      cases hl
    unfold StealState.choose
    split
    · exact hended
    · split_ifs
      · exact hended
      · exact h.setWorker hw rfl rfl (fun _ _ ha _ => by cases ha) id (h.knows i _ hw _ rfl)
  | @loadPos v x hpc hx =>
    obtain rfl : pc = _ := hpc
    obtain ⟨y, hy, hex⟩ := h.knows i _ hw
    exact h.setWorker hw rfl rfl (fun _ _ ha _ => by cases ha) id
      ⟨x, hx, Option.some.inj (hy.symm.trans hx) ▸ hex, (h.bounds v x hx).1⟩
  | @loadEnd v wp x hpc hx =>
    obtain rfl : pc = _ := hpc
    obtain ⟨y, hy, hex, hle⟩ := h.knows i _ hw
    obtain rfl := Option.some.inj (hy.symm.trans hx)
    exact h.setWorker hw rfl rfl (fun _ _ ha _ => by cases ha) id ⟨y, hx, hex, hle, rfl⟩
  | @store v wp le hpc =>
    obtain rfl : pc = _ := hpc
    -- The only step that needs the condition: the victim has not gone past its new end.
    exact h.store hw fun u hu hv => hok _ (StealState.stores_of_store hw rfl) u hu hv
  | @publish split le hpc =>
    obtain rfl : pc = _ := hpc
    exact h.publish hw rfl

theorem of_isInit (h : s.IsInit) : s.Inv := by
  obtain ⟨rs, rfl, hrs⟩ := h
  -- Every slot and every worker is that of a range.
  have hslot {k : ℕ} {x : PoolSlot} (hx : (stealingCreate rs).pool.slots[k]? = some x) :
      ∃ r, rs[k]? = some r ∧ x = slotOf (k, r) := by
    simp only [stealingCreate, rebalancePoolCreate, List.getElem?_map, List.getElem?_mapIdx,
      Option.map_map, Option.map_eq_some_iff] at hx
    obtain ⟨r, hr, rfl⟩ := hx
    exact ⟨r, hr, rfl⟩
  have hworker (k : ℕ) :
      (stealingCreate rs).workers[k]? = (rs[k]?).map (StealWorker.create k) :=
    List.getElem?_mapIdx
  refine ⟨fun k x hx => ?_, fun k x hx _ => ?_, fun i w hw _ => ?_,
    fun i j w w' hw hw' _ _ hid => ?_, fun i w hw hl => ?_, fun i w hw => ?_⟩
  · obtain ⟨r, hr, rfl⟩ := hslot hx
    exact hrs r (List.mem_of_getElem? hr)
  · obtain ⟨r, hr, rfl⟩ := hslot hx
    exact ⟨rfl, k, .create k r, by rw [hworker, hr]; rfl, rfl, rfl⟩
  · rw [hworker] at hw
    obtain ⟨r, hr, rfl⟩ := Option.map_eq_some_iff.1 hw
    refine ⟨slotOf (i, r), ?_, rfl, rfl, (hrs r (List.mem_of_getElem? hr)).1, le_rfl, rfl, rfl, rfl⟩
    simp [stealingCreate, rebalancePoolCreate, StealWorker.create, hr]
  · rw [hworker] at hw hw'
    obtain ⟨r, -, rfl⟩ := Option.map_eq_some_iff.1 hw
    obtain ⟨r', -, rfl⟩ := Option.map_eq_some_iff.1 hw'
    exact hid
  · rw [hworker] at hw
    obtain ⟨r, -, rfl⟩ := Option.map_eq_some_iff.1 hw
    cases hl
  · rw [hworker] at hw
    obtain ⟨r, -, rfl⟩ := Option.map_eq_some_iff.1 hw
    trivial

theorem of_reachable (h : Run.Reachable StealState.step StealState.IsInit NotOvertaken s) : s.Inv :=
  h.invariant (fun _ => of_isInit) fun _ _ _ hinv hok hs => by
    obtain ⟨w, hw, hst⟩ := Option.bind_eq_some_iff.1 hs
    exact hinv.step hok hw (.of_eq hst)

end StealState.Inv

/-! ## Runs -/

/-- Where a victim is not overtaken, no limit falls below what is written, and no worker fails
    that was sent what it asked for. -/
theorem stealing_of_notOvertaken {s : StealState}
    (h : Run.Reachable StealState.step StealState.IsInit NotOvertaken s) :
    (∀ x ∈ s.pool.slots, x.writePos ≤ x.liveEnd) ∧
      ∀ w ∈ s.workers, ∀ e, w.pc = .failed e → ¬w.Served s.workers.length e := by
  have hinv := StealState.Inv.of_reachable h
  refine ⟨fun x hx => ?_, fun w hw e hpc => ?_⟩
  · obtain ⟨k, hk⟩ := List.getElem?_of_mem hx
    exact (hinv.bounds k x hk).1
  · obtain ⟨i, hi⟩ := List.getElem?_of_mem hw
    obtain ⟨x, -, -, hsegment⟩ := hinv.segment i w hi (by rw [hpc]; rfl)
    have hphase := hsegment.phase
    rwa [StealWorker.Phase, hpc] at hphase

/-- The steps of the worker `i` in a callback on `n` bytes. -/
def callbackSteps (i n : ℕ) : List (ℕ × StealEvent) :=
  [(i, .receive n), (i, .next), (i, .write true), (i, .next), (i, .next)]

/-- A worker with a single byte to fetch has looked for more, and is about to take the upper half
    of the other one's 1 MiB. -/
def stealSteps : List (ℕ × StealEvent) :=
  [(1, .respond 206)] ++ callbackSteps 1 1 ++ [(1, .finish true)] ++ List.replicate 8 (1, .next)

def stealRanges : List Range := [⟨0, 1048575, 0, false⟩, ⟨1048576, 1048576, 0, false⟩]

theorem isInit_stealRanges : (stealingCreate stealRanges).IsInit := ⟨stealRanges, rfl, by decide⟩

/-- The victim goes on with its transfer when it is split. -/
theorem stealing_of_notOvertaken_split :
    ∃ s, Run.Reachable StealState.step StealState.IsInit NotOvertaken s ∧
      s.pool.slots.map (·.liveEnd) = [524288, 1048577, 1048576] ∧
      (∀ x ∈ s.pool.slots, x.writePos ≤ x.liveEnd) ∧
        ∀ w ∈ s.workers, ∀ e, w.pc = .failed e → ¬w.Served s.workers.length e := by
  obtain ⟨s, hs, hP⟩ := Run.exists_reachable_of_exec StealState.step StealState.IsInit NotOvertaken
    (fun s => s.pool.slots.map (·.liveEnd) = [524288, 1048577, 1048576]) isInit_stealRanges
    (stealSteps ++ [(0, .respond 206)] ++ callbackSteps 0 16384 ++ [(1, .next), (1, .next)])
    (by decide +kernel)
  exact ⟨s, hs, hP, stealing_of_notOvertaken hs⟩

/-- A victim that writes more than half of its bytes before the thief stores the limit is
    overtaken, and fails though it was sent what it asked for. -/
theorem exists_overtaken :
    ∃ s, Run.Reachable StealState.step StealState.IsInit (fun _ _ => True) s ∧
      (∃ x ∈ s.pool.slots, x.liveEnd < x.writePos) ∧
        ∃ w ∈ s.workers, w.pc = .failed .cut ∧ w.Served s.workers.length .cut :=
  Run.exists_reachable_of_exec StealState.step StealState.IsInit (fun _ _ => True) _
    isInit_stealRanges
    (stealSteps ++ [(0, .respond 206)] ++ (List.replicate 33 (callbackSteps 0 16384)).flatten ++
      [(1, .next), (1, .next), (0, .receive 1), (0, .next), (0, .next)])
    (by decide +kernel)

end Cdm
