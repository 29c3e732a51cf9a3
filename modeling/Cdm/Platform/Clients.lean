import Mathlib.Tactic

/-!
# The table of the clients

The parallel arrays in which `platform/ipc_socket.c` keeps the clients of the daemon, as one
array of slots, of which the first `count` are in use; adding a client, removing one, which
moves the later ones down, and a broadcast, which removes the clients that do not take what
is sent to them.

A slot has a buffer for a header that arrives in pieces, and the number of bytes in it.
What is stored behind the end of a buffer is not followed.

* `Clients.broadcast_induction`: what is kept by removing a client is kept by a broadcast;
* `Clients.remain_ipcBroadcastStatus`: a broadcast leaves some of the slots, in their order.
-/

namespace Cdm

def maxClients : ℕ := 16

structure Slot where
  /-- The connection, `none` if the slot is free. -/
  fd : Option ℕ
  subscribed : Bool
  /-- The download whose progress the client follows, `0` if there is none. -/
  browserDownload : ℕ
  headerBytes : ℕ
  header : ℕ → Char

namespace Slot

/-- The bytes of a header that have arrived. -/
def buffered (x : Slot) : List Char := (List.range x.headerBytes).map x.header

/-- A free slot; its buffer keeps what it had. -/
def freed (x : Slot) : Slot :=
  { x with fd := none, subscribed := false, browserDownload := 0, headerBytes := 0 }

/-- Storing bytes behind those that have arrived, before they are counted. -/
def store (x : Slot) (l : List Char) : Slot :=
  { x with header := fun a =>
      if x.headerBytes ≤ a then l.getD (a - x.headerBytes) (x.header a) else x.header a }

@[simp] theorem store_headerBytes (x : Slot) (l : List Char) :
    (x.store l).headerBytes = x.headerBytes := rfl

@[simp] theorem store_fd (x : Slot) (l : List Char) : (x.store l).fd = x.fd := rfl

@[simp] theorem length_buffered (x : Slot) : x.buffered.length = x.headerBytes := by
  simp [buffered]

/-- Once they are counted, the bytes stored follow the others. -/
theorem map_store (x : Slot) (l : List Char) :
    (List.range (x.headerBytes + l.length)).map (x.store l).header = x.buffered ++ l := by
  rw [List.range_add, List.map_append, buffered]
  congr 1
  · refine List.map_congr_left fun a ha => ?_
    simp [store, List.mem_range.1 ha]
  · refine List.ext_getElem (by simp) fun k hk hk' => ?_
    simp [store, hk']

end Slot

structure Clients where
  count : ℕ
  slots : ℕ → Slot

namespace Clients

def modify (c : Clients) (i : ℕ) (f : Slot → Slot) : Clients :=
  { c with slots := Function.update c.slots i (f (c.slots i)) }

@[simp] theorem count_modify (c : Clients) (i : ℕ) (f : Slot → Slot) :
    (c.modify i f).count = c.count := rfl

@[simp] theorem slots_modify_self (c : Clients) {i : ℕ} {f : Slot → Slot} :
    (c.modify i f).slots i = f (c.slots i) := Function.update_self _ _ _

theorem slots_modify_of_ne (c : Clients) {i j : ℕ} {f : Slot → Slot} (h : j ≠ i) :
    (c.modify i f).slots j = c.slots j := Function.update_of_ne h _ _

/-- Closing the connection of a slot, and moving the later slots down. -/
def removeClient (c : Clients) (index : ℕ) : Clients where
  count := c.count - 1
  slots := fun i =>
    -- The last slot is freed, but for the bytes of its buffer.
    if i = c.count - 1 then (c.slots i).freed
    else if index ≤ i ∧ i < c.count - 1 then c.slots (i + 1)
    else c.slots i

theorem slots_removeClient (c : Clients) {index i : ℕ} (hi : i < c.count - 1) :
    (c.removeClient index).slots i = if index ≤ i then c.slots (i + 1) else c.slots i := by
  rw [removeClient]
  simp only
  rw [if_neg hi.ne]
  by_cases h : index ≤ i <;> simp [h, hi]

/-- What is left of a table: some of its slots, in their order. -/
def Remain (c c' : Clients) : Prop :=
  ∃ f : ℕ → ℕ, StrictMono f ∧ ∀ j < c'.count, f j < c.count ∧ c'.slots j = c.slots (f j)

theorem Remain.refl (c : Clients) : c.Remain c := ⟨id, strictMono_id, fun _ hj => ⟨hj, rfl⟩⟩

theorem Remain.trans {c c' c'' : Clients} (h : c.Remain c') (h' : c'.Remain c'') :
    c.Remain c'' := by
  obtain ⟨f, hf, hc⟩ := h
  obtain ⟨g, hg, hc'⟩ := h'
  refine ⟨f ∘ g, hf.comp hg, fun j hj => ?_⟩
  obtain ⟨hlt, hslot⟩ := hc' j hj
  exact ⟨(hc _ hlt).1, hslot.trans (hc _ hlt).2⟩

/-- No two slots have the same connection. -/
def Distinct (c : Clients) : Prop :=
  ∀ i < c.count, ∀ j < c.count, (c.slots i).fd = (c.slots j).fd → i = j

theorem Distinct.remain {c c' : Clients} (h : c.Distinct) (hc : c.Remain c') : c'.Distinct := by
  obtain ⟨f, hf, hslots⟩ := hc
  intro i hi j hj hij
  obtain ⟨hi', hsi⟩ := hslots i hi
  obtain ⟨hj', hsj⟩ := hslots j hj
  exact hf.injective (h _ hi' _ hj' (by rw [← hsi, ← hsj, hij]))

theorem remain_removeClient (c : Clients) (index : ℕ) : c.Remain (c.removeClient index) := by
  refine ⟨fun j => if index ≤ j then j + 1 else j, fun j k hjk => ?_, fun j hj => ?_⟩
  · simp only
    split_ifs <;> omega
  · change j < c.count - 1 at hj
    rw [c.slots_removeClient hj]
    refine ⟨?_, (apply_ite c.slots _ _ _).symm⟩
    simp only
    split_ifs <;> omega

/-- Taking a new client in, if there is room. -/
def accept (c : Clients) (fd : ℕ) : Clients :=
  if c.count < maxClients then
    { count := c.count + 1
      slots := Function.update c.slots c.count
        { c.slots c.count with
          fd := some fd
          subscribed := false
          browserDownload := 0
          headerBytes := 0 } }
  else c

/-- Changing the slot of a connection, if it has one. -/
def modifyFd (c : Clients) (fd : ℕ) (f : Slot → Slot) : Clients :=
  match (List.range c.count).find? fun i => (c.slots i).fd = some fd with
  | none => c
  | some i => c.modify i f

/-- The client asks for the status of every download. -/
def subscribe (c : Clients) (fd : ℕ) : Clients :=
  c.modifyFd fd fun x => { x with subscribed := true }

/-- The client asks for the progress of a download. -/
def watch (c : Clients) (fd id : ℕ) : Clients :=
  c.modifyFd fd fun x => { x with browserDownload := id }

/-- The loop of a broadcast, which removes the clients it is sent to and that do not take
    it. -/
def broadcastFrom (downloadId : ℕ) (fails : Option ℕ → Bool) :
    (fuel i : ℕ) → Clients → Clients
  | 0, _, c => c
  | fuel + 1, i, c =>
    if c.count ≤ i then c
    else if (c.slots i).subscribed = false ∧ (c.slots i).browserDownload ≠ downloadId then
      broadcastFrom downloadId fails fuel (i + 1) c
    -- The next client has moved down to the index.
    else if fails (c.slots i).fd then broadcastFrom downloadId fails fuel i (c.removeClient i)
    else broadcastFrom downloadId fails fuel (i + 1) c

/-- Telling the clients about a download. -/
def ipcBroadcastStatus (c : Clients) (downloadId : ℕ) (fails : Option ℕ → Bool) : Clients :=
  broadcastFrom downloadId fails c.count 0 c

theorem broadcast_induction {P : Clients → Prop} {c : Clients} {downloadId : ℕ}
    {fails : Option ℕ → Bool}
    (hremove : ∀ (c : Clients) (i : ℕ), i < c.count → P c → P (c.removeClient i)) (h : P c) :
    P (c.ipcBroadcastStatus downloadId fails) := by
  suffices ∀ fuel i c, P c → P (broadcastFrom downloadId fails fuel i c) from this _ _ _ h
  intro fuel
  induction fuel with
  | zero => exact fun _ _ h => h
  | succ fuel ih =>
    intro i c h
    rw [broadcastFrom]
    split_ifs with hend hskip hfails
    · exact h
    · exact ih _ _ h
    · exact ih _ _ (hremove c i (not_le.1 hend) h)
    · exact ih _ _ h

theorem remain_ipcBroadcastStatus (c : Clients) (downloadId : ℕ) (fails : Option ℕ → Bool) :
    c.Remain (c.ipcBroadcastStatus downloadId fails) :=
  broadcast_induction (fun _ i _ h => h.trans (remain_removeClient _ i)) (.refl c)

end Clients

end Cdm
