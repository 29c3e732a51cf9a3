import Mathlib.Tactic

/-!
# Ring buffers

A queue of at most `cap` elements in as many slots, used in turn. Its *contents* are the
elements from the head on, around the end of the slots. An element that is taken stays in its
slot until the slot is used again.

* `contents_push`, `contents_pop`: the buffer is a queue;
* `tail_ne`: the slot of the element taken last is used again by a buffer that is one element
  short of full only;
* `DropOldest`: a queue that drops its first element to take another one when it is full. What
  it holds are the elements that were added last (`DropOldest.exists_gone`).
-/

structure RingBuffer (α : Type*) (cap : ℕ) where
  slots : ℕ → α
  head : ℕ
  tail : ℕ
  count : ℕ
  head_lt : head < cap
  count_le : count ≤ cap
  tail_eq : tail = (head + count) % cap

namespace RingBuffer

variable {α : Type*} {cap : ℕ} {r : RingBuffer α cap} {x : α}

/-- An empty buffer, with something in its slots. -/
def empty (x : α) (h : 0 < cap) : RingBuffer α cap :=
  ⟨fun _ => x, 0, 0, 0, h, Nat.zero_le _, by simp⟩

/-- The slot of the `i`-th element. -/
def index (r : RingBuffer α cap) (i : ℕ) : ℕ := (r.head + i) % cap

def contents (r : RingBuffer α cap) : List α := (List.range r.count).map fun i => r.slots (r.index i)

/-- Adding an element at the end. -/
def push (r : RingBuffer α cap) (x : α) (h : r.count < cap) : RingBuffer α cap where
  slots := Function.update r.slots r.tail x
  head := r.head
  tail := (r.tail + 1) % cap
  count := r.count + 1
  head_lt := r.head_lt
  count_le := h
  tail_eq := by rw [r.tail_eq, Nat.mod_add_mod, Nat.add_assoc]

/-- Taking the first element, which is left in its slot. -/
def pop (r : RingBuffer α cap) (h : 0 < r.count) : RingBuffer α cap where
  slots := r.slots
  head := (r.head + 1) % cap
  tail := r.tail
  count := r.count - 1
  head_lt := Nat.mod_lt _ ((Nat.zero_le _).trans_lt r.head_lt)
  count_le := (Nat.sub_le _ _).trans r.count_le
  tail_eq := by rw [r.tail_eq, Nat.mod_add_mod, Nat.add_assoc, Nat.add_sub_cancel' h]

/-- The first element. -/
def front (r : RingBuffer α cap) : α := r.slots r.head

@[simp] theorem length_contents : r.contents.length = r.count := by simp [contents]

@[simp] theorem contents_empty (h : 0 < cap) : (empty x h).contents = [] := rfl

theorem slots_push_tail (h : r.count < cap) : (r.push x h).slots r.tail = x :=
  Function.update_self _ _ _

theorem slots_push_of_ne {k : ℕ} (hk : k ≠ r.tail) (h : r.count < cap) :
    (r.push x h).slots k = r.slots k :=
  Function.update_of_ne hk _ _

/-- The slots of different elements are different, and none is the next one to be used. -/
theorem index_injOn {i j : ℕ} (hi : i < cap) (hj : j < cap) (h : r.index i = r.index j) : i = j := by
  have hmod : i % cap = j % cap := Nat.ModEq.add_left_cancel' r.head h
  rwa [Nat.mod_eq_of_lt hi, Nat.mod_eq_of_lt hj] at hmod

theorem contents_push (h : r.count < cap) : (r.push x h).contents = r.contents ++ [x] := by
  have htail : r.index r.count = r.tail := r.tail_eq.symm
  have hslots (i : ℕ) : (r.push x h).slots ((r.push x h).index i) =
      Function.update r.slots r.tail x (r.index i) := rfl
  have hcount : (r.push x h).count = r.count + 1 := rfl
  rw [contents, hcount, List.range_succ, List.map_append, List.map_singleton]
  simp only [hslots]
  refine congrArg₂ _ (List.map_congr_left fun i hi => ?_) ?_
  · -- The slot used was free.
    have hlt : i < r.count := List.mem_range.1 hi
    refine Function.update_of_ne (fun heq => ?_) _ _
    exact hlt.ne (index_injOn (hlt.trans h) h (heq.trans htail.symm))
  · rw [htail, Function.update_self]

theorem contents_pop (h : 0 < r.count) : r.contents = r.front :: (r.pop h).contents := by
  obtain ⟨n, hn⟩ : ∃ n, r.count = n + 1 := ⟨r.count - 1, (Nat.succ_pred_eq_of_pos h).symm⟩
  have hfirst : r.index 0 = r.head := Nat.mod_eq_of_lt r.head_lt
  have hnext (i : ℕ) : r.index (i + 1) = (r.pop h).index i := by
    rw [index, index, pop, Nat.mod_add_mod, Nat.add_assoc, Nat.add_comm 1 i]
  have hcount : (r.pop h).count = n := by
    show r.count - 1 = n
    rw [hn, Nat.add_sub_cancel]
  rw [contents, contents, hn, List.range_succ_eq_map, List.map_cons, List.map_map, hfirst, hcount]
  exact congrArg (r.front :: ·) (List.map_congr_left fun i _ => congrArg r.slots (hnext i))

/-- The slot before the head, that of the element taken last, is not the next one to be used,
    unless the buffer is one element short of full. -/
theorem tail_ne {k : ℕ} (hk : k < cap) (hhead : (k + 1) % cap = r.head)
    (hcount : r.count + 1 < cap) : r.tail ≠ k := by
  intro htail
  rw [r.tail_eq, ← hhead, Nat.mod_add_mod] at htail
  have hmod : k + (1 + r.count) ≡ k + 0 [MOD cap] := by
    rw [← Nat.add_assoc, Nat.add_zero]
    exact htail.trans (Nat.mod_eq_of_lt hk).symm
  have hzero : (1 + r.count) % cap = 0 % cap := Nat.ModEq.add_left_cancel' k hmod
  rw [Nat.mod_eq_of_lt (by omega), Nat.zero_mod] at hzero
  omega

/-- It is, if the buffer is one element short of full. -/
theorem tail_eq_of_head {k : ℕ} (hk : k < cap) (hhead : (k + 1) % cap = r.head)
    (hcount : r.count + 1 = cap) : r.tail = k := by
  have hsum : k + 1 + r.count = k + cap := by omega
  rw [r.tail_eq, ← hhead, Nat.mod_add_mod, hsum, Nat.add_mod_right, Nat.mod_eq_of_lt hk]

end RingBuffer

/-! ## Queues that drop their first element -/

namespace DropOldest

variable {α : Type*} {cap : ℕ}

/-- Adding an element to a queue of at most `cap`, if need be in place of the first one. -/
def push (cap : ℕ) (l : List α) (x : α) : List α :=
  (if l.length < cap then l else l.tail) ++ [x]

inductive Call (α : Type*)
  | push (x : α)
  | poll

/-- The queue after some calls. -/
def after (cap : ℕ) : List α → List (Call α) → List α
  | l, [] => l
  | l, .push x :: calls => after cap (push cap l x) calls
  | l, .poll :: calls => after cap l.tail calls

/-- What the polls among some calls return. -/
def polls (cap : ℕ) : List α → List (Call α) → List (Option α)
  | _, [] => []
  | l, .push x :: calls => polls cap (push cap l x) calls
  | l, .poll :: calls => l.head? :: polls cap l.tail calls

/-- The elements that some calls add. -/
def pushed : List (Call α) → List α
  | [] => []
  | .push x :: calls => x :: pushed calls
  | .poll :: calls => pushed calls

theorem length_push_le (hcap : 0 < cap) {l : List α} (hl : l.length ≤ cap) (x : α) :
    (push cap l x).length ≤ cap := by
  rw [push, List.length_append, List.length_singleton]
  split_ifs with hfull
  · exact hfull
  · rw [List.length_tail]
    omega

theorem length_after_le (hcap : 0 < cap) {l : List α} (hl : l.length ≤ cap)
    (calls : List (Call α)) : (after cap l calls).length ≤ cap := by
  induction calls generalizing l with
  | nil => exact hl
  | cons call calls ih =>
    cases call with
    | push x => exact ih (length_push_le hcap hl x)
    | poll => exact ih (by rw [List.length_tail]; omega)

/-- What was added is gone or is still there, in its order, and what the polls returned is some
    of what is gone. -/
theorem exists_gone (cap : ℕ) (l : List α) (calls : List (Call α)) :
    ∃ gone, l ++ pushed calls = gone ++ after cap l calls ∧
      (polls cap l calls).reduceOption.Sublist gone := by
  induction calls generalizing l with
  | nil => exact ⟨[], List.append_nil l, List.Sublist.refl []⟩
  | cons call calls ih =>
    cases call with
    | push x =>
      obtain ⟨gone, hgone, hpolls⟩ := ih (push cap l x)
      rw [push] at hgone
      split_ifs at hgone with hfull
      · rw [List.append_assoc, List.singleton_append] at hgone
        refine ⟨gone, ?_, hpolls⟩
        rw [after, push, if_pos hfull]
        exact hgone
      · -- The first element is gone without having been returned.
        refine ⟨l.take 1 ++ gone, ?_, hpolls.trans (List.sublist_append_right _ gone)⟩
        rw [List.append_assoc, after, push, if_neg hfull, ← hgone, ← List.drop_one,
          List.append_assoc, ← List.append_assoc, List.take_append_drop]
        rfl
    | poll =>
      obtain ⟨gone, hgone, hpolls⟩ := ih l.tail
      cases l with
      | nil => exact ⟨gone, hgone, hpolls⟩
      | cons y l => exact ⟨y :: gone, congrArg (y :: ·) hgone, hpolls.cons_cons y⟩

end DropOldest
