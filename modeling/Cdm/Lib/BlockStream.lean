import Mathlib.Tactic

/-!
# Streams worked in by blocks

A state into which a stream is worked a block of `B` elements at a time. Of a stream that
comes element by element, the last ones wait until a block of them is full (`push`).

* `taken_concat`: whatever has come, the whole blocks of it are worked in and the rest waits, and
  one more element is pushed;
* `absorbed_rest`: what comes after goes behind what waits.
-/

namespace BlockStream

variable {σ α : Type*} (f : σ → List α → σ) (B : ℕ) (s : σ)

/-- The state after the first `n` blocks of a stream. -/
def absorbed (xs : List α) : ℕ → σ
  | 0 => s
  | n + 1 => f (absorbed xs n) ((xs.drop (B * n)).take B)

/-- The state after the whole blocks of a stream, and the rest of it. -/
def taken (xs : List α) : σ × List α :=
  (absorbed f B s xs (xs.length / B), xs.drop (B * (xs.length / B)))

/-- One more element of a stream. -/
def push (p : σ × List α) (x : α) : σ × List α :=
  if p.2.length + 1 = B then (f p.1 (p.2 ++ [x]), []) else (p.1, p.2 ++ [x])

variable {f B s} {xs ys : List α} {x : α} {n : ℕ}

/-- The first blocks do not depend on what comes after them. -/
theorem absorbed_append (h : B * n ≤ xs.length) :
    absorbed f B s (xs ++ ys) n = absorbed f B s xs n := by
  induction n with
  | zero => rfl
  | succ n ih =>
    rw [Nat.mul_succ] at h
    rw [absorbed, absorbed, ih (by omega), List.drop_append_of_le_length (by omega),
      List.take_append_of_le_length (by rw [List.length_drop]; omega)]

/-- Working in more blocks is starting from the state after the first ones. -/
theorem absorbed_add (n k : ℕ) :
    absorbed f B s xs (n + k) = absorbed f B (absorbed f B s xs n) (xs.drop (B * n)) k := by
  induction k with
  | zero => rfl
  | succ k ih => rw [← Nat.add_assoc, absorbed, absorbed, ih, List.drop_drop, Nat.mul_add]

theorem absorbed_one (h : xs.length = B) : absorbed f B s xs 1 = f s xs := by
  rw [absorbed, absorbed, Nat.mul_zero, List.drop_zero, List.take_of_length_le h.le]

/-- A block at the front of a stream is worked in first. -/
theorem absorbed_block (h : xs.length = B) (n : ℕ) :
    absorbed f B s (xs ++ ys) (n + 1) = absorbed f B (f s xs) ys n := by
  rw [Nat.add_comm, absorbed_add, absorbed_append (by omega), absorbed_one h, ← h, Nat.mul_one,
    List.drop_left]

theorem length_taken (hB : 0 < B) (xs : List α) : (taken f B s xs).2.length < B := by
  have hmod := Nat.mod_lt xs.length hB
  have hdiv := Nat.div_add_mod xs.length B
  rw [taken, List.length_drop]
  omega

/-- What is taken of a stream with one more element. -/
theorem taken_concat (hB : 0 < B) (xs : List α) (x : α) :
    taken f B s (xs ++ [x]) = push f B (taken f B s xs) x := by
  have hdiv := Nat.div_add_mod xs.length B
  have hmod := Nat.mod_lt xs.length hB
  have hlen : (taken f B s xs).2.length = xs.length % B := by
    rw [taken, List.length_drop]
    omega
  have hdrop : (xs ++ [x]).drop (B * (xs.length / B)) = (taken f B s xs).2 ++ [x] :=
    List.drop_append_of_le_length (Nat.mul_div_le _ _)
  rw [push, hlen]
  by_cases hfull : xs.length % B + 1 = B
  · -- The element fills a block, which is worked in.
    rw [if_pos hfull]
    have hall : (xs ++ [x]).length = B * (xs.length / B + 1) := by
      rw [List.length_append, List.length_singleton, Nat.mul_succ]
      omega
    rw [taken, hall, Nat.mul_div_cancel_left _ hB, absorbed, hdrop,
      absorbed_append (Nat.mul_div_le _ _), ← hall, List.drop_length, List.take_of_length_le]
    · rfl
    · rw [List.length_append, hlen, List.length_singleton, hfull]
  · -- There are as many blocks as before.
    rw [if_neg hfull]
    have hsame : (xs ++ [x]).length / B = xs.length / B := by
      rw [List.length_append, List.length_singleton]
      refine Nat.div_eq_of_lt_le ?_ ?_
      · rw [Nat.mul_comm]
        omega
      · rw [Nat.add_one_mul, Nat.mul_comm]
        omega
    rw [taken, hsame, hdrop, absorbed_append (Nat.mul_div_le _ _)]
    rfl

/-- The blocks of what comes after begin with what waits. -/
theorem absorbed_rest (xs ys : List α) (k : ℕ) :
    absorbed f B s (xs ++ ys) (xs.length / B + k) =
      absorbed f B (taken f B s xs).1 ((taken f B s xs).2 ++ ys) k := by
  have hle := Nat.mul_div_le xs.length B
  rw [absorbed_add, absorbed_append hle, List.drop_append_of_le_length hle, taken]

end BlockStream
