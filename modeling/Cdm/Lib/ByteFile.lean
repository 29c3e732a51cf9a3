import Mathlib.Tactic

/-!
# Files as byte sequences

A file is a length and the bytes below it; reading past what was written gives
zeros, as in a sparse file. Against a fixed sequence of bytes `R`, a file *agrees*
on an interval of offsets (`File.Agrees`) where it holds the bytes of `R`: writing
bytes of `R` at their own offsets never loses agreement (`File.Agrees.pwrite`).
-/

/-- A buffer handed to a write: its length, and its bytes. -/
structure Buf where
  size : ℕ
  byte : ℕ → UInt8

/-- A regular file: its length, and its bytes, zero where nothing was written. -/
structure File where
  size : ℕ
  byte : ℕ → UInt8

namespace File

/-- A file just created. -/
def empty : File := ⟨0, fun _ => 0⟩

/-- Giving a file the length `n`, if it was shorter. -/
def extend (f : File) (n : ℕ) : File := { f with size := max f.size n }

/-- Writing a buffer at an offset. -/
def pwrite (f : File) (off : ℕ) (b : Buf) : File :=
  if b.size = 0 then f else
    ⟨max f.size (off + b.size),
      fun o => if off ≤ o ∧ o < off + b.size then b.byte (o - off) else f.byte o⟩

variable {f : File} {R : ℕ → UInt8} {off lo hi : ℕ} {b : Buf}

/-- The file holds the bytes of `R` on the offsets `[lo, hi)`. -/
def Agrees (R : ℕ → UInt8) (f : File) (lo hi : ℕ) : Prop :=
  ∀ o, lo ≤ o → o < hi → f.byte o = R o

theorem pwrite_byte_of_mem {o : ℕ} (h₁ : off ≤ o) (h₂ : o < off + b.size) :
    (f.pwrite off b).byte o = b.byte (o - off) := by
  have hb : b.size ≠ 0 := by omega
  simp [pwrite, hb, h₁, h₂]

theorem pwrite_byte_of_not_mem {o : ℕ} (h : o < off ∨ off + b.size ≤ o) :
    (f.pwrite off b).byte o = f.byte o := by
  rw [pwrite]
  split_ifs with hb
  · rfl
  · have : ¬(off ≤ o ∧ o < off + b.size) := by omega
    simp [this]

/-- A write that stays below the length of the file keeps it. -/
theorem pwrite_size (h : off + b.size ≤ f.size) : (f.pwrite off b).size = f.size := by
  rw [pwrite]
  split_ifs
  · rfl
  · exact max_eq_left h

/-- A byte the file holds right stays right under a write of bytes of `R` at their
    own offsets. -/
theorem pwrite_byte_eq {o : ℕ} (hb : ∀ k < b.size, b.byte k = R (off + k))
    (h : f.byte o = R o) : (f.pwrite off b).byte o = R o := by
  by_cases ho : off ≤ o ∧ o < off + b.size
  · rw [pwrite_byte_of_mem ho.1 ho.2, hb _ (by omega)]
    congr 1
    omega
  · rw [pwrite_byte_of_not_mem (by omega), h]

/-- Agreement is kept by a write of bytes of `R` at their own offsets. -/
theorem Agrees.pwrite (h : f.Agrees R lo hi) (hb : ∀ k < b.size, b.byte k = R (off + k)) :
    (f.pwrite off b).Agrees R lo hi :=
  fun o h₁ h₂ => pwrite_byte_eq hb (h o h₁ h₂)

/-- Such a write moreover extends an agreement that reaches its offset. -/
theorem Agrees.pwrite_append (h : f.Agrees R lo off) (hb : ∀ k < b.size, b.byte k = R (off + k)) :
    (f.pwrite off b).Agrees R lo (off + b.size) := by
  intro o h₁ h₂
  by_cases ho : off ≤ o
  · rw [pwrite_byte_of_mem ho h₂, hb _ (by omega)]
    congr 1
    omega
  · exact h.pwrite hb o h₁ (by omega)

theorem Agrees.mono {lo' hi' : ℕ} (h : f.Agrees R lo hi) (h₁ : lo ≤ lo') (h₂ : hi' ≤ hi) :
    f.Agrees R lo' hi' :=
  fun o ho₁ ho₂ => h o (h₁.trans ho₁) (ho₂.trans_le h₂)

theorem agrees_empty (h : hi ≤ lo) : f.Agrees R lo hi :=
  fun o h₁ h₂ => absurd h₂ (by omega)

end File
