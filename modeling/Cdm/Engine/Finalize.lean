import Cdm.Engine.Runner
import Cdm.Platform.Sha256

/-!
# The verification of a finished file

`engine/finalize.c`: the size of the file is compared with the one that was expected, if one
was, and the digits of its digest with those that were, in any letter case.

* `engineFinalize_exact`: nothing else is compared, and the file is read whole however `fread`
  cuts it;
* `engineFinalize_ok_iff`: the engine's own account of it.
-/

namespace Cdm.Finalize

open Sha256

/-- What the calls on the path of the destination come to. -/
structure Destination where
  /-- The size that `stat` gives, if it does not fail. -/
  stat : Option UInt64
  opens : Bool
  /-- What `fread` gives, one call after another, and then nothing. -/
  freads : List (List UInt8)
  ferror : Bool

/-- The local variables of `compute_sha256_hex`, as they are found. -/
structure Locals where
  ctx : Sha256Ctx
  digest : Vector UInt8 32

def hashReadBufSize : ℕ := 65536

/-! ## The functions -/

def fileGetSize (dest : Destination) : UInt64 := dest.stat.getD 0

def lowered (c : Char) : Char :=
  if 'A' ≤ c ∧ c ≤ 'Z' then Char.ofNat (c.toNat - 'A'.toNat + 'a'.toNat) else c

def hexEqualsCi : CString → CString → Bool
  | a :: as, b :: bs => if lowered a ≠ lowered b then false else hexEqualsCi as bs
  | as, bs => as = [] && bs = []

/-- The loop of `compute_sha256_hex`. -/
def readAll (ctx : Sha256Ctx) : List (List UInt8) → Sha256Ctx
  | [] => ctx
  | buf :: freads => if 0 < buf.length then readAll (sha256Update ctx buf) freads else ctx

/-- The digits, if the file is read. -/
def computeSha256Hex (l : Locals) (dest : Destination) : Option CString :=
  if ¬ dest.opens then none
  else
    let ctx := readAll (sha256Init l.ctx) dest.freads
    if dest.ferror then none else some (sha256ToHex (sha256Final ctx l.digest).2)

def engineFinalize (l : Locals) (dest : Destination) (expectedSize : UInt64)
    (expectedSha256Hex : Option CString) : ℤ :=
  if expectedSize ≠ 0 ∧ fileGetSize dest ≠ expectedSize then -1
  else
    match expectedSha256Hex with
    | none => 0
    | some expected =>
      if expected = [] then 0
      else
        match computeSha256Hex l dest with
        | none => -1
        | some actual => if hexEqualsCi actual expected then 0 else -1

/-! ## What is read and compared -/

/-- A file of this content is at the path and is read, cut into parts in whatever way. -/
structure Reads (dest : Destination) (content : List UInt8) : Prop where
  stat : dest.stat = some (UInt64.ofNat content.length)
  opens : dest.opens = true
  whole : dest.freads.flatten = content
  parts : ∀ buf ∈ dest.freads, 0 < buf.length ∧ buf.length ≤ hashReadBufSize
  ferror : dest.ferror = false

/-- The same letters and digits, up to the case of the letters. -/
def SameUpToCase (a b : CString) : Prop := a.map Char.toLower = b.map Char.toLower

variable {dest : Destination} {content : List UInt8} {l : Locals}

theorem lowered_eq (c : Char) : lowered c = c.toLower := by
  delta lowered Char.toLower
  by_cases h : c.val ≥ 'A'.val ∧ c.val ≤ 'Z'.val
  · -- The character that the lower case is has the number that is computed.
    have hlower := UInt32.le_iff_toNat_le.1 h.1
    have hupper := UInt32.le_iff_toNat_le.1 h.2
    simp only [Char.reduceVal, UInt32.reduceToNat] at hlower hupper
    have hval : c.toNat - 'A'.toNat + 'a'.toNat = (c.val + ('a'.val - 'A'.val)).toNat := by
      simp only [UInt32.toNat_add, UInt32.toNat_sub, Char.reduceVal, UInt32.reduceToNat,
        Char.toNat]
      omega
    rw [dif_pos h, if_pos (show 'A' ≤ c ∧ c ≤ 'Z' from h), hval]
    exact Char.ofNat_toNat ⟨c.val + ('a'.val - 'A'.val), _⟩
  · rw [dif_neg h, if_neg (show ¬('A' ≤ c ∧ c ≤ 'Z') from h)]

theorem hexEqualsCi_iff (a b : CString) : hexEqualsCi a b = true ↔ SameUpToCase a b := by
  induction a generalizing b with
  | nil => cases b <;> simp [hexEqualsCi, SameUpToCase]
  | cons c a ih =>
    cases b with
    | nil => simp [hexEqualsCi, SameUpToCase]
    | cons d b =>
      have hrest := ih b
      simp only [hexEqualsCi, SameUpToCase, lowered_eq, List.map_cons, List.cons.injEq] at hrest ⊢
      split_ifs with h <;> simp_all

/-- No part is empty before the file was read to its end. -/
theorem readAll_eq (ctx : Sha256Ctx) (parts : List (List UInt8)) (h : ∀ buf ∈ parts, 0 < buf.length) :
    readAll ctx parts = parts.foldl sha256Update ctx := by
  induction parts generalizing ctx with
  | nil => rfl
  | cons buf parts ih =>
    rw [readAll, if_pos (h buf List.mem_cons_self), List.foldl_cons]
    exact ih _ fun b hb => h b (List.mem_cons_of_mem _ hb)

theorem computeSha256Hex_eq (h : Reads dest content) :
    computeSha256Hex l dest =
      some (Fips180.hexForm (Fips180.digest (Fips180.ofBytes content))) := by
  have hread := readAll_eq (sha256Init l.ctx) dest.freads fun buf hbuf => (h.parts buf hbuf).1
  rw [computeSha256Hex, if_neg (by simp [h.opens])]
  dsimp only
  rw [if_neg (by simp [h.ferror]), hread, sha256ToHex_eq, sha256_spec, h.whole]

/-- The verification is exact: of the size if one is expected, and of the digest of the whole
    content, in whatever parts it is read. -/
theorem engineFinalize_exact (content : List UInt8) (hlen : content.length < 2 ^ 61) :
    (∀ (ctx : Sha256Ctx) (hash : Vector UInt8 32) (parts : List (List UInt8)),
        parts.flatten = content →
          Fips180.ofBytes
              (sha256Final (parts.foldl sha256Update (sha256Init ctx)) hash).2.toList =
            Fips180.digest (Fips180.ofBytes content)) ∧
      (Fips180.hexForm (Fips180.digest (Fips180.ofBytes content))).length = 64 ∧
      ∀ (l : Locals) (dest : Destination) (expectedSize : UInt64) (expected : CString),
        Reads dest content → expected ≠ [] →
          (engineFinalize l dest expectedSize (some expected) = 0 ↔
            (expectedSize = 0 ∨ expectedSize.toNat = content.length) ∧
              SameUpToCase expected
                (Fips180.hexForm (Fips180.digest (Fips180.ofBytes content)))) := by
  refine ⟨fun ctx hash parts hparts => ?_, Fips180.length_hexForm_digest _,
    fun l dest expectedSize expected hreads hne => ?_⟩
  · rw [sha256_spec, hparts]
  · have hsize : fileGetSize dest = expectedSize ↔ expectedSize.toNat = content.length := by
      rw [fileGetSize, hreads.stat, Option.getD_some, ← UInt64.toNat_inj,
        UInt64.toNat_ofNat_of_lt' (hlen.trans (by decide)), eq_comm]
    have hsame : hexEqualsCi (Fips180.hexForm (Fips180.digest (Fips180.ofBytes content)))
        expected = true ↔ SameUpToCase expected
          (Fips180.hexForm (Fips180.digest (Fips180.ofBytes content))) := by
      rw [hexEqualsCi_iff, SameUpToCase, eq_comm]
      rfl
    rw [engineFinalize, computeSha256Hex_eq hreads]
    dsimp only
    rw [if_neg hne, ← hsize, ← hsame]
    by_cases hskip : expectedSize = 0
    · simp [hskip]
    · by_cases heq : fileGetSize dest = expectedSize
      · simp [hskip, heq]
      · simp [hskip, heq]

theorem engineFinalize_exact_abc :
    SameUpToCase "BA7816BF8F01CFEA414140DE5DAE2223B00361A396177A9CB410FF61F20015AD".toList
      (Fips180.hexForm (Fips180.digest (Fips180.ofBytes [97, 98, 99]))) := by
  have hrun : engineFinalize
      ⟨⟨Vector.replicate 64 0, 0, 0, Vector.replicate 8 0⟩, Vector.replicate 32 0⟩
      ⟨some 3, true, [[97], [98, 99]], false⟩ 3
      (some "BA7816BF8F01CFEA414140DE5DAE2223B00361A396177A9CB410FF61F20015AD".toList) = 0 := by
    decide +kernel
  exact (((engineFinalize_exact [97, 98, 99] (by decide)).2.2 _ _ _ _
    ⟨rfl, rfl, rfl, by decide, rfl⟩ (by decide)).1 hrun).2

/-! ## The engine's account -/

/-- The bytes of a file, from the first to the last. -/
def contents (f : File) : List UInt8 := (List.range f.size).map f.byte

/-- The last step of a download is this verification of the file at its destination. -/
theorem engineFinalize_ok_iff {w : World} {f : File} (hfile : w.disk.file = some f)
    (hlen : f.size < 2 ^ 61) (hreads : Reads dest (contents f)) (expectedSize : UInt64) :
    Cdm.engineFinalize w expectedSize.toNat
        ((computeSha256Hex l dest).any (hexEqualsCi · w.d.expectedSha256)) = true ↔
      engineFinalize l dest expectedSize (some w.d.expectedSha256) = 0 := by
  have hlength : (contents f).length = f.size := by simp [contents]
  have hsize : fileGetSize dest = expectedSize ↔ Cdm.fileGetSize w.disk.file = expectedSize.toNat := by
    rw [fileGetSize, hreads.stat, Option.getD_some, ← UInt64.toNat_inj, hlength,
      UInt64.toNat_ofNat_of_lt' (hlen.trans (by decide)), hfile]
    rfl
  have hzero : expectedSize.toNat = 0 ↔ expectedSize = 0 := by
    rw [← UInt64.toNat_inj]
    rfl
  rw [Cdm.engineFinalize, engineFinalize, computeSha256Hex_eq hreads]
  dsimp only
  simp only [Option.any_some, Bool.and_eq_true, Bool.or_eq_true, decide_eq_true_eq, hzero, ← hsize]
  by_cases hskip : expectedSize = 0 ∨ fileGetSize dest = expectedSize
  · rw [if_neg (by tauto)]
    by_cases hnone : w.d.expectedSha256 = []
    · simp [hnone, hskip]
    · simp [hnone, hskip]
  · rw [if_pos (by tauto)]
    simp [hskip]

end Cdm.Finalize
