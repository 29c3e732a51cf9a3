import Cdm.Core.Download

/-!
# Planning the ranges of a file

`engine/segmenter.c`: a file is divided into equal ranges, the last of which takes
the remainder, computed in the 64-bit arithmetic of the source.
-/

namespace Cdm

/-- The worker threads of a download (`MAX_WORKERS`). -/
def maxWorkers : ℕ := 8

/-- A range to fetch, both ends included. The bytes below `start + resumeOffset`
    are already there. -/
structure Range where
  start : ℕ
  /-- The last byte of the range (`end`). -/
  last : ℕ
  resumeOffset : ℕ
  wholeFile : Bool
  deriving DecidableEq

/-- The offset a range is fetched from. -/
def Range.offset (r : Range) : ℕ := r.start + r.resumeOffset

/-- The range of the worker `i` of `n`, each but the last of `chunk` bytes. -/
def segment (totalSize chunk : UInt64) (n i : ℕ) : Range where
  start := (UInt64.ofNat i * chunk).toNat
  last :=
    if i = n - 1 then (totalSize - 1).toNat else (UInt64.ofNat (i + 1) * chunk - 1).toNat
  resumeOffset := 0
  wholeFile := false

/-- The plan of a file of `totalSize` bytes for `nWorkers` workers. -/
def segmenterPlan (totalSize : UInt64) (nWorkers : ℕ) : List Range :=
  if totalSize = 0 ∨ nWorkers = 0 then [] else
    -- No more workers than bytes: no range is empty.
    let n := if totalSize.toNat < nWorkers then totalSize.toNat else nWorkers
    (List.range n).map (segment totalSize (totalSize / UInt64.ofNat n) n)

/-- The number of workers for a file of `totalSize` bytes, `0` if unknown. -/
def chooseWorkerCount (totalSize : ℕ) : ℕ :=
  if totalSize = 0 then 1
  else if totalSize < 1024 * 1024 then 1
  else if totalSize < 20 * (1024 * 1024) then 4
  else 8

/-! ## The ranges of a plan -/

/-- The number of bytes of a range. -/
def Range.size (r : Range) : ℕ := r.last + 1 - r.start

/-- The arithmetic of a plan of `k` ranges does not wrap. -/
structure Unwrapped (totalSize chunk : UInt64) (k : ℕ) : Prop where
  start : ∀ i ≤ k, (UInt64.ofNat i * chunk).toNat = i * chunk.toNat
  last : ∀ i < k, (UInt64.ofNat (i + 1) * chunk - 1).toNat + 1 = (i + 1) * chunk.toNat
  size : (totalSize - 1).toNat + 1 = totalSize.toNat

/-- Ranges from the first byte of a file to its last, each beginning where the one before it
    ends, and all but the last of the same length. -/
structure EndToEnd (totalSize k : ℕ) (ranges : List Range) : Prop where
  length : ranges.length = k
  fresh : ∀ r ∈ ranges, r.start ≤ r.last ∧ r.resumeOffset = 0 ∧ r.wholeFile = false
  first : ranges.head?.map Range.start = some 0
  next : ranges.IsChain fun r r' => r'.start = r.last + 1
  last : ranges.getLast?.map Range.last = some (totalSize - 1)
  even : ∃ chunk, (∀ r ∈ ranges.dropLast, r.size = chunk) ∧
    ∀ r ∈ ranges.getLast?, chunk ≤ r.size ∧ r.size < chunk + k

theorem UInt64.toNat_sub_one {x : UInt64} (hx : 0 < x.toNat) : (x - 1).toNat + 1 = x.toNat := by
  have : (1 : UInt64) ≤ x := UInt64.le_iff_toNat_le.2 hx
  rw [UInt64.toNat_sub_of_le _ _ this, UInt64.toNat_one]
  exact Nat.sub_add_cancel hx

/-- Nothing exceeds the size of the file. -/
theorem unwrapped {totalSize : UInt64} {k : ℕ} (hk : 0 < k) (hle : k ≤ totalSize.toNat) :
    (totalSize / UInt64.ofNat k).toNat = totalSize.toNat / k ∧
      Unwrapped totalSize (totalSize / UInt64.ofNat k) k := by
  have hlt := totalSize.toNat_lt
  have hofNat {i : ℕ} (hi : i ≤ k) : (UInt64.ofNat i).toNat = i := by
    rw [UInt64.toNat_ofNat']
    exact Nat.mod_eq_of_lt (by omega)
  have hchunk : (totalSize / UInt64.ofNat k).toNat = totalSize.toNat / k := by
    rw [UInt64.toNat_div, hofNat le_rfl]
  have hall : k * (totalSize.toNat / k) ≤ totalSize.toNat := Nat.mul_div_le _ _
  have hmul : ∀ i ≤ k, (UInt64.ofNat i * (totalSize / UInt64.ofNat k)).toNat =
      i * (totalSize / UInt64.ofNat k).toNat := fun i hi => by
    have hpart : i * (totalSize.toNat / k) ≤ k * (totalSize.toNat / k) := Nat.mul_le_mul_right _ hi
    rw [UInt64.toNat_mul, hofNat hi, hchunk]
    exact Nat.mod_eq_of_lt (by omega)
  refine ⟨hchunk, hmul, fun i hi => ?_, UInt64.toNat_sub_one (hk.trans_le hle)⟩
  rw [← hmul (i + 1) hi]
  refine UInt64.toNat_sub_one ?_
  rw [hmul (i + 1) hi, hchunk]
  exact Nat.mul_pos (Nat.succ_pos i) (Nat.div_pos hle hk)

/-- The ranges of a plan, in natural numbers. -/
theorem segmenterPlan_eq_map {totalSize : UInt64} {n : ℕ} (hT : 0 < totalSize.toNat) (hn : 0 < n) :
    segmenterPlan totalSize n = (List.range (min n totalSize.toNat)).map fun i =>
      ⟨i * (totalSize.toNat / min n totalSize.toNat),
        if i + 1 = min n totalSize.toNat then totalSize.toNat - 1
        else (i + 1) * (totalSize.toNat / min n totalSize.toNat) - 1, 0, false⟩ := by
  have hmin : (if totalSize.toNat < n then totalSize.toNat else n) = min n totalSize.toNat := by
    split_ifs <;> omega
  obtain ⟨hchunk, hunwrapped⟩ := unwrapped (lt_min hn hT) (min_le_right n totalSize.toNat)
  have hne : ¬(totalSize = 0 ∨ n = 0) := by
    rintro (rfl | rfl)
    · exact absurd hT (by decide)
    · exact absurd hn (by decide)
  rw [segmenterPlan, if_neg hne]
  simp only [hmin]
  refine List.map_congr_left fun i hi => ?_
  have hi : i < min n totalSize.toNat := List.mem_range.1 hi
  have hlast := hunwrapped.last i hi
  have hsize := hunwrapped.size
  rw [segment, hunwrapped.start i hi.le, hchunk]
  rw [hchunk] at hlast
  congr 1
  split_ifs <;> omega

/-- The ranges of a plan, without the wrapping of the arithmetic: nothing exceeds the
    size of the file. -/
theorem segmenterPlan_eq {totalSize : UInt64} {n : ℕ} (hT : 0 < totalSize.toNat) (hn : 0 < n) :
    ∃ m chunk, 0 < m ∧ m ≤ n ∧ 0 < chunk ∧ m * chunk ≤ totalSize.toNat ∧
      segmenterPlan totalSize n = (List.range m).map fun i =>
        ⟨i * chunk, if i + 1 = m then totalSize.toNat - 1 else (i + 1) * chunk - 1, 0, false⟩ :=
  ⟨_, _, lt_min hn hT, min_le_left _ _, Nat.div_pos (min_le_right _ _) (lt_min hn hT),
    Nat.mul_div_le _ _, segmenterPlan_eq_map hT hn⟩

/-- The ranges of a plan lie end to end, in a file of any size. -/
theorem endToEnd_segmenterPlan {totalSize : UInt64} {n : ℕ} (hT : 0 < totalSize.toNat)
    (hn : 0 < n) :
    EndToEnd totalSize.toNat (min n totalSize.toNat) (segmenterPlan totalSize n) := by
  rw [segmenterPlan_eq_map hT hn]
  have hk : 0 < min n totalSize.toNat := lt_min hn hT
  have hle : min n totalSize.toNat ≤ totalSize.toNat := min_le_right _ _
  generalize min n totalSize.toNat = k at hk hle
  generalize totalSize.toNat = size at hle
  -- All ranges but the last have `chunk` bytes, the last one `rest` more.
  obtain ⟨m, rfl⟩ : ∃ m, k = m + 1 := ⟨k - 1, (Nat.succ_pred_eq_of_pos hk).symm⟩
  have hchunk : 0 < size / (m + 1) := Nat.div_pos hle hk
  have hdiv := Nat.div_add_mod size (m + 1)
  have hmod := Nat.mod_lt size hk
  generalize size % (m + 1) = rest at hdiv hmod
  generalize size / (m + 1) = chunk at hchunk hdiv
  have hsucc : ∀ i, (i + 1) * chunk = i * chunk + chunk := fun i => Nat.succ_mul i chunk
  have hbelow : ∀ i ≤ m, i * chunk ≤ m * chunk := fun i hi => Nat.mul_le_mul_right chunk hi
  have htotal := hsucc m
  constructor
  · simp
  · simp only [List.mem_map, List.mem_range]
    rintro - ⟨i, hi, rfl⟩
    have hstart := hbelow i (by omega)
    have hend := hsucc i
    refine ⟨?_, rfl, rfl⟩
    dsimp only
    split_ifs <;> omega
  · simp [List.range_succ_eq_map]
  · -- A range that another one follows is not the last.
    rw [List.isChain_iff_getElem]
    intro i hi
    simp only [List.length_map, List.length_range] at hi
    have hend := hsucc i
    simp only [List.getElem_map, List.getElem_range]
    rw [if_neg (by omega)]
    omega
  · simp [List.range_succ]
  · refine ⟨chunk, ?_, ?_⟩
    · simp only [List.range_succ, List.map_append, List.map_singleton, List.dropLast_concat,
        List.mem_map, List.mem_range]
      rintro - ⟨i, hi, rfl⟩
      have hend := hsucc i
      rw [Range.size]
      dsimp only
      rw [if_neg (by omega)]
      omega
    · -- The last range is longer by the remainder.
      simp only [List.range_succ, List.map_append, List.map_singleton, List.getLast?_concat,
        Option.mem_def, Option.some.injEq]
      rintro - rfl
      rw [Range.size]
      simp only [if_true]
      omega

/-- A file of any size is divided into as many ranges as there are workers, or bytes. -/
theorem segmenterPlan_exact {totalSize : UInt64} {nWorkers : ℕ} (hT : totalSize ≠ 0)
    (hn : 0 < nWorkers) :
    EndToEnd totalSize.toNat (min nWorkers totalSize.toNat) (segmenterPlan totalSize nWorkers) ∧
      Unwrapped totalSize (totalSize / UInt64.ofNat (min nWorkers totalSize.toNat))
        (min nWorkers totalSize.toNat) := by
  have hpos : 0 < totalSize.toNat :=
    Nat.pos_of_ne_zero fun h => hT (UInt64.toNat_inj.1 (h.trans UInt64.toNat_zero.symm))
  exact ⟨endToEnd_segmenterPlan hpos hn, (unwrapped (lt_min hn hpos) (min_le_right _ _)).2⟩

/-- The last range takes the remainder. -/
theorem segmenterPlan_exact_remainder :
    EndToEnd 1001 4 (segmenterPlan 1001 4) ∧ Unwrapped 1001 250 4 :=
  @segmenterPlan_exact 1001 4 (by decide) (by decide)

theorem chooseWorkerCount_pos (n : ℕ) : 0 < chooseWorkerCount n := by
  rw [chooseWorkerCount]
  split_ifs <;> decide

theorem chooseWorkerCount_le (n : ℕ) : chooseWorkerCount n ≤ qmMaxChunks := by
  rw [chooseWorkerCount]
  split_ifs <;> decide

end Cdm
