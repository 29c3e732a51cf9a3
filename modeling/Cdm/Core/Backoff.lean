import Cdm.Core.Scheduler
import Cdm.Utils.ConfigSaved

/-!
# The delay before a retry

`retry_backoff_seconds` of `core/scheduler.c`, with the settings in force after the
configuration was read. The delay is doubled by a shift, which loses what does not fit an
`int`, and is checked afterwards: where the rest is neither negative nor large it is taken for
the delay (`retryBackoff_iff`).
-/

namespace Cdm

/-- The settings as the scheduler reads them. -/
def DownloadManagerConfig.scheduler (c : DownloadManagerConfig) : Config where
  maxConcurrentDownloads := c.maxConcurrentDownloads.toInt
  retryMaxAttempts := c.retryMaxAttempts.toInt
  retryBaseDelaySec := c.retryBaseDelaySec.toInt
  retryMaxDelaySec := c.retryMaxDelaySec.toInt

/-- The delay without the width of an `int`. -/
def cappedBackoff (cfg : Config) (attempt : ℕ) : ℤ :=
  min (cfg.retryBaseDelaySec * 2 ^ (attempt - 1)) cfg.retryMaxDelaySec

/-- The delays are doubled up to the maximum. -/
structure BacksOff (cfg : Config) : Prop where
  eq : ∀ a, 1 ≤ a → retryBackoffSeconds cfg a = cappedBackoff cfg a
  bounds : ∀ a, 1 ≤ a → cfg.retryBaseDelaySec ≤ retryBackoffSeconds cfg a ∧
    retryBackoffSeconds cfg a ≤ cfg.retryMaxDelaySec
  mono : ∀ a b, 1 ≤ a → a ≤ b → retryBackoffSeconds cfg a ≤ retryBackoffSeconds cfg b

/-- The delays that a configuration allows. -/
structure ValidDelays (cfg : Config) : Prop where
  pos : 1 ≤ cfg.retryBaseDelaySec
  le : cfg.retryBaseDelaySec ≤ cfg.retryMaxDelaySec
  lt : cfg.retryMaxDelaySec < 2 ^ 31

/-- The number that is shifted into an `int`. -/
def shifted (cfg : Config) (attempt : ℕ) : ℤ := cfg.retryBaseDelaySec * 2 ^ min (attempt - 1) 30

/-- It fits, and the shift was not cut short of the maximum; or what is left of it, in 32 bits, is
    no less than the maximum. -/
def KeepsDelay (cfg : Config) (attempt : ℕ) : Prop :=
  if shifted cfg attempt < 2 ^ 31 then
    attempt ≤ 31 ∨ cfg.retryMaxDelaySec ≤ shifted cfg attempt
  else cfg.retryMaxDelaySec ≤ shifted cfg attempt % 2 ^ 32

instance (cfg : Config) (attempt : ℕ) : Decidable (KeepsDelay cfg attempt) :=
  inferInstanceAs (Decidable (ite _ _ _))

variable {cfg : Config} {a b : ℕ}

/-! ## The settings in force -/

theorem validDelays_clampConfig (c : DownloadManagerConfig) :
    ValidDelays (clampConfig c).scheduler := by
  have hpos : 1 ≤ (if c.retryBaseDelaySec < 1 then 1 else c.retryBaseDelaySec).toInt := by
    split_ifs with h
    · decide
    · exact not_lt.1 fun hlt => h (Int32.lt_iff_toInt_lt.2 hlt)
  refine ⟨hpos, ?_, Int32.toInt_lt _⟩
  simp only [clampConfig, DownloadManagerConfig.scheduler]
  split_ifs with h₁ h₂ h₂
  · exact le_rfl
  · exact not_lt.1 fun hlt => h₂ (Int32.lt_iff_toInt_lt.2 hlt)
  · exact le_rfl
  · exact not_lt.1 fun hlt => h₂ (Int32.lt_iff_toInt_lt.2 hlt)

/-- Whatever the file says, the delays are valid. -/
theorem validDelays_configInit (env : ConfigEnv) (file : Option (List Char)) :
    ValidDelays (configInit env file).scheduler := by
  rw [configInit]
  split
  · exact ⟨(by decide : 1 ≤ (2 : Int32).toInt), (by decide : (2 : Int32).toInt ≤ (60 : Int32).toInt),
      (by decide : (60 : Int32).toInt < 2 ^ 31)⟩
  · exact validDelays_clampConfig _

/-! ## The shift -/

/-- What an `int` holds of a number: its rest, which is negative from the half on. -/
theorem toInt_shiftLeft (base : ℤ) (h : 0 ≤ base) (s : ℕ) :
    (BitVec.ofInt 32 base <<< s).toInt =
      if base * 2 ^ s % 2 ^ 32 < 2 ^ 31 then base * 2 ^ s % 2 ^ 32
      else base * 2 ^ s % 2 ^ 32 - 2 ^ 32 := by
  obtain ⟨n, rfl⟩ := Int.eq_ofNat_of_zero_le h
  have hnat : (BitVec.ofInt 32 (n : ℤ) <<< s).toNat = n * 2 ^ s % 2 ^ 32 := by
    rw [BitVec.toNat_shiftLeft, BitVec.ofInt_natCast, BitVec.toNat_ofNat, Nat.shiftLeft_eq,
      Nat.mod_mul_mod]
  have hcast : ((n * 2 ^ s % 2 ^ 32 : ℕ) : ℤ) = n * 2 ^ s % 2 ^ 32 := by push_cast; rfl
  rw [BitVec.toInt_eq_toNat_cond, hnat, ← hcast]
  split_ifs <;> omega

theorem shifted_eq (ha : a ≤ 31) : shifted cfg a = cfg.retryBaseDelaySec * 2 ^ (a - 1) := by
  rw [shifted, min_eq_left (by omega)]

theorem retryBackoffSeconds_eq (h : ValidDelays cfg) (a : ℕ) : retryBackoffSeconds cfg a =
    if shifted cfg a % 2 ^ 32 < cfg.retryMaxDelaySec then shifted cfg a % 2 ^ 32
    else cfg.retryMaxDelaySec := by
  have hpos := h.pos
  have hlt := h.lt
  rw [retryBackoffSeconds, toInt_shiftLeft _ (by omega)]
  rw [← shifted]
  have hmod := Int.emod_nonneg (shifted cfg a) (by decide : (2 ^ 32 : ℤ) ≠ 0)
  have hrest := Int.emod_lt_of_pos (shifted cfg a) (by decide : (0 : ℤ) < 2 ^ 32)
  generalize shifted cfg a % 2 ^ 32 = w at hmod hrest
  split_ifs <;> omega

/-! ## The condition -/

/-- A shift that does not fit has passed the maximum, and so has the doubling without a width. -/
theorem cappedBackoff_of_le (h : ValidDelays cfg) (hbig : 2 ^ 31 ≤ shifted cfg a) :
    cappedBackoff cfg a = cfg.retryMaxDelaySec := by
  have hpow : (2 : ℤ) ^ min (a - 1) 30 ≤ 2 ^ (a - 1) :=
    pow_le_pow_right₀ (by decide) (min_le_left _ _)
  have hle := mul_le_mul_of_nonneg_left hpow (by have := h.pos; omega : 0 ≤ cfg.retryBaseDelaySec)
  have hlt := h.lt
  rw [shifted] at hbig
  exact min_eq_right (by omega)

/-- From the attempt 32 on, the doubling has passed the maximum. -/
theorem cappedBackoff_of_lt (h : ValidDelays cfg) (ha : 31 < a) :
    cappedBackoff cfg a = cfg.retryMaxDelaySec := by
  have hpow : (2 : ℤ) ^ 31 ≤ 2 ^ (a - 1) := pow_le_pow_right₀ (by decide) (by omega)
  have hle := mul_le_mul h.pos hpow (by positivity) (by have := h.pos; omega)
  have hlt := h.lt
  rw [one_mul] at hle
  exact min_eq_right (by omega)

/-- A delay is the doubled one, up to the maximum, exactly under its condition. -/
theorem retryBackoffSeconds_iff (h : ValidDelays cfg) (a : ℕ) :
    retryBackoffSeconds cfg a = cappedBackoff cfg a ↔ KeepsDelay cfg a := by
  have hpos : 0 < shifted cfg a := mul_pos (by have := h.pos; omega) (by positivity)
  rw [retryBackoffSeconds_eq h, KeepsDelay]
  by_cases hfits : shifted cfg a < 2 ^ 31
  · rw [if_pos hfits, Int.emod_eq_of_lt hpos.le (by omega)]
    by_cases ha : a ≤ 31
    · refine iff_of_true ?_ (.inl ha)
      rw [cappedBackoff, ← shifted_eq ha]
      split_ifs <;> omega
    · -- The doubling stops at the attempt 31, with what then may be less than the maximum.
      rw [cappedBackoff_of_lt h (by omega)]
      split_ifs <;> omega
  · -- What is left of the shift counts only if it is less than the maximum.
    rw [if_neg hfits, cappedBackoff_of_le h (by omega)]
    split_ifs <;> omega

/-- With all delays right, they lie between the two settings, and never decrease. -/
theorem backsOff_of_eq (h : ValidDelays cfg)
    (heq : ∀ a, 1 ≤ a → retryBackoffSeconds cfg a = cappedBackoff cfg a) : BacksOff cfg := by
  have hpos := h.pos
  have hmono : ∀ a b, a ≤ b → cfg.retryBaseDelaySec * 2 ^ (a - 1) ≤
      cfg.retryBaseDelaySec * 2 ^ (b - 1) := fun a b hab =>
    mul_le_mul_of_nonneg_left (pow_le_pow_right₀ (by decide) (by omega)) (by omega)
  refine ⟨heq, fun a ha => ?_, fun a b ha hab => ?_⟩
  · have hfirst := hmono 1 a ha
    rw [Nat.sub_self, pow_zero, mul_one] at hfirst
    rw [heq a ha]
    exact ⟨le_min hfirst h.le, min_le_right _ _⟩
  · rw [heq a ha, heq b (ha.trans hab)]
    exact min_le_min_right _ (hmono a b hab)

/-- With the settings that are in force after any file was read, a delay is the doubled one, up
    to the maximum, exactly under its condition, and the delays back off if it holds of all. -/
theorem retryBackoff_iff (env : ConfigEnv) (file : Option (List Char)) :
    let cfg := (configInit env file).scheduler
    (∀ a, 1 ≤ a → (retryBackoffSeconds cfg a = cappedBackoff cfg a ↔ KeepsDelay cfg a)) ∧
      (BacksOff cfg ↔ ∀ a, 1 ≤ a → KeepsDelay cfg a) := by
  intro cfg
  have hvalid := validDelays_configInit env file
  refine ⟨fun a _ => retryBackoffSeconds_iff hvalid a, fun h a ha => ?_, fun h => ?_⟩
  · exact (retryBackoffSeconds_iff hvalid a).1 (h.eq a ha)
  · exact backsOff_of_eq hvalid fun a ha => (retryBackoffSeconds_iff hvalid a).2 (h a ha)

/-- A file that sets the delays. -/
def delaysFile : List Char :=
  "[retry]\nmax_attempts = 40\nbase_delay_sec = 4\nmax_delay_sec = 60\n".toList

/-- Four seconds are shifted out of an `int`, and the retry is not delayed. -/
theorem exists_not_backsOff :
    retryBackoffSeconds (configInit homeEnv (some delaysFile)).scheduler 30 = 60 ∧
      retryBackoffSeconds (configInit homeEnv (some delaysFile)).scheduler 31 = 0 ∧
      ¬BacksOff (configInit homeEnv (some delaysFile)).scheduler := by
  have hdelays : retryBackoffSeconds (configInit homeEnv (some delaysFile)).scheduler 30 = 60 ∧
      retryBackoffSeconds (configInit homeEnv (some delaysFile)).scheduler 31 = 0 := by
    decide
  refine ⟨hdelays.1, hdelays.2, fun h => ?_⟩
  have hmono := h.mono 30 31 (by decide) (by decide)
  rw [hdelays.1, hdelays.2] at hmono
  exact absurd hmono (by decide)

end Cdm
