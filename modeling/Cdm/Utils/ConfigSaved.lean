import Cdm.Utils.Config
import Mathlib.Data.List.TakeWhile
import Mathlib.Data.UInt

/-!
# Settings that are saved

The settings saved are in force afterwards if they fit the file (`Fits`): the directory is
written between quotes as it is, and an integer of TOML has a sign. `configSave_kept` shows
that nothing else is lost, and that settings that do not fit are, unless the directory is
the one taken by default anyway. The parser is relied on as `Toml.Correct` says.
-/

namespace Cdm

variable {env : ConfigEnv} {c : DownloadManagerConfig}

/-! ## The document -/

def configLines (c : DownloadManagerConfig) : List Toml.Line :=
  [.table "downloads", .int "max_concurrent" c.maxConcurrentDownloads.toInt,
    .string "default_directory" c.defaultDownloadDir, .blank,
    .table "retry", .int "max_attempts" c.retryMaxAttempts.toInt,
    .int "base_delay_sec" c.retryBaseDelaySec.toInt,
    .int "max_delay_sec" c.retryMaxDelaySec.toInt, .blank,
    .table "throttle", .int "max_speed_bytes_per_sec" c.maxSpeedBytesPerSec.toNat]

theorem configText_eq (c : DownloadManagerConfig) : configText c = Toml.render (configLines c) := by
  unfold configText configLines Toml.render
  simp only [Toml.Line.text, List.flatMap_cons, List.flatMap_nil, List.append_assoc,
    List.cons_append, List.nil_append]
  -- The two sides agree, whatever the numbers are.
  generalize Toml.decimal c.maxConcurrentDownloads.toInt = maxConcurrent
  generalize Toml.decimal c.retryMaxAttempts.toInt = maxAttempts
  generalize Toml.decimal c.retryBaseDelaySec.toInt = baseDelay
  generalize Toml.decimal c.retryMaxDelaySec.toInt = maxDelay
  generalize Toml.decimal c.maxSpeedBytesPerSec.toNat = maxSpeed
  rfl

/-- The directory stands for itself in a string. -/
def PlainDir (dir : CString) : Prop := dir.all Toml.isPlain = true

instance (dir : CString) : Decidable (PlainDir dir) := inferInstanceAs (Decidable (_ = _))

theorem wellFormed_configLines (h : PlainDir c.defaultDownloadDir) :
    Toml.WellFormed (configLines c) where
  lines l hl := by
    simp only [configLines, List.mem_cons, List.not_mem_nil, or_false] at hl
    rcases hl with rfl | rfl | rfl | rfl | rfl | rfl | rfl | rfl | rfl | rfl | rfl
    case inr.inr.inl => exact ⟨by decide, h⟩
    all_goals trivial
  tables := by
    show ["downloads", "retry", "throttle"].Nodup
    decide
  keys := by
    show [("downloads", "max_concurrent"), ("downloads", "default_directory"),
      ("retry", "max_attempts"), ("retry", "base_delay_sec"), ("retry", "max_delay_sec"),
      ("throttle", "max_speed_bytes_per_sec")].Nodup
    decide
  rooted x hx := by
    simp only [configLines, Toml.entries, List.mem_cons, List.not_mem_nil, or_false] at hx
    rcases hx with rfl | rfl | rfl | rfl | rfl | rfl <;> simp

/-- Only the speed may have more than 64 bits with the sign. -/
theorem inRange_configLines :
    Toml.InRange (configLines c) ↔ c.maxSpeedBytesPerSec.toNat < 2 ^ 63 := by
  have hint (n : Int32) : -2 ^ 63 ≤ n.toInt ∧ n.toInt < 2 ^ 63 := by
    have hle := n.le_toInt
    have hlt := n.toInt_lt
    constructor <;> omega
  constructor
  · intro h
    have hspeed : -2 ^ 63 ≤ (c.maxSpeedBytesPerSec.toNat : ℤ) ∧
        (c.maxSpeedBytesPerSec.toNat : ℤ) < 2 ^ 63 := h (.int "max_speed_bytes_per_sec" _) (by
      simp [configLines])
    omega
  · intro h l hl
    simp only [configLines, List.mem_cons, List.not_mem_nil, or_false] at hl
    rcases hl with rfl | rfl | rfl | rfl | rfl | rfl | rfl | rfl | rfl | rfl | rfl
    case inr.inr.inr.inr.inr.inr.inr.inr.inr.inr =>
      exact ⟨by omega, by exact_mod_cast h⟩
    all_goals first | exact hint _ | trivial

/-! ## Reading it back -/

/-- The settings survive being written and read. -/
def Fits (c : DownloadManagerConfig) : Prop :=
  PlainDir c.defaultDownloadDir ∧ c.defaultDownloadDir.length < 1024 ∧
    c.maxSpeedBytesPerSec.toNat < 2 ^ 63

instance (c : DownloadManagerConfig) : Decidable (Fits c) := inferInstanceAs (Decidable (_ ∧ _))

/-- Whenever the settings are saved, they are in force, and are so again whenever the file is
    read. -/
def SettingsKept (env : ConfigEnv) (c : DownloadManagerConfig) : Prop :=
  ∀ s s', configSave env s c = (s', true) → s'.config = c ∧ configInit env s'.file = c

theorem takeWhile_of_plain {dir : CString} (h : PlainDir dir) :
    dir.takeWhile (· ≠ Char.ofNat 0) = dir := by
  refine List.takeWhile_eq_self_iff.2 fun c hc => ?_
  have hplain := List.all_eq_true.1 h c hc
  have : c ≠ Char.ofNat 0 := by
    rintro rfl
    cases hplain
  simpa using this

theorem kept_iff (hc : configAccepts env c = true) :
    SettingsKept env c ↔ configInit env (some (configText c)) = c := by
  have hsave (s : ConfigState) : configSave env s c =
      (⟨some (configText c), configInit env (some (configText c))⟩, true) := by
    rw [configSave, if_pos hc]
  constructor
  · intro h
    exact (h ⟨none, c⟩ _ (hsave _)).1
  · intro h s s' hs
    rw [hsave] at hs
    cases hs
    exact ⟨h, h⟩

/-- Settings that fit are read as they were. -/
theorem configInit_of_fits (hparse : Toml.Correct env.parse) (hc : configAccepts env c = true)
    (h : Fits c) : configInit env (some (configText c)) = c := by
  obtain ⟨hplain, hlen, hspeed⟩ := h
  obtain ⟨doc, hdoc, hentries⟩ :=
    hparse.accepts (wellFormed_configLines hplain) (inRange_configLines.2 hspeed)
  have hentry {table key : String} {v : Toml.Value}
      (h : ((table, key), v) ∈ Toml.entries "" (configLines c)) : doc table key = some v :=
    hentries _ h
  have hint {table key : String} {n default : Int32}
      (h : ((table, key), .int64 (.ofInt n.toInt)) ∈ Toml.entries "" (configLines c)) :
      readInt doc table key default = n := by
    rw [readInt, hentry h]
    simp
  have hmax : readInt doc "downloads" "max_concurrent" env.defaults.maxConcurrentDownloads =
      c.maxConcurrentDownloads := hint (by simp [configLines, Toml.entries])
  have hattempts : readInt doc "retry" "max_attempts" env.defaults.retryMaxAttempts =
      c.retryMaxAttempts := hint (by simp [configLines, Toml.entries])
  have hbase : readInt doc "retry" "base_delay_sec" env.defaults.retryBaseDelaySec =
      c.retryBaseDelaySec := hint (by simp [configLines, Toml.entries])
  have hmaxDelay : readInt doc "retry" "max_delay_sec" env.defaults.retryMaxDelaySec =
      c.retryMaxDelaySec := hint (by simp [configLines, Toml.entries])
  have hrate : readU64 doc "throttle" "max_speed_bytes_per_sec"
      env.defaults.maxSpeedBytesPerSec = c.maxSpeedBytesPerSec := by
    rw [readU64, hentry (v := .int64 (.ofInt c.maxSpeedBytesPerSec.toNat))
      (by simp [configLines, Toml.entries])]
    simp [Int64.ofInt_eq_ofNat]
  have hdir : readDir doc "downloads" "default_directory" = c.defaultDownloadDir := by
    rw [readDir, hentry (v := .string c.defaultDownloadDir) (by simp [configLines, Toml.entries])]
    exact (congrArg (List.take 1023) (takeWhile_of_plain hplain)).trans
      (List.take_of_length_le (by omega))
  simp only [configAccepts, Bool.and_eq_true, Bool.not_eq_true', decide_eq_false_iff_not,
    decide_eq_true_eq] at hc
  obtain ⟨⟨⟨⟨⟨hmax', hattempts'⟩, hbase'⟩, hmaxDelay'⟩, hne⟩, husable⟩ := hc
  rw [configInit, Option.bind_some, configText_eq, hdoc]
  simp only [clampConfig, readConfig, hmax, hattempts, hbase, hmaxDelay, hrate, hdir, hne, husable,
    hmax', hattempts', hbase', hmaxDelay', ne_eq, not_false_eq_true, and_self, if_true, if_false]

theorem length_readDir (doc : Toml.Document) (table key : String) :
    (readDir doc table key).length < 1024 := by
  rw [readDir]
  split
  · exact Nat.lt_succ_of_le (List.length_take_le _ _)
  · exact Nat.zero_lt_succ _

/-- The directory in force is the one read, or the default. -/
theorem dir_readConfig (env : ConfigEnv) (doc : Toml.Document) :
    (clampConfig (readConfig env doc)).defaultDownloadDir =
        readDir doc "downloads" "default_directory" ∨
      (clampConfig (readConfig env doc)).defaultDownloadDir = env.defaultDir := by
  simp only [clampConfig, readConfig]
  split_ifs
  · exact .inl rfl
  · exact .inr rfl

/-- A directory that does not stand for itself is read as another one. -/
theorem readDir_ne (hparse : Toml.Correct env.parse) {doc : Toml.Document}
    (hdoc : env.parse (Toml.render (configLines c)) = some doc)
    (hplain : ¬PlainDir c.defaultDownloadDir) :
    readDir doc "downloads" "default_directory" ≠ c.defaultDownloadDir := by
  intro hdir
  have hwell : Toml.WellFormed
      [.table "downloads", .int "max_concurrent" c.maxConcurrentDownloads.toInt] := by
    refine ⟨fun l hl => ?_, List.nodup_singleton _, List.nodup_singleton _, fun x hx => ?_⟩
    · rcases List.mem_pair.1 hl with rfl | rfl
      · exact (by decide : Toml.IsName "downloads")
      · exact (by decide : Toml.IsName "max_concurrent")
    · rw [List.mem_singleton.1 hx]
      simp
  obtain ⟨v, hreads, hv⟩ := hparse.literal hwell (by decide) (by simp [Toml.tableAfter]) hdoc
  refine hplain (hreads.plain ?_ ?_)
  · -- No quote is written after the directory.
    rw [List.mem_cons, not_or]
    refine ⟨by decide, Toml.quote_notMem_render (fun l hl => ?_) fun key s => by simp⟩
    simp only [List.mem_cons, List.not_mem_nil, or_false] at hl
    rcases hl with rfl | rfl | rfl | rfl | rfl | rfl | rfl | rfl
    all_goals trivial
  · -- What was read is not longer than what the literal denotes.
    rw [readDir, show doc "downloads" "default_directory" = some (.string v) from hv] at hdir
    rw [← hdir]
    exact ((List.length_take_le' _ _).trans (List.takeWhile_prefix _).length_le)

/-- If the settings are read as they were, they fit, unless their directory is the default. -/
theorem fits_of_configInit (hparse : Toml.Correct env.parse)
    (h : configInit env (some (configText c)) = c) :
    Fits c ∨ c.defaultDownloadDir = env.defaultDir ∧ ¬PlainDir c.defaultDownloadDir := by
  rw [configInit, Option.bind_some, configText_eq] at h
  by_cases hplain : PlainDir c.defaultDownloadDir
  · have hwell := wellFormed_configLines hplain
    by_cases hspeed : c.maxSpeedBytesPerSec.toNat < 2 ^ 63
    · refine .inl ⟨hplain, ?_, hspeed⟩
      obtain ⟨doc, hdoc, -⟩ := hparse.accepts hwell (inRange_configLines.2 hspeed)
      rw [hdoc] at h
      rw [← h]
      rcases dir_readConfig env doc with hdir | hdir <;> rw [hdir]
      · exact length_readDir _ _ _
      · exact Nat.lt_succ_of_le (List.length_take_le _ _)
    · -- The document is refused, and the speed is not limited.
      rw [hparse.rejects hwell fun hrange => hspeed (inRange_configLines.1 hrange)] at h
      refine absurd ?_ hspeed
      rw [← h]
      exact (by decide : (0 : UInt64).toNat < 2 ^ 63)
  · refine .inr ⟨?_, hplain⟩
    cases hdoc : env.parse (Toml.render (configLines c)) with
    | none =>
      rw [hdoc] at h
      rw [← h]
      rfl
    | some doc =>
      rw [hdoc] at h
      rcases dir_readConfig env doc with hdir | hdir
      · exact absurd (hdir.symm.trans (congrArg _ h)) (readDir_ne hparse hdoc hplain)
      · rw [← hdir]
        exact congrArg _ h.symm

/-- Settings that are saved are in force afterwards if they fit, and only then, unless their
    directory is the default. -/
theorem configSave_kept (hparse : Toml.Correct env.parse) (hc : configAccepts env c = true) :
    (Fits c → SettingsKept env c) ∧ (SettingsKept env c →
      Fits c ∨ c.defaultDownloadDir = env.defaultDir ∧ ¬PlainDir c.defaultDownloadDir) := by
  rw [kept_iff hc]
  exact ⟨configInit_of_fits hparse hc, fits_of_configInit hparse⟩

/-- A home directory in which all directories can be created. -/
def homeEnv : ConfigEnv where
  home := some "/home/u".toList
  parse := Toml.parse
  ensureDirectory := fun _ => true
  resolves := fun _ => true

/-- The settings with a directory and a limit of the speed. -/
def settings (dir : String) (speed : UInt64) : DownloadManagerConfig :=
  ⟨4, dir.toList, 5, 2, 60, speed⟩

theorem configSave_kept_plain : SettingsKept homeEnv (settings "/home/u/Desktop" 1000) :=
  (configSave_kept Toml.correct_parse (by decide)).1 (by decide)

/-- A limit of 2^63 bytes a second is not kept, nor is a directory with a quote in its name. -/
theorem exists_not_kept : Toml.Correct homeEnv.parse ∧
    ¬SettingsKept homeEnv (settings "/home/u/Desktop" (2 ^ 63)) ∧
      ¬SettingsKept homeEnv (settings "/home/u/a\"b" 0) := by
  refine ⟨Toml.correct_parse, fun h => ?_, fun h => ?_⟩
  · have hkept := (kept_iff (by decide)).1 h
    exact absurd hkept (by decide +kernel)
  · have hkept := (kept_iff (by decide)).1 h
    exact absurd hkept (by decide +kernel)

end Cdm
