import Cdm.Core.Download
import Cdm.Lib.Toml

/-!
# The configuration

`utils/config.c`: the settings in force, the file they are read from, and saving them to it.
The file is a TOML document, written by hand and read by a parser, which is a parameter.

Numbers have the widths of the source: an integer of the document has 64 bits and a sign,
and is cut to an `int` or taken for an unsigned one.
-/

namespace Cdm

/-- The settings (`DownloadManagerConfig`). -/
structure DownloadManagerConfig where
  maxConcurrentDownloads : Int32
  defaultDownloadDir : CString
  retryMaxAttempts : Int32
  retryBaseDelaySec : Int32
  retryMaxDelaySec : Int32
  maxSpeedBytesPerSec : UInt64
  deriving DecidableEq

/-- What the configuration finds around it. -/
structure ConfigEnv where
  /-- The variable `HOME`. -/
  home : Option CString
  parse : List Char → Option Toml.Document
  /-- A directory is there, or can be created. -/
  ensureDirectory : CString → Bool
  /-- A path can be resolved. -/
  resolves : CString → Bool

namespace ConfigEnv

variable (env : ConfigEnv)

/-- The directory of the downloads if none is set, in an array of 1024 bytes. -/
def defaultDir : CString := ((env.home.getD ".".toList) ++ "/Downloads".toList).take 1023

def defaults : DownloadManagerConfig := ⟨3, env.defaultDir, 5, 2, 60, 0⟩

/-- A directory in the home directory. -/
def defaultDirIsUsable (path : CString) : Bool :=
  path ≠ [] &&
    match env.home with
    | none | some [] => false
    | some home =>
      home.isPrefixOf path && (path.drop home.length).head?.all (· = '/') &&
        env.ensureDirectory path && env.resolves path

end ConfigEnv

def readInt (doc : Toml.Document) (table key : String) (default : Int32) : Int32 :=
  match doc table key with
  | some (.int64 n) => n.toInt32
  | _ => default

def readU64 (doc : Toml.Document) (table key : String) (default : UInt64) : UInt64 :=
  match doc table key with
  | some (.int64 n) => n.toUInt64
  | _ => default

/-- A string up to its first NUL, copied into an array of 1024 bytes. -/
def readDir (doc : Toml.Document) (table key : String) : CString :=
  match doc table key with
  | some (.string s) => (s.takeWhile (· ≠ Char.ofNat 0)).take 1023
  | _ => []

/-- The settings a document gives, before they are checked. -/
def readConfig (env : ConfigEnv) (doc : Toml.Document) : DownloadManagerConfig :=
  let d := env.defaults
  let dir := readDir doc "downloads" "default_directory"
  { maxConcurrentDownloads := readInt doc "downloads" "max_concurrent" d.maxConcurrentDownloads
    defaultDownloadDir :=
      if dir ≠ [] ∧ env.defaultDirIsUsable dir = true then dir else d.defaultDownloadDir
    retryMaxAttempts := readInt doc "retry" "max_attempts" d.retryMaxAttempts
    retryBaseDelaySec := readInt doc "retry" "base_delay_sec" d.retryBaseDelaySec
    retryMaxDelaySec := readInt doc "retry" "max_delay_sec" d.retryMaxDelaySec
    maxSpeedBytesPerSec := readU64 doc "throttle" "max_speed_bytes_per_sec" d.maxSpeedBytesPerSec }

/-- The values the scheduler could not work with are replaced. -/
def clampConfig (c : DownloadManagerConfig) : DownloadManagerConfig :=
  let base := if c.retryBaseDelaySec < 1 then 1 else c.retryBaseDelaySec
  { c with
    maxConcurrentDownloads := if c.maxConcurrentDownloads < 1 then 1 else c.maxConcurrentDownloads
    retryMaxAttempts := if c.retryMaxAttempts < 0 then 0 else c.retryMaxAttempts
    retryBaseDelaySec := base
    retryMaxDelaySec := if c.retryMaxDelaySec < base then base else c.retryMaxDelaySec }

/-- The settings in force after the file has been read; `none` if there is no file. -/
def configInit (env : ConfigEnv) (file : Option (List Char)) : DownloadManagerConfig :=
  match file.bind env.parse with
  -- There is no file, or it is no document.
  | none => env.defaults
  | some doc => clampConfig (readConfig env doc)

/-- The document saved. -/
def configText (c : DownloadManagerConfig) : List Char :=
  "[downloads]\nmax_concurrent = ".toList ++ Toml.decimal c.maxConcurrentDownloads.toInt ++
    "\ndefault_directory = \"".toList ++ c.defaultDownloadDir ++
    "\"\n\n[retry]\nmax_attempts = ".toList ++ Toml.decimal c.retryMaxAttempts.toInt ++
    "\nbase_delay_sec = ".toList ++ Toml.decimal c.retryBaseDelaySec.toInt ++
    "\nmax_delay_sec = ".toList ++ Toml.decimal c.retryMaxDelaySec.toInt ++
    "\n\n[throttle]\nmax_speed_bytes_per_sec = ".toList ++
    Toml.decimal c.maxSpeedBytesPerSec.toNat ++ "\n".toList

/-- The file, and the settings in force. -/
structure ConfigState where
  file : Option (List Char)
  config : DownloadManagerConfig

/-- The settings are acceptable. -/
def configAccepts (env : ConfigEnv) (c : DownloadManagerConfig) : Bool :=
  !(c.maxConcurrentDownloads < 1) && !(c.retryMaxAttempts < 0) && !(c.retryBaseDelaySec < 1) &&
    !(c.retryMaxDelaySec < c.retryBaseDelaySec) && c.defaultDownloadDir ≠ [] &&
    env.defaultDirIsUsable c.defaultDownloadDir

/-- Saving the settings, and reading them back; the operations on the file succeed. -/
def configSave (env : ConfigEnv) (s : ConfigState) (c : DownloadManagerConfig) :
    ConfigState × Bool :=
  -- In force is what is read back, not what was given.
  if configAccepts env c then (⟨some (configText c), configInit env (some (configText c))⟩, true)
  else (s, false)

end Cdm
