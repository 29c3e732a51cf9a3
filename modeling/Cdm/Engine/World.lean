import Cdm.Lib.ByteFile
import Cdm.Persistence.Db

/-!
# What the engine works on

The engine changes a download in memory, and the *disk*: the destination file of
the download and the database. Every change of the disk is an `Effect`, a file
operation or a database statement; the world keeps the effects of the current step
in a log, so that the disk after a crash within the step is the disk before it,
changed by a prefix of the log (`Disk.applyAll`).

The file operations are those of `platform/file_io.c`. Where the system may fail
for reasons of its own, the outcome is an argument.
-/

namespace Cdm

/-- What survives a crash: the file at the destination, and the database. -/
structure Disk where
  file : Option File
  db : Db

/-- A change of the disk. -/
inductive Effect
  /-- The destination is created, empty (`open` with `O_CREAT | O_EXCL`). -/
  | create
  /-- The destination is given a length. -/
  | extend (size : ℕ)
  | pwrite (offset : ℕ) (buf : Buf)
  | unlink
  | stmt (q : DbStmt)

namespace Disk

def apply (k : Disk) : Effect → Disk
  | .create => { k with file := some .empty }
  | .extend size => { k with file := k.file.map (·.extend size) }
  | .pwrite offset buf => { k with file := k.file.map (·.pwrite offset buf) }
  | .unlink => { k with file := none }
  | .stmt q => { k with db := k.db.exec q }

/-- The effects of a list, in order. -/
def applyAll (k : Disk) (es : List Effect) : Disk := es.foldl apply k

end Disk

/-- A download, the disk, and the effects of the current step. -/
structure World where
  d : Download
  disk : Disk
  log : List Effect

namespace World

/-- Performing an effect. -/
def emit (w : World) (e : Effect) : World :=
  { w with disk := w.disk.apply e, log := w.log ++ [e] }

/-- Running a statement. -/
def query (w : World) (q : DbStmt) : World := w.emit (.stmt q)

/-- The beginning of a step. -/
def fresh (w : World) : World := { w with log := [] }

variable (w : World) (e : Effect) (q : DbStmt)

@[simp] theorem emit_d : (w.emit e).d = w.d := rfl
@[simp] theorem emit_disk : (w.emit e).disk = w.disk.apply e := rfl
@[simp] theorem emit_log : (w.emit e).log = w.log ++ [e] := rfl
@[simp] theorem query_d : (w.query q).d = w.d := rfl
@[simp] theorem query_file : (w.query q).disk.file = w.disk.file := rfl
@[simp] theorem query_db : (w.query q).disk.db = w.disk.db.exec q := rfl
@[simp] theorem query_log : (w.query q).log = w.log ++ [.stmt q] := rfl
@[simp] theorem fresh_d : w.fresh.d = w.d := rfl
@[simp] theorem fresh_disk : w.fresh.disk = w.disk := rfl
@[simp] theorem fresh_log : w.fresh.log = [] := rfl

end World

/-- The size of a file, `0` if there is none. -/
def fileGetSize (f : Option File) : ℕ := f.elim 0 (·.size)

/-- How the system answers the operations of a preallocation. -/
structure AllocIo where
  /-- Opening the file fails, other than because it exists. -/
  openFails : Bool
  /-- Seeking, writing or truncating fails. -/
  extendFails : Bool
  deriving DecidableEq

/-- Creating the destination with a length; `-2` if it exists. -/
def filePreallocate (w : World) (totalSize : ℕ) (io : AllocIo) : World × ℤ :=
  if w.disk.file.isSome then (w, -2)
  else if io.openFails then (w, -1)
  else
    let w := w.emit .create
    if totalSize = 0 then (w, 0)
    else if io.extendFails then (w, -1)
    else (w.emit (.extend totalSize), 0)

/-- Giving a length to the empty file claimed when the download was added. -/
def filePreallocateReserved (w : World) (totalSize : ℕ) (io : AllocIo) : World × ℤ :=
  match w.disk.file with
  | none => (w, -1)
  | some f =>
    if io.openFails || f.size ≠ 0 || io.extendFails then (w, -1)
    else (w.emit (.extend totalSize), 0)

/-- Creating the destination, or taking the empty file claimed for it. -/
def preallocate (w : World) (totalSize : ℕ) (io : AllocIo) : World × ℤ :=
  if w.d.reservedFile && w.disk.file.isSome then filePreallocateReserved w totalSize io
  else filePreallocate w totalSize io

/-- A preallocation changes neither the download nor the database; if it succeeds, the
    destination is a file of the length asked for. -/
theorem preallocate_spec {w w' : World} {n : ℕ} {io : AllocIo} {rc : ℤ}
    (h : preallocate w n io = (w', rc)) :
    w'.d = w.d ∧ w'.disk.db = w.disk.db ∧ (rc = 0 → ∃ f, w'.disk.file = some f ∧ f.size = n) := by
  rw [preallocate] at h
  split_ifs at h
  · rw [filePreallocateReserved] at h
    split at h
    · cases h
      exact ⟨rfl, rfl, fun h => absurd h (by decide)⟩
    · rename_i f hf
      split_ifs at h with hio <;> cases h
      · exact ⟨rfl, rfl, fun h => absurd h (by decide)⟩
      · have hsize : f.size = 0 := by simp at hio; omega
        refine ⟨rfl, rfl, fun _ => ⟨f.extend n, ?_, ?_⟩⟩
        · simp [Disk.apply, hf]
        · simp [File.extend, hsize]
  · rw [filePreallocate] at h
    split_ifs at h with h₁ h₂ h₃ h₄ <;> cases h
    · exact ⟨rfl, rfl, fun h => absurd h (by decide)⟩
    · exact ⟨rfl, rfl, fun h => absurd h (by decide)⟩
    · exact ⟨rfl, rfl, fun _ => ⟨.empty, rfl, h₃.symm⟩⟩
    · exact ⟨rfl, rfl, fun h => absurd h (by decide)⟩
    · refine ⟨rfl, rfl, fun _ => ⟨File.empty.extend n, rfl, ?_⟩⟩
      simp [File.extend, File.empty]

end Cdm
