import Cdm.Engine.World
import Cdm.Lib.FileTree

/-!
# Creating the destination

`platform/file_io.c` on a file system with symbolic links: the folders of a destination are
made if they are missing, and the file is created unless something is there. If the directory
of the destination exists, all that is changed is the file in it
(`filePreallocate_spec`).
-/

namespace Cdm

open Pathname FileTree

/-- What the program finds on the host: the file system, the directory it works in, and the
    variables `DOWNLOADMGR_ROOT` and `HOME`. -/
structure Host where
  tree : FileTree
  cwd : Location
  configured : Option CString
  home : Option CString

namespace Host

variable {h : Host} {t : FileTree} {path : CString} {l : Location}

/-- Making directories, one after the other; those that exist are passed over. -/
def makeDirs (cwd : Location) : List CString → FileTree → FileTree × ℤ
  | [], t => (t, 0)
  | p :: ps, t =>
    match t.mkdir cwd p with
    | .ok t' => makeDirs cwd ps t'
    | .error .eexist => makeDirs cwd ps t
    | .error _ => (t, -1)

/-- The paths on the way to a directory, each up to a slash, and its own. -/
def dirPrefixes (path : CString) : List CString :=
  ((List.range path.length).filter fun i => 0 < i ∧ path[i]? = some '/').map (path.take ·) ++ [path]

def fileEnsureDirectory (h : Host) (path : CString) : FileTree × ℤ :=
  if path = [] then (h.tree, -1) else makeDirs h.cwd (dirPrefixes (path.take 1023)) h.tree

def ensureParentDirsExist (h : Host) (path : CString) : FileTree :=
  let dir := (dirname (path.take 1023)).2
  if dir ≠ ['.'] ∧ dir ≠ ['/'] then (h.fileEnsureDirectory dir).1 else h.tree

/-- Creating the destination with a length; `-2` if something is there. -/
def filePreallocate (h : Host) (path : CString) (totalSize : ℕ) (io : AllocIo) : FileTree × ℤ :=
  let t := h.ensureParentDirsExist path
  match t.create h.cwd path with
  | .error .eexist => (t, -2)
  | .error _ => (t, -1)
  | .ok (t', l) =>
    if io.openFails then (t, -1)
    else if totalSize = 0 then (t', 0)
    else if io.extendFails then (t', -1)
    else (t'.resize l totalSize, 0)

/-! ## Existing directories -/

theorem makeDirs_eq {cwd : Location} {ps : List CString}
    (h : ∀ p ∈ ps, ∀ t', t.mkdir cwd p ≠ .ok t') : (makeDirs cwd ps t).1 = t := by
  induction ps with
  | nil => rfl
  | cons p ps ih =>
    rw [makeDirs]
    split
    · rename_i t' ht'
      exact absurd ht' (h p List.mem_cons_self t')
    · exact ih fun p hp => h p (List.mem_cons_of_mem _ hp)
    · rfl

/-- On the way to a directory that exists, none is missing. -/
theorem mkdir_dirPrefixes {d p : CString} {t' : FileTree} (hd : h.tree.realpath h.cwd d = .ok l)
    (hp : p ∈ dirPrefixes d) : h.tree.mkdir h.cwd p ≠ .ok t' := by
  obtain ⟨-, hwalks, -⟩ := realpath_ok hd
  rcases List.mem_append.1 hp with hp | hp
  · obtain ⟨i, hi, rfl⟩ := List.mem_map.1 hp
    obtain ⟨-, hi⟩ := List.mem_filter.1 hi
    obtain ⟨hpos, hslash⟩ := of_decide_eq_true hi
    obtain ⟨hlt, hslash⟩ := List.getElem?_eq_some_iff.1 hslash
    have hsplit : d = d.take i ++ '/' :: d.drop (i + 1) := by
      rw [← hslash, List.cons_getElem_drop_succ, List.take_append_drop]
    have hstart : start h.cwd d = start h.cwd (d.take i) := by
      rw [start, start, List.head?_take, if_neg hpos.ne']
    rw [hstart, hsplit, components_append, ← hsplit] at hwalks
    exact mkdir_ne_ok _ hwalks
  · rw [List.mem_singleton.1 hp]
    exact mkdir_ne_ok [] (by simpa using hwalks)

/-- Nothing is made if the directory of the destination exists. -/
theorem ensureParentDirsExist_eq (hlen : path.length < 900)
    (hd : h.tree.realpath h.cwd (dirname path).2 = .ok l) :
    h.ensureParentDirsExist path = h.tree := by
  have htake : path.take 1023 = path := List.take_of_length_le (by omega)
  have htake' : (dirname path).2.take 1023 = (dirname path).2 :=
    List.take_of_length_le ((length_dirname_le path).trans (by omega))
  simp only [ensureParentDirsExist, htake]
  split_ifs
  · rw [fileEnsureDirectory, if_neg (realpath_ok hd).1, htake']
    exact makeDirs_eq fun p hp t' => mkdir_dirPrefixes hd hp
  · rfl

/-- If the directory of the destination exists, nothing is changed but the file in it, which
    was not there. -/
theorem filePreallocate_spec {totalSize : ℕ} {io : AllocIo} {k : Location}
    (hlen : path.length < 900) (hd : h.tree.realpath h.cwd (dirname path).2 = .ok l)
    (hk : (h.filePreallocate path totalSize io).1.entry k ≠ h.tree.entry k) :
    k = l ++ [basename path] ∧ IsName (basename path) ∧ h.tree.entry l = some .dir ∧
      h.tree.entry k = none ∧
        ∃ size, (h.filePreallocate path totalSize io).1.entry k = some (.file size) := by
  rw [filePreallocate, ensureParentDirsExist_eq hlen hd] at hk ⊢
  cases hcreate : h.tree.create h.cwd path with
  | error e =>
    rw [hcreate] at hk
    cases e <;> exact absurd rfl hk
  | ok x =>
    obtain ⟨t', m⟩ := x
    obtain ⟨hm, hname, hdir, hnew, hentry⟩ := create_ok hcreate hd rfl
    simp only at hm hnew hentry
    -- The tree with the new file, empty or extended, differs from the old one at the file.
    have hempty : t'.entry k ≠ h.tree.entry k → k = m ∧ ∃ size, t'.entry k = some (.file size) := by
      intro hne
      rw [hentry] at hne ⊢
      by_cases hkm : k = m
      · exact ⟨hkm, 0, if_pos hkm⟩
      · exact absurd (if_neg hkm) hne
    have hresized : (t'.resize m totalSize).entry k ≠ h.tree.entry k →
        k = m ∧ ∃ size, (t'.resize m totalSize).entry k = some (.file size) := by
      intro hne
      by_cases hkm : k = m
      · refine ⟨hkm, totalSize, ?_⟩
        simp [FileTree.resize, hkm, hentry, Entry.resize]
      · have hsame : (t'.resize m totalSize).entry k = t'.entry k := if_neg hkm
        rw [hsame] at hne
        exact absurd (hempty hne).1 hkm
    suffices k = m ∧ ∃ size, _ from
      ⟨this.1.trans hm, hname, hdir, this.1 ▸ hnew, this.2⟩
    simp only [hcreate] at hk ⊢
    split_ifs at hk ⊢
    · exact absurd rfl hk
    · exact hempty hk
    · exact hempty hk
    · exact hresized hk

end Host

end Cdm
