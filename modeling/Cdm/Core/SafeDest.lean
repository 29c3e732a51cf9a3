import Cdm.Core.QueueManager
import Cdm.Platform.FileIo

/-!
# Safe destinations

`is_safe_dest_path` of `core/queue_manager.c`, on a file system with symbolic links: the
directory of the destination has to lie in the allowed root. As `dirname` cuts its argument off
in place, the search for an existing directory compares what it returns with itself, and ends
where it begins (`resolveExisting_eq`).

* `created_in_root`: a destination that is accepted is created in the allowed root, and nothing
  else is changed;
* `refused_of_missing`: a destination in a new folder is never accepted.
-/

namespace Cdm

open Pathname FileTree

namespace Host

variable {h : Host} {path : CString} {dir root : Location}

def getAllowedRoot (h : Host) : CString := h.configured.getD (h.home.getD "/tmp".toList)

/-- The location of a directory, or of one above it that exists. -/
def resolveExisting (h : Host) (temp : CString) : Option Location :=
  match h.tree.realpath h.cwd temp with
  | .ok dir => some dir
  | .error e =>
    if e ≠ .enoent then none
    else if (dirname temp).2 = (dirname temp).1 ∨ (dirname temp).2 = ['.'] ∨
        (dirname temp).2 = ['/'] then none
    else resolveExisting h (dirname temp).2
termination_by temp.length
decreasing_by
  rename_i hstop
  rcases dirname_eq temp with heq | heq
  · exact absurd (.inl heq) hstop
  · exact absurd (.inr (.inl heq)) hstop

/-- The directory of a destination lies in the allowed root, and its name is one. -/
def inAllowedRoot (h : Host) (path : CString) : Bool :=
  match h.resolveExisting ((dirname (path.take 1023)).2.take 1023) with
  | none => false
  | some dir =>
    match h.tree.realpath h.cwd h.getAllowedRoot with
    | .error _ => false
    | .ok root =>
      let resolvedDir := pathOf dir
      let resolvedRoot := pathOf root
      let base := basename (path.take 1023)
      resolvedRoot.isPrefixOf resolvedDir &&
        (resolvedDir[resolvedRoot.length]? = none || resolvedDir[resolvedRoot.length]? = some '/') &&
        ('/' ∉ base && base ≠ ['.', '.'] && base ≠ ['.'])

/-! ## The search -/

/-- The search does not go up: what `dirname` returns is the buffer it is compared with. -/
theorem resolveExisting_eq (h : Host) (temp : CString) :
    h.resolveExisting temp = (h.tree.realpath h.cwd temp).toOption := by
  rw [resolveExisting]
  split
  · rename_i dir hdir
    rw [hdir]
    rfl
  · rename_i e he
    rw [he]
    split_ifs with henoent hstop
    · rfl
    · rfl
    · rcases dirname_eq temp with heq | heq
      · exact absurd (.inl heq) hstop
      · exact absurd (.inr (.inl heq)) hstop

theorem take_dirname (hlen : path.length < 900) :
    (dirname (path.take 1023)).2.take 1023 = (dirname path).2 := by
  rw [List.take_of_length_le (l := path) (by omega)]
  exact List.take_of_length_le ((length_dirname_le path).trans (by omega))

/-! ## What is accepted -/

/-- The directory of an accepted destination exists, and lies in the allowed root. -/
theorem dir_of_safe (hsafe : isSafeDestPath path (h.inAllowedRoot path) = true) :
    path.length < 900 ∧ ∃ dir root, h.tree.realpath h.cwd (dirname path).2 = .ok dir ∧
      h.tree.realpath h.cwd h.getAllowedRoot = .ok root ∧ root <+: dir := by
  simp only [isSafeDestPath, Bool.and_eq_true, decide_eq_true_eq] at hsafe
  obtain ⟨⟨-, hlen⟩, hin⟩ := hsafe
  rw [inAllowedRoot, take_dirname hlen, resolveExisting_eq] at hin
  refine ⟨hlen, ?_⟩
  cases hdir : h.tree.realpath h.cwd (dirname path).2 with
  | error => simp [hdir, Except.toOption] at hin
  | ok dir =>
    cases hroot : h.tree.realpath h.cwd h.getAllowedRoot with
    | error => simp [hdir, hroot, Except.toOption] at hin
    | ok root =>
      refine ⟨dir, root, rfl, rfl, ?_⟩
      simp only [hdir, hroot, Except.toOption, Bool.and_eq_true, Bool.or_eq_true,
        decide_eq_true_eq] at hin
      obtain ⟨⟨hstart, hend⟩, -⟩ := hin
      obtain ⟨-, -, e, he, -⟩ := realpath_ok hdir
      obtain ⟨-, -, e', he', -⟩ := realpath_ok hroot
      obtain ⟨t, ht⟩ := List.isPrefixOf_iff_prefix.1 hstart
      refine prefix_of_pathOf (isName_of_mem he') (isName_of_mem he) (t := t) ?_ ht
      -- The character after the root, if there is one, is a slash.
      rw [← ht, List.getElem?_append_right le_rfl, Nat.sub_self, ← List.head?_eq_getElem?] at hend
      intro c hc
      rcases hend with hend | hend <;> rw [hend] at hc <;> cases hc
      rfl

/-- A destination that is accepted is created in the allowed root or below it, under a name of
    its own, and nothing else is changed. -/
theorem created_in_root {totalSize : ℕ} {io : AllocIo}
    (hsafe : isSafeDestPath path (h.inAllowedRoot path) = true) :
    ∃ root, h.tree.realpath h.cwd h.getAllowedRoot = .ok root ∧
      ∀ k, (h.filePreallocate path totalSize io).1.entry k ≠ h.tree.entry k →
        h.tree.entry k = none ∧
          (∃ size, (h.filePreallocate path totalSize io).1.entry k = some (.file size)) ∧
            ∃ dir name, k = dir ++ [name] ∧ IsName name ∧ root <+: dir ∧
              h.tree.entry dir = some .dir := by
  obtain ⟨hlen, dir, root, hdir, hroot, hstart⟩ := dir_of_safe hsafe
  refine ⟨root, hroot, fun k hk => ?_⟩
  obtain ⟨hkdir, hname, hentry, hnew, hfile⟩ := filePreallocate_spec hlen hdir hk
  exact ⟨hnew, hfile, dir, basename path, hkdir, hname, hstart, hentry⟩

/-- A folder of the user, with a folder in it and a link to that folder. -/
def userHost : Host where
  tree :=
    let u := ["home".toList, "u".toList]
    let t := bare.insert [] "home".toList .dir rfl (by decide) rfl
    let t := t.insert ["home".toList] "u".toList .dir rfl (by decide) rfl
    let t := t.insert u "d".toList .dir rfl (by decide) rfl
    t.insert u "l".toList (.link "../u/./d".toList) rfl (by decide) rfl
  cwd := []
  configured := none
  home := some "/home//u/".toList

/-- A destination through the link is created where the link leads. -/
theorem created_in_root_link :
    (userHost.filePreallocate "/home/u/l//f".toList 10 ⟨false, false⟩).1.entry
        ["home".toList, "u".toList, "d".toList, "f".toList] = some (.file 10) ∧
      ∃ root, userHost.tree.realpath userHost.cwd userHost.getAllowedRoot = .ok root ∧
        ∀ k, (userHost.filePreallocate "/home/u/l//f".toList 10 ⟨false, false⟩).1.entry k ≠
            userHost.tree.entry k →
          userHost.tree.entry k = none ∧
            (∃ size, (userHost.filePreallocate "/home/u/l//f".toList 10 ⟨false, false⟩).1.entry k =
              some (.file size)) ∧
              ∃ dir name, k = dir ++ [name] ∧ IsName name ∧ root <+: dir ∧
                userHost.tree.entry dir = some .dir := by
  refine ⟨by decide +kernel, created_in_root ?_⟩
  rw [inAllowedRoot, resolveExisting_eq]
  decide +kernel

/-! ## New folders -/

/-- The directory of an absolute path does not exist, and the nearest one above it that does
    lies in the allowed root. -/
structure InNewFolder (h : Host) (path : CString) : Prop where
  absolute : path.head? = some '/'
  short : path.length < 900
  plain : ∀ c ∈ components path, c ≠ ['.'] ∧ c ≠ ['.', '.']
  missing : h.tree.realpath h.cwd (dirname path).2 = .error .enoent
  /-- The directory above ends at the `n`-th character, and is not the root. -/
  above : ∃ n dir root, (dirname path).2[n]? = some '/' ∧
    stripSlashes ((dirname path).2.take n) ≠ [] ∧
    h.tree.realpath h.cwd ((dirname path).2.take n) = .ok dir ∧ h.tree.entry dir = some .dir ∧
    h.tree.realpath h.cwd h.getAllowedRoot = .ok root ∧ root <+: dir ∧
    ∀ i, n < i → (dirname path).2[i]? = some '/' →
      h.tree.realpath h.cwd ((dirname path).2.take i) = .error .enoent

/-- A destination in a new folder is not accepted. -/
theorem refused_of_missing (hnew : InNewFolder h path) :
    isSafeDestPath path (h.inAllowedRoot path) = false := by
  by_contra hsafe
  obtain ⟨-, dir, -, hdir, -⟩ := dir_of_safe (by simpa using hsafe)
  rw [hnew.missing] at hdir
  cases hdir

theorem inNewFolder_userHost : InNewFolder userHost "/home/u/new/f".toList where
  absolute := by decide
  short := by decide
  plain := by decide
  missing := by decide +kernel
  above := by
    refine ⟨7, ["home".toList, "u".toList], ["home".toList, "u".toList], by decide, by decide,
      by decide +kernel, by decide +kernel, by decide +kernel, by decide, fun i hi hslash => ?_⟩
    -- There is no slash after the seventh character.
    have hno : ∀ i < 11, 7 < i → (dirname "/home/u/new/f".toList).2[i]? ≠ some '/' := by decide
    have hlt : i < 11 := (List.getElem?_eq_some_iff.1 hslash).1
    exact absurd hslash (hno i hlt hi)

theorem refused_of_missing_userHost : isSafeDestPath "/home/u/new/f".toList
    (userHost.inAllowedRoot "/home/u/new/f".toList) = false :=
  refused_of_missing inNewFolder_userHost

/-- A folder of the user is missing, and would be made. -/
theorem exists_refused : InNewFolder userHost "/home/u/new/f".toList ∧
    isSafeDestPath "/home/u/new/f".toList (userHost.inAllowedRoot "/home/u/new/f".toList) = false ∧
      (userHost.filePreallocate "/home/u/new/f".toList 10 ⟨false, false⟩).2 = 0 ∧
        (userHost.filePreallocate "/home/u/new/f".toList 10 ⟨false, false⟩).1.entry
          ["home".toList, "u".toList, "new".toList, "f".toList] = some (.file 10) := by
  refine ⟨inNewFolder_userHost, ?_, by decide +kernel, by decide +kernel⟩
  rw [inAllowedRoot, resolveExisting_eq]
  decide +kernel

end Host

end Cdm
