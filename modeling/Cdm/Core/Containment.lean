import Cdm.Core.SafeDest
import Cdm.Utils.ConfigSaved

/-!
# Containment

That a directory lies in another one is tested twice: `is_safe_dest_path` compares resolved
paths, `default_dir_is_usable` compares what was configured with `HOME`. Both ask whether the
path begins with that of the root, and ends there or goes on with a slash, so that they compare
components (`startsIn_iff`). The path of the root of the file system has an empty name after its
slash, and so has a path with a slash at its end.

* `Host.isSafeDestPath_iff`: only the root itself lies in the root of the file system;
* `ConfigEnv.defaultDirIsUsable_iff`: a directory lies in `HOME` if its names begin with those
  of `HOME`, and its path repeats the slashes of `HOME`;
* `containment_iff`: when the two tests are right.
-/

namespace Cdm

open Pathname FileTree

/-- A path begins with another one, and the character after it is a slash, if there is one. -/
theorem startsIn_iff {r p : CString} :
    r <+: p ∧ (∀ c ∈ p[r.length]?, c = '/') ↔ components r <+: components p := by
  rw [components_prefix_iff]
  constructor
  · rintro ⟨⟨t, rfl⟩, hend⟩
    refine ⟨t, fun c hc => hend c ?_, rfl⟩
    rw [List.getElem?_append_right le_rfl, Nat.sub_self, ← List.head?_eq_getElem?]
    exact hc
  · rintro ⟨t, ht, rfl⟩
    refine ⟨List.prefix_append r t, fun c hc => ht c ?_⟩
    rw [List.getElem?_append_right le_rfl, Nat.sub_self, ← List.head?_eq_getElem?] at hc
    exact hc

/-! ## Destinations -/

namespace Host

variable {h : Host} {path : CString} {dir root : Location}

/-- A destination is a name in a directory that exists, and `root` is the allowed root. -/
structure DestIn (h : Host) (path : CString) (dir root : Location) : Prop where
  ne_nil : path ≠ []
  short : path.length < 900
  dir : h.tree.realpath h.cwd (dirname path).2 = .ok dir
  root : h.tree.realpath h.cwd h.getAllowedRoot = .ok root
  base : '/' ∉ basename path ∧ basename path ≠ ['.', '.'] ∧ basename path ≠ ['.']

/-- In terms of locations, a slash alone contains nothing but itself. -/
theorem components_pathOf_prefix_iff (hroot : ∀ n ∈ root, IsName n) (hdir : ∀ n ∈ dir, IsName n) :
    components (pathOf root) <+: components (pathOf dir) ↔
      root <+: dir ∧ (root = [] → dir = []) := by
  have hslashRoot : ∀ n ∈ root, '/' ∉ n := fun n hn => (hroot n hn).2.2.2
  have hslashDir : ∀ n ∈ dir, '/' ∉ n := fun n hn => (hdir n hn).2.2.2
  have hslash : components (pathOf []) = [[], []] := rfl
  rcases eq_or_ne root [] with rfl | hneRoot
  · rcases eq_or_ne dir [] with rfl | hneDir
    · simp
    · -- The path of the root ends with an empty component, and no name is empty.
      rw [components_pathOf hslashDir hneDir, hslash, List.cons_prefix_cons]
      obtain ⟨n, dir, rfl⟩ := List.exists_cons_of_ne_nil hneDir
      have hn : n ≠ [] := (hdir n List.mem_cons_self).1
      simp [List.cons_prefix_cons, hn.symm]
  · rw [components_pathOf hslashRoot hneRoot]
    rcases eq_or_ne dir [] with rfl | hneDir
    · obtain ⟨n, root, rfl⟩ := List.exists_cons_of_ne_nil hneRoot
      have hn : n ≠ [] := (hroot n List.mem_cons_self).1
      simp [hslash, List.cons_prefix_cons, hn]
    · rw [components_pathOf hslashDir hneDir, List.cons_prefix_cons]
      simp [hneRoot]

theorem inAllowedRoot_iff (hd : h.DestIn path dir root) :
    h.inAllowedRoot path = true ↔ components (pathOf root) <+: components (pathOf dir) := by
  have htake : path.take 1023 = path := List.take_of_length_le (by have := hd.short; omega)
  rw [inAllowedRoot, take_dirname hd.short, resolveExisting_eq, hd.dir, hd.root, htake,
    ← startsIn_iff]
  obtain ⟨hbase, hup, hcurrent⟩ := hd.base
  simp only [Except.toOption, Bool.and_eq_true, Bool.or_eq_true, decide_eq_true_eq,
    List.isPrefixOf_iff_prefix, ne_eq, hbase, hup, hcurrent, not_false_eq_true, and_true]
  refine and_congr_right fun _ => ?_
  cases (pathOf dir)[(pathOf root).length]? <;> simp

/-- What is accepted: anything that lies in the allowed root, unless this is the root of the
    file system. -/
theorem isSafeDestPath_iff (hd : h.DestIn path dir root) :
    isSafeDestPath path (h.inAllowedRoot path) = true ↔
      root <+: dir ∧ (root = [] → dir = []) := by
  obtain ⟨-, -, e, he, -⟩ := realpath_ok hd.dir
  obtain ⟨-, -, e', he', -⟩ := realpath_ok hd.root
  rw [← components_pathOf_prefix_iff (isName_of_mem he') (isName_of_mem he),
    ← inAllowedRoot_iff hd]
  simp [isSafeDestPath, hd.ne_nil, hd.short]

end Host

/-! ## The directory of the downloads -/

namespace ConfigEnv

variable {env : ConfigEnv} {path home : CString}

/-- A directory that exists, and the home directory, both as absolute paths. -/
structure DirIn (env : ConfigEnv) (path home : CString) : Prop where
  atHome : env.home = some home
  homeAbsolute : home.head? = some '/'
  absolute : path.head? = some '/'
  ensured : env.ensureDirectory path = true
  resolves : env.resolves path = true

theorem defaultDirIsUsable_iff_components (hd : env.DirIn path home) :
    env.defaultDirIsUsable path = true ↔ components home <+: components path := by
  have hne : path ≠ [] := by
    rintro rfl
    cases hd.absolute
  obtain ⟨s, hs⟩ := List.head?_eq_some_iff.1 hd.homeAbsolute
  rw [defaultDirIsUsable, hd.atHome, ← startsIn_iff]
  subst hs
  simp only [Bool.and_eq_true, decide_eq_true_eq, hne, ne_eq, not_false_eq_true, true_and,
    List.isPrefixOf_iff_prefix, List.head?_drop, hd.ensured, hd.resolves, and_true]
  refine and_congr_right fun _ => ?_
  cases path[('/' :: s).length]? <;> simp

/-- What is accepted: the names of `HOME`, and its slashes, come first. -/
theorem defaultDirIsUsable_iff (hd : env.DirIn path home) :
    env.defaultDirIsUsable path = true ↔ names home <+: names path ∧ SameSlashes home path :=
  (defaultDirIsUsable_iff_components hd).trans components_prefix_iff_names

/-- Paths written plainly are compared as they should be. -/
theorem defaultDirIsUsable_pathOf {r d : Location} (hr : ∀ n ∈ r, IsName n)
    (hd : ∀ n ∈ d, IsName n) (hne : r ≠ []) (hin : env.DirIn (pathOf d) (pathOf r)) :
    env.defaultDirIsUsable (pathOf d) = true ↔ r <+: d := by
  rw [defaultDirIsUsable_iff_components hin, Host.components_pathOf_prefix_iff hr hd]
  simp [hne]

/-- If `HOME` has a slash at its end, no path written plainly lies in it. -/
theorem not_usable_of_trailing {r d : Location} (hr : ∀ n ∈ r, IsName n) (hd : ∀ n ∈ d, IsName n)
    (hne : r ≠ []) (hin : env.DirIn (pathOf d) (pathOf r ++ ['/'])) :
    env.defaultDirIsUsable (pathOf d) = false := by
  rw [← Bool.not_eq_true, defaultDirIsUsable_iff_components hin, components_append,
    components_pathOf (fun n hn => (hr n hn).2.2.2) hne, components_nil]
  intro hprefix
  rcases eq_or_ne d [] with rfl | hneDir
  · obtain ⟨n, r, rfl⟩ := List.exists_cons_of_ne_nil hne
    have hlen := hprefix.length_le
    rw [show components (pathOf []) = [[], []] from rfl] at hlen
    simp at hlen
  · -- The empty component at the end of `HOME` would have to be a name.
    rw [components_pathOf (fun n hn => (hd n hn).2.2.2) hneDir, List.cons_append,
      List.cons_prefix_cons] at hprefix
    have hmem : [] ∈ d := hprefix.2.subset (List.mem_append_right r List.mem_cons_self)
    exact (hd [] hmem).1 rfl

end ConfigEnv

/-! ## When the tests are right -/

/-- The test of destinations is wrong about the root of the file system, the test of the
    configured directory about paths with other slashes than `HOME`. -/
theorem containment_iff (h : Host) (env : ConfigEnv) :
    (∀ {path : CString} {dir root : Location}, h.DestIn path dir root →
      ((isSafeDestPath path (h.inAllowedRoot path) = true ↔ root <+: dir) ↔
        (root = [] → dir = []))) ∧
      ∀ {path home : CString}, env.DirIn path home →
        ((env.defaultDirIsUsable path = true ↔ names home <+: names path) ↔
          (names home <+: names path → SameSlashes home path)) := by
  constructor
  · intro path dir root hd
    rw [Host.isSafeDestPath_iff hd, and_iff_left_iff_imp]
    constructor
    · rintro himp rfl
      exact himp List.nil_prefix rfl
    · exact fun himp _ => himp
  · intro path home hd
    rw [ConfigEnv.defaultDirIsUsable_iff hd, and_iff_left_iff_imp]

theorem destIn_userHost : Host.userHost.DestIn "/home/u/l//f".toList
    ["home".toList, "u".toList, "d".toList] ["home".toList, "u".toList] where
  ne_nil := by decide
  short := by decide
  dir := by decide
  root := by decide
  base := by decide

theorem dirIn_homeEnv : homeEnv.DirIn "/home/u/d".toList "/home/u".toList :=
  ⟨rfl, rfl, rfl, rfl, rfl⟩

/-- Both accept a folder in the home directory. -/
theorem containment_home :
    isSafeDestPath "/home/u/l//f".toList (Host.userHost.inAllowedRoot "/home/u/l//f".toList) = true ∧
      homeEnv.defaultDirIsUsable "/home/u/d".toList = true :=
  have hcontains := containment_iff Host.userHost homeEnv
  ⟨((hcontains.1 destIn_userHost).2 (by decide)).2 (by decide),
    ((hcontains.2 dirIn_homeEnv).2 (by decide)).2 (by decide)⟩

/-- Nothing lies in the root of the file system, and no folder in a `HOME` with a slash at its
    end. -/
theorem exists_not_contained :
    (∃ h dir root, Host.DestIn h "/home/u/f".toList dir root ∧
      h.getAllowedRoot = "/".toList ∧ root <+: dir ∧
        isSafeDestPath "/home/u/f".toList (h.inAllowedRoot "/home/u/f".toList) = false) ∧
      ∃ env : ConfigEnv, env.DirIn "/home/u/d".toList "/home/u/".toList ∧
        names "/home/u/".toList <+: names "/home/u/d".toList ∧
          env.defaultDirIsUsable "/home/u/d".toList = false := by
  constructor
  · let h : Host := { Host.userHost with configured := some "/".toList }
    have hd : h.DestIn "/home/u/f".toList ["home".toList, "u".toList] [] :=
      ⟨by decide, by decide, by decide, by decide, by decide⟩
    refine ⟨h, _, _, hd, rfl, List.nil_prefix, ?_⟩
    rw [← Bool.not_eq_true, Host.isSafeDestPath_iff hd]
    decide
  · exact ⟨{ homeEnv with home := some "/home/u/".toList }, ⟨rfl, rfl, rfl, rfl, rfl⟩,
      by decide, by decide⟩

end Cdm
