import Cdm.Lib.Pathname

/-!
# A file system with symbolic links

A `FileTree` says what is at every location: nothing, a directory, a file or a symbolic link.
Paths are resolved by walking along their components, `..` being the directory above, and a
link being replaced by its target, at most `maxLinks` times. `realpath` is the location of
what a path leads to; `mkdir` and `create` make something new (`create` is opening with
`O_CREAT` and `O_EXCL`, which does not follow a link at the end of the path).

* `Walks`: where a walk leads, without counting links. It leads to one place at most
  (`Walks.unique`), and a walk in two parts is two walks (`Walks.append`);
* `mkdir_ne_ok`: no directory is made on the way to something that is there;
* `create_ok`: a file is created in the directory of its path.

Permissions are left out, and so is all else that only makes an operation fail.
-/

namespace FileTree

open Pathname

inductive Entry
  | dir
  | file (size : ℕ)
  | link (target : List Char)
  deriving DecidableEq

inductive Errno
  | enoent
  | enotdir
  | eloop
  | eexist
  | eisdir
  deriving DecidableEq

end FileTree

/-- What is at every location. Everything but the root is in a directory, under a name. -/
structure FileTree where
  entry : Pathname.Location → Option FileTree.Entry
  root : entry [] = some .dir
  parent : ∀ l name, (entry (l ++ [name])).isSome → entry l = some .dir
  isName : ∀ l name, (entry (l ++ [name])).isSome → Pathname.IsName name

namespace FileTree

open Pathname

variable {t : FileTree} {cwd l m m' : Location} {cs cs' : List (List Char)} {path name : List Char}

/-! ## Resolving paths -/

/-- Where the walk along a path begins. -/
def start (cwd : Location) (path : List Char) : Location :=
  if path.head? = some '/' then [] else cwd

/-- Walking along components, with `follow` from the first link on. -/
def walkWith (t : FileTree) (follow : Location → List (List Char) → Except Errno Location) :
    Location → List (List Char) → Except Errno Location
  | l, [] => .ok l
  | l, c :: cs =>
    match t.entry l with
    | none => .error .enoent
    | some .dir =>
      if c = [] ∨ c = ['.'] then walkWith t follow l cs
      else if c = ['.', '.'] then walkWith t follow l.dropLast cs
      else
        match t.entry (l ++ [c]) with
        | none => .error .enoent
        | some (.link target) => follow (start l target) (components target ++ cs)
        | some _ => walkWith t follow (l ++ [c]) cs
    | some _ => .error .enotdir

/-- Walking along components, over `n` links at most. -/
def walk (t : FileTree) : ℕ → Location → List (List Char) → Except Errno Location
  | 0 => t.walkWith fun _ _ => .error .eloop
  | n + 1 => t.walkWith (walk t n)

def maxLinks : ℕ := 40

/-- The location of what a path leads to. -/
def realpath (t : FileTree) (cwd : Location) (path : List Char) : Except Errno Location :=
  if path = [] then .error .enoent else t.walk maxLinks (start cwd path) (components path)

/-! ## Making something new -/

/-- Nothing but the root. -/
def bare : FileTree where
  entry l := if l = [] then some .dir else none
  root := rfl
  parent := by simp
  isName := by simp

/-- The tree with something new in a directory. -/
def insert (t : FileTree) (l : Location) (name : List Char) (e : Entry)
    (hl : t.entry l = some .dir) (hname : IsName name) (hnew : t.entry (l ++ [name]) = none) :
    FileTree where
  entry k := if k = l ++ [name] then some e else t.entry k
  root := by simp [t.root]
  parent k n h := by
    have hk : k ≠ l ++ [name] := by
      rintro rfl
      rw [if_neg (by simp)] at h
      rw [t.parent _ _ h] at hnew
      cases hnew
    rw [if_neg hk]
    split_ifs at h with heq
    · rw [(List.append_inj' heq rfl).1, hl]
    · exact t.parent _ _ h
  isName k n h := by
    split_ifs at h with heq
    · obtain ⟨-, hn⟩ := List.append_inj' heq rfl
      exact (List.singleton_injective hn) ▸ hname
    · exact t.isName _ _ h

/-- A file that is extended or cut off. -/
def Entry.resize (size : ℕ) : Entry → Entry
  | .file _ => .file size
  | e => e

/-- The tree with the file at a location given a size. -/
def resize (t : FileTree) (l : Location) (size : ℕ) : FileTree where
  entry k := if k = l then (t.entry k).map (Entry.resize size) else t.entry k
  root := by
    split_ifs
    · rw [t.root]
      rfl
    · exact t.root
  parent k n h := by
    have hk : t.entry k = some .dir := t.parent k n (by split_ifs at h <;> simpa using h)
    split_ifs
    · rw [hk]
      rfl
    · exact hk
  isName k n h := t.isName k n (by split_ifs at h <;> simpa using h)

/-- Making something new under a name in the directory that components lead to. Names that
    cannot be given stand for something that is there, and fail with `special`. -/
def make (t : FileTree) (l : Location) (cs : List (List Char)) (name : List Char) (e : Entry)
    (special : Errno) : Except Errno (FileTree × Location) :=
  match t.walk maxLinks l cs with
  | .error err => .error err
  | .ok k =>
    if hname : IsName name then
      if hk : t.entry k = some .dir then
        if hnew : t.entry (k ++ [name]) = none then
          .ok (t.insert k name e hk hname hnew, k ++ [name])
        else .error .eexist
      else .error .enotdir
    else .error special

/-- Making a directory. -/
def mkdir (t : FileTree) (cwd : Location) (path : List Char) : Except Errno FileTree :=
  if path = [] then .error .enoent
  else
    match (components path).reverse.dropWhile (· = []) with
    | [] => .error .eexist
    | name :: up => (t.make (start cwd path) up.reverse name .dir .eexist).map (·.1)

/-- Creating an empty file, and its location. -/
def create (t : FileTree) (cwd : Location) (path : List Char) : Except Errno (FileTree × Location) :=
  if path = [] then .error .enoent
  else
    match (components path).reverse with
    | [] => .error .enoent
    | name :: up => t.make (start cwd path) up.reverse name (.file 0) .eisdir

/-! ## Where a walk leads -/

/-- The walk along components leads from one place to another, over any number of links. -/
inductive Walks (t : FileTree) : Location → List (List Char) → Location → Prop
  | nil {l : Location} : Walks t l [] l
  | stay {l m : Location} {c : List Char} {cs : List (List Char)} : t.entry l = some .dir →
      c = [] ∨ c = ['.'] → Walks t l cs m → Walks t l (c :: cs) m
  | up {l m : Location} {cs : List (List Char)} : t.entry l = some .dir →
      Walks t l.dropLast cs m → Walks t l (['.', '.'] :: cs) m
  | link {l m : Location} {c target : List Char} {cs : List (List Char)} :
      t.entry l = some .dir → t.entry (l ++ [c]) = some (.link target) →
      Walks t (start l target) (components target ++ cs) m → Walks t l (c :: cs) m
  | into {l m : Location} {c : List Char} {cs : List (List Char)} {e : Entry} :
      t.entry l = some .dir → t.entry (l ++ [c]) = some e → (∀ target, e ≠ .link target) →
      Walks t (l ++ [c]) cs m → Walks t l (c :: cs) m

theorem walkWith_walks {follow : Location → List (List Char) → Except Errno Location}
    (hfollow : ∀ l cs m, follow l cs = .ok m → t.Walks l cs m)
    (h : t.walkWith follow l cs = .ok m) : t.Walks l cs m := by
  induction cs generalizing l with
  | nil =>
    cases h
    exact .nil
  | cons c cs ih =>
    rw [walkWith] at h
    split at h
    · cases h
    · rename_i hl
      split_ifs at h with hstay hup
      · exact .stay hl hstay (ih h)
      · exact hup ▸ .up hl (ih h)
      · split at h
        · cases h
        · rename_i hlink
          exact .link hl hlink (hfollow _ _ _ h)
        · rename_i e hnot he
          exact .into hl he (fun target h => hnot target (h ▸ rfl)) (ih h)
    · cases h

theorem walk_walks {n : ℕ} (h : t.walk n l cs = .ok m) : t.Walks l cs m := by
  induction n generalizing l cs m with
  | zero => exact walkWith_walks (fun _ _ _ h => by cases h) h
  | succ n ih => exact walkWith_walks (fun _ _ _ => ih) h

/-- What is in a directory has a name. -/
theorem isName_of_entry {e : Entry} {c : List Char} (h : t.entry (l ++ [c]) = some e) : IsName c :=
  t.isName l c (by rw [h]; rfl)

theorem isName_of_mem {e : Entry} (h : t.entry l = some e) : ∀ c ∈ l, IsName c := by
  induction l using List.reverseRecOn generalizing e with
  | nil => exact fun c hc => absurd hc List.not_mem_nil
  | append_singleton l c ih =>
    intro c' hc'
    rcases List.mem_append.1 hc' with hc' | hc'
    · exact ih (t.parent l c (by rw [h]; rfl)) c' hc'
    · exact List.mem_singleton.1 hc' ▸ isName_of_entry h

namespace Walks

theorem unique (h : t.Walks l cs m) (h' : t.Walks l cs m') : m = m' := by
  induction h with
  | nil =>
    cases h'
    rfl
  | stay hl hstay _ ih =>
    cases h' with
    | stay _ _ h' => exact ih h'
    | up => simp at hstay
    | link _ he => exact absurd hstay (isName_of_entry he).not_current
    | into _ he => exact absurd hstay (isName_of_entry he).not_current
  | up hl _ ih =>
    cases h' with
    | stay _ hstay => simp at hstay
    | up _ h' => exact ih h'
    | link _ he => exact absurd rfl (isName_of_entry he).2.2.1
    | into _ he => exact absurd rfl (isName_of_entry he).2.2.1
  | link hl he _ ih =>
    cases h' with
    | stay _ hstay => exact absurd hstay (isName_of_entry he).not_current
    | up => exact absurd rfl (isName_of_entry he).2.2.1
    | link _ he' h' =>
      rw [he] at he'
      cases he'
      exact ih h'
    | into _ he' hnot =>
      rw [he] at he'
      cases he'
      exact absurd rfl (hnot _)
  | into hl he hnot _ ih =>
    cases h' with
    | stay _ hstay => exact absurd hstay (isName_of_entry he).not_current
    | up => exact absurd rfl (isName_of_entry he).2.2.1
    | link _ he' =>
      rw [he] at he'
      cases he'
      exact absurd rfl (hnot _)
    | into _ _ _ h' => exact ih h'

/-- A walk in two parts. -/
theorem append (h : t.Walks l (cs ++ cs') m) : ∃ k, t.Walks l cs k ∧ t.Walks k cs' m := by
  generalize hcs : cs ++ cs' = ds at h
  induction h generalizing cs with
  | nil =>
    obtain ⟨rfl, rfl⟩ := List.append_eq_nil_iff.1 hcs
    exact ⟨_, .nil, .nil⟩
  | @stay l m c ds hl hstay h ih =>
    rcases List.append_eq_cons_iff.1 hcs with ⟨rfl, rfl⟩ | ⟨cs, rfl, rfl⟩
    · exact ⟨_, .nil, .stay hl hstay h⟩
    · obtain ⟨k, hk, hk'⟩ := ih rfl
      exact ⟨k, .stay hl hstay hk, hk'⟩
  | @up l m ds hl h ih =>
    rcases List.append_eq_cons_iff.1 hcs with ⟨rfl, rfl⟩ | ⟨cs, rfl, rfl⟩
    · exact ⟨_, .nil, .up hl h⟩
    · obtain ⟨k, hk, hk'⟩ := ih rfl
      exact ⟨k, .up hl hk, hk'⟩
  | @link l m c target ds hl he h ih =>
    rcases List.append_eq_cons_iff.1 hcs with ⟨rfl, rfl⟩ | ⟨cs, rfl, rfl⟩
    · exact ⟨_, .nil, .link hl he h⟩
    · obtain ⟨k, hk, hk'⟩ := ih (List.append_assoc _ _ _)
      exact ⟨k, .link hl he hk, hk'⟩
  | @into l m c ds e hl he hnot h ih =>
    rcases List.append_eq_cons_iff.1 hcs with ⟨rfl, rfl⟩ | ⟨cs, rfl, rfl⟩
    · exact ⟨_, .nil, .into hl he hnot h⟩
    · obtain ⟨k, hk, hk'⟩ := ih rfl
      exact ⟨k, .into hl he hnot hk, hk'⟩

/-- Empty components lead nowhere. -/
theorem replicate {k : ℕ} (h : t.Walks l (List.replicate k []) m) : m = l := by
  induction k generalizing l with
  | zero =>
    cases h
    rfl
  | succ k ih =>
    cases h with
    | stay _ _ h => exact ih h
    | link _ he => exact absurd rfl (isName_of_entry he).1
    | into _ he => exact absurd rfl (isName_of_entry he).1

/-- A walk of at least one component leads to something, which is no link. -/
theorem entry_of_ne_nil (h : t.Walks l cs m) (hcs : cs ≠ []) :
    ∃ e, t.entry m = some e ∧ ∀ target, e ≠ .link target := by
  induction h with
  | nil => exact absurd rfl hcs
  | @stay l m c ds hl _ h ih =>
    rcases eq_or_ne ds [] with rfl | hds
    · cases h
      exact ⟨_, hl, by simp⟩
    · exact ih hds
  | @up l m ds hl h ih =>
    rcases eq_or_ne ds [] with rfl | hds
    · cases h
      refine ⟨.dir, ?_, by simp⟩
      rcases List.eq_nil_or_concat' l with rfl | ⟨l, c, rfl⟩
      · exact t.root
      · rw [List.dropLast_concat]
        exact t.parent l c (by rw [hl]; rfl)
    · exact ih hds
  | link _ _ _ ih => exact ih (List.append_ne_nil_of_left_ne_nil (List.splitOn_ne_nil _ _) _)
  | @into l m c ds e _ he hnot h ih =>
    rcases eq_or_ne ds [] with rfl | hds
    · cases h
      exact ⟨e, he, hnot⟩
    · exact ih hds

/-- Past a name, a walk finds something under it. -/
theorem entry_of_isName (h : t.Walks l (name :: cs) m) (hname : IsName name) :
    t.entry (l ++ [name]) ≠ none := by
  cases h with
  | stay _ hstay => exact absurd hstay hname.not_current
  | up => exact absurd rfl hname.2.2.1
  | link _ he => simp [he]
  | into _ he => simp [he]

end Walks

/-- The location of a path is that of something which is no link, in directories all the
    way down. -/
theorem realpath_ok (h : t.realpath cwd path = .ok l) :
    path ≠ [] ∧ t.Walks (start cwd path) (components path) l ∧
      ∃ e, t.entry l = some e ∧ ∀ target, e ≠ .link target := by
  rw [realpath] at h
  split_ifs at h with hpath
  have hwalks := walk_walks h
  exact ⟨hpath, hwalks, hwalks.entry_of_ne_nil (List.splitOn_ne_nil _ _)⟩

/-! ## What is made -/

/-- What is made anew, and where. -/
theorem make_ok {e : Entry} {special : Errno} {x : FileTree × Location}
    (h : t.make l cs name e special = .ok x) :
    ∃ k, t.Walks l cs k ∧ IsName name ∧ t.entry k = some .dir ∧ t.entry (k ++ [name]) = none ∧
      x.2 = k ++ [name] ∧
        x.1.entry = fun k' => if k' = k ++ [name] then some e else t.entry k' := by
  rw [make] at h
  split at h
  · cases h
  · rename_i k hk
    split_ifs at h with hname hdir hnew
    cases h
    exact ⟨k, walk_walks hk, hname, hdir, hnew, rfl, rfl⟩

/-- No directory is made at the beginning of a path that leads somewhere. -/
theorem mkdir_ne_ok {p : List Char} {t' : FileTree} (rest : List (List Char))
    (h : t.Walks (start cwd p) (components p ++ rest) m) : t.mkdir cwd p ≠ .ok t' := by
  intro hok
  rw [mkdir] at hok
  split_ifs at hok with hp
  split at hok
  · cases hok
  rename_i name up hcomps
  -- The components of the path end in the name and some empty ones.
  obtain ⟨k, hk⟩ : ∃ k, components p = up.reverse ++ name :: List.replicate k [] := by
    have hsplit := List.takeWhile_append_dropWhile (p := (· = ([] : List Char)))
      (l := (components p).reverse)
    obtain ⟨k, hempty⟩ : ∃ k, (components p).reverse.takeWhile (· = []) = List.replicate k [] :=
      ⟨_, List.eq_replicate_of_mem fun c hc => by simpa using List.mem_takeWhile_imp hc⟩
    refine ⟨k, ?_⟩
    rw [hcomps, hempty] at hsplit
    rw [← List.reverse_reverse (components p), ← hsplit]
    simp
  cases hmake : t.make (start cwd p) up.reverse name .dir .eexist with
  | error => simp [hmake, Except.map] at hok
  | ok x =>
    obtain ⟨k', hwalks, hname, -, hnew, -, -⟩ := make_ok hmake
    rw [hk, List.append_assoc] at h
    obtain ⟨k'', hpre, hpost⟩ := h.append
    rw [hpre.unique hwalks] at hpost
    exact hpost.entry_of_isName hname hnew

/-- A file is created in the directory of its path. -/
theorem create_ok {x : FileTree × Location} {d : List Char} (h : t.create cwd path = .ok x)
    (hd : t.realpath cwd d = .ok l) (hdir : d = (dirname path).2) :
    x.2 = l ++ [basename path] ∧ IsName (basename path) ∧ t.entry l = some .dir ∧
      t.entry x.2 = none ∧
        x.1.entry = fun k => if k = x.2 then some (.file 0) else t.entry k := by
  subst hdir
  obtain ⟨-, hwalks, -⟩ := realpath_ok hd
  rw [create] at h
  split_ifs at h with hpath
  split at h
  · cases h
  rename_i name up hcomps
  obtain ⟨k, hk, hname, hkdir, hnew, hx, hentry⟩ := make_ok h
  have hpath : components path = up.reverse ++ [name] := by
    rw [← List.reverse_reverse (components path), hcomps, List.reverse_cons]
  obtain ⟨hbase, hcases⟩ := isDirname hpath hname.1
  -- Both walks lead to the same place.
  have hkl : k = l := by
    generalize (dirname path).2 = d at hcases hwalks
    cases hcases with
    | current hnil hhead =>
      rw [hnil] at hk
      cases hk
      have hcomponents : components ['.'] = [['.']] := rfl
      rw [hcomponents] at hwalks
      cases hwalks with
      | stay _ _ h =>
        cases h
        simp [start, hhead]
      | link _ he => exact absurd rfl (isName_of_entry he).2.1
      | into _ he => exact absurd rfl (isName_of_entry he).2.1
    | @root j n hcs hhead =>
      rw [hcs] at hk
      have hslashes : components (List.replicate (n + 1) '/') = List.replicate (n + 2) [] := by
        rw [← List.nil_append (List.replicate _ '/'), components_append_slashes]
        rfl
      rw [hslashes] at hwalks
      rw [hk.replicate, hwalks.replicate]
      simp [start, hhead, List.replicate_succ]
    | @below d n hne hcs hhead =>
      rw [hcs] at hk
      have hstart : start cwd path = start cwd d := by rw [start, hhead, start]
      rw [hstart] at hk
      obtain ⟨k', hpre, hpost⟩ := hk.append
      rw [hpost.replicate]
      exact hpre.unique hwalks
  rw [← hkl, hx, hbase]
  exact ⟨rfl, hname, hkdir, hnew, hentry⟩

end FileTree
