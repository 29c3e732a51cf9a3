import Mathlib.Tactic
import Mathlib.Data.List.DropRight

/-!
# Pathnames

A *path* is a string of components with slashes between them; a *location* is a place in a
tree, the names from its root down. `pathOf` writes a location as a path. `dirname` and
`basename` are those of the C library: `dirname` cuts its argument off in place.

* `prefix_of_pathOf`: if the path of a location begins with that of another, and ends there or
  goes on with a slash, then the location lies below the other one;
* `components_prefix_iff`: for two paths, this says that the components of one are the first
  ones of the other;
* `dirname_cases`, `basename_eq`: what a path without a slash at its end consists of.
-/

namespace Pathname

/-- A place in a tree: the names from the root down. -/
abbrev Location := List (List Char)

/-- What may be the name of something in a directory. -/
def IsName (name : List Char) : Prop :=
  name ≠ [] ∧ name ≠ ['.'] ∧ name ≠ ['.', '.'] ∧ '/' ∉ name

instance (name : List Char) : Decidable (IsName name) := inferInstanceAs (Decidable (_ ∧ _))

theorem IsName.not_current {name : List Char} (h : IsName name) : ¬(name = [] ∨ name = ['.']) :=
  not_or.2 ⟨h.1, h.2.1⟩

/-! ## The path of a location -/

def pathOf (l : Location) : List Char :=
  if l = [] then ['/'] else l.flatMap ('/' :: ·)

/-- What follows a name in a path: nothing, or a slash. -/
def AtEnd (t : List Char) : Prop := ∀ c ∈ t.head?, c = '/'

theorem atEnd_flatMap (l : Location) : AtEnd (l.flatMap ('/' :: ·)) := by
  cases l <;> simp [AtEnd]

/-- A name ends at the first slash. -/
theorem name_inj {x y t u : List Char} (hx : '/' ∉ x) (hy : '/' ∉ y) (ht : AtEnd t) (hu : AtEnd u)
    (h : x ++ t = y ++ u) : x = y ∧ t = u := by
  induction x generalizing y with
  | nil =>
    cases y with
    | nil => exact ⟨rfl, h⟩
    | cons c y =>
      have hc : c = '/' := ht c (by rw [show t = c :: (y ++ u) from h]; rfl)
      exact absurd (hc ▸ List.mem_cons_self) hy
  | cons c x ih =>
    cases y with
    | nil =>
      have hc : c = '/' := hu c (by rw [show u = c :: (x ++ t) from h.symm]; rfl)
      exact absurd (hc ▸ List.mem_cons_self) hx
    | cons d y =>
      obtain ⟨rfl, htail⟩ := List.cons.inj h
      obtain ⟨rfl, rfl⟩ := ih (fun h => hx (List.mem_cons_of_mem _ h))
        (fun h => hy (List.mem_cons_of_mem _ h)) htail
      exact ⟨rfl, rfl⟩

theorem prefix_of_flatMap {r d : Location} {t : List Char} (hr : ∀ n ∈ r, '/' ∉ n)
    (hd : ∀ n ∈ d, '/' ∉ n) (ht : AtEnd t)
    (h : r.flatMap ('/' :: ·) ++ t = d.flatMap ('/' :: ·)) : r <+: d := by
  induction r generalizing d with
  | nil => exact List.nil_prefix
  | cons n r ih =>
    cases d with
    | nil => simp at h
    | cons m d =>
      simp only [List.flatMap_cons, List.cons_append, List.append_assoc, List.cons.injEq,
        true_and] at h
      have hrest : AtEnd (r.flatMap ('/' :: ·) ++ t) := by
        cases r with
        | nil => exact ht
        | cons => simp [AtEnd]
      obtain ⟨rfl, htail⟩ := name_inj (hr n List.mem_cons_self) (hd m List.mem_cons_self) hrest
        (atEnd_flatMap d) h
      exact List.cons_prefix_cons.2 ⟨rfl, ih (fun n hn => hr n (List.mem_cons_of_mem _ hn))
        (fun n hn => hd n (List.mem_cons_of_mem _ hn)) htail⟩

/-- A path that begins with another one, and ends there or goes on with a slash, is the path
    of a place below. -/
theorem prefix_of_pathOf {r d : Location} {t : List Char} (hr : ∀ n ∈ r, IsName n)
    (hd : ∀ n ∈ d, IsName n) (ht : AtEnd t) (h : pathOf r ++ t = pathOf d) : r <+: d := by
  rcases r with _ | ⟨n, r⟩
  · exact List.nil_prefix
  rcases d with _ | ⟨m, d⟩
  · -- Only the path of the root is a slash, as names are not empty.
    obtain ⟨c, n, rfl⟩ := List.exists_cons_of_ne_nil (hr n List.mem_cons_self).1
    simp [pathOf] at h
  · rw [pathOf, pathOf, if_neg (List.cons_ne_nil _ _), if_neg (List.cons_ne_nil _ _)] at h
    exact prefix_of_flatMap (fun n hn => (hr n hn).2.2.2) (fun n hn => (hd n hn).2.2.2) ht h

/-! ## The components of a path -/

def components (path : List Char) : List (List Char) := path.splitOn '/'

@[simp] theorem components_nil : components [] = [[]] := rfl

theorem components_append (p q : List Char) :
    components (p ++ '/' :: q) = components p ++ components q :=
  List.splitOn_append_cons_self p q

theorem components_of_notMem {p : List Char} (h : '/' ∉ p) : components p = [p] :=
  List.splitOn_eq_singleton h

theorem components_append_slashes (p : List Char) (k : ℕ) :
    components (p ++ List.replicate k '/') = components p ++ List.replicate k [] := by
  induction k with
  | zero => simp
  | succ k ih =>
    rw [List.replicate_succ', ← List.append_assoc, components_append, ih, components_nil,
      List.append_assoc, ← List.replicate_succ']

theorem components_slash (p : List Char) : components ('/' :: p) = [] :: components p :=
  components_append [] p

theorem components_pathOf {l : Location} (hl : ∀ n ∈ l, '/' ∉ n) (hne : l ≠ []) :
    components (pathOf l) = [] :: l := by
  rw [pathOf, if_neg hne]
  induction l with
  | nil => exact absurd rfl hne
  | cons n l ih =>
    obtain ⟨hn, hl⟩ := List.forall_mem_cons.1 hl
    rw [List.flatMap_cons, List.cons_append, components_slash]
    rcases l with _ | ⟨m, l⟩
    · rw [List.flatMap_nil, List.append_nil, components_of_notMem hn]
    · have hrest := ih hl (List.cons_ne_nil m l)
      rw [List.flatMap_cons, List.cons_append, components_slash] at hrest
      rw [List.flatMap_cons, List.cons_append, components_append, components_of_notMem hn,
        (List.cons.inj hrest).2]
      rfl

/-- What is between two slashes may be written on either side. -/
theorem intercalate_append {cs ds : List (List Char)} (hcs : cs ≠ []) (hds : ds ≠ []) :
    ['/'].intercalate (cs ++ ds) = ['/'].intercalate cs ++ '/' :: ['/'].intercalate ds := by
  induction cs with
  | nil => exact absurd rfl hcs
  | cons c cs ih =>
    rcases eq_or_ne cs [] with rfl | hne
    · rw [List.singleton_append, List.intercalate_cons_of_ne_nil hds, List.intercalate_singleton,
        List.append_assoc, List.singleton_append]
    · have happend : cs ++ ds ≠ [] := List.append_ne_nil_of_left_ne_nil hne ds
      rw [List.cons_append, List.intercalate_cons_of_ne_nil happend, ih hne,
        List.intercalate_cons_of_ne_nil hne]
      simp only [List.append_assoc]

/-- The components of one path are the first ones of another exactly if the other begins with
    it, and ends there or goes on with a slash. -/
theorem components_prefix_iff {r p : List Char} :
    components r <+: components p ↔ ∃ t, AtEnd t ∧ r ++ t = p := by
  constructor
  · rintro ⟨cs, hcs⟩
    have hp : ['/'].intercalate (components r ++ cs) = p := by
      rw [hcs]
      exact List.intercalate_splitOn '/'
    have hr : ['/'].intercalate (components r) = r := List.intercalate_splitOn '/'
    rcases eq_or_ne cs [] with rfl | hne
    · exact ⟨[], by simp [AtEnd], by rw [← hp, List.append_nil, List.append_nil, hr]⟩
    · refine ⟨'/' :: ['/'].intercalate cs, by simp [AtEnd], ?_⟩
      have hcomponents : components r ≠ [] := List.splitOn_ne_nil '/' r
      rw [← hp, intercalate_append hcomponents hne, hr]
  · rintro ⟨t, ht, rfl⟩
    rcases t with _ | ⟨c, t⟩
    · rw [List.append_nil]
    · rw [show c = '/' from ht c rfl, components_append]
      exact List.prefix_append _ _

/-! ## The names in a path -/

/-- The names in a path: nothing stands between two slashes in a row. -/
def names (path : List Char) : List (List Char) := (components path).filter (· ≠ [])

/-- Wherever one path has two slashes in a row, another has too, as far as the first goes. -/
def SameSlashes (r p : List Char) : Prop :=
  ∀ i < (components r).length, (components r)[i]? = some [] ↔ (components p)[i]? = some []

instance (r p : List Char) : Decidable (SameSlashes r p) :=
  inferInstanceAs (Decidable (∀ i < _, _))

theorem prefix_iff_filter {cs ds : List (List Char)} :
    cs <+: ds ↔ cs.filter (· ≠ []) <+: ds.filter (· ≠ []) ∧
      ∀ i < cs.length, cs[i]? = some [] ↔ ds[i]? = some [] := by
  constructor
  · rintro ⟨es, rfl⟩
    refine ⟨(List.prefix_append cs es).filter _, fun i hi => ?_⟩
    rw [List.getElem?_append_left hi]
  · rintro ⟨hnames, hempty⟩
    induction cs generalizing ds with
    | nil => exact List.nil_prefix
    | cons c cs ih =>
      have hhead := hempty 0 (Nat.zero_lt_succ _)
      rcases ds with _ | ⟨d, ds⟩
      · -- There is a name, and none it could be.
        have hc : c ≠ [] := by simpa using hhead
        rw [List.filter_cons_of_pos (by simpa using hc)] at hnames
        exact absurd (List.prefix_nil.1 hnames) (List.cons_ne_nil _ _)
      have htail (i : ℕ) (hi : i < cs.length) : cs[i]? = some [] ↔ ds[i]? = some [] := by
        simpa using hempty (i + 1) (Nat.succ_lt_succ hi)
      have hcd : c = [] ↔ d = [] := by simpa using hhead
      rcases eq_or_ne c [] with rfl | hc
      · obtain rfl := hcd.1 rfl
        rw [List.filter_cons_of_neg (by simp), List.filter_cons_of_neg (by simp)] at hnames
        exact List.cons_prefix_cons.2 ⟨rfl, ih hnames htail⟩
      · have hd : d ≠ [] := fun hd => hc (hcd.2 hd)
        rw [List.filter_cons_of_pos (by simpa using hc),
          List.filter_cons_of_pos (by simpa using hd), List.cons_prefix_cons] at hnames
        exact List.cons_prefix_cons.2 ⟨hnames.1, ih hnames.2 htail⟩

theorem components_prefix_iff_names {r p : List Char} :
    components r <+: components p ↔ names r <+: names p ∧ SameSlashes r p :=
  prefix_iff_filter

/-! ## The directory and the name -/

/-- A path without the slashes at its end. -/
def stripSlashes (p : List Char) : List Char := p.rdropWhile (· = '/')

/-- A path up to its last slash. -/
def uptoSlash (p : List Char) : List Char := p.rdropWhile (· ≠ '/')

/-- The directory of a path: what is left in the buffer, and what is returned. The buffer is
    cut off and returned itself, unless there is no directory in it. -/
def dirname (buf : List Char) : List Char × List Char :=
  let path := if stripSlashes buf = [] then buf else stripSlashes buf
  let dir := uptoSlash path
  if dir = [] then (buf, ['.'])
  else if stripSlashes dir ≠ [] then (stripSlashes dir, stripSlashes dir)
  else if dir.length = 2 then (['/', '/'], ['/', '/'])
  else (['/'], ['/'])

/-- The last component of a path, without the slashes after it. -/
def basename (buf : List Char) : List Char :=
  if buf = [] then ['.']
  else if stripSlashes buf = [] then ['/']
  else (stripSlashes buf).rtakeWhile (· ≠ '/')

/-- What is returned is the buffer, or stands for the current directory. -/
theorem dirname_eq (buf : List Char) :
    (dirname buf).2 = (dirname buf).1 ∨ (dirname buf).2 = ['.'] := by
  simp only [dirname]
  generalize (if stripSlashes buf = [] then buf else stripSlashes buf) = path
  split_ifs
  · exact .inr rfl
  · exact .inl rfl
  · exact .inl rfl
  · exact .inl rfl

theorem length_dirname_le (buf : List Char) : (dirname buf).2.length ≤ buf.length + 2 := by
  have hstrip (p : List Char) : (stripSlashes p).length ≤ p.length :=
    (List.rdropWhile_prefix _ p).length_le
  have hupto (p : List Char) : (uptoSlash p).length ≤ p.length :=
    (List.rdropWhile_prefix _ p).length_le
  have hpath : (if stripSlashes buf = [] then buf else stripSlashes buf).length ≤ buf.length := by
    split_ifs
    · exact le_rfl
    · exact hstrip buf
  simp only [dirname]
  generalize (if stripSlashes buf = [] then buf else stripSlashes buf) = path at hpath
  split_ifs
  · simp
  · exact ((hstrip _).trans (hupto _)).trans (hpath.trans (Nat.le_add_right _ _))
  · simp
  · simp

theorem stripSlashes_append (p : List Char) : ∃ k, p = stripSlashes p ++ List.replicate k '/' := by
  refine ⟨(p.rtakeWhile (· = '/')).length, ?_⟩
  have hslashes : p.rtakeWhile (· = '/') = List.replicate (p.rtakeWhile (· = '/')).length '/' :=
    List.eq_replicate_of_mem fun c hc => by simpa using List.mem_rtakeWhile_imp hc
  rw [← hslashes]
  exact List.rdropWhile_append_rtakeWhile.symm

/-- A path is slash-free, or it has a last slash. -/
theorem uptoSlash_cases (path : List Char) :
    (uptoSlash path = [] ∧ '/' ∉ path) ∨
      ∃ d base, uptoSlash path = d ++ ['/'] ∧ '/' ∉ base ∧ path = d ++ '/' :: base ∧
        path.rtakeWhile (· ≠ '/') = base := by
  rcases List.eq_nil_or_concat' (uptoSlash path) with hnil | ⟨d, c, hd⟩
  · refine .inl ⟨hnil, fun hmem => ?_⟩
    have := List.rdropWhile_eq_nil_iff.1 hnil _ hmem
    simp at this
  · have hc : c = '/' := by
      have hne : uptoSlash path ≠ [] := by simp [hd]
      have hlast : ¬decide ((uptoSlash path).getLast hne ≠ '/') = true :=
        List.rdropWhile_last_not (· ≠ '/') path hne
      simpa [hd] using hlast
    subst hc
    refine .inr ⟨d, path.rtakeWhile (· ≠ '/'), hd, fun hmem => ?_, ?_, rfl⟩
    · have := List.mem_rtakeWhile_imp hmem
      simp at this
    · have happ : uptoSlash path ++ path.rtakeWhile (· ≠ '/') = path :=
        List.rdropWhile_append_rtakeWhile
      rw [hd, List.append_assoc] at happ
      exact happ.symm

/-- The components before the name of a path, and its directory. -/
inductive IsDirname (path : List Char) (cs : List (List Char)) : List Char → Prop
  | current : cs = [] → path.head? ≠ some '/' → IsDirname path cs ['.']
  | root {j k : ℕ} : cs = List.replicate j [] → path.head? = some '/' →
      IsDirname path cs (List.replicate (k + 1) '/')
  | below {d : List Char} {k : ℕ} : d ≠ [] → cs = components d ++ List.replicate k [] →
      path.head? = d.head? → IsDirname path cs d

/-- A path without a slash at its end: its last component is its name, and those before it
    make its directory. -/
theorem isDirname {path name : List Char} {cs : List (List Char)}
    (h : components path = cs ++ [name]) (hname : name ≠ []) :
    basename path = name ∧ IsDirname path cs (dirname path).2 := by
  -- The name is not empty, so that no slash is stripped.
  have hstrip : stripSlashes path = path := by
    refine List.rdropWhile_eq_self_iff.2 fun hne hlast => hname ?_
    have hpath := List.dropLast_append_getLast hne
    rw [of_decide_eq_true hlast] at hpath
    rw [← hpath, components_append, components_nil] at h
    exact (List.concat_inj.1 (by simpa using h)).2.symm
  have hne : path ≠ [] := by
    rintro rfl
    rw [components_nil] at h
    exact hname (List.concat_inj.1 (by simpa using h : [].concat [] = cs.concat name)).2.symm
  have hbase : basename path = path.rtakeWhile (· ≠ '/') := by
    rw [basename, if_neg hne, hstrip, if_neg hne]
  have hdir : dirname path = if uptoSlash path = [] then (path, ['.'])
      else if stripSlashes (uptoSlash path) ≠ [] then
        (stripSlashes (uptoSlash path), stripSlashes (uptoSlash path))
      else if (uptoSlash path).length = 2 then (['/', '/'], ['/', '/']) else (['/'], ['/']) := by
    simp only [dirname, hstrip, if_neg hne]
  -- Either there is no slash, or the last one is in front of the name.
  rcases uptoSlash_cases path with ⟨hnil, hno⟩ | ⟨d, base, hd, hno, hpath, htake⟩
  · rw [components_of_notMem hno] at h
    obtain ⟨rfl, rfl⟩ := List.concat_inj.1 (by simpa using h : [].concat path = cs.concat name)
    refine ⟨?_, ?_⟩
    · rw [hbase, List.rtakeWhile_eq_self_iff]
      intro c hc
      have hslash : c ≠ '/' := fun h => hno (h ▸ hc)
      simpa using hslash
    · rw [hdir, if_pos hnil]
      refine .current rfl fun hhead => hno ?_
      obtain ⟨t, rfl⟩ := List.head?_eq_some_iff.1 hhead
      exact List.mem_cons_self
  · rw [hpath, components_append, components_of_notMem hno] at h
    obtain ⟨rfl, rfl⟩ := List.concat_inj.1
      (by simpa using h : (components d).concat base = cs.concat name)
    refine ⟨hbase.trans htake, ?_⟩
    obtain ⟨k, hk⟩ := stripSlashes_append d
    have hstrip' : stripSlashes (uptoSlash path) = stripSlashes d := by
      rw [hd]
      exact List.rdropWhile_concat_pos _ _ _ (by simp)
    rw [hdir, if_neg (by simp [hd]), hstrip']
    generalize stripSlashes d = e at hk
    -- Nothing but slashes are in front of the name.
    have hroot (he : ¬e ≠ []) :
        components d = List.replicate (k + 1) [] ∧ path.head? = some '/' := by
      rw [not_not.1 he, List.nil_append] at hk
      refine ⟨?_, ?_⟩
      · rw [hk, ← List.nil_append (List.replicate k '/'), components_append_slashes]
        rfl
      · rw [hpath, hk]
        cases k <;> rfl
    split_ifs with hbelow htwo
    · refine .below (k := k) hbelow ?_ ?_
      · rw [hk, components_append_slashes]
      · rw [hpath, hk, List.append_assoc]
        exact List.head?_append_of_ne_nil _ hbelow
    · exact .root (k := 1) (hroot hbelow).1 (hroot hbelow).2
    · exact .root (k := 0) (hroot hbelow).1 (hroot hbelow).2

example : dirname "a/b//".toList = ("a".toList, "a".toList) := by decide
example : dirname "//a".toList = ("//".toList, "//".toList) := by decide
example : dirname "a/".toList = ("a/".toList, ".".toList) := by decide
example : basename "a/b//".toList = "b".toList := by decide

end Pathname
