import Mathlib.Data.List.TakeWhile
import Cdm.Core.Download

/-!
# Choosing a path

`path_make_unique` of `utils/path.c`: a path is kept if nothing exists there; otherwise
a number is put before its extension, the first for which nothing does. Which paths
exist is a parameter.

The parts of the path are printed with their lengths as precisions, each an `int`. Up to that
width the first free path is chosen (`picksFirstFree_iff`), and a longer one is cut or refused.
-/

namespace Cdm

/-- What stands before the last occurrence of a character, and from it on (`strrchr`). -/
def splitLast (c : Char) (l : CString) : Option (CString × CString) :=
  match l.reverse.span (· ≠ c) with
  | (_, []) => none
  | (after, _ :: before) => some (before.reverse, c :: after.reverse)

/-- The directory of a path, with its slash, and the name of the file. -/
def splitName (path : CString) : CString × CString :=
  match splitLast '/' path with
  | none => ([], path)
  | some (dir, name) => (dir ++ ['/'], name.tail)

/-- The extensions of compressed archives, numbered before their `.tar`. -/
def isTarSuffix (ext : CString) : Bool :=
  [".gz", ".bz2", ".xz", ".zst"].any (·.toList = ext)

/-- The stem of a file name, and its extension. A name has no extension if its only dot
    is its first character. -/
def splitExtension (name : CString) : CString × CString :=
  match splitLast '.' name with
  | none | some ([], _) => (name, [])
  | some (stem, ext) =>
    if isTarSuffix ext then
      match splitLast '.' stem with
      | some (stem', tar) => if tar = ".tar".toList then (stem', tar ++ ext) else (stem, ext)
      | none => (stem, ext)
    else (stem, ext)

/-- The path with a number put before the extension. -/
def numberedPath (path : CString) (n : ℕ) : CString :=
  let (dir, name) := splitName path
  let (stem, ext) := splitExtension name
  dir ++ stem ++ '(' :: Nat.toDigits 10 n ++ ')' :: ext

def intMax : ℕ := 2 ^ 31 - 1

/-- A string printed with a precision (`%.*s`), which is an `int`, and counts as left out if it
    is negative. -/
def printed (precision : ℕ) (s : CString) : CString :=
  let precision := (BitVec.ofNat 32 precision).toInt
  if precision < 0 then s else s.take precision.toNat

/-- The path with a number, as it is printed. -/
def printedPath (path : CString) (n : ℕ) : CString :=
  let (dir, name) := splitName path
  let (stem, ext) := splitExtension name
  printed dir.length path ++ printed stem.length name ++ '(' :: Nat.toDigits 10 n ++
    ')' :: printed ext.length ext

/-- The first numbered path that does not exist, of at most `k` of them, from `n` on; none
    if one of them does not fit the buffer. -/
def firstFree (pathExists : CString → Bool) (path : CString) (outSize : ℕ) :
    (k n : ℕ) → Option CString
  | 0, _ => none
  | k + 1, n =>
    let out := printedPath path n
    -- Printing fails if the length is no `int`.
    if intMax < out.length ∨ outSize ≤ out.length then none
    else if pathExists out = false then some out
    else firstFree pathExists path outSize k (n + 1)

/-- A path at which nothing exists, the given one if possible. -/
def pathMakeUnique (pathExists : CString → Bool) (path : CString) (outSize : ℕ) : Option CString :=
  if outSize = 0 then none
  else if pathExists path = false then if outSize ≤ path.length then none else some path
  else firstFree pathExists path outSize 999999 1

variable {pathExists : CString → Bool} {path out name stem ext before after l : CString} {c : Char}
  {outSize k n : ℕ}

theorem firstFree_spec (h : firstFree pathExists path outSize k n = some out) :
    pathExists out = false ∧ out.length ≤ intMax := by
  induction k generalizing n with
  | zero => cases h
  | succ k ih =>
    simp only [firstFree] at h
    split_ifs at h with h₁ h₂
    · cases h
      exact ⟨h₂, not_lt.1 fun hlong => h₁ (.inl hlong)⟩
    · exact ih h

/-- Nothing exists at the path chosen. -/
theorem pathMakeUnique_spec (h : pathMakeUnique pathExists path outSize = some out) :
    pathExists out = false := by
  rw [pathMakeUnique] at h
  split_ifs at h with h₁ h₂
  · cases h
    exact h₂
  · exact (firstFree_spec h).1

/-- An archive is numbered before its double extension. -/
example : numberedPath "/d/a.tar.gz".toList 12 = "/d/a(12).tar.gz".toList := by decide

/-! ## The last occurrence of a character -/

theorem splitLast_append (before : CString) (h : c ∉ after) :
    splitLast c (before ++ c :: after) = some (before, c :: after) := by
  have hspan : (before ++ c :: after).reverse.span (· ≠ c) =
      (after.reverse, c :: before.reverse) := by
    rw [List.span_eq_takeWhile_dropWhile, List.reverse_append, List.reverse_cons, List.append_assoc,
      List.singleton_append]
    have hafter : ∀ x ∈ after.reverse, decide (x ≠ c) = true := by
      intro x hx
      rw [List.mem_reverse] at hx
      exact decide_eq_true fun hxc => h (hxc ▸ hx)
    rw [List.takeWhile_append_of_pos hafter, List.dropWhile_append_of_pos hafter,
      List.takeWhile_cons_of_neg (by simp), List.dropWhile_cons_of_neg (by simp), List.append_nil]
  rw [splitLast, hspan]
  simp

theorem splitLast_of_notMem (h : c ∉ l) : splitLast c l = none := by
  have hall : ∀ x ∈ l.reverse, decide (x ≠ c) = true := by
    intro x hx
    rw [List.mem_reverse] at hx
    exact decide_eq_true fun hxc => h (hxc ▸ hx)
  rw [splitLast, List.span_eq_takeWhile_dropWhile, List.dropWhile_eq_nil_iff.2 hall]

theorem exists_last_of_mem (h : c ∈ l) : ∃ before after, l = before ++ c :: after ∧ c ∉ after := by
  obtain ⟨as, bs, hl, hnot⟩ := List.eq_append_cons_of_mem (List.mem_reverse.2 h)
  refine ⟨bs.reverse, as.reverse, ?_, by rwa [List.mem_reverse]⟩
  rw [← List.reverse_reverse l, hl]
  simp

/-! ## The parts of a path -/

/-- An extension begins at the last dot of the name, unless this is the first character. -/
def IsLastDot (base ext : CString) : Prop :=
  ext = [] ∧ '.' ∉ base.tail ∨ base ≠ [] ∧ ∃ e, ext = '.' :: e ∧ '.' ∉ e

/-- The extension of a name, to which the `.tar` before that of an archive belongs. -/
def IsExtension (stem ext : CString) : Prop :=
  ∃ base last, stem ++ ext = base ++ last ∧ IsLastDot base last ∧
    ((isTarSuffix last = true ∧ ".tar".toList <:+ base) ∧ ext = ".tar".toList ++ last ∨
      ¬(isTarSuffix last = true ∧ ".tar".toList <:+ base) ∧ ext = last)

/-- A path is divided at its last slash, and the name behind it at its extension. -/
structure PathParts (path : CString) where
  dir : CString
  stem : CString
  ext : CString
  path_eq : path = dir ++ (stem ++ ext)
  dir_eq : dir = [] ∨ dir.getLast? = some '/'
  name : '/' ∉ stem ++ ext
  extension : IsExtension stem ext

theorem splitExtension_of_notMem (h : '.' ∉ name.tail) : splitExtension name = (name, []) := by
  rw [splitExtension]
  cases name with
  | nil => rw [splitLast_of_notMem List.not_mem_nil]
  | cons c rest =>
    rw [List.tail_cons] at h
    by_cases hc : c = '.'
    · have hsplit := splitLast_append [] h
      rw [List.nil_append] at hsplit
      rw [hc, hsplit]
    · rw [splitLast_of_notMem fun hmem => (List.mem_cons.1 hmem).elim (fun h => hc h.symm) h]

theorem splitExtension_of_dot {base e : CString} (hbase : base ≠ []) (he : '.' ∉ e) :
    splitExtension (base ++ '.' :: e) =
      if isTarSuffix ('.' :: e) = true ∧ ".tar".toList <:+ base then
        (base.take (base.length - 4), ".tar".toList ++ '.' :: e)
      else (base, '.' :: e) := by
  rw [splitExtension, splitLast_append base he]
  obtain ⟨c, rest, rfl⟩ := List.exists_cons_of_ne_nil hbase
  -- The dot is not the first character, so that there is an extension.
  change (if isTarSuffix ('.' :: e) = true then
      match splitLast '.' (c :: rest) with
      | some (stem', tar) =>
        if tar = ".tar".toList then (stem', tar ++ '.' :: e) else (c :: rest, '.' :: e)
      | none => (c :: rest, '.' :: e)
    else (c :: rest, '.' :: e)) = _
  generalize c :: rest = base
  by_cases htar : isTarSuffix ('.' :: e) = true
  · simp only [htar, if_true, true_and]
    by_cases hsuffix : ".tar".toList <:+ base
    · obtain ⟨front, rfl⟩ := hsuffix
      have hsplit : splitLast '.' (front ++ ".tar".toList) = some (front, ".tar".toList) :=
        splitLast_append front (by decide)
      rw [hsplit, if_pos (List.suffix_append _ _)]
      simp
    · rw [if_neg hsuffix]
      by_cases hmem : '.' ∈ base
      · -- The last part in front of it is another one than `.tar`.
        obtain ⟨front, tar, rfl, hnot⟩ := exists_last_of_mem hmem
        have hne : '.' :: tar ≠ ".tar".toList := fun h => hsuffix ⟨front, by rw [h]⟩
        rw [splitLast_append front hnot]
        simp only [hne, if_false]
      · rw [splitLast_of_notMem hmem]
  · rw [if_neg htar, if_neg fun h => htar h.1]

theorem splitExtension_eq (h : IsExtension stem ext) : splitExtension (stem ++ ext) = (stem, ext) := by
  obtain ⟨base, last, heq, hdot, hext⟩ := h
  rcases hdot with ⟨rfl, hnot⟩ | ⟨hbase, e, rfl, he⟩
  · obtain ⟨-, rfl⟩ := hext.resolve_left fun h => absurd h.1.1 (by decide)
    rw [List.append_nil, List.append_nil] at heq
    rw [List.append_nil, heq, splitExtension_of_notMem hnot]
  · rw [heq, splitExtension_of_dot hbase he]
    rcases hext with ⟨htar, rfl⟩ | ⟨htar, rfl⟩
    · rw [if_pos htar]
      obtain ⟨front, rfl⟩ := htar.2
      rw [← List.append_assoc] at heq
      obtain rfl := List.append_cancel_right (List.append_cancel_right heq)
      simp
    · rw [if_neg htar, List.append_cancel_right heq]

theorem isExtension_splitExtension (name : CString) :
    (splitExtension name).1 ++ (splitExtension name).2 = name ∧
      IsExtension (splitExtension name).1 (splitExtension name).2 := by
  have hplain : ∀ {name : CString}, '.' ∉ name.tail →
      (splitExtension name).1 ++ (splitExtension name).2 = name ∧
        IsExtension (splitExtension name).1 (splitExtension name).2 := by
    intro name hnot
    rw [splitExtension_of_notMem hnot]
    exact ⟨List.append_nil _, name, [], rfl, .inl ⟨rfl, hnot⟩, .inr ⟨fun h => absurd h.1 (by decide), rfl⟩⟩
  by_cases hmem : '.' ∈ name
  · obtain ⟨base, e, rfl, he⟩ := exists_last_of_mem hmem
    by_cases hbase : base = []
    · rw [hbase]
      exact hplain he
    · rw [splitExtension_of_dot hbase he]
      split_ifs with htar
      · obtain ⟨front, rfl⟩ := htar.2
        have hfront : (front ++ ".tar".toList).take ((front ++ ".tar".toList).length - 4) = front := by
          simp
        rw [hfront, ← List.append_assoc]
        exact ⟨rfl, _, _, List.append_assoc _ _ _ |>.symm, .inr ⟨hbase, e, rfl, he⟩, .inl ⟨htar, rfl⟩⟩
      · exact ⟨rfl, base, '.' :: e, rfl, .inr ⟨hbase, e, rfl, he⟩, .inr ⟨htar, rfl⟩⟩
  · exact hplain fun h => hmem (List.mem_of_mem_tail h)

theorem splitName_append {dir : CString} (hdir : dir = [] ∨ dir.getLast? = some '/')
    (hname : '/' ∉ name) : splitName (dir ++ name) = (dir, name) := by
  rcases hdir with rfl | hdir
  · rw [List.nil_append, splitName, splitLast_of_notMem hname]
  · obtain ⟨d, rfl⟩ := List.getLast?_eq_some_iff.1 hdir
    rw [List.append_assoc, List.singleton_append, splitName, splitLast_append d hname]
    rfl

theorem splitName_spec (path : CString) :
    path = (splitName path).1 ++ (splitName path).2 ∧
      ((splitName path).1 = [] ∨ (splitName path).1.getLast? = some '/') ∧
      '/' ∉ (splitName path).2 := by
  by_cases hmem : '/' ∈ path
  · obtain ⟨d, name, rfl, hname⟩ := exists_last_of_mem hmem
    have hsplit := @splitName_append name (d ++ ['/']) (.inr (by simp)) hname
    rw [List.append_assoc, List.singleton_append] at hsplit
    rw [hsplit]
    exact ⟨by simp, .inr (by simp), hname⟩
  · rw [splitName, splitLast_of_notMem hmem]
    exact ⟨rfl, .inl rfl, hmem⟩

/-- The parts that are found. -/
def pathParts (path : CString) : PathParts path where
  dir := (splitName path).1
  stem := (splitExtension (splitName path).2).1
  ext := (splitExtension (splitName path).2).2
  path_eq := by rw [(isExtension_splitExtension _).1, ← (splitName_spec path).1]
  dir_eq := (splitName_spec path).2.1
  name := by
    rw [(isExtension_splitExtension _).1]
    exact (splitName_spec path).2.2
  extension := (isExtension_splitExtension _).2

namespace PathParts

variable (parts : PathParts path)

/-- The path with a number before its extension. -/
def numbered (n : ℕ) : CString :=
  parts.dir ++ parts.stem ++ '(' :: Nat.toDigits 10 n ++ ')' :: parts.ext

theorem splitName_eq : splitName path = (parts.dir, parts.stem ++ parts.ext) := by
  have hsplit := splitName_append parts.dir_eq parts.name
  rwa [← parts.path_eq] at hsplit

theorem numberedPath_eq (n : ℕ) : numberedPath path n = parts.numbered n := by
  rw [numberedPath, parts.splitName_eq]
  simp only [splitExtension_eq parts.extension]
  rfl

theorem length_eq : parts.dir.length + parts.stem.length + parts.ext.length = path.length := by
  have hlen := congrArg List.length parts.path_eq
  rw [List.length_append, List.length_append] at hlen
  omega

theorem length_numbered (n : ℕ) :
    (parts.numbered n).length = path.length + (Nat.toDigits 10 n).length + 2 := by
  have hlen := parts.length_eq
  simp only [numbered, List.length_append, List.length_cons]
  omega

/-- A number of six digits. -/
theorem length_numbered_le {n : ℕ} (hn : n ≤ 999999) :
    (parts.numbered n).length ≤ path.length + 8 := by
  have hdigits := (Nat.length_toDigits_le_iff (b := 10) (n := n) (k := 6) (by decide) (by decide)).2
    (by omega)
  have hlen := parts.length_numbered n
  omega

theorem printed_append {s t : CString} (h : s.length ≤ intMax) : printed s.length (s ++ t) = s := by
  have hlt : s.length < 2 ^ 31 := Nat.lt_of_le_pred (by decide) h
  have hnat : (BitVec.ofNat 32 s.length).toNat = s.length := by
    rw [BitVec.toNat_ofNat, Nat.mod_eq_of_lt (by omega)]
  have hint : (BitVec.ofNat 32 s.length).toInt = s.length := by
    rw [BitVec.toInt_eq_toNat_of_lt (by omega), hnat]
  rw [printed, hint, if_neg (by omega), Int.toNat_natCast, List.take_left]

/-- Parts that are no longer than an `int` can say are printed whole. -/
theorem printedPath_eq (h : path.length ≤ intMax) (n : ℕ) : printedPath path n = parts.numbered n := by
  have hlen := parts.length_eq
  have hdir : printed parts.dir.length path = parts.dir :=
    (congrArg (printed parts.dir.length) parts.path_eq).trans (printed_append (by omega))
  have hext : printed parts.ext.length parts.ext = parts.ext :=
    (congrArg (printed parts.ext.length) (List.append_nil _).symm).trans (printed_append (by omega))
  rw [printedPath, parts.splitName_eq]
  simp only [splitExtension_eq parts.extension]
  rw [hdir, hext, printed_append (by omega)]
  rfl

end PathParts

/-- The parts of a path are those that are found. -/
instance (path : CString) : Unique (PathParts path) where
  default := pathParts path
  uniq parts := by
    have hname := parts.splitName_eq.symm.trans (pathParts path).splitName_eq
    obtain ⟨hdir, hrest⟩ := Prod.mk.inj hname
    have hext := splitExtension_eq parts.extension
    rw [hrest, splitExtension_eq (pathParts path).extension] at hext
    obtain ⟨hstem, hext⟩ := Prod.mk.inj hext
    obtain ⟨dir, stem, ext⟩ := parts
    obtain rfl : dir = _ := hdir
    obtain rfl : stem = _ := hstem.symm
    obtain rfl : ext = _ := hext.symm
    rfl

/-! ## The first free path -/

/-- The path itself is chosen if it is free, and otherwise the first number that gives a free
    one; nothing is chosen if one that is tried does not fit, or all are taken. -/
structure PicksFirstFree (parts : PathParts path) (pathExists : CString → Bool) (outSize : ℕ)
    (chosen : Option CString) : Prop where
  picks : ∀ out, chosen = some out → pathExists out = false ∧ out.length < outSize ∧
    (pathExists path = false ∧ out = path ∨
      pathExists path = true ∧ ∃ n, 1 ≤ n ∧ n ≤ 999999 ∧ out = parts.numbered n ∧
        ∀ m, 1 ≤ m → m < n → pathExists (parts.numbered m) = true)
  refuses : chosen = none → pathExists path = false ∧ outSize ≤ path.length ∨
    pathExists path = true ∧
      ((∃ n, 1 ≤ n ∧ n ≤ 999999 ∧ outSize ≤ (parts.numbered n).length ∧
          ∀ m, 1 ≤ m → m < n → pathExists (parts.numbered m) = true) ∨
        ∀ n, 1 ≤ n → n ≤ 999999 → pathExists (parts.numbered n) = true)

/-- The search stops at the first number whose path is free or does not fit. -/
theorem firstFree_cases {name : ℕ → CString}
    (h : ∀ m, n ≤ m → m < n + k → printedPath path m = name m ∧ (name m).length ≤ intMax) :
    (∃ m, n ≤ m ∧ m < n + k ∧ (∀ j, n ≤ j → j < m → pathExists (name j) = true) ∧
      (outSize ≤ (name m).length ∧ firstFree pathExists path outSize k n = none ∨
        pathExists (name m) = false ∧ (name m).length < outSize ∧
          firstFree pathExists path outSize k n = some (name m))) ∨
    (∀ m, n ≤ m → m < n + k → pathExists (name m) = true) ∧
      firstFree pathExists path outSize k n = none := by
  induction k generalizing n with
  | zero => exact .inr ⟨fun m hm hlt => absurd hlt (by omega), rfl⟩
  | succ k ih =>
    obtain ⟨hname, hlen⟩ := h n le_rfl (by omega)
    rw [firstFree, hname]
    by_cases hfits : outSize ≤ (name n).length
    · refine .inl ⟨n, le_rfl, by omega, fun j hj hlt => absurd hlt (by omega), .inl ⟨hfits, ?_⟩⟩
      exact if_pos (.inr hfits)
    · simp only [hfits, hlen.not_gt, or_self, if_false]
      by_cases hfree : pathExists (name n) = false
      · refine .inl ⟨n, le_rfl, by omega, fun j hj hlt => absurd hlt (by omega), .inr ⟨hfree, ?_, ?_⟩⟩
        · exact not_le.1 hfits
        · exact if_pos hfree
      · rw [if_neg hfree]
        have htaken : pathExists (name n) = true := by simpa using hfree
        have hrest := ih (n := n + 1) fun m hm hlt => h m (by omega) (by omega)
        have hfrom : ∀ m, n ≤ m → m = n ∨ n + 1 ≤ m := fun m hm => by omega
        rcases hrest with ⟨m, hm, hlt, hbefore, hend⟩ | ⟨hall, hnone⟩
        · refine .inl ⟨m, by omega, by omega, fun j hj hjm => ?_, hend⟩
          rcases hfrom j hj with rfl | hj
          · exact htaken
          · exact hbefore j hj hjm
        · refine .inr ⟨fun m hm hlt => ?_, hnone⟩
          rcases hfrom m hm with rfl | hm
          · exact htaken
          · exact hall m hm (by omega)

/-- Up to the width of an `int`, the first free path is chosen. -/
theorem picksFirstFree_of_length (parts : PathParts path) (hlen : path.length + 8 ≤ intMax)
    (hsize : 0 < outSize) :
    PicksFirstFree parts pathExists outSize (pathMakeUnique pathExists path outSize) := by
  have hprinted : ∀ m, 1 ≤ m → m < 1 + 999999 →
      printedPath path m = parts.numbered m ∧ (parts.numbered m).length ≤ intMax := by
    intro m _ hm
    exact ⟨parts.printedPath_eq (by omega) m, (parts.length_numbered_le (by omega)).trans hlen⟩
  rw [pathMakeUnique, if_neg hsize.ne']
  by_cases hfree : pathExists path = false
  · rw [if_pos hfree]
    by_cases hfits : outSize ≤ path.length
    · rw [if_pos hfits]
      exact ⟨fun out h => (nomatch h), fun _ => .inl ⟨hfree, hfits⟩⟩
    · rw [if_neg hfits]
      refine ⟨fun out h => ?_, fun h => (nomatch h)⟩
      cases h
      exact ⟨hfree, not_le.1 hfits, .inl ⟨hfree, rfl⟩⟩
  · have htaken : pathExists path = true := by simpa using hfree
    rw [if_neg hfree]
    rcases @firstFree_cases pathExists path outSize 999999 1 parts.numbered hprinted with
      ⟨m, hm, hlt, hbefore, ⟨hlong, hnone⟩ | ⟨hfreem, hfits, hsome⟩⟩ | ⟨hall, hnone⟩
    · rw [hnone]
      exact ⟨fun out h => (nomatch h), fun _ =>
        .inr ⟨htaken, .inl ⟨m, hm, by omega, hlong, hbefore⟩⟩⟩
    · rw [hsome]
      refine ⟨fun out h => ?_, fun h => (nomatch h)⟩
      cases h
      exact ⟨hfreem, hfits, .inr ⟨htaken, m, hm, by omega, rfl, hbefore⟩⟩
    · rw [hnone]
      exact ⟨fun out h => (nomatch h), fun _ =>
        .inr ⟨htaken, .inr fun n hn hle => hall n hn (by omega)⟩⟩

/-- A path that has no room for a number of six digits is refused, or another name is chosen. -/
theorem exists_not_picksFirstFree (parts : PathParts path) (hlen : intMax < path.length + 8) :
    ∃ (pathExists : CString → Bool) (outSize : ℕ), 0 < outSize ∧
      ¬PicksFirstFree parts pathExists outSize (pathMakeUnique pathExists path outSize) := by
  -- The first number whose path is free has six digits, and there is just room for it.
  obtain ⟨taken, htaken⟩ : ∃ taken : CString → Bool, ∀ p, taken p = true ↔
      p = path ∨ ∃ n < 100000, p = parts.numbered n := by
    refine ⟨fun p => (path :: (List.range 100000).map parts.numbered).contains p, fun p => ?_⟩
    rw [List.contains_iff_mem, List.mem_cons, List.mem_map]
    refine or_congr_right (exists_congr fun n => ?_)
    rw [List.mem_range, eq_comm]
  have hshort : ∀ n < 100000, (parts.numbered n).length ≤ path.length + 7 := fun n hn => by
    have hdigits := (Nat.length_toDigits_le_iff (b := 10) (n := n) (k := 5)
      (by decide) (by decide)).2 hn
    have := parts.length_numbered n
    omega
  have hlong : (parts.numbered 100000).length = path.length + 8 := parts.length_numbered 100000
  have hfree : taken (parts.numbered 100000) = false := by
    rw [← Bool.not_eq_true, htaken]
    rintro (h | ⟨n, hn, h⟩)
    · have := congrArg List.length h
      omega
    · have := hshort n hn
      have := congrArg List.length h
      omega
  refine ⟨taken, path.length + 9, Nat.succ_pos _, fun h => ?_⟩
  have hpath : taken path = true := (htaken path).2 (.inl rfl)
  have htried : ∀ n, (∀ m, 1 ≤ m → m < n → taken (parts.numbered m) = true) → n ≤ 100000 := by
    intro n hbefore
    by_contra hn
    rw [hbefore 100000 (by decide) (by omega)] at hfree
    cases hfree
  cases hchosen : pathMakeUnique taken path (path.length + 9) with
  | none =>
    rcases h.refuses hchosen with ⟨hnot, -⟩ | ⟨-, ⟨n, -, -, hfits, hbefore⟩ | hall⟩
    · rw [hpath] at hnot
      cases hnot
    · rcases (htried n hbefore).lt_or_eq with hn | rfl
      · have := hshort n hn
        omega
      · omega
    · rw [hall 100000 (by decide) (by decide)] at hfree
      cases hfree
  | some out =>
    obtain ⟨hout, -, ⟨hnot, -⟩ | ⟨-, n, -, -, rfl, hbefore⟩⟩ := h.picks out hchosen
    · rw [hpath] at hnot
      cases hnot
    · rcases (htried n hbefore).lt_or_eq with hn | rfl
      · rw [(htaken _).2 (.inr ⟨n, hn, rfl⟩)] at hout
        cases hout
      · -- A path that is printed is no longer than an `int` can say.
        rw [pathMakeUnique, if_neg (by omega), if_neg (by rw [hpath]; decide)] at hchosen
        have := (firstFree_spec hchosen).2
        omega

/-- The first free path is chosen, whatever exists and however large the buffer is, exactly if
    the path leaves room for a number of six digits in the width of an `int`. -/
theorem picksFirstFree_iff (parts : PathParts path) :
    (∀ (pathExists : CString → Bool) (outSize : ℕ), 0 < outSize →
      PicksFirstFree parts pathExists outSize (pathMakeUnique pathExists path outSize)) ↔
        path.length + 8 < 2 ^ 31 := by
  constructor
  · intro hall
    by_contra hlen
    obtain ⟨pathExists, outSize, hsize, hnot⟩ := exists_not_picksFirstFree parts
      (Nat.lt_of_lt_of_le (by decide) (not_lt.1 hlen))
    exact hnot (hall pathExists outSize hsize)
  · intro hlen pathExists outSize hsize
    exact picksFirstFree_of_length parts (Nat.le_sub_one_of_lt hlen) hsize

/-- A path of `k + 3` bytes, most of them in its directory. -/
def longPath (k : ℕ) : CString := '/' :: (List.replicate k 'a' ++ ['/', 'x'])

theorem length_longPath (k : ℕ) : (longPath k).length = k + 3 := by
  simp [longPath]

theorem longPath_parts (k : ℕ) : ∃ parts : PathParts (longPath k),
    parts.dir.length = k + 2 ∧ parts.stem = ['x'] ∧ parts.ext = [] := by
  refine ⟨⟨'/' :: (List.replicate k 'a' ++ ['/']), ['x'], [], ?_, ?_, by decide, ?_⟩, ?_, rfl, rfl⟩
  · simp [longPath]
  · exact .inr (by rw [← List.cons_append, List.getLast?_concat])
  · exact ⟨['x'], [], rfl, .inl ⟨rfl, by decide⟩, .inr ⟨by decide, rfl⟩⟩
  · simp

/-- The length of the directory is cut to the width of an `int`, and two bytes of it are left. -/
theorem printedPath_longPath {k : ℕ} (hk : k = 2 ^ 32) :
    printedPath (longPath k) 1 = "/ax(1)".toList := by
  obtain ⟨parts, hdir, hstem, hext⟩ := longPath_parts k
  have hprefix : printed (k + 2) (longPath k) = "/a".toList := by
    have hint : (BitVec.ofNat 32 (k + 2)).toInt = 2 := by
      rw [hk]
      decide
    obtain ⟨j, rfl⟩ : ∃ j, k = j + 1 := ⟨k - 1, by omega⟩
    rw [printed, hint, longPath, List.replicate_succ]
    rfl
  rw [printedPath, parts.splitName_eq]
  simp only [splitExtension_eq parts.extension]
  rw [hdir, hprefix, hstem, hext]
  decide

theorem pathMakeUnique_longPath {k : ℕ} (hk : k = 2 ^ 32) :
    pathMakeUnique (· = longPath k) (longPath k) 4096 = some "/ax(1)".toList := by
  have hne : "/ax(1)".toList ≠ longPath k := fun h => by
    have hlen := congrArg List.length h
    rw [length_longPath, hk] at hlen
    exact absurd hlen (by decide)
  rw [pathMakeUnique, if_neg (by decide), if_neg (by simp), firstFree, printedPath_longPath hk]
  rw [if_neg (by decide), if_pos (decide_eq_false hne)]

/-- A path of `2 ^ 32 + 3` bytes is all that exists, and another name is chosen for it than the
    one with the first number. -/
theorem exists_other_name :
    pathMakeUnique (· = longPath (2 ^ 32)) (longPath (2 ^ 32)) 4096 = some "/ax(1)".toList ∧
      ∀ parts : PathParts (longPath (2 ^ 32)), ¬PicksFirstFree parts (· = longPath (2 ^ 32)) 4096
        (pathMakeUnique (· = longPath (2 ^ 32)) (longPath (2 ^ 32)) 4096) := by
  refine ⟨pathMakeUnique_longPath rfl, fun parts h => ?_⟩
  rcases (h.picks _ (pathMakeUnique_longPath rfl)).2.2 with ⟨hfree, -⟩ | ⟨-, n, -, -, hout, -⟩
  · exact absurd hfree (by simp)
  · -- The name is shorter than the path.
    have hlen := parts.length_numbered n
    have hsix : "/ax(1)".toList.length = 6 := by decide
    rw [← hout, length_longPath, hsix] at hlen
    omega

end Cdm
