import Cdm.Core.Download
import Cdm.Lib.Toml

/-!
# Startup at login

`platform/daemon_autostart.c`: the entry of the user decides, and the first system entry if the
user has none. To enable or disable, an entry of the user's own is rewritten line by line
(`toggle_hidden`), and is read as it was but for the keys that are set (`keyValue_toggled`,
`hidden_toggled`); rewriting it again changes nothing (`toggled_toggled`).

The two functions that go through the lines differ about a line of a single bracket, which is
a heading to `toggle_hidden` and is nothing to `key_value`.
-/

namespace Cdm.Autostart

open Toml (splitLines)

def pathMax : ℕ := 4096

def maxEntrySize : ℕ := 65536

/-- An entry: the text that it is read as, which ends before the first zero byte, and the
    number of bytes from there on. -/
structure EntryFile where
  text : CString
  beyond : ℕ
  deriving DecidableEq

/-- What an account finds: the first system entry, the files that `access` says can be
    executed, `PATH`, and the path of the binary that is running. -/
structure Env where
  system : Option EntryFile
  executables : CString → Bool
  path : Option CString
  exe : CString
  exe_absolute : exe.head? = some '/'
  exe_length : exe.length < pathMax
  exe_executable : executables exe = true

/-! ## Reading -/

inductive EntryState
  | missing
  | failed
  | content (text : CString)

def readEntry : Option EntryFile → EntryState
  | none => .missing
  | some f => if maxEntrySize < f.text.length + f.beyond then .failed else .content f.text

def desktopEntry : CString := "[Desktop Entry]".toList

/-- The line gives the key a value. -/
def Assigns (key line : CString) : Prop := key ++ ['='] <+: line

instance (key line : CString) : Decidable (Assigns key line) :=
  inferInstanceAs (Decidable (key ++ ['='] <+: line))

/-- The state of the loop of `key_value`. -/
structure Scan where
  inSection : Bool
  value : Option CString

def scanLine (key : CString) (size : ℕ) (s : Scan) (line : CString) : Scan :=
  -- A line of a single bracket is not taken for a heading here.
  if 2 ≤ line.length ∧ line.head? = some '[' then { s with inSection := line = desktopEntry }
  else if s.inSection ∧ Assigns key line then
    { s with value := some ((line.drop (key.length + 1)).take (size - 1)) }
  else s

def keyValue (content key : CString) (size : ℕ) : Option CString :=
  ((splitLines content).foldl (scanLine key size) ⟨false, none⟩).value

def executable (env : Env) (value : CString) : Bool :=
  if value = [] then false
  else if '/' ∈ value then env.executables value
  else
    match env.path with
    | none => false
    | some path => ((path.splitOn ':').filter (· ≠ [])).any fun dir =>
        (dir ++ '/' :: value).length < pathMax && env.executables (dir ++ '/' :: value)

def entryEnabled (env : Env) (content : CString) : Bool :=
  keyValue content "Type".toList 32 = some "Application".toList &&
    (keyValue content "Exec".toList pathMax).any (· ≠ []) &&
    keyValue content "Hidden".toList 16 ≠ some "true".toList &&
    (keyValue content "TryExec".toList pathMax).all (executable env)

/-- `none` on an error. -/
def systemEntryEnabled (env : Env) : Option Bool :=
  match readEntry env.system with
  | .missing => some false
  | .failed => none
  | .content text => some (entryEnabled env text)

/-! ## Rewriting an entry -/

def append (capacity : ℕ) (out data : CString) : Option CString :=
  if capacity - out.length ≤ data.length then none else some (out ++ data)

/-- A line with its end. Where the source appends the two one after the other, the second does
    not fit either if the first does not. -/
def appendLine (capacity : ℕ) (out line : CString) : Option CString :=
  append capacity out (line ++ ['\n'])

/-- What the loop of `toggle_hidden` keeps, but for the text. -/
structure Flags where
  inSection : Bool
  hasSection : Bool
  changed : Bool
  extrasAdded : Bool

def hiddenKey (hidden : Bool) : CString :=
  if hidden then "Hidden=true".toList else "Hidden=false".toList

def isHeading (line : CString) : Bool := line.head? = some '['

def Flags.next (f : Flags) (line : CString) : Flags :=
  let inSection := if isHeading line then decide (line = desktopEntry) else f.inSection
  { inSection := inSection
    hasSection := f.hasSection || (isHeading line && inSection)
    changed := f.changed || (isHeading line && f.inSection) ||
      (inSection && decide (Assigns "Hidden".toList line))
    extrasAdded := f.extrasAdded || (isHeading line && f.inSection) }

/-- The lines that a round appends: the keys that are due at the end of a section, and the line
    itself or the key in its place. -/
def Flags.emitted (extras : List CString) (hidden : Bool) (f : Flags) (line : CString) :
    List CString :=
  (if isHeading line && f.inSection && !f.changed then [hiddenKey hidden] else []) ++
    ((if isHeading line && f.inSection && !f.extrasAdded then extras else []) ++
      if (f.next line).inSection && decide (Assigns "Hidden".toList line) then
        if f.changed || (isHeading line && f.inSection) then [] else [hiddenKey hidden]
      else [line])

structure Toggle where
  flags : Flags
  out : CString

def toggleLine (extras : List CString) (hidden : Bool) (capacity : ℕ) (s : Toggle)
    (line : CString) : Option Toggle := do
  let out ← (s.flags.emitted extras hidden line).foldlM (appendLine capacity) s.out
  pure ⟨s.flags.next line, out⟩

/-- A key that `enable` adds if the entry lacks it. -/
def isNeeded (hidden : Bool) (source key : CString) (size : ℕ) : Bool :=
  !hidden && (keyValue source key size).isNone

/-- The keys to add. The line of `Exec` fits its buffer, as the path fits `PATH_MAX`. -/
def extraKeys (env : Env) (hidden : Bool) (source : CString) : List CString :=
  (if isNeeded hidden source "Type".toList 32 then ["Type=Application".toList] else []) ++
    ((if isNeeded hidden source "Name".toList 256 then
        ["Name=Core Download Manager Daemon".toList] else []) ++
      if isNeeded hidden source "Exec".toList pathMax then
        ["Exec=".toList ++ env.exe ++ " daemon".toList] else [])

def startFlags : Flags := ⟨false, false, false, false⟩

def toggleHidden (env : Env) (source : CString) (hidden : Bool) (capacity : ℕ) : Option CString :=
  if isNeeded hidden source "Exec".toList pathMax ∧ env.exe.head? ≠ some '/' then none
  else do
    let extras := extraKeys env hidden source
    let s ← (splitLines source).foldlM (toggleLine extras hidden capacity) ⟨startFlags, []⟩
    if ¬ s.flags.hasSection then none
    else
      ((if s.flags.changed then [] else [hiddenKey hidden]) ++
        (if s.flags.extrasAdded then [] else extras)).foldlM (appendLine capacity) s.out

/-! ## The commands -/

inductive AutostartAction
  | wrote
  | updated
  | removed
  | usingSystem
  deriving DecidableEq

/-- An entry is written whole, over one that can be read or none. -/
def writeEntry (user : Option EntryFile) (content : CString) : Option (Option EntryFile) :=
  match readEntry user with
  | .failed => none
  | _ => some (some ⟨content, 0⟩)

/-- The entry that disables. -/
def overrideEntry : CString :=
  "[Desktop Entry]\nType=Application\nName=Core Download Manager Daemon\n".toList ++
    "Hidden=true\nX-CDM-Generated=true\n".toList

/-- The entry that enables. -/
def generatedEntry (env : Env) : CString :=
  "[Desktop Entry]\nType=Application\nName=Core Download Manager Daemon\nExec=".toList ++ env.exe ++
    " daemon\nTryExec=".toList ++ env.exe ++
    "\nTerminal=false\nNoDisplay=true\nHidden=false\nX-CDM-Generated=true\n".toList

def isGenerated (content : CString) : Bool :=
  keyValue content "X-CDM-Generated".toList 16 = some "true".toList

/-- The end of `set_enabled`, for an account that has to have an entry to be enabled. -/
def generateEntry (env : Env) (user : Option EntryFile) (hadEntry : Bool) :
    Option (AutostartAction × Option EntryFile) :=
  if env.exe.head? ≠ some '/' then none
  else if 2 * pathMax ≤ (generatedEntry env).length then none
  else (writeEntry user (generatedEntry env)).map
    fun user => (if hadEntry then .updated else .wrote, user)

/-- What is done and the entry of the user then, or nothing if it fails. -/
def setEnabled (env : Env) (enabled : Bool) (user : Option EntryFile) :
    Option (AutostartAction × Option EntryFile) :=
  match readEntry user with
  | .failed => none
  | .content current =>
    if enabled && isGenerated current then
      match systemEntryEnabled env with
      | none => none
      -- The system entry will do: the one that was generated is removed.
      | some true => some (.removed, none)
      | some false => generateEntry env user true
    else
      -- The entry of the user's own is rewritten.
      match toggleHidden env current (!enabled) (maxEntrySize + 128) with
      | none => none
      | some updated => (writeEntry user updated).map fun user => (.updated, user)
  | .missing =>
    if !enabled then (writeEntry user overrideEntry).map fun user => (.wrote, user)
    else
      match systemEntryEnabled env with
      | none => none
      | some true => some (.usingSystem, user)
      | some false => generateEntry env user false

inductive AutostartState
  | enabled
  | disabled
  | unavailable
  deriving DecidableEq

/-- What is reported of the startup, or the code of the failure. `daemonState` is what is found
    out about the daemon, negative if it is not. -/
def showStatus (env : Env) (daemonState : ℤ) (user : Option EntryFile) : Except ℤ AutostartState :=
  let report (content : Option CString) : Except ℤ AutostartState :=
    if daemonState < 0 then .error (-2)
    else
      match content with
      | none => .ok .unavailable
      | some content => .ok (if entryEnabled env content then .enabled else .disabled)
  match readEntry user with
  | .failed => .error (-1)
  | .content content => report (some content)
  | .missing =>
    match readEntry env.system with
    | .failed => .error (-1)
    | .missing => report none
    | .content content => report (some content)

/-! ## The text of the rewritten entry -/

/-- The lines of a text, each with its end. -/
def unlines (ls : List CString) : CString := ls.flatMap (· ++ ['\n'])

/-- What the rounds of the loop append. -/
def Flags.emits (extras : List CString) (hidden : Bool) : Flags → List CString → List CString
  | _, [] => []
  | f, l :: ls => f.emitted extras hidden l ++ (f.next l).emits extras hidden ls

def Flags.after (f : Flags) (ls : List CString) : Flags := ls.foldl Flags.next f

/-- What is appended behind the loop. -/
def Flags.rest (extras : List CString) (hidden : Bool) (f : Flags) : List CString :=
  (if f.changed then [] else [hiddenKey hidden]) ++ (if f.extrasAdded then [] else extras)

/-- The lines of the rewritten entry. -/
def toggled (extras : List CString) (hidden : Bool) (ls : List CString) : List CString :=
  startFlags.emits extras hidden ls ++ (startFlags.after ls).rest extras hidden

variable {extras es ls : List CString} {hidden : Bool} {capacity : ℕ} {out line key : CString}
  {f g : Flags}

theorem foldlM_appendLine (h : out.length < capacity) :
    es.foldlM (appendLine capacity) out =
      if (out ++ unlines es).length < capacity then some (out ++ unlines es) else none := by
  induction es generalizing out with
  | nil => simp [unlines, h]
  | cons e es ih =>
    have hcons : out ++ unlines (e :: es) = (out ++ (e ++ ['\n'])) ++ unlines es :=
      (List.append_assoc _ _ _).symm
    rw [List.foldlM_cons, appendLine, append, hcons]
    by_cases hfull : capacity - out.length ≤ (e ++ ['\n']).length
    · rw [if_pos hfull, if_neg]
      · rfl
      · rw [List.length_append, List.length_append]
        omega
    · rw [if_neg hfull, Option.bind_eq_bind, Option.bind_some, ih]
      rw [List.length_append]
      omega

theorem foldlM_toggleLine (f : Flags) (h : out.length < capacity) :
    ls.foldlM (toggleLine extras hidden capacity) ⟨f, out⟩ =
      if (out ++ unlines (f.emits extras hidden ls)).length < capacity then
        some ⟨f.after ls, out ++ unlines (f.emits extras hidden ls)⟩
      else none := by
  induction ls generalizing f out with
  | nil => simp [unlines, Flags.emits, Flags.after, h]
  | cons l ls ih =>
    have hout : unlines (f.emits extras hidden (l :: ls)) =
        unlines (f.emitted extras hidden l) ++ unlines ((f.next l).emits extras hidden ls) := by
      rw [Flags.emits, unlines, List.flatMap_append]
      rfl
    rw [List.foldlM_cons, toggleLine, foldlM_appendLine h, hout, ← List.append_assoc]
    by_cases hfits : (out ++ unlines (f.emitted extras hidden l)).length < capacity
    · rw [if_pos hfits]
      exact ih (f.next l) hfits
    · rw [if_neg hfits, if_neg]
      · rfl
      · rw [List.length_append]
        omega

/-- An entry with the section is rewritten, if the text fits. -/
theorem toggleHidden_eq (env : Env) (source : CString) (hidden : Bool) (hcap : 0 < capacity) :
    toggleHidden env source hidden capacity =
      if (startFlags.after (splitLines source)).hasSection = true ∧
          (unlines (toggled (extraKeys env hidden source) hidden
            (splitLines source))).length < capacity then
        some (unlines (toggled (extraKeys env hidden source) hidden (splitLines source)))
      else none := by
  have hout : ∀ f : Flags, unlines (f.emits (extraKeys env hidden source) hidden
        (splitLines source) ++ (f.after (splitLines source)).rest (extraKeys env hidden source)
          hidden) =
      unlines (f.emits (extraKeys env hidden source) hidden (splitLines source)) ++
        unlines ((f.after (splitLines source)).rest (extraKeys env hidden source) hidden) :=
    fun f => List.flatMap_append
  rw [toggleHidden, if_neg (fun h => h.2 env.exe_absolute), toggled, hout]
  dsimp only
  rw [foldlM_toggleLine startFlags (by simpa using hcap), List.nil_append]
  by_cases hfits : (unlines (startFlags.emits (extraKeys env hidden source) hidden
      (splitLines source))).length < capacity
  · rw [if_pos hfits]
    by_cases hsec : (startFlags.after (splitLines source)).hasSection = true
    · simp only [Option.bind_eq_bind, Option.bind_some, hsec, not_true_eq_false, if_false, true_and]
      exact foldlM_appendLine hfits
    · simp [hsec]
  · rw [if_neg hfits, if_neg]
    · rfl
    · rw [List.length_append]
      omega

/-! ## Where the loops are -/

/-- What a section that was found comes to: the loop is in it, or was through with one. -/
structure Flags.Ok (f : Flags) : Prop where
  found : f.inSection = true → f.hasSection = true
  done : f.hasSection = true → f.inSection = true ∨ f.changed = true ∧ f.extrasAdded = true

theorem Flags.Ok.next (h : f.Ok) (line : CString) : (f.next line).Ok := by
  obtain ⟨hfound, hdone⟩ := h
  by_cases hhead : isHeading line = true
  · constructor <;> simp only [Flags.next, hhead, if_true, Bool.true_and, Bool.or_eq_true,
      Bool.and_eq_true]
    · exact fun hin => .inr hin
    · -- The section that the line ends got its keys.
      rintro (hsec | hin)
      · rcases hdone hsec with hin | ⟨hchanged, hextras⟩
        · exact .inr ⟨.inl (.inr hin), .inr hin⟩
        · exact .inr ⟨.inl (.inl hchanged), .inl hextras⟩
      · exact .inl hin
  · constructor <;> simp only [Flags.next, hhead, Bool.false_eq_true, if_false, Bool.false_and,
      Bool.or_false, Bool.or_eq_true]
    · exact hfound
    · intro hsec
      exact (hdone hsec).imp_right fun h => ⟨.inl h.1, h.2⟩

theorem Flags.Ok.after (h : f.Ok) (ls : List CString) : (f.after ls).Ok := by
  induction ls generalizing f with
  | nil => exact h
  | cons l ls ih => exact ih (h.next l)

theorem startFlags_ok : startFlags.Ok := ⟨(nomatch ·), (nomatch ·)⟩

/-- A key that is neither `Hidden` nor begins as an assignment to it, and not as a heading. -/
structure IsOther (key : CString) : Prop where
  not_hidden : ¬Assigns "Hidden".toList (key ++ ['='])
  head?_ne : key.head? ≠ some '['

theorem not_assigns_of_heading (hkey : key.head? ≠ some '[') (h : isHeading line = true) :
    ¬Assigns key line := by
  rintro ⟨rest, rfl⟩
  have hhead : (key ++ ['='] ++ rest).head? = some '[' := of_decide_eq_true h
  cases key with
  | nil => exact absurd hhead (by simp)
  | cons c k => exact hkey hhead

theorem scanLine_of_not {size : ℕ} {s : Scan} (hhead : isHeading line = false)
    (h : ¬(s.inSection = true ∧ Assigns key line)) : scanLine key size s line = s := by
  rw [scanLine, if_neg, if_neg h]
  exact fun hh => absurd (decide_eq_true hh.2) (by rw [isHeading] at hhead; simp [hhead])

theorem scanLine_of_assigns {size : ℕ} {s : Scan} (hhead : isHeading line = false)
    (hin : s.inSection = true) (h : Assigns key line) : scanLine key size s line =
      { s with value := some ((line.drop (key.length + 1)).take (size - 1)) } := by
  rw [scanLine, if_neg, if_pos ⟨hin, h⟩]
  exact fun hh => absurd (decide_eq_true hh.2) (by rw [isHeading] at hhead; simp [hhead])

theorem scanLine_of_heading {size : ℕ} {s : Scan} (hkey : key.head? ≠ some '[')
    (hhead : isHeading line = true) : scanLine key size s line =
      { s with inSection := if 2 ≤ line.length then decide (line = desktopEntry) else s.inSection } := by
  have h : line.head? = some '[' := of_decide_eq_true hhead
  rw [scanLine]
  by_cases hlen : 2 ≤ line.length
  · rw [if_pos ⟨hlen, h⟩, if_pos hlen]
  · rw [if_neg fun hh => hlen hh.1, if_neg fun hh => not_assigns_of_heading hkey hhead hh.2,
      if_neg hlen]

/-! ## A round of the loop -/

theorem not_hidden_of_heading (h : isHeading line = true) : ¬Assigns "Hidden".toList line :=
  not_assigns_of_heading (by decide) h

theorem Flags.next_heading (h : isHeading line = true) : f.next line =
    ⟨decide (line = desktopEntry), f.hasSection || decide (line = desktopEntry),
      f.changed || f.inSection, f.extrasAdded || f.inSection⟩ := by
  simp only [Flags.next, h, if_true, Bool.true_and, decide_eq_false (not_hidden_of_heading h),
    Bool.and_false, Bool.or_false]

theorem Flags.next_of_not (h : isHeading line = false) : f.next line =
    { f with changed := f.changed || (f.inSection && decide (Assigns "Hidden".toList line)) } := by
  simp [Flags.next, h]

/-- The section that a heading ends gets its keys. -/
theorem Flags.emitted_heading (h : isHeading line = true) : f.emitted extras hidden line =
    (if f.inSection && !f.changed then [hiddenKey hidden] else []) ++
      ((if f.inSection && !f.extrasAdded then extras else []) ++ [line]) := by
  simp only [Flags.emitted, h, Bool.true_and, decide_eq_false (not_hidden_of_heading h),
    Bool.and_false, Bool.false_eq_true, if_false]

/-- The first of the keys is replaced, the others are left out. -/
theorem Flags.emitted_hidden (h : isHeading line = false) (hin : f.inSection = true)
    (hkey : Assigns "Hidden".toList line) :
    f.emitted extras hidden line = if f.changed then [] else [hiddenKey hidden] := by
  simp only [Flags.emitted, Flags.next, h, hin, decide_eq_true hkey, Bool.false_and, Bool.or_false,
    Bool.false_eq_true, if_false, List.nil_append, Bool.and_true, if_true]

theorem Flags.emitted_other (h : isHeading line = false)
    (hkey : ¬(f.inSection = true ∧ Assigns "Hidden".toList line)) :
    f.emitted extras hidden line = [line] := by
  simp only [Flags.emitted, Flags.next, h, Bool.false_and, Bool.false_eq_true, if_false,
    List.nil_append, Bool.and_eq_true, decide_eq_true_eq]
  rw [if_neg hkey]

/-! ## The other keys -/

/-- Keys as they are added: lines that are no headings and do not hide or show. -/
def IsPlain (line : CString) : Prop :=
  isHeading line = false ∧ ¬Assigns "Hidden".toList line

theorem isPlain_hiddenKey : isHeading (hiddenKey hidden) = false := by cases hidden <;> rfl

/-- Two keys that a line gives a value are the same, or the longer one begins as an assignment
    to the other one. -/
theorem assigns_or_assigns {k : CString} (h : Assigns key line) (h' : Assigns k line) :
    Assigns key (k ++ ['=']) ∨ Assigns k (key ++ ['=']) :=
  List.prefix_or_prefix_of_prefix h h'

theorem not_assigns_of_hidden (hkey : IsOther key) (h : Assigns "Hidden".toList line) :
    ¬Assigns key line := by
  intro hassigns
  rcases assigns_or_assigns hassigns h with hlong | hlong
  · -- There is a single equals sign in it, the last character.
    rcases List.prefix_concat_iff.1 hlong with heq | hshort
    · exact hkey.not_hidden (heq ▸ List.prefix_rfl)
    · have hmem : '=' ∈ "Hidden".toList := hshort.subset (by simp)
      exact absurd hmem (by decide)
  · exact hkey.not_hidden hlong

theorem assigns_hiddenKey : Assigns "Hidden".toList (hiddenKey hidden) := by
  cases hidden <;> decide

/-- How the entry that is written is read, compared to the one that was there. -/
structure Follows (v : Option CString) (f : Flags) (s t : Scan) : Prop where
  inSection : t.inSection = s.inSection
  inside : f.inSection = true → s.inSection = true
  value : t.value = if f.extrasAdded then v.or s.value else s.value

variable {size : ℕ} {s t : Scan} {v : Option CString}

/-- Once found, a key is found. -/
theorem value_isSome_scanLine (h : s.value.isSome = true) :
    (scanLine key size s line).value.isSome = true := by
  rw [scanLine]
  split_ifs
  · exact h
  · rfl
  · exact h

theorem value_isSome_foldl (key : CString) (size : ℕ) (ls : List CString) (h : s.value.isSome = true) :
    (ls.foldl (scanLine key size) s).value.isSome = true := by
  induction ls generalizing s with
  | nil => exact h
  | cons l ls ih => exact ih (value_isSome_scanLine h)

/-- A round of both loops, for a key that the keys added give the value `v`, if any. -/
theorem Follows.next (hkey : IsOther key) (h : Follows v f s t)
    (hextras : ∀ t : Scan, t.inSection = true →
      extras.foldl (scanLine key size) t = { t with value := v.or t.value })
    (hnone : v = none ∨ (scanLine key size s line).value = none) :
    Follows v (f.next line) (scanLine key size s line)
      ((f.emitted extras hidden line).foldl (scanLine key size) t) := by
  obtain ⟨hsec, hin, hval⟩ := h
  have hhidden : ∀ t : Scan, scanLine key size t (hiddenKey hidden) = t := fun t =>
    scanLine_of_not isPlain_hiddenKey fun hh => not_assigns_of_hidden hkey assigns_hiddenKey hh.2
  by_cases hhead : isHeading line = true
  · -- The keys that are added at the end of the section are read in it.
    have hadded : ((if f.inSection && !f.extrasAdded then extras else []).foldl
        (scanLine key size) t).inSection = s.inSection ∧
      ((if f.inSection && !f.extrasAdded then extras else []).foldl (scanLine key size) t).value =
        if f.extrasAdded || f.inSection then v.or s.value else s.value := by
      by_cases hdue : (f.inSection && !f.extrasAdded) = true
      · rw [if_pos hdue]
        rw [Bool.and_eq_true, Bool.not_eq_true'] at hdue
        rw [hextras t (hsec.trans (hin hdue.1)), hval, hdue.1, hdue.2]
        exact ⟨hsec, rfl⟩
      · rw [if_neg hdue]
        refine ⟨hsec, ?_⟩
        rw [List.foldl_nil, hval]
        cases h₁ : f.inSection <;> cases h₂ : f.extrasAdded <;> simp_all
    have hdesk : line = desktopEntry → 2 ≤ line.length := by
      rintro rfl
      decide
    have hkeys : ∀ t : Scan, ((if f.inSection && !f.changed then [hiddenKey hidden] else []).foldl
        (scanLine key size) t) = t := fun t => by
      split_ifs
      · exact hhidden t
      · rfl
    rw [Flags.emitted_heading hhead, Flags.next_heading hhead, List.foldl_append, hkeys,
      List.foldl_append, List.foldl_cons, List.foldl_nil,
      scanLine_of_heading hkey.head?_ne hhead,
      scanLine_of_heading hkey.head?_ne hhead]
    refine ⟨?_, fun hd => ?_, hadded.2⟩
    · rw [hadded.1]
    · rw [if_pos (hdesk (of_decide_eq_true hd))]
      exact hd
  · have hplain : isHeading line = false := by simpa using hhead
    rw [Flags.next_of_not hplain]
    by_cases hkeyline : f.inSection = true ∧ Assigns "Hidden".toList line
    · -- The key in question is not read from the line, nor from the one in its place.
      rw [Flags.emitted_hidden hplain hkeyline.1 hkeyline.2,
        scanLine_of_not hplain fun hh => not_assigns_of_hidden hkey hkeyline.2 hh.2]
      have hsame : (if f.changed then [] else [hiddenKey hidden]).foldl (scanLine key size) t = t := by
        split_ifs
        · rfl
        · exact hhidden t
      rw [hsame]
      exact ⟨hsec, hin, hval⟩
    · rw [Flags.emitted_other hplain hkeyline, List.foldl_cons, List.foldl_nil]
      -- Any other line is kept, and read as before.
      by_cases hreads : s.inSection = true ∧ Assigns key line
      · rw [scanLine_of_assigns hplain hreads.1 hreads.2] at hnone ⊢
        rw [scanLine_of_assigns hplain (hsec.trans hreads.1) hreads.2]
        refine ⟨hsec, hin, ?_⟩
        rcases hnone with rfl | hnone
        · simp
        · exact absurd hnone (Option.some_ne_none _)
      · rw [scanLine_of_not hplain hreads, scanLine_of_not hplain (hsec ▸ hreads)]
        exact ⟨hsec, hin, hval⟩

/-- The loops over a whole entry. -/
theorem Follows.after (hidden : Bool) (hkey : IsOther key) (h : Follows v f s t)
    (hextras : ∀ t : Scan, t.inSection = true →
      extras.foldl (scanLine key size) t = { t with value := v.or t.value })
    (hnone : v = none ∨ (ls.foldl (scanLine key size) s).value = none) :
    Follows v (f.after ls) (ls.foldl (scanLine key size) s)
      ((f.emits extras hidden ls).foldl (scanLine key size) t) := by
  induction ls generalizing f s t with
  | nil => exact h
  | cons l ls ih =>
    have hline : v = none ∨ (scanLine key size s l).value = none := by
      refine hnone.imp_right fun hn => ?_
      by_contra hsome
      have hlast := value_isSome_foldl key size ls
        (Option.isSome_iff_ne_none.2 hsome)
      rw [List.foldl_cons] at hn
      rw [hn] at hlast
      exact Bool.false_ne_true hlast
    rw [Flags.emits, List.foldl_append]
    exact ih (h.next hkey hextras hline) hnone

theorem mem_emits {l : CString} (h : l ∈ f.emits extras hidden ls) :
    l ∈ ls ∨ l = hiddenKey hidden ∨ l ∈ extras := by
  induction ls generalizing f with
  | nil => exact absurd h List.not_mem_nil
  | cons line ls ih =>
    rcases List.mem_append.1 h with h | h
    · rw [Flags.emitted, List.mem_append, List.mem_append] at h
      rcases h with h | h | h
      · exact .inr (.inl (List.mem_singleton.1 (List.mem_ite_nil_right.1 h).2))
      · exact .inr (.inr (List.mem_ite_nil_right.1 h).2)
      · by_cases hkey : ((f.next line).inSection && decide (Assigns "Hidden".toList line)) = true
        · rw [if_pos hkey] at h
          exact .inr (.inl (List.mem_singleton.1 (List.mem_ite_nil_left.1 h).2))
        · rw [if_neg hkey, List.mem_singleton] at h
          exact .inl (h ▸ List.mem_cons_self)
    · exact (ih h).imp_left (List.mem_cons_of_mem _)

theorem mem_toggled {l : CString} (h : l ∈ toggled extras hidden ls) :
    l ∈ ls ∨ l = hiddenKey hidden ∨ l ∈ extras := by
  rcases List.mem_append.1 h with h | h
  · exact mem_emits h
  · rw [Flags.rest, List.mem_append] at h
    rcases h with h | h
    · exact .inr (.inl (List.mem_singleton.1 (List.mem_ite_nil_left.1 h).2))
    · exact .inr (.inr (List.mem_ite_nil_left.1 h).2)

/-- The rewritten entry is read line by line as it was put together. -/
theorem splitLines_toggled (source : CString) (hextras : ∀ l ∈ extras, '\n' ∉ l) :
    splitLines (unlines (toggled extras hidden (splitLines source))) =
      toggled extras hidden (splitLines source) := by
  refine Toml.splitLines_flatMap fun l hl => ?_
  rcases mem_toggled hl with h | rfl | h
  · exact Toml.newline_notMem_splitLines h
  · cases hidden <;> decide
  · exact hextras l h

/-- The section that the loop ends in, if the last one got no keys. -/
theorem inSection_of_not_changed (h : f.Ok) (hsec : f.hasSection = true)
    (hdue : f.changed = false ∨ f.extrasAdded = false) : f.inSection = true := by
  rcases h.done hsec with h | ⟨h₁, h₂⟩
  · exact h
  · rw [h₁, h₂] at hdue
    exact absurd hdue (by decide)

/-- A key is read from the rewritten entry as it was, or as it was added. -/
theorem keyValue_toggled (source : CString) (hkey : IsOther key)
    (hsec : (startFlags.after (splitLines source)).hasSection = true)
    (hlines : ∀ l ∈ extras, '\n' ∉ l)
    (hextras : ∀ t : Scan, t.inSection = true →
      extras.foldl (scanLine key size) t = { t with value := v.or t.value })
    (hnone : v = none ∨ keyValue source key size = none) :
    keyValue (unlines (toggled extras hidden (splitLines source))) key size =
      v.or (keyValue source key size) := by
  have hstart : Follows v startFlags ⟨false, none⟩ ⟨false, none⟩ := ⟨rfl, id, rfl⟩
  have hend := hstart.after hidden hkey hextras hnone
  have hdone := inSection_of_not_changed (startFlags_ok.after (splitLines source)) hsec
  rw [keyValue, keyValue, splitLines_toggled source hlines, toggled, List.foldl_append, Flags.rest,
    List.foldl_append]
  generalize startFlags.after (splitLines source) = f at hend hdone
  generalize (startFlags.emits extras hidden (splitLines source)).foldl (scanLine key size)
    ⟨false, none⟩ = t at hend
  have hhidden : (if f.changed then [] else [hiddenKey hidden]).foldl (scanLine key size) t = t := by
    split_ifs
    · rfl
    · exact scanLine_of_not isPlain_hiddenKey fun hh => not_assigns_of_hidden hkey assigns_hiddenKey hh.2
  rw [hhidden]
  by_cases hadded : f.extrasAdded = true
  · rw [if_pos hadded, List.foldl_nil, hend.value, if_pos hadded]
  · -- They are added behind the last line, which is in the section.
    have hin := hend.inside (hdone (.inr (by simpa using hadded)))
    rw [if_neg hadded, hextras t (hend.inSection.trans hin), hend.value, if_neg hadded]

/-! ## The key that is set -/

/-- Where a line stands: outside of the section, in it, or in it behind a single bracket. -/
inductive Place
  | outside
  | inside
  | behind
  deriving DecidableEq

def Place.next (p : Place) (line : CString) : Place :=
  if ¬isHeading line then p
  else if line = desktopEntry then .inside
  else if line = ['['] ∧ p ≠ .outside then .behind
  else .outside

def strayStep (p : Place × Option CString) (line : CString) : Place × Option CString :=
  (p.1.next line,
    if p.1 = .behind ∧ Assigns "Hidden".toList line then some ((line.drop 7).take 15) else p.2)

/-- The last value that `Hidden` is given behind a single bracket. -/
def strayHidden (content : CString) : Option CString :=
  ((splitLines content).foldl strayStep (.outside, none)).2

/-- How `Hidden` is read from the entry that is written. -/
structure Tracks (hidden : Bool) (f : Flags) (p : Place × Option CString) (t : Scan) : Prop where
  inSection : t.inSection = true ↔ p.1 ≠ .outside
  inside : f.inSection = true ↔ p.1 = .inside
  behind : p.1 = .behind → f.changed = true
  stray : p.2 ≠ none → f.changed = true
  value : t.value = p.2.or (if f.changed then some ((hiddenKey hidden).drop 7) else none)

variable {p : Place × Option CString}

theorem scanLine_hiddenKey (t : Scan) (h : t.inSection = true) :
    scanLine "Hidden".toList 16 t (hiddenKey hidden) =
      { t with value := some ((hiddenKey hidden).drop 7) } := by
  rw [scanLine_of_assigns isPlain_hiddenKey h assigns_hiddenKey]
  cases hidden <;> rfl

theorem scanLine_plain (t : Scan) (h : IsPlain line) : scanLine "Hidden".toList 16 t line = t :=
  scanLine_of_not h.1 fun hh => h.2 hh.2

theorem foldl_scanLine_plain (t : Scan) (h : ∀ l ∈ es, IsPlain l) :
    es.foldl (scanLine "Hidden".toList 16) t = t := by
  induction es with
  | nil => rfl
  | cons e es ih =>
    rw [List.foldl_cons, scanLine_plain t (h e List.mem_cons_self)]
    exact ih fun l hl => h l (List.mem_cons_of_mem _ hl)

/-- Where a heading leads to. -/
theorem Place.next_heading (hhead : isHeading line = true) (p : Place) :
    (p.next line = .inside ↔ line = desktopEntry) ∧
      (p.next line ≠ .outside ↔
        if 2 ≤ line.length then line = desktopEntry else p ≠ .outside) ∧
      (p.next line = .behind → p ≠ .outside) := by
  have hlong : 2 ≤ line.length ↔ line ≠ ['['] := by
    have hhead' : line.head? = some '[' := of_decide_eq_true hhead
    match line, hhead' with
    | [c], h => simp_all
    | c :: d :: l, h => simp
  rw [Place.next, if_neg (not_not.2 hhead)]
  by_cases hdesk : line = desktopEntry
  · have htwo : 2 ≤ line.length := by rw [hdesk]; decide
    rw [if_pos hdesk, if_pos htwo]
    exact ⟨iff_of_true rfl hdesk, iff_of_true (by decide) hdesk, (nomatch ·)⟩
  · rw [if_neg hdesk]
    by_cases hone : line = ['[']
    · rw [if_neg (mt hlong.1 (not_not.2 hone))]
      by_cases hp : p = .outside
      · rw [if_neg fun h => h.2 hp]
        exact ⟨iff_of_false (by decide) hdesk, iff_of_false (not_not.2 rfl) (not_not.2 hp),
          (nomatch ·)⟩
      · rw [if_pos ⟨hone, hp⟩]
        exact ⟨iff_of_false (by decide) hdesk, iff_of_true (by decide) hp, fun _ => hp⟩
    · rw [if_neg fun h => hone h.1, if_pos (hlong.2 hone)]
      exact ⟨iff_of_false (by decide) hdesk, iff_of_false (not_not.2 rfl) hdesk, (nomatch ·)⟩

theorem Tracks.next (h : Tracks hidden f p t) (hextras : ∀ l ∈ extras, IsPlain l) :
    Tracks hidden (f.next line) (strayStep p line)
      ((f.emitted extras hidden line).foldl (scanLine "Hidden".toList 16) t) := by
  obtain ⟨hsec, hin, hbehind, hstray, hval⟩ := h
  by_cases hhead : isHeading line = true
  · obtain ⟨hinside, houtside, hlone⟩ := Place.next_heading hhead p.1
    have hkeep : (strayStep p line).2 = p.2 :=
      if_neg fun hh => not_hidden_of_heading hhead hh.2
    -- The key is set at the end of the section, if it was not before.
    have hset : ∃ t' : Scan, ((if f.inSection && !f.changed then [hiddenKey hidden] else []).foldl
        (scanLine "Hidden".toList 16) t) = t' ∧ t'.inSection = t.inSection ∧
        t'.value = p.2.or (if f.changed || f.inSection then
          some ((hiddenKey hidden).drop 7) else none) := by
      by_cases hdue : (f.inSection && !f.changed) = true
      · rw [if_pos hdue]
        rw [Bool.and_eq_true, Bool.not_eq_true'] at hdue
        have hopen : t.inSection = true := hsec.2 (by rw [hin.1 hdue.1]; decide)
        have hnone : p.2 = none := by
          by_contra hsome
          rw [hstray hsome] at hdue
          exact absurd hdue.2 (by decide)
        refine ⟨_, scanLine_hiddenKey t hopen, rfl, ?_⟩
        rw [hnone, hdue.1, Bool.or_true, if_pos rfl, Option.none_or]
      · refine ⟨t, by rw [if_neg hdue]; rfl, rfl, ?_⟩
        rw [hval]
        cases h₁ : f.inSection <;> cases h₂ : f.changed <;> simp_all
    obtain ⟨t', hset, hsame, hvalue⟩ := hset
    have hadded : (if f.inSection && !f.extrasAdded then extras else []).foldl
        (scanLine "Hidden".toList 16) t' = t' := by
      split_ifs
      · exact foldl_scanLine_plain t' hextras
      · rfl
    rw [Flags.emitted_heading hhead, Flags.next_heading hhead, List.foldl_append, hset,
      List.foldl_append, hadded, List.foldl_cons, List.foldl_nil,
      scanLine_of_heading (by decide) hhead]
    refine ⟨Iff.trans ?_ houtside.symm, decide_eq_true_iff.trans hinside.symm, fun hb => ?_,
      fun hs => ?_, ?_⟩
    · by_cases hlen : 2 ≤ line.length
      · simp only [hlen, if_true, decide_eq_true_eq]
      · simp only [hlen, if_false, hsame]
        exact hsec
    · cases hp : p.1 with
      | outside => exact absurd hp (hlone hb)
      | inside => exact Bool.or_eq_true_iff.2 (.inr (hin.2 hp))
      | behind => exact Bool.or_eq_true_iff.2 (.inl (hbehind hp))
    · rw [hkeep] at hs
      exact Bool.or_eq_true_iff.2 (.inl (hstray hs))
    · rw [hkeep]
      exact hvalue
  · have hplain : isHeading line = false := by simpa using hhead
    have hplace : (strayStep p line).1 = p.1 := if_pos hhead
    rw [Flags.next_of_not hplain]
    by_cases hkey : f.inSection = true ∧ Assigns "Hidden".toList line
    · -- The first of the keys in the section is where the key is set.
      have hplace' := hin.1 hkey.1
      have hkeep : (strayStep p line).2 = p.2 := if_neg fun hh => by
        rw [hplace'] at hh
        exact absurd hh.1 (by decide)
      have hopen : t.inSection = true := hsec.2 (by rw [hplace']; decide)
      have hset : (if f.changed then [] else [hiddenKey hidden]).foldl
          (scanLine "Hidden".toList 16) t =
            { t with value := p.2.or (some ((hiddenKey hidden).drop 7)) } := by
        by_cases hdue : f.changed = true
        · rw [if_pos hdue] at hval
          rw [if_pos hdue, ← hval]
          rfl
        · have hnone : p.2 = none := by
            by_contra hsome
            exact hdue (hstray hsome)
          rw [if_neg hdue, hnone]
          exact scanLine_hiddenKey t hopen
      rw [Flags.emitted_hidden hplain hkey.1 hkey.2, hset, hkey.1, decide_eq_true hkey.2]
      refine ⟨?_, ?_, fun _ => Bool.or_true _, fun _ => Bool.or_true _, ?_⟩
      · rw [hplace]
        exact hsec
      · rw [hplace]
        exact iff_of_true rfl hplace'
      · rw [hkeep]
        simp
    · have hsame : (f.changed || (f.inSection && decide (Assigns "Hidden".toList line))) =
          f.changed := by
        rw [Bool.or_eq_left_iff_imp, Bool.and_eq_true, decide_eq_true_iff]
        exact fun hh => absurd hh hkey
      rw [Flags.emitted_other hplain hkey, hsame, List.foldl_cons, List.foldl_nil]
      by_cases hread : p.1 = .behind ∧ Assigns "Hidden".toList line
      · -- Behind a bracket the line is kept, and is read.
        have hopen : t.inSection = true := hsec.2 (by rw [hread.1]; decide)
        have hnew : (strayStep p line).2 = some ((line.drop 7).take 15) := if_pos hread
        rw [scanLine_of_assigns hplain hopen hread.2]
        refine ⟨?_, ?_, fun _ => hbehind hread.1, fun _ => hbehind hread.1, ?_⟩
        · rw [hplace]
          exact hsec
        · rw [hplace]
          exact hin
        · rw [hnew]
          rfl
      · have hkeep : (strayStep p line).2 = p.2 := if_neg hread
        rw [scanLine_of_not hplain]
        · refine ⟨?_, ?_, ?_, ?_, ?_⟩
          · rw [hplace]
            exact hsec
          · rw [hplace]
            exact hin
          · rw [hplace]
            exact hbehind
          · rw [hkeep]
            exact hstray
          · rw [hkeep]
            exact hval
        · rintro ⟨hopen, hassigns⟩
          cases hp : p.1 with
          | outside => exact hsec.1 hopen hp
          | inside => exact hkey ⟨hin.2 hp, hassigns⟩
          | behind => exact hread ⟨hp, hassigns⟩

theorem Tracks.after (ls : List CString) (h : Tracks hidden f p t) (hextras : ∀ l ∈ extras, IsPlain l) :
    Tracks hidden (f.after ls) (ls.foldl strayStep p)
      ((f.emits extras hidden ls).foldl (scanLine "Hidden".toList 16) t) := by
  induction ls generalizing f p t with
  | nil => exact h
  | cons l ls ih =>
    rw [Flags.emits, List.foldl_append]
    exact ih (h.next hextras)

/-- `Hidden` is read as it was set, or as it is given behind a single bracket. -/
theorem hidden_toggled (source : CString) (hextras : ∀ l ∈ extras, IsPlain l)
    (hlines : ∀ l ∈ extras, '\n' ∉ l)
    (hsec : (startFlags.after (splitLines source)).hasSection = true) :
    keyValue (unlines (toggled extras hidden (splitLines source))) "Hidden".toList 16 =
      (strayHidden source).or (some ((hiddenKey hidden).drop 7)) := by
  have hstart : Tracks hidden startFlags (.outside, none) ⟨false, none⟩ :=
    ⟨by decide, by decide, (nomatch ·), fun h => absurd rfl h, rfl⟩
  have hend := hstart.after (splitLines source) hextras
  have hdone := inSection_of_not_changed (startFlags_ok.after (splitLines source)) hsec
  rw [keyValue, strayHidden, splitLines_toggled source hlines, toggled, List.foldl_append,
    Flags.rest, List.foldl_append]
  generalize startFlags.after (splitLines source) = f at hend hdone
  generalize (startFlags.emits extras hidden (splitLines source)).foldl
    (scanLine "Hidden".toList 16) ⟨false, none⟩ = t at hend
  generalize (splitLines source).foldl strayStep (.outside, none) = p at hend
  have hrest : ∀ t : Scan, (if f.extrasAdded then [] else extras).foldl
      (scanLine "Hidden".toList 16) t = t := fun t => by
    split_ifs
    · rfl
    · exact foldl_scanLine_plain t hextras
  rw [hrest]
  by_cases hchanged : f.changed = true
  · rw [if_pos hchanged, List.foldl_nil, hend.value, if_pos hchanged]
  · have hnone : p.2 = none := by
      by_contra hsome
      exact hchanged (hend.stray hsome)
    have hopen : t.inSection = true :=
      hend.inSection.2 (by rw [hend.inside.1 (hdone (.inl (by simpa using hchanged)))]; decide)
    rw [if_neg hchanged, hnone]
    exact congrArg Scan.value (scanLine_hiddenKey t hopen)

/-! ## What is behind a single bracket -/

theorem inside_next {q : Place} (line : CString) (hin : f.inSection = true ↔ q = .inside) :
    (f.next line).inSection = true ↔ q.next line = .inside := by
  by_cases hhead : isHeading line = true
  · rw [Flags.next_heading hhead, (Place.next_heading hhead q).1, decide_eq_true_iff]
  · rw [Flags.next_of_not (by simpa using hhead), Place.next, if_pos hhead]
    exact hin

theorem strayStep_plain (h : IsPlain line) : strayStep p line = p := by
  rw [strayStep, Place.next, if_pos (by simp [h.1]), if_neg fun hh => h.2 hh.2]

theorem strayStep_inside (hp : p.1 = .inside) (h : isHeading line = false) :
    strayStep p line = p := by
  rw [strayStep, Place.next, if_pos (by simp [h]), if_neg fun hh => by simp [hp] at hh]

theorem foldl_strayStep_plain (h : ∀ l ∈ es, IsPlain l) : es.foldl strayStep p = p := by
  induction es with
  | nil => rfl
  | cons e es ih =>
    rw [List.foldl_cons, strayStep_plain (h e List.mem_cons_self)]
    exact ih fun l hl => h l (List.mem_cons_of_mem _ hl)

/-- The lines that a round appends lead to where the line itself does. -/
theorem foldl_strayStep_emitted (hin : f.inSection = true ↔ p.1 = .inside)
    (hextras : ∀ l ∈ extras, IsPlain l) :
    (f.emitted extras hidden line).foldl strayStep p = strayStep p line := by
  by_cases hhead : isHeading line = true
  · have hset : (if f.inSection && !f.changed then [hiddenKey hidden] else []).foldl strayStep p =
        p := by
      split_ifs with hdue
      · rw [Bool.and_eq_true] at hdue
        exact strayStep_inside (hin.1 hdue.1) isPlain_hiddenKey
      · rfl
    have hadded : (if f.inSection && !f.extrasAdded then extras else []).foldl strayStep p = p := by
      split_ifs
      · exact foldl_strayStep_plain hextras
      · rfl
    rw [Flags.emitted_heading hhead, List.foldl_append, hset, List.foldl_append, hadded]
    rfl
  · have hplain : isHeading line = false := by simpa using hhead
    by_cases hkey : f.inSection = true ∧ Assigns "Hidden".toList line
    · -- In the section, neither the line nor the one in its place is a stray one.
      have hplace := hin.1 hkey.1
      rw [Flags.emitted_hidden hplain hkey.1 hkey.2, strayStep_inside hplace hplain]
      split_ifs
      · rfl
      · exact strayStep_inside hplace isPlain_hiddenKey
    · rw [Flags.emitted_other hplain hkey]
      rfl

theorem foldl_strayStep_emits (hin : f.inSection = true ↔ p.1 = .inside)
    (hextras : ∀ l ∈ extras, IsPlain l) :
    ((f.after ls).inSection = true ↔ (ls.foldl strayStep p).1 = .inside) ∧
      (f.emits extras hidden ls).foldl strayStep p = ls.foldl strayStep p := by
  induction ls generalizing f p with
  | nil => exact ⟨hin, rfl⟩
  | cons l ls ih =>
    obtain ⟨hplace, hrest⟩ := ih (f := f.next l) (p := strayStep p l) (inside_next l hin)
    rw [Flags.emits, List.foldl_append, foldl_strayStep_emitted hin hextras]
    exact ⟨hplace, hrest⟩

/-- What is given behind a single bracket is left as it is. -/
theorem strayHidden_toggled (source : CString) (hextras : ∀ l ∈ extras, IsPlain l)
    (hlines : ∀ l ∈ extras, '\n' ∉ l)
    (hsec : (startFlags.after (splitLines source)).hasSection = true) :
    strayHidden (unlines (toggled extras hidden (splitLines source))) = strayHidden source := by
  have hstart : startFlags.inSection = true ↔
      (Place.outside, (none : Option CString)).1 = .inside := by decide
  obtain ⟨hin, hloop⟩ := @foldl_strayStep_emits extras (splitLines source) hidden _ _ hstart hextras
  rw [strayHidden, strayHidden, splitLines_toggled source hlines, toggled, List.foldl_append,
    hloop, Flags.rest, List.foldl_append]
  have hset : (if (startFlags.after (splitLines source)).changed then []
      else [hiddenKey hidden]).foldl strayStep ((splitLines source).foldl strayStep (.outside, none)) =
        (splitLines source).foldl strayStep (.outside, none) := by
    split_ifs with hchanged
    · rfl
    · have hopen := inSection_of_not_changed (startFlags_ok.after (splitLines source)) hsec
        (.inl (by simpa using hchanged))
      exact strayStep_inside (hin.1 hopen) isPlain_hiddenKey
  rw [hset]
  split_ifs
  · rfl
  · rw [foldl_strayStep_plain hextras]

/-- Nothing is behind a bracket that is not there. -/
theorem strayHidden_of_notMem {source : CString} (h : ['['] ∉ splitLines source) :
    strayHidden source = none := by
  have hnone : ∀ (ls : List CString) (p : Place × Option CString), ['['] ∉ ls → p.1 ≠ .behind →
      (ls.foldl strayStep p).2 = p.2 := by
    intro ls
    induction ls with
    | nil => exact fun _ _ _ => rfl
    | cons line ls ih =>
      intro p hno hp
      rw [List.mem_cons, not_or] at hno
      rw [List.foldl_cons, ih _ hno.2]
      · exact if_neg fun hh => hp hh.1
      · show p.1.next line ≠ .behind
        rw [Place.next]
        split_ifs with hhead hdesk hlone
        · decide
        · exact absurd hlone.1.symm hno.1
        · decide
        · exact hp
  exact hnone _ _ h (by decide)

/-! ## Rewriting again -/

/-- The loop over the entry and the one over what it wrote. -/
structure Alike (f g : Flags) : Prop where
  inSection : g.inSection = f.inSection
  hasSection : g.hasSection = f.hasSection
  changed : g.changed = f.changed

variable {ks : List CString}

theorem Flags.emits_append (f : Flags) (ks ls : List CString) :
    f.emits extras hidden (ks ++ ls) =
      f.emits extras hidden ks ++ (f.after ks).emits extras hidden ls := by
  induction ks generalizing f with
  | nil => rfl
  | cons k ks ih => rw [List.cons_append, Flags.emits, ih, Flags.emits, List.append_assoc]; rfl

theorem Flags.after_append (f : Flags) (ks ls : List CString) :
    f.after (ks ++ ls) = (f.after ks).after ls := List.foldl_append

theorem Flags.emits_singleton (f : Flags) (l : CString) :
    f.emits extras hidden [l] = f.emitted extras hidden l := List.append_nil _

/-- Lines that are no headings and do not hide are kept, and lead nowhere. -/
theorem Flags.emits_plain (f : Flags) (extras : List CString) (hidden : Bool)
    (h : ∀ l ∈ es, IsPlain l) :
    f.emits extras hidden es = es ∧ f.after es = f := by
  induction es with
  | nil => exact ⟨rfl, rfl⟩
  | cons e es ih =>
    obtain ⟨hhead, hkey⟩ := h e List.mem_cons_self
    have hnext : f.next e = f := by
      rw [Flags.next_of_not hhead, decide_eq_false hkey, Bool.and_false, Bool.or_false]
    obtain ⟨hemits, hafter⟩ := ih fun l hl => h l (List.mem_cons_of_mem _ hl)
    refine ⟨?_, ?_⟩
    · rw [Flags.emits, Flags.emitted_other hhead fun hh => hkey hh.2, hnext, hemits]
      rfl
    · rw [Flags.after, List.foldl_cons, hnext]
      exact hafter

/-- The key that was set is set again. -/
theorem Flags.emits_hiddenKey (f : Flags) (extras : List CString) (hidden : Bool)
    (hin : f.inSection = true) (h : f.changed = false) :
    f.emits extras hidden [hiddenKey hidden] = [hiddenKey hidden] ∧
      f.after [hiddenKey hidden] = { f with changed := true } := by
  refine ⟨?_, ?_⟩
  · rw [Flags.emits_singleton, Flags.emitted_hidden isPlain_hiddenKey hin assigns_hiddenKey, h]
    rfl
  · rw [Flags.after, List.foldl_cons, List.foldl_nil, Flags.next_of_not isPlain_hiddenKey, hin,
      decide_eq_true assigns_hiddenKey, Bool.and_true, Bool.or_true]

theorem Alike.next (h : Alike f g) (hidden : Bool) (line : CString)
    (hextras : ∀ l ∈ extras, IsPlain l) :
    g.emits [] hidden (f.emitted extras hidden line) = f.emitted extras hidden line ∧
      Alike (f.next line) (g.after (f.emitted extras hidden line)) := by
  obtain ⟨hin, hhas, hchanged⟩ := h
  by_cases hhead : isHeading line = true
  · -- The section already has the key when the heading comes again.
    have hkeys : ∃ g' : Flags,
        g.emits [] hidden (if f.inSection && !f.changed then [hiddenKey hidden] else []) =
          (if f.inSection && !f.changed then [hiddenKey hidden] else []) ∧
        g.after (if f.inSection && !f.changed then [hiddenKey hidden] else []) = g' ∧
        g'.inSection = f.inSection ∧ g'.hasSection = f.hasSection ∧
        g'.changed = (f.changed || f.inSection) := by
      by_cases hdue : (f.inSection && !f.changed) = true
      · rw [if_pos hdue]
        rw [Bool.and_eq_true, Bool.not_eq_true'] at hdue
        obtain ⟨hemits, hafter⟩ := g.emits_hiddenKey [] hidden
          (hin.trans hdue.1) (hchanged.trans hdue.2)
        exact ⟨_, hemits, hafter, hin, hhas, by rw [hdue.1, Bool.or_true]⟩
      · rw [if_neg hdue]
        refine ⟨g, rfl, rfl, hin, hhas, hchanged.trans ?_⟩
        cases h₁ : f.inSection <;> cases h₂ : f.changed <;> simp_all
    obtain ⟨g', hemits, hafter, hin', hhas', hchanged'⟩ := hkeys
    have hplain : ∀ l ∈ (if f.inSection && !f.extrasAdded then extras else []), IsPlain l := by
      intro l hl
      exact hextras l (List.mem_ite_nil_right.1 hl).2
    obtain ⟨hadded, hsame⟩ := g'.emits_plain [] hidden hplain
    have hline : g'.emits [] hidden [line] = [line] := by
      rw [Flags.emits_singleton, Flags.emitted_heading hhead, hin', hchanged']
      cases f.inSection <;> simp
    rw [Flags.emitted_heading hhead, Flags.emits_append, hemits, hafter, Flags.emits_append, hadded,
      hsame, hline, Flags.after_append, hafter, Flags.after_append, hsame]
    refine ⟨rfl, ?_⟩
    rw [Flags.after, List.foldl_cons, List.foldl_nil, Flags.next_heading hhead,
      Flags.next_heading hhead]
    exact ⟨rfl, by rw [hhas'], by rw [hchanged', hin', Bool.or_assoc, Bool.or_self]⟩
  · have hplain : isHeading line = false := by simpa using hhead
    by_cases hkey : f.inSection = true ∧ Assigns "Hidden".toList line
    · rw [Flags.emitted_hidden hplain hkey.1 hkey.2, Flags.next_of_not hplain, hkey.1,
        decide_eq_true hkey.2]
      -- The first line with the key is replaced, the others are dropped.
      by_cases hdue : f.changed = true
      · rw [if_pos hdue]
        exact ⟨rfl, hin.trans hkey.1, hhas, by rw [hdue]; exact hchanged.trans hdue⟩
      · rw [if_neg hdue]
        obtain ⟨hemits, hafter⟩ := g.emits_hiddenKey [] hidden
          (hin.trans hkey.1) (hchanged.trans (by simpa using hdue))
        rw [hafter]
        exact ⟨hemits, hin.trans hkey.1, hhas, (Bool.or_true _).symm⟩
    · rw [Flags.emitted_other hplain hkey, Flags.emits_singleton,
        Flags.emitted_other hplain (by rw [hin]; exact hkey), Flags.after, List.foldl_cons,
        List.foldl_nil, Flags.next_of_not hplain, Flags.next_of_not hplain]
      exact ⟨rfl, hin, hhas, by rw [hchanged, hin]⟩

theorem Alike.after (h : Alike f g) (hidden : Bool) (ls : List CString)
    (hextras : ∀ l ∈ extras, IsPlain l) :
    g.emits [] hidden (f.emits extras hidden ls) = f.emits extras hidden ls ∧
      Alike (f.after ls) (g.after (f.emits extras hidden ls)) := by
  induction ls generalizing f g with
  | nil => exact ⟨rfl, h⟩
  | cons l ls ih =>
    obtain ⟨hline, hnext⟩ := h.next hidden l hextras
    obtain ⟨hrest, hafter⟩ := ih hnext
    rw [Flags.emits, Flags.emits_append, hline, hrest, Flags.after_append]
    exact ⟨rfl, hafter⟩

/-- An entry that was rewritten, and lacks no key then, is rewritten to itself. -/
theorem toggled_toggled (hextras : ∀ l ∈ extras, IsPlain l)
    (hsec : (startFlags.after ls).hasSection = true) :
    (startFlags.after (toggled extras hidden ls)).hasSection = true ∧
      toggled [] hidden (toggled extras hidden ls) = toggled extras hidden ls := by
  obtain ⟨hloop, hin, hhas, hchanged⟩ :=
    (⟨rfl, rfl, rfl⟩ : Alike startFlags startFlags).after hidden ls hextras
  have hdone := inSection_of_not_changed (startFlags_ok.after ls) hsec
  rw [toggled, toggled, Flags.emits_append, Flags.after_append, hloop, Flags.rest]
  generalize startFlags.after ls = f at hin hhas hchanged hdone hsec
  generalize startFlags.after (startFlags.emits extras hidden ls) = g at hin hhas hchanged
  -- Behind the loop, the key is found to be set.
  have hkeys : ∃ g' : Flags,
      g.emits [] hidden (if f.changed then [] else [hiddenKey hidden]) =
        (if f.changed then [] else [hiddenKey hidden]) ∧
      g.after (if f.changed then [] else [hiddenKey hidden]) = g' ∧
      g'.hasSection = true ∧ g'.changed = true := by
    by_cases hdue : f.changed = true
    · rw [if_pos hdue]
      exact ⟨g, rfl, rfl, hhas.trans hsec, hchanged.trans hdue⟩
    · rw [if_neg hdue]
      have hdue' : f.changed = false := by simpa using hdue
      obtain ⟨hemits, hafter⟩ := g.emits_hiddenKey [] hidden
        (hin.trans (hdone (.inl hdue'))) (hchanged.trans hdue')
      exact ⟨_, hemits, hafter, hhas.trans hsec, rfl⟩
  obtain ⟨g', hemits, hafter, hhas', hchanged'⟩ := hkeys
  have hplain : ∀ l ∈ (if f.extrasAdded then [] else extras), IsPlain l := by
    intro l hl
    exact hextras l (List.mem_ite_nil_left.1 hl).2
  obtain ⟨hadded, hsame⟩ := g'.emits_plain [] hidden hplain
  rw [Flags.emits_append, Flags.after_append, hemits, hafter, hadded, hsame]
  refine ⟨hhas', ?_⟩
  rw [Flags.rest, if_pos hchanged', ite_self, List.append_nil, List.append_nil]

/-! ## The size of the rewritten entry -/

/-- The bytes of the lines that are kept: all but those that hide or show, in the section. -/
def keptSize : Place → List CString → ℕ
  | _, [] => 0
  | p, line :: ls =>
    (if p = .inside ∧ Assigns "Hidden".toList line then 0 else line.length + 1) +
      keptSize (p.next line) ls

/-- The size of an entry of these lines once it is rewritten. -/
def rewrittenSize (extras : List CString) (hidden : Bool) (ls : List CString) : ℕ :=
  keptSize .outside ls + ((hiddenKey hidden).length + 1) + (unlines extras).length

theorem length_unlines_append (ks ls : List CString) :
    (unlines (ks ++ ls)).length = (unlines ks).length + (unlines ls).length := by
  rw [unlines, List.flatMap_append, List.length_append]
  rfl

theorem length_unlines_singleton (l : CString) : (unlines [l]).length = l.length + 1 := by
  simp [unlines]

theorem length_rest : (unlines (f.rest extras hidden)).length =
    (if f.changed then 0 else (hiddenKey hidden).length + 1) +
      if f.extrasAdded then 0 else (unlines extras).length := by
  rw [Flags.rest, length_unlines_append]
  congr 1
  · split_ifs
    · rfl
    · exact length_unlines_singleton _
  · split_ifs <;> rfl

/-- A line that is kept, or a key that is due. -/
theorem length_emitted {q : Place} (extras : List CString) (hidden : Bool) (line : CString)
    (hin : f.inSection = true ↔ q = .inside) :
    (unlines (f.emitted extras hidden line)).length +
        (unlines ((f.next line).rest extras hidden)).length =
      (if q = .inside ∧ Assigns "Hidden".toList line then 0 else line.length + 1) +
        (unlines (f.rest extras hidden)).length := by
  rw [length_rest, length_rest]
  by_cases hhead : isHeading line = true
  · have hkept : (if q = .inside ∧ Assigns "Hidden".toList line then 0 else line.length + 1) =
        line.length + 1 := if_neg fun hh => not_hidden_of_heading hhead hh.2
    rw [Flags.emitted_heading hhead, Flags.next_heading hhead, hkept, length_unlines_append,
      length_unlines_append, length_unlines_singleton]
    have hkeys : (unlines (if f.inSection && !f.changed then [hiddenKey hidden] else [])).length =
        if f.inSection && !f.changed then (hiddenKey hidden).length + 1 else 0 := by
      split_ifs
      · exact length_unlines_singleton _
      · rfl
    have hadded : (unlines (if f.inSection && !f.extrasAdded then extras else [])).length =
        if f.inSection && !f.extrasAdded then (unlines extras).length else 0 := by
      split_ifs <;> rfl
    rw [hkeys, hadded]
    cases f.inSection <;> cases f.changed <;> cases f.extrasAdded <;> simp <;> omega
  · have hplain : isHeading line = false := by simpa using hhead
    by_cases hkey : f.inSection = true ∧ Assigns "Hidden".toList line
    · have hleft : (if q = .inside ∧ Assigns "Hidden".toList line then 0 else line.length + 1) =
          0 := if_pos ⟨hin.1 hkey.1, hkey.2⟩
      rw [Flags.emitted_hidden hplain hkey.1 hkey.2, Flags.next_of_not hplain, hkey.1,
        decide_eq_true hkey.2, hleft]
      have hset : (unlines (if f.changed then [] else [hiddenKey hidden])).length =
          if f.changed then 0 else (hiddenKey hidden).length + 1 := by
        split_ifs
        · rfl
        · exact length_unlines_singleton _
      rw [hset]
      cases f.changed <;> simp
    · have hsame : (f.changed || (f.inSection && decide (Assigns "Hidden".toList line))) =
          f.changed := by
        rw [Bool.or_eq_left_iff_imp, Bool.and_eq_true, decide_eq_true_iff]
        exact fun hh => absurd hh hkey
      have hkept : (if q = .inside ∧ Assigns "Hidden".toList line then 0 else line.length + 1) =
          line.length + 1 := if_neg fun hh => hkey ⟨hin.2 hh.1, hh.2⟩
      rw [Flags.emitted_other hplain hkey, Flags.next_of_not hplain, hsame, hkept,
        length_unlines_singleton]

theorem length_emits {q : Place} (hin : f.inSection = true ↔ q = .inside) :
    (unlines (f.emits extras hidden ls)).length +
        (unlines ((f.after ls).rest extras hidden)).length =
      keptSize q ls + (unlines (f.rest extras hidden)).length := by
  induction ls generalizing f q with
  | nil => simp [Flags.emits, Flags.after, keptSize, unlines]
  | cons l ls ih =>
    have hrest := ih (inside_next l hin)
    have hline := length_emitted extras hidden l hin
    rw [Flags.emits, length_unlines_append, keptSize, Flags.after, List.foldl_cons]
    rw [Flags.after] at hrest
    omega

theorem keptSize_le (q : Place) (ls : List CString) : keptSize q ls ≤ (unlines ls).length := by
  induction ls generalizing q with
  | nil => exact Nat.zero_le _
  | cons l ls ih =>
    have hrest := ih (q.next l)
    have hunlines : (unlines (l :: ls)).length = l.length + 1 + (unlines ls).length := by
      rw [← List.singleton_append, length_unlines_append, length_unlines_singleton]
    rw [keptSize, hunlines]
    split_ifs <;> omega

/-- The size of the rewritten entry is known before. -/
theorem length_toggled (extras : List CString) (hidden : Bool) (ls : List CString) :
    (unlines (toggled extras hidden ls)).length = rewrittenSize extras hidden ls := by
  rw [toggled, length_unlines_append, length_emits (q := .outside) (by decide), length_rest,
    rewrittenSize, Nat.add_assoc]
  rfl

end Cdm.Autostart
