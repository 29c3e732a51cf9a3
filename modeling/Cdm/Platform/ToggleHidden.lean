import Cdm.Platform.Autostart

/-!
# What rewriting an entry changes

`toggle_hidden` of `platform/daemon_autostart.c` sets one key of an entry, and leaves the rest of
it as it is: the other lines (`otherLines_sublist`), the values of the other keys
(`keyValue_kept`), and the whole text when it is rewritten again. The key is read as it was set
but for a line behind a single bracket, which ends the section for `toggle_hidden` and not for
`key_value` (`edits_iff`).
-/

namespace Cdm.Autostart

open Toml (splitLines)

variable {env : Env} {source out key k : CString} {hidden : Bool} {extras ls : List CString}
  {capacity size : ℕ} {f : Flags}

/-- The lines of an entry but for those that hide or show, in the section. -/
def otherLines : Bool → List CString → List CString
  | _, [] => []
  | inSection, line :: ls =>
    let inSection := if isHeading line then decide (line = desktopEntry) else inSection
    if inSection && decide (Assigns "Hidden".toList line) then otherLines inSection ls
    else line :: otherLines inSection ls

/-- The value that the key is set to. -/
def hiddenValue (hidden : Bool) : CString := (if hidden then "true" else "false").toList

/-- An entry that is written in place of another one, which it differs from in one key, and in
    those that it lacked to be run. -/
structure Edits (env : Env) (hidden : Bool) (capacity : ℕ) (source out : CString) : Prop where
  isSet : keyValue out "Hidden".toList 16 = some (hiddenValue hidden)
  lines : (otherLines false (splitLines source)).Sublist (splitLines out)
  /-- A key of any name, which is found. -/
  keys : ∀ (key : CString) (size : ℕ), ¬Assigns "Hidden".toList (key ++ ['=']) →
    ∀ v, keyValue source key size = some v → keyValue out key size = some v
  complete : hidden = false → ∀ key ∈ ["Type".toList, "Name".toList, "Exec".toList], ∀ size,
    (keyValue out key size).isSome = true
  again : toggleHidden env out hidden capacity = some out

/-! ## The other lines -/

theorem otherLines_sublist_emits (f : Flags) (ls : List CString) :
    (otherLines f.inSection ls).Sublist (f.emits extras hidden ls) := by
  induction ls generalizing f with
  | nil => exact List.Sublist.refl []
  | cons line ls ih =>
    have hrest := ih (f.next line)
    rw [otherLines, Flags.emits]
    by_cases hhead : isHeading line = true
    · have hkey : decide (Assigns "Hidden".toList line) = false :=
        decide_eq_false (not_hidden_of_heading hhead)
      rw [Flags.next_heading hhead] at hrest ⊢
      rw [Flags.emitted_heading hhead, if_pos hhead, hkey, Bool.and_false,
        if_neg Bool.false_ne_true, List.append_assoc, List.append_assoc]
      exact ((hrest.cons_cons line).trans (List.sublist_append_right _ _)).trans
        (List.sublist_append_right _ _)
    · have hplain : isHeading line = false := by simpa using hhead
      rw [Flags.next_of_not hplain] at hrest ⊢
      rw [if_neg hhead]
      by_cases hkey : f.inSection = true ∧ Assigns "Hidden".toList line
      · rw [if_pos (by rw [hkey.1, decide_eq_true hkey.2]; rfl)]
        exact hrest.trans (List.sublist_append_right _ _)
      · have hother : ¬(f.inSection && decide (Assigns "Hidden".toList line)) = true := fun h =>
          hkey ((Bool.and_eq_true_iff.1 h).imp_right of_decide_eq_true)
        rw [if_neg hother, Flags.emitted_other hplain hkey]
        exact hrest.cons_cons line

theorem otherLines_sublist (hlines : ∀ l ∈ extras, '\n' ∉ l) :
    (otherLines false (splitLines source)).Sublist
      (splitLines (unlines (toggled extras hidden (splitLines source)))) := by
  rw [splitLines_toggled source hlines, toggled]
  exact (otherLines_sublist_emits startFlags _).trans (List.sublist_append_left _ _)

/-! ## The other keys -/

/-- A line with the longer one of two keys is one with the other key. -/
theorem assigns_of_assigns {line : CString} (h : Assigns k (key ++ ['='])) (hline : Assigns key line) :
    Assigns k line :=
  List.IsPrefix.trans h hline

/-- The scans for two keys, if a line that gives a value to the one gives one to the other. -/
theorem isSome_foldl_scanLine {size' : ℕ} {s t : Scan}
    (hassigns : ∀ line, Assigns key line → Assigns k line) (hsec : t.inSection = s.inSection)
    (h : s.value.isSome = true → t.value.isSome = true) :
    (ls.foldl (scanLine key size) s).value.isSome = true →
      (ls.foldl (scanLine k size') t).value.isSome = true := by
  induction ls generalizing s t with
  | nil => exact h
  | cons line ls ih =>
    refine ih ?_ ?_
    · rw [scanLine, scanLine]
      split_ifs <;> first | exact hsec | rfl
    · rw [scanLine, scanLine, hsec]
      split_ifs with hhead hin hin'
      · exact h
      · exact fun _ => rfl
      · exact absurd ⟨hin.1, hassigns line hin.2⟩ hin'
      · exact fun _ => rfl
      · exact h

theorem isSome_keyValue {size' : ℕ} (hassigns : ∀ line, Assigns key line → Assigns k line)
    (h : (keyValue source key size).isSome = true) : (keyValue source k size').isSome = true :=
  isSome_foldl_scanLine hassigns rfl id h

/-- A key that begins as a heading is never found. -/
theorem keyValue_bracket (hkey : key.head? = some '[') : keyValue source key size = none := by
  have hnone : ∀ (ls : List CString) (s : Scan), s.value = none →
      (ls.foldl (scanLine key size) s).value = none := by
    intro ls
    induction ls with
    | nil => exact fun _ h => h
    | cons line ls ih =>
      intro s hs
      refine ih _ ?_
      rw [scanLine]
      split_ifs with hhead hin
      · exact hs
      · obtain ⟨rest, rfl⟩ := hin.2
        cases key with
        | nil => cases hkey
        | cons c k => exact absurd ⟨by simp only [List.length_append, List.length_cons]; omega, hkey⟩ hhead
      · exact hs
  exact hnone _ _ rfl

/-- A key that is found is given no value by those that are added. -/
theorem not_assigns_extraKeys {v : CString} (hfound : keyValue source key size = some v) :
    ∀ l ∈ extraKeys env hidden source, ¬Assigns key l := by
  intro l hl hassigns
  -- The key that the line is about was not found.
  obtain ⟨p, size', hp, hname, hneeded⟩ : ∃ (p : CString × CString) (size' : ℕ),
      l = assignment p.1 p.2 ∧ IsName p.1 ∧ isNeeded hidden source p.1 size' = true := by
    rw [extraKeys_eq, List.mem_map] at hl
    obtain ⟨p, hp, rfl⟩ := hl
    refine ⟨p, ?_⟩
    have hname := isName_extraPairs hp
    rw [extraPairs, List.mem_append, List.mem_append] at hp
    rcases hp with hp | hp | hp <;> obtain ⟨hneeded, hp⟩ := List.mem_ite_nil_right.1 hp <;>
      rw [List.mem_singleton] at hp <;> rw [hp] at hname ⊢
    · exact ⟨32, rfl, hname, hneeded⟩
    · exact ⟨256, rfl, hname, hneeded⟩
    · exact ⟨pathMax, rfl, hname, hneeded⟩
  have hown : Assigns p.1 l := by rw [hp, assigns_assignment hname.equals hname.equals]
  have hshort : Assigns p.1 (key ++ ['=']) := by
    rcases assigns_or_assigns hassigns hown with hlong | hlong
    · rcases List.prefix_concat_iff.1 hlong with heq | hshort
      · rw [heq]
        exact List.prefix_rfl
      · exact absurd (hshort.subset (by simp)) hname.equals
    · exact hlong
  have hsome : (keyValue source p.1 size').isSome = true :=
    isSome_keyValue (fun _ hline => assigns_of_assigns hshort hline)
      (by rw [hfound, Option.isSome_some])
  rw [keyValue_of_isNeeded hneeded] at hsome
  cases hsome

/-- A key that is found is read as before. -/
theorem keyValue_kept (h : Rewrites env hidden source) {v : CString}
    (hkey : ¬Assigns "Hidden".toList (key ++ ['='])) (hfound : keyValue source key size = some v) :
    keyValue (rewritten env hidden source) key size = some v := by
  have hhead : key.head? ≠ some '[' := fun hhead => by
    rw [keyValue_bracket hhead] at hfound
    cases hfound
  have hnot : ∀ l ∈ extraKeys env hidden source, ¬Assigns key l := not_assigns_extraKeys hfound
  have hextras : ∀ t : Scan, t.inSection = true →
      (extraKeys env hidden source).foldl (scanLine key size) t =
        { t with value := Option.or none t.value } := by
    intro t _
    have hplain : ∀ l ∈ extraKeys env hidden source, isHeading l = false :=
      fun l hl => (isPlain_extraKeys l hl).1
    generalize extraKeys env hidden source = extras at hnot hplain
    induction extras with
    | nil => rfl
    | cons l extras ih =>
      rw [List.foldl_cons, scanLine_of_not (hplain l List.mem_cons_self)
        fun hh => hnot l List.mem_cons_self hh.2]
      exact ih (fun l' hl' => hnot l' (List.mem_cons_of_mem _ hl'))
        fun l' hl' => hplain l' (List.mem_cons_of_mem _ hl')
  rw [← hfound]
  exact keyValue_toggled source ⟨hkey, hhead⟩ h.hasSection (newline_notMem_extraKeys h.newline)
    hextras (.inl rfl)

/-- No key that an entry needs to be run is missing from one that is shown. -/
theorem complete_rewritten (h : Rewrites env false source) :
    ∀ key ∈ ["Type".toList, "Name".toList, "Exec".toList], ∀ size,
      (keyValue (rewritten env false source) key size).isSome = true := by
  have hfound : ∀ {key v : CString} {size : ℕ} (size' : ℕ),
      keyValue (rewritten env false source) key size =
        (if isNeeded false source key size then some v else keyValue source key size) →
      (keyValue (rewritten env false source) key size').isSome = true := by
    intro key v size size' hread
    have hsome : (keyValue (rewritten env false source) key size).isSome = true := by
      rw [hread, isNeeded_shown]
      cases keyValue source key size <;> rfl
    exact isSome_keyValue (fun _ hline => hline) hsome
  intro key hkey size
  simp only [List.mem_cons, List.not_mem_nil, or_false] at hkey
  rcases hkey with rfl | rfl | rfl
  · exact hfound size (type_rewritten h)
  · exact hfound size (name_rewritten h)
  · exact hfound size (exec_rewritten h)

/-! ## The whole entry -/

theorem hiddenKey_value : (hiddenKey hidden).drop 7 = hiddenValue hidden := by cases hidden <;> rfl

/-- Nothing fits no space. -/
theorem toggleHidden_zero : toggleHidden env source hidden 0 = none := by
  rw [toggleHidden, if_neg (fun h => h.2 env.exe_absolute)]
  dsimp only
  cases hls : splitLines source with
  | nil => rfl
  | cons line ls =>
    have hline : startFlags.emitted (extraKeys env hidden source) hidden line = [line] := by
      by_cases hhead : isHeading line = true
      · rw [Flags.emitted_heading hhead]
        rfl
      · exact Flags.emitted_other (by simpa using hhead) fun hh => absurd hh.1 (by decide)
    rw [List.foldlM_cons, toggleLine, hline, List.foldlM_cons, appendLine, append,
      if_pos (by simp)]
    rfl

theorem toggleHidden_eq_some : toggleHidden env source hidden capacity = some out ↔
    (startFlags.after (splitLines source)).hasSection = true ∧
      out = rewritten env hidden source ∧ out.length < capacity := by
  rcases Nat.eq_zero_or_pos capacity with rfl | hcap
  · rw [toggleHidden_zero]
    exact iff_of_false (nomatch ·) fun h => Nat.not_lt_zero _ h.2.2
  · rw [toggleHidden_eq env source hidden hcap]
    constructor
    · intro h
      split_ifs at h with hfits
      cases h
      exact ⟨hfits.1, rfl, hfits.2⟩
    · rintro ⟨hsec, rfl, hlen⟩
      exact if_pos ⟨hsec, hlen⟩

/-- An entry that is rewritten is edited, if no line behind a single bracket is read in place of
    the one that sets the key. -/
theorem edits_iff (h : toggleHidden env source hidden capacity = some out)
    (hnewline : isNeeded hidden source "Exec".toList pathMax = true → '\n' ∉ env.exe) :
    Edits env hidden capacity source out ↔ ∀ v ∈ strayHidden source, v = hiddenValue hidden := by
  obtain ⟨hsec, rfl, hlen⟩ := toggleHidden_eq_some.1 h
  have hrewrites : Rewrites env hidden source := ⟨hsec, hnewline⟩
  have hset : keyValue (rewritten env hidden source) "Hidden".toList 16 =
        some (hiddenValue hidden) ↔ ∀ v ∈ strayHidden source, v = hiddenValue hidden := by
    rw [hidden_rewritten hrewrites, hiddenKey_value]
    cases strayHidden source with
    | none => simp
    | some v => simp
  refine ⟨fun hedits => hset.1 hedits.isSet, fun hstray => ⟨hset.2 hstray, ?_, ?_, ?_, ?_⟩⟩
  · exact otherLines_sublist (newline_notMem_extraKeys hnewline)
  · exact fun key size hkey v hfound => keyValue_kept hrewrites hkey hfound
  · rintro rfl
    exact complete_rewritten hrewrites
  · obtain ⟨hagain, hsame⟩ := rewritten_rewritten hrewrites
    exact toggleHidden_eq_some.2 ⟨hagain.hasSection, hsame.symm, hlen⟩

/-- An account with nothing but the binary. -/
def bareEnv (exe : CString) (habsolute : exe.head? = some '/') (hlength : exe.length < pathMax) : Env where
  system := none
  executables p := p = exe
  path := none
  exe := exe
  exe_absolute := habsolute
  exe_length := hlength
  exe_executable := decide_eq_true rfl

theorem edits_iff_shown :
    Edits (bareEnv "/cdm".toList (by decide) (by decide)) false (maxEntrySize + 128)
      "[Desktop Entry]\nHidden=true\n[Other]\nHidden=true".toList
      ("[Desktop Entry]\nHidden=false\nType=Application\nName=Core Download Manager Daemon\n" ++
        "Exec=/cdm daemon\n[Other]\nHidden=true\n").toList :=
  (edits_iff (by decide) (fun _ => by decide)).2 (by decide)

/-- The line behind the bracket is read, and so is one that the path of the binary brings. -/
theorem exists_not_edits :
    (∃ out, toggleHidden (bareEnv "/cdm".toList (by decide) (by decide))
        "[Desktop Entry]\nType=Application\nName=D\nExec=cdm\n[\nHidden=true\n".toList false
        (maxEntrySize + 128) = some out ∧
      ¬Edits (bareEnv "/cdm".toList (by decide) (by decide)) false (maxEntrySize + 128)
        "[Desktop Entry]\nType=Application\nName=D\nExec=cdm\n[\nHidden=true\n".toList out) ∧
    ∃ out, toggleHidden (bareEnv "/a\nHidden=true".toList (by decide) (by decide))
        "[Desktop Entry]\n".toList false (maxEntrySize + 128) = some out ∧
      ¬Edits (bareEnv "/a\nHidden=true".toList (by decide) (by decide)) false (maxEntrySize + 128)
        "[Desktop Entry]\n".toList out := by
  have hnot : ∀ {env : Env} {source : CString} (out : CString),
      toggleHidden env source false (maxEntrySize + 128) = some out →
      keyValue out "Hidden".toList 16 ≠ some "false".toList →
      ∃ out, toggleHidden env source false (maxEntrySize + 128) = some out ∧
        ¬Edits env false (maxEntrySize + 128) source out :=
    fun out hout hread => ⟨out, hout, fun h => hread h.isSet⟩
  constructor
  · refine hnot ("[Desktop Entry]\nType=Application\nName=D\nExec=cdm\nHidden=false\n[\n" ++
      "Hidden=true\n").toList ?_ ?_ <;> decide
  · refine hnot ("[Desktop Entry]\nHidden=false\nType=Application\n" ++
      "Name=Core Download Manager Daemon\nExec=/a\nHidden=true daemon\n").toList ?_ ?_ <;>
      decide

end Cdm.Autostart
