import Cdm.Platform.DaemonAutostart

/-!
# Entries that are rewritten or generated

How an entry of `platform/daemon_autostart.c` is read once it has been rewritten: the keys that it
lacked are there, and `entryEnabled_shown` and `entryEnabled_hidden` tell when it enables startup.
Rewriting it again changes nothing (`rewritten_rewritten`). An entry that is generated enables
(`generatedEntry_spec`).
-/

namespace Cdm.Autostart

open Toml (splitLines)

variable {env : Env} {source : CString} {hidden : Bool} {user : Option EntryFile}

/-! ## The keys that are added -/

/-- A line that gives a key a value. -/
def assignment (key value : CString) : CString := key ++ '=' :: value

/-- A name that a key may have. -/
structure IsName (key : CString) : Prop where
  equals : '=' ∉ key
  head : ∃ c k, key = c :: k ∧ c ≠ '['

theorem assigns_assignment {k k' v : CString} (hk : '=' ∉ k) (hk' : '=' ∉ k') :
    Assigns k (assignment k' v) ↔ k = k' := by
  rw [Assigns, assignment]
  induction k generalizing k' with
  | nil =>
    cases k' with
    | nil => simp
    | cons c k' =>
      rw [List.nil_append, List.cons_append, List.cons_prefix_cons]
      exact iff_of_false (fun h => hk' (h.1 ▸ List.mem_cons_self)) (List.cons_ne_nil _ _).symm
  | cons c k ih =>
    cases k' with
    | nil =>
      rw [List.nil_append, List.cons_append, List.cons_prefix_cons]
      exact iff_of_false (fun h => hk (h.1 ▸ List.mem_cons_self)) (List.cons_ne_nil _ _)
    | cons c' k' =>
      rw [List.cons_append, List.cons_append, List.cons_prefix_cons, List.cons.injEq,
        ih (fun h => hk (List.mem_cons_of_mem _ h)) fun h => hk' (List.mem_cons_of_mem _ h)]

theorem isHeading_assignment {k v : CString} (hk : IsName k) :
    isHeading (assignment k v) = false := by
  obtain ⟨c, k, rfl, hc⟩ := hk.head
  exact decide_eq_false fun h => hc (Option.some.inj h)

/-- An assignment is read if it is one to the key. -/
theorem scanLine_assignment {k k' v : CString} (hk : IsName k) (hk' : IsName k') (size : ℕ)
    (t : Scan) (ht : t.inSection = true) : scanLine k size t (assignment k' v) =
      if k = k' then { t with value := some (v.take (size - 1)) } else t := by
  have hassigns : Assigns k (assignment k' v) ↔ k = k' := assigns_assignment hk.equals hk'.equals
  by_cases h : k = k'
  · rw [if_pos h, scanLine_of_assigns (isHeading_assignment hk') ht (hassigns.2 h), h]
    simp [assignment]
  · rw [if_neg h, scanLine_of_not (isHeading_assignment hk') fun hh => h (hassigns.1 hh.2)]

/-- What assignments give a key: the last one to it. -/
def assigned (key : CString) (size : ℕ) (ps : List (CString × CString)) : Option CString :=
  ps.foldl (fun v p => if key = p.1 then some (p.2.take (size - 1)) else v) none

theorem assigned_concat (key : CString) (size : ℕ) (ps : List (CString × CString))
    (p : CString × CString) : assigned key size (ps ++ [p]) =
      if key = p.1 then some (p.2.take (size - 1)) else assigned key size ps := by
  rw [assigned, List.foldl_append]
  rfl

theorem foldl_assignments {k : CString} (hk : IsName k) (size : ℕ)
    {ps : List (CString × CString)} (hps : ∀ p ∈ ps, IsName p.1) (t : Scan)
    (ht : t.inSection = true) :
    (ps.map fun p => assignment p.1 p.2).foldl (scanLine k size) t =
      { t with value := (assigned k size ps).or t.value } := by
  induction ps using List.reverseRecOn with
  | nil => rfl
  | append_singleton ps p ih =>
    have hfront := ih fun q hq => hps q (List.mem_append_left _ hq)
    have hp := hps p (List.mem_append_right _ (List.mem_singleton_self p))
    rw [List.map_append, List.foldl_append, hfront, assigned_concat, List.map_singleton,
      List.foldl_cons, List.foldl_nil,
      scanLine_assignment hk hp size ⟨t.inSection, (assigned k size ps).or t.value⟩ ht]
    split_ifs <;> rfl

/-- The keys that `enable` adds, with their values. -/
def extraPairs (env : Env) (hidden : Bool) (source : CString) : List (CString × CString) :=
  (if isNeeded hidden source "Type".toList 32 then
      [("Type".toList, "Application".toList)] else []) ++
    ((if isNeeded hidden source "Name".toList 256 then
        [("Name".toList, "Core Download Manager Daemon".toList)] else []) ++
      if isNeeded hidden source "Exec".toList pathMax then
        [("Exec".toList, env.exe ++ " daemon".toList)] else [])

theorem extraKeys_eq (env : Env) (hidden : Bool) (source : CString) :
    extraKeys env hidden source =
      (extraPairs env hidden source).map fun p => assignment p.1 p.2 := by
  rw [extraKeys, extraPairs, List.map_append, List.map_append]
  congr 1
  · split_ifs <;> rfl
  · congr 1
    · split_ifs <;> rfl
    · split_ifs
      · simp [assignment]
      · rfl

theorem mem_extraPairs {p : CString × CString} (h : p ∈ extraPairs env hidden source) :
    p = ("Type".toList, "Application".toList) ∨
      p = ("Name".toList, "Core Download Manager Daemon".toList) ∨
      p = ("Exec".toList, env.exe ++ " daemon".toList) ∧
        isNeeded hidden source "Exec".toList pathMax = true := by
  rw [extraPairs, List.mem_append, List.mem_append] at h
  rcases h with h | h | h
  · exact .inl (List.mem_singleton.1 (List.mem_ite_nil_right.1 h).2)
  · exact .inr (.inl (List.mem_singleton.1 (List.mem_ite_nil_right.1 h).2))
  · obtain ⟨hneeded, h⟩ := List.mem_ite_nil_right.1 h
    exact .inr (.inr ⟨List.mem_singleton.1 h, hneeded⟩)

theorem isName_type : IsName "Type".toList := ⟨by decide, _, _, rfl, by decide⟩

theorem isName_name : IsName "Name".toList := ⟨by decide, _, _, rfl, by decide⟩

theorem isName_exec : IsName "Exec".toList := ⟨by decide, _, _, rfl, by decide⟩

theorem isName_tryExec : IsName "TryExec".toList := ⟨by decide, _, _, rfl, by decide⟩

theorem isName_hidden : IsName "Hidden".toList := ⟨by decide, _, _, rfl, by decide⟩

theorem isName_generated : IsName "X-CDM-Generated".toList := ⟨by decide, _, _, rfl, by decide⟩

theorem isOther_type : IsOther "Type".toList := ⟨by decide, by decide⟩

theorem isOther_name : IsOther "Name".toList := ⟨by decide, by decide⟩

theorem isOther_exec : IsOther "Exec".toList := ⟨by decide, by decide⟩

theorem isOther_tryExec : IsOther "TryExec".toList := ⟨by decide, by decide⟩

theorem isOther_generated : IsOther "X-CDM-Generated".toList := ⟨by decide, by decide⟩

theorem isName_extraPairs {p : CString × CString} (h : p ∈ extraPairs env hidden source) :
    IsName p.1 := by
  rcases mem_extraPairs h with rfl | rfl | ⟨rfl, -⟩
  · exact isName_type
  · exact isName_name
  · exact isName_exec

/-- The keys that are added are one to a line, if the path of the binary is. -/
theorem newline_notMem_extraKeys
    (h : isNeeded hidden source "Exec".toList pathMax = true → '\n' ∉ env.exe) :
    ∀ l ∈ extraKeys env hidden source, '\n' ∉ l := by
  intro l hl
  rw [extraKeys_eq] at hl
  obtain ⟨p, hp, rfl⟩ := List.mem_map.1 hl
  rcases mem_extraPairs hp with rfl | rfl | ⟨rfl, hneeded⟩
  · decide
  · decide
  · have hexe := h hneeded
    simp [assignment, hexe]

theorem isPlain_extraKeys : ∀ l ∈ extraKeys env hidden source, IsPlain l := by
  intro l hl
  rw [extraKeys_eq] at hl
  obtain ⟨p, hp, rfl⟩ := List.mem_map.1 hl
  refine ⟨isHeading_assignment (isName_extraPairs hp), ?_⟩
  rw [assigns_assignment isName_hidden.equals (isName_extraPairs hp).equals]
  rcases mem_extraPairs hp with rfl | rfl | ⟨rfl, -⟩
  · decide
  · decide
  · exact fun h => absurd h (by decide : "Hidden".toList ≠ "Exec".toList)

theorem assigned_append (key : CString) (size : ℕ) (ps qs : List (CString × CString)) :
    assigned key size (ps ++ qs) = (assigned key size qs).or (assigned key size ps) := by
  induction qs using List.reverseRecOn with
  | nil => rw [List.append_nil]; rfl
  | append_singleton qs q ih =>
    rw [← List.append_assoc, assigned_concat, ih, assigned_concat]
    split_ifs <;> rfl

theorem assigned_of_mem {key v : CString} (size : ℕ) {ps : List (CString × CString)}
    (hnodup : (ps.map Prod.fst).Nodup) (h : (key, v) ∈ ps) :
    assigned key size ps = some (v.take (size - 1)) := by
  induction ps using List.reverseRecOn with
  | nil => exact absurd h List.not_mem_nil
  | append_singleton ps p ih =>
    rw [List.map_append, List.nodup_append] at hnodup
    rw [assigned_concat]
    rcases List.mem_append.1 h with h | h
    · have hne : key ≠ p.1 :=
        hnodup.2.2 key (List.mem_map_of_mem h) p.1 (List.mem_singleton_self _)
      rw [if_neg hne]
      exact ih hnodup.1 h
    · rw [← List.mem_singleton.1 h, if_pos rfl]

theorem assigned_ite (key : CString) (size : ℕ) (b : Bool) (p : CString × CString) :
    assigned key size (if b then [p] else []) =
      if b = true ∧ key = p.1 then some (p.2.take (size - 1)) else none := by
  cases b with
  | false => rw [if_neg (by decide), if_neg fun h => Bool.false_ne_true h.1]; rfl
  | true => rw [if_pos rfl, assigned, List.foldl_cons, List.foldl_nil]; simp only [true_and]

/-- What the keys that are added give a key. -/
theorem assigned_extraPairs (key : CString) (size : ℕ) :
    assigned key size (extraPairs env hidden source) =
      ((if isNeeded hidden source "Exec".toList pathMax = true ∧ key = "Exec".toList then
          some ((env.exe ++ " daemon".toList).take (size - 1)) else none).or
        (if isNeeded hidden source "Name".toList 256 = true ∧ key = "Name".toList then
          some ("Core Download Manager Daemon".toList.take (size - 1)) else none)).or
        (if isNeeded hidden source "Type".toList 32 = true ∧ key = "Type".toList then
          some ("Application".toList.take (size - 1)) else none) := by
  rw [extraPairs, assigned_append, assigned_append, assigned_ite, assigned_ite, assigned_ite]

/-! ## The keys of the rewritten entry -/

/-- The entry as `toggle_hidden` leaves it. -/
def rewritten (env : Env) (hidden : Bool) (source : CString) : CString :=
  unlines (toggled (extraKeys env hidden source) hidden (splitLines source))

/-- There is a section to set the key in, and it gets one line for each key that is added. -/
structure Rewrites (env : Env) (hidden : Bool) (source : CString) : Prop where
  hasSection : (startFlags.after (splitLines source)).hasSection = true
  newline : isNeeded hidden source "Exec".toList pathMax = true → '\n' ∉ env.exe

/-- A key but for the one that is set is read as it was or as it is added. -/
theorem keyValue_rewritten (h : Rewrites env hidden source) {key : CString} (hother : IsOther key)
    (hname : IsName key) (size : ℕ)
    (hnone : assigned key size (extraPairs env hidden source) = none ∨
      keyValue source key size = none) :
    keyValue (rewritten env hidden source) key size =
      (assigned key size (extraPairs env hidden source)).or (keyValue source key size) := by
  refine keyValue_toggled source hother h.hasSection (newline_notMem_extraKeys h.newline)
    (fun t ht => ?_) hnone
  rw [extraKeys_eq]
  exact foldl_assignments hname size (fun p hp => isName_extraPairs hp) t ht

theorem isNeeded_shown (key : CString) (size : ℕ) :
    isNeeded false source key size = (keyValue source key size).isNone := rfl

theorem isNeeded_hidden (key : CString) (size : ℕ) : isNeeded true source key size = false := rfl

theorem keyValue_of_isNeeded {key : CString} {size : ℕ}
    (h : isNeeded hidden source key size = true) : keyValue source key size = none := by
  rw [isNeeded, Bool.and_eq_true] at h
  exact Option.isNone_iff_eq_none.1 h.2

/-- A key that is added if it is needed. -/
theorem added_rewritten (h : Rewrites env hidden source) {key v : CString} {size : ℕ}
    (hother : IsOther key) (hname : IsName key)
    (hassigned : assigned key size (extraPairs env hidden source) =
      if isNeeded hidden source key size then some v else none) :
    keyValue (rewritten env hidden source) key size =
      if isNeeded hidden source key size then some v else keyValue source key size := by
  rw [keyValue_rewritten h hother hname, hassigned]
  · split_ifs <;> rfl
  · rw [hassigned]
    split_ifs with hneeded
    · exact .inr (keyValue_of_isNeeded hneeded)
    · exact .inl rfl

theorem type_rewritten (h : Rewrites env hidden source) :
    keyValue (rewritten env hidden source) "Type".toList 32 =
      if isNeeded hidden source "Type".toList 32 then some "Application".toList
      else keyValue source "Type".toList 32 := by
  refine added_rewritten h isOther_type isName_type ?_
  have hexec : ("Type".toList = "Exec".toList) = False := eq_false (by decide)
  have hname : ("Type".toList = "Name".toList) = False := eq_false (by decide)
  simp only [assigned_extraPairs, hexec, hname, and_false, if_false, and_true, Option.none_or]
  rfl

theorem name_rewritten (h : Rewrites env hidden source) :
    keyValue (rewritten env hidden source) "Name".toList 256 =
      if isNeeded hidden source "Name".toList 256 then some "Core Download Manager Daemon".toList
      else keyValue source "Name".toList 256 := by
  refine added_rewritten h isOther_name isName_name ?_
  have hexec : ("Name".toList = "Exec".toList) = False := eq_false (by decide)
  have htype : ("Name".toList = "Type".toList) = False := eq_false (by decide)
  simp only [assigned_extraPairs, hexec, htype, and_false, if_false, and_true, Option.none_or,
    Option.or_none]
  rfl

theorem exec_rewritten (h : Rewrites env hidden source) :
    keyValue (rewritten env hidden source) "Exec".toList pathMax =
      if isNeeded hidden source "Exec".toList pathMax then
        some ((env.exe ++ " daemon".toList).take (pathMax - 1))
      else keyValue source "Exec".toList pathMax := by
  refine added_rewritten h isOther_exec isName_exec ?_
  have hname : ("Exec".toList = "Name".toList) = False := eq_false (by decide)
  have htype : ("Exec".toList = "Type".toList) = False := eq_false (by decide)
  simp only [assigned_extraPairs, hname, htype, and_false, if_false, and_true, Option.or_none]

/-- A key that is never added. -/
theorem other_rewritten (h : Rewrites env hidden source) {key : CString} (hother : IsOther key)
    (hname : IsName key) (htype : key ≠ "Type".toList) (hnamed : key ≠ "Name".toList)
    (hexec : key ≠ "Exec".toList) (size : ℕ) :
    keyValue (rewritten env hidden source) key size = keyValue source key size := by
  have hassigned : assigned key size (extraPairs env hidden source) = none := by
    rw [assigned_extraPairs, if_neg fun hh => hexec hh.2, if_neg fun hh => hnamed hh.2,
      if_neg fun hh => htype hh.2]
    rfl
  rw [keyValue_rewritten h hother hname size (.inl hassigned), hassigned, Option.none_or]

theorem tryExec_rewritten (h : Rewrites env hidden source) :
    keyValue (rewritten env hidden source) "TryExec".toList pathMax =
      keyValue source "TryExec".toList pathMax :=
  other_rewritten h isOther_tryExec isName_tryExec (by decide)
    (by decide) (by decide) pathMax

theorem isGenerated_rewritten (h : Rewrites env hidden source) :
    isGenerated (rewritten env hidden source) = isGenerated source := by
  rw [isGenerated, isGenerated, other_rewritten h isOther_generated
    isName_generated (by decide) (by decide) (by decide) 16]

theorem hidden_rewritten (h : Rewrites env hidden source) :
    keyValue (rewritten env hidden source) "Hidden".toList 16 =
      (strayHidden source).or (some ((hiddenKey hidden).drop 7)) :=
  hidden_toggled source isPlain_extraKeys (newline_notMem_extraKeys h.newline) h.hasSection

/-- Entries are run if nothing hides them. -/
structure Runnable (env : Env) (content : CString) : Prop where
  type : keyValue content "Type".toList 32 = some "Application".toList
  exec : ∃ v, keyValue content "Exec".toList pathMax = some v ∧ v ≠ []
  tryExec : ∀ v, keyValue content "TryExec".toList pathMax = some v → executable env v = true

theorem entryEnabled_iff {content : CString} : entryEnabled env content = true ↔
    Runnable env content ∧ keyValue content "Hidden".toList 16 ≠ some "true".toList := by
  rw [entryEnabled, Bool.and_eq_true, Bool.and_eq_true, Bool.and_eq_true, decide_eq_true_iff,
    decide_eq_true_iff, Option.any_eq_true, Option.all_eq_true]
  constructor
  · rintro ⟨⟨⟨htype, v, hv, hne⟩, hhidden⟩, htry⟩
    exact ⟨⟨htype, ⟨v, hv, of_decide_eq_true hne⟩, htry⟩, hhidden⟩
  · rintro ⟨⟨htype, ⟨v, hv, hne⟩, htry⟩, hhidden⟩
    exact ⟨⟨⟨htype, v, hv, decide_eq_true hne⟩, hhidden⟩, htry⟩

/-- The keys that an entry has let it be run: those that it lacks are added. -/
structure Completes (env : Env) (source : CString) : Prop where
  type : ∀ v, keyValue source "Type".toList 32 = some v → v = "Application".toList
  exec : ∀ v, keyValue source "Exec".toList pathMax = some v → v ≠ []
  tryExec : ∀ v, keyValue source "TryExec".toList pathMax = some v → executable env v = true

theorem Runnable.completes (h : Runnable env source) : Completes env source where
  type v hv := by
    rw [h.type] at hv
    exact (Option.some.inj hv).symm
  exec v hv := by
    obtain ⟨w, hw, hne⟩ := h.exec
    rw [hw] at hv
    exact Option.some.inj hv ▸ hne
  tryExec := h.tryExec

/-- The keys that decide whether a hidden entry could be run are left as they are. -/
theorem keyValue_hidden (h : Rewrites env true source) :
    keyValue (rewritten env true source) "Type".toList 32 = keyValue source "Type".toList 32 ∧
      keyValue (rewritten env true source) "Name".toList 256 = keyValue source "Name".toList 256 ∧
        keyValue (rewritten env true source) "Exec".toList pathMax =
          keyValue source "Exec".toList pathMax := by
  have htype := type_rewritten h
  have hname := name_rewritten h
  have hexec := exec_rewritten h
  rw [isNeeded_hidden, if_neg Bool.false_ne_true] at htype hname hexec
  exact ⟨htype, hname, hexec⟩

theorem runnable_hidden (h : Rewrites env true source) :
    Runnable env (rewritten env true source) ↔ Runnable env source := by
  obtain ⟨htype, -, hexec⟩ := keyValue_hidden h
  constructor
  · rintro ⟨h₁, h₂, h₃⟩
    rw [htype] at h₁
    rw [hexec] at h₂
    rw [tryExec_rewritten h] at h₃
    exact ⟨h₁, h₂, h₃⟩
  · rintro ⟨h₁, h₂, h₃⟩
    exact ⟨htype ▸ h₁, hexec ▸ h₂, tryExec_rewritten h ▸ h₃⟩

/-- A command that is added is not empty. -/
theorem command_ne_nil (env : Env) : (env.exe ++ " daemon".toList).take (pathMax - 1) ≠ [] := by
  intro hnil
  have hlen := congrArg List.length hnil
  rw [List.length_take, List.length_append] at hlen
  simp [pathMax] at hlen

theorem runnable_shown (h : Rewrites env false source) :
    Runnable env (rewritten env false source) ↔ Completes env source := by
  have htype := type_rewritten h
  have hexec := exec_rewritten h
  rw [isNeeded_shown] at htype hexec
  constructor
  · rintro ⟨h₁, ⟨w, hw, hne⟩, h₃⟩
    rw [tryExec_rewritten h] at h₃
    refine ⟨fun v hv => ?_, fun v hv => ?_, h₃⟩
    · rw [htype, hv] at h₁
      exact Option.some.inj h₁
    · rw [hexec, hv] at hw
      exact Option.some.inj hw ▸ hne
  · rintro ⟨h₁, h₂, h₃⟩
    refine ⟨?_, ?_, tryExec_rewritten h ▸ h₃⟩
    · rw [htype]
      cases hv : keyValue source "Type".toList 32 with
      | none => rfl
      | some v => exact congrArg some (h₁ v hv)
    · rw [hexec]
      cases hv : keyValue source "Exec".toList pathMax with
      | none => exact ⟨_, rfl, command_ne_nil env⟩
      | some v => exact ⟨v, rfl, h₂ v hv⟩

theorem completes_rewritten (h : Rewrites env hidden source) (hsource : Completes env source) :
    Completes env (rewritten env hidden source) := by
  cases hidden with
  | false => exact ((runnable_shown h).2 hsource).completes
  | true =>
    obtain ⟨htype, -, hexec⟩ := keyValue_hidden h
    exact ⟨htype ▸ hsource.type, hexec ▸ hsource.exec, tryExec_rewritten h ▸ hsource.tryExec⟩

/-- An entry that is hidden is read as it was, and is hidden but for a stray value. -/
theorem entryEnabled_hidden (h : Rewrites env true source) :
    entryEnabled env (rewritten env true source) = true ↔
      Runnable env source ∧ ∃ v, strayHidden source = some v ∧ v ≠ "true".toList := by
  rw [entryEnabled_iff, runnable_hidden h, hidden_rewritten h]
  refine and_congr_right fun _ => ?_
  cases strayHidden source with
  | none => exact iff_of_false (fun hh => hh rfl) fun hh => nomatch hh.choose_spec.1
  | some v => simp only [Option.some_or, ne_eq, Option.some.injEq, exists_eq_left']

/-- An entry that is shown is completed, and is shown but for a stray value. -/
theorem entryEnabled_shown (h : Rewrites env false source) :
    entryEnabled env (rewritten env false source) = true ↔
      Completes env source ∧ strayHidden source ≠ some "true".toList := by
  rw [entryEnabled_iff, runnable_shown h, hidden_rewritten h]
  refine and_congr_right fun _ => not_congr ?_
  cases strayHidden source with
  | none => exact iff_of_false (by decide) (by decide)
  | some v => rfl

/-- A rewritten entry lacks none of the keys. -/
theorem extraKeys_rewritten (h : Rewrites env hidden source) :
    extraKeys env hidden (rewritten env hidden source) = [] ∧
      isNeeded hidden (rewritten env hidden source) "Exec".toList pathMax = false := by
  have hnone : ∀ {key : CString} {size : ℕ} {v : CString},
      keyValue (rewritten env hidden source) key size =
        (if isNeeded hidden source key size then some v else keyValue source key size) →
      isNeeded hidden (rewritten env hidden source) key size = false := by
    intro key size v hv
    rw [isNeeded, hv]
    by_cases hneeded : isNeeded hidden source key size = true
    · rw [if_pos hneeded, Option.isNone_some, Bool.and_false]
    · rw [if_neg hneeded]
      exact Bool.eq_false_iff.2 hneeded
  have hexec := hnone (exec_rewritten h)
  refine ⟨?_, hexec⟩
  rw [extraKeys, hnone (type_rewritten h), hnone (name_rewritten h), hexec]
  rfl

theorem splitLines_rewritten (h : Rewrites env hidden source) :
    splitLines (rewritten env hidden source) =
      toggled (extraKeys env hidden source) hidden (splitLines source) :=
  splitLines_toggled source (newline_notMem_extraKeys h.newline)

/-- Rewriting an entry again changes nothing. -/
theorem rewritten_rewritten (h : Rewrites env hidden source) :
    Rewrites env hidden (rewritten env hidden source) ∧
      rewritten env hidden (rewritten env hidden source) = rewritten env hidden source := by
  obtain ⟨hextras, hexec⟩ := extraKeys_rewritten h
  have hplain : ∀ l ∈ extraKeys env hidden source, IsPlain l := isPlain_extraKeys
  obtain ⟨hsec, hagain⟩ := @toggled_toggled _ (splitLines source) hidden hplain h.hasSection
  refine ⟨⟨splitLines_rewritten h ▸ hsec, fun hneeded => ?_⟩, ?_⟩
  · rw [hexec] at hneeded
    exact absurd hneeded Bool.false_ne_true
  · rw [rewritten, hextras, splitLines_rewritten h, hagain]
    rfl

theorem strayHidden_rewritten (h : Rewrites env hidden source) :
    strayHidden (rewritten env hidden source) = strayHidden source :=
  strayHidden_toggled source isPlain_extraKeys (newline_notMem_extraKeys h.newline) h.hasSection

/-! ## The size of the rewritten entry -/

/-- The size of an entry once it is rewritten. -/
def sizeAfter (env : Env) (hidden : Bool) (source : CString) : ℕ :=
  rewrittenSize (extraKeys env hidden source) hidden (splitLines source)

theorem length_rewritten (env : Env) (hidden : Bool) (source : CString) :
    (rewritten env hidden source).length = sizeAfter env hidden source :=
  length_toggled _ _ _

theorem extraKeys_hidden (env : Env) (source : CString) : extraKeys env true source = [] := by
  rw [extraKeys, isNeeded_hidden, isNeeded_hidden, isNeeded_hidden]
  rfl

/-- An entry is not larger hidden than shown. -/
theorem sizeAfter_hidden_le (env : Env) (source : CString) :
    sizeAfter env true source ≤ sizeAfter env false source := by
  have hkeys : (hiddenKey true).length ≤ (hiddenKey false).length := by decide
  rw [sizeAfter, sizeAfter, rewrittenSize, rewrittenSize, extraKeys_hidden]
  show _ + 0 ≤ _
  omega

theorem sizeAfter_self (h : Rewrites env hidden source) :
    sizeAfter env hidden (rewritten env hidden source) = sizeAfter env hidden source := by
  rw [← length_rewritten, (rewritten_rewritten h).2, length_rewritten]

/-- However an entry was rewritten, it has the size it would have had, once it is shown. -/
theorem sizeAfter_shown (h : Rewrites env hidden source) :
    sizeAfter env false (rewritten env hidden source) = sizeAfter env false source := by
  cases hidden with
  | false => exact sizeAfter_self h
  | true =>
    obtain ⟨htype, hname, hexec⟩ := keyValue_hidden h
    have hextras : extraKeys env false (rewritten env true source) =
        extraKeys env false source := by
      rw [extraKeys, extraKeys, isNeeded, isNeeded, isNeeded, htype, hname, hexec]
      rfl
    -- What is kept is known from rewriting it twice.
    have hself := sizeAfter_self h
    rw [sizeAfter, sizeAfter, rewrittenSize, rewrittenSize, extraKeys_hidden,
      extraKeys_hidden] at hself
    rw [sizeAfter, sizeAfter, rewrittenSize, rewrittenSize, hextras]
    omega

/-! ## The entries that are generated -/

/-- The keys of the generated entry. -/
def generatedPairs (env : Env) : List (CString × CString) := [
  ("Type".toList, "Application".toList),
  ("Name".toList, "Core Download Manager Daemon".toList),
  ("Exec".toList, env.exe ++ " daemon".toList),
  ("TryExec".toList, env.exe),
  ("Terminal".toList, "false".toList),
  ("NoDisplay".toList, "true".toList),
  ("Hidden".toList, "false".toList),
  ("X-CDM-Generated".toList, "true".toList)]

theorem generatedEntry_eq (env : Env) : generatedEntry env =
    unlines (desktopEntry :: (generatedPairs env).map fun p => assignment p.1 p.2) := by
  have hparts : ∀ {a b c : CString}, a = unlines [desktopEntry,
        assignment "Type".toList "Application".toList,
        assignment "Name".toList "Core Download Manager Daemon".toList] ++ "Exec".toList ++ ['='] →
      b = " daemon".toList ++ '\n' :: ("TryExec".toList ++ ['=']) →
      c = '\n' :: unlines [assignment "Terminal".toList "false".toList,
        assignment "NoDisplay".toList "true".toList, assignment "Hidden".toList "false".toList,
        assignment "X-CDM-Generated".toList "true".toList] →
      a ++ env.exe ++ b ++ env.exe ++ c =
        unlines (desktopEntry :: (generatedPairs env).map fun p => assignment p.1 p.2) := by
    rintro a b c rfl rfl rfl
    simp only [generatedPairs, List.map_cons, List.map_nil, unlines, List.flatMap_cons,
      List.flatMap_nil, assignment, List.append_assoc, List.cons_append, List.nil_append,
      List.append_nil]
  exact hparts (by decide) (by decide) (by decide)

theorem isName_generatedPairs {p : CString × CString} (h : p ∈ generatedPairs env) :
    IsName p.1 := by
  simp only [generatedPairs, List.mem_cons, List.not_mem_nil, or_false] at h
  rcases h with rfl | rfl | rfl | rfl | rfl | rfl | rfl | rfl
  · exact isName_type
  · exact isName_name
  · exact isName_exec
  · exact isName_tryExec
  · exact ⟨by decide, _, _, rfl, by decide⟩
  · exact ⟨by decide, _, _, rfl, by decide⟩
  · exact isName_hidden
  · exact isName_generated

theorem splitLines_generated (hexe : '\n' ∉ env.exe) : splitLines (generatedEntry env) =
    desktopEntry :: (generatedPairs env).map fun p => assignment p.1 p.2 := by
  rw [generatedEntry_eq, unlines]
  refine Toml.splitLines_flatMap fun l hl => ?_
  rcases List.mem_cons.1 hl with rfl | hl
  · decide
  · obtain ⟨p, hp, rfl⟩ := List.mem_map.1 hl
    simp only [generatedPairs, List.mem_cons, List.not_mem_nil, or_false] at hp
    rcases hp with rfl | rfl | rfl | rfl | rfl | rfl | rfl | rfl <;> simp [assignment, hexe]

theorem keyValue_generated (hexe : '\n' ∉ env.exe) {key : CString} (hname : IsName key)
    (size : ℕ) :
    keyValue (generatedEntry env) key size = assigned key size (generatedPairs env) := by
  have hsection : scanLine key size ⟨false, none⟩ desktopEntry = ⟨true, none⟩ := by
    rw [scanLine, if_pos (by decide)]
    simp
  rw [keyValue, splitLines_generated hexe, List.foldl_cons, hsection,
    foldl_assignments hname size (fun p hp => isName_generatedPairs hp) ⟨true, none⟩ rfl,
    Option.or_none]

theorem executable_exe (env : Env) : executable env env.exe = true := by
  have hmem : '/' ∈ env.exe := List.mem_of_mem_head? env.exe_absolute
  rw [executable, if_neg (List.ne_nil_of_mem hmem), if_pos hmem]
  exact env.exe_executable

/-- What is generated enables, as the binary can be run. -/
theorem generatedEntry_spec (hexe : '\n' ∉ env.exe) :
    entryEnabled env (generatedEntry env) = true ∧ isGenerated (generatedEntry env) = true := by
  have hnodup : ((generatedPairs env).map Prod.fst).Nodup :=
    (by decide : ["Type".toList, "Name".toList, "Exec".toList, "TryExec".toList,
      "Terminal".toList, "NoDisplay".toList, "Hidden".toList, "X-CDM-Generated".toList].Nodup)
  have hvalue : ∀ {key v : CString} (size : ℕ), IsName key → (key, v) ∈ generatedPairs env →
      keyValue (generatedEntry env) key size = some (v.take (size - 1)) := fun size hname hmem => by
    rw [keyValue_generated hexe hname, assigned_of_mem size hnodup hmem]
  have hmem : ∀ p ∈ generatedPairs env, p ∈ generatedPairs env := fun _ h => h
  simp only [generatedPairs, List.forall_mem_cons] at hmem
  obtain ⟨htype, -, hexec, htry, -, -, hhidden, hgenerated, -⟩ := hmem
  have htype := hvalue 32 isName_type htype
  have hexec := hvalue pathMax isName_exec hexec
  have htry := hvalue pathMax isName_tryExec htry
  have hhidden := hvalue 16 isName_hidden hhidden
  have hgenerated := hvalue 16 isName_generated hgenerated
  have hexe' : env.exe.take (pathMax - 1) = env.exe :=
    List.take_of_length_le (Nat.le_sub_one_of_lt env.exe_length)
  rw [hexe'] at htry
  refine ⟨entryEnabled_iff.2 ⟨⟨htype.trans (by decide), ⟨_, hexec, command_ne_nil env⟩,
    fun v hv => ?_⟩, ?_⟩, ?_⟩
  · rw [htry] at hv
    exact Option.some.inj hv ▸ executable_exe env
  · rw [hhidden]
    decide
  · rw [isGenerated, hgenerated]
    decide

end Cdm.Autostart
