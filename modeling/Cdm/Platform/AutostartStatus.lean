import Cdm.Platform.ToggleHidden

/-!
# What the commands about startup report

`set_enabled` and `show_status` of `platform/daemon_autostart.c`, one after the other, for an
account with any entries. What enables or disables is an entry that is written for it, or the one
of the system, but for an entry of the user's own: this one is rewritten, and is read with all
else that it says (`Obeys`).

* `leaves_iff`: what a command leaves behind;
* `agrees_of_settles`, `settles_of_agrees`: when a command and the report agree;
* `commands_agree`: so for sequences of commands, and what the first entry has to be for the
  commands of all of them to agree with the report.
-/

namespace Cdm.Autostart

open Toml (splitLines)

variable {env : Env} {enabled hidden : Bool} {user user' : Option EntryFile}
  {source c text : CString} {daemonState : ℤ}

/-! ## Commands and reports -/

/-- What a command says of the startup. -/
def said (enabled : Bool) : AutostartState := if enabled then .enabled else .disabled

/-- Where a command succeeds, it is reported, and so it is when it is repeated, which succeeds. -/
def Agrees (env : Env) (enabled : Bool) (user : Option EntryFile) : Prop :=
  ∀ action user', setEnabled env enabled user = some (action, user') →
    ∀ daemonState : ℤ, 0 ≤ daemonState →
      showStatus env daemonState user' = .ok (said enabled) ∧
        ∃ action' user'', setEnabled env enabled user' = some (action', user'') ∧
          showStatus env daemonState user'' = .ok (said enabled)

/-- The entry of the user after a command, which changes nothing if it fails. -/
def entryAfter (env : Env) (user : Option EntryFile) (enabled : Bool) : Option EntryFile :=
  ((setEnabled env enabled user).map Prod.snd).getD user

/-- Something holds of every command of a sequence, and of the entry that it finds. -/
def Along (env : Env) (p : Bool → Option EntryFile → Prop) : Option EntryFile → List Bool → Prop
  | _, [] => True
  | user, enabled :: commands => p enabled user ∧ Along env p (entryAfter env user enabled) commands

theorem Along.imp {p q : Bool → Option EntryFile → Prop}
    (hpq : ∀ enabled user, p enabled user → q enabled user) {commands : List Bool} (h : Along env p user commands) : Along env q user commands := by
  induction commands generalizing user with
  | nil => trivial
  | cons enabled commands ih => exact ⟨hpq _ _ h.1, ih h.2⟩

/-! ## What a command leaves behind -/

/-- The entry that enables is generated: no system entry does, and the user has no other one. -/
structure Generates (env : Env) (user : Option EntryFile) : Prop where
  system : systemEntryEnabled env = some false
  user : readEntry user = .missing ∨ ∃ c, readEntry user = .content c ∧ isGenerated c = true
  fits : (generatedEntry env).length < 2 * pathMax

/-- The entry is rewritten: it was not generated, or is to be hidden. It has the section, and
    fits the buffer then. -/
structure IsRewritten (env : Env) (enabled : Bool) (user : Option EntryFile) (c : CString) :
    Prop where
  content : readEntry user = .content c
  own : enabled = true → isGenerated c = false
  hasSection : (startFlags.after (splitLines c)).hasSection = true
  fits : sizeAfter env (!enabled) c < maxEntrySize + 128

/-- The entry of the user before a command that succeeds, and after it. -/
inductive Leaves (env : Env) : Bool → Option EntryFile → Option EntryFile → Prop
  | system {user : Option EntryFile} : systemEntryEnabled env = some true →
      readEntry user = .missing ∨ (∃ c, readEntry user = .content c ∧ isGenerated c = true) →
      Leaves env true user none
  | generated {user : Option EntryFile} : Generates env user →
      Leaves env true user (some ⟨generatedEntry env, 0⟩)
  | override {user : Option EntryFile} : readEntry user = .missing →
      Leaves env false user (some ⟨overrideEntry, 0⟩)
  | rewritten {enabled : Bool} {user : Option EntryFile} {c : CString} :
      IsRewritten env enabled user c →
      Leaves env enabled user (some ⟨rewritten env (!enabled) c, 0⟩)

theorem eq_none_of_missing (h : readEntry user = .missing) : user = none := by
  cases user with
  | none => rfl
  | some f =>
    rw [readEntry] at h
    split_ifs at h

theorem writeEntry_of_ne (h : readEntry user ≠ .failed) (text : CString) :
    writeEntry user text = some (some ⟨text, 0⟩) := by
  rw [writeEntry]
  split
  · exact absurd ‹_› h
  · rfl

theorem generateEntry_eq (hread : readEntry user ≠ .failed) (hadEntry : Bool) :
    generateEntry env user hadEntry =
      if (generatedEntry env).length < 2 * pathMax then
        some (if hadEntry then .updated else .wrote, some ⟨generatedEntry env, 0⟩) else none := by
  rw [generateEntry, if_neg (not_not.2 env.exe_absolute), writeEntry_of_ne hread]
  by_cases hfits : (generatedEntry env).length < 2 * pathMax
  · rw [if_neg (not_le.2 hfits), if_pos hfits]
    rfl
  · rw [if_pos (not_lt.1 hfits), if_neg hfits]

theorem toggleHidden_isSome (h : IsRewritten env enabled user c) :
    toggleHidden env c (!enabled) (maxEntrySize + 128) = some (rewritten env (!enabled) c) :=
  toggleHidden_eq_some.2 ⟨h.hasSection, rfl, by rw [length_rewritten]; exact h.fits⟩

/-- Where the user has no entry, or one that was generated, the one of the system counts. -/
theorem leaves_of_system {used action : AutostartAction} {hadEntry : Bool}
    (hfree : readEntry user = .missing ∨ ∃ c, readEntry user = .content c ∧ isGenerated c = true)
    (h : (match systemEntryEnabled env with
      | none => none
      | some true => some (used, none)
      | some false => generateEntry env user hadEntry) = some (action, user')) :
    Leaves env true user user' := by
  have hne : readEntry user ≠ .failed := by
    rcases hfree with hread | ⟨c, hread, -⟩ <;> simp [hread]
  rw [generateEntry_eq hne] at h
  cases hsystem : systemEntryEnabled env with
  | none => simp [hsystem] at h
  | some b =>
    cases b with
    | true =>
      simp only [hsystem, Option.some.injEq, Prod.mk.injEq] at h
      exact h.2 ▸ .system hsystem hfree
    | false =>
      simp only [hsystem, Option.ite_none_right_eq_some, Option.some.injEq, Prod.mk.injEq] at h
      exact h.2.2 ▸ .generated ⟨hsystem, hfree, h.1⟩

theorem leaves_of_setEnabled {action : AutostartAction}
    (h : setEnabled env enabled user = some (action, user')) : Leaves env enabled user user' := by
  rw [setEnabled] at h
  cases hread : readEntry user with
  | failed => simp [hread] at h
  | missing =>
    obtain rfl := eq_none_of_missing hread
    cases enabled with
    | false =>
      have hne : readEntry none ≠ .failed := by simp [hread]
      simp only [hread, Bool.not_false, if_true, writeEntry_of_ne hne, Option.map_some,
        Option.some.injEq, Prod.mk.injEq] at h
      exact h.2 ▸ .override hread
    | true =>
      simp only [hread, Bool.not_true, Bool.false_eq_true, if_false] at h
      exact leaves_of_system (.inl hread) h
  | content c =>
    simp only [hread] at h
    split_ifs at h with hgenerated
    · obtain ⟨rfl, hc⟩ := Bool.and_eq_true_iff.1 hgenerated
      exact leaves_of_system (.inr ⟨c, hread, hc⟩) h
    · have hne : readEntry user ≠ .failed := by simp [hread]
      cases htoggle : toggleHidden env c (!enabled) (maxEntrySize + 128) with
      | none => simp [htoggle] at h
      | some out =>
        simp only [htoggle, writeEntry_of_ne hne, Option.map_some, Option.some.injEq,
          Prod.mk.injEq] at h
        obtain ⟨hsec, rfl, hlen⟩ := toggleHidden_eq_some.1 htoggle
        rw [← h.2]
        refine .rewritten ⟨hread, fun htrue => ?_, hsec, by rwa [length_rewritten] at hlen⟩
        rw [htrue, Bool.true_and] at hgenerated
        simpa using hgenerated

theorem leaves_iff : (∃ action, setEnabled env enabled user = some (action, user')) ↔
    Leaves env enabled user user' := by
  constructor
  · rintro ⟨action, h⟩
    exact leaves_of_setEnabled h
  · rintro (⟨hsystem, hread | ⟨c, hread, hc⟩⟩ | ⟨hsystem, hread | ⟨c, hread, hc⟩, hfits⟩ |
      hread | h)
    · refine ⟨.usingSystem, ?_⟩
      rw [eq_none_of_missing hread]
      simp [setEnabled, readEntry, hsystem]
    · refine ⟨.removed, ?_⟩
      simp [setEnabled, hread, hc, hsystem]
    · refine ⟨.wrote, ?_⟩
      simp [setEnabled, hread, hsystem, generateEntry_eq, hfits]
    · refine ⟨.updated, ?_⟩
      simp [setEnabled, hread, hc, hsystem, generateEntry_eq, hfits]
    · refine ⟨.wrote, ?_⟩
      simp [setEnabled, hread, writeEntry_of_ne]
    · refine ⟨.updated, ?_⟩
      have hown : ∀ {c}, IsRewritten env enabled user c → (enabled && isGenerated c) = false := by
        intro c h
        cases enabled with
        | false => rfl
        | true => exact h.own rfl
      simp [setEnabled, h.content, hown h, toggleHidden_isSome h, writeEntry_of_ne]

/-! ## What is reported -/

theorem readEntry_written (h : text.length ≤ maxEntrySize) :
    readEntry (some ⟨text, 0⟩) = .content text :=
  if_neg (not_lt.2 h)

theorem showStatus_content (env : Env) (hread : readEntry user = .content c)
    (hstate : 0 ≤ daemonState) :
    showStatus env daemonState user = .ok (said (entryEnabled env c)) := by
  simp only [showStatus, hread, if_neg (not_lt.2 hstate), said]

theorem showStatus_none (h : systemEntryEnabled env = some enabled) (henabled : enabled = true)
    (hstate : 0 ≤ daemonState) : showStatus env daemonState none = .ok (said enabled) := by
  have hnone : readEntry none = .missing := rfl
  rw [systemEntryEnabled] at h
  cases hread : readEntry env.system with
  | failed => simp [hread] at h
  | missing => simp [hread, henabled] at h
  | content c =>
    simp only [hread, Option.some.injEq] at h
    simp only [showStatus, hnone, hread, if_neg (not_lt.2 hstate), said, h]

theorem said_inj {a b : Bool} (h : said a = said b) : a = b := by
  cases a <;> cases b <;> first | rfl | cases h

/-! ## Where a command and the report agree -/

/-- What else an entry says does not keep it from being enabled, or disabled. -/
def Obeys (env : Env) : Bool → CString → Prop
  | true, source => ¬(Runnable env source ∧ ∃ v, strayHidden source = some v ∧ v ≠ "true".toList)
  | false, source => Completes env source ∧ strayHidden source ≠ some "true".toList

theorem entryEnabled_rewritten (h : Rewrites env hidden source) :
    entryEnabled env (rewritten env hidden source) = !hidden ↔ Obeys env hidden source := by
  cases hidden with
  | true =>
    rw [Bool.not_true, ← Bool.not_eq_true, entryEnabled_hidden h]
    rfl
  | false => exact entryEnabled_shown h

/-- A rewritten entry can be read, and obeys. -/
structure Settled (env : Env) (hidden : Bool) (source : CString) : Prop where
  line : isNeeded hidden source "Exec".toList pathMax = true → '\n' ∉ env.exe
  size : sizeAfter env hidden source ≤ maxEntrySize
  obeys : Obeys env hidden source

/-- The entry that a command writes says what the command does. -/
structure Settles (env : Env) (enabled : Bool) (user : Option EntryFile) : Prop where
  line : enabled = true → Generates env user → '\n' ∉ env.exe
  rewritten : ∀ c, IsRewritten env enabled user c → Settled env (!enabled) c

theorem IsRewritten.rewrites (h : IsRewritten env enabled user c) (hc : Settled env (!enabled) c) :
    Rewrites env (!enabled) c :=
  ⟨h.hasSection, hc.line⟩

theorem Settled.readEntry_eq (h : Settled env hidden c) :
    readEntry (some ⟨rewritten env hidden c, 0⟩) = .content (rewritten env hidden c) :=
  readEntry_written (by rw [length_rewritten]; exact h.size)

theorem Settled.report (h : Settled env (!enabled) c) (hc : Rewrites env (!enabled) c)
    (hstate : 0 ≤ daemonState) :
    showStatus env daemonState (some ⟨rewritten env (!enabled) c, 0⟩) = .ok (said enabled) := by
  have hreads := (entryEnabled_rewritten hc).2 h.obeys
  rw [Bool.not_not] at hreads
  rw [showStatus_content env h.readEntry_eq hstate, hreads]

/-- An entry that was rewritten is rewritten to itself. -/
theorem IsRewritten.again (h : IsRewritten env enabled user c) (hc : Settled env (!enabled) c) :
    Leaves env enabled (some ⟨Autostart.rewritten env (!enabled) c, 0⟩)
      (some ⟨Autostart.rewritten env (!enabled) c, 0⟩) := by
  have hrewrites := h.rewrites hc
  obtain ⟨hagain, hsame⟩ := rewritten_rewritten hrewrites
  have hleaves : IsRewritten env enabled (some ⟨Autostart.rewritten env (!enabled) c, 0⟩)
      (Autostart.rewritten env (!enabled) c) := by
    refine ⟨hc.readEntry_eq, fun htrue => ?_, hagain.hasSection, ?_⟩
    · rw [isGenerated_rewritten hrewrites]
      exact h.own htrue
    · rw [sizeAfter_self hrewrites]
      exact h.fits
  have hfile := Leaves.rewritten hleaves
  rwa [hsame] at hfile

theorem hasSection_override : (startFlags.after (splitLines overrideEntry)).hasSection = true := by
  decide

theorem sizeAfter_override (env : Env) : sizeAfter env true overrideEntry ≤ maxEntrySize := by
  rw [sizeAfter, extraKeys_hidden]
  decide

/-- The entry that disables is an entry to hide. -/
theorem settled_override (env : Env) : Settled env true overrideEntry where
  line h := absurd h (by rw [isNeeded_hidden]; exact Bool.false_ne_true)
  size := sizeAfter_override env
  obeys := by
    rintro ⟨-, v, hv, -⟩
    have hnone : strayHidden overrideEntry = none := by decide
    rw [hnone] at hv
    cases hv

theorem length_override : overrideEntry.length ≤ maxEntrySize := by decide

theorem isRewritten_override (env : Env) :
    IsRewritten env false (some ⟨overrideEntry, 0⟩) overrideEntry where
  content := readEntry_written length_override
  own h := nomatch h
  hasSection := hasSection_override
  fits := (sizeAfter_override env).trans_lt (Nat.lt_add_of_pos_right (by decide))

theorem entryEnabled_override (env : Env) : entryEnabled env overrideEntry = false := by
  have hexec : keyValue overrideEntry "Exec".toList pathMax = none := by decide
  rw [← Bool.not_eq_true, entryEnabled_iff]
  rintro ⟨hrun, -⟩
  obtain ⟨v, hv, -⟩ := hrun.exec
  rw [hexec] at hv
  cases hv

theorem readEntry_generated (h : (generatedEntry env).length < 2 * pathMax) :
    readEntry (some ⟨generatedEntry env, 0⟩) = .content (generatedEntry env) :=
  readEntry_written (h.le.trans (by decide))

/-- A command that settles what it writes agrees with the report. -/
theorem agrees_of_settles (h : Settles env enabled user) : Agrees env enabled user := by
  intro action user' hset daemonState hstate
  -- It is enough to know what the two commands leave behind.
  have hagain : ∀ {user''}, Leaves env enabled user' user'' →
      showStatus env daemonState user'' = .ok (said enabled) →
      ∃ action' user'', setEnabled env enabled user' = some (action', user'') ∧
        showStatus env daemonState user'' = .ok (said enabled) := fun hleaves hreport =>
    (leaves_iff.2 hleaves).imp fun _ hset' => ⟨_, hset', hreport⟩
  cases leaves_iff.1 ⟨action, hset⟩ with
  | system hsystem _ =>
    have hreport := showStatus_none hsystem rfl hstate
    exact ⟨hreport, hagain (.system hsystem (.inl rfl)) hreport⟩
  | generated hgenerates =>
    obtain ⟨henabled, hgenerated⟩ := generatedEntry_spec (h.line rfl hgenerates)
    have hread := readEntry_generated hgenerates.fits
    have hreport := showStatus_content env hread hstate
    rw [henabled] at hreport
    exact ⟨hreport, hagain (.generated ⟨hgenerates.system, .inr ⟨_, hread, hgenerated⟩,
      hgenerates.fits⟩) hreport⟩
  | override _ =>
    have hreport := showStatus_content env (isRewritten_override env).content hstate
    rw [entryEnabled_override] at hreport
    have hrewritten := isRewritten_override env
    exact ⟨hreport, hagain (.rewritten hrewritten)
      ((settled_override env).report (hrewritten.rewrites (settled_override env)) hstate)⟩
  | rewritten hrewritten =>
    have hsettled := h.rewritten _ hrewritten
    have hreport := hsettled.report (hrewritten.rewrites hsettled) hstate
    exact ⟨hreport, hagain (hrewritten.again hsettled) hreport⟩

/-- And only such a command does, if the path of the binary is a line. -/
theorem settles_of_agrees (hexe : '\n' ∉ env.exe) (h : Agrees env enabled user) :
    Settles env enabled user where
  line _ _ := hexe
  rewritten c hc := by
    obtain ⟨action, hset⟩ := leaves_iff.2 (.rewritten hc)
    obtain ⟨hreport, -⟩ := h action _ hset 0 le_rfl
    -- A report on an entry that is too large fails.
    have hsize : sizeAfter env (!enabled) c ≤ maxEntrySize := by
      by_contra hlarge
      have hfailed : readEntry (some ⟨Autostart.rewritten env (!enabled) c, 0⟩) = .failed := by
        rw [readEntry, length_rewritten]
        exact if_pos (not_le.1 hlarge)
      simp [showStatus, hfailed] at hreport
    have hread : readEntry (some ⟨Autostart.rewritten env (!enabled) c, 0⟩) =
        .content (Autostart.rewritten env (!enabled) c) :=
      readEntry_written (by rw [length_rewritten]; exact hsize)
    refine ⟨fun _ => hexe, hsize, (entryEnabled_rewritten ⟨hc.hasSection, fun _ => hexe⟩).1 ?_⟩
    rw [showStatus_content env hread le_rfl, Except.ok.injEq] at hreport
    rw [said_inj hreport, Bool.not_not]

/-! ## Sequences of commands -/

/-- Every command settles what it writes, now and later: an entry that is enabled has nothing
    behind a single bracket that counts when it is disabled. -/
structure Lasting (env : Env) (user : Option EntryFile) : Prop where
  settles : ∀ enabled, Settles env enabled user
  stray : ∀ c, IsRewritten env true user c → strayHidden c = none

/-- Nothing is left to rewrite. -/
theorem lasting_none (h : Generates env none → '\n' ∉ env.exe) : Lasting env none where
  settles _ := ⟨fun _ => h, fun _ hc => nomatch hc.content⟩
  stray _ hc := nomatch hc.content

theorem strayHidden_generated (hexe : '\n' ∉ env.exe) :
    strayHidden (generatedEntry env) = none := by
  refine strayHidden_of_notMem fun hmem => ?_
  rw [splitLines_generated hexe, List.mem_cons, List.mem_map] at hmem
  rcases hmem with hmem | ⟨p, hp, hmem⟩
  · exact absurd hmem (by decide)
  · have hhead := isHeading_assignment (v := p.2) (isName_generatedPairs hp)
    rw [hmem] at hhead
    exact absurd hhead (by decide)

theorem sizeAfter_generated (hexe : '\n' ∉ env.exe)
    (hfits : (generatedEntry env).length < 2 * pathMax) :
    sizeAfter env true (generatedEntry env) ≤ maxEntrySize := by
  have hkept := keptSize_le .outside (splitLines (generatedEntry env))
  have htext : (unlines (splitLines (generatedEntry env))).length =
      (generatedEntry env).length := by
    rw [splitLines_generated hexe, ← generatedEntry_eq]
  rw [sizeAfter, rewrittenSize, extraKeys_hidden]
  have hkey : (hiddenKey true).length = 11 := by decide
  have hnone : (unlines []).length = 0 := rfl
  rw [hkey, hnone]
  rw [htext] at hkept
  rw [pathMax] at hfits
  rw [maxEntrySize]
  omega

/-- An entry that was generated is not rewritten but to be hidden. -/
theorem lasting_of_isGenerated (hread : readEntry user = .content text)
    (hgenerated : isGenerated text = true) (hline : Generates env user → '\n' ∉ env.exe)
    (h : Settled env true text) : Lasting env user := by
  have hown : ∀ {enabled c}, IsRewritten env enabled user c → enabled = false ∧ c = text := by
    intro enabled c hc
    have hcontent := hc.content
    rw [hread, EntryState.content.injEq] at hcontent
    subst hcontent
    refine ⟨?_, rfl⟩
    by_contra htrue
    rw [hc.own (by simpa using htrue)] at hgenerated
    cases hgenerated
  refine ⟨fun enabled => ⟨fun _ => hline, fun c hc => ?_⟩, fun c hc => ?_⟩
  · obtain ⟨rfl, rfl⟩ := hown hc
    exact h
  · exact absurd (hown hc).1 (by decide)

theorem lasting_generated (hexe : '\n' ∉ env.exe)
    (hfits : (generatedEntry env).length < 2 * pathMax) :
    Lasting env (some ⟨generatedEntry env, 0⟩) := by
  refine lasting_of_isGenerated (readEntry_generated hfits) (generatedEntry_spec hexe).2
    (fun _ => hexe) ⟨fun _ => hexe, sizeAfter_generated hexe hfits, ?_⟩
  rintro ⟨-, v, hv, -⟩
  rw [strayHidden_generated hexe] at hv
  cases hv

theorem lasting_override (h : systemEntryEnabled env = some false →
      (generatedEntry env).length < 2 * pathMax → '\n' ∉ env.exe) :
    Lasting env (some ⟨overrideEntry, 0⟩) :=
  lasting_of_isGenerated (isRewritten_override env).content (by decide)
    (fun hg => h hg.system hg.fits) (settled_override env)

/-- What a rewritten entry is rewritten to, the entry itself could have been. -/
theorem IsRewritten.of_rewritten (h : IsRewritten env enabled user c)
    (hc : Settled env (!enabled) c) {enabled' : Bool} {c' : CString}
    (h' : IsRewritten env enabled' (some ⟨Autostart.rewritten env (!enabled) c, 0⟩) c') :
    c' = Autostart.rewritten env (!enabled) c ∧
      (enabled' = true → IsRewritten env true user c) := by
  have hcontent := h'.content
  rw [hc.readEntry_eq, EntryState.content.injEq] at hcontent
  subst hcontent
  refine ⟨rfl, ?_⟩
  rintro rfl
  refine ⟨h.content, fun _ => ?_, h.hasSection, ?_⟩
  · rw [← isGenerated_rewritten (h.rewrites hc)]
    exact h'.own rfl
  · exact (sizeAfter_shown (h.rewrites hc)).symm.trans_lt h'.fits

theorem Lasting.rewritten (h : Lasting env user) (hc : IsRewritten env enabled user c) :
    Lasting env (some ⟨Autostart.rewritten env (!enabled) c, 0⟩) := by
  have hsettled := (h.settles enabled).rewritten c hc
  have hrewrites := hc.rewrites hsettled
  have hstray := strayHidden_rewritten hrewrites
  refine ⟨fun enabled' => ⟨fun htrue hg => ?_, fun c' hc' => ?_⟩, fun c' hc' => ?_⟩
  · -- The entry was generated before.
    refine (h.settles true).line rfl ⟨hg.system, .inr ⟨c, hc.content, ?_⟩, hg.fits⟩
    rcases hg.user with hmissing | ⟨c', hread, hgenerated⟩
    · rw [hsettled.readEntry_eq] at hmissing
      cases hmissing
    · rw [hsettled.readEntry_eq, EntryState.content.injEq] at hread
      rw [← isGenerated_rewritten hrewrites, hread]
      exact hgenerated
  · obtain ⟨rfl, hshown⟩ := hc.of_rewritten hsettled hc'
    cases enabled' with
    | true =>
      have hfirst := hshown rfl
      obtain ⟨hline, hsize, hcompletes, hvalue⟩ := (h.settles true).rewritten c hfirst
      -- It is shown now: what it lacked, if anything, it lacked before.
      refine ⟨fun hneeded => ?_, ?_, completes_rewritten hrewrites hcompletes, ?_⟩
      · cases enabled with
        | true =>
          rw [(extraKeys_rewritten hrewrites).2] at hneeded
          cases hneeded
        | false =>
          have hexec := (keyValue_hidden hrewrites).2.2
          exact hline ((congrArg Option.isNone hexec).symm.trans hneeded)
      · exact (sizeAfter_shown hrewrites).trans_le hsize
      · rw [hstray]
        exact hvalue
    | false =>
      refine ⟨fun hneeded => ?_, ?_, ?_⟩
      · rw [Bool.not_false, isNeeded_hidden] at hneeded
        cases hneeded
      · cases enabled with
        | true =>
          exact (sizeAfter_hidden_le env _).trans
            ((sizeAfter_shown hrewrites).trans_le hsettled.size)
        | false => exact (sizeAfter_self hrewrites).trans_le hsettled.size
      · -- Once it was shown it can be run, and no stray value may be left to show it.
        rintro ⟨hrun, v, hv, hne⟩
        rw [hstray] at hv
        cases enabled with
        | true =>
          rw [h.stray c hc] at hv
          cases hv
        | false => exact hsettled.obeys ⟨(runnable_hidden hrewrites).1 hrun, v, hv, hne⟩
  · obtain ⟨rfl, hshown⟩ := hc.of_rewritten hsettled hc'
    rw [hstray]
    exact h.stray c (hshown rfl)

/-- A command keeps it so. -/
theorem Lasting.leaves (h : Lasting env user) (hleaves : Leaves env enabled user user') :
    Lasting env user' := by
  cases hleaves with
  | system hsystem _ =>
    refine lasting_none fun hg => ?_
    rw [hg.system] at hsystem
    cases hsystem
  | generated hg => exact lasting_generated ((h.settles true).line rfl hg) hg.fits
  | override hread =>
    exact lasting_override fun hsystem hfits =>
      (h.settles true).line rfl ⟨hsystem, .inl hread, hfits⟩
  | rewritten hc => exact h.rewritten hc

theorem Lasting.entryAfter (h : Lasting env user) (enabled : Bool) :
    Lasting env (entryAfter env user enabled) := by
  rw [Autostart.entryAfter]
  cases hset : setEnabled env enabled user with
  | none => exact h
  | some change => exact h.leaves (leaves_iff.1 ⟨change.1, hset⟩)

theorem Lasting.along (h : Lasting env user) (commands : List Bool) :
    Along env (Settles env) user commands := by
  induction commands generalizing user with
  | nil => trivial
  | cons enabled commands ih => exact ⟨h.settles enabled, ih (h.entryAfter enabled)⟩

/-- An entry that is enabled and then disabled tells what is behind its brackets. -/
theorem lasting_of_along (hexe : '\n' ∉ env.exe)
    (h : ∀ commands, Along env (Agrees env) user commands) : Lasting env user := by
  have hsettles (enabled : Bool) : Settles env enabled user :=
    settles_of_agrees hexe (h [enabled]).1
  refine ⟨hsettles, fun c hc => ?_⟩
  obtain ⟨hline, hsize, hcompletes, hvalue⟩ := (hsettles true).rewritten c hc
  have hsettled : Settled env false c := ⟨hline, hsize, hcompletes, hvalue⟩
  have hrewrites : Rewrites env false c := hc.rewrites hsettled
  obtain ⟨action, hset⟩ := leaves_iff.2 (.rewritten hc)
  have hafter : entryAfter env user true = some ⟨rewritten env false c, 0⟩ := by
    rw [entryAfter, hset]
    rfl
  -- The entry is hidden again.
  have hagain := (h [true, false]).2.1
  rw [hafter] at hagain
  have hle : sizeAfter env true (rewritten env false c) ≤ maxEntrySize :=
    (sizeAfter_hidden_le env _).trans ((sizeAfter_shown hrewrites).trans_le hsize)
  have hhide : IsRewritten env false (some ⟨rewritten env false c, 0⟩) (rewritten env false c) :=
    ⟨hsettled.readEntry_eq, (nomatch ·), (rewritten_rewritten hrewrites).1.hasSection,
      hle.trans_lt (Nat.lt_add_of_pos_right (by decide))⟩
  have hobeys := ((settles_of_agrees hexe hagain).rewritten _ hhide).obeys
  by_contra hsome
  obtain ⟨v, hv⟩ := Option.ne_none_iff_exists'.1 hsome
  refine hobeys ⟨(runnable_shown hrewrites).2 hcompletes, v, ?_, fun htrue => hvalue (htrue ▸ hv)⟩
  rw [strayHidden_rewritten hrewrites]
  exact hv

/-- Along a sequence of commands, each agrees with the report if each settles what it writes.
    They do so for all sequences if the first entry is lasting. Where the path of the binary is a
    line, both conditions are exact. -/
theorem commands_agree (env : Env) (user : Option EntryFile) :
    (∀ commands, Along env (Settles env) user commands → Along env (Agrees env) user commands) ∧
      (Lasting env user → ∀ commands, Along env (Agrees env) user commands) ∧
      ('\n' ∉ env.exe →
        (∀ commands, Along env (Agrees env) user commands → Along env (Settles env) user commands) ∧
          ((∀ commands, Along env (Agrees env) user commands) → Lasting env user)) := by
  refine ⟨fun commands => Along.imp fun _ _ => agrees_of_settles,
    fun h commands => (h.along commands).imp fun _ _ => agrees_of_settles, fun hexe => ⟨?_, ?_⟩⟩
  · exact fun commands => Along.imp fun _ _ => settles_of_agrees hexe
  · exact lasting_of_along hexe

/-- An account with the binary at its plain path. -/
def cdmEnv : Env := bareEnv "/cdm".toList (by decide) (by decide)

/-- An entry of the user's own with little in it. -/
def customEntry : CString := "[Desktop Entry]\nHidden=true\nX-Custom=keep\n".toList

theorem lasting_customEntry : Lasting cdmEnv (some ⟨customEntry, 0⟩) := by
  have hcontent : ∀ {enabled c}, IsRewritten cdmEnv enabled (some ⟨customEntry, 0⟩) c →
      c = customEntry := by
    intro enabled c hc
    have hread := hc.content
    rw [readEntry_written (by decide), EntryState.content.injEq] at hread
    exact hread.symm
  have hexe : '\n' ∉ cdmEnv.exe := by decide
  have hstray : strayHidden customEntry = none := by decide
  have hnone : keyValue customEntry "Type".toList 32 = none ∧
      keyValue customEntry "Exec".toList pathMax = none ∧
        keyValue customEntry "TryExec".toList pathMax = none := by decide
  refine ⟨fun enabled => ⟨fun _ _ => hexe, fun c hc => ?_⟩, fun c hc => ?_⟩
  · rw [hcontent hc]
    refine ⟨fun _ => hexe, by cases enabled <;> decide, ?_⟩
    cases enabled with
    | true =>
      refine ⟨⟨fun v hv => ?_, fun v hv => ?_, fun v hv => ?_⟩, by rw [hstray]; decide⟩
      · rw [hnone.1] at hv
        cases hv
      · rw [hnone.2.1] at hv
        cases hv
      · rw [hnone.2.2] at hv
        cases hv
    | false =>
      rintro ⟨-, v, hv, -⟩
      rw [hstray] at hv
      cases hv
  · rw [hcontent hc]
    exact hstray

theorem commands_agree_custom :
    Along cdmEnv (Agrees cdmEnv) (some ⟨customEntry, 0⟩) [true, true, false, false, true] :=
  (commands_agree cdmEnv _).2.1 lasting_customEntry _

/-- An entry of another type is not enabled, and one with a value behind a bracket not disabled,
    by a command that succeeds. -/
theorem exists_not_agree :
    (∃ file, setEnabled cdmEnv true (some ⟨"[Desktop Entry]\nType=Link\n".toList, 0⟩) =
        some (.updated, some file) ∧ showStatus cdmEnv 0 (some file) = .ok .disabled) ∧
      ¬Along cdmEnv (Agrees cdmEnv) (some ⟨"[Desktop Entry]\nType=Link\n".toList, 0⟩) [true] ∧
    (∃ file, setEnabled cdmEnv false
        (some ⟨"[Desktop Entry]\nType=Application\nExec=cdm\n[\nHidden=false\n".toList, 0⟩) =
        some (.updated, some file) ∧ showStatus cdmEnv 0 (some file) = .ok .enabled) ∧
      ¬Along cdmEnv (Agrees cdmEnv)
        (some ⟨"[Desktop Entry]\nType=Application\nExec=cdm\n[\nHidden=false\n".toList, 0⟩)
        [false] := by
  -- What is reported is not what the command says.
  have hnot : ∀ {enabled user file state},
      setEnabled cdmEnv enabled user = some (.updated, some file) →
      showStatus cdmEnv 0 (some file) = .ok state → state ≠ said enabled →
      ¬Along cdmEnv (Agrees cdmEnv) user [enabled] := by
    intro enabled user file state hset hstatus hne h
    have hreport := (h.1 _ _ hset 0 le_rfl).1
    rw [hstatus, Except.ok.injEq] at hreport
    exact hne hreport
  have hlink : setEnabled cdmEnv true (some ⟨"[Desktop Entry]\nType=Link\n".toList, 0⟩) =
      some (.updated, some ⟨("[Desktop Entry]\nType=Link\nHidden=false\n" ++
        "Name=Core Download Manager Daemon\nExec=/cdm daemon\n").toList, 0⟩) := by decide
  have hbehind : setEnabled cdmEnv false
      (some ⟨"[Desktop Entry]\nType=Application\nExec=cdm\n[\nHidden=false\n".toList, 0⟩) =
      some (.updated, some ⟨("[Desktop Entry]\nType=Application\nExec=cdm\nHidden=true\n[\n" ++
        "Hidden=false\n").toList, 0⟩) := by decide
  have hdisabled : showStatus cdmEnv 0 (some ⟨("[Desktop Entry]\nType=Link\nHidden=false\n" ++
      "Name=Core Download Manager Daemon\nExec=/cdm daemon\n").toList, 0⟩) = .ok .disabled := by
    decide
  have henabled : showStatus cdmEnv 0 (some
      ⟨("[Desktop Entry]\nType=Application\nExec=cdm\nHidden=true\n[\n" ++
        "Hidden=false\n").toList, 0⟩) = .ok .enabled := by decide
  exact ⟨⟨_, hlink, hdisabled⟩, hnot hlink hdisabled (by decide), ⟨_, hbehind, henabled⟩,
    hnot hbehind henabled (by decide)⟩

end Cdm.Autostart
