import Cdm.Daemon.Ids
import Cdm.Platform.ListAll

/-!
# The downloads listed

What a client that asks for the list (`MSG_LIST_ALL` in `platform/ipc_socket.c`) learns of the
downloads that `reserve_download` has stored (`Registry`).

* `Registry.storedIds_of_step`: a download stored stays, and only an insertion adds one;
* `Registry.ahead_of_reachable`: the identifier that is being reserved is above all of them;
* `Registry.listedIds_spec`: the downloads listed are stored, and each is listed once, the newest
  first.
-/

namespace Cdm

/-! ## The identifiers stored -/

namespace Registry

variable {s s' : Registry} {a : RegistryAct}

/-- The identifiers of the downloads stored. -/
def storedIds (s : Registry) : List ℤ := s.tables.downloads.map (·.id)

/-- An identifier that is being reserved is above all identifiers stored. -/
def Ahead (s : Registry) : Prop := ∀ id ∈ s.pc.id?, ∀ n ∈ s.storedIds, n < (id : ℤ)

theorem start_eq (s : Registry) : s.start.tables = s.tables ∧ s.start.pc = .idle := by
  rw [start, queueManagerSeedNextId]
  generalize s.tables.dbRestoreQueue.reverse = l
  have hfold (t : Registry) : (l.foldl queueManagerAddExisting t).tables = t.tables ∧
      (l.foldl queueManagerAddExisting t).pc = t.pc := by
    induction l generalizing t with
    | nil => exact ⟨rfl, rfl⟩
    | cons d l ih => exact ih _
  exact hfold _

theorem issued_le_of_step (hs : s.step a = some s') : s.issued ≤ s'.issued := by
  cases a with
  | restart =>
    cases hs
    exact (RegistryInv.issued_start s).ge
  | call c =>
    cases c <;> cases hs <;> exact le_rfl
  | remove =>
    rw [step] at hs
    split at hs <;> cases hs
    rw [queueManagerRemove]
    split
    · exact le_rfl
    · split_ifs <;> exact le_rfl
  | add url dest opts =>
    rw [step] at hs
    split at hs <;> cases hs
    exact Nat.le_succ _
  | change id f =>
    cases hs
    exact le_rfl
  | claim ok =>
    rw [step] at hs
    split at hs <;> cases hs
    cases ok <;> exact le_rfl
  | insert ok =>
    rw [step] at hs
    split at hs <;> cases hs
    cases ok <;> exact le_rfl

/-- An insertion stores the download reserved. -/
theorem storedIds_insert (h : RegistryInv s) (hle : s.nextId ≤ 2 ^ 31) {id : ℕ}
    {url dest : CString} {opts : RequestOptions} (hpc : s.pc = .claimed id url dest opts)
    (hs : s.step (.insert true) = some s') : s'.storedIds = s.storedIds ++ [(id : ℤ)] := by
  rw [step, hpc] at hs
  cases hs
  exact (h.insert hle hpc).1

/-- Nothing but an insertion changes what is stored. -/
theorem storedIds_of_step_ne (ha : a ≠ .insert true) (hs : s.step a = some s') :
    s'.storedIds = s.storedIds := by
  cases a with
  | restart =>
    cases hs
    rw [storedIds, s.start_eq.1]
    rfl
  | call c =>
    have hupdate (id : ℕ) {f : DownloadCols → DownloadCols} (hf : ∀ r, (f r).id = r.id) :
        (s.tables.updateDownload id f).downloads.map (·.id) = s.tables.downloads.map (·.id) := by
      rw [Sqlite.updateDownload, List.map_map]
      refine List.map_congr_left fun r _ => ?_
      rw [Function.comp_apply, apply_ite DownloadCols.id, hf, ite_self]
    cases c with
    | insertDownload => cases hs
    | insertReservedDownload => cases hs
    | updateStatus id status =>
      cases hs
      exact hupdate id fun _ => rfl
    | updateTotalSize id n =>
      cases hs
      exact hupdate id fun _ => rfl
    | insertChunk id a b =>
      cases hs
      rw [storedIds, DbCall.run, Sqlite.dbInsertChunk]
      split_ifs <;> rfl
    | updateChunkProgress => cases hs; rfl
    | updateChunkRange => cases hs; rfl
    | deleteChunks => cases hs; rfl
  | remove =>
    rw [step] at hs
    split at hs <;> cases hs
    rw [storedIds, queueManagerRemove]
    split
    · rfl
    · split_ifs <;> rfl
  | add url dest opts =>
    rw [step] at hs
    split at hs <;> cases hs
    rfl
  | change id f =>
    cases hs
    rfl
  | claim ok =>
    rw [step] at hs
    split at hs <;> cases hs
    cases ok <;> rfl
  | insert ok =>
    cases ok with
    | true => exact absurd rfl ha
    | false =>
      rw [step] at hs
      split at hs <;> cases hs
      rfl

/-- What is stored stays, and only an insertion adds to it. -/
theorem storedIds_of_step (h : RegistryInv s) (hle : s.nextId ≤ 2 ^ 31) (hs : s.step a = some s') :
    s'.storedIds = s.storedIds ∨ ∃ id url dest opts, a = .insert true ∧
      s.pc = .claimed id url dest opts ∧ s'.storedIds = s.storedIds ++ [(id : ℤ)] := by
  by_cases ha : a = .insert true
  · subst ha
    have hclaimed := hs
    rw [step] at hclaimed
    split at hclaimed <;> cases hclaimed
    rename_i id url dest opts hpc
    exact .inr ⟨id, url, dest, opts, rfl, hpc, storedIds_insert h hle hpc hs⟩
  · exact .inl (storedIds_of_step_ne ha hs)

/-- An identifier being reserved was being reserved, or is the next one. -/
theorem pc_of_step (hs : s.step a = some s') :
    (∀ id ∈ s'.pc.id?, id ∈ s.pc.id? ∧ a ≠ .insert true) ∨
      ∀ id ∈ s'.pc.id?, id = s.nextId ∧ s'.storedIds = s.storedIds := by
  cases a with
  | restart =>
    cases hs
    refine .inl fun id hid => ?_
    rw [s.start_eq.2] at hid
    cases hid
  | call c => cases c <;> cases hs <;> exact .inl fun id hid => ⟨hid, by simp⟩
  | change id f =>
    cases hs
    exact .inl fun id hid => ⟨hid, by simp⟩
  | add url dest opts =>
    rw [step] at hs
    split at hs <;> cases hs
    refine .inr fun id hid => ⟨?_, rfl⟩
    rw [queueManagerAdd] at hid
    split_ifs at hid
    · cases hid
    · cases hid
      rfl
  | claim ok =>
    rw [step] at hs
    split at hs <;> cases hs
    rename_i hpc
    refine .inl fun id hid => ⟨?_, by simp⟩
    rw [hpc]
    cases ok <;> exact hid
  | insert ok =>
    rw [step] at hs
    split at hs <;> cases hs
    rename_i hpc
    refine .inl fun id hid => ?_
    rw [hpc]
    cases ok with
    | true => cases hid
    | false => exact ⟨hid, by simp⟩
  | remove =>
    rw [step] at hs
    split at hs <;> cases hs
    refine .inl fun id hid => ?_
    cases hid

theorem Ahead.step (h : RegistryInv s) (hle : s.nextId ≤ 2 ^ 31) (hahead : s.Ahead)
    (hs : s.step a = some s') : s'.Ahead := by
  intro id hid n hn
  rcases pc_of_step hs with hpc | hpc
  · obtain ⟨hold, hne⟩ := hpc id hid
    rcases storedIds_of_step h hle hs with hids | ⟨_, _, _, _, rfl, -⟩
    · exact hahead id hold n (hids ▸ hn)
    · exact absurd rfl hne
  · -- The next identifier is above all rows.
    obtain ⟨rfl, hids⟩ := hpc id hid
    rw [hids] at hn
    obtain ⟨r, hr, rfl⟩ := List.mem_map.mp hn
    obtain ⟨m, hm, heq⟩ := h.row_lt r hr
    rw [heq]
    exact_mod_cast hm

theorem ahead_of_reachable (hs : Run.Reachable Registry.step IsInit (fun _ _ => True) s)
    (hissued : s.issued ≤ 2 ^ 31 - 1) : s.Ahead := by
  have hinv : s.issued ≤ 2 ^ 31 - 1 → RegistryInv s ∧ s.Ahead := by
    refine hs.invariant (I := fun s => s.issued ≤ 2 ^ 31 - 1 → RegistryInv s ∧ s.Ahead)
      (fun s h _ => ⟨.of_isInit h, fun id hid => ?_⟩) fun s a s' ih _ hs hissued => ?_
    · rw [h.2.2.2.2.1] at hid
      exact nomatch hid
    · have hold := issued_le_of_step hs
      obtain ⟨hregistry, hahead⟩ := ih (by omega)
      have hle := hregistry.le
      exact ⟨RegistryInv.step (fun _ => hregistry) hs hissued,
        hahead.step hregistry (by omega) hs⟩
  exact (hinv hissued).2

end Registry

/-! ## The list -/

namespace Registry

variable {s s' : Registry}

/-- The identifiers of the downloads listed, from the top. -/
def listedIds (s : Registry) : List ℕ := (s.tables.dbVisitDownloads ipcListAllMax).map (·.id)

theorem map_id_listedRows (ratio : ℕ → ℕ → BitVec 32) (live : Store) :
    (listedRows ratio live s.tables).map (·.id) = s.listedIds := by
  rw [listedRows, listedIds, List.map_map]
  rfl

theorem length_listedIds_le : s.listedIds.length ≤ 200 := by
  rw [listedIds, List.length_map, Sqlite.length_dbVisitDownloads, Sqlite.dbCountDownloads,
    ipcListAllMax]
  split_ifs <;> omega

theorem listedIds_eq :
    s.listedIds =
      ((s.storedIds.insertionSort fun a b => b ≤ a).take ipcListAllMax).map columnInt := by
  rw [listedIds, Sqlite.dbVisitDownloads, Sqlite.newestRows, List.map_map, storedIds,
    ← List.map_insertionSort (fun a b : DownloadCols => b.id ≤ a.id) _ DownloadCols.id
      s.tables.downloads fun _ _ _ _ => Iff.rfl, ← List.map_take, List.map_map]
  rfl

/-- The downloads listed are stored, and each is listed once. -/
theorem listedIds_spec (h : RegistryInv s) (hle : s.nextId ≤ 2 ^ 31) :
    s.listedIds.Pairwise (· > ·) ∧ ∀ id ∈ s.listedIds, (id : ℤ) ∈ s.storedIds := by
  have hids : s.listedIds = (s.tables.newestRows ipcListAllMax).map fun d => columnInt d.id := by
    rw [listedIds, Sqlite.dbVisitDownloads, List.map_map]
    rfl
  obtain ⟨-, hsorted, older, hperm, -⟩ := s.tables.newestRows_spec ipcListAllMax
  have hmem {d : DownloadCols} (hd : d ∈ s.tables.newestRows ipcListAllMax) :
      d ∈ s.tables.downloads :=
    hperm.subset (List.mem_append_left _ hd)
  have hcolumn {d : DownloadCols} (hd : d ∈ s.tables.newestRows ipcListAllMax) :
      (columnInt d.id : ℤ) = d.id := by
    obtain ⟨n, hn, hid⟩ := h.row_lt d (hmem hd)
    rw [hid, columnInt_natCast (by omega)]
  rw [hids]
  constructor
  · -- Different rows have different identifiers.
    have hnodup : ((s.tables.newestRows ipcListAllMax).map (·.id)).Nodup :=
      List.Nodup.of_append_left (by
        rw [← List.map_append]
        exact (hperm.map _).nodup_iff.mpr h.rows)
    rw [List.pairwise_map]
    rw [List.Nodup, List.pairwise_map] at hnodup
    refine (hsorted.and hnodup).imp_of_mem fun ha hb hab => ?_
    have hlt := lt_of_le_of_ne hab.1 (Ne.symm hab.2)
    rw [← hcolumn ha, ← hcolumn hb] at hlt
    exact_mod_cast hlt
  · intro id hid
    obtain ⟨d, hd, rfl⟩ := List.mem_map.mp hid
    rw [hcolumn hd]
    exact List.mem_map_of_mem (hmem hd)

end Registry

end Cdm
