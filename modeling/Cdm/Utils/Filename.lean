import Cdm.Utils.Path

/-!
# The name of the file in a URL

`path_filename_from_url` of `utils/path.c`: what follows the last slash of the URL, up to a
question mark. A slash of the query is a slash of the URL, and a fragment is no query, so that
what is found is the last segment of the path only if neither comes after it
(`filenameFromUrl_iff`).
-/

namespace Cdm

/-- The name of the file in a URL, of less than `outSize` bytes: what follows the last
    slash, up to a question mark. -/
def pathFilenameFromUrl (url : CString) (outSize : ℕ) : CString :=
  -- What follows the slash is copied into an array first, and cut at the query there.
  let temp := ((splitName url).2.take 511).takeWhile (· ≠ '?')
  (if temp = [] then "download.bin".toList else temp).take (outSize - 1)

variable {url name name' : CString} {outSize : ℕ}

theorem pathFilenameFromUrl_ne_nil (h : 1 < outSize) : pathFilenameFromUrl url outSize ≠ [] := by
  have htake {l : CString} (hl : l ≠ []) : l.take (outSize - 1) ≠ [] := by
    rw [ne_eq, List.take_eq_nil_iff]
    rintro (h₁ | h₁)
    · omega
    · exact hl h₁
  rw [pathFilenameFromUrl]
  split_ifs with hnil
  · exact htake (by decide)
  · exact htake hnil

/-! ## What is found -/

/-- What follows the last slash, up to a question mark. -/
def lastPart (url : CString) : CString := (splitName url).2.takeWhile (· ≠ '?')

/-- The name, or the one that is used if it is empty. -/
def orDownloadBin (name : CString) : CString := if name = [] then "download.bin".toList else name

theorem pathFilenameFromUrl_eq (url : CString) (h : 512 ≤ outSize) :
    pathFilenameFromUrl url outSize = orDownloadBin ((lastPart url).take 511) := by
  rw [pathFilenameFromUrl, lastPart, List.take_takeWhile]
  refine List.take_of_length_le ?_
  split_ifs
  · exact (by decide : "download.bin".toList.length ≤ 511).trans (by omega)
  · have hle := (List.takeWhile_prefix (l := (splitName url).2.take 511) (· ≠ '?')).length_le
    rw [List.length_take] at hle
    omega

theorem orDownloadBin_eq_iff : orDownloadBin name = orDownloadBin name' ↔
    name = name' ∨ name = [] ∧ name' = "download.bin".toList ∨
      name = "download.bin".toList ∧ name' = [] := by
  have hne : "download.bin".toList ≠ [] := by decide
  rw [orDownloadBin, orDownloadBin]
  generalize "download.bin".toList = download at hne
  by_cases hname : name = []
  · by_cases hname' : name' = [] <;> simp [hname, hname', hne.symm, eq_comm]
  · by_cases hname' : name' = [] <;> simp [hname, hname']

/-! ## The last segment of the path -/

/-- A URL, by the last segment of its path: the scheme, the host and the path up to its last
    slash in front of it, and the query or the fragment behind it, if there is one. -/
structure Url where
  front : CString
  segment : CString
  rest : CString
  segment_plain : '/' ∉ segment ∧ '?' ∉ segment ∧ '#' ∉ segment
  rest_head : rest = [] ∨ rest.head? = some '?' ∨ rest.head? = some '#'

namespace Url

def text (u : Url) : CString := u.front ++ '/' :: (u.segment ++ u.rest)

/-- There is no slash and no fragment behind the segment, or the fragment is cut off with what is
    too long; or the name behind the last slash is the same by chance. -/
def Finds (u : Url) : Prop :=
  if '/' ∈ u.rest then
    (lastPart u.rest).take 511 = u.segment ∨
      (lastPart u.rest).take 511 = [] ∧ u.segment = "download.bin".toList ∨
      (lastPart u.rest).take 511 = "download.bin".toList ∧ u.segment = []
  else u.rest.head? ≠ some '#' ∨ u.segment.length = 511

instance (u : Url) : Decidable u.Finds := inferInstanceAs (Decidable (ite _ _ _))

variable (u : Url)

/-- A slash behind the path is the last one of the URL. -/
theorem lastPart_of_mem (h : '/' ∈ u.rest) : lastPart u.text = lastPart u.rest := by
  obtain ⟨before, after, hrest, hafter⟩ := exists_last_of_mem h
  have hsplit (front : CString) : splitName (front ++ (before ++ '/' :: after)) =
      (front ++ before ++ ['/'], after) := by
    rw [← splitName_append (.inr (by simp)) hafter]
    simp
  have htext : u.text = (u.front ++ '/' :: u.segment) ++ (before ++ '/' :: after) := by
    rw [text, hrest]
    simp
  have hown := hsplit []
  rw [List.nil_append] at hown
  rw [lastPart, lastPart, htext, hsplit, hrest, hown]

theorem lastPart_of_notMem (h : '/' ∉ u.rest) :
    lastPart u.text = u.segment ++ u.rest.takeWhile (· ≠ '?') := by
  have hnot : '/' ∉ u.segment ++ u.rest := by
    rw [List.mem_append, not_or]
    exact ⟨u.segment_plain.1, h⟩
  have hsplit := splitName_append (.inr (by simp) : u.front ++ ['/'] = [] ∨
    (u.front ++ ['/']).getLast? = some '/') hnot
  rw [List.append_assoc, List.singleton_append] at hsplit
  rw [lastPart, text, hsplit]
  refine List.takeWhile_append_of_pos fun c hc => decide_eq_true ?_
  rintro rfl
  exact u.segment_plain.2.1 hc

/-- What is left of the query or of the fragment. -/
theorem take_rest_eq_nil_iff (hlen : u.segment.length < 512) :
    (u.rest.takeWhile (· ≠ '?')).take (511 - u.segment.length) = [] ↔
      u.rest.head? ≠ some '#' ∨ u.segment.length = 511 := by
  have hnil : u.rest.takeWhile (· ≠ '?') = [] ↔ u.rest.head? ≠ some '#' := by
    rcases u.rest_head with h | h | h
    · simp [h]
    · obtain ⟨q, hq⟩ := List.head?_eq_some_iff.1 h
      simp [hq]
    · obtain ⟨q, hq⟩ := List.head?_eq_some_iff.1 h
      simp [hq]
  have hfull : 511 - u.segment.length = 0 ↔ u.segment.length = 511 := by omega
  rw [List.take_eq_nil_iff, hnil, hfull, or_comm]

/-- The segment is found exactly under the condition. -/
theorem filename_iff (hlen : u.segment.length < 512) (hsize : 512 ≤ outSize) :
    pathFilenameFromUrl u.text outSize = orDownloadBin u.segment ↔ u.Finds := by
  rw [pathFilenameFromUrl_eq _ hsize, Finds]
  by_cases hmem : '/' ∈ u.rest
  · rw [if_pos hmem, u.lastPart_of_mem hmem]
    exact orDownloadBin_eq_iff
  · rw [if_neg hmem, u.lastPart_of_notMem hmem, ← u.take_rest_eq_nil_iff hlen, List.take_append,
      List.take_of_length_le (by omega : u.segment.length ≤ 511), orDownloadBin_eq_iff]
    generalize hmore : (u.rest.takeWhile (· ≠ '?')).take (511 - u.segment.length) = more
    constructor
    · rintro (h | ⟨h, -⟩ | ⟨h, hnil⟩)
      · exact List.append_right_eq_self.1 h
      · exact (List.append_eq_nil_iff.1 h).2
      · -- What is left begins as the query or the fragment does.
        rw [hnil, List.nil_append] at h
        obtain ⟨more', hrest⟩ : more <+: u.rest :=
          hmore ▸ (List.take_prefix _ _).trans (List.takeWhile_prefix _)
        have hhead := u.rest_head
        rw [← hrest, h] at hhead
        simp at hhead
    · rintro rfl
      exact .inl (List.append_nil _)

end Url

/-! ## The names -/

/-- A name of a file of its own. -/
structure IsSafeName (name : CString) : Prop where
  ne_nil : name ≠ []
  slash : '/' ∉ name
  dot : name ≠ ".".toList
  dotdot : name ≠ "..".toList

theorem slash_notMem_lastPart (url : CString) : '/' ∉ lastPart url := fun h =>
  (splitName_spec url).2.2 ((List.takeWhile_prefix _).subset h)

/-- A name is one of a file unless the URL ends, up to a question mark, as a directory does. -/
theorem isSafeName_iff (url : CString) (hsize : 512 ≤ outSize) :
    IsSafeName (pathFilenameFromUrl url outSize) ↔
      lastPart url ≠ ".".toList ∧ lastPart url ≠ "..".toList := by
  have hslash : '/' ∉ (lastPart url).take 511 := fun h =>
    slash_notMem_lastPart url (List.mem_of_mem_take h)
  rw [pathFilenameFromUrl_eq _ hsize, orDownloadBin]
  generalize lastPart url = name at hslash
  by_cases hnil : name = []
  · rw [hnil]
    exact iff_of_true ⟨by decide, by decide, by decide, by decide⟩ ⟨by decide, by decide⟩
  · have hne : name.take 511 ≠ [] := fun h => hnil ((List.take_eq_nil_iff.1 h).resolve_left (by decide))
    -- Only what is short is not cut.
    have hshort : ∀ {s : CString}, s.length < 511 → (name.take 511 = s ↔ name = s) := by
      intro s hs
      constructor
      · rintro rfl
        rw [List.length_take] at hs
        exact (List.take_of_length_le (by omega)).symm
      · rintro rfl
        exact List.take_of_length_le hs.le
    rw [if_neg hne]
    constructor
    · intro h
      exact ⟨mt (hshort (by decide)).2 h.dot, mt (hshort (by decide)).2 h.dotdot⟩
    · rintro ⟨hdot, hdotdot⟩
      exact ⟨hne, hslash, mt (hshort (by decide)).1 hdot, mt (hshort (by decide)).1 hdotdot⟩

/-- The name found is the last segment of the path exactly under its condition, and is one of a
    file exactly unless the URL ends as a directory does. -/
theorem filenameFromUrl_iff (hsize : 512 ≤ outSize) :
    (∀ u : Url, u.segment.length < 512 →
      (pathFilenameFromUrl u.text outSize = orDownloadBin u.segment ↔ u.Finds)) ∧
      ∀ url, IsSafeName (pathFilenameFromUrl url outSize) ↔
        lastPart url ≠ ".".toList ∧ lastPart url ≠ "..".toList :=
  ⟨fun u hlen => u.filename_iff hlen hsize, fun url => isSafeName_iff url hsize⟩

theorem filenameFromUrl_iff_query :
    pathFilenameFromUrl "http://h/d/f.zip?a=1#b".toList 512 = "f.zip".toList :=
  ((filenameFromUrl_iff le_rfl).1
    ⟨"http://h/d".toList, "f.zip".toList, "?a=1#b".toList, by decide, by decide⟩ (by decide)).2
      (by decide)

/-- A URL with a file in its path, followed by something else. -/
def fileUrl (rest : CString) (h : rest = [] ∨ rest.head? = some '?' ∨ rest.head? = some '#') : Url :=
  ⟨"http://h".toList, "f.zip".toList, rest, by decide, h⟩

/-- The name comes from the query, has the fragment, or is that of a directory. -/
theorem exists_other_filename :
    (∃ u : Url, u.text = "http://h/f.zip?from=http://m/x".toList ∧ u.segment = "f.zip".toList ∧
      pathFilenameFromUrl u.text 512 = "x".toList) ∧
    (∃ u : Url, u.text = "http://h/f.zip#t".toList ∧ u.segment = "f.zip".toList ∧
      pathFilenameFromUrl u.text 512 = "f.zip#t".toList) ∧
    ¬IsSafeName (pathFilenameFromUrl "http://h/d/..".toList 512) := by
  have hdir : pathFilenameFromUrl "http://h/d/..".toList 512 = "..".toList := by decide
  refine ⟨⟨fileUrl "?from=http://m/x".toList (by decide), ?_⟩, ⟨fileUrl "#t".toList (by decide), ?_⟩,
    fun h => h.dotdot hdir⟩ <;> decide

end Cdm
