import Cdm.Engine.Runner
import Mathlib.Data.List.DropRight

/-!
# Probing a resource

`curl_client_head` of `platform/curl_client.c`: a `HEAD` request, the redirects of which are
followed. The callback is given the header lines of every response, and sets the flag for
range support at a line that begins like an `Accept-Ranges` header, which is never reset.

`rangesJudged_iff` says for which chains of responses the flag is that of the last one.
-/

namespace Cdm

/-- The header lines of a response, as they are received. -/
abbrev HttpResponse := List CString

/-- What the library does with a request. -/
structure HeadIo where
  /-- The handle is not created. -/
  initFails : Bool
  /-- The responses, the last one final. -/
  chain : List HttpResponse
  /-- The transfer ends without an error. -/
  ok : Bool
  httpStatus : ℤ
  contentLength : Int64

/-- The callback on a header line: 19 characters of it are compared. -/
def headHeaderCallback (info : FileInfo) (line : CString) : FileInfo :=
  if 19 ≤ line.length ∧
      (line.take 19).map Char.toLower = ("Accept-Ranges: bytes".toList.take 19).map Char.toLower then
    -- Nothing unsets the flag, not even the header lines of the next response.
    { info with supportsRanges := true }
  else info

def curlClientHead (io : HeadIo) : FileInfo × ℤ :=
  let out : FileInfo := ⟨0, false⟩
  if io.initFails then (out, -1)
  else
    let out := io.chain.flatten.foldl headHeaderCallback out
    if io.ok ∧ 200 ≤ io.httpStatus ∧ io.httpStatus < 300 then
      ({ out with
        totalSize := if 0 < io.contentLength then io.contentLength.toUInt64 else 0 }, 0)
    -- The flag is left as the lines have set it.
    else (out, -1)

/-! ## Header fields -/

def fieldName (line : CString) : CString := line.takeWhile (· ≠ ':')

/-- What stands after the name of a field, from the colon on. -/
def afterName (line : CString) : CString := line.dropWhile (· ≠ ':')

/-- What may stand around a value, or end its line. -/
def isBlank (c : Char) : Bool := c = ' ' || c = '\t' || c = '\r' || c = '\n'

def fieldValue (line : CString) : CString :=
  ((afterName line).tail.dropWhile isBlank).rdropWhile isBlank

/-- The name is `Accept-Ranges`, in any letter case. -/
def IsAcceptRanges (line : CString) : Prop :=
  (fieldName line).map Char.toLower = "accept-ranges".toList

/-- A response carries an `Accept-Ranges` header whose value is `bytes`. -/
def AcceptsBytes (r : HttpResponse) : Prop :=
  ∃ line ∈ r, IsAcceptRanges line ∧ fieldValue line = "bytes".toList

/-- An `Accept-Ranges` header whose value begins, after one space, with `byte`. -/
def Announces (line : CString) : Prop :=
  IsAcceptRanges line ∧ ((afterName line).take 6).map Char.toLower = ": byte".toList

/-- Range support is judged on the last response. -/
def RangesJudged (io : HeadIo) : Prop :=
  (curlClientHead io).1.supportsRanges = true ↔ ∃ r ∈ io.chain.getLast?, AcceptsBytes r

/-! ## The flag -/

/-- No letter has the colon for its lower case. -/
theorem toLower_eq_colon (c : Char) : c.toLower = ':' ↔ c = ':' := by
  delta Char.toLower
  split_ifs with h
  · have hlower := UInt32.le_iff_toNat_le.1 h.1
    simp only [Char.ext_iff, UInt32.ext_iff]
    simp only [UInt32.toNat_add, UInt32.toNat_sub, Char.reduceVal, UInt32.reduceToNat] at hlower ⊢
    have hupper := UInt32.le_iff_toNat_le.1 h.2
    simp only [Char.reduceVal, UInt32.reduceToNat] at hupper
    omega
  · rfl

/-- The characters compared are those of a name and of the beginning of a value. -/
theorem announces_iff (line : CString) : Announces line ↔
    19 ≤ line.length ∧
      (line.take 19).map Char.toLower =
        ("Accept-Ranges: bytes".toList.take 19).map Char.toLower := by
  have hcolon : (fun c : Char => decide (c.toLower ≠ ':')) = fun c => decide (c ≠ ':') := by
    funext c
    rw [decide_eq_decide, not_iff_not, toLower_eq_colon]
  have hname : (fieldName line).map Char.toLower =
      (line.map Char.toLower).takeWhile (· ≠ ':') := by
    rw [List.takeWhile_map, Function.comp_def, hcolon, fieldName]
  have hafter : (afterName line).map Char.toLower =
      (line.map Char.toLower).dropWhile (· ≠ ':') := by
    rw [List.dropWhile_map, Function.comp_def, hcolon, afterName]
  have hmark : ("Accept-Ranges: bytes".toList.take 19).map Char.toLower =
      "accept-ranges: byte".toList := by decide
  rw [Announces, IsAcceptRanges, List.map_take, List.map_take, hname, hafter, hmark,
    ← List.length_map (f := Char.toLower)]
  generalize line.map Char.toLower = l
  constructor
  · rintro ⟨hname, hvalue⟩
    have hl := List.takeWhile_append_dropWhile (p := (· ≠ ':')) (l := l)
    rw [hname] at hl
    have hlength := congrArg List.length hvalue
    rw [List.length_take] at hlength
    refine ⟨?_, ?_⟩
    · rw [← hl, List.length_append]
      have : "accept-ranges".toList.length = 13 := by decide
      have : ": byte".toList.length = 6 := by decide
      omega
    · rw [← hl, List.take_append, List.take_of_length_le (by decide),
        show 19 - "accept-ranges".toList.length = 6 by decide, hvalue]
      decide
  · rintro ⟨-, htake⟩
    rw [← List.take_append_drop 19 l, htake]
    exact ⟨rfl, rfl⟩

theorem headHeaderCallback_supportsRanges (info : FileInfo) (line : CString) :
    (headHeaderCallback info line).supportsRanges = true ↔
      info.supportsRanges = true ∨ Announces line := by
  rw [headHeaderCallback, announces_iff]
  split_ifs with h
  · simp only [h, and_self, or_true]
  · simp only [h, or_false]

/-- The flag is set by any line of any response. -/
theorem foldl_supportsRanges (lines : List CString) (info : FileInfo) :
    (lines.foldl headHeaderCallback info).supportsRanges = true ↔
      info.supportsRanges = true ∨ ∃ line ∈ lines, Announces line := by
  induction lines generalizing info with
  | nil => simp
  | cons line lines ih =>
    rw [List.foldl_cons, ih, headHeaderCallback_supportsRanges, List.exists_mem_cons_iff, or_assoc]

theorem supportsRanges_iff {io : HeadIo} (h : (curlClientHead io).2 = 0) :
    (curlClientHead io).1.supportsRanges = true ↔ ∃ r ∈ io.chain, ∃ line ∈ r, Announces line := by
  have hflag : (io.chain.flatten.foldl headHeaderCallback ⟨0, false⟩).supportsRanges = true ↔
      ∃ r ∈ io.chain, ∃ line ∈ r, Announces line := by
    rw [foldl_supportsRanges]
    constructor
    · rintro (h | ⟨line, hline, ha⟩)
      · cases h
      · obtain ⟨r, hr, hline⟩ := List.mem_flatten.1 hline
        exact ⟨r, hr, line, hline, ha⟩
    · rintro ⟨r, hr, line, hline, ha⟩
      exact .inr ⟨line, List.mem_flatten.2 ⟨r, hr, hline⟩, ha⟩
  rw [← hflag]
  simp only [curlClientHead] at h ⊢
  by_cases hinit : io.initFails = true
  · simp [hinit] at h
  · by_cases hok : io.ok = true ∧ 200 ≤ io.httpStatus ∧ io.httpStatus < 300
    · simp [hinit, hok]
    · rw [if_neg hinit, if_neg hok] at h
      cases h

/-- The flag is that of the last response if and only if some header of the chain announces
    ranges where the last response accepts them, and none does where it does not. -/
theorem rangesJudged_iff {io : HeadIo} (h : (curlClientHead io).2 = 0) :
    RangesJudged io ↔
      ((∃ r ∈ io.chain.getLast?, AcceptsBytes r) → ∃ r ∈ io.chain, ∃ line ∈ r, Announces line) ∧
        (¬(∃ r ∈ io.chain.getLast?, AcceptsBytes r) →
          ∀ r ∈ io.chain, ∀ line ∈ r, ¬Announces line) := by
  rw [RangesJudged, supportsRanges_iff h]
  constructor
  · intro hiff
    refine ⟨hiff.2, fun hno r hr line hline ha => hno (hiff.1 ⟨r, hr, line, hline, ha⟩)⟩
  · rintro ⟨haccepts, hrefuses⟩
    refine ⟨fun ⟨r, hr, line, hline, ha⟩ => ?_, haccepts⟩
    by_contra hno
    exact hrefuses hno r hr line hline ha

/-- A redirection that announces ranges, to a resource that does not support them. -/
def redirected : HeadIo :=
  ⟨false, [["Accept-Ranges: bytes\r\n".toList], ["Accept-Ranges: none\r\n".toList]], true, 200,
    1000000⟩

/-- A resource that accepts ranges, and says so. -/
def answered : HeadIo :=
  ⟨false, [["HTTP/1.1 200 OK\r\n".toList, "accept-ranges: bytes\r\n".toList]], true, 200, 1000000⟩

instance (line : CString) : Decidable (IsAcceptRanges line) := inferInstanceAs (Decidable (_ = _))

instance (line : CString) : Decidable (Announces line) := inferInstanceAs (Decidable (_ ∧ _))

instance (r : HttpResponse) : Decidable (AcceptsBytes r) :=
  inferInstanceAs (Decidable (∃ line ∈ r, _ ∧ _))

theorem rangesJudged_answered : RangesJudged answered :=
  (rangesJudged_iff (by decide)).2 (by decide)

theorem exists_not_rangesJudged : (curlClientHead redirected).2 = 0 ∧ ¬RangesJudged redirected := by
  refine ⟨by decide, ?_⟩
  rw [RangesJudged]
  decide

end Cdm
