import Cdm.Lib.Wire
import Cdm.Platform.BrowserOffers

/-!
# The protocol

The messages between the clients and the daemon (`platform/ipc_protocol.h`, and the reading
and writing of strings in `platform/ipc_socket.c`). A message is a header, the length of
its payload and its type, and the payload. Numbers are sent as the machine stores them, the
lowest byte first, a byte as a character.

A string is sent with its length in front. Its reader has an array of `maxLen` bytes, one of
them for the terminator: a longer string is read to its end, and rejected.
-/

namespace Cdm

open Wire

def ipcMaxFrameSize : ℕ := 16384

/-! ## Headers -/

inductive MsgType
  | addDownload
  | pause
  | resume
  | cancel
  | list
  | statusEvent
  | progressEvent
  | subscribe
  | listAll
  | getDetails
  | reloadConfig
  | browserOffer
  | browserGetOffer
  | browserConfirm
  | browserDismiss
  | browserSubscribeProgress
  | browserProgressEvent
  deriving DecidableEq

namespace MsgType

def code : MsgType → ℕ
  | addDownload => 1
  | pause => 2
  | resume => 3
  | cancel => 4
  | list => 5
  | statusEvent => 6
  | progressEvent => 7
  | subscribe => 8
  | listAll => 9
  | getDetails => 10
  | reloadConfig => 11
  | browserOffer => 12
  | browserGetOffer => 13
  | browserConfirm => 14
  | browserDismiss => 15
  | browserSubscribeProgress => 16
  | browserProgressEvent => 17

def ofCode : ℕ → Option MsgType
  | 1 => some addDownload
  | 2 => some pause
  | 3 => some resume
  | 4 => some cancel
  | 5 => some list
  | 6 => some statusEvent
  | 7 => some progressEvent
  | 8 => some subscribe
  | 9 => some listAll
  | 10 => some getDetails
  | 11 => some reloadConfig
  | 12 => some browserOffer
  | 13 => some browserGetOffer
  | 14 => some browserConfirm
  | 15 => some browserDismiss
  | 16 => some browserSubscribeProgress
  | 17 => some browserProgressEvent
  | _ => none

@[simp] theorem ofCode_code (t : MsgType) : ofCode t.code = some t := by
  cases t <;> rfl

theorem code_lt (t : MsgType) : t.code < 256 ^ 4 := by
  cases t <;> decide

end MsgType

/-- A header; its type may be none of the above. -/
structure MsgHeader where
  length : ℕ
  type : ℕ
  deriving DecidableEq

namespace MsgHeader

/-- The bytes of a header. -/
def size : ℕ := 8

def bytes (h : MsgHeader) : List Char := littleEndian 4 h.length ++ littleEndian 4 h.type

def ofBytes (l : List Char) : MsgHeader := ⟨value (l.take 4), value (l.drop 4)⟩

theorem length_bytes (h : MsgHeader) : h.bytes.length = size := by
  simp [bytes, size]

theorem ofBytes_bytes {h : MsgHeader} (hlength : h.length < 256 ^ 4) (htype : h.type < 256 ^ 4) :
    ofBytes h.bytes = h := by
  have h4 : (littleEndian 4 h.length).length = 4 := length_littleEndian _ _
  rw [ofBytes, bytes, List.take_left' h4, List.drop_left' h4, value_littleEndian_of_lt hlength,
    value_littleEndian_of_lt htype]

end MsgHeader

/-- The header at the front of a frame. -/
def frameHeader (frame : List Char) : MsgHeader := .ofBytes (frame.take MsgHeader.size)

/-- The lengths a message of a type may have; no other type is accepted. -/
def validMessageHeader (h : MsgHeader) : Bool :=
  if ipcMaxFrameSize < h.length then false
  else
    match MsgType.ofCode h.type with
    | some .addDownload | some .browserOffer => h.length ≤ ipcMaxFrameSize
    | some .pause | some .resume | some .cancel | some .getDetails | some .browserGetOffer
    | some .browserDismiss | some .browserSubscribeProgress => h.length = 4
    | some .browserConfirm => 8 ≤ h.length && h.length ≤ 8 + ipcMaxPathLen - 1
    | some .list | some .listAll | some .subscribe | some .reloadConfig => h.length = 0
    | some .statusEvent | some .progressEvent | some .browserProgressEvent | none => false

/-! ## Strings -/

/-- A string, its length in front. -/
def stringBytes (s : CString) : List Char := littleEndian 4 s.length ++ s

def writeString (s : CString) : Prog Char Unit := do
  Prog.send (littleEndian 4 s.length)
  if s ≠ [] then Prog.send s

/-- Reading what is too much of a string, in at most `chunks` pieces. -/
def drain : (chunks excess : ℕ) → Prog Char Bool
  | 0, _ => pure true
  | chunks + 1, excess =>
    if excess = 0 then pure true
    else do
      match ← Prog.readExact (min excess 256) with
      | none => pure false
      | some _ => drain chunks (excess - min excess 256)

def readString (maxLen : ℕ) : Prog Char (Option CString) := do
  match ← Prog.readExact 4 with
  | none => pure none
  | some l =>
    let len := value l
    let toRead := if maxLen ≤ len then maxLen - 1 else len
    match ← (if 0 < toRead then Prog.readExact toRead else pure (some [])) with
    | none => pure none
    | some out =>
      if maxLen ≤ len then do
        let _ ← drain (len - toRead) (len - toRead)
        pure none
      else pure (some out)

@[simp] theorem run_writeString {s : CString} {l : List Char} :
    (writeString s).run l = ⟨(), stringBytes s, l⟩ := by
  rw [writeString]
  by_cases h : s = [] <;> simp [h, stringBytes]

@[simp] theorem fed_writeString {s : CString} {l : List Char} : (writeString s).fed l = true := by
  rw [writeString]
  by_cases h : s = [] <;> simp [h]

theorem drain_run {chunks excess : ℕ} {l s : List Char} (hl : l.length = excess)
    (h : excess ≤ chunks) : (drain chunks excess).run (l ++ s) = ⟨true, [], s⟩ := by
  induction chunks generalizing excess l with
  | zero =>
    have : l = [] := List.length_eq_zero_iff.1 (by omega)
    simp [drain, this]
  | succ chunks ih =>
    rw [drain]
    split_ifs with h0
    · have : l = [] := List.length_eq_zero_iff.1 (by omega)
      simp [this]
    · -- A piece of the excess, then the rest of it.
      have htake : (l.take (min excess 256)).length = min excess 256 := by
        rw [List.length_take]
        omega
      have hread : exact (min excess 256) (l ++ s) =
          (some (l.take (min excess 256)), l.drop (min excess 256) ++ s) := by
        conv_lhs => rw [← List.take_append_drop (min excess 256) l, List.append_assoc]
        exact exact_append htake
      have hdrop : (l.drop (min excess 256)).length = excess - min excess 256 := by
        rw [List.length_drop, hl]
      simp [hread, ih hdrop (by omega)]

theorem exact_stringBytes (s l : List Char) :
    exact 4 (stringBytes s ++ l) = (some (littleEndian 4 s.length), s ++ l) := by
  rw [stringBytes, List.append_assoc]
  exact exact_append (length_littleEndian _ _)

/-- As much of a string is read as the number in front of it says, which has 32 bits. -/
theorem readString_run_mod {maxLen : ℕ} {s : CString} {l : List Char}
    (h : s.length % 256 ^ 4 < maxLen) :
    (readString maxLen).run (stringBytes s ++ l) =
      ⟨some (s.take (s.length % 256 ^ 4)), [], s.drop (s.length % 256 ^ 4) ++ l⟩ := by
  have hvalue : value (littleEndian 4 s.length) = s.length % 256 ^ 4 := value_littleEndian _ _
  generalize hn : s.length % 256 ^ 4 = n at h hvalue
  have hle : n ≤ s.length := hn ▸ Nat.mod_le _ _
  have hread := exact_stringBytes s l
  by_cases h0 : n = 0
  · subst h0
    have hne : maxLen ≠ 0 := by omega
    simp [readString, hread, hvalue, hne]
  · have hs : exact n (s ++ l) = (some (s.take n), s.drop n ++ l) := by
      conv_lhs => rw [← List.take_append_drop n s, List.append_assoc]
      exact exact_append (List.length_take_of_le hle)
    simp [readString, hread, hvalue, h.not_ge, Nat.pos_of_ne_zero h0, hs]

/-- A string that fits is read as it was sent. -/
theorem readString_run {maxLen : ℕ} {s : CString} {l : List Char} (h : s.length < maxLen)
    (h32 : s.length < 256 ^ 4) : (readString maxLen).run (stringBytes s ++ l) = ⟨some s, [], l⟩ := by
  have hmod : s.length % 256 ^ 4 = s.length := Nat.mod_eq_of_lt h32
  rw [readString_run_mod (by rwa [hmod]), hmod, List.take_length, List.drop_length, List.nil_append]

/-- A string that is too long is read to its end, and rejected. -/
theorem readString_run_of_le {maxLen : ℕ} {s : CString} {l : List Char} (hpos : 0 < maxLen)
    (h : maxLen ≤ s.length) (h32 : s.length < 256 ^ 4) :
    (readString maxLen).run (stringBytes s ++ l) = ⟨none, [], l⟩ := by
  have hread := exact_stringBytes s l
  have htake : (s.take (maxLen - 1)).length = maxLen - 1 := by
    rw [List.length_take]
    omega
  have hdrop : (s.drop (maxLen - 1)).length = s.length - (maxLen - 1) := List.length_drop
  have hs : exact (maxLen - 1) (s ++ l) =
      (some (s.take (maxLen - 1)), s.drop (maxLen - 1) ++ l) := by
    conv_lhs => rw [← List.take_append_drop (maxLen - 1) s, List.append_assoc]
    exact exact_append htake
  by_cases h1 : maxLen = 1
  · subst h1
    simp [readString, hread, value_littleEndian_of_lt h32, h, drain_run]
  · simp [readString, hread, value_littleEndian_of_lt h32, h, show 1 < maxLen by omega, hs,
      drain_run hdrop le_rfl]

/-- Reading a string writes nothing. -/
theorem readString_written (maxLen : ℕ) (l : List Char) :
    ((readString maxLen).run l).written = [] := by
  have hdrain (chunks : ℕ) : ∀ (excess : ℕ) (l : List Char),
      ((drain chunks excess).run l).written = [] := by
    induction chunks with
    | zero => exact fun _ _ => rfl
    | succ chunks ih =>
      intro excess l
      rw [drain]
      split_ifs
      · rfl
      · rw [Prog.run_bind]
        simp only [Prog.run_readExact, List.nil_append]
        split
        · rfl
        · exact ih _ _
  rw [readString, Prog.run_bind]
  simp only [Prog.run_readExact, List.nil_append]
  split
  · rfl
  · rw [Prog.run_bind]
    simp only [List.append_eq_nil_iff]
    constructor
    · split_ifs <;> rfl
    · split
      · rfl
      · split_ifs <;> simp [hdrain]

/-- A string is rejected if the number in front of it is too large, whatever follows. -/
theorem readString_none {maxLen : ℕ} {l : List Char} (h4 : 4 ≤ l.length)
    (h : maxLen ≤ value (l.take 4)) : ((readString maxLen).run l).value = none := by
  have hread : exact 4 l = (some (l.take 4), l.drop 4) := if_pos h4
  rw [readString, Prog.run_bind]
  simp only [Prog.run_readExact, hread, h, if_true]
  rw [Prog.run_bind]
  simp only
  split
  · rfl
  · simp

end Cdm
