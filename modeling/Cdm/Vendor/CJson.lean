import Cdm.Core.Download
import Cdm.Lib.Toml
import Mathlib.Data.List.TakeWhile

/-!
# cJSON

`vendor/cJSON.c`: values, how they are printed without formatting, and how a text is parsed.
Memory does not run out. The numbers are the `double`s of the machine, of which only what the C
library makes of them is known (`Doubles`).

A text is parsed together with its terminator, which counts as white space. A parser takes what
is left of the text and gives what it has not used; `fuel` bounds its calls, two for each byte.

* `cJsonParse_print`: what is printed is parsed to the same value, if its texts have no null byte,
  its numbers are read as they are written, and it is not nested too deeply.
* `cJsonParse_reprinted`: whatever is parsed has no null byte and is not nested too deeply; it is
  printed and parsed to the same value if its numbers are read as they are written, which `0.1` is
  and `0.30000000000000004` is not.
-/

namespace Cdm

/-! ## Values -/

mutual

/-- A value; `δ` are the numbers. -/
inductive CJson (δ : Type)
  | null
  | bool (b : Bool)
  | number (d : δ)
  | string (s : CString)
  | array (child : CJsonItems δ)
  | object (child : CJsonItems δ)

/-- The items of an array or an object, linked by `next`; in an array they have no names. -/
inductive CJsonItems (δ : Type)
  | nil
  | cons (name : CString) (item : CJson δ) (next : CJsonItems δ)

end

/-- What the C library makes of the numbers. -/
structure Doubles (δ : Type) where
  ofInt : ℤ → δ
  /-- The conversion to `int`, at an end of its range for what lies beyond it. -/
  toInt : δ → ℤ
  isFinite : δ → Bool
  /-- What is written for a number that is no `int`. -/
  format : δ → CString
  /-- The number a text begins with, and how many bytes it takes up. -/
  strtod : CString → Option (δ × ℕ)

/-! ## Printing -/

/-- Four hexadecimal digits. -/
def printHex4 (n : ℕ) : CString :=
  [Nat.digitChar (n / 4096 % 16), Nat.digitChar (n / 256 % 16), Nat.digitChar (n / 16 % 16),
    Nat.digitChar (n % 16)]

/-- A byte of a string, escaped if need be. -/
def escapeChar (c : Char) : CString :=
  if 31 < c.toNat ∧ c ≠ '"' ∧ c ≠ '\\' then [c]
  else if c = '\\' then ['\\', '\\']
  else if c = '"' then ['\\', '"']
  else if c.toNat = 8 then ['\\', 'b']
  else if c.toNat = 12 then ['\\', 'f']
  else if c = '\n' then ['\\', 'n']
  else if c = '\r' then ['\\', 'r']
  else if c = '\t' then ['\\', 't']
  else '\\' :: 'u' :: printHex4 c.toNat

def printStringPtr (s : CString) : CString := '"' :: s.flatMap escapeChar ++ ['"']

section

variable {δ : Type} [DecidableEq δ] (D : Doubles δ)

def printNumber (d : δ) : CString :=
  if D.isFinite d = false then "null".toList
  else if d = D.ofInt (D.toInt d) then Toml.decimal (D.toInt d)
  else D.format d

mutual

def CJson.print : CJson δ → CString
  | .null => "null".toList
  | .bool false => "false".toList
  | .bool true => "true".toList
  | .number d => printNumber D d
  | .string s => printStringPtr s
  | .array child => '[' :: child.print false ++ [']']
  | .object child => '{' :: child.print true ++ ['}']

/-- Items, with their names in an object (`named`), and a comma behind each but the last. -/
def CJsonItems.print (named : Bool) : CJsonItems δ → CString
  | .nil => []
  | .cons name item next =>
    (if named then printStringPtr name ++ [':'] else []) ++ item.print ++
      (match next with
        | .nil => []
        | .cons _ _ _ => [',']) ++ next.print named

end

/-- The room that `ensure` gives goes up to `INT_MAX`, and it asks for two bytes behind the text. -/
def cJsonPrintUnformatted (t : CJson δ) : Option CString :=
  if (t.print D).length + 2 ≤ 2 ^ 31 - 1 then some (t.print D) else none

end

/-! ## Parsing -/

/-- White space is left out; not the last byte, if there is nothing else. -/
def skipWhitespace (l : CString) : CString :=
  match l.dropWhile (·.toNat ≤ 32) with
  | [] => l.drop (l.length - 1)
  | c :: rest => c :: rest

def hexDigitValue (c : Char) : Option ℕ :=
  if '0' ≤ c ∧ c ≤ '9' then some (c.toNat - '0'.toNat)
  else if 'A' ≤ c ∧ c ≤ 'F' then some (10 + c.toNat - 'A'.toNat)
  else if 'a' ≤ c ∧ c ≤ 'f' then some (10 + c.toNat - 'a'.toNat)
  else none

/-- The number of four hexadecimal digits, `0` if one of them is none. -/
def parseHex4 : CString → ℕ
  | a :: b :: c :: d :: _ =>
    match hexDigitValue a, hexDigitValue b, hexDigitValue c, hexDigitValue d with
    | some a, some b, some c, some d => ((a * 16 + b) * 16 + c) * 16 + d
    | _, _, _, _ => 0
  | _ => 0

/-- A code point in UTF-8. -/
def utf8Bytes (n : ℕ) : CString :=
  if n < 0x80 then [Char.ofNat n]
  else if n < 0x800 then [Char.ofNat (0xC0 + n / 64), Char.ofNat (0x80 + n % 64)]
  else if n < 0x10000 then
    [Char.ofNat (0xE0 + n / 4096), Char.ofNat (0x80 + n / 64 % 64), Char.ofNat (0x80 + n % 64)]
  else
    [Char.ofNat (0xF0 + n / 262144), Char.ofNat (0x80 + n / 4096 % 64),
      Char.ofNat (0x80 + n / 64 % 64), Char.ofNat (0x80 + n % 64)]

/-- The bytes for the sequence at the front of a text, and its length. Two sequences are a pair
    of surrogates. -/
def utf16LiteralToUtf8 (l : CString) : Option (CString × ℕ) :=
  if l.length < 6 then none
  else
    let firstCode := parseHex4 (l.drop 2)
    if 0xDC00 ≤ firstCode ∧ firstCode ≤ 0xDFFF then none
    else if 0xD800 ≤ firstCode ∧ firstCode ≤ 0xDBFF then
      let second := l.drop 6
      let secondCode := parseHex4 (second.drop 2)
      if second.length < 6 ∨ second.take 2 ≠ ['\\', 'u'] then none
      else if secondCode < 0xDC00 ∨ 0xDFFF < secondCode then none
      else some (utf8Bytes (0x10000 + firstCode % 0x400 * 0x400 + secondCode % 0x400), 12)
    else some (utf8Bytes firstCode, 6)

/-- What a character stands for behind a backslash. -/
def unescapeChar (c : Char) : Option Char :=
  if c = 'b' then some (Char.ofNat 8)
  else if c = 'f' then some (Char.ofNat 12)
  else if c = 'n' then some '\n'
  else if c = 'r' then some '\r'
  else if c = 't' then some '\t'
  else if c = '"' ∨ c = '\\' ∨ c = '/' then some c
  else none

/-- What is between the quotes of a literal, whose first quote has been read, and what follows
    them. -/
def splitLiteral : CString → Option (CString × CString)
  | [] => none
  | '"' :: rest => some ([], rest)
  | '\\' :: c :: rest => (splitLiteral rest).map fun x => ('\\' :: c :: x.1, x.2)
  | c :: rest => (splitLiteral rest).map fun x => (c :: x.1, x.2)

/-- What a literal stands for. -/
def unescape : (fuel : ℕ) → CString → Option CString
  | _, [] => some []
  | 0, _ :: _ => none
  | fuel + 1, c :: rest =>
    if c = '\\' then
      match rest with
      | [] => none
      | 'u' :: _ =>
        match utf16LiteralToUtf8 (c :: rest) with
        | none => none
        | some (bytes, length) => (unescape fuel ((c :: rest).drop length)).map (bytes ++ ·)
      | e :: rest => (unescapeChar e).bind fun d => (unescape fuel rest).map (d :: ·)
    else (unescape fuel rest).map (c :: ·)

/-- A string, which ends at its first null byte, and what follows it. -/
def parseString : CString → Option (CString × CString)
  | '"' :: rest =>
    match splitLiteral rest with
    | none => none
    | some (body, after) =>
      (unescape body.length body).map fun text => (text.takeWhile (· ≠ Char.ofNat 0), after)
  | _ => none

def isNumberChar (c : Char) : Bool :=
  ('0' ≤ c && c ≤ '9') || c = '+' || c = '-' || c = 'e' || c = 'E' || c = '.'

def cJsonNestingLimit : ℕ := 1000

section

variable {δ : Type} (D : Doubles δ)

def parseNumber (l : CString) : Option (CJson δ × CString) :=
  (D.strtod (l.takeWhile isNumberChar)).map fun x => (.number x.1, l.drop x.2)

mutual

def parseValue : (fuel depth : ℕ) → CString → Option (CJson δ × CString)
  | 0, _, _ => none
  | fuel + 1, depth, l =>
    if "null".toList.isPrefixOf l then some (.null, l.drop 4)
    else if "false".toList.isPrefixOf l then some (.bool false, l.drop 5)
    else if "true".toList.isPrefixOf l then some (.bool true, l.drop 4)
    else
      match l with
      | [] => none
      | c :: rest =>
        if c = '"' then (parseString (c :: rest)).map fun x => (.string x.1, x.2)
        else if c = '-' ∨ ('0' ≤ c ∧ c ≤ '9') then parseNumber D (c :: rest)
        else if c = '[' ∨ c = '{' then
          if cJsonNestingLimit ≤ depth then none
          else
            match skipWhitespace rest with
            | [] => none
            | c' :: after =>
              if c = '[' then
                if c' = ']' then some (.array .nil, after)
                else (parseElements fuel (depth + 1) (c' :: after)).map fun x => (.array x.1, x.2)
              else if c' = '}' then some (.object .nil, after)
              else (parseMembers fuel (depth + 1) (c' :: after)).map fun x => (.object x.1, x.2)
        else none

/-- The elements of an array, from the next one on. -/
def parseElements : (fuel depth : ℕ) → CString → Option (CJsonItems δ × CString)
  | 0, _, _ => none
  | fuel + 1, depth, l =>
    match parseValue fuel depth l with
    | none => none
    | some (item, rest) =>
      match skipWhitespace rest with
      | ',' :: rest => (parseElements fuel depth (skipWhitespace rest)).map fun x =>
          (.cons [] item x.1, x.2)
      | ']' :: after => some (.cons [] item .nil, after)
      | _ => none

/-- The items of an object, from the next one on. -/
def parseMembers : (fuel depth : ℕ) → CString → Option (CJsonItems δ × CString)
  | 0, _, _ => none
  | fuel + 1, depth, l =>
    match parseString l with
    | none => none
    | some (name, rest) =>
      match skipWhitespace rest with
      | ':' :: rest =>
        match parseValue fuel depth (skipWhitespace rest) with
        | none => none
        | some (item, rest) =>
          match skipWhitespace rest with
          | ',' :: rest => (parseMembers fuel depth (skipWhitespace rest)).map fun x =>
              (.cons name item x.1, x.2)
          | '}' :: after => some (.cons name item .nil, after)
          | _ => none
      | _ => none

end

/-- The mark of the byte order, which may be put in front of a text. -/
def utf8Bom : CString := [Char.ofNat 0xEF, Char.ofNat 0xBB, Char.ofNat 0xBF]

def cJsonParse (text : CString) : Option (CJson δ) :=
  let buffer := text ++ [Char.ofNat 0]
  let buffer := if 4 < buffer.length ∧ utf8Bom.isPrefixOf buffer then buffer.drop 3 else buffer
  (parseValue D (2 * buffer.length + 1) 0 (skipWhitespace buffer)).map (·.1)

end

/-! ## Items -/

section

variable {δ : Type}

def CJsonItems.find : CJsonItems δ → (name : CString) → Option (CJson δ)
  | .nil, _ => none
  | .cons name' item next, name => if name' = name then some item else next.find name

/-- `cJSON_GetObjectItemCaseSensitive`: the first item with a name. -/
def CJson.getObjectItem : CJson δ → (name : CString) → Option (CJson δ)
  | .object child, name => child.find name
  | _, _ => none

end

/-! ## Strings -/

theorem hexDigitValue_digitChar {n : ℕ} (h : n < 16) : hexDigitValue (Nat.digitChar n) = some n := by
  interval_cases n <;> rfl

theorem parseHex4_printHex4 {n : ℕ} (h : n < 65536) (l : CString) :
    parseHex4 (printHex4 n ++ l) = n := by
  have hdigit (m : ℕ) : hexDigitValue (Nat.digitChar (m % 16)) = some (m % 16) :=
    hexDigitValue_digitChar (Nat.mod_lt _ (by decide))
  simp only [printHex4, List.cons_append, List.nil_append, parseHex4, hdigit]
  omega

/-- A byte stands for itself, or for what follows a backslash, or has its code written out. -/
theorem escapeChar_cases (c : Char) :
    (escapeChar c = [c] ∧ c ≠ '"' ∧ c ≠ '\\') ∨
      (∃ e, escapeChar c = ['\\', e] ∧ e ≠ 'u' ∧ unescapeChar e = some c) ∨
      (escapeChar c = '\\' :: 'u' :: printHex4 c.toNat ∧ c.toNat < 32) := by
  have hcode {n : ℕ} (h : c.toNat = n) : Char.ofNat n = c := by rw [← h, Char.ofNat_toNat]
  rw [escapeChar]
  split_ifs with hplain hback hquote hb hf hn hr ht
  · exact .inl ⟨rfl, hplain.2⟩
  · exact .inr (.inl ⟨'\\', rfl, by decide, by rw [hback]; rfl⟩)
  · exact .inr (.inl ⟨'"', rfl, by decide, by rw [hquote]; rfl⟩)
  · exact .inr (.inl ⟨'b', rfl, by decide, by rw [← hcode hb]; rfl⟩)
  · exact .inr (.inl ⟨'f', rfl, by decide, by rw [← hcode hf]; rfl⟩)
  · exact .inr (.inl ⟨'n', rfl, by decide, by rw [hn]; rfl⟩)
  · exact .inr (.inl ⟨'r', rfl, by decide, by rw [hr]; rfl⟩)
  · exact .inr (.inl ⟨'t', rfl, by decide, by rw [ht]; rfl⟩)
  · refine .inr (.inr ⟨rfl, ?_⟩)
    by_contra hlt
    exact hplain ⟨by omega, hquote, hback⟩

/-- A digit is neither a quote nor a backslash. -/
theorem splitLiteral_printHex4 (n : ℕ) (l : CString) :
    splitLiteral (printHex4 n ++ l) =
      (splitLiteral l).map fun x => (printHex4 n ++ x.1, x.2) := by
  have hdigit (m : ℕ) (l : CString) : splitLiteral (Nat.digitChar (m % 16) :: l) =
      (splitLiteral l).map fun x => (Nat.digitChar (m % 16) :: x.1, x.2) := by
    have hlt : m % 16 < 16 := Nat.mod_lt _ (by decide)
    generalize m % 16 = k at hlt
    interval_cases k <;> rfl
  simp only [printHex4, List.cons_append, List.nil_append, hdigit, Option.map_map]
  rfl

theorem splitLiteral_escape (s l : CString) :
    splitLiteral (s.flatMap escapeChar ++ '"' :: l) = some (s.flatMap escapeChar, l) := by
  induction s with
  | nil => rfl
  | cons c s ih =>
    rw [List.flatMap_cons, List.append_assoc]
    rcases escapeChar_cases c with ⟨h, hquote, hback⟩ | ⟨e, h, -⟩ | ⟨h, -⟩
    · rw [h, List.singleton_append, splitLiteral, ih]
      · rfl
      · exact fun h => hquote h
      · exact fun _ _ h => absurd h hback
    · rw [h, List.cons_append, List.singleton_append, splitLiteral, ih]
      rfl
    · rw [h, List.cons_append, List.cons_append, splitLiteral, splitLiteral_printHex4, ih]
      rfl

theorem null_notMem_printStringPtr {s : CString} (hs : Char.ofNat 0 ∉ s) :
    Char.ofNat 0 ∉ printStringPtr s := by
  have hdigit (m : ℕ) : Char.ofNat 0 ≠ Nat.digitChar (m % 16) := by
    have hlt : m % 16 < 16 := Nat.mod_lt _ (by decide)
    generalize m % 16 = k at hlt
    interval_cases k <;> decide
  have hescape : Char.ofNat 0 ∉ s.flatMap escapeChar := by
    rw [List.mem_flatMap]
    rintro ⟨c, hc, hmem⟩
    rcases escapeChar_cases c with ⟨h, -⟩ | ⟨e, h, -, he⟩ | ⟨h, -⟩ <;> rw [h] at hmem
    · exact hs (List.mem_singleton.mp hmem ▸ hc)
    · rcases List.mem_pair.mp hmem with hback | rfl
      · exact absurd hback (by decide)
      · exact absurd he (by simp [unescapeChar])
    · simp only [List.mem_cons, printHex4, List.not_mem_nil, or_false] at hmem
      rcases hmem with h | h | h | h | h | h
      · exact absurd h (by decide)
      · exact absurd h (by decide)
      · exact hdigit _ h
      · exact hdigit _ h
      · exact hdigit _ h
      · exact hdigit _ h
  rw [printStringPtr]
  simp only [List.mem_append, List.mem_cons, List.not_mem_nil, or_false, not_or]
  exact ⟨⟨by decide, hescape⟩, by decide⟩

theorem unescape_of_ne {fuel : ℕ} {c : Char} (hc : c ≠ '\\') (l : CString) :
    unescape (fuel + 1) (c :: l) = (unescape fuel l).map (c :: ·) := by
  rw [unescape.eq_def]
  exact if_neg hc

theorem unescape_cons {fuel : ℕ} {e : Char} (he : e ≠ 'u') (l : CString) :
    unescape (fuel + 1) ('\\' :: e :: l) =
      (unescapeChar e).bind fun d => (unescape fuel l).map (d :: ·) := by
  rw [unescape.eq_def]
  simp only [if_pos]

/-- The code of a byte below 128 is read back, and is the byte in UTF-8. -/
theorem unescape_printHex4 {fuel : ℕ} {c : Char} (hc : c.toNat < 128) (l : CString) :
    unescape (fuel + 1) ('\\' :: 'u' :: (printHex4 c.toNat ++ l)) =
      (unescape fuel l).map (c :: ·) := by
  have hcode : utf16LiteralToUtf8 ('\\' :: 'u' :: (printHex4 c.toNat ++ l)) = some ([c], 6) := by
    have hdrop : ('\\' :: 'u' :: (printHex4 c.toNat ++ l)).drop 2 = printHex4 c.toNat ++ l := rfl
    rw [utf16LiteralToUtf8, if_neg (by simp [printHex4]), hdrop, parseHex4_printHex4 (by omega)]
    simp only
    rw [if_neg (by omega), if_neg (by omega), utf8Bytes, if_pos (by omega), Char.ofNat_toNat]
  have hdrop : ('\\' :: 'u' :: (printHex4 c.toNat ++ l)).drop 6 = l := rfl
  rw [unescape.eq_def]
  simp only [if_pos, hcode, hdrop, List.singleton_append]

theorem unescape_escape {fuel : ℕ} (s : CString) (hs : Char.ofNat 0 ∉ s)
    (hfuel : (s.flatMap escapeChar).length ≤ fuel) :
    unescape fuel (s.flatMap escapeChar) = some s := by
  induction s generalizing fuel with
  | nil => cases fuel <;> rfl
  | cons c s ih =>
    rw [List.mem_cons, not_or] at hs
    rw [List.flatMap_cons] at hfuel ⊢
    rw [List.length_append] at hfuel
    rcases escapeChar_cases c with ⟨h, -, hback⟩ | ⟨e, h, hu, he⟩ | ⟨h, hlt⟩ <;> rw [h] at hfuel ⊢
    · obtain ⟨fuel, rfl⟩ : ∃ k, fuel = k + 1 := ⟨fuel - 1, by simp at hfuel; omega⟩
      rw [List.singleton_append, unescape_of_ne hback, ih hs.2 (by simp at hfuel ⊢; omega)]
      rfl
    · obtain ⟨fuel, rfl⟩ : ∃ k, fuel = k + 1 := ⟨fuel - 1, by simp at hfuel; omega⟩
      rw [List.cons_append, List.singleton_append, unescape_cons hu, he, Option.bind_some,
        ih hs.2 (by simp at hfuel ⊢; omega)]
      rfl
    · obtain ⟨fuel, rfl⟩ : ∃ k, fuel = k + 1 := ⟨fuel - 1, by simp at hfuel; omega⟩
      rw [List.cons_append, List.cons_append, unescape_printHex4 (by omega),
        ih hs.2 (by simp [printHex4] at hfuel ⊢; omega)]
      rfl

/-- A string is parsed as it was printed. -/
theorem parseString_printStringPtr {s : CString} (hs : Char.ofNat 0 ∉ s) (l : CString) :
    parseString (printStringPtr s ++ l) = some (s, l) := by
  have htake : s.takeWhile (· ≠ Char.ofNat 0) = s := by
    refine List.takeWhile_eq_self_iff.mpr fun c hc => ?_
    exact decide_eq_true fun h => hs (h ▸ hc)
  rw [printStringPtr, List.append_assoc, List.cons_append, List.singleton_append, parseString,
    splitLiteral_escape]
  simp only [unescape_escape s hs le_rfl, Option.map_some, htake]

/-! ## The parser's steps -/

theorem skipWhitespace_cons {c : Char} (hc : 32 < c.toNat) (l : CString) :
    skipWhitespace (c :: l) = c :: l := by
  have hdrop : (c :: l).dropWhile (·.toNat ≤ 32) = c :: l :=
    List.dropWhile_cons_of_neg (by simpa using hc)
  rw [skipWhitespace, hdrop]

section

variable {δ : Type} {D : Doubles δ} {fuel depth : ℕ} {l rest after name : CString} {item : CJson δ}

/-- What is no word is told by its first byte. -/
theorem parseValue_cons {c : Char} (hnull : c ≠ 'n') (hfalse : c ≠ 'f')
    (htrue : c ≠ 't') (l : CString) :
    parseValue D (fuel + 1) depth (c :: l) =
      if c = '"' then (parseString (c :: l)).map fun x => (.string x.1, x.2)
      else if c = '-' ∨ ('0' ≤ c ∧ c ≤ '9') then parseNumber D (c :: l)
      else if c = '[' ∨ c = '{' then
        if cJsonNestingLimit ≤ depth then none
        else
          match skipWhitespace l with
          | [] => none
          | c' :: after =>
            if c = '[' then
              if c' = ']' then some (.array .nil, after)
              else (parseElements D fuel (depth + 1) (c' :: after)).map fun x => (.array x.1, x.2)
            else if c' = '}' then some (.object .nil, after)
            else (parseMembers D fuel (depth + 1) (c' :: after)).map fun x => (.object x.1, x.2)
      else none := by
  have hword (word : CString) {w : CString} {c' : Char} (hw : word = c' :: w) (hc : c ≠ c') :
      ¬word.isPrefixOf (c :: l) = true := by
    rw [hw]
    simp [List.isPrefixOf, hc.symm]
  rw [parseValue, if_neg (hword "null".toList rfl hnull), if_neg (hword "false".toList rfl hfalse),
    if_neg (hword "true".toList rfl htrue)]

theorem parseElements_last (h : parseValue D fuel depth l = some (item, ']' :: after)) :
    parseElements D (fuel + 1) depth l = some (.cons [] item .nil, after) := by
  rw [parseElements, h]
  simp only [skipWhitespace_cons (show 32 < ']'.toNat by decide)]

theorem parseElements_more (h : parseValue D fuel depth l = some (item, ',' :: rest)) :
    parseElements D (fuel + 1) depth l =
      (parseElements D fuel depth (skipWhitespace rest)).map fun x => (.cons [] item x.1, x.2) := by
  rw [parseElements, h]
  simp only [skipWhitespace_cons (show 32 < ','.toNat by decide)]

theorem parseMembers_last (hname : parseString l = some (name, ':' :: rest))
    (h : parseValue D fuel depth (skipWhitespace rest) = some (item, '}' :: after)) :
    parseMembers D (fuel + 1) depth l = some (.cons name item .nil, after) := by
  rw [parseMembers, hname]
  simp only [skipWhitespace_cons (show 32 < ':'.toNat by decide), h,
    skipWhitespace_cons (show 32 < '}'.toNat by decide)]

theorem parseMembers_more {more : CString} (hname : parseString l = some (name, ':' :: rest))
    (h : parseValue D fuel depth (skipWhitespace rest) = some (item, ',' :: more)) :
    parseMembers D (fuel + 1) depth l =
      (parseMembers D fuel depth (skipWhitespace more)).map fun x => (.cons name item x.1, x.2) := by
  rw [parseMembers, hname]
  simp only [skipWhitespace_cons (show 32 < ':'.toNat by decide), h,
    skipWhitespace_cons (show 32 < ','.toNat by decide)]

end

/-! ## What is left of a text -/

section

variable {δ : Type} {D : Doubles δ} {fuel depth : ℕ} {l rest : CString}

theorem length_skipWhitespace_le (l : CString) : (skipWhitespace l).length ≤ l.length := by
  have hle : (l.dropWhile (·.toNat ≤ 32)).length ≤ l.length := (List.dropWhile_sublist _).length_le
  rw [skipWhitespace]
  split
  · rw [List.length_drop]
    exact Nat.sub_le _ _
  · rename_i hdrop
    rwa [hdrop] at hle

theorem length_splitLiteral_le {body : CString} (h : splitLiteral l = some (body, rest)) :
    rest.length < l.length := by
  fun_induction splitLiteral l generalizing body with
  | case1 => cases h
  | case2 rest' =>
    cases h
    exact Nat.lt_succ_self _
  | case3 c rest' ih =>
    obtain ⟨⟨body', after⟩, hsplit, heq⟩ := Option.map_eq_some_iff.mp h
    cases heq
    exact (ih hsplit).trans (by simp)
  | case4 c rest' _ _ ih =>
    obtain ⟨⟨body', after⟩, hsplit, heq⟩ := Option.map_eq_some_iff.mp h
    cases heq
    exact (ih hsplit).trans (Nat.lt_succ_self _)

theorem length_parseString_lt {s : CString} (h : parseString l = some (s, rest)) :
    rest.length < l.length := by
  rw [parseString.eq_def] at h
  split at h
  · split at h
    · cases h
    · rename_i hsplit
      obtain ⟨text, -, heq⟩ := Option.map_eq_some_iff.mp h
      cases heq
      exact (length_splitLiteral_le hsplit).trans (Nat.lt_succ_self _)
  · cases h

theorem parseString_noNull {s : CString} (h : parseString l = some (s, rest)) :
    Char.ofNat 0 ∉ s := by
  rw [parseString.eq_def] at h
  split at h
  · split at h
    · cases h
    · rename_i body after _
      rw [Option.map_eq_some_iff] at h
      obtain ⟨text, -, htext⟩ := h
      cases htext
      intro hmem
      have hne := List.mem_takeWhile_imp hmem
      simp at hne
  · cases h

/-- What is behind white space and one byte is shorter. -/
theorem length_lt_of_skipWhitespace {after : CString} {c : Char}
    (h : skipWhitespace l = c :: after) : after.length < l.length := by
  have hle := length_skipWhitespace_le l
  rw [h] at hle
  exact hle

/-- What a value is that is parsed at the front of `l`, and what it leaves. -/
inductive ParsesTo (D : Doubles δ) (fuel depth : ℕ) (l rest : CString) : CJson δ → Prop
  | null (hrest : rest.length ≤ l.length) : ParsesTo D fuel depth l rest .null
  | bool (b : Bool) (hrest : rest.length ≤ l.length) : ParsesTo D fuel depth l rest (.bool b)
  | number (d : δ) (hrest : rest.length ≤ l.length) : ParsesTo D fuel depth l rest (.number d)
  | string {s : CString} (hs : Char.ofNat 0 ∉ s) (hrest : rest.length ≤ l.length) :
      ParsesTo D fuel depth l rest (.string s)
  | emptyArray (hdepth : depth < cJsonNestingLimit) (hrest : rest.length ≤ l.length) :
      ParsesTo D fuel depth l rest (.array .nil)
  | emptyObject (hdepth : depth < cJsonNestingLimit) (hrest : rest.length ≤ l.length) :
      ParsesTo D fuel depth l rest (.object .nil)
  | array {child : CJsonItems δ} {inner : CString} (hdepth : depth < cJsonNestingLimit)
      (hinner : inner.length < l.length)
      (hchild : parseElements D fuel (depth + 1) inner = some (child, rest)) :
      ParsesTo D fuel depth l rest (.array child)
  | object {child : CJsonItems δ} {inner : CString} (hdepth : depth < cJsonNestingLimit)
      (hinner : inner.length < l.length)
      (hchild : parseMembers D fuel (depth + 1) inner = some (child, rest)) :
      ParsesTo D fuel depth l rest (.object child)

theorem parseValue_parsesTo {t : CJson δ} (h : parseValue D (fuel + 1) depth l = some (t, rest)) :
    ParsesTo D fuel depth l rest t := by
  have hdrop (l : CString) (n : ℕ) : (l.drop n).length ≤ l.length := by
    rw [List.length_drop]
    exact Nat.sub_le _ _
  rw [parseValue.eq_def] at h
  simp only at h
  -- The literals come first, as in the source.
  split at h
  · cases h
    exact .null (hdrop l 4)
  split at h
  · cases h
    exact .bool false (hdrop l 5)
  split at h
  · cases h
    exact .bool true (hdrop l 4)
  split at h
  · cases h
  rename_i c inside _ _ _
  split at h
  · rw [Option.map_eq_some_iff] at h
    obtain ⟨⟨s, after⟩, hs, heq⟩ := h
    cases heq
    exact .string (parseString_noNull hs) (length_parseString_lt hs).le
  split at h
  · rw [parseNumber, Option.map_eq_some_iff] at h
    obtain ⟨⟨d, n⟩, -, heq⟩ := h
    cases heq
    exact .number d (hdrop _ n)
  split at h
  · split at h
    · cases h
    rename_i hdepth
    rw [not_le] at hdepth
    split at h
    · cases h
    rename_i c' after hskip
    have hafter : (c' :: after).length < (c :: inside).length := by
      rw [← hskip]
      exact Nat.lt_succ_of_le (length_skipWhitespace_le inside)
    split_ifs at h
    · cases h
      exact .emptyArray hdepth (by simp at hafter ⊢; omega)
    · rw [Option.map_eq_some_iff] at h
      obtain ⟨⟨child, rest⟩, hchild, heq⟩ := h
      cases heq
      exact .array hdepth hafter hchild
    · cases h
      exact .emptyObject hdepth (by simp at hafter ⊢; omega)
    · rw [Option.map_eq_some_iff] at h
      obtain ⟨⟨child, rest⟩, hchild, heq⟩ := h
      cases heq
      exact .object hdepth hafter hchild
  · cases h

/-- The elements of an array: one, and the others behind a comma. -/
theorem parseElements_cases {child : CJsonItems δ}
    (h : parseElements D (fuel + 1) depth l = some (child, rest)) :
    ∃ item after, parseValue D fuel depth l = some (item, after) ∧
      ((child = .cons [] item .nil ∧ rest.length < after.length) ∨
        ∃ next more, child = .cons [] item next ∧ more.length < after.length ∧
          parseElements D fuel depth more = some (next, rest)) := by
  rw [parseElements] at h
  split at h
  · cases h
  rename_i item after hitem
  refine ⟨item, after, hitem, ?_⟩
  split at h
  · rename_i more hskip
    obtain ⟨⟨next, rest⟩, hnext, heq⟩ := Option.map_eq_some_iff.mp h
    cases heq
    exact .inr ⟨next, _, rfl, (length_skipWhitespace_le more).trans_lt
      (length_lt_of_skipWhitespace hskip), hnext⟩
  · rename_i hskip
    cases h
    exact .inl ⟨rfl, length_lt_of_skipWhitespace hskip⟩
  · cases h

theorem parseMembers_cases {child : CJsonItems δ}
    (h : parseMembers D (fuel + 1) depth l = some (child, rest)) :
    ∃ name before item after, Char.ofNat 0 ∉ name ∧ before.length < l.length ∧
      parseValue D fuel depth before = some (item, after) ∧
      ((child = .cons name item .nil ∧ rest.length < after.length) ∨
        ∃ next more, child = .cons name item next ∧ more.length < after.length ∧
          parseMembers D fuel depth more = some (next, rest)) := by
  rw [parseMembers] at h
  split at h
  · cases h
  rename_i name behind hname
  split at h
  · rename_i before hcolon
    split at h
    · cases h
    rename_i item after hitem
    have hbefore : (skipWhitespace before).length < l.length :=
      ((length_skipWhitespace_le before).trans_lt (length_lt_of_skipWhitespace hcolon)).trans
        (length_parseString_lt hname)
    refine ⟨name, _, item, after, parseString_noNull hname, hbefore, hitem, ?_⟩
    split at h
    · rename_i more hskip
      obtain ⟨⟨next, rest⟩, hnext, heq⟩ := Option.map_eq_some_iff.mp h
      cases heq
      exact .inr ⟨next, _, rfl, (length_skipWhitespace_le more).trans_lt
        (length_lt_of_skipWhitespace hskip), hnext⟩
    · rename_i hskip
      cases h
      exact .inl ⟨rfl, length_lt_of_skipWhitespace hskip⟩
    · cases h
  · cases h

theorem length_parse_le (fuel : ℕ) :
    (∀ {depth l t rest}, parseValue D fuel depth l = some (t, rest) → rest.length ≤ l.length) ∧
    (∀ {depth l child rest},
      parseElements D fuel depth l = some (child, rest) → rest.length ≤ l.length) ∧
    (∀ {depth l child rest},
      parseMembers D fuel depth l = some (child, rest) → rest.length ≤ l.length) := by
  induction fuel with
  | zero =>
    refine ⟨fun h => ?_, fun h => ?_, fun h => ?_⟩
    · rw [parseValue] at h
      cases h
    · rw [parseElements] at h
      cases h
    · rw [parseMembers] at h
      cases h
  | succ fuel ih =>
    obtain ⟨hvalue, helements, hmembers⟩ := ih
    refine ⟨fun h => ?_, fun h => ?_, fun h => ?_⟩
    · cases parseValue_parsesTo h with
      | null hrest => exact hrest
      | bool _ hrest => exact hrest
      | number _ hrest => exact hrest
      | string _ hrest => exact hrest
      | emptyArray _ hrest => exact hrest
      | emptyObject _ hrest => exact hrest
      | array _ hinner hchild => exact (helements hchild).trans hinner.le
      | object _ hinner hchild => exact (hmembers hchild).trans hinner.le
    · obtain ⟨item, after, hitem, h⟩ := parseElements_cases h
      have hafter := hvalue hitem
      rcases h with ⟨-, hrest⟩ | ⟨next, more, -, hmore, hnext⟩
      · exact hrest.le.trans hafter
      · exact (helements hnext).trans (hmore.le.trans hafter)
    · obtain ⟨name, before, item, after, -, hbefore, hitem, h⟩ := parseMembers_cases h
      have hafter := (hvalue hitem).trans hbefore.le
      rcases h with ⟨-, hrest⟩ | ⟨next, more, -, hmore, hnext⟩
      · exact hrest.le.trans hafter
      · exact (hmembers hnext).trans (hmore.le.trans hafter)

/-- Two calls for each byte are enough. -/
theorem parse_fuel (fuel : ℕ) :
    (∀ {depth} {l : CString}, 2 * l.length < fuel →
      parseValue D (fuel + 1) depth l = parseValue D fuel depth l) ∧
    (∀ {depth} {l : CString}, 2 * l.length + 1 < fuel →
      parseElements D (fuel + 1) depth l = parseElements D fuel depth l) ∧
    (∀ {depth} {l : CString}, 2 * l.length + 1 < fuel →
      parseMembers D (fuel + 1) depth l = parseMembers D fuel depth l) := by
  induction fuel with
  | zero => exact ⟨fun h => by omega, fun h => by omega, fun h => by omega⟩
  | succ fuel ih =>
    obtain ⟨hvalue, helements, hmembers⟩ := ih
    -- A value calls for its items on less input, the items for a value on the same.
    refine ⟨fun {depth l} h => ?_, fun {depth l} h => ?_, fun {depth l} h => ?_⟩
    · rw [parseValue.eq_def D (fuel + 1 + 1), parseValue.eq_def D (fuel + 1)]
      simp only
      refine if_congr Iff.rfl rfl (if_congr Iff.rfl rfl (if_congr Iff.rfl rfl ?_))
      cases l with
      | nil => rfl
      | cons c l =>
        have hskip := length_skipWhitespace_le l
        rw [List.length_cons] at h
        refine if_congr Iff.rfl rfl (if_congr Iff.rfl rfl (if_congr Iff.rfl
          (if_congr Iff.rfl rfl ?_) rfl))
        cases hl : skipWhitespace l with
        | nil => rfl
        | cons c' after =>
          rw [hl] at hskip
          simp only
          rw [helements (by omega), hmembers (by omega)]
    · rw [parseElements, parseElements, hvalue (by omega)]
      cases hitem : parseValue D fuel depth l with
      | none => rfl
      | some x =>
        have hafter := (length_parse_le fuel).1 hitem
        simp only
        split
        · rename_i more hskip
          have hlt := length_lt_of_skipWhitespace hskip
          have hle := length_skipWhitespace_le more
          rw [helements (by omega)]
        · rfl
        · rfl
    · rw [parseMembers, parseMembers]
      cases hname : parseString l with
      | none => rfl
      | some x =>
        have hbehind := length_parseString_lt hname
        simp only
        split
        · rename_i before hcolon
          have hlt := length_lt_of_skipWhitespace hcolon
          have hle := length_skipWhitespace_le before
          rw [hvalue (by omega)]
          cases hitem : parseValue D fuel depth (skipWhitespace before) with
          | none => rfl
          | some y =>
            have hafter := (length_parse_le fuel).1 hitem
            simp only
            split
            · rename_i more hskip
              have hlt' := length_lt_of_skipWhitespace hskip
              have hle' := length_skipWhitespace_le more
              rw [hmembers (by omega)]
            · rfl
            · rfl
        · rfl

/-- More calls than two for each byte make no difference. -/
theorem parseValue_fuel (h : 2 * l.length < fuel) :
    parseValue D fuel depth l = parseValue D (2 * l.length + 1) depth l := by
  induction fuel with
  | zero => omega
  | succ fuel ih =>
    rcases Nat.lt_succ_iff_lt_or_eq.mp h with hlt | rfl
    · rw [(parse_fuel fuel).1 hlt, ih hlt]
    · rfl

end

/-! ## Printed and parsed again -/

section

variable {δ : Type} [DecidableEq δ] (D : Doubles δ)

/-- The number is read as it is written: up to the first byte of another kind. -/
structure Doubles.Reads (d : δ) : Prop where
  begins : ∃ c l, printNumber D d = c :: l ∧ (c = '-' ∨ ('0' ≤ c ∧ c ≤ '9'))
  chars : ∀ c ∈ printNumber D d, isNumberChar c = true
  strtod : D.strtod (printNumber D d) = some (d, (printNumber D d).length)

mutual

/-- Texts have no null byte, numbers are read as they are written, and only the items of an
    object have names. -/
def CJson.Readable : CJson δ → Prop
  | .null => True
  | .bool _ => True
  | .number d => D.Reads d
  | .string s => Char.ofNat 0 ∉ s
  | .array child => child.Readable false
  | .object child => child.Readable true

def CJsonItems.Readable (named : Bool) : CJsonItems δ → Prop
  | .nil => True
  | .cons name item next =>
    (if named then Char.ofNat 0 ∉ name else name = []) ∧ item.Readable ∧ next.Readable named

end

mutual

/-- How many arrays and objects are inside each other. -/
def CJson.depth {δ : Type} : CJson δ → ℕ
  | .null => 0
  | .bool _ => 0
  | .number _ => 0
  | .string _ => 0
  | .array child => child.depth + 1
  | .object child => child.depth + 1

def CJsonItems.depth {δ : Type} : CJsonItems δ → ℕ
  | .nil => 0
  | .cons _ item next => max item.depth next.depth

end

variable {D}

/-- What is printed begins with a byte below 128 that is no white space and closes nothing. -/
theorem CJson.print_eq_cons {t : CJson δ} (ht : t.Readable D) :
    ∃ c l, t.print D = c :: l ∧ 32 < c.toNat ∧ c.toNat < 128 ∧ c ≠ ']' := by
  cases t with
  | null => exact ⟨'n', _, rfl, by decide, by decide, by decide⟩
  | bool b => cases b <;> [exact ⟨'f', _, rfl, by decide, by decide, by decide⟩;
      exact ⟨'t', _, rfl, by decide, by decide, by decide⟩]
  | number d =>
    rw [CJson.Readable] at ht
    obtain ⟨c, l, hprint, hc⟩ := ht.begins
    refine ⟨c, l, by rw [CJson.print, hprint], ?_⟩
    rcases hc with rfl | ⟨hlow, hhigh⟩
    · decide
    · refine ⟨lt_of_lt_of_le (by decide) (show '0'.toNat ≤ c.toNat from hlow),
        lt_of_le_of_lt (show c.toNat ≤ '9'.toNat from hhigh) (by decide), ?_⟩
      rintro rfl
      exact absurd hhigh (by decide)
  | string s => exact ⟨'"', _, rfl, by decide, by decide, by decide⟩
  | array child => exact ⟨'[', _, rfl, by decide, by decide, by decide⟩
  | object child => exact ⟨'{', _, rfl, by decide, by decide, by decide⟩

theorem parseNumber_printNumber {d : δ} (hd : D.Reads d) {rest : CString}
    (hrest : ∀ c ∈ rest.head?, isNumberChar c = false) :
    parseNumber D (printNumber D d ++ rest) = some (.number d, rest) := by
  have htake : (printNumber D d ++ rest).takeWhile isNumberChar = printNumber D d := by
    rw [List.takeWhile_append_of_pos hd.chars]
    cases rest with
    | nil => rw [List.takeWhile_nil, List.append_nil]
    | cons c l =>
      rw [List.takeWhile_cons_of_neg (by rw [hrest c rfl]; decide), List.append_nil]
  rw [parseNumber, htake, hd.strtod, Option.map_some, List.drop_left]

theorem CJsonItems.print_last (named : Bool) (name : CString) (item : CJson δ) :
    (CJsonItems.cons name item .nil).print D named =
      (if named then printStringPtr name ++ [':'] else []) ++ item.print D := by
  rw [CJsonItems.print.eq_def]
  simp only [CJsonItems.print, List.append_nil]

theorem CJsonItems.print_more (named : Bool) (name name' : CString) (item item' : CJson δ)
    (next : CJsonItems δ) :
    (CJsonItems.cons name item (.cons name' item' next)).print D named =
      (if named then printStringPtr name ++ [':'] else []) ++ item.print D ++
        ',' :: (CJsonItems.cons name' item' next).print D named := by
  rw [CJsonItems.print.eq_def]
  simp only [List.append_assoc, List.singleton_append]

theorem CJsonItems.print_eq_append (named : Bool) (name : CString) (item : CJson δ)
    (next : CJsonItems δ) :
    ∃ tail, (CJsonItems.cons name item next).print D named =
      (if named then printStringPtr name ++ [':'] else []) ++ item.print D ++ tail := by
  cases next with
  | nil => exact ⟨[], by rw [CJsonItems.print_last, List.append_nil]⟩
  | cons name' item' next => exact ⟨_, CJsonItems.print_more named name name' item item' next⟩

theorem skipWhitespace_print {t : CJson δ} (ht : t.Readable D) (l : CString) :
    skipWhitespace (t.print D ++ l) = t.print D ++ l := by
  obtain ⟨c, tail, hprint, hspace, -⟩ := CJson.print_eq_cons ht
  rw [hprint, List.cons_append, skipWhitespace_cons hspace]

/-- An array's items begin as its first one does, an object's with the quote of its name. -/
theorem CJsonItems.print_eq_cons {named : Bool} {name : CString} {item : CJson δ}
    {next : CJsonItems δ} (h : (CJsonItems.cons name item next).Readable D named) :
    ∃ c l, (CJsonItems.cons name item next).print D named = c :: l ∧ 32 < c.toNat ∧
      c ≠ if named then '}' else ']' := by
  rw [CJsonItems.Readable] at h
  obtain ⟨c, l, hprint, hspace, -, hclose⟩ := CJson.print_eq_cons h.2.1
  obtain ⟨tail, htail⟩ := CJsonItems.print_eq_append (D := D) named name item next
  rw [htail]
  cases named with
  | false => exact ⟨c, l ++ tail, by rw [hprint]; rfl, hspace, hclose⟩
  | true => exact ⟨'"', _, rfl, by decide, by decide⟩

theorem skipWhitespace_print_items {named : Bool} {name : CString} {item : CJson δ}
    {next : CJsonItems δ} (h : (CJsonItems.cons name item next).Readable D named) (l : CString) :
    skipWhitespace ((CJsonItems.cons name item next).print D named ++ l) =
      (CJsonItems.cons name item next).print D named ++ l := by
  obtain ⟨c, tail, hprint, hspace, -⟩ := CJsonItems.print_eq_cons h
  rw [hprint, List.cons_append, skipWhitespace_cons hspace]

mutual

/-- A value is parsed as it was printed. -/
theorem parseValue_print {fuel depth : ℕ} {rest : CString} (t : CJson δ) (ht : t.Readable D)
    (hfuel : 2 * (t.print D).length ≤ fuel) (hdepth : depth + t.depth ≤ cJsonNestingLimit)
    (hrest : ∀ c ∈ rest.head?, isNumberChar c = false) :
    parseValue D fuel depth (t.print D ++ rest) = some (t, rest) := by
  obtain ⟨fuel, rfl⟩ : ∃ k, fuel = k + 1 := by
    obtain ⟨c, l, hprint, -⟩ := CJson.print_eq_cons ht
    rw [hprint, List.length_cons] at hfuel
    exact ⟨fuel - 1, by omega⟩
  match t with
  | .null => rfl
  | .bool false => rfl
  | .bool true => rfl
  | .number d =>
    rw [CJson.Readable] at ht
    -- A number begins with a sign or a digit, and so is none of the literals.
    obtain ⟨c, l, hprint, hc⟩ := ht.begins
    have hparse := parseNumber_printNumber ht hrest
    have hother (x : Char) (hx : ¬(x = '-' ∨ ('0' ≤ x ∧ x ≤ '9'))) : c ≠ x := by
      rintro rfl
      exact hx hc
    rw [CJson.print]
    rw [hprint, List.cons_append] at hparse ⊢
    rw [parseValue_cons (hother _ (by decide)) (hother _ (by decide)) (hother _ (by decide)),
      if_neg (hother _ (by decide)), if_pos hc, hparse]
  | .string s =>
    rw [CJson.Readable] at ht
    have hparse := parseString_printStringPtr ht rest
    rw [CJson.print]
    rw [printStringPtr, List.cons_append, List.cons_append] at hparse ⊢
    rw [parseValue_cons (by decide) (by decide) (by decide), if_pos rfl, hparse]
    rfl
  | .array child =>
    rw [CJson.Readable] at ht
    rw [CJson.depth] at hdepth
    rw [CJson.print, List.cons_append, List.length_cons, List.length_append] at hfuel
    rw [CJson.print, List.cons_append, List.cons_append, List.append_assoc,
      List.singleton_append, parseValue_cons (by decide) (by decide) (by decide), if_neg (by decide),
      if_neg (by decide), if_pos (.inl rfl), if_neg (by omega)]
    match child with
    | .nil => rfl
    | .cons name item next =>
      have hparse : parseElements D fuel (depth + 1)
          ((CJsonItems.cons name item next).print D false ++ ']' :: rest) =
          some (.cons name item next, rest) :=
        parseElements_print name item next ht (by simp at hfuel ⊢; omega) (by omega)
      -- The first item does not begin with white space, nor with the bracket that closes.
      have hskip := skipWhitespace_print_items ht (']' :: rest)
      obtain ⟨c, l, hprint, -, hclose⟩ := CJsonItems.print_eq_cons ht
      rw [hprint, List.cons_append] at hparse hskip ⊢
      rw [hskip]
      simp only [if_neg (show c ≠ ']' from hclose), hparse, Option.map_some, if_pos]
  | .object child =>
    rw [CJson.Readable] at ht
    rw [CJson.depth] at hdepth
    rw [CJson.print, List.cons_append, List.length_cons, List.length_append] at hfuel
    rw [CJson.print, List.cons_append, List.cons_append, List.append_assoc,
      List.singleton_append, parseValue_cons (by decide) (by decide) (by decide), if_neg (by decide),
      if_neg (by decide), if_pos (.inr rfl), if_neg (by omega)]
    match child with
    | .nil => rfl
    | .cons name item next =>
      have hparse : parseMembers D fuel (depth + 1)
          ((CJsonItems.cons name item next).print D true ++ '}' :: rest) =
          some (.cons name item next, rest) :=
        parseMembers_print name item next ht (by simp at hfuel ⊢; omega) (by omega)
      have hskip := skipWhitespace_print_items ht ('}' :: rest)
      obtain ⟨c, l, hprint, -, hclose⟩ := CJsonItems.print_eq_cons ht
      rw [hprint, List.cons_append] at hparse hskip ⊢
      rw [hskip]
      simp only [if_neg (show c ≠ '}' from hclose), if_neg (show '{' ≠ '[' by decide), hparse,
        Option.map_some]

theorem parseElements_print {fuel depth : ℕ} {rest : CString} (name : CString) (item : CJson δ)
    (next : CJsonItems δ) (h : (CJsonItems.cons name item next).Readable D false)
    (hfuel : 2 * ((CJsonItems.cons name item next).print D false).length + 1 ≤ fuel)
    (hdepth : depth + (CJsonItems.cons name item next).depth ≤ cJsonNestingLimit) :
    parseElements D fuel depth ((CJsonItems.cons name item next).print D false ++ ']' :: rest) =
      some (.cons name item next, rest) := by
  obtain ⟨fuel, rfl⟩ : ∃ k, fuel = k + 1 := ⟨fuel - 1, by omega⟩
  rw [CJsonItems.Readable] at h
  obtain ⟨hname, hitem, hnext⟩ := h
  rw [if_neg (by decide)] at hname
  rw [CJsonItems.depth] at hdepth
  match next with
  | .nil =>
    rw [CJsonItems.print_last, if_neg (by decide), List.nil_append] at hfuel ⊢
    rw [hname]
    exact parseElements_last (parseValue_print item hitem (by omega) (by omega) (by simp; decide))
  | .cons name' item' next =>
    rw [CJsonItems.print_more, if_neg (by decide), List.nil_append] at hfuel ⊢
    rw [List.length_append, List.length_cons] at hfuel
    rw [List.append_assoc, List.cons_append, parseElements_more
      (parseValue_print item hitem (by omega) (by omega) (by simp; decide)),
      skipWhitespace_print_items hnext,
      parseElements_print name' item' next hnext (by omega) (by omega), hname, Option.map_some]

theorem parseMembers_print {fuel depth : ℕ} {rest : CString} (name : CString) (item : CJson δ)
    (next : CJsonItems δ) (h : (CJsonItems.cons name item next).Readable D true)
    (hfuel : 2 * ((CJsonItems.cons name item next).print D true).length + 1 ≤ fuel)
    (hdepth : depth + (CJsonItems.cons name item next).depth ≤ cJsonNestingLimit) :
    parseMembers D fuel depth ((CJsonItems.cons name item next).print D true ++ '}' :: rest) =
      some (.cons name item next, rest) := by
  obtain ⟨fuel, rfl⟩ : ∃ k, fuel = k + 1 := ⟨fuel - 1, by omega⟩
  rw [CJsonItems.Readable] at h
  obtain ⟨hname, hitem, hnext⟩ := h
  rw [if_pos rfl] at hname
  rw [CJsonItems.depth] at hdepth
  match next with
  | .nil =>
    rw [CJsonItems.print_last, if_pos rfl] at hfuel ⊢
    simp only [List.length_append] at hfuel
    simp only [List.append_assoc, List.singleton_append]
    refine parseMembers_last (parseString_printStringPtr hname _) ?_
    change parseValue D fuel depth (skipWhitespace (item.print D ++ _)) = _
    rw [skipWhitespace_print hitem]
    exact parseValue_print item hitem (by omega) (by omega) (by simp; decide)
  | .cons name' item' next =>
    rw [CJsonItems.print_more, if_pos rfl] at hfuel ⊢
    simp only [List.length_append, List.length_cons] at hfuel
    simp only [List.append_assoc, List.cons_append, List.nil_append]
    let rest' := ',' :: ((CJsonItems.cons name' item' next).print D true ++ '}' :: rest)
    have hparse : parseValue D fuel depth (item.print D ++ rest') = some (item, rest') :=
      parseValue_print item hitem (by omega) (by omega) (by simp [rest']; decide)
    rw [← skipWhitespace_print hitem] at hparse
    rw [parseMembers_more (parseString_printStringPtr hname _) hparse,
      skipWhitespace_print_items hnext,
      parseMembers_print name' item' next hnext (by omega) (by omega), Option.map_some]

end

/-- Whole numbers, each written in decimal. -/
def Doubles.whole : Doubles ℤ where
  ofInt := id
  toInt n := max (-2 ^ 31) (min (2 ^ 31 - 1) n)
  isFinite _ := true
  format := Toml.decimal
  strtod l := (Toml.parseInt l).map fun n => (n, l.length)

/-- A number written in decimal, and read as that, is read as it is written. -/
theorem Doubles.reads_decimal {d : δ} {n : ℤ} (hprint : printNumber D d = Toml.decimal n)
    (hread : D.strtod (Toml.decimal n) = some (d, (Toml.decimal n).length)) : D.Reads d := by
  have hdigit {c : Char} (hc : c.isDigit = true) : '0' ≤ c ∧ c ≤ '9' := by
    rw [Char.isDigit, Bool.and_eq_true, decide_eq_true_eq, decide_eq_true_eq] at hc
    exact hc
  have hchars : ∀ c ∈ Toml.decimal n, c = '-' ∨ ('0' ≤ c ∧ c ≤ '9') := by
    intro c hc
    by_contra hnot
    rw [not_or] at hnot
    exact Toml.notMem_decimal (Bool.eq_false_iff.mpr fun h => hnot.2 (hdigit h)) hnot.1 n hc
  have hne : Toml.decimal n ≠ [] := by
    obtain ⟨m, rfl | rfl⟩ := n.eq_nat_or_neg
    · rw [Toml.decimal_natCast]
      exact Nat.toDigits_ne_nil
    · by_cases hm : m = 0
      · subst hm
        decide
      · rw [Toml.decimal_neg hm]
        exact List.cons_ne_nil _ _
  refine ⟨?_, ?_, by rw [hprint, hread]⟩
  · obtain ⟨c, l, hcons⟩ := List.exists_cons_of_ne_nil hne
    exact ⟨c, l, by rw [hprint, hcons], hchars c (by rw [hcons]; exact List.mem_cons_self)⟩
  · intro c hc
    rw [hprint] at hc
    rcases hchars c hc with rfl | ⟨hlow, hhigh⟩
    · rfl
    · simp [isNumberChar, hlow, hhigh]

theorem Doubles.whole_reads (n : ℤ) : Doubles.whole.Reads n := by
  refine Doubles.reads_decimal (n := n) ?_ ?_
  · have hfinite : ¬Doubles.whole.isFinite n = false := Bool.noConfusion
    rw [printNumber, if_neg hfinite]
    split_ifs with h
    · exact congrArg Toml.decimal h.symm
    · rfl
  · simp [Doubles.whole, Toml.parseInt_decimal]

mutual

/-- Nothing printed has a null byte. -/
theorem null_notMem_print (t : CJson δ) (ht : t.Readable D) : Char.ofNat 0 ∉ t.print D := by
  match t with
  | .null => exact of_decide_eq_true rfl
  | .bool false => exact of_decide_eq_true rfl
  | .bool true => exact of_decide_eq_true rfl
  | .number d =>
    rw [CJson.Readable] at ht
    rw [CJson.print]
    exact fun hmem => absurd (ht.chars _ hmem) (by decide)
  | .string s =>
    rw [CJson.Readable] at ht
    rw [CJson.print]
    exact null_notMem_printStringPtr ht
  | .array child =>
    rw [CJson.Readable] at ht
    have hchild := null_notMem_print_items child ht
    simp only [CJson.print, List.mem_append, List.mem_cons, List.not_mem_nil, or_false, not_or]
    exact ⟨⟨by decide, hchild⟩, by decide⟩
  | .object child =>
    rw [CJson.Readable] at ht
    have hchild := null_notMem_print_items child ht
    simp only [CJson.print, List.mem_append, List.mem_cons, List.not_mem_nil, or_false, not_or]
    exact ⟨⟨by decide, hchild⟩, by decide⟩

theorem null_notMem_print_items {named : Bool} (child : CJsonItems δ) (h : child.Readable D named) :
    Char.ofNat 0 ∉ child.print D named := by
  match child with
  | .nil =>
    rw [CJsonItems.print]
    exact List.not_mem_nil
  | .cons name item next =>
    rw [CJsonItems.Readable] at h
    obtain ⟨hname, hitem, hnext⟩ := h
    have hitem := null_notMem_print item hitem
    have hnext := null_notMem_print_items next hnext
    have hname : Char.ofNat 0 ∉ if named then printStringPtr name ++ [':'] else [] := by
      cases named with
      | false => exact List.not_mem_nil
      | true =>
        simp only [if_pos, List.mem_append, List.mem_singleton, not_or]
        exact ⟨null_notMem_printStringPtr hname, by decide⟩
    cases next with
    | nil =>
      rw [CJsonItems.print_last, List.mem_append, not_or]
      exact ⟨hname, hitem⟩
    | cons name' item' next' =>
      rw [CJsonItems.print_more, List.mem_append, List.mem_append, List.mem_cons]
      simp only [not_or]
      exact ⟨⟨hname, hitem⟩, by decide, hnext⟩

end

theorem cJsonParse_print (t : CJson δ) (ht : t.Readable D) (hdepth : t.depth ≤ cJsonNestingLimit) :
    cJsonParse D (t.print D) = some t := by
  obtain ⟨c, l, hprint, -, hascii, -⟩ := CJson.print_eq_cons ht
  have hbom : ¬utf8Bom.isPrefixOf (t.print D ++ [Char.ofNat 0]) = true := by
    have hc : c ≠ Char.ofNat 0xEF := by
      rintro rfl
      exact absurd hascii (by decide)
    rw [hprint, utf8Bom]
    simp [List.isPrefixOf, hc.symm]
  rw [cJsonParse]
  simp only [if_neg (not_and_of_not_right _ hbom)]
  rw [skipWhitespace_print ht, parseValue_print t ht (by simp; omega) (by omega) (by simp; decide)]
  rfl

/-- A string with an escaped byte and an array in an array. -/
theorem cJsonParse_print_nested :
    let t : CJson ℤ := .object (.cons ['k'] (.string ['"', Char.ofNat 7])
      (.cons [] (.array (.cons [] (.number (-12)) (.cons [] (.array .nil) .nil))) .nil))
    cJsonParse Doubles.whole (t.print Doubles.whole) = some t := by
  refine cJsonParse_print _ ?_ (by decide)
  simp [CJson.Readable, CJsonItems.Readable, Doubles.whole_reads]

end

/-! ## Parsed, printed and parsed again -/

section

variable {δ : Type} {D : Doubles δ} {fuel depth : ℕ} {l rest : CString}

mutual

/-- The numbers in a value. -/
def CJson.numbers : CJson δ → List δ
  | .null => []
  | .bool _ => []
  | .number d => [d]
  | .string _ => []
  | .array child => child.numbers
  | .object child => child.numbers

def CJsonItems.numbers : CJsonItems δ → List δ
  | .nil => []
  | .cons _ item next => item.numbers ++ next.numbers

end

mutual

/-- The strings in a value, and the names of its items. -/
def CJson.strings : CJson δ → List CString
  | .null => []
  | .bool _ => []
  | .number _ => []
  | .string s => [s]
  | .array child => child.strings
  | .object child => child.strings

def CJsonItems.strings : CJsonItems δ → List CString
  | .nil => []
  | .cons name item next => name :: (item.strings ++ next.strings)

end

/-- What holds of the values parsed: they are not nested too deeply, have no null byte, and can be
    printed if their numbers can. -/
structure CJson.Accepted (D : Doubles δ) [DecidableEq δ] (depth : ℕ) (t : CJson δ) : Prop where
  depth : depth + t.depth ≤ cJsonNestingLimit
  noNull : ∀ s ∈ t.strings, Char.ofNat 0 ∉ s
  readable : (∀ d ∈ t.numbers, D.Reads d) → t.Readable D

structure CJsonItems.Accepted (D : Doubles δ) [DecidableEq δ] (depth : ℕ) (named : Bool)
    (child : CJsonItems δ) : Prop where
  depth : depth + child.depth ≤ cJsonNestingLimit
  noNull : ∀ s ∈ child.strings, Char.ofNat 0 ∉ s
  readable : (∀ d ∈ child.numbers, D.Reads d) → child.Readable D named

theorem CJsonItems.Accepted.cons [DecidableEq δ] {named : Bool} {name : CString} {item : CJson δ}
    {next : CJsonItems δ} (hname : if named then Char.ofNat 0 ∉ name else name = [])
    (hitem : item.Accepted D depth) (hnext : next.Accepted D depth named) :
    (CJsonItems.cons name item next).Accepted D depth named where
  depth := by
    have h₁ := hitem.depth
    have h₂ := hnext.depth
    rw [CJsonItems.depth]
    omega
  noNull := by
    have hnull : Char.ofNat 0 ∉ name := by
      split_ifs at hname
      · exact hname
      · rw [hname]
        exact List.not_mem_nil
    rw [CJsonItems.strings, List.forall_mem_cons, List.forall_mem_append]
    exact ⟨hnull, hitem.noNull, hnext.noNull⟩
  readable := by
    intro hnumbers
    simp only [CJsonItems.numbers, List.mem_append] at hnumbers
    rw [CJsonItems.Readable]
    exact ⟨hname, hitem.readable fun d hd => hnumbers d (.inl hd),
      hnext.readable fun d hd => hnumbers d (.inr hd)⟩

theorem CJsonItems.Accepted.nil [DecidableEq δ] {named : Bool} (hdepth : depth ≤ cJsonNestingLimit) :
    (CJsonItems.nil : CJsonItems δ).Accepted D depth named :=
  ⟨by rw [CJsonItems.depth]; exact hdepth, by simp [CJsonItems.strings],
    fun _ => by rw [CJsonItems.Readable]; trivial⟩

theorem CJson.Accepted.array [DecidableEq δ] {child : CJsonItems δ}
    (h : child.Accepted D (depth + 1) false) : (CJson.array child).Accepted D depth where
  depth := by
    have hdepth := h.depth
    rw [CJson.depth]
    omega
  noNull := by
    rw [CJson.strings]
    exact h.noNull
  readable := by
    rw [CJson.numbers, CJson.Readable]
    exact h.readable

theorem CJson.Accepted.object [DecidableEq δ] {child : CJsonItems δ}
    (h : child.Accepted D (depth + 1) true) : (CJson.object child).Accepted D depth where
  depth := by
    have hdepth := h.depth
    rw [CJson.depth]
    omega
  noNull := by
    rw [CJson.strings]
    exact h.noNull
  readable := by
    rw [CJson.numbers, CJson.Readable]
    exact h.readable

theorem accepted_of_parse [DecidableEq δ] (fuel : ℕ) :
    (∀ {depth l t rest}, depth ≤ cJsonNestingLimit →
      parseValue D fuel depth l = some (t, rest) → t.Accepted D depth) ∧
    (∀ {depth l child rest}, depth ≤ cJsonNestingLimit →
      parseElements D fuel depth l = some (child, rest) → child.Accepted D depth false) ∧
    (∀ {depth l child rest}, depth ≤ cJsonNestingLimit →
      parseMembers D fuel depth l = some (child, rest) → child.Accepted D depth true) := by
  induction fuel with
  | zero =>
    refine ⟨fun _ h => ?_, fun _ h => ?_, fun _ h => ?_⟩
    · rw [parseValue] at h
      cases h
    · rw [parseElements] at h
      cases h
    · rw [parseMembers] at h
      cases h
  | succ fuel ih =>
    obtain ⟨hvalue, helements, hmembers⟩ := ih
    refine ⟨fun hdepth h => ?_, fun hdepth h => ?_, fun hdepth h => ?_⟩
    · cases parseValue_parsesTo h with
      | null _ => exact ⟨hdepth, by simp [CJson.strings], fun _ => by rw [CJson.Readable]; trivial⟩
      | bool b _ => exact ⟨hdepth, by simp [CJson.strings], fun _ => by rw [CJson.Readable]; trivial⟩
      | number d _ =>
        refine ⟨hdepth, by simp [CJson.strings], fun hnumbers => ?_⟩
        rw [CJson.Readable]
        exact hnumbers d (by rw [CJson.numbers]; exact List.mem_singleton_self d)
      | string hs _ =>
        refine ⟨hdepth, ?_, fun _ => by rw [CJson.Readable]; exact hs⟩
        rw [CJson.strings, List.forall_mem_singleton]
        exact hs
      | emptyArray hlt _ => exact .array (.nil hlt)
      | emptyObject hlt _ => exact .object (.nil hlt)
      | array hlt _ hchild => exact .array (helements hlt hchild)
      | object hlt _ hchild => exact .object (hmembers hlt hchild)
    · obtain ⟨item, after, hitem, ⟨rfl, -⟩ | ⟨next, more, rfl, -, hnext⟩⟩ := parseElements_cases h
      · exact .cons rfl (hvalue hdepth hitem) (.nil hdepth)
      · exact .cons rfl (hvalue hdepth hitem) (helements hdepth hnext)
    · obtain ⟨name, before, item, after, hname, -, hitem, ⟨rfl, -⟩ | ⟨next, more, rfl, -, hnext⟩⟩ :=
        parseMembers_cases h
      · exact .cons hname (hvalue hdepth hitem) (.nil hdepth)
      · exact .cons hname (hvalue hdepth hitem) (hmembers hdepth hnext)

theorem parseValue_of_cJsonParse {text : CString} {t : CJson δ} (h : cJsonParse D text = some t) :
    ∃ fuel l rest, parseValue D fuel 0 l = some (t, rest) := by
  obtain ⟨⟨t', rest⟩, hparse, rfl⟩ := Option.map_eq_some_iff.mp h
  exact ⟨_, _, rest, hparse⟩

/-- Whatever is parsed is not nested too deeply, and its strings have no null byte. If its numbers
    are read as they are written, a text that is printed of it is parsed to the same value. -/
theorem cJsonParse_reprinted [DecidableEq δ] {text : CString} {t : CJson δ}
    (h : cJsonParse D text = some t) :
    t.depth ≤ cJsonNestingLimit ∧ (∀ s ∈ t.strings, Char.ofNat 0 ∉ s) ∧
      ((∀ d ∈ t.numbers, D.Reads d) → ∀ text' ∈ cJsonPrintUnformatted D t,
        cJsonParse D text' = some t) := by
  obtain ⟨fuel, l, rest, hparse⟩ := parseValue_of_cJsonParse h
  have haccepted := (accepted_of_parse fuel).1 (Nat.zero_le _) hparse
  have hdepth := haccepted.depth
  rw [Nat.zero_add] at hdepth
  refine ⟨hdepth, haccepted.noNull, fun hnumbers text' htext => ?_⟩
  rw [cJsonPrintUnformatted, Option.mem_def] at htext
  split_ifs at htext
  cases htext
  exact cJsonParse_print t (haccepted.readable hnumbers) hdepth

/-- White space is not printed. -/
theorem cJsonParse_reprinted_array :
    let t : CJson ℤ := .array (.cons [] .null .nil)
    t.depth ≤ cJsonNestingLimit ∧
      cJsonPrintUnformatted Doubles.whole t = some "[null]".toList ∧
      cJsonParse Doubles.whole "[null]".toList = some t := by
  have h : cJsonParse Doubles.whole "[ null]".toList = some (.array (.cons [] .null .nil)) := by
    have hbuffer : "[ null]".toList ++ [Char.ofNat 0] =
        ['[', ' ', 'n', 'u', 'l', 'l', ']', Char.ofNat 0] := by decide
    rw [cJsonParse]
    simp only [hbuffer]
    simp [utf8Bom, parseValue, parseElements, skipWhitespace, cJsonNestingLimit, List.isPrefixOf]
  obtain ⟨hdepth, -, hreprinted⟩ := cJsonParse_reprinted h
  have hprint : cJsonPrintUnformatted Doubles.whole (.array (.cons [] .null .nil)) =
      some "[null]".toList := by
    decide
  exact ⟨hdepth, hprint, hreprinted (fun d _ => Doubles.whole_reads d) _ hprint⟩

end

end Cdm
