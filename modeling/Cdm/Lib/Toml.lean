import Cdm.Lib.ListUpdate

/-!
# TOML documents, line by line

A part of TOML: documents of tables, of integers and strings under bare keys, one to a line.
Such a document is written by `render`. What a parser may be relied on for is `Correct`: it
reads what was written if every string stands for itself, refuses an integer of more than 64
bits, and takes from a string literal what the literal denotes, whatever follows.

* `Reads.plain`: only a literal that stands for itself denotes something as long as what was
  put between its quotes;
* `parse`, `correct_parse`: a parser of these documents, which is correct.

Characters are bytes.
-/

namespace Toml

inductive Value
  | int64 (n : Int64)
  | string (s : List Char)
  | other
  deriving DecidableEq

/-- The values of the keys of the tables. -/
abbrev Document := (table key : String) → Option Value

/-! ## Strings -/

/-- A character that stands for itself in a string. -/
def isPlain (c : Char) : Bool :=
  c ≠ '"' && c ≠ '\\' && (c = '\t' || 0x20 ≤ c.toNat) && c.toNat ≠ 0x7f

/-- Some escape sequences, and what they stand for. The encoding of a character is not longer
    than its code in digits. -/
inductive Escape : List Char → List Char → Prop
  | char (c d : Char) : Escape ['\\', c] [d]
  | code (u : Char) {digits bytes : List Char} (h : bytes.length ≤ digits.length) :
      Escape ('\\' :: u :: digits) bytes
  /-- The end of a line, and the white space after it, is left out. -/
  | lineEnd (space : List Char) : Escape ('\\' :: space) []

/-- What is written between the quotes, and what it denotes; `p` tells the characters that may
    stand for themselves. -/
inductive Denotes (p : Char → Bool) : List Char → List Char → Prop
  | nil : Denotes p [] []
  | char {c : Char} {raw v : List Char} (hc : p c = true) (h : Denotes p raw v) :
      Denotes p (c :: raw) (c :: v)
  | escape {e w raw v : List Char} (he : Escape e w) (h : Denotes p raw v) :
      Denotes p (e ++ raw) (w ++ v)

/-- The string literal whose opening quote is followed by `text` denotes `v`. -/
inductive Reads (text v : List Char) : Prop
  | basic {raw rest : List Char} (ht : text = raw ++ '"' :: rest) (h : Denotes isPlain raw v)
  /-- Three quotes open a string of several lines; a line feed after them is left out. -/
  | multiline {lead raw rest : List Char}
      (ht : text = '"' :: '"' :: lead ++ raw ++ '"' :: '"' :: '"' :: rest)
      (h : Denotes (· ≠ '\\') raw v)

theorem Escape.length_lt {e w : List Char} (h : Escape e w) : w.length < e.length := by
  cases h with
  | char => exact Nat.one_lt_two
  | code _ h => exact Nat.lt_succ_of_lt (Nat.lt_succ_of_le h)
  | lineEnd => exact Nat.zero_lt_succ _

/-- Nothing longer than what is written is denoted, and something as long only if all
    characters stand for themselves. -/
theorem Denotes.length_le {p : Char → Bool} {raw v : List Char} (h : Denotes p raw v) :
    v.length ≤ raw.length ∧ (v.length = raw.length → raw.all p = true) := by
  induction h with
  | nil => exact ⟨le_rfl, fun _ => rfl⟩
  | char hc _ ih =>
    refine ⟨Nat.succ_le_succ ih.1, fun heq => ?_⟩
    rw [List.all_cons, hc, ih.2 (Nat.succ.inj heq)]
    rfl
  | escape he _ ih =>
    have hlt := he.length_lt
    simp only [List.length_append]
    exact ⟨by omega, fun heq => by omega⟩

theorem denotes_self {p : Char → Bool} {raw : List Char} (h : raw.all p = true) :
    Denotes p raw raw := by
  induction raw with
  | nil => exact .nil
  | cons c raw ih =>
    rw [List.all_cons, Bool.and_eq_true] at h
    exact .char h.1 (ih h.2)

/-- Between quotes, only plain characters denote something as long as themselves. -/
theorem Reads.plain {s rest v : List Char} (h : Reads (s ++ '"' :: rest) v) (hrest : '"' ∉ rest)
    (hlen : s.length ≤ v.length) : s.all isPlain = true := by
  cases h with
  | @basic raw rest' ht h =>
    obtain ⟨hle, hall⟩ := h.length_le
    rcases List.append_eq_append_iff.1 ht with ⟨a, hraw, ha⟩ | ⟨a, hs, -⟩
    · cases a with
      | nil =>
        rw [List.append_nil] at hraw
        subst hraw
        exact hall (le_antisymm hle hlen)
      | cons c a =>
        -- The literal would end at a quote of the rest.
        rw [List.cons_append] at ha
        refine absurd ?_ hrest
        rw [(List.cons.inj ha).2]
        simp
    · have hlength : s.length = raw.length + a.length := by rw [hs, List.length_append]
      obtain rfl : a = [] := List.length_eq_zero_iff.1 (by omega)
      rw [List.append_nil] at hs
      subst hs
      exact hall (le_antisymm hle hlen)
  | @multiline lead raw rest' ht h =>
    have hle := h.length_le.1
    rcases List.append_eq_append_iff.1 ht with ⟨a, -, ha⟩ | ⟨a, hs, -⟩
    · refine absurd ?_ hrest
      cases a with
      | nil =>
        rw [(List.cons.inj ha).2]
        simp
      | cons c a =>
        rw [List.cons_append] at ha
        rw [(List.cons.inj ha).2]
        simp
    · -- Two more quotes are written than are denoted.
      have hlength := congrArg List.length hs
      simp only [List.length_append, List.length_cons] at hlength
      omega

/-! ## Documents -/

/-- An integer in decimal. -/
def decimal (n : ℤ) : List Char := (toString n).toList

inductive Line
  | table (name : String)
  | int (key : String) (n : ℤ)
  | string (key : String) (s : List Char)
  | blank
  deriving DecidableEq

def Line.text : Line → List Char
  | .table name => '[' :: name.toList ++ [']']
  | .int key n => key.toList ++ ' ' :: '=' :: ' ' :: decimal n
  | .string key s => key.toList ++ ' ' :: '=' :: ' ' :: '"' :: s ++ ['"']
  | .blank => []

def render (ls : List Line) : List Char := ls.flatMap fun l => l.text ++ ['\n']

/-- The keys with their values, for lines that follow the header of `table`. -/
def entries (table : String) : List Line → List ((String × String) × Value)
  | [] => []
  | .table name :: ls => entries name ls
  | .int key n :: ls => ((table, key), .int64 (.ofInt n)) :: entries table ls
  | .string key s :: ls => ((table, key), .string s) :: entries table ls
  | .blank :: ls => entries table ls

/-- The table the lines after some lines belong to. -/
def tableAfter (table : String) : List Line → String
  | [] => table
  | .table name :: ls => tableAfter name ls
  | _ :: ls => tableAfter table ls

def tables (ls : List Line) : List String :=
  ls.filterMap fun
    | .table name => some name
    | _ => none

def isBare (c : Char) : Bool := c.isAlphanum || c = '_' || c = '-'

/-- A name that needs no quotes. -/
def IsName (s : String) : Prop := s ≠ "" ∧ s.toList.all isBare = true

instance (s : String) : Decidable (IsName s) := inferInstanceAs (Decidable (_ ∧ _))

/-- Names are bare, and strings stand for themselves. -/
def Line.WellFormed : Line → Prop
  | .table name => IsName name
  | .int key _ => IsName key
  | .string key s => IsName key ∧ s.all isPlain = true
  | .blank => True

instance : DecidablePred Line.WellFormed := fun l => by
  unfold Line.WellFormed
  split <;> infer_instance

/-- No table and no key is defined twice, and every key has a table. -/
structure WellFormed (ls : List Line) : Prop where
  lines : ∀ l ∈ ls, l.WellFormed
  tables : (tables ls).Nodup
  keys : ((entries "" ls).map Prod.fst).Nodup
  rooted : ∀ x ∈ entries "" ls, x.1.1 ≠ ""

/-- An integer has 64 bits. -/
def Line.InRange : Line → Prop
  | .int _ n => -2 ^ 63 ≤ n ∧ n < 2 ^ 63
  | _ => True

instance : DecidablePred Line.InRange := fun l => by
  unfold Line.InRange
  split <;> infer_instance

def InRange (ls : List Line) : Prop := ∀ l ∈ ls, l.InRange

/-- What a parser is relied on for. -/
structure Correct (parse : List Char → Option Document) : Prop where
  accepts : ∀ {ls : List Line}, WellFormed ls → InRange ls →
    ∃ doc, parse (render ls) = some doc ∧ ∀ x ∈ entries "" ls, doc x.1.1 x.1.2 = some x.2
  rejects : ∀ {ls : List Line}, WellFormed ls → ¬InRange ls → parse (render ls) = none
  /-- The value of a key is what its literal denotes. -/
  literal : ∀ {ls rest : List Line} {key : String} {s : List Char} {doc : Document},
    WellFormed ls → IsName key → tableAfter "" ls ≠ "" →
    parse (render (ls ++ .string key s :: rest)) = some doc →
    ∃ v, Reads (s ++ '"' :: '\n' :: render rest) v ∧
      doc (tableAfter "" ls) key = some (.string v)

/-! ## A parser -/

/-- The lines of a text, without their ends. -/
def splitLines : List Char → List (List Char)
  | [] => []
  | c :: text =>
    if c = '\n' then [] :: splitLines text
    else
      match splitLines text with
      | [] => [[c]]
      | l :: ls => (c :: l) :: ls

/-- The number written in decimal digits, after a sign perhaps. -/
def intOf : List Char → ℤ
  | '-' :: digits => -Nat.ofDigitChars 10 digits 0
  | digits => Nat.ofDigitChars 10 digits 0

def parseInt (v : List Char) : Option ℤ := if decimal (intOf v) = v then some (intOf v) else none

def parseValue (key : String) (v : List Char) : Option Line :=
  match v with
  | '"' :: v => if v.getLast? = some '"' then some (.string key v.dropLast) else none
  | v => (parseInt v).map (.int key)

def parseLine (l : List Char) : Option Line :=
  match l with
  | [] => some .blank
  | '[' :: name =>
    if name.getLast? = some ']' then some (.table (String.ofList name.dropLast)) else none
  | l =>
    match l.dropWhile isBare with
    | ' ' :: '=' :: ' ' :: v => parseValue (String.ofList (l.takeWhile isBare)) v
    | _ => none

instance (ls : List Line) : Decidable (WellFormed ls) :=
  decidable_of_iff ((∀ l ∈ ls, l.WellFormed) ∧ (tables ls).Nodup ∧
      ((entries "" ls).map Prod.fst).Nodup ∧ ∀ x ∈ entries "" ls, x.1.1 ≠ "")
    ⟨fun h => ⟨h.1, h.2.1, h.2.2.1, h.2.2.2⟩, fun h => ⟨h.1, h.2, h.3, h.4⟩⟩

instance (ls : List Line) : Decidable (InRange ls) := inferInstanceAs (Decidable (∀ l ∈ ls, _))

/-- The document of some lines. -/
def document (ls : List Line) : Document := fun table key =>
  ((entries "" ls).find? fun x => x.1 = (table, key)).map (·.2)

/-- A parser of the documents written here, which takes no others. -/
def parse (text : List Char) : Option Document :=
  match (splitLines text).mapM parseLine with
  | none => none
  | some ls => if WellFormed ls ∧ InRange ls then some (document ls) else none

theorem splitLines_append {l rest : List Char} (hl : '\n' ∉ l) :
    splitLines (l ++ '\n' :: rest) = l :: splitLines rest := by
  induction l with
  | nil => rfl
  | cons c l ih =>
    rw [List.mem_cons, not_or] at hl
    rw [List.cons_append, splitLines, if_neg (Ne.symm hl.1), ih hl.2]

/-- The lines of a text made of lines. -/
theorem splitLines_flatMap {ls : List (List Char)} (h : ∀ l ∈ ls, '\n' ∉ l) :
    splitLines (ls.flatMap (· ++ ['\n'])) = ls := by
  induction ls with
  | nil => rfl
  | cons l ls ih =>
    rw [List.flatMap_cons, List.append_assoc, List.singleton_append,
      splitLines_append (h l List.mem_cons_self), ih fun l' hl' => h l' (List.mem_cons_of_mem _ hl')]

theorem newline_notMem_splitLines {text l : List Char} (h : l ∈ splitLines text) : '\n' ∉ l := by
  induction text generalizing l with
  | nil => simp [splitLines] at h
  | cons c text ih =>
    rw [splitLines] at h
    by_cases hc : c = '\n'
    · rw [if_pos hc, List.mem_cons] at h
      rcases h with rfl | h
      · exact List.not_mem_nil
      · exact ih h
    · rw [if_neg hc] at h
      cases hls : splitLines text with
      | nil =>
        rw [hls] at h
        rw [List.mem_singleton.1 h, List.mem_singleton]
        exact Ne.symm hc
      | cons l' ls =>
        rw [hls] at h ih
        rcases List.mem_cons.1 h with rfl | h
        · exact List.not_mem_cons_of_ne_of_not_mem (Ne.symm hc) (ih List.mem_cons_self)
        · exact ih (List.mem_cons_of_mem _ h)

theorem decimal_natCast (m : ℕ) : decimal m = Nat.toDigits 10 m := by
  simp [decimal, Int.repr_eq_if]

theorem decimal_neg {m : ℕ} (hm : m ≠ 0) : decimal (-m) = '-' :: Nat.toDigits 10 m := by
  simp [decimal, Int.repr_eq_if, hm]

theorem isDigit_of_decimal {c : Char} {m : ℕ} (h : c ∈ Nat.toDigits 10 m) : c.isDigit = true :=
  Nat.isDigit_of_mem_toDigits (by decide) (by decide) h

theorem intOf_natCast (m : ℕ) : intOf (Nat.toDigits 10 m) = m := by
  unfold intOf
  split
  · rename_i digits heq
    -- A sign is no digit.
    have hsign := isDigit_of_decimal (c := '-') (m := m) (by simp [heq])
    cases hsign
  · rw [Nat.ofDigitChars_ten_toDigits]

theorem parseInt_decimal (n : ℤ) : parseInt (decimal n) = some n := by
  have hint : intOf (decimal n) = n := by
    obtain ⟨m, rfl | rfl⟩ := n.eq_nat_or_neg
    · rw [decimal_natCast, intOf_natCast]
    · by_cases hm : m = 0
      · subst hm
        rfl
      · rw [decimal_neg hm, intOf, Nat.ofDigitChars_ten_toDigits]
  rw [parseInt, hint, if_pos rfl]

/-- A key and its value are taken apart at the end of the key. -/
theorem parseLine_key {key : String} (h : IsName key) (v : List Char) :
    parseLine (key.toList ++ ' ' :: '=' :: ' ' :: v) = parseValue key v := by
  obtain ⟨hne, hbare⟩ := h
  have hdrop : (key.toList ++ ' ' :: '=' :: ' ' :: v).dropWhile isBare =
      ' ' :: '=' :: ' ' :: v := by
    rw [List.dropWhile_append_of_pos fun c hc => List.all_eq_true.1 hbare c hc]
    rfl
  have htake : (key.toList ++ ' ' :: '=' :: ' ' :: v).takeWhile isBare = key.toList := by
    rw [List.takeWhile_append_of_pos fun c hc => List.all_eq_true.1 hbare c hc]
    exact List.append_nil _
  rw [parseLine]
  · rw [hdrop]
    simp only [htake, String.ofList_toList]
  · intro heq
    simp at heq
  · intro name heq
    -- A bracket is not bare.
    cases hkey : key.toList with
    | nil => exact hne (String.toList_eq_nil_iff.1 hkey)
    | cons c cs =>
      rw [hkey, List.cons_append] at heq
      rw [hkey, (List.cons.inj heq).1] at hbare
      cases hbare

theorem parseValue_decimal (key : String) (n : ℤ) :
    parseValue key (decimal n) = some (.int key n) := by
  unfold parseValue
  split
  · rename_i v heq
    -- A quote is neither a sign nor a digit.
    obtain ⟨m, rfl | rfl⟩ := n.eq_nat_or_neg
    · rw [decimal_natCast] at heq
      have hquote := isDigit_of_decimal (c := '"') (m := m) (by simp [heq])
      cases hquote
    · by_cases hm : m = 0
      · subst hm
        cases heq
      · rw [decimal_neg hm] at heq
        cases heq
  · rw [parseInt_decimal]
    rfl

/-- A well-formed line is read as it was written. -/
theorem parseLine_text {l : Line} (h : l.WellFormed) : parseLine l.text = some l := by
  cases l with
  | table name => simp [Line.text, parseLine]
  | int key n => rw [Line.text, parseLine_key h, parseValue_decimal]
  | string key s =>
    have htext : (Line.string key s).text =
        key.toList ++ ' ' :: '=' :: ' ' :: '"' :: (s ++ ['"']) := by
      simp [Line.text]
    rw [htext, parseLine_key h.1]
    simp [parseValue]
  | blank => rfl

theorem notMem_of_all {p : Char → Bool} {c : Char} (hc : p c = false) {s : List Char}
    (h : s.all p = true) : c ∉ s := by
  intro hmem
  rw [List.all_eq_true.1 h _ hmem] at hc
  cases hc

/-- What is neither a digit nor the sign is not in a decimal. -/
theorem notMem_decimal {c : Char} (hdigit : c.isDigit = false) (hsign : c ≠ '-') (n : ℤ) :
    c ∉ decimal n := by
  have hnot {m : ℕ} (h : c ∈ Nat.toDigits 10 m) : False := by
    rw [isDigit_of_decimal h] at hdigit
    cases hdigit
  intro hmem
  obtain ⟨m, rfl | rfl⟩ := n.eq_nat_or_neg
  · rw [decimal_natCast] at hmem
    exact hnot hmem
  · by_cases hm : m = 0
    · subst hm
      exact hnot (m := 0) hmem
    · rw [decimal_neg hm, List.mem_cons] at hmem
      exact hmem.elim hsign hnot

theorem newline_notMem_text {l : Line} (h : l.WellFormed) : '\n' ∉ l.text := by
  have hname {s : String} (hs : IsName s) : '\n' ∉ s.toList := notMem_of_all (by decide) hs.2
  have hint (n : ℤ) : '\n' ∉ decimal n := notMem_decimal (by decide) (by decide) n
  cases l with
  | table name => simp [Line.text, hname h]
  | int key n => simp [Line.text, hname h, hint]
  | string key s => simp [Line.text, hname h.1, notMem_of_all (c := '\n') (by decide) h.2]
  | blank => simp [Line.text]

/-- Only strings are written in quotes. -/
theorem quote_notMem_render {ls : List Line} (h : ∀ l ∈ ls, l.WellFormed)
    (hs : ∀ key s, Line.string key s ∉ ls) : '"' ∉ render ls := by
  have hname {s : String} (hs : IsName s) : '"' ∉ s.toList := notMem_of_all (by decide) hs.2
  have hint (n : ℤ) : '"' ∉ decimal n := notMem_decimal (by decide) (by decide) n
  rw [render, List.mem_flatMap]
  rintro ⟨l, hl, hmem⟩
  cases l with
  | table name => simp [Line.text, hname (h _ hl)] at hmem
  | int key n => simp [Line.text, hname (h _ hl), hint] at hmem
  | string key s => exact hs key s hl
  | blank => simp [Line.text] at hmem

/-- The lines of a text that begins with well-formed ones. -/
theorem splitLines_render {ls : List Line} (h : ∀ l ∈ ls, l.WellFormed) (rest : List Char) :
    splitLines (render ls ++ rest) = ls.map Line.text ++ splitLines rest := by
  induction ls with
  | nil => rfl
  | cons l ls ih =>
    have hl := newline_notMem_text (h l List.mem_cons_self)
    have htext : render (l :: ls) ++ rest = l.text ++ '\n' :: (render ls ++ rest) := by
      simp [render]
    rw [htext, splitLines_append hl, ih fun l' hl' => h l' (List.mem_cons_of_mem _ hl')]
    rfl

theorem mapM_parseLine {ls : List Line} (h : ∀ l ∈ ls, l.WellFormed) (texts : List (List Char)) :
    (ls.map Line.text ++ texts).mapM parseLine = (texts.mapM parseLine).map (ls ++ ·) := by
  induction ls with
  | nil => simp
  | cons l ls ih =>
    rw [List.map_cons, List.cons_append, List.mapM_cons,
      parseLine_text (h l List.mem_cons_self), ih fun l' hl' => h l' (List.mem_cons_of_mem _ hl')]
    cases texts.mapM parseLine <;> rfl

theorem parse_render {ls : List Line} (h : WellFormed ls) :
    parse (render ls) = if InRange ls then some (document ls) else none := by
  have hlines := splitLines_render h.lines []
  rw [List.append_nil] at hlines
  rw [parse, hlines, mapM_parseLine h.lines]
  simp [splitLines, h]

/-- In a document without duplicate keys, a key has its value. -/
theorem document_of_mem {ls : List Line} (h : ((entries "" ls).map Prod.fst).Nodup)
    {x : (String × String) × Value} (hx : x ∈ entries "" ls) :
    document ls x.1.1 x.1.2 = some x.2 := by
  have hfind := List.find?_key_of_mem h hx
  rw [document]
  exact (congrArg (Option.map Prod.snd) hfind).trans rfl

theorem entries_append (table : String) (ls ls' : List Line) :
    entries table (ls ++ ls') = entries table ls ++ entries (tableAfter table ls) ls' := by
  induction ls generalizing table with
  | nil => rfl
  | cons l ls ih => cases l <;> simp [entries, tableAfter, ih]

/-- A string is read up to the quote at the end of its line. -/
theorem parse_literal {ls rest : List Line} {key : String} {s : List Char} {doc : Document}
    (h : WellFormed ls) (hkey : IsName key)
    (hparse : parse (render (ls ++ .string key s :: rest)) = some doc) :
    ∃ v, Reads (s ++ '"' :: '\n' :: render rest) v ∧
      doc (tableAfter "" ls) key = some (.string v) := by
  obtain ⟨line, text, hsplit, hline⟩ : ∃ line text,
      s ++ '"' :: '\n' :: render rest = line ++ '\n' :: text ∧ '\n' ∉ line :=
    List.eq_append_cons_of_mem (by simp)
  have hrender : render (ls ++ .string key s :: rest) = render ls ++
      ((key.toList ++ ' ' :: '=' :: ' ' :: '"' :: line) ++ '\n' :: text) := by
    rw [List.append_assoc, List.cons_append, List.cons_append, List.cons_append,
      List.cons_append, ← hsplit]
    simp [render, Line.text]
  have hfirst : '\n' ∉ key.toList ++ ' ' :: '=' :: ' ' :: '"' :: line := by
    have hname : '\n' ∉ key.toList := notMem_of_all (by decide) hkey.2
    simp [hname, hline]
  rw [parse, hrender, splitLines_render h.lines, splitLines_append hfirst,
    mapM_parseLine h.lines, List.mapM_cons, parseLine_key hkey, parseValue] at hparse
  split_ifs at hparse with hlast
  · cases hrest : (splitLines text).mapM parseLine with
    | none =>
      rw [hrest] at hparse
      cases hparse
    | some ls' =>
      rw [hrest] at hparse
      simp only [Option.bind_eq_bind, Option.bind_some, Option.pure_def, Option.map_some] at hparse
      split_ifs at hparse with hwell
      cases hparse
      have hplain := (hwell.1.lines _ (List.mem_append_right _ List.mem_cons_self)).2
      have htext : s ++ '"' :: '\n' :: render rest = line.dropLast ++ '"' :: '\n' :: text := by
        obtain ⟨v, rfl⟩ := List.getLast?_eq_some_iff.1 hlast
        rw [hsplit, List.dropLast_concat, List.append_assoc]
        rfl
      refine ⟨line.dropLast, .basic htext (denotes_self hplain), ?_⟩
      refine document_of_mem hwell.1.keys (x := ((tableAfter "" ls, key), .string line.dropLast)) ?_
      rw [entries_append]
      exact List.mem_append_right _ List.mem_cons_self
  · cases hparse

theorem correct_parse : Correct parse where
  accepts {ls} h hrange := by
    refine ⟨document ls, ?_, fun x hx => document_of_mem h.keys hx⟩
    rw [parse_render h, if_pos hrange]
  rejects h hrange := by rw [parse_render h, if_neg hrange]
  literal h hkey _ hparse := parse_literal h hkey hparse

end Toml
