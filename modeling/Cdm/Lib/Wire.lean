import Mathlib.Tactic

/-!
# Programs on a byte stream

A *program* (`Prog`) talks over a connection: it reads a number of bytes, all of them or
none, and writes bytes. Its run on a stream (`Prog.run`) gives its value, what it has
written, and what is left of the stream; a read beyond the end takes what there is, and
fails. Programs are combined as a monad, and `run_bind` runs one after the other.

* `Prog.fed`: no read goes beyond the end.
* `Prog.runBy`: a run whose reads are carried out some other way, in pieces say. If every
  read that ends gives what it gives on the whole stream, so does every run that ends
  (`runBy_eq`).
* `littleEndian`: a number as bytes, a character for a byte, the lowest first; read back by
  `value`.
-/

namespace Wire

variable {B C α β : Type}

/-- Reading `n` bytes of a stream that ends. -/
def exact (n : ℕ) (s : List B) : Option (List B) × List B :=
  if n ≤ s.length then (some (s.take n), s.drop n) else (none, [])

theorem exact_append {n : ℕ} {l s : List B} (h : l.length = n) : exact n (l ++ s) = (some l, s) := by
  subst h
  rw [exact, if_pos (by simp), List.take_left, List.drop_left]

theorem exact_of_lt {n : ℕ} {s : List B} (h : s.length < n) : exact n s = (none, []) :=
  if_neg (by omega)

/-- What is left is the end of the stream. -/
theorem exact_suffix (n : ℕ) (s : List B) : (exact n s).2 <:+ s := by
  rw [exact]
  split_ifs
  · exact List.drop_suffix _ _
  · exact List.nil_suffix

inductive Prog (B α : Type)
  | done (a : α)
  | read (n : ℕ) (k : Option (List B) → Prog B α)
  | write (l : List B) (k : Prog B α)

/-- What a run comes to. -/
@[ext]
structure Result (B α : Type) where
  value : α
  written : List B
  rest : List B

namespace Prog

def bind : Prog B α → (α → Prog B β) → Prog B β
  | done a, f => f a
  | read n k, f => read n fun o => (k o).bind f
  | write l k, f => write l (k.bind f)

instance : Monad (Prog B) where
  pure := done
  bind := bind

/-- Reading a number of bytes. -/
def readExact (n : ℕ) : Prog B (Option (List B)) := read n done

/-- Writing bytes. -/
def send (l : List B) : Prog B Unit := write l (done ())

/-- The run on a stream that ends. -/
def run : Prog B α → List B → Result B α
  | done a, s => ⟨a, [], s⟩
  | read n k, s => (k (exact n s).1).run (exact n s).2
  | write l k, s => { k.run s with written := l ++ (k.run s).written }

@[simp] theorem run_pure {a : α} {s : List B} : (pure a : Prog B α).run s = ⟨a, [], s⟩ := rfl

@[simp] theorem run_send {l s : List B} : (send l).run s = ⟨(), l, s⟩ := by
  simp [send, run]

@[simp] theorem run_readExact {n : ℕ} {s : List B} :
    (readExact n).run s = ⟨(exact n s).1, [], (exact n s).2⟩ := rfl

/-- The second program goes on with what the first one has left. -/
@[simp] theorem run_bind {p : Prog B α} {f : α → Prog B β} {s : List B} :
    (p >>= f).run s =
      let r := p.run s
      let r' := (f r.value).run r.rest
      ⟨r'.value, r.written ++ r'.written, r'.rest⟩ := by
  change (p.bind f).run s = _
  induction p generalizing s with
  | done a => rfl
  | read n k ih => exact ih _
  | write l k ih =>
    rw [bind, run, ih]
    simp [run]

/-- A run leaves the end of the stream. -/
theorem run_suffix (p : Prog B α) (s : List B) : (p.run s).rest <:+ s := by
  induction p generalizing s with
  | done a => exact List.suffix_rfl
  | read n k ih => exact (ih _ _).trans (exact_suffix n s)
  | write l k ih => exact ih s

/-- The stream has all that the run reads. -/
def fed : Prog B α → List B → Bool
  | done _, _ => true
  | read n k, s => n ≤ s.length && (k (exact n s).1).fed (exact n s).2
  | write _ k, s => k.fed s

@[simp] theorem fed_pure {a : α} {s : List B} : (pure a : Prog B α).fed s = true := rfl

@[simp] theorem fed_send {l s : List B} : (send l).fed s = true := rfl

@[simp] theorem fed_readExact {n : ℕ} {s : List B} : (readExact n).fed s = decide (n ≤ s.length) := by
  simp [readExact, fed]

@[simp] theorem fed_bind {p : Prog B α} {f : α → Prog B β} {s : List B} :
    (p >>= f).fed s = (p.fed s && (f (p.run s).value).fed (p.run s).rest) := by
  change (p.bind f).fed s = _
  induction p generalizing s with
  | done a => rfl
  | read n k ih => rw [bind, fed, fed, ih, run, Bool.and_assoc]
  | write l k ih =>
    rw [bind, fed, fed, ih]
    rfl

/-- The run that carries out its reads by `read`, each with a choice of its own. -/
def runBy (read : C → ℕ → List B → Option (Option (List B) × List B)) :
    (cuts : ℕ → C) → Prog B α → List B → Option (Result B α)
  | _, done a, s => some ⟨a, [], s⟩
  | cuts, Prog.read n k, s =>
    (read (cuts 0) n s).bind fun x => (k x.1).runBy read (fun i => cuts (i + 1)) x.2
  | cuts, write l k, s => (k.runBy read cuts s).map fun r => { r with written := l ++ r.written }

/-- However the reads are carried out, a run comes to the same. -/
theorem runBy_eq {read : C → ℕ → List B → Option (Option (List B) × List B)}
    (hread : ∀ c n s x, read c n s = some x → x = exact n s) {p : Prog B α} {cuts : ℕ → C}
    {s : List B} {r : Result B α} (h : p.runBy read cuts s = some r) : r = p.run s := by
  induction p generalizing s cuts r with
  | done a =>
    cases h
    rfl
  | read n k ih =>
    obtain ⟨x, hx, h⟩ := Option.bind_eq_some_iff.1 h
    rw [ih _ h, run, hread _ _ _ _ hx]
  | write l k ih =>
    obtain ⟨r', hr', rfl⟩ := Option.map_eq_some_iff.1 h
    rw [ih hr', run]

end Prog

/-! ## Numbers -/

/-- The lowest `w` bytes of a number, the lowest first. -/
def littleEndian : (w : ℕ) → ℕ → List Char
  | 0, _ => []
  | w + 1, n => Char.ofNat (n % 256) :: littleEndian w (n / 256)

/-- The number some bytes stand for, the lowest first. -/
def value : List Char → ℕ
  | [] => 0
  | c :: l => c.toNat + 256 * value l

@[simp] theorem length_littleEndian (w n : ℕ) : (littleEndian w n).length = w := by
  induction w generalizing n with
  | zero => rfl
  | succ w ih => rw [littleEndian, List.length_cons, ih]

theorem exact_littleEndian (w n : ℕ) :
    exact w (littleEndian w n) = (some (littleEndian w n), []) := by
  have h := exact_append (s := ([] : List Char)) (length_littleEndian w n)
  rwa [List.append_nil] at h

theorem toNat_ofNat_byte (n : ℕ) : (Char.ofNat (n % 256)).toNat = n % 256 := by
  have h : (n % 256).isValidChar := .inl (by omega)
  rw [Char.ofNat, dif_pos h]
  rfl

theorem lt_of_mem_littleEndian {c : Char} {w n : ℕ} (h : c ∈ littleEndian w n) :
    c.toNat < 256 := by
  induction w generalizing n with
  | zero => exact nomatch h
  | succ w ih =>
    rcases List.mem_cons.mp h with rfl | h
    · rw [toNat_ofNat_byte]
      exact Nat.mod_lt _ (by omega)
    · exact ih h

theorem value_littleEndian (w n : ℕ) : value (littleEndian w n) = n % 256 ^ w := by
  induction w generalizing n with
  | zero => simp [littleEndian, value, Nat.mod_one]
  | succ w ih =>
    rw [littleEndian, value, ih, toNat_ofNat_byte, pow_succ, mul_comm (256 ^ w), Nat.mod_mul]

theorem value_littleEndian_of_lt {w n : ℕ} (h : n < 256 ^ w) : value (littleEndian w n) = n := by
  rw [value_littleEndian, Nat.mod_eq_of_lt h]

theorem littleEndian_value {w : ℕ} {l : List Char} (hw : l.length = w)
    (hl : ∀ c ∈ l, c.toNat < 256) : littleEndian w (value l) = l := by
  induction l generalizing w with
  | nil =>
    subst hw
    rfl
  | cons c l ih =>
    subst hw
    have hc := hl c List.mem_cons_self
    have hmod : (c.toNat + 256 * value l) % 256 = c.toNat := by omega
    have hdiv : (c.toNat + 256 * value l) / 256 = value l := by omega
    rw [List.length_cons, value, littleEndian, hmod, hdiv, Char.ofNat_toNat,
      ih rfl fun c hc => hl c (List.mem_cons_of_mem _ hc)]

end Wire
