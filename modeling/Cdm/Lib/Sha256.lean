import Cdm.Lib.BlockStream
import Mathlib.Data.Nat.Nth
import Mathlib.Data.Nat.NthRoot.Defs
import Mathlib.Data.Nat.Prime.Basic
import Mathlib.Tactic

/-!
# The hash function SHA-256

The function of FIPS 180-4, on strings of bits: a message is *padded* to whole blocks of 512
bits, each of which is *compressed* into eight words, the digest in the end. The constants are
the first 32 bits of the fractional parts of roots of primes.

* `bits_eq_ofBytes`, `word_ofBytes`: words as bytes, the most significant one first;
* `pad_ofBytes`: a message of bytes is padded by bytes;
* `digest_ofBytes`: it is worked in by blocks of 64 bytes;
* `hexForm_ofBytes`: the hexadecimal digits of bytes.
-/

namespace Fips180

/-! ## Strings of bits -/

/-- The bits of a word, the most significant one first. -/
def bits {n : ℕ} (x : BitVec n) : List Bool := List.ofFn fun i : Fin n => x.getMsbD i

/-- The number that a string of bits is. -/
def value (l : List Bool) : ℕ := l.foldl (fun n b => 2 * n + b.toNat) 0

/-- The string that some bytes are. -/
def ofBytes (bs : List UInt8) : List Bool := bs.flatMap fun b => bits b.toBitVec

/-- The hexadecimal digits of a string of bits, one for every four. -/
def hexForm : List Bool → List Char
  | a :: b :: c :: d :: l => Nat.digitChar (value [a, b, c, d]) :: hexForm l
  | _ => []

/-! ## The functions and the constants -/

abbrev Word := BitVec 32

def ch (x y z : Word) : Word := (x &&& y) ^^^ (~~~x &&& z)

def maj (x y z : Word) : Word := (x &&& y) ^^^ (x &&& z) ^^^ (y &&& z)

def upperSigma0 (x : Word) : Word := x.rotateRight 2 ^^^ x.rotateRight 13 ^^^ x.rotateRight 22

def upperSigma1 (x : Word) : Word := x.rotateRight 6 ^^^ x.rotateRight 11 ^^^ x.rotateRight 25

def lowerSigma0 (x : Word) : Word := x.rotateRight 7 ^^^ x.rotateRight 18 ^^^ x >>> 3

def lowerSigma1 (x : Word) : Word := x.rotateRight 17 ^^^ x.rotateRight 19 ^^^ x >>> 10

/-- The first 32 bits of the fractional part of the `n`-th root of the `t`-th prime. -/
noncomputable def rootBits (n t : ℕ) : Word :=
  BitVec.ofNat 32 (Nat.nthRoot n (Nat.nth Nat.Prime t * 2 ^ (32 * n)))

/-- The constant of a round: from the cube root. -/
noncomputable def roundConstant (t : ℕ) : Word := rootBits 3 t

/-! ## Compressing a block -/

/-- Eight words: a hash value, or the working variables. -/
@[ext] structure Registers where
  a : Word
  b : Word
  c : Word
  d : Word
  e : Word
  f : Word
  g : Word
  h : Word

def Registers.add (x y : Registers) : Registers :=
  ⟨x.a + y.a, x.b + y.b, x.c + y.c, x.d + y.d, x.e + y.e, x.f + y.f, x.g + y.g, x.h + y.h⟩

/-- The string of the eight words. -/
def Registers.bits (x : Registers) : List Bool :=
  Fips180.bits x.a ++ Fips180.bits x.b ++ Fips180.bits x.c ++ Fips180.bits x.d ++
    Fips180.bits x.e ++ Fips180.bits x.f ++ Fips180.bits x.g ++ Fips180.bits x.h

/-- The initial hash value: from the square roots. -/
noncomputable def initial : Registers :=
  ⟨rootBits 2 0, rootBits 2 1, rootBits 2 2, rootBits 2 3, rootBits 2 4, rootBits 2 5,
    rootBits 2 6, rootBits 2 7⟩

/-- The message schedule: the words of the block, and then each from four earlier ones. -/
def schedule (m : ℕ → Word) (t : ℕ) : Word :=
  if t < 16 then m t
  else lowerSigma1 (schedule m (t - 2)) + schedule m (t - 7) +
    lowerSigma0 (schedule m (t - 15)) + schedule m (t - 16)
termination_by t

def round (k w : Word) (v : Registers) : Registers :=
  let t1 := v.h + upperSigma1 v.e + ch v.e v.f v.g + k + w
  let t2 := upperSigma0 v.a + maj v.a v.b v.c
  ⟨t1 + t2, v.a, v.b, v.c, v.d + t1, v.e, v.f, v.g⟩

noncomputable def compress (x : Registers) (m : ℕ → Word) : Registers :=
  ((List.range 64).foldl (fun v t => round (roundConstant t) (schedule m t) v) x).add x

/-! ## The digest of a message -/

/-- The zeros in the padding of a message of `l` bits: as few as bring it, with the bit before
    them, to 64 bits short of whole blocks. -/
def padZeros (l : ℕ) : ℕ := (959 - l % 512) % 512

theorem padZeros_spec (l : ℕ) :
    (l + 1 + padZeros l) % 512 = 448 ∧ ∀ k, (l + 1 + k) % 512 = 448 → padZeros l ≤ k := by
  unfold padZeros
  exact ⟨by omega, fun k hk => by omega⟩

def pad (m : List Bool) : List Bool :=
  m ++ true :: List.replicate (padZeros m.length) false ++ bits (BitVec.ofNat 64 m.length)

/-- The word of index `t` of a block. -/
def word (block : List Bool) (t : ℕ) : Word :=
  BitVec.ofNat 32 (value ((block.drop (32 * t)).take 32))

/-- The hash value after the first `n` blocks of a string. -/
noncomputable def hashValue (p : List Bool) : ℕ → Registers
  | 0 => initial
  | n + 1 => compress (hashValue p n) (word ((p.drop (512 * n)).take 512))

noncomputable def digest (m : List Bool) : List Bool :=
  (hashValue (pad m) ((pad m).length / 512)).bits

/-! ## Bytes -/

variable {n k t : ℕ} {bs cs : List UInt8}

@[simp] theorem length_bits (x : BitVec n) : (bits x).length = n := by simp [bits]

@[simp] theorem ofBytes_nil : ofBytes [] = [] := rfl

@[simp] theorem ofBytes_cons (b : UInt8) (bs : List UInt8) :
    ofBytes (b :: bs) = bits b.toBitVec ++ ofBytes bs := rfl

@[simp] theorem ofBytes_append (bs cs : List UInt8) :
    ofBytes (bs ++ cs) = ofBytes bs ++ ofBytes cs := List.flatMap_append

@[simp] theorem length_ofBytes (bs : List UInt8) : (ofBytes bs).length = 8 * bs.length := by
  induction bs with
  | nil => rfl
  | cons b bs ih =>
    rw [ofBytes_cons, List.length_append, length_bits, ih, List.length_cons]
    ring

theorem drop_ofBytes (bs : List UInt8) (n : ℕ) :
    (ofBytes bs).drop (8 * n) = ofBytes (bs.drop n) := by
  induction bs generalizing n with
  | nil => simp
  | cons b bs ih =>
    cases n with
    | zero => rfl
    | succ n =>
      rw [ofBytes_cons, List.drop_succ_cons, ← ih n, Nat.mul_succ, Nat.add_comm,
        List.drop_append]
      simp

theorem take_ofBytes (bs : List UInt8) (n : ℕ) :
    (ofBytes bs).take (8 * n) = ofBytes (bs.take n) := by
  induction bs generalizing n with
  | nil => simp
  | cons b bs ih =>
    cases n with
    | zero => rfl
    | succ n =>
      rw [ofBytes_cons, List.take_succ_cons, ofBytes_cons, ← ih n, Nat.mul_succ, Nat.add_comm,
        List.take_append]
      simp [List.take_of_length_le]

/-- The bit of index `8 * q + r` is a bit of the byte of index `q`. -/
theorem getElem_ofBytes (bs : List UInt8) (i : ℕ) (h : i < (ofBytes bs).length)
    (hbyte : i / 8 < bs.length) :
    (ofBytes bs)[i] = bs[i / 8].toBitVec.getMsbD (i % 8) := by
  induction bs generalizing i with
  | nil => simp at h
  | cons b bs ih =>
    simp only [ofBytes_cons]
    by_cases hi : i < 8
    · rw [List.getElem_append_left (by simpa using hi)]
      simp only [bits, List.getElem_ofFn, Nat.div_eq_of_lt hi, Nat.mod_eq_of_lt hi,
        List.getElem_cons_zero]
    · rw [List.getElem_append_right (by simpa using hi)]
      have hq : i / 8 = (i - 8) / 8 + 1 := by omega
      have hr : (i - 8) % 8 = i % 8 := by omega
      have hbyte' : (i - 8) / 8 < bs.length := by
        rw [hq, List.length_cons] at hbyte
        exact Nat.lt_of_succ_lt_succ hbyte
      simp only [length_bits, ih _ _ hbyte', hr, hq, List.getElem_cons_succ]

/-- The bytes of a word, the most significant one first. -/
def bigEndian (k : ℕ) (x : BitVec (8 * k)) : List UInt8 :=
  List.ofFn fun i : Fin k => UInt8.ofBitVec ((x >>> (8 * (k - 1 - i))).setWidth 8)

theorem bits_eq_ofBytes (k : ℕ) (x : BitVec (8 * k)) : bits x = ofBytes (bigEndian k x) := by
  refine List.ext_getElem (by simp [bigEndian]) fun i h₁ h₂ => ?_
  rw [length_bits] at h₁
  have hbyte : i / 8 < (bigEndian k x).length := by
    rw [bigEndian, List.length_ofFn]
    omega
  rw [getElem_ofBytes _ _ _ hbyte]
  have hr : i % 8 < 8 := Nat.mod_lt _ (by norm_num)
  simp only [bits, bigEndian, List.getElem_ofFn, BitVec.getMsbD_eq_getLsbD,
    BitVec.getLsbD_setWidth, BitVec.getLsbD_ushiftRight, h₁, hr, decide_true, Bool.true_and]
  rw [decide_eq_true (show 8 - 1 - i % 8 < 8 by omega), Bool.true_and]
  congr 1
  omega

/-- The word that four bytes are put together to. -/
theorem bigEndian_word (a b c d : UInt8) :
    bigEndian 4 (a.toBitVec.setWidth 32 <<< 24 ||| b.toBitVec.setWidth 32 <<< 16 |||
      c.toBitVec.setWidth 32 <<< 8 ||| d.toBitVec.setWidth 32) = [a, b, c, d] := by
  have hbytes : ∀ w : Word, bigEndian 4 w = [UInt8.ofBitVec ((w >>> 24).setWidth 8),
      UInt8.ofBitVec ((w >>> 16).setWidth 8), UInt8.ofBitVec ((w >>> 8).setWidth 8),
      UInt8.ofBitVec ((w >>> 0).setWidth 8)] := fun _ => rfl
  simp only [hbytes, List.cons.injEq, and_true, ← UInt8.toBitVec_inj]
  refine ⟨?_, ?_, ?_, ?_⟩ <;>
  · refine BitVec.eq_of_getLsbD_eq fun j hj => ?_
    simp only [BitVec.getLsbD_setWidth, BitVec.getLsbD_ushiftRight, BitVec.getLsbD_or,
      BitVec.getLsbD_shiftLeft, hj]
    interval_cases j <;> simp

/-! ## The numbers of strings -/

theorem value_append (l m : List Bool) : value (l ++ m) = value l * 2 ^ m.length + value m := by
  induction m using List.reverseRecOn with
  | nil => simp [value]
  | append_singleton m b ih =>
    rw [← List.append_assoc]
    simp only [value, List.foldl_append, List.foldl_cons, List.foldl_nil, List.length_append,
      List.length_singleton, pow_succ] at ih ⊢
    rw [ih]
    ring

/-- A word is the number of its bits. -/
theorem value_bits (x : BitVec n) : value (bits x) = x.toNat := by
  induction n with
  | zero => simp [BitVec.of_length_zero, value, bits]
  | succ n ih =>
    -- All bits but the last are those of the word shifted by one.
    have hbits : bits x = bits ((x >>> 1).setWidth n) ++ [x.getLsbD 0] := by
      rw [bits, List.ofFn_succ_last, bits]
      congr 1
      · refine congrArg List.ofFn (funext fun i => ?_)
        have hi := i.isLt
        simp only [BitVec.getMsbD_eq_getLsbD, BitVec.getLsbD_setWidth,
          BitVec.getLsbD_ushiftRight, Fin.val_castSucc]
        rw [decide_eq_true (show (i : ℕ) < n + 1 by omega), decide_eq_true hi,
          decide_eq_true (show n - 1 - i < n by omega)]
        simp only [Bool.true_and]
        congr 1
        omega
      · simp [BitVec.getMsbD_eq_getLsbD]
    have hlt : x.toNat >>> 1 < 2 ^ n := by
      have := x.isLt
      rw [Nat.shiftRight_one]
      omega
    rw [hbits, value_append, ih, BitVec.toNat_setWidth, BitVec.toNat_ushiftRight,
      Nat.mod_eq_of_lt hlt]
    have hlast : value [x.getLsbD 0] = x.toNat % 2 := by
      rw [BitVec.getLsbD, Nat.testBit_zero]
      rcases Nat.mod_two_eq_zero_or_one x.toNat with h | h <;> simp [value, h]
    rw [hlast, Nat.shiftRight_one, List.length_singleton]
    omega

/-- The word of four bytes in a block of bytes. -/
theorem word_ofBytes {w : Word} (h : (bs.drop (4 * t)).take 4 = bigEndian 4 w) :
    word (ofBytes bs) t = w := by
  have hbits : ((ofBytes bs).drop (32 * t)).take 32 = bits w := by
    have htake := take_ofBytes (bs.drop (4 * t)) 4
    rw [h, ← drop_ofBytes, ← Nat.mul_assoc] at htake
    exact htake.trans (bits_eq_ofBytes 4 w).symm
  rw [word, hbits, value_bits, BitVec.ofNat_toNat, BitVec.setWidth_eq]

theorem value_lt (l : List Bool) : value l < 2 ^ l.length := by
  induction l using List.reverseRecOn with
  | nil => simp [value]
  | append_singleton l b ih =>
    have hb : value [b] < 2 := by cases b <;> decide
    rw [value_append, List.length_append, List.length_singleton, pow_one, pow_succ]
    omega

/-- The two digits of every byte. -/
theorem hexForm_ofBytes (bs : List UInt8) :
    hexForm (ofBytes bs) =
      bs.flatMap fun b => [Nat.digitChar (b.toNat / 16), Nat.digitChar (b.toNat % 16)] := by
  induction bs with
  | nil => rfl
  | cons b bs ih =>
    have hbits : ∃ x₀ x₁ x₂ x₃ y₀ y₁ y₂ y₃,
        bits b.toBitVec = [x₀, x₁, x₂, x₃] ++ [y₀, y₁, y₂, y₃] := ⟨_, _, _, _, _, _, _, _, rfl⟩
    obtain ⟨x₀, x₁, x₂, x₃, y₀, y₁, y₂, y₃, hbits⟩ := hbits
    -- The byte is the number of its upper four bits, times 16, and of its lower four.
    have hval := value_bits b.toBitVec
    rw [hbits, value_append] at hval
    have hlow : value [y₀, y₁, y₂, y₃] < 16 := value_lt _
    have hb : b.toNat = value [x₀, x₁, x₂, x₃] * 16 + value [y₀, y₁, y₂, y₃] := hval.symm
    rw [List.flatMap_cons, ← ih, ofBytes_cons, hbits, hb]
    have hdiv : (value [x₀, x₁, x₂, x₃] * 16 + value [y₀, y₁, y₂, y₃]) / 16 =
      value [x₀, x₁, x₂, x₃] := by omega
    have hmod : (value [x₀, x₁, x₂, x₃] * 16 + value [y₀, y₁, y₂, y₃]) % 16 =
      value [y₀, y₁, y₂, y₃] := by omega
    rw [hdiv, hmod]
    rfl

theorem length_hexForm : ∀ (n : ℕ) (l : List Bool), l.length = 4 * n → (hexForm l).length = n
  | 0, [], _ => rfl
  | n + 1, _ :: _ :: _ :: _ :: l, h => by
    have hl : l.length = 4 * n := by
      simp only [List.length_cons] at h
      omega
    rw [hexForm, List.length_cons, length_hexForm n l hl]

theorem length_hexForm_digest (m : List Bool) : (hexForm (digest m)).length = 64 := by
  refine length_hexForm 64 _ ?_
  simp only [digest, Registers.bits, List.length_append, length_bits]

/-! ## Padding bytes -/

/-- The bytes that a message of `l` bytes is padded by. -/
def padding (l : ℕ) : List UInt8 :=
  0x80 :: List.replicate ((119 - l % 64) % 64) 0 ++ bigEndian 8 (BitVec.ofNat 64 (8 * l))

theorem ofBytes_replicate_zero (n : ℕ) :
    ofBytes (List.replicate n 0) = List.replicate (8 * n) false := by
  induction n with
  | zero => rfl
  | succ n ih =>
    rw [List.replicate_succ, ofBytes_cons, ih, Nat.mul_succ, Nat.add_comm, List.replicate_add]
    rfl

theorem pad_ofBytes (bs : List UInt8) : pad (ofBytes bs) = ofBytes (bs ++ padding bs.length) := by
  have hzeros : padZeros (8 * bs.length) = 7 + 8 * ((119 - bs.length % 64) % 64) := by
    unfold padZeros
    omega
  have hmark : bits (0x80 : UInt8).toBitVec = true :: List.replicate 7 false := rfl
  rw [pad, length_ofBytes, hzeros, List.replicate_add, padding, ofBytes_append, List.cons_append,
    ofBytes_cons, hmark, ofBytes_append, ofBytes_replicate_zero,
    ← bits_eq_ofBytes 8 (BitVec.ofNat 64 (8 * bs.length))]
  simp only [List.cons_append, List.append_assoc]

/-- A padded message is whole blocks. -/
theorem length_padding (l : ℕ) : l + (padding l).length = 64 * ((l + 8) / 64 + 1) := by
  simp only [padding, bigEndian, List.cons_append, List.length_cons, List.length_append,
    List.length_replicate, List.length_ofFn]
  omega

/-! ## Blocks of bytes -/

noncomputable def compressBytes (x : Registers) (block : List UInt8) : Registers :=
  compress x (word (ofBytes block))

theorem hashValue_ofBytes (bs : List UInt8) (n : ℕ) :
    hashValue (ofBytes bs) n = BlockStream.absorbed compressBytes 64 initial bs n := by
  induction n with
  | zero => rfl
  | succ n ih =>
    have hblock : ((ofBytes bs).drop (512 * n)).take 512 = ofBytes ((bs.drop (64 * n)).take 64) := by
      rw [← take_ofBytes, ← drop_ofBytes, ← Nat.mul_assoc]
    rw [hashValue, BlockStream.absorbed, ih, hblock]
    rfl

/-- The digest of bytes: the state after the blocks of the padded message. -/
theorem digest_ofBytes (bs : List UInt8) :
    digest (ofBytes bs) =
      (BlockStream.absorbed compressBytes 64 initial (bs ++ padding bs.length)
        ((bs.length + 8) / 64 + 1)).bits := by
  rw [digest, pad_ofBytes, hashValue_ofBytes, length_ofBytes, List.length_append, length_padding,
    ← Nat.mul_assoc, Nat.mul_div_cancel_left _ (by norm_num)]

end Fips180
