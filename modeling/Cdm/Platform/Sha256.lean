import Cdm.Lib.Sha256
import Cdm.Core.Download

/-!
# The digest of a file

`platform/sha256.c`: a context takes bytes in as they come, 64 of them waiting at most, and
pads what waits in the end.

* `transform_spec`: the words and the rounds of a block;
* `Holds.update`: a context holds what it was given, in however many parts;
* `final_spec`: the digest of it.
-/

namespace Cdm.Sha256

open Fips180 (Word Registers)

/-- `SHA256_CTX`: the bytes that wait are fewer than a block. -/
structure Sha256Ctx where
  data : Vector UInt8 64
  datalen : Fin 64
  bitlen : BitVec 64
  state : Vector Word 8

/-! ## The block -/

def rotRight (a : Word) (b : ℕ) : Word := (a >>> b) ||| (a <<< (32 - b))

def ch (x y z : Word) : Word := (x &&& y) ^^^ (~~~x &&& z)

def maj (x y z : Word) : Word := (x &&& y) ^^^ (x &&& z) ^^^ (y &&& z)

def ep0 (x : Word) : Word := rotRight x 2 ^^^ rotRight x 13 ^^^ rotRight x 22

def ep1 (x : Word) : Word := rotRight x 6 ^^^ rotRight x 11 ^^^ rotRight x 25

def sig0 (x : Word) : Word := rotRight x 7 ^^^ rotRight x 18 ^^^ x >>> 3

def sig1 (x : Word) : Word := rotRight x 17 ^^^ rotRight x 19 ^^^ x >>> 10

def k : List Word := [
  0x428a2f98, 0x71374491, 0xb5c0fbcf, 0xe9b5dba5, 0x3956c25b, 0x59f111f1,
  0x923f82a4, 0xab1c5ed5, 0xd807aa98, 0x12835b01, 0x243185be, 0x550c7dc3,
  0x72be5d74, 0x80deb1fe, 0x9bdc06a7, 0xc19bf174, 0xe49b69c1, 0xefbe4786,
  0x0fc19dc6, 0x240ca1cc, 0x2de92c6f, 0x4a7484aa, 0x5cb0a9dc, 0x76f988da,
  0x983e5152, 0xa831c66d, 0xb00327c8, 0xbf597fc7, 0xc6e00bf3, 0xd5a79147,
  0x06ca6351, 0x14292967, 0x27b70a85, 0x2e1b2138, 0x4d2c6dfc, 0x53380d13,
  0x650a7354, 0x766a0abb, 0x81c2c92e, 0x92722c85, 0xa2bfe8a1, 0xa81a664b,
  0xc24b8b70, 0xc76c51a3, 0xd192e819, 0xd6990624, 0xf40e3585, 0x106aa070,
  0x19a4c116, 0x1e376c08, 0x2748774c, 0x34b0bcb5, 0x391c0cb3, 0x4ed8aa4a,
  0x5b9cca4f, 0x682e6ff3, 0x748f82ee, 0x78a5636f, 0x84c87814, 0x8cc70208,
  0x90befffa, 0xa4506ceb, 0xbef9a3f7, 0xc67178f2]

/-- A byte of the block, as a word. -/
def byteAt (data : Vector UInt8 64) (j : ℕ) : Word := (data[j]!).toBitVec.setWidth 32

/-- `m[0]` to `m[15]`. -/
def loadWords (data : Vector UInt8 64) : List Word :=
  (List.range 16).map fun i =>
    let j := 4 * i
    byteAt data j <<< 24 ||| byteAt data (j + 1) <<< 16 ||| byteAt data (j + 2) <<< 8 |||
      byteAt data (j + 3)

/-- `m[i]`, behind the words up to it. -/
def expandWords (m : List Word) (i : ℕ) : List Word :=
  m ++ [sig1 m[i - 2]! + m[i - 7]! + sig0 m[i - 15]! + m[i - 16]!]

def messageWords (data : Vector UInt8 64) : List Word :=
  (List.range' 16 48).foldl expandWords (loadWords data)

def sha256Round (m : List Word) (v : Registers) (i : ℕ) : Registers :=
  let t1 := v.h + ep1 v.e + ch v.e v.f v.g + k[i]! + m[i]!
  let t2 := ep0 v.a + maj v.a v.b v.c
  { h := v.g, g := v.f, f := v.e, e := v.d + t1, d := v.c, c := v.b, b := v.a, a := t1 + t2 }

/-- The words of a state, as the variables of the rounds. -/
def registers (s : Vector Word 8) : Registers :=
  ⟨s[0], s[1], s[2], s[3], s[4], s[5], s[6], s[7]⟩

def sha256Transform (ctx : Sha256Ctx) (data : Vector UInt8 64) : Sha256Ctx :=
  let m := messageWords data
  let v := (List.range 64).foldl (sha256Round m) (registers ctx.state)
  let s := ctx.state
  { ctx with state := #v[s[0] + v.a, s[1] + v.b, s[2] + v.c, s[3] + v.d, s[4] + v.e, s[5] + v.f,
      s[6] + v.g, s[7] + v.h] }

/-! ## The context -/

def sha256Init (ctx : Sha256Ctx) : Sha256Ctx :=
  { ctx with
    datalen := 0
    bitlen := 0
    state := #v[0x6a09e667, 0xbb67ae85, 0x3c6ef372, 0xa54ff53a, 0x510e527f, 0x9b05688c,
      0x1f83d9ab, 0x5be0cd19] }

/-- A round of the loop of `sha256_update`. -/
def updateByte (ctx : Sha256Ctx) (b : UInt8) : Sha256Ctx :=
  let data := ctx.data.set! ctx.datalen b
  if h : ctx.datalen.val + 1 = 64 then
    let ctx := sha256Transform { ctx with data := data } data
    { ctx with bitlen := ctx.bitlen + 512, datalen := 0 }
  else { ctx with data := data, datalen := ⟨ctx.datalen + 1, by omega⟩ }

def sha256Update (ctx : Sha256Ctx) (data : List UInt8) : Sha256Ctx := data.foldl updateByte ctx

/-- `data[i++] = 0x00` while `i < n`. -/
def zeroUntil (n : ℕ) (data : Vector UInt8 64) (i : ℕ) : Vector UInt8 64 :=
  (List.range' i (n - i)).foldl (fun data i => data.set! i 0) data

def uint8 {n : ℕ} (x : BitVec n) : UInt8 := UInt8.ofBitVec (x.setWidth 8)

def writeBitlen (data : Vector UInt8 64) (bitlen : BitVec 64) : Vector UInt8 64 :=
  let data := data.set! 63 (uint8 bitlen)
  let data := data.set! 62 (uint8 (bitlen >>> 8))
  let data := data.set! 61 (uint8 (bitlen >>> 16))
  let data := data.set! 60 (uint8 (bitlen >>> 24))
  let data := data.set! 59 (uint8 (bitlen >>> 32))
  let data := data.set! 58 (uint8 (bitlen >>> 40))
  let data := data.set! 57 (uint8 (bitlen >>> 48))
  data.set! 56 (uint8 (bitlen >>> 56))

/-- The bytes of the state: a round of the last loop of `sha256_final`. -/
def storeBytes (s : Vector Word 8) (hash : Vector UInt8 32) (i : ℕ) : Vector UInt8 32 :=
  let hash := hash.set! i (uint8 (s[0] >>> (24 - i * 8) &&& 0xff))
  let hash := hash.set! (i + 4) (uint8 (s[1] >>> (24 - i * 8) &&& 0xff))
  let hash := hash.set! (i + 8) (uint8 (s[2] >>> (24 - i * 8) &&& 0xff))
  let hash := hash.set! (i + 12) (uint8 (s[3] >>> (24 - i * 8) &&& 0xff))
  let hash := hash.set! (i + 16) (uint8 (s[4] >>> (24 - i * 8) &&& 0xff))
  let hash := hash.set! (i + 20) (uint8 (s[5] >>> (24 - i * 8) &&& 0xff))
  let hash := hash.set! (i + 24) (uint8 (s[6] >>> (24 - i * 8) &&& 0xff))
  hash.set! (i + 28) (uint8 (s[7] >>> (24 - i * 8) &&& 0xff))

/-- The padding of what waits, with the block it may fill on the way. -/
def padData (ctx : Sha256Ctx) : Sha256Ctx :=
  let i := ctx.datalen.val
  let data := ctx.data.set! i 0x80
  if i < 56 then { ctx with data := zeroUntil 56 data (i + 1) }
  else
    let data := zeroUntil 64 data (i + 1)
    let ctx := sha256Transform { ctx with data := data } data
    { ctx with data := zeroUntil 56 ctx.data 0 }

def sha256Final (ctx : Sha256Ctx) (hash : Vector UInt8 32) : Sha256Ctx × Vector UInt8 32 :=
  let ctx := padData ctx
  let bitlen := ctx.bitlen + BitVec.ofNat 64 ctx.datalen * 8
  let data := writeBitlen ctx.data bitlen
  let ctx := sha256Transform { ctx with data := data, bitlen := bitlen } data
  (ctx, (List.range 4).foldl (storeBytes ctx.state) hash)

def hexDigit (x : UInt8) : Char :=
  "0123456789abcdef".toList[x.toNat]!

def sha256ToHex (hash : Vector UInt8 32) : CString :=
  hash.toList.flatMap fun b : UInt8 => [hexDigit (b >>> 4 &&& 0xF), hexDigit (b &&& 0xF)]

/-! ## The constants -/

/-- The first 64 primes. -/
def primes : List ℕ := [
  2, 3, 5, 7, 11, 13, 17, 19, 23, 29, 31, 37, 41, 43, 47, 53, 59, 61, 67, 71, 73, 79, 83, 89, 97,
  101, 103, 107, 109, 113, 127, 131, 137, 139, 149, 151, 157, 163, 167, 173, 179, 181, 191, 193,
  197, 199, 211, 223, 227, 229, 233, 239, 241, 251, 257, 263, 269, 271, 277, 281, 283, 293, 307,
  311]

/-- A number below `324` with no divisor up to its root. -/
def noDivisor (n : ℕ) : Bool :=
  2 ≤ n && (List.range 18).all fun m => m < 2 || n < m * m || n % m ≠ 0

theorem noDivisor_iff {n : ℕ} (h : n < 18 * 18) : noDivisor n = true ↔ n.Prime := by
  simp only [noDivisor, Bool.and_eq_true, decide_eq_true_eq, List.all_eq_true, List.mem_range,
    Bool.or_eq_true, Nat.prime_def_le_sqrt, Nat.le_sqrt]
  refine and_congr_right fun _ => ⟨fun hall m h2 hm hdvd => ?_, fun hall m _ => ?_⟩
  · have hlt : m < 18 := by
      by_contra hge
      have := Nat.mul_le_mul (not_lt.1 hge) (not_lt.1 hge)
      omega
    rcases hall m hlt with (h | h) | h
    · omega
    · omega
    · exact h (Nat.mod_eq_zero_of_dvd hdvd)
  · by_cases h2 : m < 2
    · exact .inl (.inl h2)
    by_cases hm : n < m * m
    · exact .inl (.inr hm)
    · exact .inr fun hmod => hall m (not_lt.1 h2) (not_lt.1 hm) (Nat.dvd_of_mod_eq_zero hmod)

theorem prime_primes {t : ℕ} (ht : t < 64) : primes[t]!.Prime := by
  have hall : ∀ t < 64, primes[t]! < 18 * 18 ∧ noDivisor primes[t]! = true := by decide +kernel
  exact (noDivisor_iff (hall t ht).1).1 (hall t ht).2

/-- From one of them to the next there is one prime. -/
theorem count_gap {t : ℕ} (ht : t < 63) : primes[t]! ≤ primes[t + 1]! ∧
    Nat.count (fun i => (primes[t]! + i).Prime) (primes[t + 1]! - primes[t]!) = 1 := by
  have hall : ∀ t < 63, primes[t]! ≤ primes[t + 1]! ∧ primes[t + 1]! < 18 * 18 ∧
      Nat.count (fun i => noDivisor (primes[t]! + i) = true) (primes[t + 1]! - primes[t]!) = 1 := by
    decide +kernel
  obtain ⟨hle, hlt, hcount⟩ := hall t ht
  refine ⟨hle, Eq.trans ?_ hcount⟩
  rw [Nat.count_eq_card_filter_range, Nat.count_eq_card_filter_range]
  refine congrArg Finset.card (Finset.filter_congr fun i hi => (noDivisor_iff ?_).symm)
  rw [Finset.mem_range] at hi
  omega

theorem count_primes {t : ℕ} (ht : t < 64) : Nat.count Nat.Prime primes[t]! = t := by
  induction t with
  | zero => decide +kernel
  | succ t ih =>
    obtain ⟨hle, hgap⟩ := count_gap (t := t) (by omega)
    rw [← Nat.add_sub_of_le hle, Nat.count_add, ih (by omega), hgap]

theorem rootBits_eq (n : ℕ) {t : ℕ} (ht : t < 64) :
    Fips180.rootBits n t = BitVec.ofNat 32 (Nat.nthRoot n (primes[t]! * 2 ^ (32 * n))) := by
  have hnth : Nat.nth Nat.Prime t = primes[t]! := by
    conv_lhs => rw [← count_primes ht]
    exact Nat.nth_count (prime_primes ht)
  rw [Fips180.rootBits, hnth]

theorem k_cubeRoots :
    ∀ t < 64, k[t]! = BitVec.ofNat 32 (Nat.nthRoot 3 (primes[t]! * 2 ^ 96)) := by decide +kernel

theorem k_eq {t : ℕ} (ht : t < 64) : k[t]! = Fips180.roundConstant t := by
  rw [k_cubeRoots t ht, Fips180.roundConstant, rootBits_eq 3 ht]

theorem registers_init (ctx : Sha256Ctx) :
    registers (sha256Init ctx).state = Fips180.initial := by
  unfold Fips180.initial
  iterate 8 rw [rootBits_eq 2 (by norm_num)]
  refine Registers.ext ?_ ?_ ?_ ?_ ?_ ?_ ?_ ?_
  · change (0x6a09e667 : Word) = _; decide +kernel
  · change (0xbb67ae85 : Word) = _; decide +kernel
  · change (0x3c6ef372 : Word) = _; decide +kernel
  · change (0xa54ff53a : Word) = _; decide +kernel
  · change (0x510e527f : Word) = _; decide +kernel
  · change (0x9b05688c : Word) = _; decide +kernel
  · change (0x1f83d9ab : Word) = _; decide +kernel
  · change (0x5be0cd19 : Word) = _; decide +kernel

/-! ## The words and the rounds of a block -/

theorem ep0_eq (x : Word) : ep0 x = Fips180.upperSigma0 x := rfl

theorem ep1_eq (x : Word) : ep1 x = Fips180.upperSigma1 x := rfl

theorem sig0_eq (x : Word) : sig0 x = Fips180.lowerSigma0 x := rfl

theorem sig1_eq (x : Word) : sig1 x = Fips180.lowerSigma1 x := rfl

variable {data : Vector UInt8 64} {i n : ℕ}

/-- The words of the block, most significant bytes first. -/
theorem loadWords_eq (data : Vector UInt8 64) :
    loadWords data =
      (List.range 16).map (Fips180.schedule (Fips180.word (Fips180.ofBytes data.toList))) := by
  refine List.map_congr_left fun i hi => ?_
  rw [List.mem_range] at hi
  rw [Fips180.schedule, if_pos hi]
  refine (Fips180.word_ofBytes ?_).symm
  refine Eq.trans ?_ (Fips180.bigEndian_word data[4 * i]! data[4 * i + 1]! data[4 * i + 2]!
    data[4 * i + 3]!).symm
  have hlen : data.toList.length = 64 := data.length_toList
  have hbyte : ∀ j (hj : j < data.toList.length), data[j]! = data.toList[j] := fun j hj => by
    rw [getElem!_pos data j (hlen ▸ hj), Vector.getElem_toList]
  rw [hbyte _ (by omega), hbyte _ (by omega), hbyte _ (by omega), hbyte _ (by omega),
    List.drop_eq_getElem_cons (by omega), List.drop_eq_getElem_cons (by omega),
    List.drop_eq_getElem_cons (by omega), List.drop_eq_getElem_cons (by omega)]
  rfl

/-- The words after the `n` steps of the loop. -/
theorem foldl_expandWords (w : ℕ → Word) (n : ℕ) :
    (List.range' 16 n).foldl expandWords ((List.range 16).map (Fips180.schedule w)) =
      (List.range (16 + n)).map (Fips180.schedule w) := by
  induction n with
  | zero => rfl
  | succ n ih =>
    rw [List.range'_concat, List.foldl_append, ih, ← Nat.add_assoc, List.range_succ,
      List.map_append, Nat.one_mul]
    have hget : ∀ t < 16 + n, ((List.range (16 + n)).map (Fips180.schedule w))[t]! =
        Fips180.schedule w t := fun t ht => by
      rw [getElem!_pos _ t (by simpa using ht)]
      simp
    have hnext : Fips180.schedule w (16 + n) = Fips180.lowerSigma1 (Fips180.schedule w (16 + n - 2)) +
        Fips180.schedule w (16 + n - 7) + Fips180.lowerSigma0 (Fips180.schedule w (16 + n - 15)) +
        Fips180.schedule w (16 + n - 16) := by
      rw [Fips180.schedule, if_neg (by omega)]
    simp only [List.foldl_cons, List.foldl_nil, expandWords, List.map_cons, List.map_nil]
    rw [hnext, hget _ (by omega), hget _ (by omega), hget _ (by omega), hget _ (by omega), sig1_eq,
      sig0_eq]

theorem messageWords_eq (data : Vector UInt8 64) :
    messageWords data =
      (List.range 64).map (Fips180.schedule (Fips180.word (Fips180.ofBytes data.toList))) := by
  rw [messageWords, loadWords_eq]
  exact foldl_expandWords _ 48

/-- A block is compressed into the state. -/
theorem transform_spec (ctx : Sha256Ctx) (data : Vector UInt8 64) :
    registers (sha256Transform ctx data).state =
      Fips180.compressBytes (registers ctx.state) data.toList := by
  have hround : ∀ v, (List.range 64).foldl (sha256Round (messageWords data)) v =
      (List.range 64).foldl (fun v t => Fips180.round (Fips180.roundConstant t)
        (Fips180.schedule (Fips180.word (Fips180.ofBytes data.toList)) t) v) v := fun v => by
    refine List.foldl_ext _ _ _ fun v t ht => ?_
    rw [List.mem_range] at ht
    have hm : (messageWords data)[t]! =
        Fips180.schedule (Fips180.word (Fips180.ofBytes data.toList)) t := by
      rw [messageWords_eq, getElem!_pos _ t (by simpa using ht)]
      simp
    rw [sha256Round, k_eq ht, hm, ep1_eq, ep0_eq]
    rfl
  rw [Fips180.compressBytes, Fips180.compress, ← hround]
  refine Registers.ext ?_ ?_ ?_ ?_ ?_ ?_ ?_ ?_ <;> exact BitVec.add_comm _ _

/-! ## What a context holds -/

/-- The state, and the bytes that wait. -/
def Sha256Ctx.taken (ctx : Sha256Ctx) : Registers × List UInt8 :=
  (registers ctx.state, ctx.data.toList.take ctx.datalen)

/-- The context was given these bytes since it was initialised. -/
structure Holds (ctx : Sha256Ctx) (bs : List UInt8) : Prop where
  taken : ctx.taken = BlockStream.taken Fips180.compressBytes 64 Fips180.initial bs
  bitlen : ctx.bitlen = BitVec.ofNat 64 (512 * (bs.length / 64))

variable {ctx : Sha256Ctx} {bs : List UInt8}

theorem length_taken (ctx : Sha256Ctx) : ctx.taken.2.length = ctx.datalen := by
  have hlt := ctx.datalen.isLt
  rw [Sha256Ctx.taken, List.length_take, Vector.length_toList]
  omega

theorem Holds.datalen (h : Holds ctx bs) : ctx.datalen.val = bs.length % 64 := by
  rw [← length_taken, h.taken, BlockStream.taken, List.length_drop]
  omega

theorem holds_init (ctx : Sha256Ctx) : Holds (sha256Init ctx) [] :=
  ⟨Prod.ext (registers_init ctx) (List.take_zero (l := ctx.data.toList)), rfl⟩

/-- A byte written behind those that wait. -/
theorem take_set! (ctx : Sha256Ctx) (b : UInt8) :
    (ctx.data.set! ctx.datalen b).toList.take (ctx.datalen + 1) = ctx.taken.2 ++ [b] := by
  rw [Vector.toList_set!, List.take_succ_eq_append_getElem (by simp),
    List.take_set_of_le (le_refl _), List.getElem_set_self]
  rfl

/-- A byte is taken in as an element of a stream is. -/
theorem taken_updateByte (ctx : Sha256Ctx) (b : UInt8) :
    (updateByte ctx b).taken = BlockStream.push Fips180.compressBytes 64 ctx.taken b := by
  rw [BlockStream.push, length_taken, ← take_set!, updateByte]
  by_cases hfull : ctx.datalen.val + 1 = 64
  · rw [dif_pos hfull, if_pos hfull, hfull, List.take_of_length_le (by simp)]
    exact Prod.ext (transform_spec _ _)
      (List.take_zero (l := (ctx.data.set! ctx.datalen b).toList))
  · rw [dif_neg hfull, if_neg hfull]
    rfl

theorem bitlen_updateByte (h : Holds ctx bs) (b : UInt8) :
    (updateByte ctx b).bitlen = BitVec.ofNat 64 (512 * ((bs ++ [b]).length / 64)) := by
  have hlen := h.datalen
  rw [List.length_append, List.length_singleton, updateByte]
  by_cases hfull : ctx.datalen.val + 1 = 64
  · have hone : (bs.length + 1) / 64 = bs.length / 64 + 1 := by omega
    rw [dif_pos hfull, hone, Nat.mul_succ, BitVec.ofNat_add, ← h.bitlen]
    rfl
  · have hsame : (bs.length + 1) / 64 = bs.length / 64 := by omega
    rw [dif_neg hfull, hsame, ← h.bitlen]

theorem Holds.updateByte (h : Holds ctx bs) (b : UInt8) :
    Holds (updateByte ctx b) (bs ++ [b]) := by
  refine ⟨?_, bitlen_updateByte h b⟩
  rw [taken_updateByte, h.taken, BlockStream.taken_concat (by norm_num)]

/-- A context holds what it was given, and what it is given now. -/
theorem Holds.update (h : Holds ctx bs) (cs : List UInt8) :
    Holds (sha256Update ctx cs) (bs ++ cs) := by
  induction cs generalizing ctx bs with
  | nil => simpa [sha256Update] using h
  | cons c cs ih => simpa [sha256Update] using ih (h.updateByte c)

/-! ## The padding -/

theorem toList_foldl_set! (data : Vector UInt8 64) (i n : ℕ) (h : i + n ≤ 64) :
    ((List.range' i n).foldl (fun data i => data.set! i 0) data).toList =
      data.toList.take i ++ List.replicate n 0 ++ data.toList.drop (i + n) := by
  induction n with
  | zero => simp
  | succ n ih =>
    have hlen : (data.toList.take i ++ List.replicate n 0).length = i + n := by
      simp only [List.length_append, List.length_take, Vector.length_toList, List.length_replicate]
      omega
    rw [List.range'_concat, List.foldl_append, Nat.one_mul, List.foldl_cons, List.foldl_nil,
      Vector.toList_set!, ih (by omega),
      List.drop_eq_getElem_cons (show i + n < data.toList.length by simp; omega),
      List.set_append_right _ _ (by omega), hlen, Nat.sub_self, List.set_cons_zero,
      List.replicate_succ']
    simp [List.append_assoc, Nat.add_assoc]

theorem toList_zeroUntil (data : Vector UInt8 64) {i n : ℕ} (hin : i ≤ n) (hn : n ≤ 64) :
    (zeroUntil n data i).toList =
      data.toList.take i ++ List.replicate (n - i) 0 ++ data.toList.drop n := by
  rw [zeroUntil, toList_foldl_set! data i (n - i) (by omega), Nat.add_sub_of_le hin]

/-- The mark and the zeros behind what waits. -/
theorem toList_mark (ctx : Sha256Ctx) {n : ℕ} (h : ctx.datalen.val < n) (hn : n ≤ 64) :
    (zeroUntil n (ctx.data.set! ctx.datalen 0x80) (ctx.datalen + 1)).toList.take n =
      ctx.taken.2 ++ 0x80 :: List.replicate (n - 1 - ctx.datalen) 0 := by
  have hlen : (ctx.taken.2 ++ [0x80] ++ List.replicate (n - (ctx.datalen + 1)) 0).length = n := by
    simp only [List.length_append, length_taken, List.length_singleton, List.length_replicate]
    omega
  rw [toList_zeroUntil _ h hn, take_set!, List.take_append_of_le_length hlen.ge,
    List.take_of_length_le hlen.le, List.append_assoc, Nat.sub_add_eq, Nat.sub_right_comm]
  rfl

theorem padData_short (h : ctx.datalen.val < 56) :
    registers (padData ctx).state = ctx.taken.1 ∧
      (padData ctx).data.toList.take 56 =
        ctx.taken.2 ++ 0x80 :: List.replicate (55 - ctx.datalen) 0 := by
  rw [padData, if_pos h]
  exact ⟨rfl, toList_mark ctx h (by norm_num)⟩

theorem padData_long (h : ¬ ctx.datalen.val < 56) :
    registers (padData ctx).state = Fips180.compressBytes ctx.taken.1
        (ctx.taken.2 ++ 0x80 :: List.replicate (63 - ctx.datalen) 0) ∧
      (padData ctx).data.toList.take 56 = List.replicate 56 0 := by
  rw [padData, if_neg h]
  refine ⟨?_, ?_⟩
  · have hmark := toList_mark ctx ctx.datalen.isLt (le_refl 64)
    rw [List.take_of_length_le (by simp)] at hmark
    generalize zeroUntil 64 (ctx.data.set! ctx.datalen 0x80) (ctx.datalen + 1) = data at hmark ⊢
    rw [← hmark]
    dsimp only
    rw [transform_spec]
    rfl
  · simp only [sha256Transform]
    rw [toList_zeroUntil _ (Nat.zero_le 56) (by norm_num), List.take_zero, List.nil_append,
      Nat.sub_zero, List.take_append_of_le_length (by simp), List.take_of_length_le (by simp)]

theorem toList_writeBitlen (data : Vector UInt8 64) (x : BitVec 64) :
    (writeBitlen data x).toList = data.toList.take 56 ++ Fips180.bigEndian 8 x := by
  have hlen : data.toList.length = 64 := data.length_toList
  have htake : (data.toList.take 56).length = 56 := by rw [List.length_take, hlen]; rfl
  have hdrop : ∃ b₀ b₁ b₂ b₃ b₄ b₅ b₆ b₇,
      data.toList.drop 56 = [b₀, b₁, b₂, b₃, b₄, b₅, b₆, b₇] := by
    have hrest : (data.toList.drop 56).length = 8 := by rw [List.length_drop, hlen]
    generalize data.toList.drop 56 = l at hrest
    match l, hrest with
    | [b₀, b₁, b₂, b₃, b₄, b₅, b₆, b₇], _ => exact ⟨b₀, b₁, b₂, b₃, b₄, b₅, b₆, b₇, rfl⟩
  obtain ⟨b₀, b₁, b₂, b₃, b₄, b₅, b₆, b₇, hdrop⟩ := hdrop
  have hdata := List.take_append_drop 56 data.toList
  rw [hdrop] at hdata
  simp only [writeBitlen, Vector.toList_set!]
  rw [← hdata]
  simp [htake]
  rfl

/-- The bits that were taken in, those that wait among them. -/
theorem bitlen_final (h : Holds ctx bs) :
    (padData ctx).bitlen + BitVec.ofNat 64 (padData ctx).datalen * 8 =
      BitVec.ofNat 64 (8 * bs.length) := by
  have hsame : (padData ctx).bitlen = ctx.bitlen ∧ (padData ctx).datalen = ctx.datalen := by
    rw [padData]
    split <;> exact ⟨rfl, rfl⟩
  have hsum : 8 * bs.length = 512 * (bs.length / 64) + ctx.datalen * 8 := by
    have := h.datalen
    omega
  rw [hsame.1, hsame.2, h.bitlen, hsum, BitVec.ofNat_add, BitVec.ofNat_mul, BitVec.ofNat_mul]
  rfl

/-- The state in the end: all blocks of the padded message were compressed. -/
theorem registers_final (h : Holds ctx bs) (hash : Vector UInt8 32) :
    registers (sha256Final ctx hash).1.state =
      BlockStream.absorbed Fips180.compressBytes 64 Fips180.initial
        (bs ++ Fips180.padding bs.length) ((bs.length + 8) / 64 + 1) := by
  have hlen := h.datalen
  have hwaits := length_taken ctx
  have hbytes : ∀ x, (Fips180.bigEndian 8 x).length = 8 := fun _ => List.length_ofFn
  rw [sha256Final]
  dsimp only
  rw [transform_spec, toList_writeBitlen, bitlen_final h]
  dsimp only
  by_cases hshort : ctx.datalen.val < 56
  · -- What waits is padded to one block.
    obtain ⟨hstate, hdata⟩ := padData_short hshort
    have hone : (bs.length + 8) / 64 + 1 = bs.length / 64 + 1 := by omega
    have hzeros : (119 - bs.length % 64) % 64 = 55 - ctx.datalen := by omega
    rw [hone, BlockStream.absorbed_rest, ← h.taken, hstate, hdata, Fips180.padding, hzeros,
      ← List.append_assoc, BlockStream.absorbed_one]
    simp only [List.length_append, hwaits, List.length_cons, List.length_replicate, hbytes]
    omega
  · -- What waits is padded to two blocks.
    obtain ⟨hstate, hdata⟩ := padData_long hshort
    have htwo : (bs.length + 8) / 64 + 1 = bs.length / 64 + 2 := by omega
    have hzeros : (119 - bs.length % 64) % 64 = (63 - ctx.datalen) + 56 := by omega
    rw [htwo, BlockStream.absorbed_rest, ← h.taken, hstate, hdata, Fips180.padding, hzeros,
      List.replicate_add, ← List.cons_append, List.append_assoc, ← List.append_assoc ctx.taken.2,
      BlockStream.absorbed_block, BlockStream.absorbed_one]
    · simp only [List.length_append, List.length_replicate, hbytes]
    · simp only [List.length_append, hwaits, List.length_cons, List.length_replicate]
      omega

theorem uint8_and (x : Word) : uint8 (x &&& 255#32) = UInt8.ofBitVec (x.setWidth 8) := by
  refine congrArg UInt8.ofBitVec (BitVec.eq_of_getLsbD_eq fun j hj => ?_)
  simp only [BitVec.getLsbD_setWidth, BitVec.getLsbD_and, hj]
  interval_cases j <;> simp

/-- The bytes of the digest are those of the words of the state, one after another. -/
theorem toList_storeBytes (s : Vector Word 8) (hash : Vector UInt8 32) :
    ((List.range 4).foldl (storeBytes s) hash).toList =
      Fips180.bigEndian 4 s[0] ++ Fips180.bigEndian 4 s[1] ++ Fips180.bigEndian 4 s[2] ++
        Fips180.bigEndian 4 s[3] ++ Fips180.bigEndian 4 s[4] ++ Fips180.bigEndian 4 s[5] ++
        Fips180.bigEndian 4 s[6] ++ Fips180.bigEndian 4 s[7] := by
  -- All 32 bytes are written, whatever they were.
  have hhash : hash.toList = List.ofFn fun i : Fin 32 => hash[i] := by
    refine List.ext_getElem (by simp) fun i h₁ h₂ => ?_
    rw [List.getElem_ofFn, Vector.getElem_toList]
    rfl
  have hrange : List.range 4 = [0, 1, 2, 3] := rfl
  simp [hrange, storeBytes, hhash, uint8_and, Fips180.bigEndian]

/-- The digest of what a context was given. -/
theorem final_spec (h : Holds ctx bs) (hash : Vector UInt8 32) :
    Fips180.ofBytes (sha256Final ctx hash).2.toList = Fips180.digest (Fips180.ofBytes bs) := by
  rw [Fips180.digest_ofBytes, ← registers_final h hash]
  refine (congrArg Fips180.ofBytes (toList_storeBytes _ _)).trans ?_
  simp only [Fips180.ofBytes_append, ← Fips180.bits_eq_ofBytes 4]
  rfl

theorem Holds.updates (h : Holds ctx bs) (parts : List (List UInt8)) :
    Holds (parts.foldl sha256Update ctx) (bs ++ parts.flatten) := by
  induction parts generalizing ctx bs with
  | nil => simpa using h
  | cons p parts ih => simpa using ih (h.update p)

/-- In whatever parts the data came. -/
theorem sha256_spec (ctx : Sha256Ctx) (hash : Vector UInt8 32) (parts : List (List UInt8)) :
    Fips180.ofBytes (sha256Final (parts.foldl sha256Update (sha256Init ctx)) hash).2.toList =
      Fips180.digest (Fips180.ofBytes parts.flatten) :=
  final_spec ((holds_init ctx).updates parts) hash

/-! ## The digits -/

theorem hexDigits_eq (b : UInt8) :
    hexDigit (b >>> 4 &&& 0xF) = Nat.digitChar (b.toNat / 16) ∧
      hexDigit (b &&& 0xF) = Nat.digitChar (b.toNat % 16) := by
  have hall : ∀ n < 256, hexDigit (UInt8.ofNat n >>> 4 &&& 0xF) = Nat.digitChar (n / 16) ∧
      hexDigit (UInt8.ofNat n &&& 0xF) = Nat.digitChar (n % 16) := by decide +kernel
  have h := hall b.toNat b.toNat_lt
  rwa [UInt8.ofNat_toNat] at h

theorem sha256ToHex_eq (hash : Vector UInt8 32) :
    sha256ToHex hash = Fips180.hexForm (Fips180.ofBytes hash.toList) := by
  rw [Fips180.hexForm_ofBytes, sha256ToHex]
  refine List.flatMap_congr fun b _ => ?_
  rw [(hexDigits_eq b).1, (hexDigits_eq b).2]

end Cdm.Sha256
