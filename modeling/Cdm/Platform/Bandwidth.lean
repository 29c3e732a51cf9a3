import Cdm.Lib.Run

/-!
# The speed limit

`platform/bandwidth.c`: a bucket of tokens, which a tick of the daemon fills and from which
the workers take what they are about to write. The count of the tokens is atomic: the tick
and any number of calls of `bandwidth_acquire` load it and exchange it, one access a step,
and an exchange fails if the count has changed, or for no reason.

Numbers have the widths of the source, and the conversions between signed and unsigned ones
are those of C. What has been credited and taken is recorded beside the state of the
program.

* `Refill.toInt_add`, `Refill.toInt_maxBucket`: nothing is lost in the conversions;
* `capKept`: whatever the caps, the times and the order of the steps, the limit is kept.
-/

namespace Cdm

/-! ## A refill -/

/-- What a tick has read: the cap, the time of the last refill, and the time now. -/
structure Refill where
  cap : UInt64
  since : UInt64
  now : UInt64
  deriving DecidableEq

/-- The bucket holds what the cap allows in this time. -/
def bucketFractionMs : UInt64 := 500

namespace Refill

variable (r : Refill)

def elapsedMs : UInt64 := r.now - r.since

def add : Int64 := (r.cap * r.elapsedMs / 1000).toInt64

def maxBucket : Int64 :=
  let maxBucket := (r.cap * bucketFractionMs / 1000).toInt64
  if maxBucket < 1 then 1 else maxBucket

/-- The count after the refill, if it was `old`. -/
def newTokens (old : Int64) : Int64 :=
  let newTokens := old + r.add
  if r.maxBucket < newTokens then r.maxBucket else newTokens

end Refill

/-! ## The steps -/

/-- A call of `bandwidth_acquire`; what it has `taken` is recorded. -/
structure Acquire where
  bytes : UInt64
  remaining : UInt64
  taken : ℕ
  deriving DecidableEq

/-- What is taken out of `old` tokens. -/
def Acquire.take (a : Acquire) (old : Int64) : UInt64 :=
  if old.toUInt64 < a.remaining then old.toUInt64 else a.remaining

inductive AcquirePc
  | idle
  /-- At the head of the loop. -/
  | check (a : Acquire)
  | load (a : Acquire)
  | swap (a : Acquire) (old : Int64)
  | returned (a : Acquire) (ok : Bool)
  deriving DecidableEq

inductive TickPc
  | idle
  | load (r : Refill)
  | swap (r : Refill) (old : Int64)
  deriving DecidableEq

/-- A refill, and how many tokens there were more after it. -/
structure Credit where
  refill : Refill
  amount : ℕ
  deriving DecidableEq

structure Bandwidth where
  /-- The setting in force. -/
  cap : UInt64
  tokens : Int64
  lastRefillMs : UInt64
  ticker : TickPc
  /-- The calls of `bandwidth_acquire`, one for each thread. -/
  acquires : ℕ → AcquirePc
  credits : List Credit
  taken : ℕ

inductive BandwidthAct
  /-- The setting is changed. -/
  | configure (cap : UInt64)
  | tick (now : UInt64)
  | tickLoad
  | tickSwap (spurious : Bool)
  | acquire (i : ℕ) (bytes : UInt64)
  /-- The loop is entered again, if there is something left to take and no flag is set. -/
  | check (i : ℕ) (stopped : Bool)
  | load (i : ℕ)
  | swap (i : ℕ) (spurious : Bool)
  /-- The thread goes on to something else. -/
  | leave (i : ℕ)

namespace Bandwidth

variable (s : Bandwidth)

def setAcquire (i : ℕ) (pc : AcquirePc) : Bandwidth :=
  { s with acquires := Function.update s.acquires i pc }

def bandwidthTick (now : UInt64) : Bandwidth :=
  if s.cap = 0 then s
  -- The first tick only notes the time.
  else if s.lastRefillMs = 0 then { s with lastRefillMs := now }
  else if now - s.lastRefillMs = 0 then s
  else { s with lastRefillMs := now, ticker := .load ⟨s.cap, s.lastRefillMs, now⟩ }

def tickSwap (r : Refill) (old : Int64) (spurious : Bool) : Bandwidth :=
  -- The refill is the same in the next attempt; the count is loaded again.
  if spurious = true ∨ s.tokens ≠ old then { s with ticker := .load r }
  else
    { s with
      tokens := r.newTokens old
      ticker := .idle
      credits := ⟨r, ((r.newTokens old).toInt - old.toInt).toNat⟩ :: s.credits }

def bandwidthAcquire (i : ℕ) (bytes : UInt64) : Bandwidth :=
  s.setAcquire i (if s.cap = 0 then .returned ⟨bytes, bytes, 0⟩ true else .check ⟨bytes, bytes, 0⟩)

def checkAcquire (i : ℕ) (a : Acquire) (stopped : Bool) : Bandwidth :=
  s.setAcquire i
    (if a.remaining = 0 then .returned a true
    else if stopped then .returned a false
    else .load a)

def loadAcquire (i : ℕ) (a : Acquire) : Bandwidth :=
  -- With an empty bucket the thread sleeps, and enters the loop again.
  s.setAcquire i (if s.tokens ≤ 0 then .check a else .swap a s.tokens)

def swapAcquire (i : ℕ) (a : Acquire) (old : Int64) (spurious : Bool) : Bandwidth :=
  if spurious = true ∨ s.tokens ≠ old then s.setAcquire i (.check a)
  else
    let take := a.take old
    { s.setAcquire i (.check
        { a with remaining := a.remaining - take, taken := a.taken + take.toNat }) with
      tokens := old - take.toInt64
      taken := s.taken + take.toNat }

def step : BandwidthAct → Option Bandwidth
  | .configure cap => some { s with cap := cap }
  | .tick now =>
    match s.ticker with
    | .idle => some (s.bandwidthTick now)
    | _ => none
  | .tickLoad =>
    match s.ticker with
    | .load r => some { s with ticker := .swap r s.tokens }
    | _ => none
  | .tickSwap spurious =>
    match s.ticker with
    | .swap r old => some (s.tickSwap r old spurious)
    | _ => none
  | .acquire i bytes =>
    match s.acquires i with
    | .idle => some (s.bandwidthAcquire i bytes)
    | _ => none
  | .check i stopped =>
    match s.acquires i with
    | .check a => some (s.checkAcquire i a stopped)
    | _ => none
  | .load i =>
    match s.acquires i with
    | .load a => some (s.loadAcquire i a)
    | _ => none
  | .swap i spurious =>
    match s.acquires i with
    | .swap a old => some (s.swapAcquire i a old spurious)
    | _ => none
  | .leave i =>
    match s.acquires i with
    | .returned _ _ => some (s.setAcquire i .idle)
    | _ => none

/-- The program has started, with a cap. -/
def IsInit : Prop :=
  s.cap ≠ 0 ∧ s.tokens = 0 ∧ s.ticker = .idle ∧ (∀ i, s.acquires i = .idle) ∧ s.credits = [] ∧
    s.taken = 0

end Bandwidth

/-- The caps are positive. -/
def Capped (_ : Bandwidth) : BandwidthAct → Prop
  | .configure cap => cap ≠ 0
  | _ => True

instance (s : Bandwidth) (a : BandwidthAct) : Decidable (Capped s a) := by
  cases a <;> unfold Capped <;> infer_instance

/-! ## The numbers -/

/-- An unsigned number that is small enough stays what it is. -/
theorem toInt_toInt64 {x : UInt64} (h : x.toNat < 2 ^ 63) : x.toInt64.toInt = x.toNat := by
  have h' : 2 * x.toBitVec.toNat < 2 ^ 64 := by
    change 2 * x.toNat < 2 ^ 64
    omega
  exact BitVec.toInt_eq_toNat_of_lt h'

/-- So does a positive signed one. -/
theorem toNat_toUInt64 {x : Int64} (h : 0 ≤ x.toInt) : (x.toUInt64.toNat : ℤ) = x.toInt := by
  rw [Int64.toNat_toUInt64_of_le (Int64.le_iff_toInt_le.2 (by simpa using h)), ← Int64.toNat_toInt,
    Int.toNat_of_nonneg h]

theorem toInt_add_of_lt {x y : Int64} (hx : 0 ≤ x.toInt) (hy : 0 ≤ y.toInt)
    (h : x.toInt + y.toInt < 2 ^ 63) : (x + y).toInt = x.toInt + y.toInt := by
  rw [Int64.toInt_add, Int.bmod_eq_of_le] <;> omega

theorem toInt_sub_of_le {x y : Int64} (hy : 0 ≤ y.toInt) (h : y.toInt ≤ x.toInt) :
    (x - y).toInt = x.toInt - y.toInt := by
  have := x.toInt_lt
  rw [Int64.toInt_sub, Int.bmod_eq_of_le] <;> omega

namespace Refill

variable (r : Refill)

/-- No bucket is larger, and no more is added, whatever the products wrap to. -/
def limit : ℤ := 2 ^ 64 / 1000

theorem toNat_div_lt (x : UInt64) : (x / 1000).toNat ≤ 2 ^ 64 / 1000 := by
  rw [UInt64.toNat_div]
  have := x.toNat_lt
  change x.toNat / 1000 ≤ _
  omega

theorem toInt_div (x : UInt64) : (x / 1000).toInt64.toInt = (x.toNat / 1000 : ℕ) := by
  rw [toInt_toInt64 (lt_of_le_of_lt (toNat_div_lt x) (by norm_num)), UInt64.toNat_div]
  rfl

theorem toInt_add : r.add.toInt = ((r.cap * r.elapsedMs).toNat / 1000 : ℕ) := toInt_div _

theorem add_nonneg : 0 ≤ r.add.toInt := by
  rw [toInt_add]
  omega

theorem add_le_limit : r.add.toInt ≤ limit := by
  have := (r.cap * r.elapsedMs).toNat_lt
  rw [toInt_add, limit]
  omega

/-- A product that wraps is too small, never too large. -/
theorem toNat_mul_le (x y : UInt64) : (x * y).toNat ≤ x.toNat * y.toNat := by
  rw [UInt64.toNat_mul]
  exact Nat.mod_le _ _

theorem add_le : r.add.toInt ≤ (r.cap.toNat * r.elapsedMs.toNat / 1000 : ℕ) := by
  rw [toInt_add]
  exact_mod_cast Nat.div_le_div_right (toNat_mul_le _ _)

theorem toInt_maxBucket :
    r.maxBucket.toInt = (max 1 ((r.cap * bucketFractionMs).toNat / 1000) : ℕ) := by
  have h := toInt_div (r.cap * bucketFractionMs)
  simp only [maxBucket, Int64.lt_iff_toInt_lt, h]
  rw [Int64.toInt_one]
  split_ifs with hlt
  · rw [Int64.toInt_one]
    omega
  · rw [h]
    omega

theorem maxBucket_pos : 0 < r.maxBucket.toInt := by
  rw [toInt_maxBucket]
  omega

theorem maxBucket_le_limit : r.maxBucket.toInt ≤ limit := by
  have := (r.cap * bucketFractionMs).toNat_lt
  rw [toInt_maxBucket, limit]
  omega

theorem maxBucket_le : r.maxBucket.toInt ≤ (max 1 (r.cap.toNat * 500 / 1000) : ℕ) := by
  have := Nat.div_le_div_right (c := 1000) (toNat_mul_le r.cap bucketFractionMs)
  rw [toInt_maxBucket]
  change _ ≤ r.cap.toNat * 500 / 1000 at this
  omega

/-- A refill keeps the count between `0` and the size of the bucket, and adds at most what
    it is meant to. -/
theorem newTokens_spec {old : Int64} (h : 0 ≤ old.toInt) (h' : old.toInt ≤ limit) :
    0 ≤ (r.newTokens old).toInt ∧ (r.newTokens old).toInt ≤ r.maxBucket.toInt ∧
      (r.newTokens old).toInt ≤ old.toInt + r.add.toInt := by
  have hlimit : limit + limit < 2 ^ 63 := by norm_num [limit]
  have hadd := toInt_add_of_lt h r.add_nonneg (by linarith [r.add_le_limit])
  have hnonneg := r.add_nonneg
  have hpos := r.maxBucket_pos
  simp only [newTokens, Int64.lt_iff_toInt_lt]
  split_ifs with hlt
  · refine ⟨hpos.le, le_rfl, ?_⟩
    rw [← hadd]
    exact hlt.le
  · rw [hadd] at hlt ⊢
    exact ⟨by omega, by omega, le_rfl⟩

end Refill

/-- A call takes at most what is there and at most what it needs. -/
theorem Acquire.take_spec (a : Acquire) {old : Int64} (h : 0 ≤ old.toInt) :
    ((a.take old).toNat : ℤ) ≤ old.toInt ∧ (a.take old).toNat ≤ a.remaining.toNat := by
  have hold := toNat_toUInt64 h
  rw [take]
  split_ifs with hlt
  · exact ⟨hold.le, (UInt64.lt_iff_toNat_lt.1 hlt).le⟩
  · rw [UInt64.lt_iff_toNat_lt] at hlt
    exact ⟨by omega, le_rfl⟩

/-! ## The invariant -/

/-- The largest bucket there was. -/
def largestBucket (credits : List Credit) : ℤ :=
  credits.foldr (fun c m => max c.refill.maxBucket.toInt m) 0

theorem largestBucket_le (credits : List Credit) : largestBucket credits ≤ Refill.limit := by
  induction credits with
  | nil => norm_num [largestBucket, Refill.limit]
  | cons c credits ih => exact max_le c.refill.maxBucket_le_limit ih

/-- What a call still needs, and what it has taken, is what it was asked for. -/
def AcquireInv : AcquirePc → Prop
  | .idle => True
  | .check a | .load a => a.taken + a.remaining.toNat = a.bytes.toNat
  | .swap a old => a.taken + a.remaining.toNat = a.bytes.toNat ∧ 0 < old.toInt
  | .returned a ok => ok = true → a.taken = a.bytes.toNat

structure BandwidthInv (s : Bandwidth) : Prop where
  cap : s.cap ≠ 0
  tokens_nonneg : 0 ≤ s.tokens.toInt
  tokens_le : s.tokens.toInt ≤ largestBucket s.credits
  /-- The tokens that are there are those credited and not taken, or fewer: a smaller bucket
      loses some. -/
  taken_le : s.taken + s.tokens.toInt ≤ ((s.credits.map Credit.amount).sum : ℕ)
  amount_le : ∀ c ∈ s.credits, c.amount ≤ c.refill.cap.toNat * c.refill.elapsedMs.toNat / 1000
  acquires : ∀ i, AcquireInv (s.acquires i)

namespace BandwidthInv

variable {s s' : Bandwidth}

theorem of_isInit (h : s.IsInit) : BandwidthInv s := by
  obtain ⟨hcap, htokens, -, hidle, hcredits, htaken⟩ := h
  have hzero : s.tokens.toInt = 0 := by rw [htokens, Int64.toInt_zero]
  refine ⟨hcap, hzero.ge, ?_, ?_, by simp [hcredits], fun i => ?_⟩
  · rw [hzero, hcredits]
    exact le_rfl
  · simp [hzero, hcredits, htaken]
  · rw [hidle i]
    trivial

/-- Tokens, credits and caps as they are, a call goes on. -/
theorem setAcquire (h : BandwidthInv s) {i : ℕ} {pc : AcquirePc} (hpc : AcquireInv pc) :
    BandwidthInv (s.setAcquire i pc) := by
  refine ⟨h.cap, h.tokens_nonneg, h.tokens_le, h.taken_le, h.amount_le, fun j => ?_⟩
  by_cases hj : j = i
  · subst hj
    simpa [Bandwidth.setAcquire] using hpc
  · simpa [Bandwidth.setAcquire, hj] using h.acquires j

theorem tick (h : BandwidthInv s) (now : UInt64) : BandwidthInv (s.bandwidthTick now) := by
  rw [Bandwidth.bandwidthTick]
  split_ifs <;>
    exact ⟨h.cap, h.tokens_nonneg, h.tokens_le, h.taken_le, h.amount_le, h.acquires⟩

theorem tickSwap (h : BandwidthInv s) (r : Refill) (old : Int64) (spurious : Bool) :
    BandwidthInv (s.tickSwap r old spurious) := by
  rw [Bandwidth.tickSwap]
  split_ifs with hfail
  · exact ⟨h.cap, h.tokens_nonneg, h.tokens_le, h.taken_le, h.amount_le, h.acquires⟩
  · -- The exchange went through: the tokens are still those loaded.
    obtain rfl : s.tokens = old := not_not.1 fun hne => hfail (.inr hne)
    obtain ⟨hnonneg, hmax, hadd⟩ :=
      r.newTokens_spec h.tokens_nonneg (h.tokens_le.trans (largestBucket_le _))
    refine ⟨h.cap, hnonneg, hmax.trans (le_max_left _ _), ?_, fun c hc => ?_, h.acquires⟩
    · have := h.taken_le
      change s.taken + (r.newTokens s.tokens).toInt ≤
        ((((r.newTokens s.tokens).toInt - s.tokens.toInt).toNat +
          (s.credits.map Credit.amount).sum : ℕ) : ℤ)
      omega
    · rcases List.mem_cons.1 hc with rfl | hc
      · have := r.add_le
        change ((r.newTokens s.tokens).toInt - s.tokens.toInt).toNat ≤
          r.cap.toNat * r.elapsedMs.toNat / 1000
        omega
      · exact h.amount_le c hc

theorem swapAcquire (h : BandwidthInv s) {i : ℕ} {a : Acquire} {old : Int64}
    (hpc : s.acquires i = .swap a old) (spurious : Bool) :
    BandwidthInv (s.swapAcquire i a old spurious) := by
  have ha := h.acquires i
  rw [hpc] at ha
  obtain ⟨hbytes, hpos⟩ := ha
  rw [Bandwidth.swapAcquire]
  split_ifs with hfail
  · exact h.setAcquire hbytes
  · -- The swap succeeds: the tokens are those that were loaded.
    obtain rfl : s.tokens = old := not_not.1 fun hne => hfail (.inr hne)
    obtain ⟨htake, htake'⟩ := a.take_spec h.tokens_nonneg
    have hlt := s.tokens.toInt_lt
    have hconv : (a.take s.tokens).toInt64.toInt = (a.take s.tokens).toNat :=
      toInt_toInt64 (by omega)
    have hsub : (s.tokens - (a.take s.tokens).toInt64).toInt =
        s.tokens.toInt - (a.take s.tokens).toNat := by
      rw [toInt_sub_of_le (by omega) (by omega), hconv]
    have hremaining : (a.remaining - a.take s.tokens).toNat =
        a.remaining.toNat - (a.take s.tokens).toNat :=
      UInt64.toNat_sub_of_le _ _ (UInt64.le_iff_toNat_le.2 htake')
    have hgo : BandwidthInv (s.setAcquire i (.check
        { a with
          remaining := a.remaining - a.take s.tokens
          taken := a.taken + (a.take s.tokens).toNat })) := by
      refine h.setAcquire ?_
      change a.taken + (a.take s.tokens).toNat + (a.remaining - a.take s.tokens).toNat =
        a.bytes.toNat
      omega
    refine ⟨h.cap, ?_, ?_, ?_, h.amount_le, hgo.acquires⟩
    · change 0 ≤ (s.tokens - (a.take s.tokens).toInt64).toInt
      omega
    · change (s.tokens - (a.take s.tokens).toInt64).toInt ≤ largestBucket s.credits
      have := h.tokens_le
      omega
    · have := h.taken_le
      change ((s.taken + (a.take s.tokens).toNat : ℕ) : ℤ) +
        (s.tokens - (a.take s.tokens).toInt64).toInt ≤ ((s.credits.map Credit.amount).sum : ℕ)
      omega

theorem step (h : BandwidthInv s) {a : BandwidthAct} (hok : Capped s a)
    (hs : s.step a = some s') : BandwidthInv s' := by
  cases a with
  | configure cap =>
    cases hs
    -- A limit is set; what was granted under the old one has been counted.
    exact ⟨hok, h.tokens_nonneg, h.tokens_le, h.taken_le, h.amount_le, h.acquires⟩
  | tick now =>
    simp only [Bandwidth.step] at hs
    split at hs <;> cases hs
    exact h.tick now
  | tickLoad =>
    simp only [Bandwidth.step] at hs
    split at hs <;> cases hs
    exact ⟨h.cap, h.tokens_nonneg, h.tokens_le, h.taken_le, h.amount_le, h.acquires⟩
  | tickSwap spurious =>
    simp only [Bandwidth.step] at hs
    split at hs <;> cases hs
    exact h.tickSwap _ _ spurious
  | acquire i bytes =>
    simp only [Bandwidth.step] at hs
    split at hs <;> cases hs
    rw [Bandwidth.bandwidthAcquire, if_neg h.cap]
    exact h.setAcquire (Nat.zero_add _)
  | check i stopped =>
    simp only [Bandwidth.step] at hs
    split at hs <;> cases hs
    rename_i a hpc
    have ha := h.acquires i
    rw [hpc] at ha
    change a.taken + a.remaining.toNat = a.bytes.toNat at ha
    refine h.setAcquire ?_
    split_ifs with hdone
    · intro _
      simpa [hdone] using ha
    · exact fun hfalse => absurd hfalse (by simp)
    · exact ha
  | load i =>
    simp only [Bandwidth.step] at hs
    split at hs <;> cases hs
    rename_i a hpc
    have ha := h.acquires i
    rw [hpc] at ha
    change a.taken + a.remaining.toNat = a.bytes.toNat at ha
    refine h.setAcquire ?_
    split_ifs with hempty
    · exact ha
    · -- There are tokens to take.
      rw [Int64.le_iff_toInt_le, Int64.toInt_zero] at hempty
      exact ⟨ha, not_le.1 hempty⟩
  | swap i spurious =>
    simp only [Bandwidth.step] at hs
    split at hs <;> cases hs
    exact h.swapAcquire ‹_› spurious
  | leave i =>
    simp only [Bandwidth.step] at hs
    split at hs <;> cases hs
    exact h.setAcquire trivial

end BandwidthInv

/-! ## The limit is kept -/

structure CapKept (s : Bandwidth) : Prop where
  tokens_nonneg : 0 ≤ s.tokens.toInt
  tokens_le : s.tokens.toInt ≤ largestBucket s.credits
  bucket_le : ∀ c ∈ s.credits,
    c.refill.maxBucket.toInt ≤ (max 1 (c.refill.cap.toNat * 500 / 1000) : ℕ)
  taken_le : s.taken ≤ (s.credits.map Credit.amount).sum
  credit_le : ∀ c ∈ s.credits, c.amount ≤ c.refill.cap.toNat * c.refill.elapsedMs.toNat / 1000
  /-- A call that returns `true` has taken what it was asked for. -/
  taken_eq : ∀ i a, s.acquires i = .returned a true → a.taken = a.bytes.toNat

/-- Whatever the caps, the times of the ticks and the order of the steps, the limit is
    kept. -/
theorem capKept {s : Bandwidth} (hs : Run.Reachable Bandwidth.step Bandwidth.IsInit Capped s) :
    CapKept s := by
  have h : BandwidthInv s :=
    hs.invariant (fun _ => .of_isInit) fun _ _ _ h hok hst => h.step hok hst
  refine ⟨h.tokens_nonneg, h.tokens_le, fun c _ => c.refill.maxBucket_le, ?_, h.amount_le,
    fun i a hpc => ?_⟩
  · have := h.tokens_nonneg
    have := h.taken_le
    omega
  · have ha := h.acquires i
    rw [hpc] at ha
    exact ha rfl

/-- Two threads take from a bucket of 500 tokens, the second in two pieces. -/
theorem capKept_two :
    ∃ s, Run.Reachable Bandwidth.step Bandwidth.IsInit Capped s ∧
      s.acquires 0 = .returned ⟨400, 0, 400⟩ true ∧ s.acquires 1 = .returned ⟨300, 0, 300⟩ true ∧
      s.tokens = 300 ∧ CapKept s := by
  obtain ⟨s, hs, h₀, h₁, htokens⟩ := Run.exists_reachable_of_exec Bandwidth.step
    Bandwidth.IsInit Capped
    (fun s => s.acquires 0 = .returned ⟨400, 0, 400⟩ true ∧
      s.acquires 1 = .returned ⟨300, 0, 300⟩ true ∧ s.tokens = 300)
    (s := ⟨1000, 0, 0, .idle, fun _ => .idle, [], 0⟩)
    ⟨by decide, rfl, rfl, fun _ => rfl, rfl, rfl⟩
    [.tick 10, .tick 1010, .tickLoad, .tickSwap true, .tickLoad, .tickSwap false,
      .acquire 0 400, .acquire 1 300, .check 0 false, .check 1 false, .load 0, .load 1,
      .swap 0 false, .swap 1 false, .check 1 false, .load 1, .tick 2010, .tickLoad,
      .swap 1 false, .tickSwap false, .tickLoad, .tickSwap false, .check 0 false, .check 1 false,
      .load 1, .swap 1 false, .check 1 false]
    (by decide +kernel)
  exact ⟨s, hs, h₀, h₁, htokens, capKept hs⟩

end Cdm
