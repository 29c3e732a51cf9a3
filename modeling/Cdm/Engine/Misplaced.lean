import Cdm.Engine.Progress

/-!
# Answers that ignore the range

A server may ignore the range of a request and send the resource from its first byte.
The callback of a worker has written and counted such bytes, as if they were those of
the range, before the status of the answer is looked at. Nothing takes them back: the
chunk counts bytes that are not those of the resource (`exists_misplaced`).

As long as such an answer goes only to requests from the first byte on (`inPlace`), and
no split wires a slot to the counter of another chunk (`ownCounter`), what a chunk
counts is right at every point of every session (`right_of_inPlace`).
-/

namespace Cdm.Misplaced

variable {R : ℕ → UInt8} {T : UInt64}

/-- The answers to a request for a range: a prefix of the range, or of the resource. -/
def answers (T : UInt64) (r : Range) : Answer → Bool
  | .partialContent len => r.wholeFile = false ∧ r.offset + len ≤ r.last + 1
  | .ok len => len ≤ T.toNat
  | .refused _ => true
  | .other _ _ _ => false

/-- The server: it advertises ranges, and answers a request with a prefix of the range
    or of the resource. -/
def serves (T : UInt64) (s : EngineState) : SessionAct → Bool
  | .engine (.head (some info)) => info = ⟨T, true⟩
  | .engine (.pool (.worker i (.answer a))) =>
    s.poolRun.all fun run => (run.contexts[i]?).all fun c => answers T c.range a
  | .restore => false
  | _ => true

/-- Data of an answer that ignores the range arrives only where it belongs. -/
def inPlace (s : EngineState) : SessionAct → Bool
  | .engine (.pool (.worker i (.data n _))) =>
    s.poolRun.all fun run => (run.contexts[i]?).all fun c =>
      match c.phase with
      | .transfer (.ok _) _ => c.range.offset = 0 || n = 0
      | _ => true
  | _ => true

/-- What arrives in place is right. -/
theorem arrivesRight {run : PoolRun} {i n wrote : ℕ} {s : EngineState}
    (hrun : s.poolRun = some run)
    (h : inPlace s (.engine (.pool (.worker i (.data n wrote)))) = true) :
    ArrivesRight R (fun r a => answers T r a = true) run i n := by
  intro c x hc hph hserved hn k hk
  simp only [inPlace, hrun, Option.all_some, hc, hph] at h
  cases x with
  | partialContent len => simp [Answer.body, WorkerContext.current, Nat.add_assoc]
  | ok len =>
    have hoff : c.range.offset = 0 := by
      simp only [Bool.or_eq_true, decide_eq_true_eq] at h
      omega
    simp [Answer.body, WorkerContext.current, hoff]
  | refused =>
    simp only [Answer.len] at hn
    omega
  | other => simp [answers] at hserved

theorem countsRight {s : EngineState} {a : EngineAct} (hserves : serves T s (.engine a) = true)
    (hplace : inPlace s (.engine a) = true) (hown : ownCounter s (.engine a) = true) :
    CountsRight R (fun r a => answers T r a = true) s a where
  head := by
    rintro info rfl
    simp only [serves, decide_eq_true_eq] at hserves
    rw [hserves]
  answer := by
    rintro run i x c hrun rfl hc
    simpa [serves, hrun, hc] using hserves
  data := by
    rintro run i n wrote hrun rfl
    exact arrivesRight hrun hplace
  split := by
    rintro run i p x hrun rfl hp hv
    simpa [ownCounter, hrun, hp, hv] using hown

/-- What a chunk counts, live or recorded, is right at every point of a session in which
    the answers that ignore the range arrive in place, and every slot has its own
    counter. -/
theorem right_of_inPlace {s : EngineState}
    (hs : SessionReachable R (fun s a => serves T s a = true ∧ inPlace s a = true ∧
      ownCounter s a = true) s)
    {j i : ℕ} {c : DownloadChunk} (hc : s.w.d.chunks[j]? = some c)
    (hi : i < min c.bytesDone c.size ∨ i < min (s.w.d.chunkLiveBytes j) c.size) :
    ∃ f, s.w.disk.file = some f ∧ f.byte (c.rangeStart + i) = R (c.rangeStart + i) := by
  have hinv : CountInv R (fun r a => answers T r a = true) s.w s.pc := by
    refine hs.invariant (I := fun s => CountInv R _ s.w s.pc) (fun _ => .of_fresh)
      fun s a s' h ok hst => h.step hst (fun b hb => ?_) ?_
    · subst hb
      exact countsRight ok.1 ok.2.1 ok.2.2
    · rintro rfl
      simp [serves] at ok
  obtain ⟨hcounted, hflushed⟩ := hinv.counted
  rcases hi with hi | hi
  · exact hflushed j c hc _ (Nat.le_add_right _ _) (by omega)
  · exact hcounted j c hc _ (Nat.le_add_right _ _) (by omega)

/-- A call up to its request for the bytes of a resource of four that are missing, of
    the answer to which `n` arrive. -/
def transferActs (a : Answer) (n : ℕ) : List EngineAct :=
  [.call, .check, .head (some ⟨4, true⟩), .plan ⟨⟨false, false⟩, false, false⟩,
    .pool (.spawn true), .pool (.worker 0 (.answer a)), .pool (.worker 0 (.data n n)),
    .pool (.worker 0 (.finish false)), .join, .flush, .decide false]

/-- After two of four bytes, and after the others. -/
theorem right_of_inPlace_resumed :
    ∃ s, SessionReachable (fun k => UInt8.ofNat k) (fun s a => serves 4 s a = true ∧
        inPlace s a = true ∧ ownCounter s a = true) s ∧
      (∃ c, s.w.d.chunks[0]? = some c ∧ 3 < min c.bytesDone c.size) ∧
      ∃ f, s.w.disk.file = some f ∧ f.byte 3 = 3 := by
  obtain ⟨s, hs, c, hc, hstart, hi⟩ := SessionReachable.of_exec (fun k => UInt8.ofNat k)
    (fun s a => serves 4 s a = true ∧ inPlace s a = true ∧ ownCounter s a = true)
    (fun s => ∃ c ∈ s.w.d.chunks[0]?, c.rangeStart = 0 ∧ 3 < min c.bytesDone c.size)
    ((transferActs (.ok 4) 2 ++ transferActs (.partialContent 2) 2).map .engine) (by decide)
  obtain ⟨f, hf, hbyte⟩ := right_of_inPlace hs hc (.inl hi)
  rw [hstart] at hbyte
  exact ⟨s, hs, ⟨c, hc, hi⟩, f, hf, hbyte⟩

/-- The last two of four bytes are asked for, and answered with the first two. -/
theorem exists_misplaced :
    ∃ s, SessionReachable (fun k => UInt8.ofNat k) (fun s a => serves 4 s a = true) s ∧
      ∃ c, s.w.d.chunks[0]? = some c ∧ 2 < min c.bytesDone c.size ∧
        ∃ f, s.w.disk.file = some f ∧ f.byte (c.rangeStart + 2) ≠ UInt8.ofNat (c.rangeStart + 2) := by
  obtain ⟨s, hs, c, hc, hi, f, hf, hne⟩ := SessionReachable.of_exec (fun k => UInt8.ofNat k)
    (fun s a => serves 4 s a = true)
    (fun s => ∃ c ∈ s.w.d.chunks[0]?, 2 < min c.bytesDone c.size ∧
      ∃ f ∈ s.w.disk.file, f.byte (c.rangeStart + 2) ≠ UInt8.ofNat (c.rangeStart + 2))
    ((transferActs (.partialContent 4) 2 ++ transferActs (.ok 4) 2).map .engine) (by decide)
  exact ⟨s, hs, c, hc, hi, f, hf, hne⟩

end Cdm.Misplaced
