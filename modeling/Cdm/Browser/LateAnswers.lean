import Cdm.Browser.Bridge

/-!
# Late answers

The host polls its offers over one connection, and goes on with the next offer where it gives up
reading an answer. The answer may still come, or the rest of it; the host then takes it for that on
the next offer, whose identifier it does not compare.

* `pending_accounted_of_patient`: no request is forgotten if the host gives up reading only where
  the daemon has closed the connection.
* `exists_forgotten`: a late answer may make the host forget a request.
-/

namespace Cdm

namespace NativeHost

/-- The host gives up reading an answer only on a connection that is closed. -/
def Patient (s : Bridge) : BridgeAct → Prop
  | .timeout _ => ∀ q, s.host.bind (·.pc.query?) = some q → q.connected = false
  | _ => True

/-- The host has asked at most for the offer it is at, and what it has yet to read answers that.
    Nothing more is asked for on a closed connection. -/
def HostPc.InStep (offers : List HostOffer) : HostPc → Prop
  | .idle => True
  | .polling _ q => q.connected = true → q.asked = [] ∧ q.answers = [] ∧ q.torn = false
  | .asking i q => q.torn = false ∧ ∀ slot, offers[i]? = some slot →
    q.asked = [slot.offer.offerId] ∧ q.answers = [] ∨
      q.asked = [] ∧ ∃ current, q.answers = [current] ∧
        (current.offerId ≠ 0 → current.offerId = slot.offer.offerId)

def InStep (s : Bridge) : Prop := ∀ h, s.host = some h → h.pc.InStep h.offers

section

variable {s s' : Bridge} {a : BridgeAct}

/-- The next answer is on the offer that the host is at. -/
theorem InStep.inTurn (h : InStep s) : InTurn s a := by
  cases a with
  | receive stray snapshot =>
    rw [InTurn]
    split
    · rename_i offers i q hhost
      obtain ⟨htorn, hslots⟩ := h _ hhost
      refine ⟨htorn, fun current hcurrent slot hslot => ?_⟩
      rcases hslots slot hslot with ⟨-, hnil⟩ | ⟨-, current', hcurrent', hid⟩
      · rw [hnil] at hcurrent
        cases hcurrent
      · rw [hcurrent'] at hcurrent
        cases hcurrent
        exact hid
    · trivial
  | _ => trivial

theorem InStep.withHost {host : Host} {messages : List HostMsg} (h : host.pc.InStep host.offers) :
    InStep (s.withHost host messages) := by
  rintro host' ⟨⟩
  exact h

theorem InStep.lose (h : InStep s) : InStep s.lose := by
  intro host' hhost'
  obtain ⟨⟨offers, pc⟩, hhost, rfl⟩ := Option.map_eq_some_iff.mp hhost'
  have hpc := h _ hhost
  cases pc with
  | idle => exact hpc
  | polling i q => exact fun hconnected => by cases hconnected
  | asking i q => exact hpc

theorem InStep.step (h : InStep s) (hpatient : Patient s a) (hstep : step s a = some s') :
    InStep s' := by
  cases a with
  | post requestId root =>
    cases hstep
    intro host hhost
    simp only [Bridge.post] at hhost
    split_ifs at hhost
    · exact h host hhost
    · cases hhost
      trivial
  | postFails message =>
    cases hstep
    exact h
  | deliver =>
    rw [NativeHost.step] at hstep
    split at hstep <;> cases hstep
    exact h
  | disconnect reason =>
    rw [NativeHost.step] at hstep
    split_ifs at hstep
    cases hstep
    exact h
  | read call =>
    rw [NativeHost.step] at hstep
    split at hstep <;> cases hstep
    rintro host ⟨⟩
    trivial
  | poll connected =>
    rw [NativeHost.step] at hstep
    split at hstep
    · split_ifs at hstep <;> cases hstep
      · exact InStep.withHost fun _ => ⟨rfl, rfl, rfl⟩
      · exact InStep.withHost trivial
      · exact h
    · cases hstep
  | ask =>
    rw [NativeHost.step] at hstep
    split at hstep
    · rename_i offers i q hhost
      have hpc : HostPc.InStep offers (.polling i q) := h _ hhost
      split at hstep
      · cases hstep
        exact InStep.withHost trivial
      · rename_i slot hslot
        split_ifs at hstep with hlive hconnected <;> cases hstep
        · exact InStep.withHost hpc
        · exact InStep.withHost fun htrue => absurd (htrue.symm.trans hconnected) (by decide)
        · -- Nothing is in front of the answer on this offer.
          obtain ⟨hasked, hanswers, htorn⟩ := hpc (Bool.eq_true_of_not_eq_false hconnected)
          refine InStep.withHost ⟨htorn, fun slot' hslot' => .inl ⟨?_, hanswers⟩⟩
          rw [hslot, Option.some_inj] at hslot'
          rw [hasked, hslot', List.nil_append]
    · cases hstep
  | answer now =>
    rw [NativeHost.step] at hstep
    split at hstep
    · rename_i offers pc hhost
      split at hstep
      · rename_i id asked answers torn hq
        cases hstep
        rintro host ⟨⟩
        have hpc := h _ hhost
        cases pc with
        | idle => cases hq
        | polling i q =>
          cases hq
          -- Between two offers nothing has been asked.
          cases (hpc rfl).1
        | asking i q =>
          cases hq
          refine ⟨hpc.1, fun slot hslot => ?_⟩
          rcases hpc.2 slot hslot with ⟨hasked, hanswers⟩ | ⟨hasked, -⟩
          · cases hasked
            cases hanswers
            exact .inr ⟨rfl, _, rfl, fun hne => (handleGetOffer_found hne).1⟩
          · cases hasked
      · cases hstep
    · cases hstep
  | receive stray snapshot =>
    rw [NativeHost.step] at hstep
    split at hstep
    · rename_i offers i q hhost
      split at hstep
      · rename_i slot current q' hslot hnext
        cases hstep
        obtain ⟨htorn, hslots⟩ := h _ hhost
        obtain ⟨answers, hanswers, rfl⟩ := Query.next_eq_some htorn hnext
        refine InStep.withHost fun _ => ?_
        rcases hslots slot hslot with ⟨-, hnil⟩ | ⟨hasked, current', hcurrent, -⟩
        · rw [hnil] at hanswers
          cases hanswers
        · rw [hcurrent] at hanswers
          cases hanswers
          exact ⟨hasked, rfl, htorn⟩
      · cases hstep
    · cases hstep
  | timeout torn =>
    rw [NativeHost.step] at hstep
    rw [Patient] at hpatient
    split at hstep
    · rename_i offers i q hhost
      rw [hhost] at hpatient
      split at hstep
      · cases hstep
      · cases hstep
        -- The connection is closed, so that nothing is asked on it any more.
        exact InStep.withHost fun htrue => absurd (htrue.symm.trans (hpatient q rfl)) (by decide)
    · cases hstep
  | lose =>
    cases hstep
    exact h.lose
  | hostExit =>
    rw [NativeHost.step] at hstep
    split_ifs at hstep
    cases hstep
    exact fun host hhost => by cases hhost
  | daemon a =>
    cases hstep
    exact h
  | restart =>
    cases hstep
    exact h.lose

/-- No request is forgotten as long as the host waits for the answers of a daemon that has not
    closed the connection. -/
theorem pending_accounted_of_patient
    (h : Run.Reachable step (· = .start) (fun s a => Fresh s a ∧ Patient s a) s) :
    ∀ r ∈ s.extension.pending, Accounted s r := by
  have hinv : Inv s ∧ InStep s := by
    refine h.invariant (I := fun s => Inv s ∧ InStep s) (fun s hs => ?_) fun s a s' hs hok hst =>
      ⟨hs.1.step hok.1 hs.2.inTurn hst, hs.2.step hok.2 hst⟩
    rw [hs]
    exact ⟨Inv.start, fun host hhost => by cases hhost⟩
  exact hinv.1.accounted

end

/-- Two archives are registered. The answer on the first comes late, after the host has given it
    up, and is taken for that on the second, whose request is then forgotten: the extension keeps
    it as pending, with nothing on its way and no offer at the host. -/
theorem exists_forgotten :
    ∃ s, Run.Reachable step (· = .start) Fresh s ∧
      ∃ r ∈ s.extension.pending, ¬Accounted s r := by
  obtain ⟨s, hs, hpending, htoHost, htoExtension, host, hhost, hoffers⟩ :=
    Run.exists_reachable_of_exec step (· = .start) Fresh
    (fun s => ['q'] ∈ s.extension.pending ∧ s.toHost.length = 0 ∧ s.toExtension.length = 0 ∧
      ∃ host ∈ s.host, ∀ x ∈ host.offers, x.live = true → x.offer.requestId ≠ ['q']) rfl
    [.post ['r'] (some (archiveMessage ['r'])), .post ['q'] (some (archiveMessage ['q'])),
      .read ⟨true, true, true, true, 0, 0, fun _ => 7, true, true⟩,
      .read ⟨true, true, true, true, 0, 0, fun _ => 8, true, true⟩,
      .poll true, .ask, .timeout false, .ask, .answer 2, .receive .zero none, .deliver, .deliver,
      .deliver]
    (by decide +kernel)
  refine ⟨s, hs, ['q'], hpending, ?_⟩
  rintro (hgone | ⟨m, hm, -⟩ | ⟨host', hhost', x, hx, hlive, hxr⟩ | ⟨m, hm, -⟩)
  · rw [Option.mem_def.mp hhost] at hgone
    cases hgone
  · rw [List.length_eq_zero_iff.mp htoHost] at hm
    cases hm
  · rw [Option.mem_def.mp hhost] at hhost'
    cases hhost'
    exact hoffers x hx hlive hxr
  · rw [List.length_eq_zero_iff.mp htoExtension] at hm
    cases hm

end NativeHost

end Cdm
