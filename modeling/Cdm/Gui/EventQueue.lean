import Cdm.Gui.ConnectionEvents

/-!
# The queue of events

`g_queue` of `gui/gui_client.c`, an array that is used in turn: `push_event` and
`gui_client_poll_event`, each under the lock, in any order.

* `eventQueue_dropOldest`: it is a queue that drops its first event to take another one when it
  is full;
* `exists_gone_of_reachable`: so are the events of a client polled, whatever its threads do.
-/

namespace Cdm

open DropOldest (Call)

abbrev EventQueue := RingBuffer GuiClientEvent guiEventQueueCap

/-- Taking the first event, if there is one. -/
def guiClientPollEvent (q : EventQueue) : EventQueue × Option GuiClientEvent :=
  if h : 0 < q.count then (q.pop h, some q.front) else (q, none)

namespace EventQueue

/-- The queue after some calls. -/
def after : EventQueue → List (Call GuiClientEvent) → EventQueue
  | q, [] => q
  | q, .push e :: calls => after (pushEvent q e) calls
  | q, .poll :: calls => after (guiClientPollEvent q).1 calls

/-- What the polls among some calls return. -/
def polls : EventQueue → List (Call GuiClientEvent) → List (Option GuiClientEvent)
  | _, [] => []
  | q, .push e :: calls => polls (pushEvent q e) calls
  | q, .poll :: calls => (guiClientPollEvent q).2 :: polls (guiClientPollEvent q).1 calls

end EventQueue

variable {q : EventQueue}

theorem contents_pushEvent_eq (q : EventQueue) (e : GuiClientEvent) :
    (pushEvent q e).contents = DropOldest.push guiEventQueueCap q.contents e := by
  rw [DropOldest.push, RingBuffer.length_contents]
  by_cases hroom : q.count < guiEventQueueCap
  · rw [if_pos hroom, GuiClient.contents_pushEvent hroom]
  · have hcount : 0 < q.count := Nat.pos_of_ne_zero fun h => hroom (h ▸ by decide)
    rw [if_neg hroom, pushEvent, dif_neg hroom, RingBuffer.contents_push,
      RingBuffer.contents_pop hcount, List.tail_cons]

theorem contents_guiClientPollEvent (q : EventQueue) :
    (guiClientPollEvent q).1.contents = q.contents.tail ∧
      (guiClientPollEvent q).2 = q.contents.head? := by
  rw [guiClientPollEvent]
  by_cases hcount : 0 < q.count
  · rw [dif_pos hcount, RingBuffer.contents_pop hcount]
    exact ⟨rfl, rfl⟩
  · have hnil : q.contents = [] := by
      rw [← List.length_eq_zero_iff, RingBuffer.length_contents]
      exact Nat.eq_zero_of_not_pos hcount
    rw [dif_neg hcount, hnil]
    exact ⟨rfl, rfl⟩

/-- The calls do with the array what they do with the list of its contents. -/
theorem EventQueue.run_eq (q : EventQueue) (calls : List (Call GuiClientEvent)) :
    q.polls calls = DropOldest.polls guiEventQueueCap q.contents calls ∧
      (q.after calls).contents = DropOldest.after guiEventQueueCap q.contents calls := by
  induction calls generalizing q with
  | nil => exact ⟨rfl, rfl⟩
  | cons call calls ih =>
    cases call with
    | push e =>
      rw [EventQueue.polls, EventQueue.after, DropOldest.polls, DropOldest.after,
        ← contents_pushEvent_eq]
      exact ih _
    | poll =>
      obtain ⟨hcontents, hfirst⟩ := contents_guiClientPollEvent q
      obtain ⟨hpolls, hafter⟩ := ih (guiClientPollEvent q).1
      rw [EventQueue.polls, EventQueue.after, DropOldest.polls, DropOldest.after, hpolls, hafter,
        hcontents, hfirst]
      exact ⟨rfl, rfl⟩

/-- From the initial state on, the polls return what those of a queue of at most 512 events
    return that drops its first one to take another. The events that were added are gone or
    are still there, in their order, and those returned are some of those gone. -/
theorem eventQueue_dropOldest (zero : GuiClientEvent) (calls : List (Call GuiClientEvent)) :
    let q : EventQueue := RingBuffer.empty zero (by decide)
    q.polls calls = DropOldest.polls guiEventQueueCap [] calls ∧
      (DropOldest.after guiEventQueueCap [] calls).length ≤ guiEventQueueCap ∧
      ∃ gone, DropOldest.pushed calls = gone ++ DropOldest.after guiEventQueueCap [] calls ∧
        (q.polls calls).reduceOption.Sublist gone := by
  intro q
  obtain ⟨hpolls, -⟩ := q.run_eq calls
  rw [RingBuffer.contents_empty] at hpolls
  refine ⟨hpolls, DropOldest.length_after_le (by decide) (Nat.zero_le _) calls, ?_⟩
  rw [hpolls]
  exact DropOldest.exists_gone guiEventQueueCap [] calls

namespace GuiClient

/-- In every run, the events polled are some of those pushed, in their order, and those that are
    in the queue are the ones pushed last. -/
theorem exists_gone_of_reachable {s : GuiClient}
    (hs : Run.Reachable step IsInit (fun _ _ => True) s) :
    ∃ gone, s.pushed = gone ++ s.queue.contents ∧ s.polled.Sublist gone := by
  refine hs.invariant (I := fun s => ∃ gone, s.pushed = gone ++ s.queue.contents ∧
    s.polled.Sublist gone) ?_ ?_
  · intro s hinit
    exact ⟨[], by rw [hinit.pushed, hinit.contents]; rfl, by rw [hinit.polled]⟩
  · rintro s a s' ⟨gone, hgone, hpolled⟩ - hstep
    rcases step_queue hstep with ⟨h₁, h₂, h₃⟩ | ⟨e, h₁, h₂, h₃⟩ | ⟨hcount, h₁, h₂, h₃⟩
    · exact ⟨gone, by rw [h₁, h₂, hgone], by rw [h₃]; exact hpolled⟩
    · rw [h₁, h₂, h₃, hgone, contents_pushEvent_eq]
      obtain ⟨more, hmore, -⟩ := DropOldest.exists_gone guiEventQueueCap s.queue.contents [.push e]
      refine ⟨gone ++ more, ?_, hpolled.trans (List.sublist_append_left gone more)⟩
      rw [List.append_assoc, List.append_assoc]
      exact congrArg (gone ++ ·) hmore
    · refine ⟨gone ++ [s.queue.front], ?_, ?_⟩
      · rw [h₁, h₂, hgone, RingBuffer.contents_pop hcount, List.append_assoc]
        rfl
      · rw [h₃]
        exact hpolled.append (List.Sublist.refl _)

end GuiClient

end Cdm
