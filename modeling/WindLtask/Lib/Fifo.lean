import Mathlib.Data.List.Basic

/-!
# Bounded queues

A queue that holds at most `capacity` values, and what a history of calls to it
says: each value comes out once, in the order in which the values went in, and a
call is turned away only when the queue is full or empty.
-/

namespace WindLtask.Lib

variable {A : Type}

/-- A call to a queue together with its answer. -/
inductive FifoEvent (A : Type) where
  | pushed (a : A)
  | full (a : A)
  | popped (a : A)
  | empty
deriving DecidableEq

namespace Fifo

/-- The queue after a call, when the answer is the right one. -/
def apply [DecidableEq A] (capacity : ℕ) (queue : List A) : FifoEvent A → Option (List A)
  | .pushed a => if queue.length < capacity then some (queue ++ [a]) else none
  | .full _ => if queue.length = capacity then some queue else none
  | .popped a => if queue.head? = some a then some queue.tail else none
  | .empty => if queue = [] then some queue else none

/-- The queue after a history of calls, when all answers are right. -/
def replay [DecidableEq A] (capacity : ℕ) (events : List (FifoEvent A)) : Option (List A) :=
  events.foldlM (apply capacity) []

def pushedIn : List (FifoEvent A) → List A
  | [] => []
  | .pushed a :: events => a :: pushedIn events
  | _ :: events => pushedIn events

def poppedIn : List (FifoEvent A) → List A
  | [] => []
  | .popped a :: events => a :: poppedIn events
  | _ :: events => poppedIn events

/-- A history goes on where it stopped. -/
theorem replay_append [DecidableEq A] {capacity : ℕ} {events : List (FifoEvent A)}
    {queue : List A} (before : replay capacity events = some queue)
    (later : List (FifoEvent A)) :
    replay capacity (events ++ later) = later.foldlM (apply capacity) queue := by
  unfold replay at before ⊢
  rw [List.foldlM_append, before]
  rfl

theorem ordered_from [DecidableEq A] {capacity : ℕ} {events : List (FifoEvent A)}
    {queue after : List A} (history : events.foldlM (apply capacity) queue = some after) :
    queue ++ pushedIn events = poppedIn events ++ after := by
  induction events generalizing queue with
  | nil =>
      have same : queue = after := by simpa using history
      simp [pushedIn, poppedIn, same]
  | cons event events ih =>
      rw [List.foldlM_cons] at history
      obtain ⟨next, first, rest⟩ := Option.bind_eq_some_iff.mp history
      have tail := ih rest
      cases event with
      | pushed a =>
          obtain ⟨-, ⟨⟩⟩ := Option.ite_none_right_eq_some.mp first
          simpa [pushedIn, poppedIn] using tail
      | full a =>
          obtain ⟨-, ⟨⟩⟩ := Option.ite_none_right_eq_some.mp first
          simpa [pushedIn, poppedIn] using tail
      | popped a =>
          obtain ⟨head, ⟨⟩⟩ := Option.ite_none_right_eq_some.mp first
          obtain ⟨waiting, rfl⟩ := List.head?_eq_some_iff.mp head
          simpa [pushedIn, poppedIn] using tail
      | empty =>
          obtain ⟨-, ⟨⟩⟩ := Option.ite_none_right_eq_some.mp first
          simpa [pushedIn, poppedIn] using tail

/-- Every value comes out once, in the order in which the values went in. -/
theorem ordered [DecidableEq A] {capacity : ℕ} {events : List (FifoEvent A)} {queue : List A}
    (history : replay capacity events = some queue) :
    pushedIn events = poppedIn events ++ queue := by
  simpa using ordered_from history

end Fifo

end WindLtask.Lib
