import Mathlib.Data.List.Basic

/-!
# Frames in a stream

A stream of letters arrives in pieces, and a decoder takes whole frames from the
front of what has arrived.  When a frame that is complete stays the same whatever
follows it, the frames and the remainder depend on the stream alone and not on
its pieces.
-/

namespace WindLtask.Lib

/-- A decoder of one frame. -/
structure Framing (α β : Type) where
  /-- The first frame of a list of letters with what follows it, if there is a whole one. -/
  next : List α → Option (β × List α)
  shorter : ∀ {s rest : List α} {frame : β}, next s = some (frame, rest) → rest.length < s.length
  stable : ∀ {s rest : List α} {frame : β} (more : List α),
    next s = some (frame, rest) → next (s ++ more) = some (frame, rest ++ more)

namespace Framing

variable {α β : Type} (framing : Framing α β)

/-- Take frames until none is whole: the remainder and the frames. -/
def drain (s : List α) : List α × List β :=
  match _found : framing.next s with
  | none => (s, [])
  | some (frame, rest) => ((drain rest).1, frame :: (drain rest).2)
termination_by s.length
decreasing_by all_goals exact framing.shorter _found

variable {framing}

theorem drain_of_none {s : List α} (found : framing.next s = none) :
    framing.drain s = (s, []) := by
  rw [drain]
  split
  · rfl
  · next other => simp [found] at other

theorem drain_of_some {s rest : List α} {frame : β} (found : framing.next s = some (frame, rest)) :
    framing.drain s = ((framing.drain rest).1, frame :: (framing.drain rest).2) := by
  rw [drain]
  split
  · next other => simp [found] at other
  · next other =>
      obtain ⟨rfl, rfl⟩ : frame = _ ∧ rest = _ := by simpa [found] using other
      rfl

variable (framing)

/-- No whole frame is left. -/
@[simp] theorem next_drain (s : List α) : framing.next (framing.drain s).1 = none := by
  fun_induction framing.drain s with
  | case1 s found => exact found
  | case2 s frame rest found ih => exact ih

/-- Draining a piece first changes neither the frames nor the remainder. -/
theorem drain_append (s more : List α) :
    framing.drain (s ++ more) =
      ((framing.drain ((framing.drain s).1 ++ more)).1,
        (framing.drain s).2 ++ (framing.drain ((framing.drain s).1 ++ more)).2) := by
  fun_induction framing.drain s with
  | case1 s found => rfl
  | case2 s frame rest found ih =>
      rw [drain_of_some (framing.stable more found), ih]
      rfl

/-- The pieces one by one, each behind the remainder of those before it. -/
def feed (last : List α) : List (List α) → List α × List β
  | [] => (last, [])
  | piece :: pieces =>
      let drained := framing.drain (last ++ piece)
      let later := feed drained.1 pieces
      (later.1, drained.2 ++ later.2)

/-- The pieces together give the frames of the whole stream. -/
theorem feed_eq_drain (pieces : List (List α)) {last : List α} (partly : framing.next last = none) :
    framing.feed last pieces = framing.drain (last ++ pieces.flatten) := by
  induction pieces generalizing last with
  | nil => simp [feed, drain_of_none partly]
  | cons piece pieces ih =>
      have later := ih (framing.next_drain (last ++ piece))
      rw [List.flatten_cons, ← List.append_assoc, framing.drain_append (last ++ piece), ← later]
      rfl

/-- Frames that are encoded one behind the other are decoded one by one. -/
theorem drain_encode {γ : Type} (encode : γ → List α) (frame : γ → β)
    (decodes : ∀ x rest, framing.next (encode x ++ rest) = some (frame x, rest))
    (xs : List γ) {tail : List α} (partly : framing.next tail = none) :
    framing.drain (xs.flatMap encode ++ tail) = (tail, xs.map frame) := by
  induction xs with
  | nil => exact drain_of_none partly
  | cons x xs ih =>
      rw [List.flatMap_cons, List.append_assoc, drain_of_some (decodes x _), ih]
      rfl

end Framing

end WindLtask.Lib
