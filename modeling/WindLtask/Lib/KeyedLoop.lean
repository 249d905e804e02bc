import Mathlib.Data.List.Nodup

/-!
# Loops over keyed lists

A loop that visits distinct keys, and whose body at one key touches only the
part of the accumulator that belongs to that key, can be read off key by key.
-/

namespace WindLtask.Lib

variable {σ κ β τ : Type}

/-- The body of a loop changes, at an entry, only the slot of that entry's key. -/
structure KeyLocal (body : σ → κ × β → σ) (slot : σ → κ → τ)
    (update : κ → β → τ → τ) : Prop where
  here : ∀ state key item, slot (body state (key, item)) key = update key item (slot state key)
  elsewhere : ∀ state key item other, other ≠ key →
    slot (body state (key, item)) other = slot state other

namespace KeyLocal

variable {body : σ → κ × β → σ} {slot : σ → κ → τ} {update : κ → β → τ → τ}

/-- A key the loop does not visit keeps its slot. -/
theorem foldl_of_notMem (isLocal : KeyLocal body slot update) (entries : List (κ × β))
    (state : σ) (key : κ) (absent : key ∉ entries.map Prod.fst) :
    slot (entries.foldl body state) key = slot state key := by
  induction entries generalizing state with
  | nil => rfl
  | cons entry rest ih =>
      obtain ⟨other, item⟩ := entry
      simp only [List.map_cons, List.mem_cons, not_or] at absent
      rw [List.foldl_cons, ih _ absent.2, isLocal.elsewhere _ _ _ _ absent.1]

/-- A key the loop visits has its slot updated once, from its initial value. -/
theorem foldl_of_mem (isLocal : KeyLocal body slot update) {entries : List (κ × β)}
    (distinct : (entries.map Prod.fst).Nodup) (state : σ) {key : κ} {item : β}
    (visited : (key, item) ∈ entries) :
    slot (entries.foldl body state) key = update key item (slot state key) := by
  induction entries generalizing state with
  | nil => cases visited
  | cons entry rest ih =>
      rw [List.map_cons, List.nodup_cons] at distinct
      rw [List.foldl_cons]
      rcases List.mem_cons.mp visited with same | later
      · subst same
        rw [isLocal.foldl_of_notMem rest _ key distinct.1, isLocal.here]
      · have apart : key ≠ entry.1 := by
          intro same
          exact distinct.1 (same ▸ List.mem_map_of_mem later)
        rw [ih distinct.2 _ later, isLocal.elsewhere _ _ _ _ apart]

end KeyLocal

end WindLtask.Lib
