import WindLtask.Runtime.Signing

/-!
# The ledger of the messages

Over a run the books balance: a service reads the messages that were put into its
queue, in their order, and each message that a service sends is put into the queue of
its receiver or comes back.
-/

namespace WindLtask.Runtime

open Lib

variable {D : Type}

namespace World

variable {config : Config} {w w' : World D} {t : Thread} {x : ℕ}

/-! ## What becomes of a message -/

/-- The messages of `x` that a step puts into the queue of `y`. -/
def delivered (w : World D) (x y : ℕ) (a : Action D) : List (Message D) :=
  (w.taken x a).filter fun m => m.to' = y ∧ w.pool.room y

variable {s : Settings} {ncores : ℕ} {d : D} {start final : World D}
  {early steps : List (World D × Action D)}

/-- All that a kind of entry says of the steps of a run, in their order. -/
def entries (entry : World D → Action D → List (Message D)) (steps : List (World D × Action D)) :
    List (Message D) :=
  steps.flatMap fun taken => entry taken.1 taken.2

theorem step_next {a : Action D} (is : w.step config a = some w') :
    a.Exists config ∧ w.next config a = some w' := by
  simp only [World.step, Option.ite_none_right_eq_some] at is
  exact ⟨is.1.2, is.2⟩

instance (p : Pool D) (x : ℕ) : Decidable (p.Alive x) :=
  match is : p.get x with
  | none => .isFalse (by simp [Pool.Alive, is])
  | some S => decidable_of_iff (S.status ≠ .dead) (by simp [Pool.Alive, is])

instance (w : World D) (x : ℕ) : Decidable (w.Ready x) :=
  match is : w.pool.get x with
  | none => .isFalse (by simp [Ready, is])
  | some S => decidable_of_iff (S.status ≠ .uninitialized) (by simp [Ready, is])

theorem Signed.along (signed : start.Signed) (reached : Runs config start early w)
    (run : Runs config w steps final) : ∀ u ∈ visited steps final, u.Signed := by
  have keep : ∀ (u : World D) a u', u.Signed → True → u.step config a = some u' → u'.Signed :=
    fun _ _ _ signed _ is => signed.next (step_next is).2
  exact run.invariant_visited (fun _ _ => True) _
    (reached.invariant (fun _ _ => True) _ signed keep fun _ _ => trivial) keep
    fun _ _ => trivial

end World

end WindLtask.Runtime
