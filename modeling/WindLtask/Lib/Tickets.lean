import Mathlib.Data.Multiset.MapFold
import Mathlib.Data.Multiset.ZeroCons
import Mathlib.Logic.Function.Basic

/-!
# Tickets

Items are handed from holder to holder on tickets.  A ticket names its item and
the kind of its holder, an item has one ticket at most, and the kind tells in what
state the item is.  An item without a ticket rests.  The rules below are the ways
in which tickets and items change together.
-/

namespace WindLtask.Lib

variable {I K S : Type}

structure Ticketed (tells : K → S → Prop) (rests : I → S → Prop) (tickets : Multiset (I × K))
    (state : I → Option S) : Prop where
  single : (tickets.map Prod.fst).Nodup
  held : ∀ x k, (x, k) ∈ tickets → ∃ s, state x = some s ∧ tells k s
  free : ∀ x s, state x = some s → x ∉ tickets.map Prod.fst → rests x s

namespace Ticketed

variable {tells : K → S → Prop} {rests : I → S → Prop} {tickets : Multiset (I × K)}
  {state : I → Option S} {x : I} {k : K} {s s' : S}

/-- The state of the item of a ticket. -/
theorem told (kept : Ticketed tells rests ((x, k) ::ₘ tickets) state) :
    ∃ s, state x = some s ∧ tells k s :=
  kept.held x k (Multiset.mem_cons_self _ _)

theorem other (kept : Ticketed tells rests ((x, k) ::ₘ tickets) state) :
    x ∉ tickets.map Prod.fst := by
  have single := kept.single
  rw [Multiset.map_cons, Multiset.nodup_cons] at single
  exact single.1

theorem single_rest (kept : Ticketed tells rests ((x, k) ::ₘ tickets) state) :
    (tickets.map Prod.fst).Nodup := by
  have single := kept.single
  rw [Multiset.map_cons, Multiset.nodup_cons] at single
  exact single.2

theorem ne_of_mem {y : I} {j : K} (absent : x ∉ tickets.map Prod.fst)
    (member : (y, j) ∈ tickets) : y ≠ x := by
  rintro rfl
  exact absent (Multiset.mem_map_of_mem Prod.fst member)

/-- Less may be asked of the items that rest. -/
theorem weaken {rests' : I → S → Prop} (kept : Ticketed tells rests tickets state)
    (weaker : ∀ x s, state x = some s → x ∉ tickets.map Prod.fst → rests x s → rests' x s) :
    Ticketed tells rests' tickets state where
  single := kept.single
  held := kept.held
  free := fun x s is absent => weaker x s is absent (kept.free x s is absent)

/-- The ticket of an item is replaced by one that tells no more. -/
theorem restand (kept : Ticketed tells rests ((x, k) ::ₘ tickets) state) {k' : K}
    (follows : ∀ s, state x = some s → tells k s → tells k' s) :
    Ticketed tells rests ((x, k') ::ₘ tickets) state where
  single := by
    rw [Multiset.map_cons, Multiset.nodup_cons]
    exact ⟨kept.other, kept.single_rest⟩
  held := by
    intro y j member
    rcases Multiset.mem_cons.mp member with same | member
    · obtain ⟨rfl, rfl⟩ := Prod.mk.inj same
      obtain ⟨s, is, right⟩ := kept.told
      exact ⟨s, is, follows s is right⟩
    · exact kept.held y j (Multiset.mem_cons_of_mem member)
  free := by
    intro y s is absent
    refine kept.free y s is ?_
    rw [Multiset.map_cons, Multiset.mem_cons] at absent ⊢
    exact absent

variable [DecidableEq I]

/-- The ticket of an item is replaced, and the item with it. -/
theorem turn (kept : Ticketed tells rests ((x, k) ::ₘ tickets) state) {k' : K}
    (now : tells k' s') :
    Ticketed tells rests ((x, k') ::ₘ tickets) (Function.update state x (some s')) where
  single := by
    rw [Multiset.map_cons, Multiset.nodup_cons]
    exact ⟨kept.other, kept.single_rest⟩
  held := by
    intro y j member
    rcases Multiset.mem_cons.mp member with same | member
    · obtain ⟨rfl, rfl⟩ := Prod.mk.inj same
      exact ⟨s', Function.update_self _ _ _, now⟩
    · rw [Function.update_of_ne (ne_of_mem kept.other member)]
      exact kept.held y j (Multiset.mem_cons_of_mem member)
  free := by
    intro y s is absent
    rw [Multiset.map_cons, Multiset.mem_cons, not_or] at absent
    rw [Function.update_of_ne absent.1] at is
    refine kept.free y s is ?_
    rw [Multiset.map_cons, Multiset.mem_cons, not_or]
    exact absent

/-- An item that rests gets a ticket. -/
theorem issue (kept : Ticketed tells rests tickets state) (absent : x ∉ tickets.map Prod.fst)
    (now : tells k s') :
    Ticketed tells rests ((x, k) ::ₘ tickets) (Function.update state x (some s')) where
  single := by
    rw [Multiset.map_cons, Multiset.nodup_cons]
    exact ⟨absent, kept.single⟩
  held := by
    intro y j member
    rcases Multiset.mem_cons.mp member with same | member
    · obtain ⟨rfl, rfl⟩ := Prod.mk.inj same
      exact ⟨s', Function.update_self _ _ _, now⟩
    · rw [Function.update_of_ne (ne_of_mem absent member)]
      exact kept.held y j member
  free := by
    intro y s is outside
    rw [Multiset.map_cons, Multiset.mem_cons, not_or] at outside
    rw [Function.update_of_ne outside.1] at is
    exact kept.free y s is outside.2

/-- The ticket of an item is taken away, and the item rests. -/
theorem settle (kept : Ticketed tells rests ((x, k) ::ₘ tickets) state) (now : rests x s') :
    Ticketed tells rests tickets (Function.update state x (some s')) where
  single := kept.single_rest
  held := by
    intro y j member
    rw [Function.update_of_ne (ne_of_mem kept.other member)]
    exact kept.held y j (Multiset.mem_cons_of_mem member)
  free := by
    intro y s is absent
    by_cases same : y = x
    · subst same
      rw [Function.update_self] at is
      exact Option.some.inj is ▸ now
    · rw [Function.update_of_ne same] at is
      refine kept.free y s is ?_
      rw [Multiset.map_cons, Multiset.mem_cons, not_or]
      exact ⟨same, absent⟩

/-- An item and its ticket go away. -/
theorem retire (kept : Ticketed tells rests ((x, k) ::ₘ tickets) state) :
    Ticketed tells rests tickets (Function.update state x none) where
  single := kept.single_rest
  held := by
    intro y j member
    rw [Function.update_of_ne (ne_of_mem kept.other member)]
    exact kept.held y j (Multiset.mem_cons_of_mem member)
  free := by
    intro y s is absent
    have same : y ≠ x := by
      rintro rfl
      rw [Function.update_self] at is
      cases is
    rw [Function.update_of_ne same] at is
    refine kept.free y s is ?_
    rw [Multiset.map_cons, Multiset.mem_cons, not_or]
    exact ⟨same, absent⟩

/-- An item changes in a way that its ticket allows, or its rest. -/
theorem touch {rests' : I → S → Prop} (kept : Ticketed tells rests tickets state)
    (is : state x = some s) (telling : ∀ k, tells k s → tells k s')
    (resting : rests x s → rests' x s') (others : ∀ y u, y ≠ x → rests y u → rests' y u) :
    Ticketed tells rests' tickets (Function.update state x (some s')) where
  single := kept.single
  held := by
    intro y j member
    obtain ⟨u, found, right⟩ := kept.held y j member
    by_cases same : y = x
    · subst same
      have old : s = u := Option.some.inj (is.symm.trans found)
      exact ⟨s', Function.update_self _ _ _, telling j (old ▸ right)⟩
    · rw [Function.update_of_ne same]
      exact ⟨u, found, right⟩
  free := by
    intro y u found absent
    by_cases same : y = x
    · subst same
      rw [Function.update_self] at found
      exact Option.some.inj found ▸ resting (kept.free y s is absent)
    · rw [Function.update_of_ne same] at found
      exact others y u same (kept.free y u found absent)

/-- A new item comes without a ticket. -/
theorem add (kept : Ticketed tells rests tickets state) (is : state x = none)
    (now : rests x s') :
    Ticketed tells rests tickets (Function.update state x (some s')) where
  single := kept.single
  held := by
    intro y j member
    have same : y ≠ x := by
      rintro rfl
      obtain ⟨u, found, -⟩ := kept.held y j member
      rw [is] at found
      cases found
    rw [Function.update_of_ne same]
    exact kept.held y j member
  free := by
    intro y u found absent
    by_cases same : y = x
    · subst same
      rw [Function.update_self] at found
      exact Option.some.inj found ▸ now
    · rw [Function.update_of_ne same] at found
      exact kept.free y u found absent

/-- An item without a ticket goes away. -/
theorem remove (kept : Ticketed tells rests tickets state) (absent : x ∉ tickets.map Prod.fst) :
    Ticketed tells rests tickets (Function.update state x none) where
  single := kept.single
  held := by
    intro y j member
    rw [Function.update_of_ne (ne_of_mem absent member)]
    exact kept.held y j member
  free := by
    intro y u found outside
    have same : y ≠ x := by
      rintro rfl
      rw [Function.update_self] at found
      cases found
    rw [Function.update_of_ne same] at found
    exact kept.free y u found outside

end Ticketed

end WindLtask.Lib
