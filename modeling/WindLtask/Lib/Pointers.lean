import Mathlib.Logic.Function.Basic

/-!
# Linked tables

A memory of tables whose fields hold scalars or references.  `Reach` says which
location a path of keys leads to; a record of fields is a tree when no location
has two paths.  Memories that agree on what is reachable have the same paths,
so an operation is described by the locations that it may change.
-/

namespace WindLtask.Lib

/-- The value of a field. -/
inductive Slot (L V : Type) where
  | scalar (value : V)
  | ref (loc : L)
  deriving DecidableEq, Repr

/-- The fields of one table. -/
abbrev Record (L K V : Type) : Type := K → Option (Slot L V)

/-- The tables of a memory. -/
abbrev Memory (L K V : Type) : Type := L → Record L K V

variable {L K V : Type}

/-- The path leads from the fields `f` to the location. -/
inductive Reach (m : Memory L K V) : Record L K V → List K → L → Prop where
  | here {f : Record L K V} {k : K} {l : L} (field : f k = some (.ref l)) : Reach m f [k] l
  | step {f : Record L K V} {k : K} {b l : L} {path : List K} (field : f k = some (.ref b))
      (below : Reach m (m b) path l) : Reach m f (k :: path) l

namespace Reach

variable {m m' : Memory L K V} {f f' : Record L K V} {k : K} {path : List K} {b l : L}

theorem path_ne_nil (reach : Reach m f path l) : path ≠ [] := by
  cases reach <;> exact List.cons_ne_nil _ _

/-- A path begins with a field that holds a reference. -/
theorem cons_iff : Reach m f (k :: path) l ↔
    ∃ b, f k = some (.ref b) ∧ (path = [] ∧ l = b ∨ Reach m (m b) path l) := by
  constructor
  · intro reach
    cases reach with
    | here field => exact ⟨l, field, .inl ⟨rfl, rfl⟩⟩
    | step field below => exact ⟨_, field, .inr below⟩
  · rintro ⟨b, field, ⟨rfl, rfl⟩ | below⟩
    · exact .here field
    · exact .step field below

/-- Only the first field of a path matters. -/
theorem congr_field (same : f k = f' k) (reach : Reach m f (k :: path) l) :
    Reach m f' (k :: path) l := by
  rw [cons_iff] at reach ⊢
  rw [← same]
  exact reach

/-- A field with a scalar leads nowhere. -/
theorem update_scalar_iff [DecidableEq K] {key : K} {value : V} :
    Reach m (Function.update f key (some (.scalar value))) (k :: path) l ↔
      k ≠ key ∧ Reach m f (k :: path) l := by
  by_cases same : k = key
  · simp [cons_iff, same]
  · have field : Function.update f key (some (.scalar value)) k = f k :=
      Function.update_of_ne same _ _
    rw [cons_iff, cons_iff, field]
    simp [same]

/-- A field with a reference leads to its table, and further on from there. -/
theorem update_ref_iff [DecidableEq K] {key : K} :
    Reach m (Function.update f key (some (.ref b))) (k :: path) l ↔
      (k = key ∧ (path = [] ∧ l = b ∨ Reach m (m b) path l)) ∨
        (k ≠ key ∧ Reach m f (k :: path) l) := by
  by_cases same : k = key
  · simp [cons_iff, same]
  · have field : Function.update f key (some (.ref b)) k = f k := Function.update_of_ne same _ _
    rw [cons_iff, cons_iff, field]
    simp [same]

end Reach

/-- The memories agree on every location that can be reached from the fields. -/
def Agrees (m m' : Memory L K V) (f : Record L K V) : Prop :=
  ∀ path l, Reach m f path l → m' l = m l

namespace Agrees

variable {m m' : Memory L K V} {f : Record L K V} {k : K} {path : List K} {b l : L}

theorem below (agrees : Agrees m m' f) (field : f k = some (.ref b)) :
    m' b = m b ∧ Agrees m m' (m b) :=
  ⟨agrees [k] b (.here field), fun path l reach => agrees (k :: path) l (.step field reach)⟩

theorem reach (agrees : Agrees m m' f) (reached : Reach m f path l) : Reach m' f path l := by
  induction reached with
  | here field => exact .here field
  | step field _ ih =>
      obtain ⟨same, rest⟩ := agrees.below field
      exact .step field (same.symm ▸ ih rest)

theorem reach_back (agrees : Agrees m m' f) (reached : Reach m' f path l) : Reach m f path l := by
  induction path generalizing f with
  | nil => exact absurd rfl reached.path_ne_nil
  | cons k path ih =>
      obtain ⟨b, field, found⟩ := Reach.cons_iff.mp reached
      obtain ⟨same, rest⟩ := agrees.below field
      refine Reach.cons_iff.mpr ⟨b, field, found.imp_right fun later => ?_⟩
      rw [same] at later
      exact ih rest later

theorem reach_iff (agrees : Agrees m m' f) : Reach m' f path l ↔ Reach m f path l :=
  ⟨agrees.reach_back, agrees.reach⟩

end Agrees

/-- No location has two paths. -/
def IsTree (m : Memory L K V) (f : Record L K V) : Prop :=
  ∀ p q l, Reach m f p l → Reach m f q l → p = q

/-- The table at a location is a tree below it. -/
structure Rooted (m : Memory L K V) (a : L) : Prop where
  tree : IsTree m (m a)
  fresh : ∀ path, ¬ Reach m (m a) path a

variable {m m' : Memory L K V} {f : Record L K V} {a b : L} {k : K}

theorem IsTree.below (tree : IsTree m f) (field : f k = some (.ref b)) : IsTree m (m b) := by
  intro p q l left right
  have same := tree (k :: p) (k :: q) l (.step field left) (.step field right)
  exact List.tail_eq_of_cons_eq same

/-- The tables below a root are rooted themselves. -/
theorem IsTree.rooted (tree : IsTree m f) (field : f k = some (.ref b)) : Rooted m b where
  tree := tree.below field
  fresh := by
    intro path loops
    have same := tree [k] (k :: path) b (.here field) (.step field loops)
    exact loops.path_ne_nil (List.tail_eq_of_cons_eq same).symm

/-- Different fields of a tree lead to different locations. -/
theorem IsTree.apart {k' : K} {p q : List K} {l : L} (tree : IsTree m f)
    (left : Reach m f (k :: p) l) (right : Reach m f (k' :: q) l) : k = k' :=
  List.head_eq_of_cons_eq (tree _ _ _ left right)

theorem IsTree.congr (tree : IsTree m f) (agrees : Agrees m m' f) : IsTree m' f :=
  fun p q l left right => tree p q l (agrees.reach_back left) (agrees.reach_back right)

end WindLtask.Lib
