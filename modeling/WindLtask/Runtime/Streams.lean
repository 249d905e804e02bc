import WindLtask.Runtime.RoundTrip

/-!
# Streams that are cut off or not well-formed

`seri_unpack_` on bytes that `seri_pack` has not written.  It ends with an error or
with values that are its own; and since what it has read does not depend on what
follows, a message that is cut off never gives all its arguments.
-/

namespace WindLtask.Runtime

/-! ## What follows a value -/

/-- The same reader with more bytes behind. -/
def ReadBlock.more (rb : ReadBlock) (bytes : Bytes) : ReadBlock :=
  { rb with buffer := rb.buffer ++ bytes }

/-- What one reader reads, the other reads too, with more behind. -/
def Follows (one one' : ReadOne) : Prop :=
  ∀ stack depth rb v rb', one stack depth rb = .ok (v, rb') → ∀ bytes,
    one' stack depth (rb.more bytes) = .ok (v, rb'.more bytes)

section Loops

variable {one one' : ReadOne} (follows : Follows one one') (stack : List TValue) (depth a : ℕ)

include follows

end Loops

/-- Tables below `base` are those of `g`, and no other table refers to them. -/
structure Guarded (base : ℕ) (g c : LuaHeap) : Prop where
  above : base ≤ c.free
  old : ∀ a, a < base → c.fields a = g.fields a
  inside : ∀ a, base ≤ a → a < c.free → ∀ key, (c.fields a key).Inside base c.free

namespace Guarded

variable {base : ℕ} {g c : LuaHeap}

theorem create (guarded : Guarded base g c) : Guarded base g c.create where
  above := Nat.le_succ_of_le guarded.above
  old := by
    intro a low
    have other : a ≠ c.free := by
      have above := guarded.above
      omega
    simpa [LuaHeap.create, other] using guarded.old a low
  inside := by
    intro a low high key
    by_cases new : a = c.free
    · simp [LuaHeap.create, new, TValue.Inside]
    · have before : a < c.free := by
        simp only [LuaHeap.create] at high
        omega
      simpa [LuaHeap.create, new] using
        (guarded.inside a low before key).mono (Nat.le_succ c.free)

theorem set (guarded : Guarded base g c) {a : ℕ} (low : base ≤ a) (key : TValue) {value : TValue}
    (inside : value.Inside base c.free) : Guarded base g (c.set a key value) where
  above := guarded.above
  old := by
    intro b below
    have other : b ≠ a := by omega
    simpa [LuaHeap.set, other] using guarded.old b below
  inside := by
    intro b above below other
    by_cases here : b = a
    · subst here
      by_cases same : other = key
      · simpa [LuaHeap.set, same] using inside
      · simpa [LuaHeap.set, same] using guarded.inside b above below other
    · simpa [LuaHeap.set, here] using guarded.inside b above below other

end Guarded

section Any

variable (base : ℕ) (g : LuaHeap)

/-- A reader of a value ends: with an error, or with a value of its own. -/
def Ends (len free : ℕ) : Except UnpackError (TValue × ReadBlock) → Prop
  | .ok (v, rb) => rb.buffer.length < len ∧ Guarded base g rb.heap ∧
      free ≤ rb.heap.free ∧ v.Inside base rb.heap.free
  | .error e => e ≠ .noFuel

/-- The reader ends on every stream of fewer bytes than `n`. -/
def Safe (n : ℕ) (one : ReadOne) : Prop :=
  ∀ stack depth rb, rb.buffer.length < n → Guarded base g rb.heap →
    (∀ v ∈ stack, v.Inside base rb.heap.free) →
      Ends base g rb.buffer.length rb.heap.free (one stack depth rb)

variable {base g} {one : ReadOne} {n : ℕ}

/-- A read that takes from the front of the buffer, or raises. -/
def Spent {α : Type} (len : ℕ) : Except UnpackError (α × Bytes) → Prop
  | .ok (_, rest) => rest.length ≤ len
  | .error e => e ≠ .noFuel

theorem Spent.bind {α β : Type} {len : ℕ} {x : Except UnpackError (α × Bytes)}
    {f : α × Bytes → Except UnpackError (β × Bytes)} (spent : Spent len x)
    (next : ∀ a rest, rest.length ≤ len → Spent len (f (a, rest))) : Spent len (x >>= f) := by
  cases x with
  | error e => exact spent
  | ok read => exact next read.1 read.2 spent

theorem Spent.ends {α : Type} {len bound free : ℕ} {x : Except UnpackError (α × Bytes)}
    {f : α × Bytes → Except UnpackError (TValue × ReadBlock)} (spent : Spent len x)
    (next : ∀ a rest, rest.length ≤ len → Ends base g bound free (f (a, rest))) :
    Ends base g bound free (x >>= f) := by
  cases x with
  | error e => exact spent
  | ok read => exact next read.1 read.2 spent

end Any

end WindLtask.Runtime
