import Mathlib.Algebra.Ring.Nat
import WindLtask.Worker.Login

/-!
# Write blocks

`wb_push` and `seri` of `ltask/src/lua-seri.c`: what is packed goes into blocks of
128 bytes, and `seri` joins them behind their length.
-/

namespace WindLtask.Runtime

/-- `BLOCK_SIZE` -/
def blockSize : ℕ := 128

/-- The lowest `k` bytes of a number, as `memcpy` takes them from a little-endian integer. -/
def little : ℕ → ℕ → Bytes
  | 0, _ => []
  | k + 1, n => UInt8.ofNat n :: little k (n / 256)

/-- The number that such bytes stand for. -/
def ofLittle : Bytes → ℕ
  | [] => 0
  | byte :: bytes => byte.toNat + 256 * ofLittle bytes

@[simp] theorem length_little (k n : ℕ) : (little k n).length = k := by
  induction k generalizing n with
  | zero => rfl
  | succ k ih => simp [little, ih]

theorem ofLittle_little (k n : ℕ) : ofLittle (little k n) = n % 256 ^ k := by
  induction k generalizing n with
  | zero => simp [little, ofLittle, Nat.mod_one]
  | succ k ih =>
      have low : (UInt8.ofNat n).toNat = n % 256 := UInt8.toNat_ofNat'
      rw [little, ofLittle, ih, low, Nat.pow_succ', Nat.mod_mul]

/-- The blocks: those before the current one are full, and `ptr` is the length of the last. -/
structure WriteBlock where
  full : List Bytes
  current : Bytes
  len : ℕ
  whole : ∀ block ∈ full, block.length = blockSize
  fits : current.length ≤ blockSize
  counts : len = full.flatten.length + current.length

namespace WriteBlock

/-- `wb_init` -/
def init : WriteBlock where
  full := []
  current := []
  len := 0
  whole := by simp
  fits := by simp
  counts := rfl

/-- `memcpy` behind the current pointer. -/
def put (wb : WriteBlock) (buffer : Bytes)
    (room : wb.current.length + buffer.length ≤ blockSize) : WriteBlock :=
  { wb with
    current := wb.current ++ buffer
    len := wb.len + buffer.length
    fits := by simpa using room
    counts := by rw [wb.counts, List.length_append]; omega }

/-- A new block behind the current one. -/
def alloc (wb : WriteBlock) (filled : wb.current.length = blockSize) : WriteBlock where
  full := wb.full ++ [wb.current]
  current := []
  len := wb.len
  whole := by
    intro block member
    rcases List.mem_append.mp member with old | new
    · exact wb.whole block old
    · obtain rfl : block = wb.current := by simpa using new
      exact filled
  fits := by simp
  counts := by rw [wb.counts]; simp

@[simp] theorem current_alloc (wb : WriteBlock) (filled : wb.current.length = blockSize) :
    (wb.alloc filled).current = [] := rfl

/-- `wb_push` from a block that is still empty. -/
def pushEmpty (wb : WriteBlock) (empty : wb.current = []) (buffer : Bytes) : WriteBlock :=
  if room : buffer.length ≤ blockSize then wb.put buffer (by simpa [empty] using room)
  else
    have copied : wb.current.length + (buffer.take blockSize).length = blockSize := by
      rw [empty, List.length_take, List.length_nil]
      omega
    ((wb.put (buffer.take blockSize) (Nat.le_of_eq copied)).alloc
      (by simpa [put] using copied)).pushEmpty (current_alloc _ _) (buffer.drop blockSize)
termination_by buffer.length
decreasing_by
  rw [List.length_drop]
  unfold blockSize at room ⊢
  omega

/-- `wb_push` -/
def push (wb : WriteBlock) (buffer : Bytes) : WriteBlock :=
  if filled : wb.current.length = blockSize then
    (wb.alloc filled).pushEmpty (current_alloc _ _) buffer
  else if room : wb.current.length + buffer.length ≤ blockSize then wb.put buffer room
  else
    let copy := blockSize - wb.current.length
    have copied : wb.current.length + (buffer.take copy).length = blockSize := by
      have fits := wb.fits
      rw [List.length_take]
      omega
    ((wb.put (buffer.take copy) (Nat.le_of_eq copied)).alloc
      (by simpa [put] using copied)).pushEmpty (current_alloc _ _) (buffer.drop copy)

end WriteBlock

end WindLtask.Runtime
