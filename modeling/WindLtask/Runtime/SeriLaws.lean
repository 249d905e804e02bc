import WindLtask.Runtime.Seri

/-!
# What is packed is unpacked

The bytes of each value, and of the values inside a table, are read back: new
tables whose fields are copies of the fields of the old ones, where a reference to
a table around a value has become a reference to the copy of that table.
-/

namespace WindLtask.Runtime

/-! ## Single values -/

theorem combineType_decode {type cookie : ℕ} (kind : type < 8) (small : cookie < 32) :
    (combineType type cookie).toNat &&& 7 = type ∧
      (combineType type cookie).toNat >>> 3 = cookie := by
  have every : ∀ t : Fin 8, ∀ c : Fin 32,
      (combineType t c).toNat &&& 7 = t ∧ (combineType t c).toNat >>> 3 = c := by decide
  exact every ⟨type, kind⟩ ⟨cookie, small⟩

theorem rbRead_append {bytes : Bytes} {sz : ℕ} (length : bytes.length = sz) (rest : Bytes) :
    rbRead (bytes ++ rest) sz = some (bytes, rest) := by
  subst length
  simp [rbRead]

theorem rbRead_cons (byte : UInt8) (rest : Bytes) :
    rbRead (byte :: rest) 1 = some ([byte], rest) :=
  rbRead_append (show [byte].length = 1 from rfl) rest

theorem readNumber_append {bytes : Bytes} {sz : ℕ} (length : bytes.length = sz) (rest : Bytes)
    (line : ℕ) : readNumber (bytes ++ rest) sz line = .ok (ofLittle bytes, rest) := by
  rw [readNumber, rbRead_append length]

/-- A number that fits is read back. -/
theorem readNumber_little {sz n : ℕ} (bound : n < 256 ^ sz) (rest : Bytes) (line : ℕ) :
    readNumber (little sz n ++ rest) sz line = .ok (n, rest) := by
  rw [readNumber_append (length_little sz n), ofLittle_little, Nat.mod_eq_of_lt bound]

theorem toNat_of_toInt {v : BitVec 64} {n : ℕ} (positive : ¬ v.toInt < 0) (bound : v.toInt < n) :
    v.toNat < n := by
  rw [BitVec.toInt_eq_toNat_cond] at positive bound
  have small := v.isLt
  split at positive <;> omega

theorem toNat_lt_pow (v : BitVec 64) : v.toNat < 256 ^ 8 := by
  have small := v.isLt
  omega

/-- `get_integer` reads what `wb_integer` has written. -/
theorem wbInteger_reads (v : BitVec 64) : ∃ cookie data,
    (wbInteger v).flatten = combineType typeNumber cookie :: data ∧ cookie < 32 ∧
      cookie ≠ numberReal ∧ ∀ rest, getInteger (data ++ rest) cookie = .ok (v, rest) := by
  unfold wbInteger
  split
  · next zero =>
      exact ⟨numberZero, [], rfl, by decide, by decide, fun rest => by rw [zero]; rfl⟩
  split
  · refine ⟨numberQword, little 8 v.toNat, by simp, by decide, by decide, fun rest => ?_⟩
    simp [getInteger, numberQword, numberZero, numberByte, numberWord, numberDword,
      readNumber_little (toNat_lt_pow v)]
  next short =>
  have back : (v.setWidth 32).signExtend 64 = v := (not_not.mp short).symm
  have dword : ∃ cookie data,
      [[combineType typeNumber numberDword], little 4 (v.setWidth 32).toNat].flatten =
        combineType typeNumber cookie :: data ∧ cookie < 32 ∧
      cookie ≠ numberReal ∧ ∀ rest, getInteger (data ++ rest) cookie = .ok (v, rest) := by
    refine ⟨numberDword, little 4 (v.setWidth 32).toNat, by simp, by decide, by decide,
      fun rest => ?_⟩
    have fits : (v.setWidth 32).toNat < 256 ^ 4 := by
      have small := (v.setWidth 32).isLt
      omega
    have word : BitVec.ofNat 32 (v.setWidth 32).toNat = v.setWidth 32 := by
      rw [BitVec.ofNat_toNat, BitVec.setWidth_eq]
    change (readNumber (little 4 (v.setWidth 32).toNat ++ rest) 4 417 >>= fun read =>
      Except.ok ((BitVec.ofNat 32 read.1).signExtend 64, read.2)) = _
    rw [readNumber_little fits]
    change Except.ok ((BitVec.ofNat 32 (v.setWidth 32).toNat).signExtend 64, rest) = _
    rw [word, back]
  split
  · exact dword
  next positive =>
  split
  · next bound =>
      refine ⟨numberByte, little 1 v.toNat, by simp, by decide, by decide, fun rest => ?_⟩
      have fits : v.toNat < 256 ^ 1 := toNat_of_toInt positive bound
      simp [getInteger, numberZero, numberByte, readNumber_little fits]
  split
  · next bound =>
      refine ⟨numberWord, little 2 v.toNat, by simp, by decide, by decide, fun rest => ?_⟩
      have fits : v.toNat < 256 ^ 2 := toNat_of_toInt positive bound
      simp [getInteger, numberZero, numberByte, numberWord, readNumber_little fits]
  · exact dword

theorem getBuffer_append {s : Bytes} (short : s.length < 2147483648) (rest : Bytes) :
    getBuffer (s ++ rest) (BitVec.ofNat 32 s.length) = .ok (.string s, rest) := by
  have small : (BitVec.ofNat 32 s.length).toNat = s.length := by
    rw [BitVec.toNat_ofNat]
    omega
  have positive : ¬ (BitVec.ofNat 32 s.length).toInt < 0 := by
    rw [BitVec.toInt_eq_toNat_cond, small]
    omega
  rw [getBuffer, if_neg positive, small, rbRead_append rfl]

/-! ## Scalars -/

namespace TValue

/-- A value that is not a table. -/
def Flat : TValue → Prop
  | .table _ => False
  | _ => True

end TValue

section Scalar

variable (h : LuaHeap) (walk : Walk h)

/-- What the first byte of a value says is what `push_value` goes by. -/
theorem unpackOne_cons (fuel : ℕ) (stack : List TValue) (depth : ℕ) (rb : ReadBlock)
    {type cookie : ℕ} (kind : type < 8) (small : cookie < 32) (data : Bytes)
    (starts : rb.buffer = combineType type cookie :: data) :
    unpackOne (fuel + 1) stack depth rb =
      pushValue (unpackOne fuel) fuel stack depth { rb with buffer := data } type cookie := by
  obtain ⟨first, second⟩ := combineType_decode kind small
  simp only [unpackOne, starts, rbRead_cons, first, second]

/-- A string is read back, whichever way its length is written. -/
theorem unpackOne_string {s : Bytes} (short : (wbString s).flatten.length < 2147483648)
    (fuel : ℕ) (stack : List TValue) (depth : ℕ) (rb : ReadBlock) (rest : Bytes)
    (starts : rb.buffer = (wbString s).flatten ++ rest) :
    unpackOne (fuel + 1) stack depth rb = .ok (.string s, { rb with buffer := rest }) := by
  unfold wbString at short starts
  split at starts
  · next small =>
      have shape : rb.buffer = combineType typeShortString s.length :: (s ++ rest) := by
        rw [starts]
        by_cases some : 0 < s.length
        · simp [some]
        · obtain rfl : s = [] := by
            rw [← List.length_eq_zero_iff]
            omega
          rfl
      rw [unpackOne_cons fuel stack depth rb (by decide) small _ shape]
      change (getBuffer (s ++ rest) (BitVec.ofNat 32 s.length) >>= fun read =>
        Except.ok (read.1, { rb with buffer := read.2 })) = _
      have bound : s.length < 2147483648 := by
        unfold maxCookie at small
        omega
      rw [getBuffer_append bound]
      rfl
  next large =>
  rw [if_neg large] at short
  split at starts
  · next word =>
      have shape : rb.buffer =
          combineType typeLongString 2 :: (little 2 s.length ++ (s ++ rest)) := by
        simpa using starts
      rw [unpackOne_cons fuel stack depth rb (by decide) (by decide) _ shape]
      change (readNumber (little 2 s.length ++ (s ++ rest)) 2 542 >>= fun number =>
        getBuffer number.2 (BitVec.ofNat 32 number.1) >>= fun read =>
          Except.ok (read.1, { rb with buffer := read.2 })) = _
      have fits : s.length < 256 ^ 2 := word
      rw [readNumber_little fits]
      change (getBuffer (s ++ rest) (BitVec.ofNat 32 s.length) >>= fun read =>
        Except.ok (read.1, { rb with buffer := read.2 })) = _
      have bound : s.length < 2147483648 := by omega
      rw [getBuffer_append bound]
      rfl
  · next long =>
      rw [if_neg long] at short
      have bound : s.length < 2147483648 := by
        simp only [List.flatten_cons, List.flatten_nil, List.length_append, List.length_nil]
          at short
        omega
      have shape : rb.buffer =
          combineType typeLongString 4 :: (little 4 s.length ++ (s ++ rest)) := by
        simpa using starts
      have dword : s.length < 256 ^ 4 := by omega
      rw [unpackOne_cons fuel stack depth rb (by decide) (by decide) _ shape]
      change (readNumber (little 4 s.length ++ (s ++ rest)) 4 553 >>= fun number =>
        getBuffer number.2 (BitVec.ofNat 32 number.1) >>= fun read =>
          Except.ok (read.1, { rb with buffer := read.2 })) = _
      rw [readNumber_little dword]
      change (getBuffer (s ++ rest) (BitVec.ofNat 32 s.length) >>= fun read =>
        Except.ok (read.1, { rb with buffer := read.2 })) = _
      rw [getBuffer_append bound]
      rfl

/-- A scalar is read back, at whatever depth. -/
theorem unpackOne_flat {levels : ℕ} {ancestor : List ℕ} {v : TValue} (flat : v.Flat)
    {buffers : List Bytes} (packed : h.packOne walk levels ancestor v = .ok buffers)
    (short : buffers.flatten.length < 2147483648) (fuel : ℕ) (stack : List TValue) (depth : ℕ)
    (rb : ReadBlock) (rest : Bytes) (starts : rb.buffer = buffers.flatten ++ rest) :
    unpackOne (fuel + 1) stack depth rb = .ok (v, { rb with buffer := rest }) := by
  cases levels with
  | zero => cases packed
  | succ levels =>
  cases v with
  | nil =>
      obtain rfl : [[combineType typeNil 0]] = buffers := Except.ok.inj packed
      rw [unpackOne_cons fuel stack depth rb (by decide) (by decide) rest starts]
      rfl
  | boolean b =>
      obtain rfl : [[combineType typeBoolean (if b then 1 else 0)]] = buffers :=
        Except.ok.inj packed
      rw [unpackOne_cons fuel stack depth rb (by decide) (by cases b <;> decide) rest
        starts]
      cases b <;> rfl
  | integer x =>
      obtain rfl : wbInteger x = buffers := Except.ok.inj packed
      obtain ⟨cookie, data, shape, small, whole, reads⟩ := wbInteger_reads x
      rw [shape, List.cons_append] at starts
      rw [unpackOne_cons fuel stack depth rb (by decide) small _ starts]
      change (if cookie = numberReal then _ else
        getInteger (data ++ rest) cookie >>= fun read =>
          Except.ok (TValue.integer read.1, { rb with buffer := read.2 })) = _
      rw [if_neg whole, reads]
      rfl
  | number bits =>
      obtain rfl : [[combineType typeNumber numberReal], little 8 bits.toNat] = buffers :=
        Except.ok.inj packed
      have starts' : rb.buffer =
          combineType typeNumber numberReal :: (little 8 bits.toNat ++ rest) := by
        simpa using starts
      have back : BitVec.ofNat 64 bits.toNat = bits := by
        rw [BitVec.ofNat_toNat, BitVec.setWidth_eq]
      rw [unpackOne_cons fuel stack depth rb (by decide) (by decide) _ starts']
      change (readNumber (little 8 bits.toNat ++ rest) 8 440 >>= fun read =>
        Except.ok (TValue.number (BitVec.ofNat 64 read.1), { rb with buffer := read.2 })) = _
      rw [readNumber_little (toNat_lt_pow bits)]
      change Except.ok (TValue.number (BitVec.ofNat 64 bits.toNat), { rb with buffer := rest }) = _
      rw [back]
  | string s =>
      obtain rfl : wbString s = buffers := Except.ok.inj packed
      exact unpackOne_string short fuel stack depth rb rest starts
  | lightuserdata p =>
      obtain rfl : [[combineType typeUserdata 0], little 8 p.toNat] = buffers :=
        Except.ok.inj packed
      have starts' : rb.buffer = combineType typeUserdata 0 :: (little 8 p.toNat ++ rest) := by
        simpa using starts
      have back : BitVec.ofNat 64 p.toNat = p := by
        rw [BitVec.ofNat_toNat, BitVec.setWidth_eq]
      rw [unpackOne_cons fuel stack depth rb (by decide) (by decide) _ starts']
      change (readNumber (little 8 p.toNat ++ rest) 8 450 >>= fun read =>
        Except.ok (TValue.lightuserdata (BitVec.ofNat 64 read.1), { rb with buffer := read.2 })) = _
      rw [readNumber_little (toNat_lt_pow p)]
      change Except.ok (TValue.lightuserdata (BitVec.ofNat 64 p.toNat),
        { rb with buffer := rest }) = _
      rw [back]
  | table a => exact flat.elim
  | other type id => cases packed

end Scalar

/-! ## Headers -/

theorem refAncestor_some {ancestor : List ℕ} {a n i : ℕ}
    (found : refAncestor ancestor a n = some i) : i < n ∧ ancestor[i]? = some a := by
  induction n with
  | zero => cases found
  | succ n ih =>
      unfold refAncestor at found
      split at found
      · next here =>
          obtain rfl : n = i := Option.some.inj found
          exact ⟨Nat.lt_succ_self _, here⟩
      · obtain ⟨below, here⟩ := ih found
        exact ⟨Nat.lt_succ_of_lt below, here⟩

/-- The size of an array is read back, in the first byte or behind it. -/
theorem tableHeader_reads {size : ℕ} (short : size < 2147483648) : ∃ cookie data,
    (LuaHeap.tableHeader size).flatten = combineType typeTable cookie :: data ∧ cookie < 32 ∧
      ∀ rest, arraySize (data ++ rest) cookie = .ok (size, rest) := by
  unfold LuaHeap.tableHeader
  split
  · obtain ⟨cookie, data, shape, small, whole, reads⟩ := wbInteger_reads (BitVec.ofNat 64 size)
    refine ⟨maxCookie - 1, combineType typeNumber cookie :: data, by simp [shape], by decide,
      fun rest => ?_⟩
    obtain ⟨first, second⟩ := combineType_decode (show typeNumber < 8 by decide) small
    have back : ((BitVec.ofNat 64 size).setWidth 32).toInt.toNat = size := by
      have low : ((BitVec.ofNat 64 size).setWidth 32).toNat = size := by
        rw [BitVec.toNat_setWidth, BitVec.toNat_ofNat]
        omega
      rw [BitVec.toInt_eq_toNat_cond, low]
      omega
    rw [arraySize, if_pos rfl, List.cons_append, rbRead_cons]
    simp only [first, second]
    rw [if_neg (by simp [whole]), reads]
    change Except.ok (((BitVec.ofNat 64 size).setWidth 32).toInt.toNat, rest) = _
    rw [back]
  · next small =>
      refine ⟨size, [], by simp, ?_, fun rest => ?_⟩
      · unfold maxCookie at small
        omega
      · have other : size ≠ maxCookie - 1 := by omega
        rw [arraySize, if_neg other]
        rfl

/-! ## Copies of tables -/

namespace TValue

/-- The value with a reference to a new table read as one to its original. -/
def via (origin : ℕ → ℕ) : TValue → TValue
  | .table a => .table (origin a)
  | v => v

/-- A reference stays inside a part of the heap. -/
def Inside (low high : ℕ) : TValue → Prop
  | .table a => low ≤ a ∧ a < high
  | _ => True

theorem Inside.mono {low high more : ℕ} {v : TValue} (inside : v.Inside low high)
    (le : high ≤ more) : v.Inside low more := by
  cases v with
  | table a => exact ⟨inside.1, Nat.lt_of_lt_of_le inside.2 le⟩
  | _ => trivial

theorem via_congr {origin origin' : ℕ → ℕ} {low high : ℕ} {v : TValue}
    (inside : v.Inside low high) (same : ∀ a, a < high → origin' a = origin a) :
    v.via origin' = v.via origin := by
  cases v with
  | table a => exact congrArg TValue.table (same a inside.2)
  | _ => rfl

theorem Flat.via {v : TValue} (flat : v.Flat) (origin : ℕ → ℕ) : v.via origin = v := by
  cases v with
  | table a => exact flat.elim
  | _ => rfl

theorem Flat.inside {v : TValue} (flat : v.Flat) (low high : ℕ) : v.Inside low high := by
  cases v with
  | table a => exact flat.elim
  | _ => trivial

end TValue

/--
The heap has grown from `g` to `g'`: the tables of `g` are as they were, and every
field of a new table is a copy of that field of the original of the table.
-/
structure Copies (h : LuaHeap) (base : ℕ) (g g' : LuaHeap) (origin origin' : ℕ → ℕ) : Prop where
  le : g.free ≤ g'.free
  old : ∀ a, a < g.free → g'.fields a = g.fields a
  same : ∀ a, a < g.free → origin' a = origin a
  copy : ∀ a, g.free ≤ a → a < g'.free → ∀ key,
    (g'.fields a key).via origin' = h.fields (origin' a) key
  inside : ∀ a, g.free ≤ a → a < g'.free → ∀ key, (g'.fields a key).Inside base g'.free

theorem Copies.refl (h : LuaHeap) (base : ℕ) (g : LuaHeap) (origin : ℕ → ℕ) :
    Copies h base g g origin origin where
  le := Nat.le_refl _
  old := fun _ _ => rfl
  same := fun _ _ => rfl
  copy := fun a low high => absurd high (by omega)
  inside := fun a low high => absurd high (by omega)

theorem Copies.trans {h : LuaHeap} {base : ℕ} {g₁ g₂ g₃ : LuaHeap} {o₁ o₂ o₃ : ℕ → ℕ}
    (first : Copies h base g₁ g₂ o₁ o₂) (second : Copies h base g₂ g₃ o₂ o₃) :
    Copies h base g₁ g₃ o₁ o₃ where
  le := Nat.le_trans first.le second.le
  old := fun a low => (second.old a (Nat.lt_of_lt_of_le low first.le)).trans (first.old a low)
  same := fun a low => (second.same a (Nat.lt_of_lt_of_le low first.le)).trans (first.same a low)
  copy := by
    intro a low high key
    by_cases early : a < g₂.free
    · rw [second.old a early, second.same a early,
        TValue.via_congr (first.inside a low early key) second.same]
      exact first.copy a low early key
    · exact second.copy a (by omega) high key
  inside := by
    intro a low high key
    by_cases early : a < g₂.free
    · rw [second.old a early]
      exact (first.inside a low early key).mono second.le
    · exact second.inside a (by omega) high key

/--
The new table `g.free`, a copy of `a` under construction: it holds `part`, and the
tables made after it are complete.
-/
structure Filling (h : LuaHeap) (base : ℕ) (g : LuaHeap) (origin : ℕ → ℕ) (a : ℕ)
    (part : TValue → TValue) (c : LuaHeap) (o : ℕ → ℕ) : Prop where
  above : base ≤ g.free
  made : g.free < c.free
  old : ∀ b, b < g.free → c.fields b = g.fields b
  same : ∀ b, b < g.free → o b = origin b
  here : o g.free = a
  part : ∀ key, (c.fields g.free key).via o = part key
  copy : ∀ b, g.free < b → b < c.free → ∀ key, (c.fields b key).via o = h.fields (o b) key
  inside : ∀ b, g.free ≤ b → b < c.free → ∀ key, (c.fields b key).Inside base c.free

namespace Filling

variable {h : LuaHeap} {base : ℕ} {g : LuaHeap} {origin : ℕ → ℕ} {a : ℕ}
  {part : TValue → TValue} {c c' : LuaHeap} {o o' : ℕ → ℕ}

theorem start (above : base ≤ g.free) :
    Filling h base g origin a (fun _ => .nil) g.create (Function.update origin g.free a) where
  above := above
  made := Nat.lt_succ_self _
  old := fun b low => by simp [LuaHeap.create, Nat.ne_of_lt low]
  same := fun b low => by simp [Nat.ne_of_lt low]
  here := by simp
  part := fun key => by simp [LuaHeap.create, TValue.via]
  copy := fun b low high => absurd high (by simp only [LuaHeap.create]; omega)
  inside := by
    intro b low high key
    obtain rfl : b = g.free := by
      simp only [LuaHeap.create] at high
      omega
    simp [LuaHeap.create, TValue.Inside]

theorem grow (filling : Filling h base g origin a part c o) (more : Copies h base c c' o o') :
    Filling h base g origin a part c' o' where
  above := filling.above
  made := Nat.lt_of_lt_of_le filling.made more.le
  old := fun b low =>
    (more.old b (Nat.lt_trans low filling.made)).trans (filling.old b low)
  same := fun b low => (more.same b (Nat.lt_trans low filling.made)).trans (filling.same b low)
  here := (more.same _ filling.made).trans filling.here
  part := by
    intro key
    rw [more.old _ filling.made,
      TValue.via_congr (filling.inside _ (Nat.le_refl _) filling.made key) more.same]
    exact filling.part key
  copy := by
    intro b low high key
    by_cases early : b < c.free
    · rw [more.old b early, more.same b early,
        TValue.via_congr (filling.inside b (Nat.le_of_lt low) early key) more.same]
      exact filling.copy b low early key
    · exact more.copy b (by omega) high key
  inside := by
    intro b low high key
    by_cases early : b < c.free
    · rw [more.old b early]
      exact (filling.inside b low early key).mono more.le
    · exact more.inside b (by omega) high key

theorem set (filling : Filling h base g origin a part c o) {value : TValue}
    (inside : value.Inside base c.free) (key : TValue) :
    Filling h base g origin a (Function.update part key (value.via o))
      (c.set g.free key value) o where
  above := filling.above
  made := filling.made
  old := fun b low => by simpa [LuaHeap.set, Nat.ne_of_lt low] using filling.old b low
  same := filling.same
  here := filling.here
  part := by
    intro other
    by_cases same : other = key
    · simp [LuaHeap.set, same]
    · simpa [LuaHeap.set, same] using filling.part other
  copy := fun b low => by
    simpa [LuaHeap.set, Nat.ne_of_gt low] using filling.copy b low
  inside := by
    intro b low high other
    by_cases here : b = g.free
    · subst here
      by_cases same : other = key
      · simpa [LuaHeap.set, same] using inside
      · simpa [LuaHeap.set, same] using filling.inside _ low high other
    · simpa [LuaHeap.set, here] using filling.inside b low high other

theorem finish (filling : Filling h base g origin a (h.fields a) c o) :
    Copies h base g c origin o where
  le := Nat.le_of_lt filling.made
  old := filling.old
  same := filling.same
  copy := by
    intro b low high key
    by_cases here : b = g.free
    · subst here
      rw [filling.part, filling.here]
    · exact filling.copy b (by omega) high key
  inside := filling.inside

end Filling

end WindLtask.Runtime
