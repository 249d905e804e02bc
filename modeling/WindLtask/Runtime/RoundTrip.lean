import Mathlib.Data.List.Range
import WindLtask.Runtime.SeriLaws

/-!
# A message is a copy

`seri_unpack_` on the buffer of `seri_pack`: the arguments come out again, with new
tables for their tables.  The induction is on the levels below `MAX_DEPTH`, and
the two loops of `unpack_table` fill one new table while the tables inside it are
completed.
-/

namespace WindLtask.Runtime

variable {h : LuaHeap}

/-- The tables of this part of the heap lead to no other ones and have no tables as keys. -/
structure Plain (walk : Walk h) (S : ℕ → Prop) : Prop where
  keys : ∀ a, S a → ∀ key ∈ walk.next a, key.Flat
  closed : ∀ a, S a → ∀ key b, h.fields a key = .table b → S b

/-- The tables around a value are on the stack, as copies of those that were packed. -/
def Open (base : ℕ) (ancestor : List ℕ) (stack : List TValue) (positions : ℕ → ℕ)
    (free : ℕ) (origin : ℕ → ℕ) : Prop :=
  ∀ i a, ancestor[i]? = some a → ∃ b, stack[positions i]? = some (.table b) ∧
    base ≤ b ∧ b < free ∧ origin b = a

/-- What reading the copy of a value leaves. -/
structure Reads (h : LuaHeap) (base depth : ℕ) (rb : ReadBlock) (origin : ℕ → ℕ) (rest : Bytes)
    (v v' : TValue) (rb' : ReadBlock) (origin' : ℕ → ℕ) : Prop where
  left : rb'.buffer = rest
  positions : ∀ i, i < depth → rb'.ancestor i = rb.ancestor i
  copies : Copies h base rb.heap rb'.heap origin origin'
  value : v'.via origin' = v
  inside : v'.Inside base rb'.heap.free

/-- Whatever is packed with these levels left is read back. -/
def Readable (walk : Walk h) (S : ℕ → Prop) (base levels : ℕ) : Prop :=
  ∀ ⦃ancestor : List ℕ⦄ ⦃v : TValue⦄ ⦃buffers : List Bytes⦄,
    h.packOne walk levels ancestor v = .ok buffers → (∀ a, v = .table a → S a) →
    ancestor.length + levels = seriDepth → buffers.flatten.length < 2147483648 →
    ∀ (fuel : ℕ) (stack : List TValue) (rb : ReadBlock) (rest : Bytes) (origin : ℕ → ℕ),
      rb.buffer = buffers.flatten ++ rest → buffers.flatten.length < fuel →
      Open base ancestor stack rb.ancestor rb.heap.free origin → base ≤ rb.heap.free →
      ∃ v' rb' origin', unpackOne fuel stack ancestor.length rb = .ok (v', rb') ∧
        Reads h base ancestor.length rb origin rest v v' rb' origin'

theorem Open.after {base : ℕ} {ancestor : List ℕ} {stack : List TValue} {rb rb' : ReadBlock}
    {origin origin' : ℕ → ℕ} {rest : Bytes} {v v' : TValue} {depth : ℕ}
    (is : Open base ancestor stack rb.ancestor rb.heap.free origin)
    (deep : ancestor.length ≤ depth) (reads : Reads h base depth rb origin rest v v' rb' origin') :
    Open base ancestor stack rb'.ancestor rb'.heap.free origin' := by
  intro i a found
  obtain ⟨b, place, low, high, copy⟩ := is i a found
  have below : i < ancestor.length := (List.getElem?_eq_some_iff.mp found).1
  refine ⟨b, ?_, low, Nat.lt_of_lt_of_le high reads.copies.le, ?_⟩
  · rw [reads.positions i (Nat.lt_of_lt_of_le below deep)]
    exact place
  · rw [reads.copies.same b high]
    exact copy

/-- A value that is pushed hides nothing. -/
theorem Open.push {base : ℕ} {ancestor : List ℕ} {stack : List TValue} {positions : ℕ → ℕ}
    {free : ℕ} {origin : ℕ → ℕ} (is : Open base ancestor stack positions free origin)
    (v : TValue) : Open base ancestor (stack ++ [v]) positions free origin := by
  intro i a found
  obtain ⟨b, place, rest⟩ := is i a found
  have below : positions i < stack.length := (List.getElem?_eq_some_iff.mp place).1
  exact ⟨b, by rw [List.getElem?_append_left below, place], rest⟩

/-- The new table is open for what is inside it. -/
theorem Open.enter {base : ℕ} {ancestor : List ℕ} {stack : List TValue} {positions : ℕ → ℕ}
    {g : LuaHeap} {origin : ℕ → ℕ} (is : Open base ancestor stack positions g.free origin)
    (above : base ≤ g.free) (a : ℕ) :
    Open base (ancestor ++ [a]) (stack ++ [.table g.free])
      (Function.update positions ancestor.length stack.length) g.create.free
      (Function.update origin g.free a) := by
  intro i b found
  by_cases last : i = ancestor.length
  · subst last
    obtain rfl : a = b := by simpa using found
    exact ⟨g.free, by simp, above, Nat.lt_succ_self _, by simp⟩
  · have below : i < ancestor.length := by
      have range := (List.getElem?_eq_some_iff.mp found).1
      rw [List.length_append, List.length_singleton] at range
      omega
    rw [List.getElem?_append_left below] at found
    obtain ⟨d, place, low, high, copy⟩ := is.push (.table g.free) i b found
    refine ⟨d, ?_, low, Nat.lt_succ_of_lt high, ?_⟩
    · rw [Function.update_of_ne last]
      exact place
    · rw [Function.update_of_ne (Nat.ne_of_lt high)]
      exact copy

/-! ## Packing several values -/

theorem packAll_cons {one : TValue → Except PackError (List Bytes)} {v : TValue}
    {values : List TValue} {buffers : List Bytes}
    (packed : packAll one (v :: values) = .ok buffers) :
    ∃ first rest, one v = .ok first ∧ packAll one values = .ok rest ∧ buffers = first ++ rest := by
  simp only [packAll] at packed
  cases first : one v with
  | error e => rw [first] at packed; cases packed
  | ok first' =>
      rw [first] at packed
      cases rest : packAll one values with
      | error e => rw [rest] at packed; cases packed
      | ok rest' =>
          rw [rest] at packed
          exact ⟨first', rest', rfl, rfl, (Except.ok.inj packed).symm⟩

theorem packAll_append {one : TValue → Except PackError (List Bytes)} {first second : List TValue}
    {buffers : List Bytes} (packed : packAll one (first ++ second) = .ok buffers) :
    ∃ left right, packAll one first = .ok left ∧ packAll one second = .ok right ∧
      buffers = left ++ right := by
  induction first generalizing buffers with
  | nil => exact ⟨[], buffers, rfl, packed, rfl⟩
  | cons v values ih =>
      obtain ⟨head, rest, own, others, rfl⟩ := packAll_cons packed
      obtain ⟨left, right, packedLeft, packedRight, rfl⟩ := ih others
      refine ⟨head ++ left, right, ?_, packedRight, by rw [List.append_assoc]⟩
      simp only [packAll, own, packedLeft]
      rfl

/-- The packing of a table, piece by piece. -/
theorem packOne_table {walk : Walk h} {levels : ℕ} {ancestor : List ℕ} {a : ℕ}
    {buffers : List Bytes}
    (packed : h.packOne walk (levels + 1) ancestor (.table a) = .ok buffers) :
    (∃ i, refAncestor ancestor a ancestor.length = some i ∧
        buffers = [[combineType typeRef i]]) ∨
      ∃ array hash, refAncestor ancestor a ancestor.length = none ∧
        packAll (h.packOne walk levels (ancestor ++ [a])) (h.arrayPart a (walk.rawlen a)) =
          .ok array ∧
        packAll (h.packOne walk levels (ancestor ++ [a])) (h.hashPart walk a (walk.rawlen a)) =
          .ok hash ∧
        buffers = LuaHeap.tableHeader (walk.rawlen a) ++ array ++ hash ++
          [[UInt8.ofNat typeNil]] := by
  simp only [LuaHeap.packOne] at packed
  cases found : refAncestor ancestor a ancestor.length with
  | some i =>
      rw [found] at packed
      exact .inl ⟨i, rfl, (Except.ok.inj packed).symm⟩
  | none =>
      rw [found] at packed
      cases array : packAll (h.packOne walk levels (ancestor ++ [a]))
          (h.arrayPart a (walk.rawlen a)) with
      | error e => simp only [array] at packed; cases packed
      | ok array' =>
          simp only [array] at packed
          cases hash : packAll (h.packOne walk levels (ancestor ++ [a]))
              (h.hashPart walk a (walk.rawlen a)) with
          | error e => rw [hash] at packed; cases packed
          | ok hash' =>
              rw [hash] at packed
              exact .inr ⟨array', hash', rfl, rfl, rfl, (Except.ok.inj packed).symm⟩

/-- Every value takes a byte at least. -/
theorem packOne_length {walk : Walk h} {levels : ℕ} {ancestor : List ℕ} {v : TValue}
    {buffers : List Bytes} (packed : h.packOne walk levels ancestor v = .ok buffers) :
    0 < buffers.flatten.length := by
  cases levels with
  | zero => cases packed
  | succ levels =>
  cases v with
  | integer x =>
      obtain rfl : wbInteger x = buffers := Except.ok.inj packed
      obtain ⟨cookie, data, shape, -⟩ := wbInteger_reads x
      rw [shape]
      exact Nat.succ_pos _
  | string s =>
      obtain rfl : wbString s = buffers := Except.ok.inj packed
      unfold wbString
      split
      · exact Nat.succ_pos _
      · split <;> exact Nat.succ_pos _
  | table a =>
      rcases packOne_table packed with ⟨i, -, rfl⟩ | ⟨array, hash, -, -, -, rfl⟩
      · exact Nat.succ_pos _
      · simp only [List.flatten_append, List.length_append]
        exact Nat.succ_pos _
  | other type id => cases packed
  | _ =>
      rw [← Except.ok.inj packed]
      exact Nat.succ_pos _

/-! ## The loops of `unpack_table` -/

section Loops

variable {walk : Walk h} {S : ℕ → Prop} {base levels : ℕ} {ancestor : List ℕ} {a : ℕ}

/-- The fields of the table `a` that have been read: an array of this size, and these keys. -/
def filled (h : LuaHeap) (a size : ℕ) (keys : List TValue) (key : TValue) : TValue :=
  if LuaHeap.inArray size key = true ∨ key ∈ keys then h.fields a key else .nil

theorem inArray_succ {size : ℕ} (short : size < 2147483647) (key : TValue) :
    LuaHeap.inArray (size + 1) key = true ↔
      LuaHeap.inArray size key = true ∨ key = .integer (BitVec.ofNat 64 (size + 1)) := by
  cases key with
  | integer x =>
      have last : (BitVec.ofNat 64 (size + 1)).toInt = size + 1 := by
        rw [BitVec.toInt_eq_toNat_cond, BitVec.toNat_ofNat]
        omega
      have same : x = BitVec.ofNat 64 (size + 1) ↔ x.toInt = size + 1 := by
        rw [← last]
        exact ⟨fun same => same ▸ rfl, fun same => BitVec.eq_of_toInt_eq same⟩
      simp only [LuaHeap.inArray, decide_eq_true_eq, TValue.integer.injEq, same]
      omega
  | _ => simp [LuaHeap.inArray]

theorem filled_array {size : ℕ} (short : size < 2147483647) :
    Function.update (filled h a size []) (.integer (BitVec.ofNat 64 (size + 1)))
      (h.fields a (.integer (BitVec.ofNat 64 (size + 1)))) = filled h a (size + 1) [] := by
  funext key
  by_cases last : key = .integer (BitVec.ofNat 64 (size + 1))
  · subst last
    simp [filled, inArray_succ short]
  · simp [filled, inArray_succ short, last]

theorem filled_key (size : ℕ) (keys : List TValue) (key : TValue) :
    Function.update (filled h a size keys) key (h.fields a key) =
      filled h a size (keys ++ [key]) := by
  funext other
  by_cases last : other = key
  · subst last
    simp [filled]
  · simp [filled, last]

/-- The state of `unpack_table` in its loops: the table is filled in, and it is open. -/
structure InTable (h : LuaHeap) (base : ℕ) (g : LuaHeap) (origin : ℕ → ℕ) (ancestor : List ℕ)
    (a : ℕ) (stack : List TValue) (positions : ℕ → ℕ) (part : TValue → TValue) (rb : ReadBlock)
    (o : ℕ → ℕ) : Prop where
  filling : Filling h base g origin a part rb.heap o
  isOpen : Open base (ancestor ++ [a]) stack rb.ancestor rb.heap.free o
  kept : ∀ i, i < ancestor.length → rb.ancestor i = positions i

variable {g : LuaHeap} {origin o : ℕ → ℕ} {stack : List TValue} {positions : ℕ → ℕ}
  {part : TValue → TValue} {rb : ReadBlock}

theorem InTable.read {rest : Bytes} {v v' : TValue} {rb' : ReadBlock} {o' : ℕ → ℕ}
    (inside : InTable h base g origin ancestor a stack positions part rb o)
    (reads : Reads h base (ancestor.length + 1) rb o rest v v' rb' o') (key : TValue) :
    InTable h base g origin ancestor a stack positions (Function.update part key v)
      { rb' with heap := rb'.heap.set g.free key v' } o' where
  filling := by
    rw [← reads.value]
    exact (inside.filling.grow reads.copies).set reads.inside key
  isOpen := by
    have deep : (ancestor ++ [a]).length ≤ ancestor.length + 1 := by simp
    have after := inside.isOpen.after deep reads
    exact after
  kept := fun i below =>
    (reads.positions i (Nat.lt_succ_of_lt below)).trans (inside.kept i below)

/-- The loop over the array. -/
theorem arrayLoop_reads (readable : Readable walk S base levels)
    (deep : ancestor.length + (levels + 1) = seriDepth) (closed : Plain walk S) (member : S a)
    (fuel count i : ℕ) {buffers : List Bytes} {rest : Bytes} (short : i + count < 2147483648)
    (packed : packAll (h.packOne walk levels (ancestor ++ [a]))
      ((List.range' i count).map fun j => h.fields a (.integer (BitVec.ofNat 64 (j + 1)))) =
        .ok buffers)
    (size : buffers.flatten.length < 2147483648) (enough : buffers.flatten.length < fuel)
    (starts : rb.buffer = buffers.flatten ++ rest)
    (inside : InTable h base g origin ancestor a stack positions (filled h a i []) rb o) :
    ∃ rb' o', arrayLoop (unpackOne fuel) stack ancestor.length g.free count (i + 1) rb = .ok rb' ∧
      rb'.buffer = rest ∧
      InTable h base g origin ancestor a stack positions (filled h a (i + count) []) rb' o' := by
  induction count generalizing i buffers rb o with
  | zero =>
      obtain rfl : [] = buffers := Except.ok.inj packed
      exact ⟨rb, o, rfl, starts, inside⟩
  | succ count ih =>
      rw [List.range'_succ, List.map_cons] at packed
      obtain ⟨first, others, own, more, rfl⟩ := packAll_cons packed
      simp only [List.flatten_append, List.length_append] at size enough
      have starts' : rb.buffer = first.flatten ++ (others.flatten ++ rest) := by
        rw [starts, List.flatten_append, List.append_assoc]
      obtain ⟨v', rb₁, o₁, found, reads⟩ := readable own
        (fun b field => closed.closed a member _ b field)
        (by rw [List.length_append, List.length_singleton]; omega) (by omega) fuel stack rb _ o
        starts' (by omega) inside.isOpen
        (Nat.le_trans inside.filling.above (Nat.le_of_lt inside.filling.made))
      rw [List.length_append, List.length_singleton] at found reads
      have step := inside.read reads (.integer (BitVec.ofNat 64 (i + 1)))
      rw [filled_array (by omega)] at step
      let rb₂ : ReadBlock :=
        { rb₁ with heap := rb₁.heap.set g.free (.integer (BitVec.ofNat 64 (i + 1))) v' }
      have left₂ : rb₂.buffer = others.flatten ++ rest := reads.left
      obtain ⟨rb', o', loop, left, final⟩ := ih (i + 1) (by omega) more (by omega) (by omega)
        left₂ step
      refine ⟨rb', o', ?_, left, by rwa [Nat.add_right_comm, Nat.add_assoc] at final⟩
      rw [arrayLoop, found]
      exact loop

theorem rawset_eq {key : TValue} (is : key.IsKey) (c : LuaHeap) (b : ℕ) (value : TValue) :
    c.rawset b key value = .ok (c.set b key value) := by
  cases key with
  | number bits =>
      have float : floatKey bits = .float := is
      simp only [LuaHeap.rawset, float]
  | _ => rfl

theorem InTable.push {v : TValue}
    (inside : InTable h base g origin ancestor a stack positions part rb o) :
    Open base (ancestor ++ [a]) (stack ++ [v]) rb.ancestor rb.heap.free o :=
  Open.push inside.isOpen v

/-- The loop over the other fields, up to the `nil` that ends it. -/
theorem hashLoop_reads (readable : Readable walk S base levels)
    (deep : ancestor.length + (levels + 1) = seriDepth) (plain : Plain walk S) (member : S a)
    (fuel turns size : ℕ) (keys done : List TValue) (known : ∀ key ∈ keys, key ∈ walk.next a)
    {buffers : List Bytes} {rest : Bytes} (turn : keys.length < turns)
    (packed : packAll (h.packOne walk levels (ancestor ++ [a]))
      (keys.flatMap fun key => [key, h.fields a key]) = .ok buffers)
    (short : buffers.flatten.length < 2147483648) (enough : buffers.flatten.length + 1 < fuel)
    (starts : rb.buffer = buffers.flatten ++ UInt8.ofNat typeNil :: rest)
    (inside : InTable h base g origin ancestor a stack positions (filled h a size done) rb o) :
    ∃ rb' o', hashLoop (unpackOne fuel) stack ancestor.length g.free turns rb = .ok rb' ∧
      rb'.buffer = rest ∧
      InTable h base g origin ancestor a stack positions (filled h a size (done ++ keys)) rb'
        o' := by
  induction keys generalizing turns done buffers rb o with
  | nil =>
      obtain rfl : [] = buffers := Except.ok.inj packed
      obtain ⟨turns, rfl⟩ : ∃ n, turns = n + 1 := ⟨turns - 1, by simp at turn; omega⟩
      obtain ⟨fuel, rfl⟩ : ∃ n, fuel = n + 1 := ⟨fuel - 1, by omega⟩
      have ends : unpackOne (fuel + 1) stack ancestor.length rb =
          .ok (.nil, { rb with buffer := rest }) := by
        have nothing : 0 < 32 := by decide
        rw [unpackOne_cons fuel stack ancestor.length rb (show typeNil < 8 by decide) nothing rest
          starts]
        rfl
      refine ⟨{ rb with buffer := rest }, o, ?_, rfl, ?_⟩
      · rw [hashLoop, ends]
        rfl
      · rw [List.append_nil]
        exact ⟨inside.filling, inside.isOpen, inside.kept⟩
  | cons key keys ih =>
      obtain ⟨turns, rfl⟩ : ∃ n, turns = n + 1 := ⟨turns - 1, by simp at turn; omega⟩
      rw [List.flatMap_cons] at packed
      obtain ⟨pair, others, packedPair, more, rfl⟩ := packAll_append packed
      obtain ⟨first, second', own, packedSecond, rfl⟩ := packAll_cons packedPair
      obtain ⟨second, none, value, nothing, rfl⟩ := packAll_cons packedSecond
      obtain rfl : [] = none := Except.ok.inj nothing
      have visited := known key List.mem_cons_self
      have flat := plain.keys a member key visited
      have firstLength := packOne_length own
      simp only [List.flatten_append, List.length_append, List.append_nil] at short enough
      have startsKey : rb.buffer = first.flatten ++ (second.flatten ++
          (others.flatten ++ UInt8.ofNat typeNil :: rest)) := by
        rw [starts]
        simp [List.append_assoc]
      obtain ⟨fuel, rfl⟩ : ∃ n, fuel = n + 1 := ⟨fuel - 1, by omega⟩
      have readKey := unpackOne_flat h walk flat own (by omega) fuel stack ancestor.length rb _
        startsKey
      have inside₁ : InTable h base g origin ancestor a stack positions (filled h a size done)
          { rb with buffer := second.flatten ++ (others.flatten ++ UInt8.ofNat typeNil :: rest) }
          o := ⟨inside.filling, inside.isOpen, inside.kept⟩
      obtain ⟨v', rb₂, o₂, found, reads⟩ := readable value
        (fun b field => plain.closed a member _ b field)
        (by rw [List.length_append, List.length_singleton]; omega) (by omega) (fuel + 1)
        (stack ++ [key]) _ _ o rfl (by omega) inside₁.push
        (Nat.le_trans inside.filling.above (Nat.le_of_lt inside.filling.made))
      rw [List.length_append, List.length_singleton] at found reads
      have step := inside₁.read reads key
      rw [filled_key] at step
      have left₂ : ({ rb₂ with heap := rb₂.heap.set g.free key v' } : ReadBlock).buffer =
          others.flatten ++ UInt8.ofNat typeNil :: rest := reads.left
      obtain ⟨rb', o', loop, left, final⟩ := ih turns (done ++ [key])
        (fun other later => known other (List.mem_cons_of_mem _ later))
        (Nat.lt_of_succ_lt_succ turn) more (by omega) (by omega) left₂ step
      rw [List.append_assoc] at final
      refine ⟨rb', o', ?_, left, final⟩
      have notNil : key ≠ .nil := by
        rintro rfl
        exact walk.keys a _ visited
      rw [hashLoop, readKey]
      change (if key = .nil then _ else _) = _
      rw [if_neg notNil, found]
      change (rb₂.heap.rawset g.free key v' >>= _) = _
      rw [rawset_eq (walk.keys a key visited)]
      exact loop

end Loops

/-! ## The round trip -/

section RoundTrip

variable {walk : Walk h} {S : ℕ → Prop} {base levels : ℕ}

/-- All fields of a table are in its array part or in its hash part. -/
theorem filled_all (walk : Walk h) (a size : ℕ) :
    filled h a size ((walk.next a).filter fun key => !LuaHeap.inArray size key) =
      h.fields a := by
  funext key
  unfold filled
  split
  · rfl
  · next other =>
      simp only [List.mem_filter, not_or, not_and, Bool.not_eq_true] at other
      by_cases absent : h.fields a key = .nil
      · exact absent.symm
      · have visited := (walk.visits a key).mpr absent
        have out := other.2 visited
        rw [other.1] at out
        simp at out

theorem filled_none (h : LuaHeap) (a : ℕ) : filled h a 0 [] = fun _ => .nil := by
  funext key
  have none : LuaHeap.inArray 0 key = false := by
    cases key with
    | integer x =>
        simp only [LuaHeap.inArray, decide_eq_false_iff_not, not_and]
        omega
    | _ => rfl
  simp [filled, none]

theorem packAll_length {walk : Walk h} {ancestor : List ℕ} {values : List TValue}
    {buffers : List Bytes}
    (packed : packAll (h.packOne walk levels ancestor) values = .ok buffers) :
    values.length ≤ buffers.flatten.length := by
  induction values generalizing buffers with
  | nil => exact Nat.zero_le _
  | cons v values ih =>
      obtain ⟨first, rest, own, more, rfl⟩ := packAll_cons packed
      have one := packOne_length own
      have others := ih more
      simp only [List.length_cons, List.flatten_append, List.length_append]
      omega

/-- A table that is not an ancestor is read back. -/
theorem table_reads (readable : Readable walk S base levels) (plain : Plain walk S)
    {ancestor : List ℕ} {a : ℕ} (member : S a)
    (deep : ancestor.length + (levels + 1) = seriDepth) {array hash : List Bytes}
    (packedArray : packAll (h.packOne walk levels (ancestor ++ [a]))
      (h.arrayPart a (walk.rawlen a)) = .ok array)
    (packedHash : packAll (h.packOne walk levels (ancestor ++ [a]))
      (h.hashPart walk a (walk.rawlen a)) = .ok hash)
    {fuel : ℕ} {stack : List TValue} {rb : ReadBlock} {rest : Bytes} {origin : ℕ → ℕ}
    (short : ((LuaHeap.tableHeader (walk.rawlen a) ++ array ++ hash ++
      [[UInt8.ofNat typeNil]]).flatten).length < 2147483648)
    (starts : rb.buffer = (LuaHeap.tableHeader (walk.rawlen a) ++ array ++ hash ++
      [[UInt8.ofNat typeNil]]).flatten ++ rest)
    (enough : ((LuaHeap.tableHeader (walk.rawlen a) ++ array ++ hash ++
      [[UInt8.ofNat typeNil]]).flatten).length < fuel + 1)
    (isOpen : Open base ancestor stack rb.ancestor rb.heap.free origin)
    (above : base ≤ rb.heap.free) :
    ∃ v' rb' origin', unpackOne (fuel + 1) stack ancestor.length rb = .ok (v', rb') ∧
      Reads h base ancestor.length rb origin rest (.table a) v' rb' origin' := by
  have elements := packAll_length packedArray
  have pairs := packAll_length packedHash
  have arrayLength : (h.arrayPart a (walk.rawlen a)).length = walk.rawlen a := by
    simp [LuaHeap.arrayPart]
  have hashLength : (h.hashPart walk a (walk.rawlen a)).length =
      2 * ((walk.next a).filter fun key => !LuaHeap.inArray (walk.rawlen a) key).length := by
    simp [LuaHeap.hashPart, List.length_flatMap, Nat.mul_comm]
  simp only [List.flatten_append, List.length_append, List.flatten_singleton,
    List.length_singleton] at short enough
  obtain ⟨cookie, data, shape, small, reads⟩ :=
    tableHeader_reads (show walk.rawlen a < 2147483648 by omega)
  rw [shape, List.length_cons] at short enough
  have startsData : rb.buffer = combineType typeTable cookie ::
      (data ++ (array.flatten ++ (hash.flatten ++ UInt8.ofNat typeNil :: rest))) := by
    rw [starts]
    simp [shape, List.append_assoc]
  have header := unpackOne_cons fuel stack ancestor.length rb (by decide) small _ startsData
  have shallow : ¬ seriDepth ≤ ancestor.length := by omega
  let opened : ReadBlock :=
    { buffer := array.flatten ++ (hash.flatten ++ UInt8.ofNat typeNil :: rest)
      heap := rb.heap.create
      ancestor := Function.update rb.ancestor ancestor.length stack.length }
  have begun : InTable h base rb.heap origin ancestor a (stack ++ [.table rb.heap.free])
      rb.ancestor (filled h a 0 []) opened (Function.update origin rb.heap.free a) := by
    refine ⟨?_, isOpen.enter above a, fun i below => ?_⟩
    · rw [filled_none]
      exact Filling.start above
    · exact Function.update_of_ne (Nat.ne_of_lt below) _ _
  have packedRange : packAll (h.packOne walk levels (ancestor ++ [a]))
      ((List.range' 0 (walk.rawlen a)).map fun j =>
        h.fields a (.integer (BitVec.ofNat 64 (j + 1)))) = .ok array := by
    rw [← List.range_eq_range']
    exact packedArray
  obtain ⟨rb₁, o₁, arrayLoop, left₁, inside₁⟩ := arrayLoop_reads readable deep plain member
    fuel (walk.rawlen a) 0 (by omega) packedRange (by omega) (by omega) rfl begun
  rw [Nat.zero_add] at inside₁
  obtain ⟨rb₂, o₂, hashLoop, left₂, inside₂⟩ := hashLoop_reads readable deep plain member
    fuel fuel (walk.rawlen a)
    ((walk.next a).filter fun key => !LuaHeap.inArray (walk.rawlen a) key) []
    (fun key visited => List.mem_of_mem_filter visited) (by omega) packedHash (by omega)
    (by omega) left₁ inside₁
  rw [List.nil_append, filled_all] at inside₂
  refine ⟨.table rb.heap.free, rb₂, o₂, ?_, left₂, inside₂.kept, inside₂.filling.finish,
    congrArg TValue.table inside₂.filling.here, above, inside₂.filling.made⟩
  rw [header]
  change unpackTable (unpackOne fuel) fuel stack ancestor.length { rb with buffer := _ } cookie = _
  rw [unpackTable, reads]
  change (if seriDepth ≤ ancestor.length then _ else _) = _
  rw [if_neg shallow]
  change (WindLtask.Runtime.arrayLoop (unpackOne fuel) (stack ++ [.table rb.heap.free])
    ancestor.length rb.heap.free (walk.rawlen a) 1 opened >>= _) = _
  rw [arrayLoop]
  change (WindLtask.Runtime.hashLoop (unpackOne fuel) (stack ++ [.table rb.heap.free])
    ancestor.length rb.heap.free fuel rb₁ >>= _) = _
  rw [hashLoop]
  rfl

theorem readable (plain : Plain walk S) (base levels : ℕ) : Readable walk S base levels := by
  induction levels with
  | zero =>
      intro ancestor v buffers packed
      cases packed
  | succ levels ih =>
      intro ancestor v buffers packed member deep short fuel stack rb rest origin starts enough
        isOpen above
      obtain ⟨fuel, rfl⟩ : ∃ n, fuel = n + 1 := ⟨fuel - 1, by omega⟩
      by_cases flat : v.Flat
      · refine ⟨v, { rb with buffer := rest }, origin,
          unpackOne_flat h walk flat packed short fuel stack _ rb rest starts, ?_⟩
        exact ⟨rfl, fun _ _ => rfl, Copies.refl _ _ _ _, flat.via _, flat.inside _ _⟩
      · obtain ⟨a, rfl⟩ : ∃ a, v = .table a := by
          cases v with
          | table a => exact ⟨a, rfl⟩
          | _ => exact absurd trivial flat
        rcases packOne_table packed with
          ⟨i, found, rfl⟩ | ⟨array, hash, -, packedArray, packedHash, rfl⟩
        · -- a reference to a table around the value
          obtain ⟨below, here⟩ := refAncestor_some found
          obtain ⟨b, place, low, high, copy⟩ := isOpen i a here
          refine ⟨.table b, { rb with buffer := rest }, origin, ?_, rfl, fun _ _ => rfl,
            Copies.refl _ _ _ _, congrArg TValue.table copy, low, high⟩
          have small : i < 32 := by
            unfold seriDepth at deep
            omega
          rw [unpackOne_cons fuel stack ancestor.length rb (by decide) small rest starts]
          change (if ancestor.length ≤ i then _ else _) = _
          rw [if_neg (by omega)]
          simp [List.getD_eq_getElem?_getD, place]
        · exact table_reads ih plain (member a rfl) deep packedArray packedHash short starts enough
            isOpen above

end RoundTrip

/-- The tables that the arguments lead to. -/
inductive Reached (h : LuaHeap) (args : List TValue) : ℕ → Prop where
  | arg {a : ℕ} (given : .table a ∈ args) : Reached h args a
  | field {a b : ℕ} {key : TValue} (before : Reached h args a)
      (holds : h.fields a key = .table b) : Reached h args b

end WindLtask.Runtime
