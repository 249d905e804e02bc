import WindLtask.Runtime.Blocks

/-!
# Serialization of messages

`ltask/src/lua-seri.c` on a heap of Lua tables: `seri_pack` walks through the
tables of its arguments and refers back to a table that it is inside of;
`seri_unpack_` builds new tables from the bytes.  Integers and floats are the 64
bits of a machine word, and words are little-endian.
-/

namespace WindLtask.Runtime

/-- The types of Lua values that cannot be packed. -/
inductive OtherType where
  | function
  | userdata
  | thread
deriving DecidableEq

/-- A Lua value; a table is a reference into the heap. -/
inductive TValue where
  | nil
  | boolean (b : Bool)
  | integer (x : BitVec 64)
  | number (bits : BitVec 64)
  | string (s : Bytes)
  | lightuserdata (p : BitVec 64)
  | table (id : ℕ)
  | other (type : OtherType) (id : ℕ)
deriving DecidableEq

/-- The fields of every table, and the place of the next table. -/
structure LuaHeap where
  fields : ℕ → TValue → TValue
  free : ℕ

namespace LuaHeap

/-- `lua_createtable` -/
def create (h : LuaHeap) : LuaHeap :=
  { fields := Function.update h.fields h.free fun _ => .nil, free := h.free + 1 }

/-- An assignment to a field, with a key that is neither `nil` nor a float to convert. -/
def set (h : LuaHeap) (a : ℕ) (key value : TValue) : LuaHeap :=
  { h with fields := Function.update h.fields a (Function.update (h.fields a) key value) }

end LuaHeap

/-! ## Keys -/

/-- What a float is as a key of a table. -/
inductive FloatKey where
  | nan
  | whole (x : BitVec 64)
  | float
deriving DecidableEq

/-- The float of these 64 bits as a key: a whole number that fits becomes an integer. -/
def floatKey (bits : BitVec 64) : FloatKey :=
  let exponent := bits.toNat / 2 ^ 52 % 2048
  let fraction := bits.toNat % 2 ^ 52
  let signed (n : ℕ) : FloatKey :=
    if bits.msb then (if n ≤ 2 ^ 63 then .whole (BitVec.ofInt 64 (-(n : Int))) else .float)
    else if n < 2 ^ 63 then .whole (BitVec.ofNat 64 n) else .float
  if exponent = 2047 then (if fraction = 0 then .float else .nan)
  else if exponent = 0 then (if fraction = 0 then .whole 0 else .float)
  else if 1075 ≤ exponent then
    (if exponent ≤ 1086 then signed ((2 ^ 52 + fraction) * 2 ^ (exponent - 1075)) else .float)
  else if 1075 - exponent ≤ 52 ∧ (2 ^ 52 + fraction) % 2 ^ (1075 - exponent) = 0 then
    signed ((2 ^ 52 + fraction) / 2 ^ (1075 - exponent))
  else .float

/-- A value that a table can have as a key. -/
def TValue.IsKey : TValue → Prop
  | .nil => False
  | .number bits => floatKey bits = .float
  | _ => True

/--
How the tables of a heap are walked through: the keys in the order of `lua_next`,
and what `lua_rawlen` answers.
-/
structure Walk (h : LuaHeap) where
  next : ℕ → List TValue
  rawlen : ℕ → ℕ
  visits : ∀ a key, key ∈ next a ↔ h.fields a key ≠ .nil
  once : ∀ a, (next a).Nodup
  keys : ∀ a, ∀ key ∈ next a, key.IsKey

/-! ## Packing -/

def typeNil : ℕ := 0
def typeBoolean : ℕ := 1
def typeNumber : ℕ := 2
def typeUserdata : ℕ := 3
def typeShortString : ℕ := 4
def typeLongString : ℕ := 5
def typeTable : ℕ := 6
def typeRef : ℕ := 7

def numberZero : ℕ := 0
def numberByte : ℕ := 1
def numberWord : ℕ := 2
def numberDword : ℕ := 4
def numberQword : ℕ := 6
def numberReal : ℕ := 8

/-- `MAX_COOKIE` -/
def maxCookie : ℕ := 32

/-- `MAX_DEPTH` -/
def seriDepth : ℕ := 32

/-- `COMBINE_TYPE` -/
def combineType (type cookie : ℕ) : UInt8 := UInt8.ofNat (type ||| (cookie <<< 3))

inductive PackError where
  | tooDepth
  | unsupport (type : OtherType)
deriving DecidableEq

/-- The calls of `wb_push` in `wb_integer`. -/
def wbInteger (v : BitVec 64) : List Bytes :=
  if v = 0 then [[combineType typeNumber numberZero]]
  else if v ≠ (v.setWidth 32).signExtend 64 then
    [[combineType typeNumber numberQword], little 8 v.toNat]
  else if v.toInt < 0 then
    [[combineType typeNumber numberDword], little 4 (v.setWidth 32).toNat]
  else if v.toInt < 0x100 then [[combineType typeNumber numberByte], little 1 v.toNat]
  else if v.toInt < 0x10000 then [[combineType typeNumber numberWord], little 2 v.toNat]
  else [[combineType typeNumber numberDword], little 4 (v.setWidth 32).toNat]

/-- The calls of `wb_push` in `wb_string`. -/
def wbString (s : Bytes) : List Bytes :=
  if s.length < maxCookie then
    [combineType typeShortString s.length] :: if 0 < s.length then [s] else []
  else if s.length < 0x10000 then [[combineType typeLongString 2], little 2 s.length, s]
  else [[combineType typeLongString 4], little 4 s.length, s]

/-- The loop of `ref_ancestor`. -/
def refAncestor (ancestor : List ℕ) (a : ℕ) : ℕ → Option ℕ
  | 0 => none
  | i + 1 => if ancestor[i]? = some a then some i else refAncestor ancestor a i

/-- One value after the other. -/
def packAll (one : TValue → Except PackError (List Bytes)) :
    List TValue → Except PackError (List Bytes)
  | [] => .ok []
  | value :: values => do
      let first ← one value
      let rest ← packAll one values
      return first ++ rest

namespace LuaHeap

variable (h : LuaHeap)

/-- The elements that `wb_table_array` packs. -/
def arrayPart (a size : ℕ) : List TValue :=
  (List.range size).map fun i => h.fields a (.integer (BitVec.ofNat 64 (i + 1)))

/-- A key that `wb_table_hash` leaves out. -/
def inArray (size : ℕ) : TValue → Bool
  | .integer x => 0 < x.toInt ∧ x.toInt ≤ size
  | _ => false

/-- The keys and values that `wb_table_hash` packs. -/
def hashPart (walk : Walk h) (a size : ℕ) : List TValue :=
  ((walk.next a).filter fun key => !inArray size key).flatMap fun key => [key, h.fields a key]

/-- The first bytes of a table, with the length of its array. -/
def tableHeader (size : ℕ) : List Bytes :=
  if maxCookie - 1 ≤ size then
    [combineType typeTable (maxCookie - 1)] :: wbInteger (BitVec.ofNat 64 size)
  else [[combineType typeTable size]]

/-- `pack_one`, `levels` below `MAX_DEPTH` and inside the tables `ancestor`. -/
def packOne (walk : Walk h) : ℕ → List ℕ → TValue → Except PackError (List Bytes)
  | 0, _, _ => .error .tooDepth
  | _ + 1, _, .nil => .ok [[UInt8.ofNat typeNil]]
  | _ + 1, _, .boolean b => .ok [[combineType typeBoolean (if b then 1 else 0)]]
  | _ + 1, _, .integer x => .ok (wbInteger x)
  | _ + 1, _, .number bits => .ok [[combineType typeNumber numberReal], little 8 bits.toNat]
  | _ + 1, _, .string s => .ok (wbString s)
  | _ + 1, _, .lightuserdata p => .ok [[UInt8.ofNat typeUserdata], little 8 p.toNat]
  | _ + 1, _, .other type _ => .error (.unsupport type)
  | levels + 1, ancestor, .table a =>
      match refAncestor ancestor a ancestor.length with
      | some i => .ok [[combineType typeRef i]]
      | none => do
          let size := walk.rawlen a
          let array ← packAll (packOne walk levels (ancestor ++ [a])) (h.arrayPart a size)
          let hash ← packAll (packOne walk levels (ancestor ++ [a])) (h.hashPart walk a size)
          return tableHeader size ++ array ++ hash ++ [[UInt8.ofNat typeNil]]

end LuaHeap

/-! ## Unpacking -/

inductive UnpackError where
  | invalidStream (len line : ℕ)
  | invalidLayer (depth : ℕ)
  | invalidRef (ref depth : ℕ)
  /-- `lua_rawset` with a key that is not a number -/
  | keyIsNaN
  /-- `lua_pushlstring` with a length that is negative as an `int` -/
  | stringTooBig
  /-- the model has run out of fuel -/
  | noFuel
deriving DecidableEq

/-- What is left to read, the heap, and the stack positions of the tables that are open. -/
structure ReadBlock where
  buffer : Bytes
  heap : LuaHeap
  ancestor : ℕ → ℕ

/-- `rb_read` -/
def rbRead (buffer : Bytes) (sz : ℕ) : Option (Bytes × Bytes) :=
  if buffer.length < sz then none else some (buffer.take sz, buffer.drop sz)

/-- Read a number of `sz` bytes. -/
def readNumber (buffer : Bytes) (sz line : ℕ) : Except UnpackError (ℕ × Bytes) :=
  match rbRead buffer sz with
  | none => .error (.invalidStream buffer.length line)
  | some (bytes, rest) => .ok (ofLittle bytes, rest)

def getInteger (buffer : Bytes) (cookie : ℕ) : Except UnpackError (BitVec 64 × Bytes) :=
  if cookie = numberZero then .ok (0, buffer)
  else if cookie = numberByte then do
    let (n, rest) ← readNumber buffer 1 401
    return (BitVec.ofNat 64 n, rest)
  else if cookie = numberWord then do
    let (n, rest) ← readNumber buffer 2 409
    return (BitVec.ofNat 64 n, rest)
  else if cookie = numberDword then do
    let (n, rest) ← readNumber buffer 4 417
    return ((BitVec.ofNat 32 n).signExtend 64, rest)
  else if cookie = numberQword then do
    let (n, rest) ← readNumber buffer 8 425
    return (BitVec.ofNat 64 n, rest)
  else .error (.invalidStream buffer.length 430)

def getBuffer (buffer : Bytes) (len : BitVec 32) : Except UnpackError (TValue × Bytes) :=
  if len.toInt < 0 then .error .stringTooBig
  else
    match rbRead buffer len.toNat with
    | none => .error (.invalidStream buffer.length 460)
    | some (bytes, rest) => .ok (.string bytes, rest)

/-- `lua_rawset` -/
def LuaHeap.rawset (h : LuaHeap) (a : ℕ) (key value : TValue) : Except UnpackError LuaHeap :=
  match key with
  | .number bits =>
      match floatKey bits with
      | .nan => .error .keyIsNaN
      | .whole x => .ok (h.set a (.integer x) value)
      | .float => .ok (h.set a key value)
  | _ => .ok (h.set a key value)

/-- A reader of one value: the stack below it, the depth, and what is read. -/
abbrev ReadOne : Type :=
  List TValue → ℕ → ReadBlock → Except UnpackError (TValue × ReadBlock)

/-- The loop of `unpack_table` over the array of the table `a`, from the element `i` on. -/
def arrayLoop (one : ReadOne) (stack : List TValue) (depth a : ℕ) :
    ℕ → ℕ → ReadBlock → Except UnpackError ReadBlock
  | 0, _, rb => .ok rb
  | count + 1, i, rb => do
      let (value, rb) ← one stack (depth + 1) rb
      arrayLoop one stack depth a count (i + 1)
        { rb with heap := rb.heap.set a (.integer (BitVec.ofNat 64 i)) value }

/-- The loop of `unpack_table` over the other fields. -/
def hashLoop (one : ReadOne) (stack : List TValue) (depth a : ℕ) :
    ℕ → ReadBlock → Except UnpackError ReadBlock
  | 0, _ => .error .noFuel
  | fuel + 1, rb => do
      let (key, rb) ← one stack depth rb
      if key = .nil then return rb
      else
        let (value, rb) ← one (stack ++ [key]) (depth + 1) rb
        let heap ← rb.heap.rawset a key value
        hashLoop one stack depth a fuel { rb with heap := heap }

/-- The number of elements that `unpack_table` reads first. -/
def arraySize (buffer : Bytes) (cookie : ℕ) : Except UnpackError (ℕ × Bytes) :=
  if cookie = maxCookie - 1 then
    match rbRead buffer 1 with
    | some ([type], rest) =>
        let kind := type.toNat >>> 3
        if type.toNat &&& 7 ≠ typeNumber ∨ kind = numberReal then
          .error (.invalidStream rest.length 478)
        else do
          let (n, rest) ← getInteger rest kind
          return ((n.setWidth 32).toInt.toNat, rest)
    | _ => .error (.invalidStream buffer.length 473)
  else .ok (cookie, buffer)

def unpackTable (one : ReadOne) (fuel : ℕ) (stack : List TValue) (depth : ℕ) (rb : ReadBlock)
    (cookie : ℕ) : Except UnpackError (TValue × ReadBlock) := do
  let (size, buffer) ← arraySize rb.buffer cookie
  if seriDepth ≤ depth then .error (.invalidLayer depth)
  else
    let a := rb.heap.free
    let inside := stack ++ [.table a]
    let rb := { rb with
      buffer := buffer
      heap := rb.heap.create
      ancestor := Function.update rb.ancestor depth stack.length }
    let rb ← arrayLoop one inside depth a size 1 rb
    let rb ← hashLoop one inside depth a fuel rb
    return (.table a, rb)

def unpackRef (stack : List TValue) (depth : ℕ) (rb : ReadBlock) (ref : ℕ) :
    Except UnpackError (TValue × ReadBlock) :=
  if depth ≤ ref then .error (.invalidRef ref depth)
  else .ok (stack.getD (rb.ancestor ref) .nil, rb)

/-- `push_value` of a type and a cookie, with `unpack_one` for the values inside a table. -/
def pushValue (one : ReadOne) (fuel : ℕ) (stack : List TValue) (depth : ℕ) (rb : ReadBlock)
    (type cookie : ℕ) : Except UnpackError (TValue × ReadBlock) :=
  if type = typeNil then .ok (.nil, rb)
  else if type = typeBoolean then .ok (.boolean (cookie ≠ 0), rb)
  else if type = typeNumber then
    if cookie = numberReal then do
      let (n, rest) ← readNumber rb.buffer 8 440
      return (.number (BitVec.ofNat 64 n), { rb with buffer := rest })
    else do
      let (x, rest) ← getInteger rb.buffer cookie
      return (.integer x, { rb with buffer := rest })
  else if type = typeUserdata then do
    let (n, rest) ← readNumber rb.buffer 8 450
    return (.lightuserdata (BitVec.ofNat 64 n), { rb with buffer := rest })
  else if type = typeShortString then do
    let (s, rest) ← getBuffer rb.buffer (BitVec.ofNat 32 cookie)
    return (s, { rb with buffer := rest })
  else if type = typeLongString then
    if cookie = 2 then do
      let (n, rest) ← readNumber rb.buffer 2 542
      let (s, rest) ← getBuffer rest (BitVec.ofNat 32 n)
      return (s, { rb with buffer := rest })
    else if cookie ≠ 4 then .error (.invalidStream rb.buffer.length 549)
    else do
      let (n, rest) ← readNumber rb.buffer 4 553
      let (s, rest) ← getBuffer rest (BitVec.ofNat 32 n)
      return (s, { rb with buffer := rest })
  else if type = typeTable then unpackTable one fuel stack depth rb cookie
  else if type = typeRef then unpackRef stack depth rb cookie
  else .error (.invalidStream rb.buffer.length 568)

/-- `unpack_one` -/
def unpackOne : ℕ → ReadOne
  | 0, _, _, _ => .error .noFuel
  | fuel + 1, stack, depth, rb =>
      match rbRead rb.buffer 1 with
      | some ([type], rest) =>
          pushValue (unpackOne fuel) fuel stack depth { rb with buffer := rest }
            (type.toNat &&& 7) (type.toNat >>> 3)
      | _ => .error (.invalidStream rb.buffer.length 578)

end WindLtask.Runtime
