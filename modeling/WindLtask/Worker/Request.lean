import WindLtask.Worker.Login
import WindLtask.Worker.Release

/-!
# Requests of a player

`S.player_request` of `service/worker.lua` with the handlers in its table
`request`, and when it releases the state of the player.  Numbers, `json` and the
clock are parameters; the values are those that JSON and messages can carry,
and what a handler may add to them.
-/

set_option linter.unusedSectionVars false

namespace WindLtask

/-- A Lua value that is neither `nil` nor a table. -/
inductive Scalar (N : Type) where
  | boolean (b : Bool)
  | number (x : N)
  | string (s : Bytes)
  | function (id : Nat)
  | userdata (id : Nat)
  | thread (id : Nat)
  deriving DecidableEq

/-- A table with scalars as keys and leaves. -/
abbrev LuaTable (N : Type) : Type := Table (Scalar N) (Scalar N)

/-- A value other than `nil`. -/
abbrev LuaValue (N : Type) : Type := Value (Scalar N) (Scalar N)

/-- `type` and `pack_one` on Lua scalars. -/
def luaKinds (N : Type) : Kinds (Scalar N) (Scalar N) where
  compared
    | .function _ | .userdata _ => false
    | _ => true
  packed
    | .boolean _ | .number _ | .string _ => true
    | _ => false
  packedKey
    | .boolean _ | .number _ | .string _ => true
    | _ => false

/-- The arithmetic of Lua, `json` and `socket.time`. -/
structure Library (N : Type) where
  integer : Nat → N
  /-- `x - y` -/
  minus : N → N → N
  /-- `x < 0` -/
  negative : N → Bool
  /-- the coercion of a string in arithmetic -/
  toNumber : Bytes → Option N
  /-- `json.decode`: `nil`, a value, or an error -/
  decode : Bytes → Option (Option (LuaValue N))
  /-- `json.encode`: a string, or an error -/
  encode : LuaTable N → Option Bytes
  /-- `socket.time()` -/
  time : N

/--
A function of the table `request`, called with `self` and `params`: the player
as it leaves it, and what it returns unless it raises.
-/
abbrev Handler (N : Type) : Type :=
  Option (LuaTable N) → Option (LuaValue N) → Option (LuaTable N) × Option (Option (LuaValue N))

variable {N : Type} [DecidableEq N]

/-- `x[key]`, or an error; no key that is used here is a name of the string library. -/
def index (key : Scalar N) : Option (LuaValue N) → Option (Option (LuaValue N))
  | some (.table t) => some (t.get key)
  | some (.scalar (.string _)) => some none
  | _ => none

/-- An operand of an arithmetic operator, or an error. -/
def Library.operand (lib : Library N) : Option (LuaValue N) → Option N
  | some (.scalar (.number x)) => some x
  | some (.scalar (.string s)) => lib.toNumber s
  | _ => none

/-! ## The handlers -/

/-- The key `now`. -/
def nowKey : Scalar N := .string [110, 111, 119]

/-- The key `start`. -/
def startKey : Scalar N := .string [115, 116, 97, 114, 116]

/-- The key `gold`. -/
def goldKey : Scalar N := .string [103, 111, 108, 100]

/-- The key `betnum`. -/
def betnumKey : Scalar N := .string [98, 101, 116, 110, 117, 109]

/-- The key `ok`. -/
def okKey : Scalar N := .string [111, 107]

/-- The key `msg`. -/
def msgKey : Scalar N := .string [109, 115, 103]

/-- The bytes of `金币不足`. -/
def goldShort : Bytes := [0xE9, 0x87, 0x91, 0xE5, 0xB8, 0x81, 0xE4, 0xB8, 0x8D, 0xE8, 0xB6, 0xB3]

/-- `request:ping(params)` -/
def ping (lib : Library N) : Handler N := fun self params =>
  (self, do
    let start ← index nowKey params
    let reply : LuaTable N := .scalar nowKey (.number lib.time) .empty
    return some (.table (match start with
      | some start => reply.set startKey start
      | none => reply)))

/-- Whether `dump(t)` returns: it concatenates the keys of a table and of those below it. -/
def dumps : Nat → LuaTable N → Bool
  | 0, _ => true
  | fuel + 1, t => t.pairs.all fun entry =>
      (match entry.1 with
        | .number _ | .string _ => true
        | _ => false) &&
      match entry.2 with
      | .table sub => dumps fuel sub
      | .scalar _ => true

/-- `request:playgame(params)` -/
def playgame (lib : Library N) : Handler N := fun self params =>
  match self with
  -- `self.gold` raises
  | none => (none, none)
  | some p =>
      match lib.operand (p.get goldKey), (index betnumKey params).bind lib.operand with
      | some gold, some betnum =>
          let gold := lib.minus gold betnum
          if lib.negative gold then
            (some p, some (some (.table (.scalar okKey (.boolean false)
              (.scalar msgKey (.string goldShort) .empty)))))
          else
            let p := p.set goldKey (.scalar (.number gold))
            (some p, if dumps (p.depth + 1) p then some (some (.table
              (.scalar okKey (.boolean true) (.scalar goldKey (.number gold) .empty)))) else none)
      | _, _ => (some p, none)

/-- `request:roleinfo()` -/
def roleinfo : Handler N := fun self _ =>
  (self, some (self.map .table))

/-- The table `request`. -/
def request (lib : Library N) : Scalar N → Option (Handler N)
  -- `ping`
  | .string [112, 105, 110, 103] => some (ping lib)
  -- `playgame`
  | .string [112, 108, 97, 121, 103, 97, 109, 101] => some (playgame lib)
  -- `roleinfo`
  | .string [114, 111, 108, 101, 105, 110, 102, 111] => some roleinfo
  | _ => none

/-! ## `player_request` -/

/-- `if r and assert(type(r) == "table") then .. return json.encode(r) end` -/
def response (lib : Library N) : Option (LuaValue N) → Option (Option Bytes)
  | none | some (.scalar (.boolean false)) => some none
  | some (.table r) => (lib.encode r).map some
  | some (.scalar _) => none

/-- `request[name]` -/
def lookup (request : Scalar N → Option (Handler N)) : Option (LuaValue N) → Option (Handler N)
  | some (.scalar name) => request name
  | _ => none

/--
`S.player_request(pid, data)` after its first line: the player as it leaves it,
and the response unless it raises.
-/
def handle (lib : Library N) (request : Scalar N → Option (Handler N)) (data : Bytes)
    (p : Option (LuaTable N)) : Option (LuaTable N) × Option (Option Bytes) :=
  match lib.decode data with
  | none => (p, none)
  | some t =>
      match (index (.number (lib.integer 1)) t).bind (lookup request),
        index (.number (lib.integer 2)) t with
      | some f, some params =>
          let (left, r) := f p params
          (left, r.bind (response lib))
      | _, _ => (p, none)

/-- `"user@"..pid` -/
def user (pid : Bytes) : Bytes := [117, 115, 101, 114, 64] ++ pid

/-- The first table in a list as `f` leaves it. -/
def onFirst (f : Option (LuaTable N) → Option (LuaTable N)) :
    (given : List (LuaTable N)) → {left : List (LuaTable N) // left.length = given.length}
  | [] => ⟨[], rfl⟩
  | p :: rest => ⟨(f (some p)).getD p :: rest, rfl⟩

/-- A lone reply has its own length as its border. -/
theorem isBorder_alone {Addr : Type} (reply : Option Addr) :
    Query.IsBorder [reply] (if reply.isSome then 1 else 0) := by
  cases reply with
  | none => exact ⟨.inl rfl, by simp⟩
  | some addr => exact ⟨.inr ⟨addr, rfl⟩, by simp⟩

section Player

variable {Addr : Type}

/-- What a request meets: the manager's table, the answer of the cell and the worker's caches. -/
structure Meets (Addr N : Type) where
  state : Bytes → Option Addr
  met : Cache Bytes (Scalar N) (Scalar N) × Option (Answer (Scalar N) (Scalar N))
  later : Cache Bytes (Scalar N) (Scalar N)

/-- `S.player_request(pid, data)` from the lock reply on. -/
def playerRequest (lib : Library N) (request : Scalar N → Option (Handler N)) (pid data : Bytes)
    (meets : Meets Addr N) : Scope Bytes Addr (Scalar N) (Scalar N) where
  names := [user pid]
  state := meets.state
  border := if (meets.state (user pid)).isSome then 1 else 0
  isBorder := isBorder_alone _
  met := fun _ => meets.met
  body := fun given =>
    (onFirst (fun p => (handle lib request data p).1) given,
      if (handle lib request data given.head?).2.isSome then .returned else .raised)
  later := meets.later

/-- The table that the query of a request reads. -/
def Meets.player (meets : Meets Addr N) (pid : Bytes) : Option (LuaTable N) :=
  meets.met.2.bind fun answer => (updateState meets.met.1 (user pid) answer).2

/--
The player has a state, its cell answers and the answer can be used, the handler
is found and returns with a response that can be encoded, and its change of the
player can be computed and packed.
-/
structure Handled (lib : Library N) (request : Scalar N → Option (Handler N)) (pid data : Bytes)
    (meets : Meets Addr N) : Prop where
  present : (meets.state (user pid)).isSome
  answered : (meets.player pid).isSome
  returned : ∀ p, meets.player pid = some p → (handle lib request data (some p.clone)).2.isSome
  changed : ∀ p left, meets.player pid = some p →
    left = (handle lib request data (some p.clone)).1.getD p.clone →
    (luaKinds N).diffReturns (p.depth + 1) p left ∧ (luaKinds N).packsChange (ltdiff p left)

theorem playerRequest_read (lib : Library N) (request : Scalar N → Option (Handler N))
    (pid data : Bytes) (meets : Meets Addr N) :
    (playerRequest lib request pid data meets).read 0 = meets.player pid :=
  rfl

theorem playerRequest_olds (lib : Library N) (request : Scalar N → Option (Handler N))
    (pid data : Bytes) (meets : Meets Addr N) :
    (playerRequest lib request pid data meets).olds = (meets.player pid).toList := by
  have read := playerRequest_read lib request pid data meets
  have one : (playerRequest lib request pid data meets).names.length = 1 := rfl
  unfold Scope.olds
  rw [one, List.range_one]
  cases player : meets.player pid with
  | none => simp [read, player]
  | some p => simp [read, player]

theorem playerRequest_lefts (lib : Library N) (request : Scalar N → Option (Handler N))
    (pid data : Bytes) (meets : Meets Addr N) {p : LuaTable N}
    (player : meets.player pid = some p) :
    (playerRequest lib request pid data meets).lefts =
      [(handle lib request data (some p.clone)).1.getD p.clone] := by
  unfold Scope.lefts
  rw [playerRequest_olds, player]
  rfl

theorem playerRequest_orderly_iff (lib : Library N) (request : Scalar N → Option (Handler N))
    (pid data : Bytes) (meets : Meets Addr N) :
    (playerRequest lib request pid data meets).Orderly (luaKinds N) ↔
      Handled lib request pid data meets := by
  have olds := playerRequest_olds lib request pid data meets
  constructor
  · intro orderly
    constructor
    · exact orderly.present (user pid) (List.mem_singleton.mpr rfl)
    · exact orderly.answered 0 Nat.one_pos
    · intro p player
      have returned := orderly.returned
      rw [olds, player] at returned
      by_contra raised
      simp [playerRequest, raised] at returned
    · rintro p left player rfl
      rw [player] at olds
      have lefts := playerRequest_lefts lib request pid data meets player
      constructor
      · exact orderly.plain 0 p _ (by rw [olds]; rfl) (by rw [lefts]; rfl)
      · refine orderly.packs 0 (user pid) p _ rfl (by rw [olds]; rfl) (by rw [lefts]; rfl) ?_
        intro j later same
        have beyond := (List.getElem?_eq_some_iff.mp same).1
        exact absurd beyond (by simp [playerRequest]; omega)
  · intro handled
    obtain ⟨p, player⟩ := Option.isSome_iff_exists.mp handled.answered
    have changed := handled.changed p _ player rfl
    have lefts := playerRequest_lefts lib request pid data meets player
    rw [player] at olds
    have only : ∀ {i : Nat} {old left : LuaTable N},
        (playerRequest lib request pid data meets).olds[i]? = some old →
        (playerRequest lib request pid data meets).lefts[i]? = some left →
        old = p ∧ left = (handle lib request data (some p.clone)).1.getD p.clone := by
      intro i old left atOld atLeft
      rw [olds] at atOld
      rw [lefts] at atLeft
      cases i with
      | zero =>
          exact ⟨(Option.some.inj atOld).symm, (Option.some.inj atLeft).symm⟩
      | succ i => simp at atOld
    constructor
    · exact List.cons_ne_nil _ _
    · intro name member
      rw [List.mem_singleton.mp member]
      exact handled.present
    · intro i less
      obtain rfl : i = 0 := by
        have bound : i < 1 := less
        omega
      exact handled.answered
    · have returned := handled.returned p player
      rw [olds]
      simp [playerRequest, returned]
    · intro i old left atOld atLeft
      obtain ⟨rfl, rfl⟩ := only atOld atLeft
      exact changed.1
    · intro i name old left atName atOld atLeft last
      obtain ⟨rfl, rfl⟩ := only atOld atLeft
      exact changed.2

/--
A granted lock is released by one `unlock` with exactly its names, without a
patch after an error, if and only if its scope is orderly; a request of a player
is orderly when its handler is found and returns with what can be sent.
-/
theorem released_iff_orderly {Name Addr K V : Type} [DecidableEq Name] [DecidableEq K]
    [DecidableEq V] (kinds : Kinds K V) (lib : Library N)
    (request : Scalar N → Option (Handler N)) :
    (∀ s : Scope Name Addr K V, s.Released kinds ↔ s.Orderly kinds) ∧
      ∀ (pid data : Bytes) (meets : Meets Addr N),
        (playerRequest lib request pid data meets).Released (luaKinds N) ↔
          Handled lib request pid data meets :=
  ⟨Scope.released_iff kinds, fun pid data meets =>
    (Scope.released_iff _ _).trans (playerRequest_orderly_iff lib request pid data meets)⟩

/-! ## An empty pack -/

/-- Integers, and a `json.decode` that raises on the empty string. -/
def integers : Library Int where
  integer := Int.ofNat
  minus := Int.sub
  negative x := x < 0
  toNumber _ := none
  decode data := if data = [] then none else some none
  encode _ := some []
  time := 0

/-- The cell 40 holds the player `a`, and the worker reads it for the first time. -/
def meetsPlayer : Meets Nat Int where
  state name := if name = user [97] then some 40 else none
  met := (.empty, some ⟨0, some (.scalar goldKey (.number 50000) .empty), none⟩)
  later := .empty

/-- The request with no bytes ends with an error, and the state of the player stays locked. -/
theorem empty_pack_unreleased :
    (playerRequest integers (request integers) [97] [] meetsPlayer).ending = .raised ∧
      (playerRequest integers (request integers) [97] [] meetsPlayer).unlocks (luaKinds Int) = [] ∧
      ¬ (playerRequest integers (request integers) [97] [] meetsPlayer).Released
        (luaKinds Int) := by
  have silent : (playerRequest integers (request integers) [97] [] meetsPlayer).unlocks
      (luaKinds Int) = [] := by
    decide
  refine ⟨by decide, silent, ?_⟩
  rintro ⟨patchMap, sent, -⟩
  rw [silent] at sent
  exact nomatch sent

end Player

end WindLtask
