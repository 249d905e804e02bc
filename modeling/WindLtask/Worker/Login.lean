import Mathlib.Data.List.Basic

/-!
# Logging in

`S.player_login` of `service/worker.lua`, with the two places below it where the
bytes of the player id decide whether it returns: the encoding of a string in
`lua-bson`, which takes a leading zero byte for a type mark, and the assertion of
`newstate` that the name is new.
-/

namespace WindLtask

/-- A Lua string. -/
abbrev Bytes : Type := List UInt8

/--
Whether `append_one` of `bson.c` returns for this string.  It raises for a type
mark that is unknown or has the wrong length, and reads outside its buffers for a
regular expression with no zero byte to split it at.
-/
def bsonString : Bytes → Bool
  | 0 :: subtype :: rest =>
      match subtype.toNat with
      | 7 => rest.length = 12
      | 9 => rest.length = 4
      | 17 => rest.length = 8
      | 11 => rest.dropLast.contains 0
      | 5 | 10 | 12 | 13 | 14 | 15 | 127 | 255 => true
      | _ => false
  | _ => true

/-- What the database answers to `find_one`. -/
inductive Found where
  | document
  | nothing
  /-- the call fails for a reason outside the program -/
  | failed

/-- The answers of the database to one login. -/
structure Answers where
  found : Found
  /-- the `insert` call returns, should it be made -/
  inserted : Bool

/--
Whether `S.player_login(pid, addr)` returns.  The state `user@pid` must be new to
`newstate`; every document has an `_id`, so its cell then starts.
-/
def playerLogin (players : List Bytes) (pid : Bytes) (answers : Answers) : Bool :=
  if bsonString pid then
    match answers.found with
    | .document => !players.contains pid
    -- `insert` encodes the same string
    | .nothing => answers.inserted && !players.contains pid
    | .failed => false
  else false

end WindLtask
