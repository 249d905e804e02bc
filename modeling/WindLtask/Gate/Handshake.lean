import WindLtask.Gate.Gate
import WindLtask.Lib.Framing

/-!
# The login of a client

A client sends the token, its player id and a newline, and then frames.  `recv`
hands the bytes to `on_data` in pieces that TCP has cut as it likes.  Only the
last phase of a connection keeps what is not whole yet; the two phases before it
take each piece for a whole message.
-/

namespace WindLtask.Gate

/-! ## `split` -/

/-- One pass of the loop of `split`. -/
def nextPack : Bytes → Option (Bytes × Bytes)
  | high :: low :: rest =>
      if high.toNat * 256 + low.toNat ≤ rest.length then
        some (rest.take (high.toNat * 256 + low.toNat), rest.drop (high.toNat * 256 + low.toNat))
      else none
  | _ => none

theorem nextPack_eq_some {s pack rest : Bytes} :
    nextPack s = some (pack, rest) ↔
      ∃ high low : UInt8, s = high :: low :: (pack ++ rest) ∧
        pack.length = high.toNat * 256 + low.toNat := by
  constructor
  · intro found
    match s with
    | [] | [_] => simp [nextPack] at found
    | high :: low :: bytes =>
        simp only [nextPack] at found
        split at found
        · next fits =>
            obtain ⟨rfl, rfl⟩ := by simpa using found
            exact ⟨high, low, by rw [List.take_append_drop], List.length_take_of_le fits⟩
        · cases found
  · rintro ⟨high, low, rfl, size⟩
    simp [nextPack, ← size]

/-- The frames of the gate. -/
def framing : Lib.Framing UInt8 Bytes where
  next := nextPack
  shorter found := by
    obtain ⟨high, low, rfl, -⟩ := nextPack_eq_some.mp found
    simp only [List.length_cons, List.length_append]
    omega
  stable more found := by
    obtain ⟨high, low, rfl, size⟩ := nextPack_eq_some.mp found
    exact nextPack_eq_some.mpr ⟨high, low, by simp, size⟩

theorem splitLoop_eq_drain (fuel : Nat) (s : Bytes) (before : List Bytes)
    (enough : s.length ≤ fuel) :
    splitLoop fuel s before = ((framing.drain s).1, before ++ (framing.drain s).2) := by
  induction fuel generalizing s before with
  | zero =>
      have empty : s = [] := List.length_eq_zero_iff.mp (Nat.le_zero.mp enough)
      subst empty
      rw [Lib.Framing.drain_of_none rfl]
      simp [splitLoop]
  | succ fuel ih =>
      match s with
      | [] | [_] =>
          rw [Lib.Framing.drain_of_none rfl]
          simp [splitLoop]
      | high :: low :: rest =>
          by_cases fits : high.toNat * 256 + low.toNat ≤ rest.length
          · have found : framing.next (high :: low :: rest) =
                some (rest.take (high.toNat * 256 + low.toNat),
                  rest.drop (high.toNat * 256 + low.toNat)) := if_pos fits
            rw [Lib.Framing.drain_of_some found]
            simp only [splitLoop, if_pos fits]
            rw [ih _ _ (by simp only [List.length_cons, List.length_drop] at enough ⊢; omega)]
            simp
          · have found : framing.next (high :: low :: rest) = none := if_neg fits
            rw [Lib.Framing.drain_of_none found]
            simp [splitLoop, if_neg fits]

theorem split_eq_drain (s : Bytes) : split s = framing.drain s := by
  rw [split, splitLoop_eq_drain s.length s [] (Nat.le_refl _)]
  rfl

/-- What a client may hand to `string.pack(">s2", s)`. -/
abbrev Payload : Type := { s : Bytes // s.length ≤ 65535 }

/-- `string.pack(">s2", s)` -/
def Payload.pack (s : Payload) : Bytes :=
  UInt8.ofNat (s.val.length / 256) :: UInt8.ofNat (s.val.length % 256) :: s.val

theorem nextPack_pack (s : Payload) (rest : Bytes) :
    nextPack (s.pack ++ rest) = some (s.val, rest) := by
  refine nextPack_eq_some.mpr ⟨_, _, rfl, ?_⟩
  have fits := s.property
  simp only [UInt8.toNat_ofNat']
  omega

/-! ## The three phases -/

/-- What `on_data` brings about for a client. -/
inductive Event where
  /-- it is asked for its player id -/
  | welcome
  | shutdown
  | login (pid : Bytes)
  | request (pid : Option Bytes) (pack : Bytes)
  deriving DecidableEq

/-- What a reaction brings about. -/
def Reaction.events {Addr : Type} : Reaction Addr → List Event
  | .welcome => [.welcome]
  | .shutdown => [.shutdown]
  | .login pid _ => [.login pid]
  | .requests pid packs => packs.map (.request pid)

variable {Fd Addr : Type} [DecidableEq Fd]

/--
`on_data` for the pieces that `recv` returns on one descriptor, each call after
the one before it has returned; `none` when its assertion fails.
-/
def receive (connection : Fd → Option (Conn Addr)) (fd : Fd) :
    List Bytes → Option ((Fd → Option (Conn Addr)) × List Event)
  | [] => some (connection, [])
  | message :: messages =>
      match onData connection fd message with
      | none => none
      -- nothing is received on a socket that is closed
      | some (connection, .shutdown) => some (connection, [.shutdown])
      | some (connection, reaction) =>
          (receive connection fd messages).map fun later =>
            (later.1, reaction.events ++ later.2)

/-- The bytes a client sends. -/
def clientStream (pid : Bytes) (payloads : List Payload) : Bytes :=
  authToken ++ (pid ++ [10]) ++ payloads.flatMap Payload.pack

/-- The client is authenticated, logged in under its own id, and its frames are dispatched. -/
def Served (pid : Bytes) (payloads : List Payload) (addr : Addr) (accept : Nat) (fd : Fd)
    (outcome : Option ((Fd → Option (Conn Addr)) × List Event)) : Prop :=
  ∃ connection, outcome = some (connection,
      .welcome :: .login pid :: payloads.map fun payload => .request (some pid) payload.val) ∧
    connection fd = some ⟨addr, true, true, some pid, [], accept⟩

omit [DecidableEq Fd] in
theorem Served.events {pid : Bytes} {payloads : List Payload} {addr : Addr} {accept : Nat}
    {fd : Fd} {outcome : Option ((Fd → Option (Conn Addr)) × List Event)}
    (served : Served pid payloads addr accept fd outcome) :
    outcome.map Prod.snd = some (.welcome :: .login pid ::
      payloads.map fun payload => .request (some pid) payload.val) := by
  obtain ⟨connection, rfl, -⟩ := served
  rfl

/-- A connection that is logged in keeps what is not a whole frame. -/
theorem receive_of_login (fd : Fd) (messages : List Bytes) {connection : Fd → Option (Conn Addr)}
    {c : Conn Addr} (found : connection fd = some c) (authed : c.authed = true)
    (login : c.login = true) :
    ∃ connection', receive connection fd messages = some (connection',
        (framing.feed c.last messages).2.map (.request c.pid)) ∧
      connection' fd = some { c with last := (framing.feed c.last messages).1 } := by
  induction messages generalizing connection c with
  | nil => exact ⟨connection, rfl, found⟩
  | cons message messages ih =>
      let c' := { c with last := (framing.drain (c.last ++ message)).1 }
      have called : onData connection fd message =
          some (Function.update connection fd (some c'),
            .requests c.pid (framing.drain (c.last ++ message)).2) := by
        simp [onData, found, authed, login, split_eq_drain, c']
      obtain ⟨connection', received, entry⟩ :=
        ih (c := c') (Function.update_self fd (some c') connection) authed login
      refine ⟨connection', ?_, entry⟩
      rw [receive, called]
      simp only [received, Option.map_some, Reaction.events, Lib.Framing.feed, List.map_append]
      rfl

/-- The three phases, for a connection that has just been accepted. -/
theorem receive_of_accept (connection : Fd → Option (Conn Addr)) (fd : Fd) (addr : Addr)
    (accept : Nat) (line : Bytes) (messages : List Bytes) :
    ∃ connection', receive (onAccept connection fd addr accept) fd
          (authToken :: line :: messages) =
        some (connection', .welcome :: .login line.dropLast ::
          (framing.drain messages.flatten).2.map (.request (some line.dropLast))) ∧
      connection' fd = some ⟨addr, true, true, some line.dropLast,
        (framing.drain messages.flatten).1, accept⟩ := by
  let loggedIn := Function.update (onAccept connection fd addr accept) fd
    (some ⟨addr, true, true, some line.dropLast, [], accept⟩)
  have known : loggedIn fd = some ⟨addr, true, true, some line.dropLast, [], accept⟩ :=
    Function.update_self ..
  obtain ⟨connection', received, entry⟩ := receive_of_login fd messages known rfl rfl
  rw [framing.feed_eq_drain messages rfl, List.nil_append] at received entry
  refine ⟨connection', ?_, entry⟩
  rw [receive]
  simp only [onAccept, onData, Function.update_self, ↓reduceIte]
  rw [receive]
  simp only [onData, Function.update_self, Bool.true_eq_false, ↓reduceIte,
    Function.update_idem]
  simp only [loggedIn, onAccept, Function.update_idem] at received
  rw [received]
  simp [Reaction.events]

/-- A first piece that is not the token is the last one. -/
theorem receive_of_other (connection : Fd → Option (Conn Addr)) (fd : Fd) (addr : Addr)
    (accept : Nat) {message : Bytes} (messages : List Bytes) (other : message ≠ authToken) :
    (receive (onAccept connection fd addr accept) fd (message :: messages)).map Prod.snd =
      some [.shutdown] := by
  simp [receive, onAccept, onData, other]

/--
Let a client's bytes be cut into pieces.  It is authenticated, logged in under its
own id and served its frames if and only if the token and the id line each arrive
as one piece; how the frames are cut does not matter.
-/
theorem served_iff_cut (connection : Fd → Option (Conn Addr)) (fd : Fd) (addr : Addr)
    (accept : Nat) (pid : Bytes) (payloads : List Payload) {messages : List Bytes}
    (nonempty : ∀ message ∈ messages, message ≠ [])
    (stream : messages.flatten = clientStream pid payloads) :
    Served pid payloads addr accept fd
        (receive (onAccept connection fd addr accept) fd messages) ↔
      ∃ frames, messages = authToken :: (pid ++ [10]) :: frames := by
  constructor
  · intro served
    have outcome := served.events
    match messages with
    | [] => simp [receive] at outcome
    | message :: messages =>
        by_cases token : message = authToken
        · subst token
          match messages with
          | [] => simp [clientStream] at stream
          | line :: frames =>
              obtain ⟨_, received, -⟩ := receive_of_accept connection fd addr accept line frames
              have same : line.dropLast = pid := by
                rw [received] at outcome
                simp only [Option.map_some, Option.some.injEq, List.cons.injEq,
                  Event.login.injEq] at outcome
                exact outcome.2.1
              have letters : 0 < line.length :=
                List.length_pos_iff.mpr (nonempty line (by simp))
              have size : line.length = (pid ++ [10]).length := by
                rw [← same]
                simp only [List.length_append, List.length_dropLast, List.length_singleton]
                omega
              have rest : line ++ frames.flatten =
                  (pid ++ [10]) ++ payloads.flatMap Payload.pack := by
                simpa [clientStream] using stream
              exact ⟨frames, by rw [(List.append_inj rest size).1]⟩
        · rw [receive_of_other connection fd addr accept messages token] at outcome
          simp at outcome
  · rintro ⟨frames, rfl⟩
    obtain ⟨connection', received, entry⟩ :=
      receive_of_accept connection fd addr accept (pid ++ [10]) frames
    have rest : frames.flatten = payloads.flatMap Payload.pack := by
      simpa [clientStream] using stream
    have drained : framing.drain frames.flatten = ([], payloads.map Subtype.val) := by
      rw [rest, ← List.append_nil (payloads.flatMap Payload.pack)]
      exact framing.drain_encode Payload.pack Subtype.val nextPack_pack payloads rfl
    exact ⟨connection', by simpa [drained] using received, by simpa [drained] using entry⟩

/-- The pieces that the program's own client makes, with a frame cut behind its length. -/
theorem served_of_client : Served [49] [⟨[7], by decide⟩] 0 0 (5 : Nat)
    (receive (onAccept (fun _ => none) 5 0 0) 5 [authToken, [49, 10], [0, 1], [7]]) :=
  (served_iff_cut (fun _ => none) 5 0 0 [49] [⟨[7], by decide⟩] (by decide) (by decide)).mpr
    ⟨[[0, 1], [7]], rfl⟩

/--
The player `12` is logged in as `1` when its line comes in two pieces, and shut
out when the token and the line come in one.
-/
theorem not_served_of_cut :
    [authToken, [49, 50], [10]].flatten = clientStream [49, 50] [] ∧
      (receive (onAccept (fun _ => none) 5 0 0) 5 [authToken, [49, 50], [10]]).map Prod.snd =
        some [.welcome, .login [49]] ∧
      ¬ Served [49, 50] [] 0 0 5
        (receive (onAccept (fun _ => none) 5 0 0) 5 [authToken, [49, 50], [10]]) ∧
      [authToken ++ [49, 50, 10]].flatten = clientStream [49, 50] [] ∧
      (receive (onAccept (fun _ => none) 5 0 0) 5 [authToken ++ [49, 50, 10]]).map Prod.snd =
        some [.shutdown] ∧
      ¬ Served [49, 50] [] 0 0 5
        (receive (onAccept (fun _ => none) 5 0 0) 5 [authToken ++ [49, 50, 10]]) := by
  refine ⟨by decide, by decide, fun served => ?_, by decide, by decide, fun served => ?_⟩
  · exact absurd served.events (by decide)
  · exact absurd served.events (by decide)

end WindLtask.Gate
