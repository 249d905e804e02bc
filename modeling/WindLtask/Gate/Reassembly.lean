import WindLtask.Gate.Handshake

/-!
# The frames of a client

A connection that is logged in takes its frames out of whatever pieces its bytes
arrive in.  What is kept from one piece to the next is never as much as a whole
frame, so it stays below the size of the longest one.
-/

namespace WindLtask.Gate

/-! ## The loop of `split` -/

/--
The `while` statement of `split` with the variables `s` and `packs`, run to its
`break`.  A loop that does not end has no derivation.
-/
inductive SplitRun : Bytes → List Bytes → Bytes × List Bytes → Prop where
  | short {s : Bytes} {packs : List Bytes} (size : s.length < 2) : SplitRun s packs (s, packs)
  | cut {high low : UInt8} {rest : Bytes} {packs : List Bytes}
      (size : rest.length < high.toNat * 256 + low.toNat) :
      SplitRun (high :: low :: rest) packs (high :: low :: rest, packs)
  | pass {high low : UInt8} {rest : Bytes} {packs : List Bytes} {result : Bytes × List Bytes}
      (size : high.toNat * 256 + low.toNat ≤ rest.length)
      (later : SplitRun (rest.drop (high.toNat * 256 + low.toNat))
        (packs ++ [rest.take (high.toNat * 256 + low.toNat)]) result) :
      SplitRun (high :: low :: rest) packs result

namespace SplitRun

/-- The loop ends when it is granted a pass for every byte. -/
theorem splitLoop {fuel : Nat} {s : Bytes} (packs : List Bytes) (enough : s.length ≤ fuel) :
    SplitRun s packs (splitLoop fuel s packs) := by
  induction fuel generalizing s packs with
  | zero =>
      obtain rfl := List.length_eq_zero_iff.mp (Nat.le_zero.mp enough)
      exact .short (by decide)
  | succ fuel ih =>
      match s with
      | [] => exact .short (by decide)
      | [_] => exact .short (by simp)
      | high :: low :: rest =>
          simp only [Gate.splitLoop]
          split
          · next size =>
              refine .pass size (ih _ ?_)
              simp only [List.length_cons, List.length_drop] at enough ⊢
              omega
          · next size => exact .cut (Nat.lt_of_not_le size)

/-- The loop has one result. -/
theorem unique {s : Bytes} {packs : List Bytes} {result other : Bytes × List Bytes}
    (run : SplitRun s packs result) (again : SplitRun s packs other) : other = result := by
  induction run with
  | short size =>
      cases again with
      | short _ => rfl
      | cut _ => rfl
      | pass _ _ =>
          simp only [List.length_cons] at size
          omega
  | cut size =>
      cases again with
      | short _ => rfl
      | cut _ => rfl
      | pass fits _ => omega
  | pass fits _ ih =>
      cases again with
      | short size =>
          simp only [List.length_cons] at size
          omega
      | cut size => omega
      | pass _ later => exact ih later

/-- `split` ends on every string, with this result. -/
theorem iff_split (s : Bytes) (result : Bytes × List Bytes) :
    SplitRun s [] result ↔ result = split s := by
  have run : SplitRun s [] (split s) := .splitLoop [] (Nat.le_refl _)
  constructor
  · exact fun other => run.unique other
  · rintro rfl
    exact run

end SplitRun

/-! ## A frame in part -/

/-- What is not a whole frame is shorter than the longest frame. -/
theorem length_of_nextPack {s : Bytes} (partly : nextPack s = none) : s.length < 65537 := by
  match s with
  | [] => decide
  | [_] => simp
  | high :: low :: rest =>
      have size : ¬ high.toNat * 256 + low.toNat ≤ rest.length := by
        intro fits
        simp [nextPack, fits] at partly
      have first := high.toNat_lt
      have second := low.toNat_lt
      simp only [List.length_cons]
      omega

/-- A frame that has not arrived in full is not taken for one. -/
theorem nextPack_of_cut {tail : Bytes} {further : Payload} (cut : tail <+: further.pack)
    (proper : tail ≠ further.pack) : nextPack tail = none := by
  obtain ⟨more, whole⟩ := cut
  cases found : nextPack tail with
  | none => rfl
  | some taken =>
      have same : nextPack (tail ++ more) = some (taken.1, taken.2 ++ more) :=
        framing.stable more found
      rw [whole, ← List.append_nil further.pack] at same
      have nothing : taken.2 ++ more = [] := by
        have both := same.symm.trans (nextPack_pack further [])
        simpa using congrArg Prod.snd (Option.some.inj both)
      refine absurd ?_ proper
      rw [← whole, (List.append_eq_nil_iff.mp nothing).2, List.append_nil]

/-! ## Reassembly -/

variable {Fd Addr : Type} [DecidableEq Fd]

/-- What a logged in connection keeps and dispatches depends on the bytes alone. -/
theorem receive_of_bytes (fd : Fd) (messages : List Bytes) {connection : Fd → Option (Conn Addr)}
    {c : Conn Addr} (found : connection fd = some c) (authed : c.authed = true)
    (login : c.login = true) (fresh : c.last = []) :
    ∃ connection', receive connection fd messages = some (connection',
        (framing.drain messages.flatten).2.map (.request c.pid)) ∧
      connection' fd = some { c with last := (framing.drain messages.flatten).1 } := by
  have pieces : framing.feed [] messages = framing.drain messages.flatten :=
    framing.feed_eq_drain messages rfl
  obtain ⟨connection', received, entry⟩ := receive_of_login fd messages found authed login
  rw [fresh, pieces] at received entry
  exact ⟨connection', received, entry⟩

/--
Let the frames of `payloads` and a part of a further one arrive in any pieces.
The payloads are dispatched in order, the part is what is kept at the end, what is
kept between the pieces is shorter than the longest frame, and the loop that takes
the frames ends on every string.
-/
theorem receive_payloads (fd : Fd) (payloads : List Payload) (tail : Bytes) (further : Payload)
    (cut : tail <+: further.pack) (proper : tail ≠ further.pack) {messages : List Bytes}
    (stream : messages.flatten = payloads.flatMap Payload.pack ++ tail)
    {connection : Fd → Option (Conn Addr)} {c : Conn Addr} (found : connection fd = some c)
    (authed : c.authed = true) (login : c.login = true) (fresh : c.last = []) :
    (∃ connection', receive connection fd messages = some (connection',
        payloads.map fun payload => .request c.pid payload.val) ∧
      connection' fd = some { c with last := tail }) ∧
    (∀ before, before <+: messages → ∃ connection' events last,
      receive connection fd before = some (connection', events) ∧
      connection' fd = some { c with last := last } ∧ last.length < 65537) ∧
    ∀ s result, SplitRun s [] result ↔ result = split s := by
  refine ⟨?_, ?_, SplitRun.iff_split⟩
  · have drained : framing.drain messages.flatten = (tail, payloads.map Subtype.val) := by
      rw [stream]
      exact framing.drain_encode Payload.pack Subtype.val nextPack_pack payloads
        (nextPack_of_cut cut proper)
    obtain ⟨connection', received, entry⟩ :=
      receive_of_bytes fd messages found authed login fresh
    rw [drained] at received entry
    exact ⟨connection', by simpa using received, entry⟩
  · intro before _
    obtain ⟨connection', received, entry⟩ := receive_of_bytes fd before found authed login fresh
    exact ⟨connection', _, _, received, entry, length_of_nextPack (framing.next_drain _)⟩

/-- An empty frame and one that is cut behind its first byte, before a third that is not whole. -/
theorem receive_payloads_cut :
    (∃ connection', receive (fun _ => some (⟨(), true, true, some [49], [], 0⟩ : Conn Unit)) 5
          [[0], [0, 0], [], [1, 7, 0, 2, 9]] =
        some (connection', [.request (some [49]) [], .request (some [49]) [7]]) ∧
      connection' 5 = some ⟨(), true, true, some [49], [0, 2, 9], 0⟩) ∧
    (∀ before, before <+: [[0], [0, 0], [], [1, 7, 0, 2, 9]] → ∃ connection' events last,
      receive (fun _ => some (⟨(), true, true, some [49], [], 0⟩ : Conn Unit)) 5 before =
        some (connection', events) ∧
      connection' 5 = some ⟨(), true, true, some [49], last, 0⟩ ∧ last.length < 65537) ∧
    ∀ s result, SplitRun s [] result ↔ result = split s :=
  receive_payloads (c := ⟨(), true, true, some [49], [], 0⟩) (5 : Nat)
    [⟨[], by decide⟩, ⟨[7], by decide⟩] [0, 2, 9] ⟨[9, 9], by decide⟩
    (by decide) (by decide) rfl rfl rfl rfl rfl

end WindLtask.Gate
