import Mathlib.Algebra.Order.Ring.Rat
import Mathlib.Tactic.Linarith
import WindLtask.System.Players

/-!
# The gold of a player

What requests do to the gold in the state of a player.  The handler `playgame`
takes the bet when the difference is not negative; it does not look at the bet
itself.  Where every bet that passes is a number from zero on and the subtraction
is exact, the gold only falls, never below zero, and it is what the player had at
first without the bets that were answered with `ok = true`.
-/

set_option linter.unusedSectionVars false

namespace WindLtask

variable {N : Type} [DecidableEq N]

/-- The numbers that Lua numbers stand for. -/
structure Worth (lib : Library N) where
  /-- infinities and NaN have none -/
  value : N → Option ℚ
  negative : ∀ x v, value x = some v → (lib.negative x ↔ v < 0)

/-- The name `playgame`. -/
def playgameName : Scalar N := .string [112, 108, 97, 121, 103, 97, 109, 101]

/-- The `betnum` of a request, if the request is for `playgame`. -/
def betnum (lib : Library N) (data : Bytes) : Option N :=
  match lib.decode data with
  | none => none
  | some t =>
      match index (.number (lib.integer 1)) t, index (.number (lib.integer 2)) t with
      | some (some (.scalar name)), some params =>
          if name = playgameName then (index betnumKey params).bind lib.operand else none
      | _, _ => none

/-- What the handler of a request returns, unless something raises before that. -/
def result (lib : Library N) (request : Scalar N → Option (Handler N)) (data : Bytes)
    (p : Option (LuaTable N)) : Option (Option (LuaValue N)) :=
  match lib.decode data with
  | none => none
  | some t =>
      match (index (.number (lib.integer 1)) t).bind (lookup request),
        index (.number (lib.integer 2)) t with
      | some f, some params => (f p params).2
      | _, _ => none

/-- The bet of a `playgame` request whose handler returns `ok = true`. -/
def accepted (lib : Library N) (data : Bytes) (p : LuaTable N) : Option N :=
  match result lib (request lib) data (some p) with
  | some (some (.table r)) =>
      if r.get okKey = some (.scalar (.boolean true)) then betnum lib data else none
  | _ => none

/-- A request for which a handler is called. -/
structure Called (lib : Library N) (request : Scalar N → Option (Handler N)) (data : Bytes)
    (name : Scalar N) (f : Handler N) (params : Option (LuaValue N)) : Prop where
  found : request name = some f
  handle : ∀ p, WindLtask.handle lib request data p =
    ((f p params).1, (f p params).2.bind (response lib))
  result : ∀ p, result lib request data p = (f p params).2
  betnum : betnum lib data =
    if name = playgameName then (index betnumKey params).bind lib.operand else none

theorem called_of_answered {lib : Library N} {request : Scalar N → Option (Handler N)}
    {data : Bytes} {p : Option (LuaTable N)} (answered : (handle lib request data p).2.isSome) :
    ∃ name f params, Called lib request data name f params := by
  unfold handle at answered
  cases decoded : lib.decode data with
  | none => simp [decoded] at answered
  | some t =>
      cases called : (index (.number (lib.integer 1)) t).bind (lookup request) with
      | none => simp [decoded, called] at answered
      | some f =>
          cases given : index (.number (lib.integer 2)) t with
          | none => simp [decoded, called, given] at answered
          | some params =>
              obtain ⟨x, first, looked⟩ := Option.bind_eq_some_iff.mp called
              obtain ⟨name, rfl, found⟩ : ∃ name, x = some (.scalar name) ∧
                  request name = some f := by
                revert looked
                unfold lookup
                split <;> simp
              exact ⟨name, f, params, found, fun p => by simp [handle, decoded, called, given],
                fun p => by simp [WindLtask.result, decoded, called, given],
                by simp [WindLtask.betnum, decoded, first, given]⟩

/-- The handlers that do not touch the player, and `playgame`. -/
theorem request_cases {lib : Library N} {name : Scalar N} {f : Handler N}
    (found : request lib name = some f) :
    (name ≠ playgameName ∧ ∀ p params, (f p params).1 = p) ∨
      (name = playgameName ∧ f = playgame lib) := by
  unfold request at found
  split at found
  · obtain rfl := Option.some.inj found
    exact .inl ⟨by simp [playgameName], fun _ _ => rfl⟩
  · obtain rfl := Option.some.inj found
    exact .inr ⟨rfl, rfl⟩
  · obtain rfl := Option.some.inj found
    exact .inl ⟨by simp [playgameName], fun _ _ => rfl⟩
  · cases found

/-- What an answered request does to its player. -/
inductive Played (lib : Library N) (data : Bytes) (p : LuaTable N) :
    Option (LuaTable N) → Prop where
  | same (declined : accepted lib data p = none) : Played lib data p (some p)
  | bet {gold bet : N} (has : lib.operand (p.get goldKey) = some gold)
      (asked : betnum lib data = some bet) (enough : lib.negative (lib.minus gold bet) = false)
      (taken : accepted lib data p = some bet) :
      Played lib data p (some (p.set goldKey (.scalar (.number (lib.minus gold bet)))))

theorem played_of_answered {lib : Library N} {data : Bytes} {p : LuaTable N}
    (answered : (handle lib (request lib) data (some p)).2.isSome) :
    Played lib data p (handle lib (request lib) data (some p)).1 := by
  obtain ⟨name, f, params, called⟩ := called_of_answered answered
  have accepts : accepted lib data p = match (f (some p) params).2 with
      | some (some (.table r)) =>
          if r.get okKey = some (.scalar (.boolean true)) then betnum lib data else none
      | _ => none := by
    rw [accepted, called.result]
  rw [called.handle] at answered ⊢
  rcases request_cases called.found with ⟨other, still⟩ | ⟨rfl, rfl⟩
  · have declined : accepted lib data p = none := by
      rw [accepts, called.betnum, if_neg other]
      split
      · split <;> rfl
      · rfl
    rw [still]
    exact .same declined
  · have asks : betnum lib data = (index betnumKey params).bind lib.operand := by
      rw [called.betnum, if_pos rfl]
    cases has : lib.operand (p.get goldKey) with
    | none => simp [playgame, has] at answered
    | some gold =>
        cases bet : (index betnumKey params).bind lib.operand with
        | none => simp [playgame, has, bet] at answered
        | some bet' =>
            cases enough : lib.negative (lib.minus gold bet') with
            | true =>
                have declined : accepted lib data p = none := by
                  simp [accepts, playgame, has, bet, enough, Table.get]
                have left : (playgame lib (some p) params).1 = some p := by
                  simp [playgame, has, bet, enough]
                rw [left]
                exact .same declined
            | false =>
                have left : (playgame lib (some p) params).1 =
                    some (p.set goldKey (.scalar (.number (lib.minus gold bet')))) := by
                  simp [playgame, has, bet, enough]
                have returns : dumps ((p.set goldKey
                    (.scalar (.number (lib.minus gold bet')))).depth + 1)
                    (p.set goldKey (.scalar (.number (lib.minus gold bet')))) = true := by
                  by_contra raised
                  simp [playgame, has, bet, enough, raised] at answered
                rw [left]
                refine .bet has (asks.trans bet) enough ?_
                simp [accepts, playgame, has, bet, enough, returns, Table.get, asks]

/-! ## Values -/

namespace Worth

variable {lib : Library N} (w : Worth lib)

/-- The gold of a player. -/
def gold (p : LuaTable N) : Option ℚ :=
  (lib.operand (p.get goldKey)).bind w.value

/-- The bet of an answered request, zero where it took none. -/
def bet (data : Bytes) (p : LuaTable N) : ℚ :=
  ((accepted lib data p).bind w.value).getD 0

/-- The bet is a number from zero on, and it is taken from the gold without rounding. -/
def FairBet (gold bet : N) : Prop :=
  ∃ g b, w.value gold = some g ∧ w.value bet = some b ∧ 0 ≤ b ∧
    w.value (lib.minus gold bet) = some (g - b)

theorem gold_same {p q : LuaTable N} (same : p.Same q) : w.gold p = w.gold q := by
  have docs : (p.get goldKey).map Value.denote = (q.get goldKey).map Value.denote := by
    rw [← Table.denote_apply, ← Table.denote_apply]
    exact congrFun same goldKey
  unfold gold
  cases left : p.get goldKey with
  | none =>
      rw [left] at docs
      rw [Option.map_eq_none_iff.mp docs.symm]
  | some x =>
      rw [left] at docs
      obtain ⟨y, right, meanings⟩ := Option.map_eq_some_iff.mp docs.symm
      rw [right]
      cases x <;> cases y <;> simp_all [Value.denote, Library.operand]

theorem gold_set (p : LuaTable N) (x : N) :
    w.gold (p.set goldKey (.scalar (.number x))) = w.value x := by
  simp [gold, Table.get_set, Library.operand]

/-- An answered request takes its bet, and a fair bet leaves gold that is not negative. -/
theorem gold_of_played {data : Bytes} {p left : LuaTable N}
    (played : Played lib data p (some left))
    (fair : ∀ gold bet, lib.operand (p.get goldKey) = some gold → betnum lib data = some bet →
      lib.negative (lib.minus gold bet) = false → w.FairBet gold bet)
    {g : ℚ} (has : w.gold p = some g) (positive : 0 ≤ g) :
    w.gold left = some (g - w.bet data p) ∧ 0 ≤ w.bet data p ∧ 0 ≤ g - w.bet data p := by
  generalize made : some left = after at played
  cases played with
  | same declined =>
      obtain rfl := Option.some.inj made
      have none_taken : w.bet data left = 0 := by simp [bet, declined]
      rw [none_taken, sub_zero]
      exact ⟨has, le_rfl, positive⟩
  | bet gold asked enough taken =>
      obtain rfl := Option.some.inj made
      obtain ⟨g', b, worth, staked, notNegative, exact_⟩ := fair _ _ gold asked enough
      obtain rfl : g' = g := by simpa [Worth.gold, gold, worth] using has
      have stake : w.bet data p = b := by simp [bet, taken, staked]
      rw [stake, gold_set]
      refine ⟨exact_, notNegative, ?_⟩
      by_contra below
      have negative := (w.negative _ _ exact_).mpr (not_le.mp below)
      rw [enough] at negative
      cases negative

/-- The gold after some changes of a state. -/
def goldAt (t : LuaTable N) (changes : List (Diff (Scalar N) (Scalar N))) : Option ℚ :=
  (replay t changes).bind w.gold

/-- The changes never add gold and never take more than there is. -/
def Falls (t : LuaTable N) (changes : List (Diff (Scalar N) (Scalar N))) : Prop :=
  ∀ j k, j ≤ k → k ≤ changes.length → ∃ more less, w.goldAt t (changes.take j) = some more ∧
    w.goldAt t (changes.take k) = some less ∧ 0 ≤ less ∧ less ≤ more

theorem Falls.nil {w : Worth lib} {t : LuaTable N} {first : ℚ} (has : w.gold t = some first)
    (positive : 0 ≤ first) : w.Falls t [] := by
  intro j k _ _
  exact ⟨first, first, by simpa [goldAt] using has, by simpa [goldAt] using has, positive, le_rfl⟩

theorem Falls.snoc {w : Worth lib} {t : LuaTable N}
    {changes : List (Diff (Scalar N) (Scalar N))} (falls : w.Falls t changes)
    {diff : Diff (Scalar N) (Scalar N)} {last next : ℚ} (before : w.goldAt t changes = some last)
    (after : w.goldAt t (changes ++ [diff]) = some next) (positive : 0 ≤ next)
    (less : next ≤ last) : w.Falls t (changes ++ [diff]) := by
  intro j k ordered inside
  rw [List.length_append, List.length_singleton] at inside
  rcases Nat.lt_or_ge changes.length k with beyond | within
  · have whole : (changes ++ [diff]).take k = changes ++ [diff] :=
      List.take_of_length_le (by rwa [List.length_append])
    rw [whole]
    rcases Nat.lt_or_ge changes.length j with beyond' | within'
    · have whole' : (changes ++ [diff]).take j = changes ++ [diff] :=
        List.take_of_length_le (by rwa [List.length_append])
      rw [whole']
      exact ⟨next, next, after, after, positive, le_rfl⟩
    · obtain ⟨more, last', earlier, now, -, fell⟩ := falls j changes.length within' le_rfl
      rw [List.take_length, before] at now
      obtain rfl := Option.some.inj now
      rw [List.take_append_of_le_length within']
      exact ⟨more, next, earlier, after, positive, less.trans fell⟩
  · rw [List.take_append_of_le_length (ordered.trans within), List.take_append_of_le_length within]
    exact falls j k ordered within

variable {Rid : Type}

/-- The sum of the bets that the answers to a player have accepted. -/
def bets (pid : Bytes) (handled : List (System.Handling Rid N)) : ℚ :=
  ((handled.filter fun h => h.pid = pid).map fun h => w.bet h.data h.self).sum

theorem bets_snoc (pid : Bytes) (handled : List (System.Handling Rid N))
    (h : System.Handling Rid N) : w.bets pid (handled ++ [h]) =
      w.bets pid handled + if h.pid = pid then w.bet h.data h.self else 0 := by
  by_cases own : h.pid = pid <;> simp [bets, own]

end Worth

namespace System

variable {Addr Rid Wid : Type} [DecidableEq Addr] [DecidableEq Rid] [DecidableEq Wid]

namespace Game

variable {lib : Library N} {w : Worth lib} {g g' : Game Addr Rid Wid N}

/-! ## One step -/

/--
A player starts with gold that is not negative, and a bet that passes the check of
`playgame` in a request that is answered is fair.
-/
def Fair (w : Worth lib) (g : Game Addr Rid Wid N) : Move Addr Rid Wid N → Prop
  | .login _ _ t => ∃ v, w.gold t = some v ∧ 0 ≤ v
  | .handle rid => ∀ h ∈ g.record lib (WindLtask.request lib) rid, ∀ gold bet,
      lib.operand (h.self.get goldKey) = some gold → betnum lib h.data = some bet →
      lib.negative (lib.minus gold bet) = false → w.FairBet gold bet
  | _ => True

/-- The gold of every player is accounted for. -/
structure Books (w : Worth lib) (g : Game Addr Rid Wid N) : Prop where
  asked : ∀ rid name t, g.net.creating rid = some (name, t) → ∃ v, w.gold t = some v ∧ 0 ≤ v
  falls : ∀ addr n t, g.net.born addr = some (n, t) → w.Falls t (g.net.log addr)
  paid : ∀ addr pid t, g.net.born addr = some (user pid, t) → ∃ first, w.gold t = some first ∧
    w.goldAt t (g.net.log addr) = some (first - w.bets pid g.handled)

namespace Books

theorem init [Inhabited Wid] : Books w (init : Game Addr Rid Wid N) where
  asked := by simp [Game.init, Net.init]
  falls := by simp [Game.init, Net.init]
  paid := by simp [Game.init, Net.init]

/-- The gold of a new cell is that of the document. -/
theorem gold_of_start {name : Bytes} {t : LuaTable N} {cell : Cell (Scalar N) (Scalar N)}
    (begun : Cell.start userConf name t = some cell) : w.gold cell.t = w.gold t := by
  have apart : (goldKey : Scalar N) ≠ userConf.idKey := by simp [goldKey, userConf]
  simp only [Cell.start] at begun
  split at begun
  · split at begun
    · cases begun
      simp only [Worth.gold, Table.get_erase, if_neg apart]
    · cases begun
  · cases begun
    rfl

/-- A step in which no request is answered. -/
theorem quiet (books : Books w g) (sane : Sane g) {move : Move Addr Rid Wid N}
    (taken : Step lib (WindLtask.request lib) g move g') (fair : g.Fair w move)
    (closed : g'.net.closed = g.net.closed) (handled : g'.handled = g.handled) :
    Books w g' := by
  obtain ⟨label, makes, enabled, net⟩ := net_step taken
  have log : ∀ addr, g'.net.log addr = g.net.log addr := fun addr => by
    rw [Net.log, Net.log, closed]
  -- a new cell has no changes yet, and its player no requests
  have fresh : ∀ addr n t, g'.net.born addr = some (n, t) → g.net.born addr = some (n, t) ∨
      (g.net.log addr = [] ∧ (∃ v, w.gold t = some v ∧ 0 ≤ v) ∧
        ∀ h ∈ g.handled, n ≠ user h.pid) := by
    intro addr n t born
    rw [net] at born
    rcases Net.born_cases enabled born with old |
      ⟨rid, u, cell, -, none_yet, creating, begun, rfl, -⟩
    · exact .inl old
    · refine .inr ⟨sane.coherent.unborn addr none_yet, ?_, fun h member same => ?_⟩
      · rw [gold_of_start begun]
        exact books.asked rid n u creating
      · have spawning : g.net.mgr.proc.spawning rid = some n := by
          rw [sane.coherent.spawning rid, creating]
          rfl
        have present := sane.handled h member
        rw [← same, sane.settled.stocked.fresh rid n spawning] at present
        cases present
  refine ⟨fun rid name t creating => ?_, fun addr n t born => ?_, fun addr pid t born => ?_⟩
  · rw [net] at creating
    rcases Net.creating_next creating with old | asks
    · exact books.asked rid name t old
    · obtain ⟨pid, rfl, -⟩ := (creates taken.1.1 makes).1 rid name t asks
      exact fair
  · rw [log]
    rcases fresh addr n t born with old | ⟨unchanged, ⟨v, has, positive⟩, -⟩
    · exact books.falls addr n t old
    · rw [unchanged]
      exact .nil has positive
  · rw [log, handled]
    rcases fresh addr (user pid) t born with old | ⟨unchanged, ⟨v, has, -⟩, idle⟩
    · exact books.paid addr pid t old
    · have nothing : w.bets pid g.handled = 0 := by
        have none_own : g.handled.filter (fun h => h.pid = pid) = [] :=
          List.filter_eq_nil_iff.mpr fun h member own =>
            idle h member (by rw [of_decide_eq_true own])
        simp [Worth.bets, none_own]
      refine ⟨v, has, ?_⟩
      rw [unchanged, nothing, sub_zero]
      simpa [Worth.goldAt] using has

/-- What an answered request leaves, and what it takes where its bet is fair. -/
theorem leaves_of_answered {rid : Rid} {h : Handling Rid N}
    (answered : (WindLtask.handle lib (WindLtask.request lib) h.data (some h.self)).2.isSome)
    (fair : g.Fair w (.handle rid)) (record : g.record lib (WindLtask.request lib) rid = some h) :
    ∃ left, (WindLtask.handle lib (WindLtask.request lib) h.data (some h.self)).1.getD h.self =
        left ∧
      ∀ {v : ℚ}, w.gold h.self = some v → 0 ≤ v →
        w.gold left = some (v - w.bet h.data h.self) ∧ 0 ≤ w.bet h.data h.self ∧
          0 ≤ v - w.bet h.data h.self := by
  have played := played_of_answered answered
  obtain ⟨left, leaves⟩ : ∃ left,
      (WindLtask.handle lib (WindLtask.request lib) h.data (some h.self)).1 = some left := by
    generalize (WindLtask.handle lib (WindLtask.request lib) h.data (some h.self)).1 = after
      at played
    cases played <;> exact ⟨_, rfl⟩
  rw [leaves] at played ⊢
  exact ⟨left, rfl, fun has positive => w.gold_of_played played (fair h record) has positive⟩

/-- A step that answers a request. -/
theorem answered (books : Books w g) (sane : Sane g) (sane' : Sane g') {rid : Rid}
    {h : Handling Rid N} {addr : Addr}
    (taken : Step lib (WindLtask.request lib) g (.handle rid) g')
    (fair : g.Fair w (.handle rid))
    (answers : Answers lib (WindLtask.request lib) g g' rid h addr) : Books w g' := by
  obtain ⟨label, makes, enabled, net⟩ := net_step taken
  obtain ⟨q, stage, calling⟩ := answers.calling
  obtain ⟨change, closed⟩ := answers.closed
  obtain ⟨t₀, before, born₀, reached, same⟩ := calling.born
  have born : ∀ a n t, g'.net.born a = some (n, t) → g.net.born a = some (n, t) := by
    intro a n t there
    rw [net] at there
    rcases Net.born_cases enabled there with old | ⟨_, _, _, rfl, -⟩
    · exact old
    · simp only [Game.label, ending] at makes
      split at makes
      · split at makes <;> cases makes
      · cases makes
  have log : ∀ a, g'.net.log a =
      g.net.log a ++ if addr = a then change.toList else [] := by
    intro a
    rw [Net.log, closed, changesIn_snoc]
    by_cases here : addr = a <;> cases change <;> simp [changesOf, here, Net.log]
  obtain ⟨left, leaves, taken_⟩ := leaves_of_answered answers.returned fair answers.record
  -- what the cell will hold once it has the change
  obtain ⟨t, value, result, born', -, -, reached', same'⟩ :=
    sane'.serialized.returned g.net.closed _ [] closed _ List.mem_cons_self
  obtain rfl : t₀ = t := by
    have twice := born₀.symm.trans (born _ _ _ born')
    simpa using twice
  have now : w.goldAt t₀ (g.net.log addr) = w.gold h.self := by
    rw [Worth.goldAt, reached]
    exact w.gold_same same
  have later : w.goldAt t₀ (g'.net.log addr) = w.gold left := by
    rw [← closed] at reached'
    rw [Worth.goldAt, Net.log, reached']
    rw [leaves] at same'
    exact w.gold_same same'
  obtain ⟨more, last, -, isLast, positive, -⟩ :=
    books.falls addr _ t₀ born₀ _ _ le_rfl le_rfl
  rw [List.take_length] at isLast
  obtain ⟨after, bets, rest⟩ := taken_ (now.symm.trans isLast) positive
  refine ⟨fun rid' name u creating => ?_, fun a n u there => ?_, fun a pid u there => ?_⟩
  · rw [net] at creating
    rcases Net.creating_next creating with old | asks
    · exact books.asked rid' name u old
    · obtain ⟨pid, same, -⟩ := (creates taken.1.1 makes).1 rid' name u asks
      cases same
  · have old := born a n u there
    by_cases here : addr = a
    · subst here
      obtain rfl : t₀ = u := by
        have twice := born₀.symm.trans old
        simp only [Option.some.injEq, Prod.mk.injEq] at twice
        exact twice.2
      rw [log, if_pos rfl] at later ⊢
      cases change with
      | none => simpa using books.falls addr n t₀ old
      | some diff =>
          exact (books.falls addr n t₀ old).snoc isLast (later.trans after) rest
            (sub_le_self last bets)
    · rw [log, if_neg here, List.append_nil]
      exact books.falls a n u old
  · have old := born a (user pid) u there
    obtain ⟨first, has, paid⟩ := books.paid a pid u old
    refine ⟨first, has, ?_⟩
    rw [answers.handled, w.bets_snoc]
    by_cases here : addr = a
    · subst here
      obtain ⟨own, rfl⟩ : h.pid = pid ∧ t₀ = u := by
        have twice := born₀.symm.trans old
        simp only [Option.some.injEq, Prod.mk.injEq] at twice
        exact ⟨user_injective twice.1, twice.2⟩
      rw [later, after, if_pos own]
      rw [isLast] at paid
      rw [Option.some.inj paid, sub_sub]
    · have other : h.pid ≠ pid := by
        rintro rfl
        exact here (sane.settled.single born₀ old)
      rw [log, if_neg here, List.append_nil, if_neg other, add_zero]
      exact paid

theorem step (books : Books w g) (sane : Sane g) {move : Move Addr Rid Wid N}
    (taken : Step lib (WindLtask.request lib) g move g') (fair : g.Fair w move) :
    Books w g' := by
  rcases sane.answers taken with ⟨closed, handled, -⟩ | ⟨rid, h, addr, rfl, answers⟩
  · exact books.quiet sane taken fair closed handled
  · exact books.answered sane (sane.step taken) taken fair answers

end Books

/-! ## Runs -/

/-- No request of the player that has ended still has the state locked. -/
def Committed (g : Game Addr Rid Wid N) (pid : Bytes) : Prop :=
  ∀ rid, (g.net.stage rid).past → ¬ g.net.mgr.Covers rid (user pid)

/-- The gold in the cell of a player, against the start and against the states before. -/
structure Account (w : Worth lib) (past : List (Game Addr Rid Wid N)) (g : Game Addr Rid Wid N)
    (pid : Bytes) (addr : Addr) (t : LuaTable N) (cell : Cell (Scalar N) (Scalar N))
    (first gold : ℚ) : Prop where
  born : g.net.born addr = some (user pid, t)
  there : g.net.cells addr = some cell
  start : w.gold t = some first
  now : w.gold cell.t = some gold
  positive : 0 ≤ gold
  falls : ∀ u ∈ past, ∀ before, u.net.cells addr = some before →
    ∃ more, w.gold before.t = some more ∧ gold ≤ more
  paid : g.Committed pid → gold = first - w.bets pid g.handled

/-- What is kept of an earlier state. -/
structure Grows (u g : Game Addr Rid Wid N) : Prop where
  born : ∀ addr entry, u.net.born addr = some entry → g.net.born addr = some entry
  cells : ∀ addr cell, u.net.cells addr = some cell →
    ∃ cell', g.net.cells addr = some cell' ∧ cell.patches <+: cell'.patches

theorem Grows.refl (g : Game Addr Rid Wid N) : Grows g g :=
  ⟨fun _ _ born => born, fun _ cell there => ⟨cell, there, List.prefix_rfl⟩⟩

theorem Grows.trans {u v : Game Addr Rid Wid N} (left : Grows u v) (right : Grows v g) :
    Grows u g := by
  refine ⟨fun addr entry born => right.born addr entry (left.born addr entry born), ?_⟩
  intro addr cell there
  obtain ⟨cell', there', grown⟩ := left.cells addr cell there
  obtain ⟨cell'', there'', grown'⟩ := right.cells addr cell' there'
  exact ⟨cell'', there'', grown.trans grown'⟩

theorem Grows.step {request : Scalar N → Option (Handler N)} (sane : Sane g)
    {move : Move Addr Rid Wid N} (taken : Step lib request g move g') : Grows g g' := by
  obtain ⟨label, makes, enabled, net⟩ := net_step taken
  refine ⟨fun addr entry born => ?_, fun addr cell there => ?_⟩
  · rw [net]
    exact Net.born_grows enabled born
  · rw [net]
    exact sane.coherent.cells_grow enabled (creates taken.1.1 makes).2 there

/-- A cell has its first changes, all of them where the player's requests are committed. -/
theorem Sane.cell_value (w : Worth lib) (sane : Sane g) {addr : Addr} {n : Bytes} {t : LuaTable N}
    {cell : Cell (Scalar N) (Scalar N)} (born : g.net.born addr = some (n, t))
    (there : g.net.cells addr = some cell) :
    cell.patches <+: g.net.log addr ∧ w.goldAt t cell.patches = w.gold cell.t ∧
      ∀ pid, n = user pid → g.Committed pid → cell.patches = g.net.log addr := by
  obtain ⟨name, t', born', -, reached, applied⟩ := sane.serialized.cells addr cell there
  obtain ⟨rfl, rfl⟩ : n = name ∧ t = t' := by simpa using born.symm.trans born'
  refine ⟨?_, by rw [Worth.goldAt, reached, Option.bind_some], ?_⟩
  · rcases applied with whole | ⟨diff, short, -⟩
    · exact whole ▸ List.prefix_rfl
    · exact short ▸ List.prefix_append _ _
  · rintro pid rfl committed
    rcases applied with whole | ⟨diff, -, rid, q, name, query, past, covers, at'⟩
    · exact whole.symm
    · obtain ⟨initial, same⟩ := (sane.coherent.shape query).born name addr at'
      obtain ⟨rfl, -⟩ : user pid = name ∧ t = initial := by simpa using born.symm.trans same
      exact absurd covers (committed rid past)

/--
In every run in which players start with gold that is not negative and every
accepted bet is fair, the gold in the cell of a player is never negative, not more
than in any earlier state, and once the player's requests are committed, what the
player had at first without exactly the bets that were answered with `ok = true`.
-/
theorem account_of_fair [Inhabited Wid] (w : Worth lib)
    {steps : List (Game Addr Rid Wid N × Move Addr Rid Wid N)} {g : Game Addr Rid Wid N}
    (run : Lib.Run (Step lib (WindLtask.request lib)) init steps g)
    (fair : ∀ taken ∈ steps, taken.1.Fair w taken.2) (pid : Bytes) (addr : Addr)
    (state : g.net.mgr.proc.state (user pid) = some addr) :
    ∃ t cell first gold, Account w (Lib.visited steps g) g pid addr t cell first gold := by
  have kept := run.invariant_visited (fun v move => v.Fair w move)
    (fun v => v.Sane ∧ v.Books w) ⟨.init, .init⟩
    (fun _ _ _ inv fair taken => ⟨inv.1.step taken, inv.2.step inv.1 taken fair⟩) fair
  have grown := run.ascending (fun u v => u.Sane → v.Sane ∧ Grows u v)
    (fun u sane => ⟨sane, .refl u⟩)
    (fun left right sane => ⟨(right (left sane).1).1, (left sane).2.trans (right (left sane).1).2⟩)
    (fun _ _ _ taken sane => ⟨sane.step taken, .step sane taken⟩)
  obtain ⟨sane, books⟩ := kept g (by simp [Lib.visited])
  obtain ⟨t, born⟩ := sane.coherent.stated _ _ state
  obtain ⟨cell, there⟩ := Option.isSome_iff_exists.mp (sane.cells addr _ t born)
  obtain ⟨first, has, paid⟩ := books.paid addr pid t born
  obtain ⟨⟨rest, log⟩, value, whole⟩ := sane.cell_value w born there
  have cut : ∀ patches, patches <+: cell.patches →
      patches = (g.net.log addr).take patches.length ∧
        patches.length ≤ (g.net.log addr).length := by
    intro patches inside
    have inLog : patches <+: g.net.log addr := inside.trans ⟨rest, log⟩
    exact ⟨List.prefix_iff_eq_take.mp inLog, inLog.length_le⟩
  obtain ⟨here, bound⟩ := cut cell.patches List.prefix_rfl
  obtain ⟨-, gold, -, now, positive, -⟩ := books.falls addr _ t born _ _ le_rfl bound
  rw [← here, value] at now
  refine ⟨t, cell, first, gold, born, there, has, now, positive, ?_, ?_⟩
  · intro u member before was
    obtain ⟨saneU, -⟩ := kept u member
    obtain ⟨-, grows⟩ := grown u member saneU
    obtain ⟨cell', there', patches⟩ := grows.cells addr before was
    obtain rfl : cell = cell' := Option.some.inj (there.symm.trans there')
    obtain ⟨n, u', bornU, -⟩ := saneU.coherent.cells addr before was
    obtain ⟨rfl, rfl⟩ : user pid = n ∧ t = u' := by
      simpa using born.symm.trans (grows.born addr _ bornU)
    obtain ⟨there_, -⟩ := cut before.patches patches
    obtain ⟨more, less, earlier, later, -, fell⟩ :=
      books.falls addr _ t born _ _ patches.length_le bound
    rw [← there_, (saneU.cell_value w bornU was).2.1] at earlier
    rw [← here, value, now] at later
    obtain rfl := Option.some.inj later
    exact ⟨more, earlier, fell⟩
  · intro committed
    rw [← whole pid rfl committed, value, now] at paid
    exact Option.some.inj paid

/-! ## Two bets -/

/-- The bytes of `["playgame",{"betnum":1000}]`. -/
def betText : Bytes :=
  [91, 34, 112, 108, 97, 121, 103, 97, 109, 101, 34, 44, 123, 34, 98, 101, 116, 110, 117, 109,
    34, 58, 49, 48, 48, 48, 125, 93]

/-- The bytes of `["playgame",{"betnum":-1000}]`. -/
def negativeBetText : Bytes :=
  [91, 34, 112, 108, 97, 121, 103, 97, 109, 101, 34, 44, 123, 34, 98, 101, 116, 110, 117, 109,
    34, 58, 45, 49, 48, 48, 48, 125, 93]

/-- What `json.decode` makes of a request to play for `x`. -/
def playTable (x : Int) : LuaTable Int :=
  .scalar (.number 1) playgameName
    (.table (.number 2) (.scalar betnumKey (.number x) .empty) .empty)

/-- The reply to an accepted bet that leaves `x`. -/
def okTable (x : Int) : LuaTable Int :=
  .scalar okKey (.boolean true) (.scalar goldKey (.number x) .empty)

/-- Integers, and `json` on the texts and tables of the runs. -/
def casino : Library Int where
  integer := Int.ofNat
  minus x y := x - y
  negative x := x < 0
  toNumber _ := none
  decode data :=
    if data = betText then some (some (.table (playTable 1000)))
    else if data = negativeBetText then some (some (.table (playTable (-1000))))
    else none
  encode t :=
    if t = okTable 49000 then some
      [123, 34, 111, 107, 34, 58, 116, 114, 117, 101, 44, 34, 103, 111, 108, 100, 34, 58, 52,
        57, 48, 48, 48, 125]
    else if t = okTable 51000 then some
      [123, 34, 111, 107, 34, 58, 116, 114, 117, 101, 44, 34, 103, 111, 108, 100, 34, 58, 53,
        49, 48, 48, 48, 125]
    else none
  time := 0

/-- Integers stand for themselves. -/
def casinoWorth : Worth casino where
  value x := some x
  negative x v same := by
    obtain rfl := Option.some.inj same
    simp [casino]

/-- The document of the player `a` with some gold. -/
def document (gold : Int) : LuaTable Int :=
  .scalar (.string [95, 105, 100]) (.string [120]) (.scalar goldKey (.number gold) .empty)

/-- The state of the player `a` with some gold. -/
def playerState (gold : Int) : LuaTable Int :=
  .scalar goldKey (.number gold) .empty

/-- The player `a` logs in and plays once, and the change reaches the cell. -/
def playRun (text : Bytes) (gold : Int) : List (Move Nat Nat Nat Int) :=
  [.login 9 [97] (document 50000), .other (.spawned 9 40), .request 0 0 [97] text,
    .other (.lock 0 [user [97]]), .other (.granted 0 [some 40] 1), .other (.answer 0),
    .other (.receive 0), .handle 0, .other (.fork 0),
    .other (.unlock 0 [(user [97], ltdiff (playerState 50000) (playerState gold))]),
    .other (.patch 0), .other (.patched 0)]

theorem playRun_legal {text : Bytes} {gold : Int}
    (plays : (text = betText ∧ gold = 49000) ∨ (text = negativeBetText ∧ gold = 51000)) :
    Lib.Legal (Enabled casino (WindLtask.request casino)) (next casino (WindLtask.request casino))
      (init : Game Nat Nat Nat Int) (playRun text gold) := by
  rcases plays with ⟨rfl, rfl⟩ | ⟨rfl, rfl⟩
  all_goals
    exact ⟨⟨⟨rfl, fun rid asked => Option.some_ne_none _ asked.symm⟩, _, rfl, rfl⟩,
      ⟨rfl, _, rfl, rfl, _, _, rfl, rfl⟩, ⟨rfl, _, rfl, trivial⟩, ⟨rfl, _, rfl, rfl⟩,
      ⟨rfl, _, rfl, Net.isBorder_one 40, _, List.mem_singleton.mpr rfl, rfl, rfl⟩,
      ⟨rfl, _, rfl, rfl⟩, ⟨rfl, _, rfl, trivial⟩,
      ⟨trivial, _, rfl, ⟨0, by decide, by decide⟩, rfl⟩, ⟨rfl, _, rfl, trivial⟩,
      ⟨rfl, _, rfl, .refl _⟩, ⟨rfl, _, rfl, trivial⟩, ⟨rfl, _, rfl, rfl⟩, trivial⟩

theorem playRun_fair :
    Lib.Legal (Fair casinoWorth) (next casino (WindLtask.request casino))
      (init : Game Nat Nat Nat Int) (playRun betText 49000) := by
  have starts : ∃ v, casinoWorth.gold (document 50000) = some v ∧ 0 ≤ v :=
    ⟨50000, rfl, by norm_num⟩
  refine ⟨starts, trivial, trivial, trivial, trivial, trivial, trivial, ?_, trivial, trivial,
    trivial, trivial, trivial⟩
  intro h recorded gold bet has asked _
  obtain rfl := Option.some.inj recorded
  obtain rfl : 50000 = gold := Option.some.inj has
  obtain rfl : 1000 = bet := Option.some.inj asked
  exact ⟨50000, 1000, rfl, rfl, by norm_num, by norm_num [casinoWorth, casino]⟩

theorem account_of_playRun :
    ∃ t cell first gold, Account casinoWorth
      (Lib.visited (Lib.trace (next casino (WindLtask.request casino)) init
          (playRun betText 49000))
        ((playRun betText 49000).foldl (next casino (WindLtask.request casino)) init))
      ((playRun betText 49000).foldl (next casino (WindLtask.request casino))
        (init : Game Nat Nat Nat Int)) [97] 40 t cell first gold :=
  account_of_fair casinoWorth (Lib.Run.of_legal (playRun_legal (.inl ⟨rfl, rfl⟩)))
    ((Lib.legal_iff _ _).mp playRun_fair) [97] 40 rfl

/-- A player who bets a negative number of gold has more than before. -/
theorem gold_grown :
    ∃ (steps : List (Game Nat Nat Nat Int × Move Nat Nat Nat Int)) (g : Game Nat Nat Nat Int),
      Lib.Run (Step casino (WindLtask.request casino)) init steps g ∧
        g.net.mgr.proc.state (user [97]) = some 40 ∧
        (∃ u ∈ Lib.visited steps g, ∃ before, u.net.cells 40 = some before ∧
          casinoWorth.gold before.t = some 50000) ∧
        (∃ cell, g.net.cells 40 = some cell ∧ casinoWorth.gold cell.t = some 51000) ∧
        ¬ ∃ t cell first gold, Account casinoWorth (Lib.visited steps g) g [97] 40 t cell first
          gold := by
  have run := Lib.Run.of_legal (playRun_legal (.inr ⟨rfl, rfl⟩))
  refine ⟨_, _, run, rfl, ?_⟩
  have first : ∃ u ∈ Lib.visited (Lib.trace (next casino (WindLtask.request casino)) init
      (playRun negativeBetText 51000)) ((playRun negativeBetText 51000).foldl
        (next casino (WindLtask.request casino)) (init : Game Nat Nat Nat Int)),
      ∃ before, u.net.cells 40 = some before ∧ casinoWorth.gold before.t = some 50000 :=
    ⟨_, List.mem_of_getElem? (i := 2) rfl, _, rfl, rfl⟩
  have last : ∃ cell, ((playRun negativeBetText 51000).foldl
      (next casino (WindLtask.request casino)) (init : Game Nat Nat Nat Int)).net.cells 40 =
        some cell ∧ casinoWorth.gold cell.t = some 51000 :=
    ⟨_, rfl, rfl⟩
  refine ⟨first, last, ?_⟩
  rintro ⟨t, cell, start, gold, account⟩
  obtain ⟨u, member, before, was, more⟩ := first
  obtain ⟨cell', there, now⟩ := last
  obtain rfl : cell' = cell := Option.some.inj (there.symm.trans account.there)
  obtain ⟨earlier, value, fell⟩ := account.falls u member before was
  obtain rfl : 50000 = earlier := Option.some.inj (more.symm.trans value)
  obtain rfl : 51000 = gold := Option.some.inj (now.symm.trans account.now)
  norm_num at fell

end Game

end System

end WindLtask
