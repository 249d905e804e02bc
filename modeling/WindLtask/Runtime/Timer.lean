import Mathlib.Algebra.Ring.Nat
import Mathlib.Data.Nat.Bits
import Mathlib.Logic.Function.Basic
import Mathlib.Tactic.SplitIfs
import WindLtask.Lib.Calendar

/-!
# The timer wheel

`ltask/src/timer.c`: the lists `n[256]` and `t[4][64]` of timers, and the
functions that put a timer into its list and move the lists on as time passes.
A `uint32_t` is a natural number below `2 ^ 32`.
-/

namespace WindLtask.Runtime

/-- What a timer carries, and the time when it expires. -/
structure TimerNode (A : Type) where
  expire : ℕ
  arg : A
deriving DecidableEq

/-- The lists of the wheel: `n[idx]` and `t[level][idx]`. -/
inductive LinkList where
  | n (idx : ℕ)
  | t (level idx : ℕ)
deriving DecidableEq

def timeNear : ℕ := 256
def timeLevelShift : ℕ := 6
def timeNearMask : ℕ := 255
def timeLevelMask : ℕ := 63

/-- The number of values of a `uint32_t`. -/
def word : ℕ := 4294967296

structure Timer (A : Type) where
  links : LinkList → List (TimerNode A)
  time : ℕ

namespace Timer

variable {A : Type}

/-- `timer_new` -/
def new : Timer A := { links := fun _ => [], time := 0 }

def linkClear (T : Timer A) (list : LinkList) : Timer A :=
  { T with links := Function.update T.links list [] }

def link (T : Timer A) (list : LinkList) (node : TimerNode A) : Timer A :=
  { T with links := Function.update T.links list (T.links list ++ [node]) }

/-- The loop of `add_node` over the levels from `i` on. -/
def levelLoop (time current : ℕ) : ℕ → ℕ → ℕ → ℕ
  | 0, i, _ => i
  | turns + 1, i, mask =>
      if time ||| (mask - 1) = current ||| (mask - 1) then i
      else levelLoop time current turns (i + 1) (mask <<< timeLevelShift)

def addNode (T : Timer A) (node : TimerNode A) : Timer A :=
  if node.expire ||| timeNearMask = T.time ||| timeNearMask then
    T.link (.n (node.expire &&& timeNearMask)) node
  else
    let i := levelLoop node.expire T.time 3 0 (timeNear <<< timeLevelShift)
    T.link (.t i ((node.expire >>> (8 + i * 6)) &&& timeLevelMask)) node

/-- `timer_add` of a `time` that is not negative. -/
def add (T : Timer A) (arg : A) (time : ℕ) : Timer A :=
  T.addNode { expire := (time + T.time) % word, arg := arg }

def moveList (T : Timer A) (level idx : ℕ) : Timer A :=
  (T.links (.t level idx)).foldl addNode (T.linkClear (.t level idx))

/-- The loop of `timer_shift`: the level and the index of the list that it moves. -/
def shiftLoop (ct : ℕ) : ℕ → ℕ → ℕ → ℕ → Option (ℕ × ℕ)
  | 0, _, _, _ => none
  | turns + 1, mask, time, i =>
      if ct &&& (mask - 1) = 0 then
        let idx := time &&& timeLevelMask
        if idx ≠ 0 then some (i, idx)
        else shiftLoop ct turns (mask <<< timeLevelShift) (time >>> timeLevelShift) (i + 1)
      else none

/-- `timer_shift`; the loop takes four turns at most. -/
def shift (T : Timer A) : Timer A :=
  let ct := (T.time + 1) % word
  let T := { T with time := ct }
  if ct = 0 then T.moveList 3 0
  else
    match shiftLoop ct 4 timeNear (ct >>> 8) 0 with
    | some (i, idx) => T.moveList i idx
    | none => T

/-- One turn of the loop of `timer_execute`: the timers to dispatch, if there are any. -/
def execute (T : Timer A) : Option (List A × Timer A) :=
  let list := LinkList.n (T.time &&& timeNearMask)
  if T.links list = [] then none
  else some ((T.links list).map TimerNode.arg, T.linkClear list)

@[simp] theorem linkClear_time (T : Timer A) (list : LinkList) :
    (T.linkClear list).time = T.time := rfl

@[simp] theorem link_time (T : Timer A) (list : LinkList) (node : TimerNode A) :
    (T.link list node).time = T.time := rfl

@[simp] theorem addNode_time (T : Timer A) (node : TimerNode A) :
    (T.addNode node).time = T.time := by
  unfold addNode
  split <;> rfl

@[simp] theorem foldl_addNode_time (nodes : List (TimerNode A)) (T : Timer A) :
    (nodes.foldl addNode T).time = T.time := by
  induction nodes generalizing T with
  | nil => rfl
  | cons node nodes ih => rw [List.foldl_cons, ih, addNode_time]

@[simp] theorem moveList_time (T : Timer A) (level idx : ℕ) :
    (T.moveList level idx).time = T.time := by
  simp [moveList]

/-! ## The list of a timer -/

/-- Two numbers agree above the low `k` bits when they are in one block of `2 ^ k`. -/
theorem lor_mask_iff (k a b : ℕ) :
    a ||| (2 ^ k - 1) = b ||| (2 ^ k - 1) ↔ a / 2 ^ k = b / 2 ^ k := by
  rw [← Nat.shiftRight_eq_div_pow, ← Nat.shiftRight_eq_div_pow]
  constructor
  · intro same
    apply Nat.eq_of_testBit_eq
    intro i
    have bit := congrArg (Nat.testBit · (k + i)) same
    have high : ¬ k + i < k := by omega
    simpa [Nat.testBit_or, Nat.testBit_two_pow_sub_one, high] using bit
  · intro same
    apply Nat.eq_of_testBit_eq
    intro i
    by_cases low : i < k
    · simp [Nat.testBit_or, Nat.testBit_two_pow_sub_one, low]
    · have bit := congrArg (Nat.testBit · (i - k)) same
      have index : k + (i - k) = i := by omega
      simpa [Nat.testBit_or, Nat.testBit_two_pow_sub_one, low, index] using bit

/-- The list where a timer that expires at `expire` belongs at time `now`. -/
def place (expire now : ℕ) : LinkList :=
  if expire / 256 = now / 256 then .n (expire % 256)
  else if expire / 16384 = now / 16384 then .t 0 (expire / 256 % 64)
  else if expire / 1048576 = now / 1048576 then .t 1 (expire / 16384 % 64)
  else if expire / 67108864 = now / 67108864 then .t 2 (expire / 1048576 % 64)
  else .t 3 (expire / 67108864 % 64)

theorem levelLoop_eq (time current : ℕ) :
    levelLoop time current 3 0 (timeNear <<< timeLevelShift) =
      if time / 16384 = current / 16384 then 0
      else if time / 1048576 = current / 1048576 then 1
      else if time / 67108864 = current / 67108864 then 2 else 3 := by
  have zero : time ||| 16383 = current ||| 16383 ↔ time / 16384 = current / 16384 :=
    lor_mask_iff 14 time current
  have one : time ||| 1048575 = current ||| 1048575 ↔ time / 1048576 = current / 1048576 :=
    lor_mask_iff 20 time current
  have two : time ||| 67108863 = current ||| 67108863 ↔ time / 67108864 = current / 67108864 :=
    lor_mask_iff 26 time current
  change (if time ||| 16383 = current ||| 16383 then 0
    else if time ||| 1048575 = current ||| 1048575 then 1
    else if time ||| 67108863 = current ||| 67108863 then 2 else 3) = _
  simp only [zero, one, two]

theorem digit_eq (time k : ℕ) : (time >>> k) &&& timeLevelMask = time / 2 ^ k % 64 := by
  rw [Nat.shiftRight_eq_div_pow]
  exact Nat.and_two_pow_sub_one_eq_mod _ 6

theorem addNode_eq (T : Timer A) (node : TimerNode A) :
    T.addNode node = T.link (place node.expire T.time) node := by
  have near : node.expire ||| timeNearMask = T.time ||| timeNearMask ↔
      node.expire / 256 = T.time / 256 := lor_mask_iff 8 node.expire T.time
  have low : node.expire &&& timeNearMask = node.expire % 256 :=
    Nat.and_two_pow_sub_one_eq_mod _ 8
  simp only [addNode, place, near, low, levelLoop_eq, digit_eq]
  split_ifs <;> rfl

/-- The list that `timer_shift` moves when the time becomes `ct`. -/
def moved (ct : ℕ) : Option (ℕ × ℕ) :=
  if ct = 0 then some (3, 0)
  else if ct % 256 ≠ 0 then none
  else if ct / 256 % 64 ≠ 0 then some (0, ct / 256 % 64)
  else if ct / 16384 % 64 ≠ 0 then some (1, ct / 16384 % 64)
  else if ct / 1048576 % 64 ≠ 0 then some (2, ct / 1048576 % 64)
  else some (3, ct / 67108864 % 64)

theorem shiftLoop_eq {ct : ℕ} (positive : ct ≠ 0) (bound : ct < word) :
    shiftLoop ct 4 timeNear (ct >>> 8) 0 = moved ct := by
  have low : ct &&& 255 = ct % 256 := Nat.and_two_pow_sub_one_eq_mod _ 8
  have zero : ct &&& 16383 = ct % 16384 := Nat.and_two_pow_sub_one_eq_mod _ 14
  have one : ct &&& 1048575 = ct % 1048576 := Nat.and_two_pow_sub_one_eq_mod _ 20
  have two : ct &&& 67108863 = ct % 67108864 := Nat.and_two_pow_sub_one_eq_mod _ 26
  have d0 : (ct >>> 8) &&& 63 = ct / 256 % 64 := digit_eq ct 8
  have d1 : ((ct >>> 8) >>> 6) &&& 63 = ct / 16384 % 64 := by
    rw [← Nat.shiftRight_add]
    exact digit_eq ct 14
  have d2 : (((ct >>> 8) >>> 6) >>> 6) &&& 63 = ct / 1048576 % 64 := by
    rw [← Nat.shiftRight_add, ← Nat.shiftRight_add]
    exact digit_eq ct 20
  have d3 : ((((ct >>> 8) >>> 6) >>> 6) >>> 6) &&& 63 = ct / 67108864 % 64 := by
    rw [← Nat.shiftRight_add, ← Nat.shiftRight_add, ← Nat.shiftRight_add]
    exact digit_eq ct 26
  change (if ct &&& 255 = 0 then
      if (ct >>> 8) &&& 63 ≠ 0 then some (0, (ct >>> 8) &&& 63)
      else if ct &&& 16383 = 0 then
        if ((ct >>> 8) >>> 6) &&& 63 ≠ 0 then some (1, ((ct >>> 8) >>> 6) &&& 63)
        else if ct &&& 1048575 = 0 then
          if (((ct >>> 8) >>> 6) >>> 6) &&& 63 ≠ 0 then
            some (2, (((ct >>> 8) >>> 6) >>> 6) &&& 63)
          else if ct &&& 67108863 = 0 then
            if ((((ct >>> 8) >>> 6) >>> 6) >>> 6) &&& 63 ≠ 0 then
              some (3, ((((ct >>> 8) >>> 6) >>> 6) >>> 6) &&& 63)
            else none
          else none
        else none
      else none
    else none) = moved ct
  rw [low, zero, one, two, d0, d1, d2, d3, moved, if_neg positive]
  by_cases near : ct % 256 = 0
  · rw [if_pos near, if_neg (not_not.mpr near)]
    by_cases first : ct / 256 % 64 = 0
    · rw [if_neg (not_not.mpr first), if_neg (not_not.mpr first), if_pos (by omega)]
      by_cases second : ct / 16384 % 64 = 0
      · rw [if_neg (not_not.mpr second), if_neg (not_not.mpr second), if_pos (by omega)]
        by_cases third : ct / 1048576 % 64 = 0
        · have last : ct / 67108864 % 64 ≠ 0 := by
            unfold word at bound
            omega
          rw [if_neg (not_not.mpr third), if_neg (not_not.mpr third), if_pos (by omega),
            if_pos last]
        · rw [if_pos third, if_pos third]
      · rw [if_pos second, if_pos second]
    · rw [if_pos first, if_pos first]
  · rw [if_neg near, if_pos near]

/-- `timer_shift` counts the time up and moves the list of that time on. -/
theorem shift_eq (T : Timer A) :
    T.shift = match moved ((T.time + 1) % word) with
      | some (i, idx) => ({ T with time := (T.time + 1) % word } : Timer A).moveList i idx
      | none => { T with time := (T.time + 1) % word } := by
  have bound : (T.time + 1) % word < word := Nat.mod_lt _ (by decide)
  unfold shift
  by_cases wraps : (T.time + 1) % word = 0
  · simp [wraps, moved]
  · simp only [wraps, if_false, shiftLoop_eq wraps bound]

@[simp] theorem shift_time (T : Timer A) : T.shift.time = (T.time + 1) % word := by
  rw [shift_eq]
  split <;> simp

section Place

variable {expire now : ℕ}

theorem place_n (near : expire / 256 = now / 256) : place expire now = .n (expire % 256) := by
  simp [place, near]

theorem place_t0 (far : expire / 256 ≠ now / 256) (near : expire / 16384 = now / 16384) :
    place expire now = .t 0 (expire / 256 % 64) := by
  simp [place, far, near]

theorem place_t1 (far : expire / 16384 ≠ now / 16384) (near : expire / 1048576 = now / 1048576) :
    place expire now = .t 1 (expire / 16384 % 64) := by
  have far0 : expire / 256 ≠ now / 256 := by omega
  simp [place, far0, far, near]

theorem place_t2 (far : expire / 1048576 ≠ now / 1048576)
    (near : expire / 67108864 = now / 67108864) :
    place expire now = .t 2 (expire / 1048576 % 64) := by
  have far0 : expire / 256 ≠ now / 256 := by omega
  have far1 : expire / 16384 ≠ now / 16384 := by omega
  simp [place, far0, far1, far, near]

theorem place_t3 (far : expire / 67108864 ≠ now / 67108864) :
    place expire now = .t 3 (expire / 67108864 % 64) := by
  have far0 : expire / 256 ≠ now / 256 := by omega
  have far1 : expire / 16384 ≠ now / 16384 := by omega
  have far2 : expire / 1048576 ≠ now / 1048576 := by omega
  simp [place, far0, far1, far2, far]

/--
A timer that is due later stays in its list when the time counts up, unless
`timer_shift` moves that list.
-/
theorem place_next {delay : ℕ} (bound : now < word) (later : 0 < delay)
    (short : delay < 2147483648) (expires : expire = (now + delay) % word)
    (still : ∀ i idx, moved ((now + 1) % word) = some (i, idx) → place expire now ≠ .t i idx) :
    place expire ((now + 1) % word) = place expire now := by
  unfold word at bound expires still ⊢
  by_cases wraps : now = 4294967295
  · -- the time wraps, and `t[3][0]` is moved
    subst wraps
    have far : expire / 67108864 ≠ 4294967295 / 67108864 := by omega
    have other := still 3 0 (by decide)
    rw [place_t3 far] at other ⊢
    have digit : expire / 67108864 % 64 ≠ 0 := fun zero => other (by rw [zero])
    rw [place_t3 (by omega)]
  have next : (now + 1) % 4294967296 = now + 1 := by omega
  rw [next] at still ⊢
  rw [moved, if_neg (by omega)] at still
  by_cases low : (now + 1) % 256 ≠ 0
  · -- the time stays in its block of 256
    have block0 : (now + 1) / 256 = now / 256 := by omega
    have block1 : (now + 1) / 16384 = now / 16384 := by omega
    have block2 : (now + 1) / 1048576 = now / 1048576 := by omega
    have block3 : (now + 1) / 67108864 = now / 67108864 := by omega
    simp only [place, block0, block1, block2, block3]
  rw [if_neg low] at still
  by_cases digit0 : (now + 1) / 256 % 64 ≠ 0
  · rw [if_pos digit0] at still
    have block1 : (now + 1) / 16384 = now / 16384 := by omega
    have block2 : (now + 1) / 1048576 = now / 1048576 := by omega
    have block3 : (now + 1) / 67108864 = now / 67108864 := by omega
    by_cases near : expire / 16384 = now / 16384
    · have here := place_t0 (by omega) near
      have other := still 0 _ rfl
      rw [here] at other
      have digit : expire / 256 % 64 ≠ (now + 1) / 256 % 64 := fun same => other (by rw [same])
      rw [here, place_t0 (by omega) (by omega)]
    · have far0 : expire / 256 ≠ now / 256 := by omega
      have far0' : expire / 256 ≠ (now + 1) / 256 := by omega
      simp only [place, block1, block2, block3, near, far0, far0', if_false]
  rw [if_neg digit0] at still
  by_cases digit1 : (now + 1) / 16384 % 64 ≠ 0
  · rw [if_pos digit1] at still
    have block2 : (now + 1) / 1048576 = now / 1048576 := by omega
    have block3 : (now + 1) / 67108864 = now / 67108864 := by omega
    by_cases near : expire / 1048576 = now / 1048576
    · have here := place_t1 (by omega) near
      have other := still 1 _ rfl
      rw [here] at other
      have digit : expire / 16384 % 64 ≠ (now + 1) / 16384 % 64 := fun same => other (by rw [same])
      rw [here, place_t1 (by omega) (by omega)]
    · by_cases near3 : expire / 67108864 = now / 67108864
      · rw [place_t2 near near3, place_t2 (by omega) (by omega)]
      · rw [place_t3 near3, place_t3 (by omega)]
  rw [if_neg digit1] at still
  by_cases digit2 : (now + 1) / 1048576 % 64 ≠ 0
  · rw [if_pos digit2] at still
    have block3 : (now + 1) / 67108864 = now / 67108864 := by omega
    by_cases near : expire / 67108864 = now / 67108864
    · have here := place_t2 (by omega) near
      have other := still 2 _ rfl
      rw [here] at other
      have digit : expire / 1048576 % 64 ≠ (now + 1) / 1048576 % 64 :=
        fun same => other (by rw [same])
      rw [here, place_t2 (by omega) (by omega)]
    · rw [place_t3 near, place_t3 (by omega)]
  · rw [if_neg digit2] at still
    have here : place expire now = _ := place_t3 (by omega)
    have other := still 3 _ rfl
    rw [here] at other
    have digit : expire / 67108864 % 64 ≠ (now + 1) / 67108864 % 64 :=
      fun same => other (by rw [same])
    rw [here, place_t3 (by omega)]

end Place

/-! ## What the wheel holds -/

/-- Every timer is in the list where it belongs now. -/
def Placed (T : Timer A) : Prop :=
  ∀ list, ∀ node ∈ T.links list, list = place node.expire T.time

/-- The timers that expire at `expire`, in their order. -/
def holding (T : Timer A) (expire : ℕ) : List (TimerNode A) :=
  (T.links (place expire T.time)).filter fun node => node.expire = expire

/-- A list that is not the one of `expire` has no timer that expires then. -/
theorem Placed.filter_eq_nil {T : Timer A} (placed : T.Placed) {expire : ℕ} {list : LinkList}
    (other : list ≠ place expire T.time) :
    ((T.links list).filter fun node => node.expire = expire) = [] := by
  simp only [List.filter_eq_nil_iff, decide_eq_true_eq]
  intro node member same
  exact other (same ▸ placed list node member)

theorem links_link (T : Timer A) (list : LinkList) (node : TimerNode A) (other : LinkList) :
    (T.link list node).links other =
      T.links other ++ if other = list then [node] else [] := by
  by_cases same : other = list
  · subst same
    simp [link]
  · simp [link, same]

theorem Placed.addNode {T : Timer A} (placed : T.Placed) (node : TimerNode A) :
    (T.addNode node).Placed := by
  intro list other member
  rw [addNode_eq, links_link] at member
  rw [addNode_time]
  rcases List.mem_append.mp member with old | new
  · exact placed list other old
  · split at new
    · next here =>
        obtain rfl : other = node := by simpa using new
        exact here
    · simp at new

theorem holding_addNode (T : Timer A) (node : TimerNode A) (expire : ℕ) :
    (T.addNode node).holding expire =
      T.holding expire ++ [node].filter fun node => node.expire = expire := by
  unfold holding
  rw [addNode_time, addNode_eq, links_link, List.filter_append]
  congr 1
  by_cases same : node.expire = expire
  · simp [same]
  · split <;> simp [same]

theorem Placed.foldl_addNode (nodes : List (TimerNode A)) {T : Timer A} (placed : T.Placed) :
    (nodes.foldl Timer.addNode T).Placed := by
  induction nodes generalizing T with
  | nil => exact placed
  | cons node nodes ih => exact ih (placed.addNode node)

theorem holding_foldl_addNode (nodes : List (TimerNode A)) (T : Timer A) (expire : ℕ) :
    (nodes.foldl addNode T).holding expire =
      T.holding expire ++ nodes.filter fun node => node.expire = expire := by
  induction nodes generalizing T with
  | nil => simp
  | cons node nodes ih =>
      rw [List.foldl_cons, ih, holding_addNode, List.append_assoc, ← List.filter_append]
      rfl

/-- The timer expires after `now`, by less than an `int` can say. -/
def Ahead (expire now : ℕ) : Prop :=
  ∃ delay, 0 < delay ∧ delay < 2147483648 ∧ expire = (now + delay) % word

/-- The wheel once its time has counted up and the list to move has been cleared. -/
def turned (T : Timer A) : Timer A :=
  match moved ((T.time + 1) % word) with
  | some (i, idx) => ({ T with time := (T.time + 1) % word } : Timer A).linkClear (.t i idx)
  | none => { T with time := (T.time + 1) % word }

/-- The timers that `timer_shift` moves. -/
def movedNodes (T : Timer A) : List (TimerNode A) :=
  match moved ((T.time + 1) % word) with
  | some (i, idx) => T.links (.t i idx)
  | none => []

theorem shift_eq_foldl (T : Timer A) : T.shift = T.movedNodes.foldl addNode T.turned := by
  rw [shift_eq, turned, movedNodes]
  split <;> rfl

@[simp] theorem turned_time (T : Timer A) : T.turned.time = (T.time + 1) % word := by
  unfold turned
  split <;> rfl

theorem links_turned_moved {T : Timer A} {i idx : ℕ}
    (found : moved ((T.time + 1) % word) = some (i, idx)) : T.turned.links (.t i idx) = [] := by
  simp [turned, found, linkClear]

theorem links_turned_other {T : Timer A} {list : LinkList}
    (other : ∀ i idx, moved ((T.time + 1) % word) = some (i, idx) → list ≠ .t i idx) :
    T.turned.links list = T.links list := by
  unfold turned
  split
  · next i idx found => simp [linkClear, other i idx found]
  · rfl

theorem mem_links_turned {T : Timer A} {list : LinkList} {node : TimerNode A}
    (member : node ∈ T.turned.links list) :
    node ∈ T.links list ∧
      ∀ i idx, moved ((T.time + 1) % word) = some (i, idx) → list ≠ .t i idx := by
  have other : ∀ i idx, moved ((T.time + 1) % word) = some (i, idx) → list ≠ .t i idx := by
    rintro i idx found rfl
    rw [links_turned_moved found] at member
    cases member
  exact ⟨links_turned_other other ▸ member, other⟩

section Shift

variable {T : Timer A} (placed : T.Placed) (bound : T.time < word)
  (ahead : ∀ list, ∀ node ∈ T.links list, Ahead node.expire T.time)

include placed bound ahead

theorem Placed.turned : T.turned.Placed := by
  intro list node member
  obtain ⟨old, other⟩ := mem_links_turned member
  have here := placed list node old
  obtain ⟨delay, later, short, expires⟩ := ahead list node old
  rw [turned_time, place_next bound later short expires (here ▸ other)]
  exact here

/-- The timers of one time are kept or moved together. -/
theorem holding_turned (expire : ℕ) :
    T.turned.holding expire ++ (T.movedNodes.filter fun node => node.expire = expire) =
      T.holding expire := by
  by_cases moves : ∃ i idx, moved ((T.time + 1) % word) = some (i, idx) ∧
      place expire T.time = .t i idx
  · obtain ⟨i, idx, found, here⟩ := moves
    have none : T.turned.holding expire = [] := by
      simp only [holding, List.filter_eq_nil_iff, decide_eq_true_eq]
      intro node member same
      obtain ⟨old, other⟩ := mem_links_turned member
      exact other i idx found ((placed _ node old).trans (same ▸ here))
    rw [none, List.nil_append, movedNodes, found, holding, here]
  · have stays : ∀ i idx, moved ((T.time + 1) % word) = some (i, idx) →
        place expire T.time ≠ .t i idx := fun i idx found here => moves ⟨i, idx, found, here⟩
    have none : (T.movedNodes.filter fun node => node.expire = expire) = [] := by
      unfold movedNodes
      split
      · next i idx found => exact placed.filter_eq_nil (stays i idx found).symm
      · rfl
    rw [none, List.append_nil]
    unfold holding
    by_cases empty : ∃ list, ∃ node ∈ T.links list, node.expire = expire
    · obtain ⟨list, node, member, rfl⟩ := empty
      obtain ⟨delay, later, short, expires⟩ := ahead list node member
      rw [turned_time, place_next bound later short expires stays, links_turned_other stays]
    · have clear : ∀ list, ((T.links list).filter fun node => node.expire = expire) = [] := by
        intro list
        simp only [List.filter_eq_nil_iff, decide_eq_true_eq]
        exact fun node member same => empty ⟨list, node, member, same⟩
      rw [clear]
      simp only [List.filter_eq_nil_iff, decide_eq_true_eq]
      intro node member same
      exact empty ⟨_, node, (mem_links_turned member).1, same⟩

/-- `timer_shift` keeps every timer, and keeps those of one time in their order. -/
theorem holding_shift (expire : ℕ) : T.shift.holding expire = T.holding expire := by
  rw [shift_eq_foldl, holding_foldl_addNode, holding_turned placed bound ahead]

theorem Placed.shift : T.shift.Placed := by
  rw [shift_eq_foldl]
  exact (placed.turned bound ahead).foldl_addNode _

end Shift

/-! ## The wheel as a calendar -/

/-- What is on the calendar as timers: the wheel keeps the low 32 bits of a day. -/
def nodesOf (items : List (ℕ × A)) : List (TimerNode A) :=
  items.map fun item => { expire := item.1 % word, arg := item.2 }

/-- The wheel holds the timers of a calendar that looks no further ahead than an `int`. -/
structure Shows (T : Timer A) (c : Lib.Calendar A) : Prop where
  placed : T.Placed
  time : T.time = c.now % word
  near : ∀ item ∈ c.pending, c.now ≤ item.1 ∧ item.1 < c.now + 2147483648
  holds : ∀ expire, T.holding expire =
    (nodesOf c.pending).filter fun node => node.expire = expire

namespace Shows

variable {T : Timer A} {c : Lib.Calendar A}

theorem bound (shows : T.Shows c) : T.time < word := by
  rw [shows.time]
  exact Nat.mod_lt _ (by decide)

theorem new : (Timer.new : Timer A).Shows Lib.Calendar.start where
  placed := by simp [Placed, Timer.new]
  time := rfl
  near := by simp [Lib.Calendar.start]
  holds := by simp [holding, Timer.new, nodesOf, Lib.Calendar.start]

/-- A timer of the wheel is on the calendar. -/
theorem mem_pending (shows : T.Shows c) {list : LinkList} {node : TimerNode A}
    (member : node ∈ T.links list) : ∃ day, (day, node.arg) ∈ c.pending ∧
      node.expire = day % word := by
  have held : node ∈ T.holding node.expire := by
    simp [holding, ← shows.placed list node member, member]
  rw [shows.holds] at held
  obtain ⟨⟨day, a⟩, known, rfl⟩ := List.mem_map.mp (List.mem_of_mem_filter held)
  exact ⟨day, known, rfl⟩

theorem add (shows : T.Shows c) {delay : ℕ} (short : delay < 2147483648) (a : A) :
    (T.add a delay).Shows (c.add delay a) := by
  have expires : (delay + T.time) % word = (c.now + delay) % word := by
    rw [shows.time, Nat.add_mod_mod, Nat.add_comm]
  refine ⟨shows.placed.addNode _, ?_, ?_, ?_⟩
  · rw [Timer.add, addNode_time, shows.time]
    rfl
  · intro item member
    rcases List.mem_append.mp member with old | new
    · exact shows.near item old
    · obtain rfl : item = (c.now + delay, a) := by simpa using new
      simp only [Lib.Calendar.add_now]
      omega
  · intro expire
    rw [Timer.add, holding_addNode, shows.holds, ← List.filter_append, expires]
    simp [nodesOf, Lib.Calendar.add]

/-- When nothing is due now, `timer_shift` is the next day of the calendar. -/
theorem shift (shows : T.Shows c) (empty : c.due = []) : T.shift.Shows c.advance := by
  have ahead : ∀ list, ∀ node ∈ T.links list, Ahead node.expire T.time := by
    intro list node member
    obtain ⟨day, known, expires⟩ := shows.mem_pending member
    have near := shows.near _ known
    have other : day ≠ c.now := Lib.onDay_eq_nil_iff.mp empty _ known
    refine ⟨day - c.now, by omega, by omega, ?_⟩
    rw [expires, shows.time, Nat.mod_add_mod]
    congr 1
    omega
  refine ⟨shows.placed.shift shows.bound ahead, ?_, ?_, ?_⟩
  · rw [shift_time, shows.time, Nat.mod_add_mod]
    rfl
  · intro item member
    have near := shows.near item member
    have other : item.1 ≠ c.now := Lib.onDay_eq_nil_iff.mp empty item member
    simp only [Lib.Calendar.advance_now]
    omega
  · intro expire
    rw [holding_shift shows.placed shows.bound ahead, shows.holds]
    rfl

/-- `timer_execute` looks at the list of what expires now. -/
theorem place_eq_now {T : Timer A} {expire : ℕ} :
    place expire T.time = .n (T.time &&& timeNearMask) ↔ expire = T.time := by
  have low : T.time &&& timeNearMask = T.time % 256 := Nat.and_two_pow_sub_one_eq_mod _ 8
  rw [low]
  constructor
  · intro here
    unfold place at here
    split_ifs at here with near
    have same : expire % 256 = T.time % 256 := LinkList.n.inj here
    omega
  · rintro rfl
    exact place_n rfl

/-- That list holds nothing else. -/
theorem links_now (shows : T.Shows c) :
    T.links (.n (T.time &&& timeNearMask)) = T.holding T.time := by
  rw [holding, place_eq_now.mpr rfl]
  symm
  rw [List.filter_eq_self]
  intro node member
  have same : node.expire = T.time := place_eq_now.mp (shows.placed _ node member).symm
  simpa using same

/-- The days of the calendar differ where the expiry times do. -/
theorem expires_now (shows : T.Shows c) {item : ℕ × A} (member : item ∈ c.pending) :
    item.1 % word = T.time ↔ item.1 = c.now := by
  have near := shows.near item member
  rw [shows.time]
  unfold word
  omega

theorem holding_now (shows : T.Shows c) : (T.holding T.time).map TimerNode.arg = c.due := by
  rw [shows.holds, nodesOf, List.filter_map, List.map_map, Lib.Calendar.due, Lib.onDay]
  have same : (c.pending.filter fun item => item.1 % word = T.time) =
      c.pending.filter fun item => item.1 = c.now := by
    apply List.filter_congr
    intro item member
    simp only [shows.expires_now member]
  exact congrArg (List.map Prod.snd) same

/-- `timer_execute` ends its loop when nothing is due. -/
theorem execute_none (shows : T.Shows c) (ends : T.execute = none) : c.due = [] := by
  simp only [execute] at ends
  split at ends
  · next empty => rw [← shows.holding_now, ← shows.links_now, empty, List.map_nil]
  · cases ends

/-- A turn of `timer_execute` takes what is due off the calendar. -/
theorem execute_some (shows : T.Shows c) {hand : List A} {T' : Timer A}
    (turn : T.execute = some (hand, T')) : hand = c.due ∧ T'.Shows c.take := by
  simp only [execute] at turn
  split at turn
  · cases turn
  obtain ⟨rfl, rfl⟩ : _ = hand ∧ _ = T' := by simpa using turn
  refine ⟨by rw [← shows.holding_now, shows.links_now], ?_, shows.time, ?_, ?_⟩
  · intro list node member
    by_cases here : list = .n (T.time &&& timeNearMask)
    · simp [linkClear, here] at member
    · exact shows.placed list node (by simpa [linkClear, here] using member)
  · exact fun item member => shows.near item (List.mem_of_mem_filter member)
  · intro expire
    by_cases now : expire = T.time
    · subst now
      have cleared : (T.linkClear (.n (T.time &&& timeNearMask))).holding T.time = [] := by
        simp [holding, place_eq_now.mpr rfl, linkClear]
      rw [cleared]
      symm
      simp only [nodesOf, Lib.Calendar.take, List.filter_eq_nil_iff, decide_eq_true_eq]
      intro node member same
      obtain ⟨item, kept, rfl⟩ := List.mem_map.mp member
      obtain ⟨known, other⟩ := List.mem_filter.mp kept
      exact (of_decide_eq_true other) ((shows.expires_now known).mp same)
    · have other : place expire T.time ≠ .n (T.time &&& timeNearMask) :=
        fun here => now (place_eq_now.mp here)
      have kept : (T.linkClear (.n (T.time &&& timeNearMask))).holding expire =
          T.holding expire := by
        simp [holding, linkClear, other]
      rw [kept, shows.holds]
      simp only [nodesOf, Lib.Calendar.take, List.filter_map, List.filter_filter]
      congr 1
      apply List.filter_congr
      intro item member
      have apart : item.1 % word = expire → ¬ item.1 = c.now :=
        fun same today => now (same ▸ (shows.expires_now member).mpr today)
      by_cases same : item.1 % word = expire
      · simp [same, apart same]
      · simp [same]

end Shows

end Timer

end WindLtask.Runtime
