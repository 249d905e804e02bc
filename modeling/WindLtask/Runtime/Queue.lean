import Mathlib.Algebra.Ring.Nat
import Mathlib.Data.Nat.Bitwise
import Mathlib.Logic.Function.Basic
import WindLtask.Lib.Fifo
import WindLtask.Lib.Transition

/-!
# The queue of one writer and one reader

`ltask/src/queue.c`: a ring of cells with the positions of its head and its tail.
The writer and the reader run on different threads; every load, store and
compare-and-swap of theirs is a step of its own, in any order of the two.
-/

namespace WindLtask.Runtime

open Lib

variable {A : Type}

/-- `struct queue`, with what `queue_new` asserts of its size. -/
structure Queue (A : Type) where
  size : ℕ
  head : ℕ
  tail : ℕ
  data : ℕ → A
  isPow2 : ∃ k, size = 2 ^ k
  head_lt : head < size
  tail_lt : tail < size

namespace Queue

/-- `queue_position` -/
def position (size p : ℕ) : ℕ := p &&& (size - 1)

theorem position_eq_mod {size : ℕ} (isPow2 : ∃ k, size = 2 ^ k) (p : ℕ) :
    position size p = p % size := by
  obtain ⟨k, rfl⟩ := isPow2
  exact Nat.and_two_pow_sub_one_eq_mod p k

theorem position_lt {size : ℕ} (isPow2 : ∃ k, size = 2 ^ k) (p : ℕ) : position size p < size := by
  rw [position_eq_mod isPow2]
  obtain ⟨k, rfl⟩ := isPow2
  exact Nat.mod_lt p (Nat.two_pow_pos k)

/-- `queue_new`; `malloc` leaves any data in the cells. -/
def new (size : ℕ) (isPow2 : ∃ k, size = 2 ^ k) (data : ℕ → A) : Queue A :=
  have positive : 0 < size := by
    obtain ⟨k, rfl⟩ := isPow2
    exact Nat.two_pow_pos k
  { size := size, head := 0, tail := 0, data := data, isPow2 := isPow2
    head_lt := positive, tail_lt := positive }

def write (q : Queue A) (at' : ℕ) (v : A) : Queue A :=
  { q with data := Function.update q.data at' v }

def moveTail (q : Queue A) (p : ℕ) : Queue A :=
  { q with tail := position q.size p, tail_lt := position_lt q.isPow2 p }

def moveHead (q : Queue A) (p : ℕ) : Queue A :=
  { q with head := position q.size p, head_lt := position_lt q.isPow2 p }

/-- `queue_length` -/
def length (q : Queue A) : ℕ :=
  if q.tail < q.head then q.tail + q.size - q.head else q.tail - q.head

@[simp] theorem write_tail (q : Queue A) (p : ℕ) (v : A) : (q.write p v).tail = q.tail := rfl

@[simp] theorem moveTail_size (q : Queue A) (p : ℕ) : (q.moveTail p).size = q.size := rfl

@[simp] theorem moveTail_head (q : Queue A) (p : ℕ) : (q.moveTail p).head = q.head := rfl

@[simp] theorem moveTail_tail (q : Queue A) (p : ℕ) :
    (q.moveTail p).tail = position q.size p := rfl

@[simp] theorem moveHead_size (q : Queue A) (p : ℕ) : (q.moveHead p).size = q.size := rfl

@[simp] theorem moveHead_head (q : Queue A) (p : ℕ) :
    (q.moveHead p).head = position q.size p := rfl

@[simp] theorem moveHead_tail (q : Queue A) (p : ℕ) : (q.moveHead p).tail = q.tail := rfl

/-! ## The values of a queue -/

/-- The cells from the head to the tail hold these values. -/
structure Shows (q : Queue A) (values : List A) : Prop where
  fits : values.length < q.size
  ends : position q.size (q.head + values.length) = q.tail
  cells : ∀ i v, values[i]? = some v → q.data (position q.size (q.head + i)) = v

/-- Different cells within one turn of the ring have different positions. -/
theorem position_injective {size a b : ℕ} (isPow2 : ∃ k, size = 2 ^ k) (le : a ≤ b)
    (near : b - a < size) (same : position size a = position size b) : a = b := by
  rw [position_eq_mod isPow2, position_eq_mod isPow2] at same
  have turns : (b - a) % size = 0 := Nat.sub_mod_eq_zero_of_mod_eq same.symm
  rw [Nat.mod_eq_of_lt near] at turns
  omega

theorem position_position {size : ℕ} (isPow2 : ∃ k, size = 2 ^ k) (a b : ℕ) :
    position size (position size a + b) = position size (a + b) := by
  simp only [position_eq_mod isPow2, Nat.mod_add_mod]

theorem position_small {size p : ℕ} (isPow2 : ∃ k, size = 2 ^ k) (small : p < size) :
    position size p = p := by
  rw [position_eq_mod isPow2, Nat.mod_eq_of_lt small]

namespace Shows

variable {q : Queue A} {values : List A}

theorem tail_next (shows' : q.Shows values) :
    position q.size (q.tail + 1) = position q.size (q.head + (values.length + 1)) := by
  rw [← shows'.ends, position_position q.isPow2, Nat.add_assoc]

/-- `queue_length` counts the values. -/
theorem length_eq (shows' : q.Shows values) : q.length = values.length := by
  have ends := shows'.ends
  have fits := shows'.fits
  have head_lt := q.head_lt
  rw [position_eq_mod q.isPow2] at ends
  unfold length
  by_cases wraps : q.head + values.length < q.size
  · rw [Nat.mod_eq_of_lt wraps] at ends
    rw [if_neg (by omega)]
    omega
  · rw [Nat.mod_eq_sub_mod (by omega), Nat.mod_eq_of_lt (by omega)] at ends
    rw [if_pos (by omega)]
    omega

/-- The test of `queue_push_open`. -/
theorem full_iff (shows' : q.Shows values) :
    position q.size (q.tail + 1) = q.head ↔ values.length = q.size - 1 := by
  have fits := shows'.fits
  have head := position_small q.isPow2 q.head_lt
  rw [shows'.tail_next]
  constructor
  · intro same
    apply Classical.byContradiction
    intro room
    have at' : q.head = q.head + (values.length + 1) :=
      position_injective q.isPow2 (by omega) (by omega) (by rw [head, same])
    omega
  · intro full
    have turn : q.head + (values.length + 1) = q.head + q.size := by omega
    rw [turn, position_eq_mod q.isPow2, Nat.add_mod_right, Nat.mod_eq_of_lt q.head_lt]

/-- The test of `queue_pop_open`. -/
theorem empty_iff (shows' : q.Shows values) : q.head = q.tail ↔ values = [] := by
  have head := position_small q.isPow2 q.head_lt
  rw [← shows'.ends]
  constructor
  · intro same
    have at' : q.head = q.head + values.length :=
      position_injective q.isPow2 (by omega) (by have := shows'.fits; omega) (by rw [head, ← same])
    exact List.length_eq_zero_iff.mp (by omega)
  · rintro rfl
    exact head.symm

/-- The cell at the tail is none of the cells that hold values. -/
theorem write_tail (shows' : q.Shows values) (v : A) : (q.write q.tail v).Shows values where
  fits := shows'.fits
  ends := shows'.ends
  cells := by
    intro i u present
    have before : i < values.length := (List.getElem?_eq_some_iff.mp present).1
    have other : position q.size (q.head + i) ≠ q.tail := by
      rw [← shows'.ends]
      intro same
      have := position_injective q.isPow2 (by omega) (by have := shows'.fits; omega) same
      omega
    simpa [write, Function.update_of_ne other] using shows'.cells i u present

theorem push (shows' : q.Shows values) (v : A) (written : q.data q.tail = v)
    (room : values.length < q.size - 1) : (q.moveTail (q.tail + 1)).Shows (values ++ [v]) where
  fits := by simpa using by omega
  ends := by simpa using shows'.tail_next.symm
  cells := by
    intro i u present
    by_cases old : i < values.length
    · rw [List.getElem?_append_left old] at present
      exact shows'.cells i u present
    · have bound : i < (values ++ [v]).length := (List.getElem?_eq_some_iff.mp present).1
      have last : i = values.length := by simp at bound; omega
      subst last
      have value : v = u := by simpa using present
      rw [← value, moveTail_size, moveTail_head, shows'.ends]
      exact written

theorem front (shows' : q.Shows values) (v : A) (rest : List A) (is : values = v :: rest) :
    q.data q.head = v := by
  have first := shows'.cells 0 v (by simp [is])
  rwa [Nat.add_zero, position_small q.isPow2 q.head_lt] at first

theorem pop (shows' : q.Shows values) (v : A) (rest : List A) (is : values = v :: rest) :
    (q.moveHead (q.head + 1)).Shows rest where
  fits := by
    have := shows'.fits
    simp only [is, List.length_cons, moveHead_size] at this ⊢
    omega
  ends := by
    rw [moveHead_size, moveHead_head, position_position q.isPow2, moveHead_tail, ← shows'.ends, is,
      List.length_cons, Nat.add_assoc, Nat.add_comm 1]
  cells := by
    intro i u present
    rw [moveHead_size, moveHead_head, position_position q.isPow2, Nat.add_assoc, Nat.add_comm 1]
    exact shows'.cells (i + 1) u (by simpa [is] using present)

end Shows

end Queue

/-! ## The two threads -/

/-- Where the writer is in `queue_push`. -/
inductive Writer (A : Type) where
  | out
  | tailLoaded (v : A) (tail : ℕ)
  | opened (v : A) (tail : ℕ)
  | written (v : A) (tail : ℕ)

/-- Where the reader is in `queue_pop`. -/
inductive Reader (A : Type) where
  | out
  | headLoaded (head : ℕ)
  | opened (head : ℕ)
  | read (head : ℕ) (v : A)

/-- The queue, its two threads, and whether an assertion has failed. -/
structure Piping (A : Type) where
  queue : Queue A
  writer : Writer A
  reader : Reader A
  failed : Bool

inductive PipeStep (A : Type) where
  | loadTail (v : A)
  | testFull
  | writeData
  | closePush
  | loadHead
  | testEmpty
  | readData
  | closePop

namespace Piping

open Queue

def start (queue : Queue A) : Piping A :=
  { queue := queue, writer := .out, reader := .out, failed := false }

/-- One step of a thread; `none` when the thread is elsewhere. -/
def step (s : Piping A) : PipeStep A → Option (Piping A)
  | .loadTail v =>
      match s.writer with
      | .out => some { s with writer := .tailLoaded v s.queue.tail }
      | _ => none
  | .testFull =>
      match s.writer with
      | .tailLoaded v tail =>
          if position s.queue.size (tail + 1) = s.queue.head then some { s with writer := .out }
          else some { s with writer := .opened v tail }
      | _ => none
  | .writeData =>
      match s.writer with
      | .opened v tail =>
          some { s with queue := s.queue.write tail v, writer := .written v tail }
      | _ => none
  | .closePush =>
      match s.writer with
      | .written _ tail =>
          -- the compare-and-swap of `queue_push_close`
          if s.queue.tail = tail then
            some { s with queue := s.queue.moveTail (tail + 1), writer := .out }
          else some { s with writer := .out, failed := true }
      | _ => none
  | .loadHead =>
      match s.reader with
      | .out => some { s with reader := .headLoaded s.queue.head }
      | _ => none
  | .testEmpty =>
      match s.reader with
      | .headLoaded head =>
          if head = s.queue.tail then some { s with reader := .out }
          else some { s with reader := .opened head }
      | _ => none
  | .readData =>
      match s.reader with
      | .opened head => some { s with reader := .read head (s.queue.data head) }
      | _ => none
  | .closePop =>
      match s.reader with
      | .read head _ =>
          if s.queue.head = head then
            some { s with queue := s.queue.moveHead (head + 1), reader := .out }
          else some { s with reader := .out, failed := true }
      | _ => none

/-- The call that a step ends, with the value that the call returns. -/
def answer (s : Piping A) : PipeStep A → Option (FifoEvent A)
  | .testFull =>
      match s.writer with
      | .tailLoaded v tail =>
          if position s.queue.size (tail + 1) = s.queue.head then some (.full v) else none
      | _ => none
  | .closePush =>
      match s.writer with
      | .written v _ => some (.pushed v)
      | _ => none
  | .testEmpty =>
      match s.reader with
      | .headLoaded head => if head = s.queue.tail then some .empty else none
      | _ => none
  | .closePop =>
      match s.reader with
      | .read _ v => some (.popped v)
      | _ => none
  | _ => none

/-- What the writer has seen is still so. -/
def WriterSound (q : Queue A) (values : List A) : Writer A → Prop
  | .out => True
  | .tailLoaded _ tail => tail = q.tail
  | .opened _ tail => tail = q.tail ∧ values.length < q.size - 1
  | .written v tail => tail = q.tail ∧ values.length < q.size - 1 ∧ q.data tail = v

/-- What the reader has seen is still so. -/
def ReaderSound (q : Queue A) (values : List A) : Reader A → Prop
  | .out => True
  | .headLoaded head => head = q.head
  | .opened head => head = q.head ∧ values ≠ []
  | .read head v => head = q.head ∧ values.head? = some v

structure Sound (s : Piping A) (values : List A) : Prop where
  shows' : s.queue.Shows values
  writer : WriterSound s.queue values s.writer
  reader : ReaderSound s.queue values s.reader
  kept : s.failed = false

/-- The queue after the answers of one step. -/
def Answered [DecidableEq A] (s : Piping A) (label : PipeStep A) (before after : List A) : Prop :=
  (s.answer label).toList.foldlM (Fifo.apply (s.queue.size - 1)) before = some after

variable {s t : Piping A} {values : List A}

/-- A step that answers no call leaves the values as they are. -/
theorem Answered.silent [DecidableEq A] {label : PipeStep A} (none' : s.answer label = none) :
    s.Answered label values values := by
  simp [Answered, none']

theorem Answered.one [DecidableEq A] {label : PipeStep A} (event : FifoEvent A)
    {after : List A} (some' : s.answer label = some event)
    (right : Fifo.apply (s.queue.size - 1) values event = some after) :
    s.Answered label values after := by
  simp [Answered, some', right]

/-- The writer leaves what the reader has seen. -/
theorem ReaderSound.of_longer {q q' : Queue A} {reader : Reader A} (v : A)
    (sound : ReaderSound q values reader) (head : q'.head = q.head) :
    ReaderSound q' (values ++ [v]) reader := by
  cases reader with
  | out => trivial
  | headLoaded h => exact Eq.trans sound head.symm
  | opened h => exact ⟨sound.1.trans head.symm, by simp⟩
  | read h u =>
      refine ⟨sound.1.trans head.symm, ?_⟩
      rw [List.head?_append, sound.2]
      rfl

theorem ReaderSound.of_same {q q' : Queue A} {reader : Reader A}
    (sound : ReaderSound q values reader) (head : q'.head = q.head) :
    ReaderSound q' values reader := by
  cases reader with
  | out => trivial
  | headLoaded h => exact Eq.trans sound head.symm
  | opened h => exact ⟨sound.1.trans head.symm, sound.2⟩
  | read h u => exact ⟨sound.1.trans head.symm, sound.2⟩

/-- The reader leaves what the writer has seen; there is more room afterwards. -/
theorem WriterSound.of_shorter {q : Queue A} {writer : Writer A} {v : A} {rest : List A} {p : ℕ}
    (sound : WriterSound q (v :: rest) writer) : WriterSound (q.moveHead p) rest writer := by
  cases writer with
  | out => trivial
  | tailLoaded u tail => exact sound
  | opened u tail =>
      obtain ⟨at', room⟩ := sound
      exact ⟨at', by simp at room ⊢; omega⟩
  | written u tail =>
      obtain ⟨at', room, data⟩ := sound
      exact ⟨at', by simp at room ⊢; omega, data⟩

variable [DecidableEq A]

/-- What a step of the writer does to a sound state. -/
theorem Sound.write_step (sound : s.Sound values) {label : PipeStep A}
    (own : label = .testFull ∨ label = .writeData ∨ label = .closePush ∨ ∃ v, label = .loadTail v)
    (is : s.step label = some t) :
    ∃ after, s.Answered label values after ∧ t.Sound after ∧ t.queue.size = s.queue.size := by
  obtain ⟨shows', writer, reader, kept⟩ := sound
  obtain ⟨queue, at', other, failed⟩ := s
  dsimp only at shows' writer reader kept ⊢
  rcases own with rfl | rfl | rfl | ⟨v, rfl⟩
  · cases at' with
    | tailLoaded v tail =>
        obtain rfl : tail = queue.tail := writer
        by_cases full : position queue.size (queue.tail + 1) = queue.head
        · simp only [step, if_pos full, Option.some.injEq] at is
          subst is
          refine ⟨values, Answered.one (.full v) (by simp [answer, full]) ?_,
            ⟨shows', trivial, reader, kept⟩, rfl⟩
          simp [Fifo.apply, shows'.full_iff.mp full]
        · simp only [step, if_neg full, Option.some.injEq] at is
          subst is
          have room : values.length < queue.size - 1 := by
            have fits := shows'.fits
            have notFull := mt shows'.full_iff.mpr full
            omega
          exact ⟨values, Answered.silent (by simp [answer, full]),
            ⟨shows', ⟨rfl, room⟩, reader, kept⟩, rfl⟩
    | _ => simp [step] at is
  · cases at' with
    | opened v tail =>
        obtain ⟨rfl, room⟩ := writer
        simp only [step, Option.some.injEq] at is
        subst is
        refine ⟨values, Answered.silent rfl, ⟨shows'.write_tail v, ⟨rfl, room, ?_⟩,
          reader.of_same rfl, kept⟩, rfl⟩
        simp [Queue.write]
    | _ => simp [step] at is
  · cases at' with
    | written v tail =>
        obtain ⟨rfl, room, data⟩ := writer
        simp only [step, if_true, Option.some.injEq] at is
        subst is
        refine ⟨values ++ [v], Answered.one (.pushed v) rfl ?_,
          ⟨shows'.push v data room, trivial, reader.of_longer v rfl, kept⟩, rfl⟩
        simp [Fifo.apply, room]
    | _ => simp [step] at is
  · cases at' with
    | out =>
        simp only [step, Option.some.injEq] at is
        subst is
        exact ⟨values, Answered.silent rfl, ⟨shows', rfl, reader, kept⟩, rfl⟩
    | _ => simp [step] at is

/-- What a step of the reader does to a sound state. -/
theorem Sound.read_step (sound : s.Sound values) {label : PipeStep A}
    (own : label = .loadHead ∨ label = .testEmpty ∨ label = .readData ∨ label = .closePop)
    (is : s.step label = some t) :
    ∃ after, s.Answered label values after ∧ t.Sound after ∧ t.queue.size = s.queue.size := by
  obtain ⟨shows', writer, reader, kept⟩ := sound
  obtain ⟨queue, other, at', failed⟩ := s
  dsimp only at shows' writer reader kept ⊢
  rcases own with rfl | rfl | rfl | rfl
  · cases at' with
    | out =>
        simp only [step, Option.some.injEq] at is
        subst is
        exact ⟨values, Answered.silent rfl, ⟨shows', writer, rfl, kept⟩, rfl⟩
    | _ => simp [step] at is
  · cases at' with
    | headLoaded head =>
        obtain rfl : head = queue.head := reader
        by_cases empty : queue.head = queue.tail
        · simp only [step, if_pos empty, Option.some.injEq] at is
          subst is
          refine ⟨values, Answered.one .empty (by simp [answer, empty]) ?_,
            ⟨shows', writer, trivial, kept⟩, rfl⟩
          simp [Fifo.apply, shows'.empty_iff.mp empty]
        · simp only [step, if_neg empty, Option.some.injEq] at is
          subst is
          exact ⟨values, Answered.silent (by simp [answer, empty]),
            ⟨shows', writer, ⟨rfl, mt shows'.empty_iff.mpr empty⟩, kept⟩, rfl⟩
    | _ => simp [step] at is
  · cases at' with
    | opened head =>
        obtain ⟨rfl, waiting⟩ := reader
        obtain ⟨v, rest, is'⟩ := List.exists_cons_of_ne_nil waiting
        simp only [step, Option.some.injEq] at is
        subst is
        refine ⟨values, Answered.silent rfl, ⟨shows', writer, ⟨rfl, ?_⟩, kept⟩, rfl⟩
        rw [shows'.front v rest is', is']
        rfl
    | _ => simp [step] at is
  · cases at' with
    | read head v =>
        obtain ⟨rfl, first⟩ := reader
        obtain ⟨rest, rfl⟩ := List.head?_eq_some_iff.mp first
        simp only [step, if_true, Option.some.injEq] at is
        subst is
        refine ⟨rest, Answered.one (.popped v) rfl ?_,
          ⟨shows'.pop v rest rfl, writer.of_shorter, trivial, kept⟩, rfl⟩
        simp [Fifo.apply]
    | _ => simp [step] at is

theorem Sound.step (sound : s.Sound values) {label : PipeStep A} (is : s.step label = some t) :
    ∃ after, s.Answered label values after ∧ t.Sound after ∧ t.queue.size = s.queue.size := by
  cases label with
  | loadTail v => exact sound.write_step (.inr (.inr (.inr ⟨v, rfl⟩))) is
  | testFull => exact sound.write_step (.inl rfl) is
  | writeData => exact sound.write_step (.inr (.inl rfl)) is
  | closePush => exact sound.write_step (.inr (.inr (.inl rfl))) is
  | loadHead => exact sound.read_step (.inl rfl) is
  | testEmpty => exact sound.read_step (.inr (.inl rfl)) is
  | readData => exact sound.read_step (.inr (.inr (.inl rfl))) is
  | closePop => exact sound.read_step (.inr (.inr (.inr rfl))) is

/-! ## Runs -/

abbrev Runs (start : Piping A) := Run (fun s label t => s.step label = some t) start

/-- The answers of the calls of a run, in the order of the steps that decide them. -/
def answers (steps : List (Piping A × PipeStep A)) : List (FifoEvent A) :=
  steps.filterMap fun taken => taken.1.answer taken.2

end Piping

end WindLtask.Runtime
