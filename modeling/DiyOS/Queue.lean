import DiyOS.Basic
import DiyOS.Lib.RingBuffer

/-!
# The pointer queue (`lib/queue.c`)

`queue_t` is a circular buffer of pointers with 16-bit fields. `front` is the slot of the oldest
item; `rear` is the slot of the newest one, and starts at `-1`, that is `65535`: `queue_add` resets
it to `-1` when it stands on the last slot and then pre-increments it.

* **`Queue.Holds q held`** — the queue `q` holds the items `held`, oldest first. Its field `next`
  ties `rear` to `front` and `count` through the slot the next `queue_add` writes, which covers the
  initial `-1` and every wrap in one equation.
* **`queueAdd_holds`, `queueRemove_holds`** — what one call does to the items held.
* **`queue_refines_fifo`** — any sequence of calls behaves as a bounded FIFO.
-/

namespace DiyOS

open Word

/-- `queue_t`. All four counters are `uint16_t`. -/
structure Queue where
  data : Nat → Nat
  size : Nat
  count : Nat
  rear : Nat
  front : Nat

/-- `queue_init`; `data` is what `malloc` left in the array. -/
def queueInit (data : Nat → Nat) (size : Nat) : Queue where
  data := data
  size := u16 size
  count := 0
  rear := u16 (65536 - 1)
  front := 0

def queuePeek (q : Queue) : Nat :=
  if q.count = 0 then null else q.data q.front

def queueSize (q : Queue) : Nat := q.count

/-- The slot `queue_add` writes: `rear`, reset to `-1` on the last slot, after `++q->rear`. -/
def queueAddSlot (q : Queue) : Nat :=
  -- `q->size - 1` is an `int`, so the comparison is never true of an empty array
  let rear := if q.rear + 1 = q.size then u16 (65536 - 1) else q.rear
  u16 (rear + 1)

def queueAdd (q : Queue) (ptr : Nat) : Queue :=
  if queueSize q < q.size then
    { q with
      data := Function.update q.data (queueAddSlot q) ptr
      rear := queueAddSlot q
      count := u16 (q.count + 1) }
  else q

/-- `queue_remove`: the pointer it returns, and the queue it leaves. -/
def queueRemove (q : Queue) : Nat × Queue :=
  if q.count = 0 then (null, q)
  else
    let front := u16 (q.front + 1)
    (q.data q.front, { q with front := if front = q.size then 0 else front, count := q.count - 1 })

/-! The statements of `queue_remove` after its test, for a caller that can be interrupted. -/

/-- `ptr = q->data[q->front++]`. -/
def queueTake (q : Queue) : Nat × Queue := (q.data q.front, { q with front := u16 (q.front + 1) })

/-- `if( q->front == q->size ) q->front = 0`. -/
def queueWrap (q : Queue) : Queue := if q.front = q.size then { q with front := 0 } else q

/-- `q->count--`. -/
def queueDrop (q : Queue) : Queue := { q with count := q.count - 1 }

/-- With an item in it, the three parts of `queue_remove` follow each other. -/
theorem queueRemove_eq {q : Queue} (h : q.count ≠ 0) :
    queueRemove q = ((queueTake q).1, queueDrop (queueWrap (queueTake q).2)) := by
  unfold queueRemove queueDrop queueWrap queueTake
  rw [if_neg h]
  by_cases hwrap : u16 (q.front + 1) = q.size
  · simp [hwrap]
  · simp [hwrap]

/-- A `queue_add` that interrupts `queue_remove` is as one before it: it looks at neither `front` nor
the slot that is read. -/
theorem queueAdd_take (q : Queue) (ptr : Nat) :
    queueAdd (queueTake q).2 ptr = (queueTake (queueAdd q ptr)).2 := by
  unfold queueAdd queueTake queueAddSlot queueSize
  split <;> rfl

/-- Whether `front` has been wrapped before or after does not matter to `queue_add`. -/
theorem queueAdd_wrap (q : Queue) (ptr : Nat) :
    queueAdd (queueWrap q) ptr = queueWrap (queueAdd q ptr) := by
  unfold queueAdd queueWrap queueAddSlot queueSize
  by_cases hwrap : q.front = q.size
  · by_cases hroom : q.count < q.size
    · simp [hwrap, hroom]
    · simp [hwrap, hroom]
  · by_cases hroom : q.count < q.size
    · simp [hwrap, hroom]
    · simp [hwrap, hroom]

/-! ## What a queue holds

`Holds` is the invariant: the slots from `front` on hold the items, `rear` is where the next `queue_add` leaves
it, and nothing is said of the slots outside. One lemma for each call says what the items are then. -/

/-- `q` holds the items `held`, oldest first. -/
structure Queue.Holds (q : Queue) (held : List Nat) : Prop where
  size_pos : 0 < q.size
  size_lt : q.size < 65536
  front_lt : q.front < q.size
  count_eq : q.count = held.length
  count_le : q.count ≤ q.size
  /-- `queue_add` writes the slot after the newest item. -/
  next : queueAddSlot q = RingBuffer.slot q.front q.count q.size
  items : RingBuffer.contents q.data q.front q.count q.size = held

/-- The items of `q`, oldest first. -/
def Queue.items (q : Queue) : List Nat := RingBuffer.contents q.data q.front q.count q.size

theorem Queue.Holds.items_eq {q : Queue} {held : List Nat} (h : q.Holds held) : q.items = held := h.items

/-- A new queue is empty. -/
theorem queueInit_holds (data : Nat → Nat) {size : Nat} (hpos : 0 < size) (hlt : size < 65536) :
    (queueInit data size).Holds [] := by
  have hsize : (queueInit data size).size = size := u16_of_lt hlt
  constructor
  · rw [hsize]
    exact hpos
  · rw [hsize]
    exact hlt
  · rw [hsize]
    exact hpos
  · rfl
  · exact Nat.zero_le _
  · -- `rear` starts at 65535, which is no slot: the first item goes to slot 0
    show u16 ((if u16 (65536 - 1) + 1 = u16 size then _ else u16 (65536 - 1)) + 1) = _
    simp [u16, RingBuffer.slot, queueInit]
  · rfl

/-- Where the slot after the newest item is, `queue_add` moves `rear` there by one wrapped step. -/
theorem queueAddSlot_of_rear {q : Queue} (hsize : q.size < 65536) (hrear : q.rear < q.size) :
    queueAddSlot q = (q.rear + 1) % q.size := by
  unfold queueAddSlot u16
  by_cases hlast : q.rear + 1 = q.size
  · simp [hlast]
  · rw [if_neg hlast, Nat.mod_eq_of_lt (show q.rear + 1 < 65536 by omega),
      Nat.mod_eq_of_lt (show q.rear + 1 < q.size by omega)]

theorem Queue.Holds.length_le {q : Queue} {held : List Nat} (h : q.Holds held) :
    held.length ≤ q.size := by
  rw [← h.count_eq]
  exact h.count_le

theorem Queue.Holds.addSlot_lt {q : Queue} {held : List Nat} (h : q.Holds held) :
    queueAddSlot q < q.size := by
  rw [h.next]
  exact RingBuffer.slot_lt _ _ h.size_pos

@[simp] theorem queueWrap_size (q : Queue) : (queueWrap q).size = q.size := by
  unfold queueWrap
  split <;> rfl

@[simp] theorem queueWrap_count (q : Queue) : (queueWrap q).count = q.count := by
  unfold queueWrap
  split <;> rfl

@[simp] theorem queueAdd_size (q : Queue) (ptr : Nat) : (queueAdd q ptr).size = q.size := by
  unfold queueAdd
  split <;> rfl

@[simp] theorem queueRemove_size (q : Queue) : (queueRemove q).2.size = q.size := by
  unfold queueRemove
  split <;> rfl

/-- A full queue is left as it was. -/
theorem queueAdd_full {q : Queue} {held : List Nat} (h : q.Holds held)
    (hfull : held.length = q.size) (ptr : Nat) : queueAdd q ptr = q := by
  have hcount : ¬ queueSize q < q.size := by
    rw [queueSize, h.count_eq]
    omega
  rw [queueAdd, if_neg hcount]

/-- `queue_add` appends, unless `size` items are held. -/
theorem queueAdd_holds {q : Queue} {held : List Nat} (h : q.Holds held) (ptr : Nat) :
    (queueAdd q ptr).Holds (Fifo.push q.size held ptr) := by
  have hcount := h.count_eq
  have hle := h.count_le
  have hsize := h.size_lt
  by_cases hroom : held.length < q.size
  · have hlt : queueSize q < q.size := by
      rw [queueSize, hcount]
      exact hroom
    have hslot := h.addSlot_lt
    have hsucc : u16 (q.count + 1) = q.count + 1 := u16_of_lt (by omega)
    rw [queueAdd, if_pos hlt, Fifo.push, if_pos hroom, hsucc]
    constructor
    · exact h.size_pos
    · exact hsize
    · exact h.front_lt
    · simp [hcount]
    · show q.count + 1 ≤ q.size
      omega
    · -- the new `rear` is a slot, so the next one follows it around the array
      refine (queueAddSlot_of_rear (by exact hsize) (by exact hslot)).trans ?_
      show (queueAddSlot q + 1) % q.size = (q.front + (q.count + 1)) % q.size
      rw [h.next, RingBuffer.slot, Nat.mod_add_mod, Nat.add_assoc]
    · show RingBuffer.contents (Function.update q.data (queueAddSlot q) ptr) q.front (q.count + 1)
        q.size = held ++ [ptr]
      rw [h.next, RingBuffer.contents_push ptr (show q.count < q.size by omega), h.items]
  · have hfull : held.length = q.size := Nat.le_antisymm h.length_le (Nat.le_of_not_lt hroom)
    rw [queueAdd_full h hfull, Fifo.push, if_neg hroom]
    exact h

/-- A queue that is not full takes one more item. -/
theorem Queue.Holds.add_of_room {q : Queue} {held : List Nat} (h : q.Holds held)
    (hroom : queueSize q < q.size) (ptr : Nat) : (queueAdd q ptr).Holds (held ++ [ptr]) := by
  have hadd := queueAdd_holds h ptr
  rw [Fifo.push, if_pos (show held.length < q.size by rw [← h.count_eq]; exact hroom)] at hadd
  exact hadd

/-- The oldest item stands in slot `front`. -/
theorem Queue.Holds.data_front {q : Queue} {x : Nat} {rest : List Nat} (h : q.Holds (x :: rest)) :
    q.data q.front = x := by
  have hitems := h.items
  rw [h.count_eq, List.length_cons, RingBuffer.contents_succ] at hitems
  have hslot : RingBuffer.slot q.front 0 q.size = q.front := Nat.mod_eq_of_lt h.front_lt
  rw [← (List.cons.inj hitems).1, hslot]

/-- `queue_peek` gives the oldest item, or the null pointer. -/
theorem queuePeek_eq {q : Queue} {held : List Nat} (h : q.Holds held) :
    queuePeek q = held.headD null := by
  cases held with
  | nil =>
    have hzero : q.count = 0 := h.count_eq
    rw [queuePeek, if_pos hzero, List.headD_nil]
  | cons x rest =>
    have hne : q.count ≠ 0 := by
      rw [h.count_eq]
      exact Nat.succ_ne_zero _
    rw [queuePeek, if_neg hne, h.data_front, List.headD_cons]

/-- `queue_peek` returns what the next `queue_remove` will return. -/
theorem queueRemove_fst_eq_peek (q : Queue) : (queueRemove q).1 = queuePeek q := by
  unfold queueRemove queuePeek
  split <;> rfl

theorem queueRemove_fst {q : Queue} {held : List Nat} (h : q.Holds held) :
    (queueRemove q).1 = held.headD null := by
  rw [queueRemove_fst_eq_peek, queuePeek_eq h]

/-- `queue_remove` drops the oldest item, and leaves an empty queue as it was. -/
theorem queueRemove_holds {q : Queue} {held : List Nat} (h : q.Holds held) :
    (queueRemove q).2.Holds (Fifo.pop held) := by
  cases held with
  | nil =>
    have hzero : q.count = 0 := h.count_eq
    rw [queueRemove, if_pos hzero]
    exact h
  | cons x rest =>
    have hcount : q.count = rest.length + 1 := h.count_eq
    have hle := h.count_le
    have hsize := h.size_lt
    have hfront := h.front_lt
    have hwrap : (if u16 (q.front + 1) = q.size then 0 else u16 (q.front + 1))
        = (q.front + 1) % q.size := by
      rw [u16_of_lt (show q.front + 1 < 65536 by omega)]
      split
      · next heq => rw [heq, Nat.mod_self]
      · next hne => rw [Nat.mod_eq_of_lt (by omega)]
    rw [queueRemove, if_neg (by omega)]
    simp only [hwrap]
    constructor
    · exact h.size_pos
    · exact hsize
    · exact Nat.mod_lt _ h.size_pos
    · show q.count - 1 = rest.length
      omega
    · show q.count - 1 ≤ q.size
      omega
    · -- `rear` did not move, and `front + 1` with one item fewer names the same slot
      have hnext := h.next
      show queueAddSlot q = ((q.front + 1) % q.size + (q.count - 1)) % q.size
      rw [hnext, RingBuffer.slot, Nat.mod_add_mod]
      congr 1
      omega
    · show RingBuffer.contents q.data ((q.front + 1) % q.size) (q.count - 1) q.size = rest
      have hitems := h.items
      rw [hcount, RingBuffer.contents_succ] at hitems
      rw [hcount, Nat.add_sub_cancel]
      exact (List.cons.inj hitems).2

/-! ## Sequences of calls

A queue of `size` slots is a FIFO that refuses an item when it holds `size`. A null pointer is an item like any
other, so that `queue_remove` returns it as it does from an empty queue. -/

/-- A call of one of the queue's operations. -/
inductive QueueCall where
  | add (ptr : Nat)
  | remove
  | peek
  | size

/-- The queue a call leaves. -/
def QueueCall.run (q : Queue) : QueueCall → Queue
  | .add ptr => queueAdd q ptr
  | .remove => (queueRemove q).2
  | .peek => q
  | .size => q

/-- What the call does to a FIFO of the given capacity. -/
def QueueCall.runFifo (capacity : Nat) (held : List Nat) : QueueCall → List Nat
  | .add ptr => Fifo.push capacity held ptr
  | .remove => Fifo.pop held
  | .peek => held
  | .size => held

/-- **The step.** A call does to the items what the FIFO does. -/
theorem QueueCall.run_holds {q : Queue} {held : List Nat} (h : q.Holds held) (c : QueueCall) :
    (c.run q).Holds (c.runFifo q.size held) ∧ (c.run q).size = q.size := by
  cases c with
  | add ptr => exact ⟨queueAdd_holds h ptr, queueAdd_size q ptr⟩
  | remove => exact ⟨queueRemove_holds h, queueRemove_size q⟩
  | peek => exact ⟨h, rfl⟩
  | size => exact ⟨h, rfl⟩

/-- Every sequence of calls keeps the queue and the FIFO in step. -/
theorem queueCalls_holds {q : Queue} {held : List Nat} (h : q.Holds held) (calls : List QueueCall) :
    (calls.foldl QueueCall.run q).Holds (calls.foldl (QueueCall.runFifo q.size) held)
      ∧ (calls.foldl QueueCall.run q).size = q.size := by
  induction calls generalizing q held with
  | nil => exact ⟨h, rfl⟩
  | cons c rest ih =>
    rcases QueueCall.run_holds h c with ⟨hstep, hsize⟩
    have hrest := ih hstep
    rw [hsize] at hrest
    exact hrest

/-- **The queue is a bounded FIFO.** After any calls on `queue_init(q, size)`, with `held` the items
a FIFO of that capacity holds after them: `queue_size` counts `held`; `queue_remove` and
`queue_peek` return its oldest item, and `NULL` when there is none; a full queue ignores
`queue_add`; and every slot of `q->data` that the next call writes or reads is below `size`. What
each call does to `held` is `QueueCall.runFifo`. -/
theorem queue_refines_fifo (data : Nat → Nat) (size : Nat) (hpos : 1 ≤ size) (hlt : size ≤ 65535)
    (calls : List QueueCall) :
    let q := calls.foldl QueueCall.run (queueInit data size)
    let held := calls.foldl (QueueCall.runFifo size) []
    queueSize q = held.length
      ∧ held.length ≤ size
      ∧ (queueRemove q).1 = held.headD null
      ∧ ((queueRemove q).1 = null ↔ held = [] ∨ held.head? = some null)
      ∧ queuePeek q = (queueRemove q).1
      ∧ (held.length = size → ∀ ptr, queueAdd q ptr = q)
      ∧ (held.length < size → queueAddSlot q < size)
      ∧ (held ≠ [] → q.front < size) := by
  intro q held
  have hinit : (queueInit data size).Holds [] := queueInit_holds data (by omega) (by omega)
  have hinitSize : (queueInit data size).size = size := u16_of_lt (by omega)
  -- by induction over the calls: the queue holds what the FIFO holds
  rcases queueCalls_holds hinit calls with ⟨hholds, hsize⟩
  rw [hinitSize] at hholds hsize
  have hremove := queueRemove_fst hholds
  refine ⟨hholds.count_eq, ?_, hremove, ?_, ?_, ?_, ?_, ?_⟩
  · rw [← hsize]
    exact hholds.length_le
  · rw [hremove]
    cases hheld : calls.foldl (QueueCall.runFifo size) [] with
    | nil => simp [held, hheld]
    | cons x rest => simp [held, hheld]
  · rw [hremove]
    exact queuePeek_eq hholds
  · intro hfull ptr
    exact queueAdd_full hholds (hfull.trans hsize.symm) ptr
  · intro _
    rw [← hsize]
    exact hholds.addSlot_lt
  · intro _
    rw [← hsize]
    exact hholds.front_lt

theorem queue_refines_fifo_two :
    queueSize ([.add 7, .add 8, .add 9, .remove].foldl QueueCall.run (queueInit (fun _ => 0) 2)) = 1 :=
  (queue_refines_fifo (fun _ => 0) 2 (by decide) (by decide)
    [.add 7, .add 8, .add 9, .remove]).1

/-- A queue that holds one item answers `NULL` when that item is a null pointer. -/
theorem queueRemove_null_of_nonempty :
    queueSize ([.add null].foldl QueueCall.run (queueInit (fun _ => 0) 1)) = 1
      ∧ (queueRemove ([.add null].foldl QueueCall.run (queueInit (fun _ => 0) 1))).1 = null := by
  decide

end DiyOS
