import DiyOS.Queue

/-!
# A queue between two parties (`lib/queue.c`)

One party adds pointers to a queue and another removes them. Either can be interrupted by the other
between any two statements of `queue_add` and `queue_remove`, and inside `q->count++` and
`q->count--`, each of which loads the count and stores it with separate instructions.

* **`queueAddStep`, `queueRemoveStep`** — the statements, with the loads and the stores of the count.
* **`Queue.Shared`** — the invariant: the queue is one that holds its items, on which both parties
  have carried out a part of their call. The parts commute, since one side writes `rear` and the array
  and the other writes `front`.
* **`Queue.Shared.add_step`, `Queue.Shared.remove_step`** — one statement of either party, provided
  that a count that is stored was loaded from the count that is there.
-/

namespace DiyOS

open Word

/-! ## The statements

Each function is a list of statements; between any two of them the other function may run. `count` is loaded and
stored again, so that its steps are two. -/

/-- The statement of `queue_add` that comes next; `count` is the one that was loaded. -/
inductive AddPc where
  | test
  | reset
  | write
  | load
  | store (count : Nat)
  deriving DecidableEq

/-- The statement of `queue_remove` that comes next. -/
inductive RemovePc where
  | test
  | take
  | wrap (ptr : Nat)
  | load (ptr : Nat)
  | store (ptr count : Nat)
  deriving DecidableEq

/-- `if( q->rear == (q->size - 1) ) q->rear = -1`. -/
def queueReset (q : Queue) : Queue :=
  { q with rear := if q.rear + 1 = q.size then u16 (65536 - 1) else q.rear }

/-- `q->data[++q->rear] = ptr`. -/
def queueWrite (q : Queue) (ptr : Nat) : Queue :=
  { q with data := Function.update q.data (u16 (q.rear + 1)) ptr, rear := u16 (q.rear + 1) }

/-- The store of `q->count`. -/
def Queue.setCount (q : Queue) (count : Nat) : Queue := { q with count := count }

/-- One statement of `queue_add(q, ptr)`: the queue, and the next statement unless the call returns. -/
def queueAddStep (q : Queue) (ptr : Nat) : AddPc → Queue × Option AddPc
  | .test => (q, if queueSize q < q.size then some .reset else none)
  | .reset => (queueReset q, some .write)
  | .write => (queueWrite q ptr, some .load)
  | .load => (q, some (.store q.count))
  | .store count => (q.setCount (u16 (count + 1)), none)

/-- One statement of `queue_remove(q)`: the queue, and the next statement or the pointer returned. -/
def queueRemoveStep (q : Queue) : RemovePc → Queue × (RemovePc ⊕ Nat)
  | .test => (q, if q.count = 0 then .inr null else .inl .take)
  | .take => ((queueTake q).2, .inl (.wrap (queueTake q).1))
  | .wrap ptr => (queueWrap q, .inl (.load ptr))
  | .load ptr => (q, .inl (.store ptr q.count))
  | .store ptr count => (q.setCount (u16 (count + 65535)), .inr ptr)

theorem queueAddStep_of_room {q : Queue} (h : queueSize q < q.size) (ptr : Nat) :
    queueAddStep q ptr .test = (q, some .reset) := by
  simp [queueAddStep, h]

/-- A full queue is left as it is. -/
theorem queueAddStep_of_full {q : Queue} (h : ¬ queueSize q < q.size) (ptr : Nat) :
    queueAddStep q ptr .test = (q, none) := by
  simp only [queueAddStep, if_neg h]

/-! ## Parts of a call

What a call has done to the queue before its next statement. -/

/-- The part of `queue_add` before the statement. -/
def AddPc.partly (ptr : Nat) : AddPc → Queue → Queue
  | .test | .reset => id
  | .write => queueReset
  | .load | .store _ => fun q => queueWrite (queueReset q) ptr

/-- The part of `queue_remove` before the statement. -/
def RemovePc.partly : RemovePc → Queue → Queue
  | .test | .take => id
  | .wrap _ => fun q => (queueTake q).2
  | .load _ | .store _ _ => fun q => queueWrap (queueTake q).2

/-- The statement that wraps `front`, as one assignment. -/
theorem queueWrap_eq (q : Queue) :
    queueWrap q = { q with front := if q.front = q.size then 0 else q.front } := by
  unfold queueWrap
  split <;> rfl

section

variable (a : AddPc) (r : RemovePc) (ptr : Nat) (q : Queue)

@[simp] theorem AddPc.partly_size : (a.partly ptr q).size = q.size := by
  cases a <;> rfl

@[simp] theorem AddPc.partly_count : (a.partly ptr q).count = q.count := by
  cases a <;> rfl

@[simp] theorem AddPc.partly_front : (a.partly ptr q).front = q.front := by
  cases a <;> rfl

@[simp] theorem RemovePc.partly_size : (r.partly q).size = q.size := by
  cases r <;> simp [RemovePc.partly, queueTake]

@[simp] theorem RemovePc.partly_count : (r.partly q).count = q.count := by
  cases r <;> simp [RemovePc.partly, queueTake]

/-- No statement but the last looks at the count. -/
theorem AddPc.partly_setCount (count : Nat) :
    a.partly ptr (q.setCount count) = (a.partly ptr q).setCount count := by
  cases a <;> rfl

theorem RemovePc.partly_setCount (count : Nat) :
    r.partly (q.setCount count) = (r.partly q).setCount count := by
  cases r <;> simp only [RemovePc.partly, queueWrap_eq] <;> rfl

/-- **The parts commute**: `queue_add` writes `rear` and the array, and `queue_remove` writes `front`. -/
theorem AddPc.partly_comm : a.partly ptr (r.partly q) = r.partly (a.partly ptr q) := by
  cases r with
  | test | take => rfl
  | wrap ptr' => cases a <;> rfl
  | load ptr' | store ptr' count =>
    simp only [RemovePc.partly, queueWrap_eq]
    cases a <;> rfl

/-- A whole `queue_add` commutes with a part of `queue_remove`: it looks at neither `front` nor the
slot that is read. -/
theorem RemovePc.queueAdd_partly : queueAdd (r.partly q) ptr = r.partly (queueAdd q ptr) := by
  cases r with
  | test | take => rfl
  | wrap ptr' => exact queueAdd_take q ptr
  | load ptr' | store ptr' count =>
    simp only [RemovePc.partly]
    rw [queueAdd_wrap, queueAdd_take]

end

/-- The statements of `queue_add` where there is room. -/
theorem queueAdd_statements {q : Queue} (h : queueSize q < q.size) (ptr : Nat) :
    queueAdd q ptr = (queueWrite (queueReset q) ptr).setCount (u16 (q.count + 1)) := by
  unfold queueAdd
  rw [if_pos h]
  rfl

/-- The statements of `queue_remove` where there is an item. -/
theorem queueRemove_statements {q : Queue} (h : q.count ≠ 0) :
    (queueRemove q).2 = (queueWrap (queueTake q).2).setCount (q.count - 1) := by
  rw [queueRemove_eq h, queueDrop, queueWrap_count]
  rfl

/-! ## The invariant

`q` is a queue that holds its items, and on which both calls have been carried out up to their next statements.
The two write different fields until `count` is stored. -/

/-- `held` are the items while `queue_remove` stands before its statement `r`: it has found an item,
and the pointer that it has read is the oldest. -/
def RemovePc.Removing (held : List Nat) : RemovePc → Prop
  | .test => True
  | .take => held ≠ []
  | .wrap ptr | .load ptr | .store ptr _ => held.head? = some ptr

/-- The queue `q` holds the items `held`, that being added not yet among them and that being removed
still among them, while `queue_add(q, ptr)` stands before its statement `a` and `queue_remove(q)`
before its statement `r`. -/
structure Queue.Shared (q : Queue) (ptr : Nat) (a : AddPc) (r : RemovePc) (held : List Nat) : Prop where
  parts : ∃ q₀ : Queue, q₀.Holds held ∧ q = a.partly ptr (r.partly q₀)
  room : a ≠ .test → held.length < q.size
  removing : r.Removing held

namespace Queue.Shared

variable {q : Queue} {ptr : Nat} {a : AddPc} {r : RemovePc} {held : List Nat}

/-- Between two calls the queue holds its items. -/
theorem holds (h : q.Shared ptr .test .test held) : q.Holds held := by
  obtain ⟨q₀, hholds, rfl⟩ := h.parts
  exact hholds

theorem of_holds (h : q.Holds held) (ptr : Nat) : q.Shared ptr .test .test held :=
  ⟨⟨q, h, rfl⟩, fun hne => absurd rfl hne, trivial⟩

/-- No part of a call changes the count. -/
theorem count_eq (h : q.Shared ptr a r held) : q.count = held.length := by
  obtain ⟨q₀, hholds, rfl⟩ := h.parts
  simp [hholds.count_eq]

/-- Before its first statement, `queue_add` may be given any pointer. -/
theorem of_test (h : q.Shared ptr .test r held) (ptr' : Nat) : q.Shared ptr' .test r held :=
  ⟨h.parts, h.room, h.removing⟩

/-- What `queue_remove` has read stays the oldest item when another is added. -/
theorem removing_append (h : q.Shared ptr a r held) (x : Nat) : r.Removing (held ++ [x]) := by
  have hremoving := h.removing
  cases r with
  | test => trivial
  | take => simp [RemovePc.Removing]
  | wrap ptr' | load ptr' | store ptr' count =>
    cases held with
    | nil => cases hremoving
    | cons y rest => exact hremoving

/-! ## One statement

Each statement of one function, whatever the other has done so far. -/

/-- **`queue_add` by an interrupt**, that is as a whole, wherever `queue_remove` stands. -/
theorem add (h : q.Shared ptr .test r held) (hroom : queueSize q < q.size) (x : Nat) :
    (queueAdd q x).Shared ptr .test r (held ++ [x]) := by
  have hremoving := h.removing_append x
  obtain ⟨q₀, hholds, rfl⟩ := h.parts
  have hroom₀ : queueSize q₀ < q₀.size := by
    simpa [AddPc.partly, queueSize] using hroom
  refine ⟨⟨queueAdd q₀ x, hholds.add_of_room hroom₀ x, ?_⟩, fun hne => absurd rfl hne, hremoving⟩
  exact r.queueAdd_partly x q₀

/-- **One statement of `queue_add`** that finds room: the item is there once the count is stored. -/
theorem add_step (h : q.Shared ptr a r held) (hroom : a = .test → queueSize q < q.size)
    (hcount : ∀ count, a = .store count → q.count = count) :
    match queueAddStep q ptr a with
    | (q', some a') => q'.Shared ptr a' r held
    | (q', none) => q'.Shared ptr .test r (held ++ [ptr]) := by
  have hremoving := h.removing
  have hlength := h.count_eq
  have happend := h.removing_append ptr
  obtain ⟨q₀, hholds, rfl⟩ := h.parts
  have hroom₀ : a ≠ .test → held.length < q₀.size := by simpa using h.room
  cases a with
  | test =>
    have hlt : held.length < q₀.size := by
      simpa [queueSize, hholds.count_eq] using hroom rfl
    rw [queueAddStep_of_room (hroom rfl)]
    exact ⟨⟨q₀, hholds, rfl⟩, fun _ => by simpa using hlt, hremoving⟩
  | reset =>
    refine ⟨⟨q₀, hholds, rfl⟩, fun _ => ?_, hremoving⟩
    simpa [queueAddStep, queueReset, AddPc.partly] using hroom₀ (by simp)
  | write =>
    refine ⟨⟨q₀, hholds, rfl⟩, fun _ => ?_, hremoving⟩
    simpa [queueAddStep, queueWrite, AddPc.partly, queueReset] using hroom₀ (by simp)
  | load => exact ⟨⟨q₀, hholds, rfl⟩, fun _ => by simpa using hroom₀ (by simp), hremoving⟩
  | store count =>
    obtain rfl : q₀.count = count := by simpa using hcount count rfl
    have hlt : queueSize q₀ < q₀.size := by
      rw [queueSize, hholds.count_eq]
      exact hroom₀ (by simp)
    refine ⟨⟨queueAdd q₀ ptr, hholds.add_of_room hlt ptr, ?_⟩, fun hne => absurd rfl hne, happend⟩
    -- the part of `queue_remove` goes in front of the whole `queue_add`
    rw [queueAdd_statements hlt, RemovePc.partly_setCount, AddPc.partly_comm]
    rfl

/-- The slot that `queue_remove` reads is not the one that `queue_add` writes. -/
theorem data_front (h : q.Shared ptr a .take held) : held.head? = some (q.data q.front) := by
  have hne : held ≠ [] := h.removing
  obtain ⟨q₀, hholds, rfl⟩ := h.parts
  have hroom : a ≠ .test → held.length < q₀.size := by simpa using h.room
  cases held with
  | nil => exact absurd rfl hne
  | cons x rest =>
    have hx : q₀.data q₀.front = x := hholds.data_front
    have hwritten : a ≠ .test → q₀.front ≠ queueAddSlot q₀ := by
      intro hadd
      have hslot := @RingBuffer.slot_ne q₀.front 0 q₀.count q₀.size (by simp [hholds.count_eq])
        (by simpa [hholds.count_eq] using hroom hadd)
      rw [hholds.next]
      rwa [show RingBuffer.slot q₀.front 0 q₀.size = q₀.front from Nat.mod_eq_of_lt hholds.front_lt] at hslot
    rw [List.head?_cons, AddPc.partly_front, ← hx]
    cases a with
    | test | reset | write => rfl
    | load | store count =>
      exact congrArg some (Function.update_of_ne (hwritten (by simp)) _ _).symm

/-- **One statement of `queue_remove`**: the oldest item is gone once the count is stored. -/
theorem remove_step (h : q.Shared ptr a r held) (hcount : ∀ x count, r = .store x count → q.count = count) :
    match queueRemoveStep q r with
    | (q', .inl r') => q'.Shared ptr a r' held
    | (q', .inr x) => q'.Shared ptr a .test held.tail ∧ x = held.headD null := by
  have hroom := h.room
  have hremoving := h.removing
  have hlength := h.count_eq
  cases r with
  | test =>
    unfold queueRemoveStep
    by_cases hzero : q.count = 0
    · have hnil : held = [] := List.length_eq_zero_iff.mp (hlength.symm.trans hzero)
      subst hnil
      simp only [if_pos hzero]
      exact ⟨h, rfl⟩
    · simp only [if_neg hzero]
      refine ⟨h.parts, hroom, ?_⟩
      rintro rfl
      exact hzero hlength
  | take =>
    -- what `queue_add` has done so far is not at the front, so that the oldest item is read
    have hfront := h.data_front
    obtain ⟨q₀, hholds, rfl⟩ := h.parts
    exact ⟨⟨q₀, hholds, (a.partly_comm (.wrap 0) ptr q₀).symm⟩, hroom, hfront⟩
  | wrap x =>
    obtain ⟨q₀, hholds, rfl⟩ := h.parts
    refine ⟨⟨q₀, hholds, ?_⟩, ?_, hremoving⟩
    · rw [AddPc.partly_comm, AddPc.partly_comm]
      rfl
    · simpa [queueRemoveStep] using hroom
  | load x => exact ⟨h.parts, hroom, hremoving⟩
  | store x count =>
    -- the count that was loaded is still there: storing it less one completes `queue_remove`
    have hloaded := hcount x count rfl
    obtain ⟨q₀, hholds, rfl⟩ := h.parts
    obtain rfl : q₀.count = count := by simpa using hloaded
    cases held with
    | nil => cases hremoving
    | cons y rest =>
      obtain rfl : y = x := Option.some.inj hremoving
      have hcount₀ : q₀.count = rest.length + 1 := hholds.count_eq
      have hremove := queueRemove_holds hholds
      rw [queueRemove_statements (by omega)] at hremove
      have hstored : u16 (q₀.count + 65535) = q₀.count - 1 := by
        have hlt := hholds.size_lt
        have hle := hholds.count_le
        unfold u16
        omega
      simp only [queueRemoveStep, hstored]
      refine ⟨⟨⟨_, hremove, (a.partly_setCount _ _ _).symm⟩, fun hadd => ?_, trivial⟩, rfl⟩
      have hlt := hroom hadd
      simp only [AddPc.partly_size, RemovePc.partly_size, List.length_cons] at hlt
      simp only [Queue.setCount, AddPc.partly_size, RemovePc.partly_size, List.tail_cons]
      omega

end Queue.Shared

end DiyOS
