import DiyOS.Basic
import DiyOS.Lib.RingBuffer
import Mathlib.Data.List.Induction

/-!
# The byte ring (`lib/ring.c`)

`ring_t` is a circular buffer of bytes. `ring_pop` sends the read index from the end of the array to
0. `ring_push` sends the write index there only while the read index is not 0: a ring that fills with
the read index at 0 keeps its write index one past the array, and the next byte it accepts goes there.

* **`RingHolds`** — the ring holds the bytes of a FIFO.
* **`RingInv`** — where the write index stands, depending on whether the ring has filled so.
* **`ring_fifo_iff`** — a sequence of calls behaves as on a FIFO, inside the array, if and only if no
  byte is accepted after that.
-/

namespace DiyOS

open Word

def RING_MAGIC : Nat := 0xefb1195d

/-- `ring_t`; `lenght` is the source's spelling. -/
structure Ring where
  magic : Nat
  buffer : Nat → UInt8
  read : Nat
  write : Nat
  lenght : Nat
  count : Nat

/-- `ring_init`; `buffer` is what `malloc` left in the array. -/
def ringInit (buffer : Nat → UInt8) (size : Nat) (r : Ring) : Bool × Ring :=
  if size ≤ 1 then (false, r)
  else
    (true, { r with
      lenght := size, write := 0, read := 0, count := 0, magic := RING_MAGIC, buffer := buffer })

/-- `ring_push`. A write outside the array goes to memory that is not the ring's. -/
def ringPush (r : Ring) (data : UInt8) : Except Halt (Bool × Ring) :=
  if r.magic ≠ RING_MAGIC then .error (.panic "r->magic == RING_MAGIC")
  else if r.count ≥ r.lenght then .ok (false, r)
  else if r.write ≥ r.lenght then .error .undefined
  else
    let r := { r with
      buffer := Function.update r.buffer r.write data, write := u32 (r.write + 1) }
    let r := { r with count := u32 (r.count + 1) }
    if r.write = r.lenght ∧ r.read > 0 then .ok (true, { r with write := 0 }) else .ok (true, r)

/-- `ring_pop`: what it returns, what it stores through `data` where that is not null, and the ring.
Without a destination it does not move the read index. -/
def ringPop (r : Ring) (destination : Bool) : Except Halt (Bool × Option UInt8 × Ring) :=
  if r.magic ≠ RING_MAGIC then .error (.panic "r->magic == RING_MAGIC")
  else if r.count = 0 then .ok (false, none, r)
  else if destination ∧ r.read ≥ r.lenght then .error .undefined
  else
    let data := if destination then some (r.buffer r.read) else none
    let r := if destination then { r with read := u32 (r.read + 1) } else r
    let r := { r with count := r.count - 1 }
    .ok (true, data, if r.read ≥ r.lenght then { r with read := 0 } else r)

/-! ## Calls

A call answers, or stores outside the buffer, where its effect is undefined. -/

/-- A call of `ring_push`, or of `ring_pop` with a destination. -/
inductive RingCall where
  | push (data : UInt8)
  | pop

/-- What a call returns and stores. -/
structure RingAnswer where
  ret : Bool
  data : Option UInt8
  deriving DecidableEq

/-- The call, after calls that gave the answers `s.1`. -/
def RingCall.run (s : List RingAnswer × Ring) : RingCall → Except Halt (List RingAnswer × Ring)
  | .push data =>
    match ringPush s.2 data with
    | .error e => .error e
    | .ok (ret, r) => .ok (s.1 ++ [⟨ret, none⟩], r)
  | .pop =>
    match ringPop s.2 true with
    | .error e => .error e
    | .ok (ret, data, r) => .ok (s.1 ++ [⟨ret, data⟩], r)

/-- A sequence of calls on the ring `r`. -/
def ringCalls (r : Ring) (calls : List RingCall) : Except Halt (List RingAnswer × Ring) :=
  calls.foldlM RingCall.run ([], r)

/-! ## The FIFO

What the ring is for: a queue of `size` bytes that refuses a byte when it is full. -/

/-- The FIFO after some calls: their answers, the bytes held, and how many have been taken out. -/
structure ByteFifo where
  answers : List RingAnswer
  held : List UInt8
  popped : Nat

def RingCall.runFifo (capacity : Nat) (s : ByteFifo) : RingCall → ByteFifo
  | .push data =>
    { s with
      answers := s.answers ++ [⟨s.held.length < capacity, none⟩]
      held := Fifo.push capacity s.held data }
  | .pop =>
    { answers := s.answers ++ [⟨s.held ≠ [], s.held.head?⟩]
      held := Fifo.pop s.held
      popped := if s.held = [] then s.popped else s.popped + 1 }

def fifoCalls (capacity : Nat) (calls : List RingCall) : ByteFifo :=
  calls.foldl (RingCall.runFifo capacity) ⟨[], [], 0⟩

/-- The FIFO is full, and a multiple of its capacity has been taken out: the read index is 0. -/
def FullAtZero (capacity : Nat) (s : ByteFifo) : Prop :=
  s.held.length = capacity ∧ s.popped % capacity = 0

/-- After some of the calls the FIFO was so. -/
def HasFilled (capacity : Nat) (calls : List RingCall) : Prop :=
  ∃ before, before <+: calls ∧ FullAtZero capacity (fifoCalls capacity before)

/-- No byte is accepted after the FIFO was full with the read index at 0. -/
def NoneAfterFilled (capacity : Nat) (calls : List RingCall) : Prop :=
  ∀ before data after, calls = before ++ .push data :: after →
    (fifoCalls capacity before).held.length < capacity → ¬ HasFilled capacity before

/-! ## What one call does

One lemma for each way through `ring_push` and `ring_pop`, with the magic number in place. -/

section

variable {r : Ring}

theorem ringPush_full (hmagic : r.magic = RING_MAGIC) (hfull : r.lenght ≤ r.count) (data : UInt8) :
    ringPush r data = .ok (false, r) := by
  unfold ringPush
  rw [if_neg (not_not.mpr hmagic), if_pos hfull]

theorem ringPush_outside (hmagic : r.magic = RING_MAGIC) (hroom : r.count < r.lenght)
    (hwrite : r.lenght ≤ r.write) (data : UInt8) : ringPush r data = .error .undefined := by
  unfold ringPush
  rw [if_neg (not_not.mpr hmagic), if_neg (Nat.not_le_of_lt hroom), if_pos hwrite]

theorem ringPush_inside (hmagic : r.magic = RING_MAGIC) (hroom : r.count < r.lenght)
    (hwrite : r.write < r.lenght) (hlt : r.lenght < 4294967296) (data : UInt8) :
    ringPush r data = .ok (true, { r with
      buffer := Function.update r.buffer r.write data
      write := if r.write + 1 = r.lenght ∧ r.read > 0 then 0 else r.write + 1
      count := r.count + 1 }) := by
  have hnext : u32 (r.write + 1) = r.write + 1 := u32_of_lt (by omega)
  have hcount : u32 (r.count + 1) = r.count + 1 := u32_of_lt (by omega)
  unfold ringPush
  rw [if_neg (not_not.mpr hmagic), if_neg (Nat.not_le_of_lt hroom), if_neg (Nat.not_le_of_lt hwrite)]
  simp only [hnext, hcount]
  split <;> rfl

theorem ringPop_empty (hmagic : r.magic = RING_MAGIC) (hcount : r.count = 0) (destination : Bool) :
    ringPop r destination = .ok (false, none, r) := by
  unfold ringPop
  rw [if_neg (not_not.mpr hmagic), if_pos hcount]

/-- The byte at `read` is given. -/
theorem ringPop_some (hmagic : r.magic = RING_MAGIC) (hcount : r.count ≠ 0)
    (hread : r.read < r.lenght) (hlt : r.lenght < 4294967296) :
    ringPop r true = .ok (true, some (r.buffer r.read), { r with
      read := (r.read + 1) % r.lenght, count := r.count - 1 }) := by
  have hnext : u32 (r.read + 1) = r.read + 1 := u32_of_lt (by omega)
  unfold ringPop
  rw [if_neg (not_not.mpr hmagic), if_neg hcount, if_neg (by omega)]
  simp only [if_true, hnext]
  -- at the end of the array the read index is wrapped, wherever the write index stands
  by_cases hlast : r.read + 1 ≥ r.lenght
  · have hwrap : (r.read + 1) % r.lenght = 0 := by
      rw [show r.read + 1 = r.lenght by omega, Nat.mod_self]
    rw [if_pos hlast, hwrap]
  · rw [if_neg hlast, Nat.mod_eq_of_lt (by omega)]

end

/-! ## The invariant

`HasFilled` is the history that matters: once the ring has filled while `read` was 0, `write` stands one past the
buffer, for only `ring_push` resets it, and stores before it does. -/

/-- `r` holds the bytes `held`, oldest first, after `popped` bytes were taken out. -/
structure RingHolds (size : Nat) (s : ByteFifo) (r : Ring) : Prop where
  magic : r.magic = RING_MAGIC
  lenght : r.lenght = size
  count : r.count = s.held.length
  count_le : s.held.length ≤ size
  read : r.read = s.popped % size
  items : RingBuffer.contents r.buffer r.read r.count size = s.held

/-- After `calls`, the write index follows the newest byte around the array, or stands one past the
array if the ring has filled with the read index at 0. -/
structure RingInv (size : Nat) (calls : List RingCall) (r : Ring) : Prop where
  holds : RingHolds size (fifoCalls size calls) r
  next : ¬ HasFilled size calls →
    r.write = ((fifoCalls size calls).popped + (fifoCalls size calls).held.length) % size
  stuck : HasFilled size calls → r.write = size

section

variable {size : Nat} {calls : List RingCall} {r : Ring}

theorem fifoCalls_snoc (size : Nat) (calls : List RingCall) (c : RingCall) :
    fifoCalls size (calls ++ [c]) = c.runFifo size (fifoCalls size calls) := by
  unfold fifoCalls
  rw [List.foldl_append]
  rfl

theorem ringCalls_snoc (r : Ring) (calls : List RingCall) (c : RingCall) :
    ringCalls r (calls ++ [c]) = (ringCalls r calls).bind fun s => c.run s := by
  unfold ringCalls
  rw [List.foldlM_append]
  cases calls.foldlM RingCall.run ([], r) with
  | error e => rfl
  | ok s =>
    show (c.run s).bind _ = c.run s
    cases c.run s <;> rfl

/-- One more call: the FIFO had filled before it, or fills with it. -/
theorem hasFilled_snoc (c : RingCall) : HasFilled size (calls ++ [c])
    ↔ HasFilled size calls ∨ FullAtZero size (fifoCalls size (calls ++ [c])) := by
  refine ⟨?_, ?_⟩
  · rintro ⟨before, hprefix, hfull⟩
    -- an initial part of the longer sequence is the whole of it, or one of the shorter sequence
    rcases List.prefix_concat_iff.mp hprefix with heq | hprefix
    · exact Or.inr (heq ▸ hfull)
    · exact Or.inl ⟨before, hprefix, hfull⟩
  · rintro (⟨before, hprefix, hfull⟩ | hfull)
    · exact ⟨before, hprefix.trans (List.prefix_append _ _), hfull⟩
    · exact ⟨_, List.prefix_refl _, hfull⟩

/-- **The beginning.** -/
theorem ringInit_inv (buffer : Nat → UInt8) (hsize : 1 < size) (r : Ring) :
    RingInv size [] (ringInit buffer size r).2 := by
  have hinit : (ringInit buffer size r).2 = { r with
      lenght := size, write := 0, read := 0, count := 0, magic := RING_MAGIC, buffer := buffer } := by
    unfold ringInit
    rw [if_neg (by omega)]
  rw [hinit]
  refine ⟨⟨rfl, rfl, rfl, Nat.zero_le _, (Nat.zero_mod _).symm, rfl⟩, fun _ => (Nat.zero_mod _).symm, ?_⟩
  rintro ⟨before, hprefix, hlength, _⟩
  -- the empty ring is not full, since its capacity is not 0
  rw [List.prefix_nil.mp hprefix] at hlength
  have hzero : (0 : Nat) = size := hlength
  omega

/-! ## One more call

The simulation: from states that correspond, a call gives the FIFO's answer and the states correspond again, but
for a push that stores outside. -/

/-- A call that changes neither the ring nor the bytes of the FIFO. -/
theorem RingInv.same (h : RingInv size calls r) {c : RingCall}
    (hheld : (fifoCalls size (calls ++ [c])).held = (fifoCalls size calls).held)
    (hpopped : (fifoCalls size (calls ++ [c])).popped = (fifoCalls size calls).popped) :
    RingInv size (calls ++ [c]) r := by
  -- were it full with read index 0 now, it would have been so before the call
  have hfilled : HasFilled size (calls ++ [c]) ↔ HasFilled size calls := by
    rw [hasFilled_snoc]
    refine or_iff_left_of_imp ?_
    intro hfull
    unfold FullAtZero at hfull
    rw [hheld, hpopped] at hfull
    exact ⟨calls, List.prefix_refl _, hfull⟩
  refine ⟨⟨h.holds.magic, h.holds.lenght, ?_, ?_, ?_, ?_⟩, ?_, ?_⟩
  · rw [hheld]
    exact h.holds.count
  · rw [hheld]
    exact h.holds.count_le
  · rw [hpopped]
    exact h.holds.read
  · rw [hheld]
    exact h.holds.items
  · rw [hfilled, hheld, hpopped]
    exact h.next
  · rw [hfilled]
    exact h.stuck

/-- What the FIFO makes of a byte. -/
theorem fifoCalls_push (size : Nat) (calls : List RingCall) (data : UInt8) :
    fifoCalls size (calls ++ [.push data]) =
      { answers := (fifoCalls size calls).answers
          ++ [⟨(fifoCalls size calls).held.length < size, none⟩]
        held := Fifo.push size (fifoCalls size calls).held data
        popped := (fifoCalls size calls).popped } := fifoCalls_snoc size calls _

theorem fifoCalls_pop (size : Nat) (calls : List RingCall) :
    fifoCalls size (calls ++ [.pop]) =
      { answers := (fifoCalls size calls).answers
          ++ [⟨(fifoCalls size calls).held ≠ [], (fifoCalls size calls).held.head?⟩]
        held := Fifo.pop (fifoCalls size calls).held
        popped := if (fifoCalls size calls).held = [] then (fifoCalls size calls).popped
          else (fifoCalls size calls).popped + 1 } := fifoCalls_snoc size calls _

/-- The call of a run that has given the FIFO's answers gives the FIFO's answer again, and keeps the
invariant. -/
def Follows (size : Nat) (calls : List RingCall) (c : RingCall) (r : Ring) : Prop :=
  ∃ r', c.run ((fifoCalls size calls).answers, r) = .ok ((fifoCalls size (calls ++ [c])).answers, r')
    ∧ RingInv size (calls ++ [c]) r'

/-- A full ring refuses the byte. -/
theorem RingInv.push_full (h : RingInv size calls r) (data : UInt8)
    (hfull : ¬ (fifoCalls size calls).held.length < size) : Follows size calls (.push data) r := by
  have hcount : r.lenght ≤ r.count := by
    rw [h.holds.count, h.holds.lenght]
    exact Nat.le_of_not_lt hfull
  have hheld : (fifoCalls size (calls ++ [.push data])).held = (fifoCalls size calls).held := by
    rw [fifoCalls_push]
    exact if_neg hfull
  have hpopped : (fifoCalls size (calls ++ [.push data])).popped = (fifoCalls size calls).popped := by
    rw [fifoCalls_push]
  refine ⟨r, ?_, h.same hheld hpopped⟩
  rw [fifoCalls_push, RingCall.run, ringPush_full h.holds.magic hcount, decide_eq_false hfull]

/-- After the ring has filled with the read index at 0, the next byte goes past the array. -/
theorem RingInv.push_stuck (h : RingInv size calls r) (data : UInt8)
    (hroom : (fifoCalls size calls).held.length < size) (hfilled : HasFilled size calls)
    (answers : List RingAnswer) : RingCall.run (answers, r) (.push data) = .error .undefined := by
  have hcount : r.count < r.lenght := by
    rw [h.holds.count, h.holds.lenght]
    exact hroom
  have hwrite : r.lenght ≤ r.write := by
    rw [h.stuck hfilled, h.holds.lenght]
  rw [RingCall.run, ringPush_outside h.holds.magic hcount hwrite]

/-- Below twice the array's length, a place is wrapped by one subtraction. -/
theorem mod_eq_ite_sub {n size : Nat} (h : n < size + size) :
    n % size = if n < size then n else n - size := by
  split
  · next hlt => exact Nat.mod_eq_of_lt hlt
  · next hge => rw [Nat.mod_eq_sub_mod (Nat.le_of_not_lt hge), Nat.mod_eq_of_lt (by omega)]

/-- Where the write index goes: it stays one past the array if the ring is full and the read index
is 0. -/
theorem write_next {p len size : Nat} (hp : p < size) (hlen : len < size) :
    (if (p + len) % size + 1 = size ∧ p > 0 then 0 else (p + len) % size + 1)
      = if len + 1 = size ∧ p = 0 then size else (p + (len + 1)) % size := by
  rw [mod_eq_ite_sub (show p + len < size + size by omega),
    mod_eq_ite_sub (show p + (len + 1) < size + size by omega)]
  split_ifs <;> omega

/-- A byte for which there is room, in a ring that has not filled with the read index at 0. -/
theorem RingInv.push_room (h : RingInv size calls r) (hlt : size < 4294967296) (data : UInt8)
    (hroom : (fifoCalls size calls).held.length < size) (hfilled : ¬ HasFilled size calls) :
    Follows size calls (.push data) r := by
  have hpos : 0 < size := Nat.zero_lt_of_lt hroom
  have hread := h.holds.read
  have hcountEq := h.holds.count
  have hlenght := h.holds.lenght
  have hreadLt : r.read < size := by
    rw [hread]
    exact Nat.mod_lt _ hpos
  -- the write index stands behind the newest byte, so inside the array
  have hnext : r.write = (r.read + r.count) % size := by
    rw [h.next hfilled, hread, hcountEq, Nat.mod_add_mod]
  have hwrite : r.write < r.lenght := by
    rw [hnext, hlenght]
    exact Nat.mod_lt _ hpos
  have hfifo := fifoCalls_push size calls data
  rw [Fifo.push, if_pos hroom, decide_eq_true hroom] at hfifo
  have hlength : (fifoCalls size (calls ++ [.push data])).held.length = r.count + 1 := by
    rw [hfifo, hcountEq]
    exact List.length_append
  have hpopped : (fifoCalls size (calls ++ [.push data])).popped % size = r.read := by
    rw [hfifo, hread]
  -- it fills with the read index at 0 exactly where the test of `ring_push` leaves the write index
  have hfull : HasFilled size (calls ++ [.push data]) ↔ r.count + 1 = size ∧ r.read = 0 := by
    rw [hasFilled_snoc, or_iff_right hfilled, FullAtZero, hlength, hpopped]
  have hmove := write_next hreadLt (show r.count < size by omega)
  rw [← hnext] at hmove
  have hrun : RingCall.run ((fifoCalls size calls).answers, r) (.push data)
      = .ok ((fifoCalls size (calls ++ [.push data])).answers, { r with
        buffer := Function.update r.buffer r.write data
        write := if r.count + 1 = size ∧ r.read = 0 then size else (r.read + (r.count + 1)) % size
        count := r.count + 1 }) := by
    rw [hfifo, RingCall.run, ringPush_inside h.holds.magic (by omega) hwrite (by omega), hlenght, hmove]
  refine ⟨_, hrun, ⟨⟨h.holds.magic, hlenght, hlength.symm, ?_, hpopped.symm, ?_⟩, ?_, ?_⟩⟩
  · rw [hlength]
    omega
  · show RingBuffer.contents (Function.update r.buffer r.write data) r.read (r.count + 1) size = _
    rw [hnext]
    refine (RingBuffer.contents_push data (by omega)).trans ?_
    rw [h.holds.items, hfifo]
  · intro hnot
    rw [hfull] at hnot
    show (if r.count + 1 = size ∧ r.read = 0 then size else (r.read + (r.count + 1)) % size) = _
    rw [if_neg hnot, hlength, ← hpopped, Nat.mod_add_mod]
  · intro hnow
    exact if_pos (hfull.mp hnow)

/-- An empty ring gives nothing. -/
theorem RingInv.pop_empty (h : RingInv size calls r) (hempty : (fifoCalls size calls).held = []) :
    Follows size calls .pop r := by
  have hcount : r.count = 0 := by
    rw [h.holds.count, hempty]
    rfl
  have hfifo := fifoCalls_pop size calls
  rw [hempty] at hfifo
  have hheld : (fifoCalls size (calls ++ [.pop])).held = (fifoCalls size calls).held := by
    rw [hfifo, hempty]
    rfl
  have hpopped : (fifoCalls size (calls ++ [.pop])).popped = (fifoCalls size calls).popped := by
    rw [hfifo]
    rfl
  refine ⟨r, ?_, h.same hheld hpopped⟩
  rw [hfifo, RingCall.run, ringPop_empty h.holds.magic hcount]
  rfl

/-- The oldest byte is taken out, wherever the write index stands. -/
theorem RingInv.pop_some (h : RingInv size calls r) (hlt : size < 4294967296) {x : UInt8}
    {rest : List UInt8} (hheld : (fifoCalls size calls).held = x :: rest) :
    Follows size calls .pop r := by
  have hcountEq : r.count = rest.length + 1 := by
    rw [h.holds.count, hheld]
    rfl
  have hlenght := h.holds.lenght
  have hle := h.holds.count_le
  rw [hheld, List.length_cons] at hle
  have hread := h.holds.read
  have hreadLt : r.read < size := by
    rw [hread]
    exact Nat.mod_lt _ (by omega)
  have hitems := h.holds.items
  rw [hcountEq, RingBuffer.contents_succ, hheld] at hitems
  rcases List.cons.inj hitems with ⟨hfirst, hrest⟩
  have hslot : RingBuffer.slot r.read 0 size = r.read := Nat.mod_eq_of_lt hreadLt
  have hfifo := fifoCalls_pop size calls
  rw [hheld] at hfifo
  have hrun : RingCall.run ((fifoCalls size calls).answers, r) .pop
      = .ok ((fifoCalls size (calls ++ [.pop])).answers, { r with
        read := (r.read + 1) % size, count := rest.length }) := by
    rw [hfifo, RingCall.run, ringPop_some h.holds.magic (by omega) (by omega) (by omega), hcountEq,
      ← hfirst, hslot, hlenght]
    rfl
  have hheldNew : (fifoCalls size (calls ++ [.pop])).held = rest := by
    rw [hfifo]
    rfl
  have hpoppedNew : (fifoCalls size (calls ++ [.pop])).popped = (fifoCalls size calls).popped + 1 := by
    rw [hfifo]
    rfl
  -- a ring from which a byte was taken is not full
  have hfull : HasFilled size (calls ++ [.pop]) ↔ HasFilled size calls := by
    rw [hasFilled_snoc, FullAtZero, hheldNew]
    exact or_iff_left_of_imp fun hnow => by omega
  refine ⟨_, hrun, ⟨⟨h.holds.magic, hlenght, ?_, ?_, ?_, ?_⟩, ?_, ?_⟩⟩
  · rw [hheldNew]
  · rw [hheldNew]
    omega
  · show (r.read + 1) % size = _
    rw [hpoppedNew, hread, Nat.mod_add_mod]
  · rw [hheldNew]
    exact hrest
  · rw [hfull, hheldNew, hpoppedNew]
    intro hnot
    have hnext := h.next hnot
    rw [hheld, List.length_cons] at hnext
    rw [Nat.add_right_comm]
    exact hnext
  · rw [hfull]
    exact h.stuck

/-! ## Sequences of calls

By induction from the end of the sequence, since the condition speaks of what was called before. -/

/-- One more call: it answers as the FIFO does, or it is a byte accepted after the ring has filled
with the read index at 0. -/
theorem RingInv.step (h : RingInv size calls r) (hlt : size < 4294967296) (c : RingCall) :
    Follows size calls c r
      ∨ ∃ data, c = .push data ∧ (fifoCalls size calls).held.length < size ∧ HasFilled size calls := by
  cases c with
  | push data =>
    by_cases hroom : (fifoCalls size calls).held.length < size
    · by_cases hfilled : HasFilled size calls
      · exact Or.inr ⟨data, rfl, hroom, hfilled⟩
      · exact Or.inl (h.push_room hlt data hroom hfilled)
    · exact Or.inl (h.push_full data hroom)
  | pop =>
    cases hheld : (fifoCalls size calls).held with
    | nil => exact Or.inl (h.pop_empty hheld)
    | cons x rest => exact Or.inl (h.pop_some hlt hheld)

theorem noneAfterFilled_snoc (c : RingCall) : NoneAfterFilled size (calls ++ [c])
    ↔ NoneAfterFilled size calls
      ∧ ¬ ∃ data, c = .push data ∧ (fifoCalls size calls).held.length < size ∧ HasFilled size calls := by
  refine ⟨?_, ?_⟩
  · intro h
    refine ⟨?_, ?_⟩
    · rintro before data after rfl
      exact h before data (after ++ [c]) (by simp)
    · rintro ⟨data, rfl, hroom, hfilled⟩
      exact h calls data [] rfl hroom hfilled
  · rintro ⟨h, hlast⟩ before data after hsplit hroom hfilled
    rcases List.eq_nil_or_concat after with rfl | ⟨after, c', rfl⟩
    · rcases List.append_inj' hsplit rfl with ⟨rfl, heq⟩
      exact hlast ⟨data, (List.cons.inj heq).1, hroom, hfilled⟩
    · rw [List.concat_eq_append, ← List.cons_append, ← List.append_assoc] at hsplit
      exact h before data after (List.append_inj' hsplit rfl).1 hroom hfilled

/-- Every sequence of calls: either no byte is accepted after the ring has filled with the read index
at 0, and all calls answer as those on the FIFO; or one is, and is written outside the array. -/
theorem ringCalls_cases (buffer : Nat → UInt8) (hsize : 1 < size) (hlt : size < 4294967296) (r : Ring)
    (calls : List RingCall) :
    (NoneAfterFilled size calls ∧ ∃ r', ringCalls (ringInit buffer size r).2 calls
        = .ok ((fifoCalls size calls).answers, r') ∧ RingInv size calls r')
      ∨ (¬ NoneAfterFilled size calls
        ∧ ringCalls (ringInit buffer size r).2 calls = .error .undefined) := by
  induction calls using List.reverseRecOn with
  | nil =>
    refine Or.inl ⟨?_, _, rfl, ringInit_inv buffer hsize r⟩
    intro before data after hsplit
    simp at hsplit
  | append_singleton calls c ih =>
    rw [ringCalls_snoc, noneAfterFilled_snoc]
    -- the calls before the last one answer as on the FIFO, or one of them has failed already
    rcases ih with ⟨hnone, r', hrun, hinv⟩ | ⟨hsome, hrun⟩
    · rw [hrun]
      rcases hinv.step hlt c with ⟨r'', hcall, hnext⟩ | ⟨data, rfl, hroom, hfilled⟩
      · -- such a byte would have been written outside the array
        refine Or.inl ⟨⟨hnone, ?_⟩, r'', hcall, hnext⟩
        rintro ⟨data, rfl, hroom, hfilled⟩
        rw [hinv.push_stuck data hroom hfilled] at hcall
        cases hcall
      · exact Or.inr ⟨fun hboth => hboth.2 ⟨data, rfl, hroom, hfilled⟩,
          hinv.push_stuck data hroom hfilled _⟩
    · rw [hrun]
      exact Or.inr ⟨fun hboth => hsome hboth.1, rfl⟩

/-- **The ring is a bounded FIFO as long as** no byte is accepted after it has been full with the read
index at 0: then, and only then, every call of the sequence returns and stores what it does on a FIFO
of that capacity, and touches only slots of the array. -/
theorem ring_fifo_iff (buffer : Nat → UInt8) (hsize : 1 < size) (hlt : size < 4294967296) (r : Ring)
    (calls : List RingCall) :
    (∃ r', ringCalls (ringInit buffer size r).2 calls = .ok ((fifoCalls size calls).answers, r'))
      ↔ NoneAfterFilled size calls := by
  rcases ringCalls_cases buffer hsize hlt r calls with ⟨hnone, r', hrun, _⟩ | ⟨hsome, hrun⟩
  · exact iff_of_true ⟨r', hrun⟩ hnone
  · refine iff_of_false ?_ hsome
    rintro ⟨r', hok⟩
    rw [hrun] at hok
    cases hok

theorem ring_fifo_two :
    (∃ r', ringCalls (ringInit (fun _ => 0) 2 ⟨0, fun _ => 0, 0, 0, 0, 0⟩).2 [.push 7, .pop, .push 8]
        = .ok ((fifoCalls 2 [.push 7, .pop, .push 8]).answers, r'))
      ↔ NoneAfterFilled 2 [.push 7, .pop, .push 8] :=
  ring_fifo_iff (fun _ => 0) (by decide) (by decide) _ _

/-- Two bytes, one taken out, and a third one: there is room, and it is written one past the array. -/
theorem ringPush_outside_two :
    (fifoCalls 2 [.push 7, .push 8, .pop]).held.length < 2
      ∧ (∃ r, ringCalls (ringInit (fun _ => 0) 2 ⟨0, fun _ => 0, 0, 0, 0, 0⟩).2
        [.push 7, .push 8, .pop] = .ok ((fifoCalls 2 [.push 7, .push 8, .pop]).answers, r)
          ∧ r.write = r.lenght)
      ∧ ringCalls (ringInit (fun _ => 0) 2 ⟨0, fun _ => 0, 0, 0, 0, 0⟩).2
        [.push 7, .push 8, .pop, .push 9] = .error .undefined := by
  refine ⟨by decide, ⟨_, rfl, rfl⟩, rfl⟩

end

end DiyOS
