import DiyOS.Queue

/-!
# Iterating over the pointer queue (`lib/queue.c`)

`queue_foreach` starts at the smaller one of `front` and `rear` and goes up from there, without coming back
to slot `0`.

* **`Queue.Iterates`** — the callback gets the items held, oldest first, and no other slot is read.
* **`queueForeachStart_eq_front_iff`** — the start is the oldest item unless the items wrap around the end.
* **`queue_foreach_iff`** — this decides whether the iteration is right, after any calls.
-/

namespace DiyOS

open Word

/-! ## The source -/

/-- Where the loop starts. -/
def queueForeachStart (q : Queue) : Nat := if q.rear > q.front then q.front else q.rear

/-- The loop, with `left` for `i_max - i`: the indices of `q->data` that it reads. -/
def queueForeachLoop : Nat → Nat → List Nat
  | 0, _ => []
  | left + 1, i => i :: queueForeachLoop left (i + 1)

def queueForeachIndices (q : Queue) : List Nat := queueForeachLoop (queueSize q) (queueForeachStart q)

/-- `queue_foreach`; `c` does something to what `data` points to. -/
def queueForeach {σ : Type} (q : Queue) (c : Nat → σ → σ) (data : σ) : σ :=
  (queueForeachIndices q).foldl (fun data i => c (q.data i) data) data

/-! ## The loop -/

theorem queueForeachLoop_eq (left i : Nat) : queueForeachLoop left i = List.range' i left := by
  induction left generalizing i with
  | zero => rfl
  | succ left ih => rw [queueForeachLoop, ih, List.range'_succ]

/-- The callback gets each item that `q` holds once, oldest first, and only the array is read. -/
structure Queue.Iterates (q : Queue) : Prop where
  items : ∀ (σ : Type) (c : Nat → σ → σ) (data : σ),
    queueForeach q c data = q.items.foldl (fun data x => c x data) data
  inside : ∀ i ∈ queueForeachIndices q, i < q.size

section

variable {q : Queue}

/-- What is given to the callback, as a list. -/
theorem queueForeach_eq {σ : Type} (c : Nat → σ → σ) (data : σ) :
    queueForeach q c data = ((queueForeachIndices q).map q.data).foldl (fun data x => c x data) data :=
  (@List.foldl_map _ _ _ q.data (fun data x => c x data) (queueForeachIndices q) data).symm

theorem Queue.Iterates.map_eq (h : q.Iterates) : (queueForeachIndices q).map q.data = q.items := by
  have hcollect : ∀ l acc : List Nat, l.foldl (fun acc x => acc ++ [x]) acc = acc ++ l := by
    intro l
    induction l with
    | nil => exact fun acc => (List.append_nil acc).symm
    | cons x l ih =>
      intro acc
      rw [List.foldl_cons, ih, List.append_assoc]
      rfl
  have hlist := h.items (List Nat) (fun x acc => acc ++ [x]) []
  rwa [queueForeach_eq, hcollect, hcollect, List.nil_append, List.nil_append] at hlist

/-- The slots of the items, where these do not wrap around the end. -/
theorem Queue.items_eq_range (hwrap : q.front + q.count ≤ q.size) :
    q.items = (List.range' q.front q.count).map q.data := by
  unfold Queue.items RingBuffer.contents
  rw [List.range'_eq_map_range, List.map_map]
  refine List.map_congr_left fun k hk => ?_
  have hlt := List.mem_range.mp hk
  exact congrArg q.data (Nat.mod_eq_of_lt (by omega))

/-- The next slot is the one behind `rear`, or slot `0` behind the last one. -/
theorem queueAddSlot_eq (q : Queue) :
    queueAddSlot q = if q.rear + 1 = q.size then 0 else (q.rear + 1) % 65536 := by
  unfold queueAddSlot u16
  split <;> rfl

/-- Where the items do not wrap, the oldest one stands at the lower end. -/
theorem queueForeachStart_eq_front_iff {held : List Nat} (h : q.Holds held) (hrear : q.rear < 65536)
    (hne : q.count ≠ 0) : queueForeachStart q = q.front ↔ q.front + q.count ≤ q.size := by
  have hfront := h.front_lt
  have hsize := h.size_lt
  have hcount := h.count_le
  -- `rear` stands one slot before the next that is written, or has its first value
  have hnext := h.next
  rw [queueAddSlot_eq, RingBuffer.slot] at hnext
  unfold queueForeachStart
  rcases Nat.lt_or_ge q.size (q.front + q.count) with hwrap | hwrap
  · have hslot : (q.front + q.count) % q.size = q.front + q.count - q.size := by
      rw [Nat.mod_eq_sub_mod (by omega), Nat.mod_eq_of_lt (by omega)]
    rw [hslot] at hnext
    refine iff_of_false ?_ (by omega)
    split at hnext <;> split <;> omega
  · refine iff_of_true ?_ hwrap
    rcases Nat.eq_or_lt_of_le hwrap with hfull | hlt
    · have hslot : (q.front + q.count) % q.size = 0 := by rw [hfull, Nat.mod_self]
      rw [hslot] at hnext
      split at hnext <;> split <;> omega
    · have hslot : (q.front + q.count) % q.size = q.front + q.count := Nat.mod_eq_of_lt hlt
      rw [hslot] at hnext
      split at hnext <;> split <;> omega

/-- The start decides about the whole iteration. -/
theorem Queue.iterates_iff (hfront : q.front ≤ q.size)
    (hstart : q.count ≠ 0 →
      q.front < q.size ∧ (queueForeachStart q = q.front ↔ q.front + q.count ≤ q.size)) :
    (∀ contents, ({ q with data := contents } : Queue).Iterates) ↔ q.front + q.count ≤ q.size := by
  -- the indices are the same whatever the slots hold
  have hindices : ∀ contents, queueForeachIndices { q with data := contents }
      = List.range' (queueForeachStart q) q.count := fun _ => queueForeachLoop_eq _ _
  rcases Nat.eq_zero_or_pos q.count with hzero | hpos
  · rw [hzero] at hindices ⊢
    refine iff_of_true (fun contents => ⟨fun σ c data => ?_, fun i hi => ?_⟩) hfront
    · rw [queueForeach_eq, hindices]
      rfl
    · rw [hindices] at hi
      cases hi
  · obtain ⟨hlt, hiff⟩ := hstart (Nat.pos_iff_ne_zero.mp hpos)
    obtain ⟨n, hn⟩ := Nat.exists_eq_add_of_lt hpos
    refine ⟨fun hall => hiff.mp ?_, fun hwrap contents => ⟨fun σ c data => ?_, fun i hi => ?_⟩⟩
    · -- with its own index in each slot, the first item held is `front`
      have hmap := (hall id).map_eq
      have hitems : ({ q with data := id } : Queue).items = RingBuffer.contents id q.front q.count q.size := rfl
      rw [hindices, hitems, hn, RingBuffer.contents_succ, List.range'_succ, List.map_cons] at hmap
      exact (List.cons.inj hmap).1.trans (Nat.mod_eq_of_lt hlt)
    · rw [queueForeach_eq, hindices, hiff.mpr hwrap, Queue.items_eq_range (by exact hwrap)]
    · rw [hindices, hiff.mpr hwrap, List.mem_range'_1] at hi
      exact Nat.lt_of_lt_of_le hi.2 hwrap

end

/-! ## After any calls -/

theorem queueCalls_rear {q : Queue} (h : q.rear < 65536) (calls : List QueueCall) :
    (calls.foldl QueueCall.run q).rear < 65536 := by
  induction calls generalizing q with
  | nil => exact h
  | cons c rest ih =>
    refine ih ?_
    cases c with
    | add ptr =>
      show (queueAdd q ptr).rear < 65536
      unfold queueAdd
      split
      · exact Nat.mod_lt _ (by decide)
      · exact h
    | remove =>
      show (queueRemove q).2.rear < 65536
      unfold queueRemove
      split <;> exact h
    | peek => exact h
    | size => exact h

/-- A queue without slots stays as it is. -/
theorem queueCalls_empty {q : Queue} (hsize : q.size = 0) (hcount : q.count = 0) (calls : List QueueCall) :
    calls.foldl QueueCall.run q = q ∧ calls.foldl (QueueCall.runFifo 0) [] = [] := by
  induction calls with
  | nil => exact ⟨rfl, rfl⟩
  | cons c rest ih =>
    rw [List.foldl_cons, List.foldl_cons]
    have hrun : c.run q = q := by
      cases c with
      | add ptr => exact if_neg (by rw [hsize]; exact Nat.not_lt_zero _)
      | remove => exact congrArg Prod.snd (if_pos hcount : queueRemove q = (null, q))
      | peek => rfl
      | size => rfl
    have hfifo : c.runFifo 0 [] = [] := by
      cases c <;> rfl
    rw [hrun, hfifo]
    exact ih

/-- **Queue iteration.** After any calls on `queue_init(q, size)`, `queue_foreach` comes to each item held
once, oldest first, and reads no slot from `size` on, whatever the items are, if and only if the items held
do not wrap around the end of the array. -/
theorem queue_foreach_iff (data : Nat → Nat) (size : UInt16) (calls : List QueueCall) :
    let q := calls.foldl QueueCall.run (queueInit data size.toNat)
    let held := calls.foldl (QueueCall.runFifo size.toNat) []
    q.items = held ∧ q.size = size.toNat
      ∧ ((∀ contents, ({ q with data := contents } : Queue).Iterates) ↔ q.front + queueSize q ≤ q.size) := by
  have hlt : size.toNat < 65536 := size.toNat_lt
  have hinitSize : (queueInit data size.toNat).size = size.toNat := u16_of_lt hlt
  have hrear : (calls.foldl QueueCall.run (queueInit data size.toNat)).rear < 65536 :=
    queueCalls_rear (q := queueInit data size.toNat) (by decide : (65536 - 1) % 65536 < 65536) calls
  intro q held
  rcases Nat.eq_zero_or_pos size.toNat with hzero | hpos
  · obtain ⟨hq, hheld⟩ := queueCalls_empty (hinitSize.trans hzero) rfl calls
    have hq : q = queueInit data size.toNat := hq
    have hheld : held = [] := by
      show calls.foldl (QueueCall.runFifo size.toNat) [] = []
      rw [hzero]
      exact hheld
    rw [hq, hheld]
    exact ⟨rfl, hinitSize, Queue.iterates_iff (Nat.zero_le _) fun hne => absurd rfl hne⟩
  · obtain ⟨hholds, hsize⟩ := queueCalls_holds (queueInit_holds data hpos hlt) calls
    rw [hinitSize] at hholds hsize
    exact ⟨hholds.items_eq, hsize, Queue.iterates_iff hholds.front_lt.le
      fun hne => ⟨hholds.front_lt, queueForeachStart_eq_front_iff hholds hrear hne⟩⟩

/-- A full queue of three slots whose oldest item stands in slot 2: slot 3 is read. -/
theorem queue_foreach_wrapped :
    let q := [.add 7, .add 8, .add 9, .remove, .remove, .add 10, .add 11].foldl QueueCall.run
      (queueInit (fun _ => 0) 3)
    [.add 7, .add 8, .add 9, .remove, .remove, .add 10, .add 11].foldl (QueueCall.runFifo 3) [] = [9, 10, 11]
      ∧ q.items = [9, 10, 11] ∧ queueForeachIndices q = [1, 2, 3] ∧ ¬ q.Iterates := by
  refine ⟨rfl, rfl, rfl, fun h => ?_⟩
  exact absurd (h.inside 3 (by decide)) (by decide)

end DiyOS
