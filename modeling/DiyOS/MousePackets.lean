import DiyOS.PortRouting
import Mathlib.Data.List.Forall2
import Mathlib.Data.List.TakeWhile

/-!
# Mouse packets (`drivers/mouse.c`)

An invocation of `mouse_handler` that finds only bytes of the mouse, packet after packet. A packet with an
overflow bit leaves `cicle` at 2, so that every later byte is taken for the third one of that packet.

* **`mouseInvocation_eq`** — the invocation decodes the bytes one after the other.
* **`mouseLoop_packets`** — the packets before the first one that overflows reach `mouse_queue`.
* **`mouse_packets_iff`** — all packets without overflow do exactly if none comes after one with it.
-/

namespace DiyOS

/-! ## An invocation

The handler reads on while there are bytes of the mouse. The loop has no bound, so that an invocation is run with
fuel. -/

/-- `mouse_handler` from the statement that comes next to its end. `malloc n` is the address that
`malloc` gives in the `n`-th statement. -/
def mouseInvocation (g : KbGlobals) (mouseWait : Nat) (malloc : Nat → Nat) :
    Nat → Nat → Ports → Option Ports
  | 0, _, _ => none
  | fuel + 1, n, s =>
    if s.pc = .idle then some s
    else mouseInvocation g mouseWait malloc fuel (n + 1) (portStep g mouseWait (malloc n) s)

/-- The bytes of an invocation, decoded one after the other; each takes three statements. -/
def mouseLoop (malloc : Nat → Nat) : Nat → Nat → List Nat → Mouse → Mouse
  | _, _, [], m => m
  | n, cicle, b :: bytes, m =>
    match mouseDecode (malloc (n + 2)) cicle b m with
    | (m, none) => m
    | (m, some cicle) => mouseLoop malloc (n + 3) cicle bytes m

section

variable {g : KbGlobals} {mouseWait : Nat} {malloc : Nat → Nat}

theorem mouseInvocation_step {fuel n : Nat} {s : Ports} (hpc : s.pc ≠ .idle) :
    mouseInvocation g mouseWait malloc (fuel + 1) n s
      = mouseInvocation g mouseWait malloc fuel (n + 1) (portStep g mouseWait (malloc n) s) := by
  rw [mouseInvocation, if_neg hpc]

/-- The read of the status, the test and the `switch`, for a byte of the mouse. -/
theorem mouseInvocation_byte {fuel n cicle b last : Nat} {rest : List (Device × Nat)} {k : Keyboard}
    {m m' : Mouse} {next : Option Nat} {pc : HandlerPc}
    (hdecode : mouseDecode (malloc (n + 2)) cicle b m = (m', next))
    (hpc : (next = none ∧ pc = .idle) ∨ ∃ cicle', next = some cicle' ∧ pc = .status cicle') :
    mouseInvocation g mouseWait malloc (fuel + 3) n ⟨⟨(.mouse, b) :: rest, last⟩, k, m, .status cicle⟩
      = mouseInvocation g mouseWait malloc fuel (n + 3) ⟨⟨rest, b⟩, k, m', pc⟩ := by
  have htest : portStep g mouseWait (malloc (n + 1))
      ⟨⟨(.mouse, b) :: rest, last⟩, k, m, .test 0x21 cicle⟩ = ⟨⟨rest, b⟩, k, m, .decode cicle b⟩ := by
    simp [portStep, Controller.data]
  have hswitch : portStep g mouseWait (malloc (n + 2)) ⟨⟨rest, b⟩, k, m, .decode cicle b⟩
      = ⟨⟨rest, b⟩, k, m', pc⟩ := by
    rcases hpc with ⟨rfl, rfl⟩ | ⟨cicle', rfl, rfl⟩
    · simp [portStep, hdecode]
    · simp [portStep, hdecode]
  rw [mouseInvocation_step (by simp), show portStep g mouseWait (malloc n)
      ⟨⟨(.mouse, b) :: rest, last⟩, k, m, .status cicle⟩
        = ⟨⟨(.mouse, b) :: rest, last⟩, k, m, .test 0x21 cicle⟩ from rfl,
    mouseInvocation_step (by simp), htest, mouseInvocation_step (by simp), hswitch]

/-- With no byte left, the handler wakes the mouse task up and returns. -/
theorem mouseInvocation_end {fuel n cicle last : Nat} {k : Keyboard} {m : Mouse} :
    mouseInvocation g mouseWait malloc (fuel + 4) n ⟨⟨[], last⟩, k, m, .status cicle⟩
      = some ⟨⟨[], last⟩, { k with kernel := wakeUp mouseWait k.kernel }, m, .idle⟩ := by
  have htest : portStep g mouseWait (malloc (n + 1)) ⟨⟨[], last⟩, k, m, .test 0 cicle⟩
      = ⟨⟨[], last⟩, k, m, .mouseWake⟩ := by
    simp [portStep]
  rw [mouseInvocation_step (by simp), show portStep g mouseWait (malloc n)
      ⟨⟨[], last⟩, k, m, .status cicle⟩ = ⟨⟨[], last⟩, k, m, .test 0 cicle⟩ from rfl,
    mouseInvocation_step (by simp), htest, mouseInvocation_step (by simp)]
  rfl

/-- The invocation decodes the bytes that are there, and returns. -/
theorem mouseInvocation_eq {bytes : List Nat} {fuel n cicle last : Nat} {k : Keyboard} {m : Mouse}
    (hfuel : 3 * bytes.length + 4 ≤ fuel) :
    ∃ s', mouseInvocation g mouseWait malloc fuel n
        ⟨⟨bytes.map (Prod.mk Device.mouse), last⟩, k, m, .status cicle⟩ = some s'
      ∧ s'.pc = .idle ∧ s'.mouse = mouseLoop malloc n cicle bytes m := by
  induction bytes generalizing fuel n cicle last m with
  | nil =>
    obtain ⟨fuel, rfl⟩ := Nat.exists_eq_add_of_le' hfuel
    exact ⟨_, mouseInvocation_end, rfl, rfl⟩
  | cons b bytes ih =>
    rw [List.length_cons] at hfuel
    obtain ⟨fuel, rfl⟩ : ∃ k, fuel = k + 3 := ⟨fuel - 3, by omega⟩
    rcases hdecode : mouseDecode (malloc (n + 2)) cicle b m with ⟨m', next⟩
    cases next with
    | none =>
      obtain ⟨fuel, rfl⟩ : ∃ k, fuel = k + 1 := ⟨fuel - 1, by omega⟩
      rw [List.map_cons, mouseInvocation_byte hdecode (Or.inl ⟨rfl, rfl⟩), mouseLoop, hdecode]
      exact ⟨_, by rw [mouseInvocation, if_pos rfl], rfl, rfl⟩
    | some cicle' =>
      rw [List.map_cons, mouseInvocation_byte hdecode (Or.inr ⟨cicle', rfl, rfl⟩), mouseLoop, hdecode]
      exact ih (by omega)

end

/-! ## Packets of three bytes

The controller's packets, as they arrive whole. -/

/-- A packet as the mouse sends it. -/
structure Ps2Packet where
  flags : Nat
  dx : Nat
  dy : Nat

namespace Ps2Packet

def bytes (p : Ps2Packet) : List Nat := [p.flags, p.dx, p.dy]

theorem length_flatMap (ps : List Ps2Packet) : (ps.flatMap bytes).length = 3 * ps.length := by
  induction ps with
  | nil => rfl
  | cons p ps ih =>
    rw [List.flatMap_cons, List.length_append, ih, List.length_cons]
    show 3 + 3 * ps.length = 3 * (ps.length + 1)
    omega

/-- The overflow of `y` or `x`. -/
def Overflow (p : Ps2Packet) : Prop := p.flags &&& 0x80 ≠ 0 ∨ p.flags &&& 0x40 ≠ 0

instance (p : Ps2Packet) : Decidable p.Overflow := inferInstanceAs (Decidable (_ ∨ _))

/-- The memory at `a` holds the packet `p`. -/
def StoredAt (p : Ps2Packet) (packet : Nat → Option MousePacket) (a : Nat) : Prop :=
  ∃ r, packet a = some r ∧ r.flags = p.flags ∧ r.dx = p.dx ∧ r.dy = p.dy

end Ps2Packet

/-- `malloc` succeeds, and gives a new block each time. -/
structure FreshMalloc (malloc : Nat → Nat) : Prop where
  injective : Function.Injective malloc
  ne_null : ∀ n, malloc n ≠ null

section

variable {malloc : Nat → Nat} {p : Ps2Packet} {n : Nat} {rest : List Nat} {m : Mouse}

/-- The state of the decoder behind the bytes of `p`. -/
def Mouse.received (m : Mouse) (p : Ps2Packet) : Mouse :=
  { m with pkt := { m.pkt with flags := p.flags, dx := p.dx, dy := p.dy } }

/-- The first two bytes of a packet. -/
theorem mouseLoop_received (hsync : p.flags &&& 0x08 ≠ 0) :
    mouseLoop malloc n 0 (p.bytes ++ rest) m
      = mouseLoop malloc (n + 6) 2 (p.dy :: rest)
        { m with pkt := { m.pkt with flags := p.flags, dx := p.dx } } := by
  show mouseLoop malloc n 0 (p.flags :: p.dx :: p.dy :: rest) m = _
  rw [mouseLoop, mouseDecode]
  simp only [if_neg hsync]
  rw [mouseLoop, mouseDecode]

/-- The third byte of a packet with an overflow bit. -/
theorem mouseLoop_overflow (hsync : p.flags &&& 0x08 ≠ 0) (hp : p.Overflow) :
    mouseLoop malloc n 0 (p.bytes ++ rest) m = mouseLoop malloc (n + 9) 2 rest (m.received p) := by
  have hflags : p.flags &&& 0x80 ≠ 0 ∨ p.flags &&& 0x40 ≠ 0 := hp
  rw [mouseLoop_received hsync, mouseLoop, mouseDecode]
  simp only [if_pos hflags]
  rfl

theorem mouseLoop_packet (hsync : p.flags &&& 0x08 ≠ 0) (hp : ¬ p.Overflow) :
    mouseLoop malloc n 0 (p.bytes ++ rest) m
      = mouseLoop malloc (n + 9) 0 rest { m.received p with
        packet := Function.update m.packet (malloc (n + 8)) (some (m.received p).pkt)
        mouseQueue := queueAdd m.mouseQueue (malloc (n + 8)) } := by
  have hflags : ¬ (p.flags &&& 0x80 ≠ 0 ∨ p.flags &&& 0x40 ≠ 0) := hp
  rw [mouseLoop_received hsync, mouseLoop, mouseDecode]
  simp only [if_neg hflags]
  rfl

/-- Behind a packet with an overflow bit nothing reaches the queue any more. -/
theorem mouseLoop_stuck (hflags : m.pkt.flags &&& 0x80 ≠ 0 ∨ m.pkt.flags &&& 0x40 ≠ 0) :
    (mouseLoop malloc n 2 rest m).mouseQueue = m.mouseQueue
      ∧ (mouseLoop malloc n 2 rest m).packet = m.packet := by
  induction rest generalizing n m with
  | nil => exact ⟨rfl, rfl⟩
  | cons b rest ih =>
    rw [mouseLoop, mouseDecode]
    simp only [if_pos hflags]
    exact @ih (n + 3) { m with pkt := { m.pkt with dy := b } } hflags

/-- The packets before the first one that overflows reach the queue, and nothing else does. -/
theorem mouseLoop_packets (hmalloc : FreshMalloc malloc) {ps : List Ps2Packet}
    (hsync : ∀ p ∈ ps, p.flags &&& 0x08 ≠ 0) {held : List Nat} (hheld : m.mouseQueue.Holds held)
    (hroom : held.length + (ps.takeWhile fun p => ¬ p.Overflow).length ≤ m.mouseQueue.size) :
    let m' := mouseLoop malloc n 0 (ps.flatMap Ps2Packet.bytes) m
    (∃ ptrs, m'.mouseQueue.Holds (held ++ ptrs)
        ∧ List.Forall₂ (fun a p => p.StoredAt m'.packet a) ptrs (ps.takeWhile fun p => ¬ p.Overflow))
      ∧ ∀ a, (∀ k, n ≤ k → malloc k ≠ a) → m'.packet a = m.packet a := by
  induction ps generalizing n m held with
  | nil => exact ⟨⟨[], by rw [List.append_nil]; exact hheld, List.Forall₂.nil⟩, fun _ _ => rfl⟩
  | cons p ps ih =>
    have hp := hsync p List.mem_cons_self
    by_cases hover : p.Overflow
    · -- every later byte is taken for the third one of this packet
      have hstuck := @mouseLoop_stuck malloc (n + 9) (ps.flatMap Ps2Packet.bytes) (m.received p) hover
      rw [List.flatMap_cons, mouseLoop_overflow hp hover, List.takeWhile_cons_of_neg (by simpa using hover)]
      refine ⟨⟨[], ?_, List.Forall₂.nil⟩, fun a _ => congrFun hstuck.2 a⟩
      rw [hstuck.1, List.append_nil]
      exact hheld
    · rw [List.takeWhile_cons_of_pos (by simpa using hover)] at hroom ⊢
      rw [List.length_cons] at hroom
      have hpush : (queueAdd m.mouseQueue (malloc (n + 8))).Holds (held ++ [malloc (n + 8)]) :=
        hheld.add_of_room (by rw [queueSize, hheld.count_eq]; omega) _
      obtain ⟨⟨ptrs, hholds, hstored⟩, hframe⟩ := @ih (n + 9) { m.received p with
          packet := Function.update m.packet (malloc (n + 8)) (some (m.received p).pkt)
          mouseQueue := queueAdd m.mouseQueue (malloc (n + 8)) }
        (fun q hq => hsync q (List.mem_cons_of_mem _ hq)) _ hpush
        (by simp only [queueAdd_size, List.length_append, List.length_singleton]; omega)
      rw [List.flatMap_cons, mouseLoop_packet hp hover]
      refine ⟨⟨malloc (n + 8) :: ptrs, by simpa using hholds, List.Forall₂.cons ?_ hstored⟩, ?_⟩
      · -- no later `malloc` gives this address again
        refine ⟨(m.received p).pkt, ?_, rfl, rfl, rfl⟩
        rw [hframe _ fun k hk heq => by have := hmalloc.injective heq; omega]
        exact Function.update_self _ _ _
      · intro a ha
        rw [hframe a fun k hk => ha k (by omega)]
        exact Function.update_of_ne (fun heq => ha (n + 8) (by omega) heq.symm) _ _

end

/-! ## Which packets reach the queue

After an overflow, `cicle` stays at 2: the next byte, the flags of the next packet, is taken for its last. So
what is lost is known from the first packet with an overflow on. -/

section

variable {α : Type} {q : α → Bool}

/-- The elements before the first one without `q` are all those with it, where none follows one without
it. -/
theorem takeWhile_eq_filter {l : List α} (h : l.Pairwise fun a b => q a = false → q b = false) :
    l.takeWhile q = l.filter q := by
  induction l with
  | nil => rfl
  | cons a l ih =>
    obtain ⟨hhead, hrest⟩ := List.pairwise_cons.mp h
    cases ha : q a with
    | true => rw [List.takeWhile_cons_of_pos ha, List.filter_cons_of_pos ha, ih hrest]
    | false =>
      have hnone : l.filter q = [] := by
        rw [List.filter_eq_nil_iff]
        intro b hb
        simp [hhead b hb ha]
      rw [List.takeWhile_cons_of_neg (by simp [ha]), List.filter_cons_of_neg (by simp [ha]), hnone]

theorem length_takeWhile_le_filter (l : List α) : (l.takeWhile q).length ≤ (l.filter q).length := by
  have hall : (l.takeWhile q).filter q = l.takeWhile q :=
    List.filter_eq_self.mpr fun a ha => List.mem_takeWhile_imp ha
  rw [← hall]
  exact ((List.takeWhile_prefix q).sublist.filter q).length_le

theorem pairwise_of_length_takeWhile {l : List α} (h : (l.takeWhile q).length = (l.filter q).length) :
    l.Pairwise fun a b => q a = false → q b = false := by
  induction l with
  | nil => exact List.Pairwise.nil
  | cons a l ih =>
    cases ha : q a with
    | true =>
      rw [List.takeWhile_cons_of_pos ha, List.filter_cons_of_pos ha, List.length_cons,
        List.length_cons] at h
      exact List.Pairwise.cons (fun b _ hfalse => absurd ha (by simp [hfalse])) (ih (Nat.succ.inj h))
    | false =>
      rw [List.takeWhile_cons_of_neg (by simp [ha]), List.filter_cons_of_neg (by simp [ha]),
        List.length_nil] at h
      have hnone := List.filter_eq_nil_iff.mp (List.length_eq_zero_iff.mp h.symm)
      refine List.Pairwise.cons (fun b hb _ => by simpa using hnone b hb) ?_
      exact List.pairwise_of_forall_mem_list fun b _ c hc _ => by simpa using hnone c hc

end

/-- The packets `ps` reach the queue in order, each in a block of its own fields. -/
def Receives (held : List Nat) (ps : List Ps2Packet) (m : Mouse) : Prop :=
  ∃ ptrs, m.mouseQueue.Holds (held ++ ptrs) ∧ List.Forall₂ (fun a p => p.StoredAt m.packet a) ptrs ps

/-- **Mouse packets.** In an invocation of `mouse_handler` that finds the bytes of packets, `mouse_queue`
with room for them receives exactly the packets without an overflow bit, in order, if and only if no
packet without overflow comes after one with it. -/
theorem mouse_packets_iff {g : KbGlobals} {mouseWait : Nat} {malloc : Nat → Nat}
    (hmalloc : FreshMalloc malloc) {s : Ports} (hpc : s.pc = .status 0) {ps : List Ps2Packet}
    (hbuffer : s.controller.buffer = (ps.flatMap Ps2Packet.bytes).map (Prod.mk Device.mouse))
    (hsync : ∀ p ∈ ps, p.flags &&& 0x08 ≠ 0) {held : List Nat} (hheld : s.mouse.mouseQueue.Holds held)
    (hroom : held.length + (ps.filter fun p => ¬ p.Overflow).length ≤ s.mouse.mouseQueue.size)
    {fuel : Nat} (hfuel : 9 * ps.length + 4 ≤ fuel) :
    ∃ s', mouseInvocation g mouseWait malloc fuel 0 s = some s' ∧ s'.pc = .idle
      ∧ (Receives held (ps.filter fun p => ¬ p.Overflow) s'.mouse
        ↔ ps.Pairwise fun p q => p.Overflow → q.Overflow) := by
  obtain ⟨⟨buffer, last⟩, k, m, pc⟩ := s
  subst hpc hbuffer
  have hlength := Ps2Packet.length_flatMap ps
  have hcapacity : held.length + (ps.filter fun p => ¬ p.Overflow).length ≤ m.mouseQueue.size := hroom
  obtain ⟨s', hcall, hidle, hmouse⟩ := @mouseInvocation_eq g mouseWait malloc
    (ps.flatMap Ps2Packet.bytes) fuel 0 0 last k m (by omega)
  have hle := length_takeWhile_le_filter (q := fun p : Ps2Packet => ¬ p.Overflow) ps
  obtain ⟨⟨ptrs, hholds, hstored⟩, _⟩ := @mouseLoop_packets malloc 0 m hmalloc ps hsync held hheld
    (by omega)
  rw [← hmouse] at hholds hstored
  have hcond : ∀ p q : Ps2Packet, (p.Overflow → q.Overflow)
      ↔ (decide (¬ p.Overflow) = false → decide (¬ q.Overflow) = false) := by
    intro p q
    simp
  refine ⟨s', hcall, hidle, ?_, ?_⟩
  · rintro ⟨ptrs', hholds', hstored'⟩
    -- the queue holds one list of items only
    have hsame : ptrs' = ptrs :=
      List.append_cancel_left (hholds'.items_eq.symm.trans hholds.items_eq)
    have hlen := hstored'.length_eq
    rw [hsame, hstored.length_eq] at hlen
    exact (pairwise_of_length_takeWhile hlen).imp (hcond _ _).mpr
  · intro hpairs
    rw [← takeWhile_eq_filter (hpairs.imp (hcond _ _).mp)]
    exact ⟨ptrs, hholds, hstored⟩

/-- `mouse_handler` starts with the bytes of `ps` in the buffer. -/
def mouseStarts (ps : List Ps2Packet) : Ports :=
  { portBoot with
    controller := ⟨(ps.flatMap Ps2Packet.bytes).map (Prod.mk Device.mouse), 0⟩
    pc := .status 0 }

theorem freshMalloc_succ : FreshMalloc (· + 1) :=
  ⟨fun _ _ heq => Nat.succ.inj heq, fun n => Nat.succ_ne_zero n⟩

theorem mouseStarts_holds (ps : List Ps2Packet) : (mouseStarts ps).mouse.mouseQueue.Holds [] :=
  queueInit_holds _ (by decide) (by decide)

/-- Two packets, of which the second one overflows. -/
theorem mouse_packets_two :
    ∃ s', mouseInvocation keyGlobals 1 (· + 1) 22 0 (mouseStarts [⟨0x08, 1, 2⟩, ⟨0x48, 3, 4⟩]) = some s'
      ∧ Receives [] [⟨0x08, 1, 2⟩] s'.mouse := by
  obtain ⟨s', hcall, _, hiff⟩ := @mouse_packets_iff keyGlobals 1 _ freshMalloc_succ
    (mouseStarts [⟨0x08, 1, 2⟩, ⟨0x48, 3, 4⟩]) rfl [⟨0x08, 1, 2⟩, ⟨0x48, 3, 4⟩] rfl (by decide) []
    (mouseStarts_holds _) (by decide) 22 (by decide)
  exact ⟨s', hcall, hiff.mpr (by simp [Ps2Packet.Overflow])⟩

/-- A packet that overflows, and behind it one that does not: nothing reaches the queue. -/
theorem mouse_packet_swallowed :
    ∃ s', mouseInvocation keyGlobals 1 (· + 1) 22 0 (mouseStarts [⟨0x48, 1, 2⟩, ⟨0x08, 3, 4⟩]) = some s'
      ∧ ¬ Receives [] ([⟨0x48, 1, 2⟩, ⟨0x08, 3, 4⟩].filter fun p => ¬ p.Overflow) s'.mouse := by
  obtain ⟨s', hcall, _, hmouse⟩ := @mouseInvocation_eq keyGlobals 1 (· + 1)
    [0x48, 1, 2, 0x08, 3, 4] 22 0 0 0 portBoot.keyboard portBoot.mouse (by decide)
  refine ⟨s', hcall, ?_⟩
  rintro ⟨ptrs, hholds, hstored⟩
  have hone : ptrs.length = 1 := hstored.length_eq
  have hqueue := (@mouseLoop_stuck (· + 1) 9 [0x08, 3, 4] (portBoot.mouse.received ⟨0x48, 1, 2⟩)
    (Or.inr (by decide))).1
  have hloop := @mouseLoop_overflow (· + 1) ⟨0x48, 1, 2⟩ 0 [0x08, 3, 4] portBoot.mouse (by decide)
    (Or.inr (by decide))
  have hcount : s'.mouse.mouseQueue.count = 0 := by
    rw [hmouse]
    exact (congrArg (fun m : Mouse => m.mouseQueue.count) hloop).trans (congrArg Queue.count hqueue)
  rw [hholds.count_eq, List.nil_append, hone] at hcount
  cases hcount

end DiyOS
