import DiyOS.MousePackets
import Mathlib.Data.List.Infix
import Mathlib.Data.Nat.Pairing
import Mathlib.Data.Set.Basic

/-!
# Mouse bytes in batches (`mouse_handler` in `drivers/mouse.c`)

The bytes of a stream arrive in batches, each of them what an invocation of `mouse_handler` finds, behind
the bytes that an earlier one has left. `cicle` is a local variable: a packet that is cut in two by the end
of a batch is lost, and its bytes may be taken for others.

* **`mouseBatches`** — the invocations, with the packets that are handed to `queue_add`.
* **`mouseBatches_gets`** — these packets are what `mouse_queue` gets.
* **`decodeBatch`** — what one invocation makes of the bytes.
* **`mouse_batches_iff`** — which streams and which batches are safe.
-/

namespace DiyOS

/-! ## Packets handed to `queue_add`

The log: each statement with the packet that it hands over, if it does. -/

/-- The packet that the next statement hands to `queue_add`. -/
def Ports.queued (s : Ports) : List Ps2Packet :=
  match s.pc with
  | .decode 2 mouseIn =>
    let p : Ps2Packet := ⟨s.mouse.pkt.flags, s.mouse.pkt.dx, mouseIn⟩
    if p.Overflow then [] else [p]
  | _ => []

section

variable {malloc b : Nat} {m : Mouse}

theorem mouseDecode_first : mouseDecode malloc 0 b m = ({ m with pkt := { m.pkt with flags := b } },
    if b &&& 0x08 = 0 then none else some 1) := by
  rw [mouseDecode]
  split
  · rfl
  · rfl

theorem mouseDecode_overflow (h : (Ps2Packet.mk m.pkt.flags m.pkt.dx b).Overflow) :
    mouseDecode malloc 2 b m = ({ m with pkt := { m.pkt with dy := b } }, some 2) := by
  unfold mouseDecode
  exact if_pos h

theorem portStep_decode {g : KbGlobals} {mouseWait cicle : Nat} {c : Controller} {k : Keyboard} {m' : Mouse}
    {next : Option Nat} (h : mouseDecode malloc cicle b m = (m', next)) :
    portStep g mouseWait malloc ⟨c, k, m, .decode cicle b⟩
      = ⟨c, k, m', next.elim .idle .status⟩ := by
  unfold portStep
  simp only [h]
  cases next with
  | none => rfl
  | some cicle => rfl

theorem mouseDecode_packet (h : ¬ (Ps2Packet.mk m.pkt.flags m.pkt.dx b).Overflow) :
    mouseDecode malloc 2 b m = ({ m with
      pkt := { m.pkt with dy := b }
      packet := Function.update m.packet malloc (some { m.pkt with dy := b })
      mouseQueue := queueAdd m.mouseQueue malloc }, some 0) := by
  unfold mouseDecode
  exact if_neg h

end

/-- `mouseInvocation` with the packets it hands to `queue_add`. -/
def mouseInvocationQueued (g : KbGlobals) (mouseWait : Nat) (malloc : Nat → Nat) :
    Nat → Nat → Ports → Option (List Ps2Packet × Ports)
  | 0, _, _ => none
  | fuel + 1, n, s =>
    if s.pc = .idle then some ([], s)
    else
      match mouseInvocationQueued g mouseWait malloc fuel (n + 1) (portStep g mouseWait (malloc n) s) with
      | none => none
      | some (ps, s') => some (s.queued ++ ps, s')

/-- The invocations of `mouse_handler` for the batches `bs`; `malloc i` is the memory for the packets where
`i` batches are left. -/
def mouseBatches (g : KbGlobals) (mouseWait : Nat) (malloc : Nat → Nat → Nat) (fuel : Nat) :
    List (List Nat) → Ports → Option (List Ps2Packet × Ports)
  | [], s => some ([], s)
  | b :: bs, s =>
    let buffer := s.controller.buffer ++ b.map (Prod.mk Device.mouse)
    match mouseInvocationQueued g mouseWait (malloc bs.length) fuel 0
        { s with controller := { s.controller with buffer := buffer }, pc := .status 0 } with
    | none => none
    | some (ps, s) =>
      match mouseBatches g mouseWait malloc fuel bs s with
      | none => none
      | some (ps', s) => some (ps ++ ps', s)

/-! ## What the queue gets

A queue with room takes what it is handed, in order; a full one drops it. So the log says more than the queue. -/

/-- From `m` to `m'` the queue got the packets `ps`: they are stored at the addresses that were added, which
are among `given`, and the record at no other address changed. -/
def Mouse.Gets (m m' : Mouse) (ps : List Ps2Packet) (given : Set Nat) : Prop :=
  ∃ addrs, (∀ a ∈ addrs, a ∈ given) ∧ m'.mouseQueue = addrs.foldl queueAdd m.mouseQueue
    ∧ List.Forall₂ (fun p a => p.StoredAt m'.packet a) ps addrs ∧ ∀ a ∉ given, m'.packet a = m.packet a

section

variable {m m' m'' : Mouse} {ps ps' : List Ps2Packet} {given given' : Set Nat}

/-- Neither the queue nor a record changed. -/
theorem Mouse.Gets.of_eq (hqueue : m'.mouseQueue = m.mouseQueue) (hpacket : m'.packet = m.packet) (given : Set Nat) :
    m.Gets m' [] given :=
  ⟨[], List.forall_mem_nil _, hqueue, List.Forall₂.nil, fun a _ => congrFun hpacket a⟩

theorem Mouse.Gets.mono (h : m.Gets m' ps given) (hsub : given ⊆ given') : m.Gets m' ps given' := by
  obtain ⟨addrs, hgiven, hqueue, hstored, hframe⟩ := h
  exact ⟨addrs, fun a ha => hsub (hgiven a ha), hqueue, hstored, fun a ha => hframe a fun hin => ha (hsub hin)⟩

/-- The packets of two stretches, where no address is given in both. -/
theorem Mouse.Gets.trans (h : m.Gets m' ps given) (h' : m'.Gets m'' ps' given')
    (hapart : ∀ a ∈ given, a ∉ given') : m.Gets m'' (ps ++ ps') (given ∪ given') := by
  obtain ⟨addrs, hgiven, hqueue, hstored, hframe⟩ := h
  obtain ⟨addrs', hgiven', hqueue', hstored', hframe'⟩ := h'
  refine ⟨addrs ++ addrs', ?_, ?_, ?_, ?_⟩
  · intro a ha
    exact (List.mem_append.mp ha).imp (hgiven a) (hgiven' a)
  · rw [List.foldl_append, ← hqueue, hqueue']
  · -- the packets of the first stretch are still stored after the second
    refine List.rel_append ?_ hstored'
    refine (List.forall₂_iff_zip.mpr ⟨hstored.length_eq, fun {p a} hin => ?_⟩)
    obtain ⟨r, hr, hfields⟩ := List.forall₂_zip hstored hin
    have hout : a ∉ given' := hapart a (hgiven a (List.of_mem_zip hin).2)
    exact ⟨r, (hframe' a hout).trans hr, hfields⟩
  · intro a ha
    rw [Set.mem_union, not_or] at ha
    exact (hframe' a ha.2).trans (hframe a ha.1)

end

/-- The log of a statement is what the queue gets in it. -/
theorem portStep_gets (g : KbGlobals) (mouseWait malloc : Nat) (s : Ports) :
    s.mouse.Gets (portStep g mouseWait malloc s).mouse s.queued {malloc} := by
  obtain ⟨c, k, m, pc⟩ := s
  cases pc with
  | idle | kbRead | kbAdd code | kbWake | status cicle | mouseWake => exact Mouse.Gets.of_eq rfl rfl _
  | test status cicle =>
    refine Mouse.Gets.of_eq ?_ ?_ _
    · unfold portStep
      dsimp only
      split <;> rfl
    · unfold portStep
      dsimp only
      split <;> rfl
  | decode cicle b =>
    show m.Gets (mouseDecode malloc cicle b m).1 _ _
    -- only the third byte of a packet can add it to the queue
    match cicle with
    | 0 =>
      rw [mouseDecode_first]
      exact Mouse.Gets.of_eq rfl rfl _
    | 1 => exact Mouse.Gets.of_eq rfl rfl _
    | 2 =>
      have hqueued : Ports.queued ⟨c, k, m, .decode 2 b⟩
          = if (Ps2Packet.mk m.pkt.flags m.pkt.dx b).Overflow then [] else [⟨m.pkt.flags, m.pkt.dx, b⟩] := rfl
      by_cases hover : (Ps2Packet.mk m.pkt.flags m.pkt.dx b).Overflow
      · rw [mouseDecode_overflow hover, hqueued, if_pos hover]
        exact Mouse.Gets.of_eq rfl rfl _
      · rw [mouseDecode_packet hover, hqueued, if_neg hover]
        refine ⟨[malloc], fun a ha => List.mem_singleton.mp ha, rfl, List.Forall₂.cons ?_ List.Forall₂.nil, ?_⟩
        · exact ⟨_, Function.update_self _ _ _, rfl, rfl, rfl⟩
        · exact fun a ha => Function.update_of_ne ha _ _
    | _ + 3 => exact Mouse.Gets.of_eq rfl rfl _

section

variable {g : KbGlobals} {mouseWait fuel : Nat}

/-- An invocation, with a new address for each packet. -/
theorem mouseInvocationQueued_gets {malloc : Nat → Nat} (hmalloc : Function.Injective malloc) {n : Nat}
    {s s' : Ports} {ps : List Ps2Packet}
    (hcall : mouseInvocationQueued g mouseWait malloc fuel n s = some (ps, s')) :
    s.mouse.Gets s'.mouse ps {a | ∃ k ≥ n, malloc k = a} := by
  induction fuel generalizing n s ps with
  | zero => cases hcall
  | succ fuel ih =>
    rw [mouseInvocationQueued] at hcall
    split at hcall
    · cases hcall
      exact Mouse.Gets.of_eq rfl rfl _
    · split at hcall
      · cases hcall
      · next ps' t hrest =>
        cases hcall
        refine ((portStep_gets g mouseWait (malloc n) s).trans (ih hrest) ?_).mono ?_
        · -- the statements after this one get other addresses
          rintro _ rfl ⟨k, hk, heq⟩
          have := hmalloc heq
          omega
        · rintro a (rfl | ⟨k, hk, rfl⟩)
          · exact ⟨n, le_rfl, rfl⟩
          · exact ⟨k, Nat.le_of_succ_le hk, rfl⟩

/-- **The log of the invocations** is what `mouse_queue` gets. -/
theorem mouseBatches_gets {malloc : Nat → Nat → Nat}
    (hmalloc : ∀ i j n k, malloc i n = malloc j k → i = j ∧ n = k) {bs : List (List Nat)} {s s' : Ports}
    {ps : List Ps2Packet} (hcall : mouseBatches g mouseWait malloc fuel bs s = some (ps, s')) :
    s.mouse.Gets s'.mouse ps {a | ∃ i < bs.length, ∃ k, malloc i k = a} := by
  induction bs generalizing s ps with
  | nil =>
    cases hcall
    exact Mouse.Gets.of_eq rfl rfl _
  | cons b bs ih =>
    rw [mouseBatches] at hcall
    dsimp only at hcall
    split at hcall
    · cases hcall
    · next ps₁ s₁ hfirst =>
      split at hcall
      · cases hcall
      · next ps₂ s₂ hrest =>
        cases hcall
        have hinj : Function.Injective (malloc bs.length) := fun n k heq => (hmalloc _ _ n k heq).2
        refine ((mouseInvocationQueued_gets hinj hfirst).trans (ih hrest) ?_).mono ?_
        · rintro _ ⟨k, _, rfl⟩ ⟨i, hi, k', heq⟩
          have := (hmalloc _ _ _ _ heq).1
          omega
        · rintro a (⟨k, _, rfl⟩ | ⟨i, hi, k, rfl⟩)
          · exact ⟨bs.length, Nat.lt_succ_self _, k, rfl⟩
          · exact ⟨i, Nat.lt_succ_of_lt hi, k, rfl⟩

end

/-! ## One invocation

The statements of an invocation are the loop over its bytes. -/

/-- What an invocation makes of the bytes it finds, with `flags` and `dx` in `pkt`: the packets it hands to
`queue_add`, and the bytes it leaves where it returns early. -/
def decodeBatch : Nat → Nat → Nat → List Nat → List Ps2Packet × List Nat
  | _, _, _, [] => ([], [])
  | 0, _, dx, b :: bs => if b &&& 0x08 = 0 then ([], bs) else decodeBatch 1 b dx bs
  | 1, flags, _, b :: bs => decodeBatch 2 flags b bs
  | 2, flags, dx, b :: bs =>
    let p : Ps2Packet := ⟨flags, dx, b⟩
    if p.Overflow then decodeBatch 2 flags dx bs
    else (p :: (decodeBatch 0 flags dx bs).1, (decodeBatch 0 flags dx bs).2)
  | cicle + 3, flags, dx, _ :: bs => decodeBatch (cicle + 3) flags dx bs

section

variable {g : KbGlobals} {mouseWait : Nat} {malloc : Nat → Nat}

theorem mouseInvocationQueued_step {fuel n : Nat} {s s' s'' : Ports} {ps : List Ps2Packet}
    (hpc : s.pc ≠ .idle) (hstep : portStep g mouseWait (malloc n) s = s')
    (hrest : mouseInvocationQueued g mouseWait malloc fuel (n + 1) s' = some (ps, s'')) :
    mouseInvocationQueued g mouseWait malloc (fuel + 1) n s = some (s.queued ++ ps, s'') := by
  rw [mouseInvocationQueued, if_neg hpc, hstep, hrest]

/-- The three statements for a byte of the mouse. -/
theorem mouseInvocationQueued_byte {fuel n cicle b last : Nat} {rest : List (Device × Nat)} {k : Keyboard}
    {m : Mouse} {s' : Ports} {ps : List Ps2Packet}
    (hrest : mouseInvocationQueued g mouseWait malloc fuel (n + 3)
      (portStep g mouseWait (malloc (n + 2)) ⟨⟨rest, b⟩, k, m, .decode cicle b⟩) = some (ps, s')) :
    mouseInvocationQueued g mouseWait malloc (fuel + 3) n ⟨⟨(.mouse, b) :: rest, last⟩, k, m, .status cicle⟩
      = some (Ports.queued ⟨⟨rest, b⟩, k, m, .decode cicle b⟩ ++ ps, s') := by
  have hstatus : portStep g mouseWait (malloc n) ⟨⟨(.mouse, b) :: rest, last⟩, k, m, .status cicle⟩
      = ⟨⟨(.mouse, b) :: rest, last⟩, k, m, .test 0x21 cicle⟩ := rfl
  have htest : portStep g mouseWait (malloc (n + 1))
      ⟨⟨(.mouse, b) :: rest, last⟩, k, m, .test 0x21 cicle⟩ = ⟨⟨rest, b⟩, k, m, .decode cicle b⟩ := by
    simp [portStep, Controller.data]
  exact mouseInvocationQueued_step (by simp) hstatus
    (mouseInvocationQueued_step (by simp) htest (mouseInvocationQueued_step (by simp) rfl hrest))

/-- One byte: `mouseDecode` ends the invocation, or `decodeBatch` goes on from what it leaves. -/
theorem decodeBatch_cons {cicle : Nat} (hcicle : cicle < 3) (malloc b : Nat) (m : Mouse) (bytes : List Nat)
    (c : Controller) (k : Keyboard) :
    (∃ m', mouseDecode malloc cicle b m = (m', none) ∧ Ports.queued ⟨c, k, m, .decode cicle b⟩ = []
        ∧ decodeBatch cicle m.pkt.flags m.pkt.dx (b :: bytes) = ([], bytes))
      ∨ ∃ next < 3, ∃ m', mouseDecode malloc cicle b m = (m', some next)
        ∧ decodeBatch cicle m.pkt.flags m.pkt.dx (b :: bytes)
          = (Ports.queued ⟨c, k, m, .decode cicle b⟩ ++ (decodeBatch next m'.pkt.flags m'.pkt.dx bytes).1,
            (decodeBatch next m'.pkt.flags m'.pkt.dx bytes).2) := by
  -- the `switch` of the handler and that of `decodeBatch`, case by case
  match cicle with
  | 0 =>
    rw [mouseDecode_first, decodeBatch]
    by_cases hsync : b &&& 0x08 = 0
    · rw [if_pos hsync, if_pos hsync]
      exact Or.inl ⟨_, rfl, rfl, rfl⟩
    · rw [if_neg hsync, if_neg hsync]
      exact Or.inr ⟨1, by decide, _, rfl, rfl⟩
  | 1 =>
    rw [decodeBatch]
    exact Or.inr ⟨2, by decide, _, rfl, rfl⟩
  | 2 =>
    rw [decodeBatch, Ports.queued]
    by_cases hover : (Ps2Packet.mk m.pkt.flags m.pkt.dx b).Overflow
    · simp only [if_pos hover]
      exact Or.inr ⟨2, by decide, _, mouseDecode_overflow hover, rfl⟩
    · simp only [if_neg hover]
      exact Or.inr ⟨0, by decide, _, mouseDecode_packet hover, rfl⟩

/-- **One invocation** on the bytes in the buffer. -/
theorem mouseInvocationQueued_eq {bytes : List Nat} {fuel n cicle last : Nat} {k : Keyboard} {m : Mouse}
    (hcicle : cicle < 3) (hfuel : 3 * bytes.length + 4 ≤ fuel) :
    ∃ s', mouseInvocationQueued g mouseWait malloc fuel n
        ⟨⟨bytes.map (Prod.mk Device.mouse), last⟩, k, m, .status cicle⟩
          = some ((decodeBatch cicle m.pkt.flags m.pkt.dx bytes).1, s')
      ∧ s'.controller.buffer
        = (decodeBatch cicle m.pkt.flags m.pkt.dx bytes).2.map (Prod.mk Device.mouse) := by
  induction bytes generalizing fuel n cicle last m with
  | nil =>
    -- the read of the status, the test and `wake_up`
    obtain ⟨fuel, rfl⟩ : ∃ k, fuel = k + 4 := ⟨fuel - 4, by omega⟩
    have htest : portStep g mouseWait (malloc (n + 1)) ⟨⟨[], last⟩, k, m, .test 0 cicle⟩
        = ⟨⟨[], last⟩, k, m, .mouseWake⟩ := by
      simp [portStep]
    have hidle : mouseInvocationQueued g mouseWait malloc (fuel + 1) (n + 3)
        ⟨⟨[], last⟩, { k with kernel := wakeUp mouseWait k.kernel }, m, .idle⟩
          = some ([], ⟨⟨[], last⟩, { k with kernel := wakeUp mouseWait k.kernel }, m, .idle⟩) := by
      rw [mouseInvocationQueued, if_pos rfl]
    have hstatus : portStep g mouseWait (malloc n) ⟨⟨[], last⟩, k, m, .status cicle⟩
        = ⟨⟨[], last⟩, k, m, .test 0 cicle⟩ := rfl
    refine ⟨_, mouseInvocationQueued_step (by simp) hstatus (mouseInvocationQueued_step (by simp) htest
      (mouseInvocationQueued_step (by simp) rfl hidle)), ?_⟩
    rw [decodeBatch]
    rfl
  | cons b bytes ih =>
    rw [List.length_cons] at hfuel
    obtain ⟨fuel, rfl⟩ : ∃ k, fuel = k + 3 := ⟨fuel - 3, by omega⟩
    rcases decodeBatch_cons hcicle (malloc (n + 2)) b m bytes ⟨bytes.map (Prod.mk Device.mouse), b⟩ k with
      ⟨m', hnext, hqueued, hdecode⟩ | ⟨next, hlt, m', hnext, hdecode⟩
    · -- the handler returns
      obtain ⟨fuel, rfl⟩ : ∃ k, fuel = k + 1 := ⟨fuel - 1, by omega⟩
      have hstep := @portStep_decode (malloc (n + 2)) b m g mouseWait cicle
        ⟨bytes.map (Prod.mk Device.mouse), b⟩ k _ _ hnext
      have hrest : mouseInvocationQueued g mouseWait malloc (fuel + 1) (n + 3)
          ⟨⟨bytes.map (Prod.mk Device.mouse), b⟩, k, m', .idle⟩
            = some ([], ⟨⟨bytes.map (Prod.mk Device.mouse), b⟩, k, m', .idle⟩) := by
        rw [mouseInvocationQueued]
        exact if_pos rfl
      have hbyte := @mouseInvocationQueued_byte g mouseWait malloc _ n cicle b last _ k m _ _ (hstep ▸ hrest)
      rw [hqueued] at hbyte
      rw [hdecode]
      exact ⟨_, hbyte, rfl⟩
    · have hstep := @portStep_decode (malloc (n + 2)) b m g mouseWait cicle
        ⟨bytes.map (Prod.mk Device.mouse), b⟩ k _ _ hnext
      obtain ⟨s', hrest, hleft⟩ := @ih fuel (n + 3) next b m' hlt (by omega)
      rw [hdecode]
      exact ⟨s', mouseInvocationQueued_byte (hstep ▸ hrest), hleft⟩

end

/-! ## What an invocation makes of its bytes

`cicle` is lost at the end of an invocation, `pkt` is not. So a packet which is cut is read as other packets. -/

section

variable {cicle flags dx : Nat} {bytes : List Nat}

/-- What stood in `pkt` before does not matter. -/
theorem decodeBatch_start (flags dx : Nat) (bytes : List Nat) :
    decodeBatch 0 flags dx bytes = decodeBatch 0 0 0 bytes := by
  cases bytes with
  | nil => rw [decodeBatch, decodeBatch]
  | cons b bytes =>
    cases bytes with
    | nil => rw [decodeBatch, decodeBatch, decodeBatch, decodeBatch]
    | cons b' bytes => rw [decodeBatch, decodeBatch, decodeBatch, decodeBatch]

/-- What is left is the end of the bytes. -/
theorem decodeBatch_left (hcicle : cicle < 3) : (decodeBatch cicle flags dx bytes).2 <:+ bytes := by
  induction bytes generalizing cicle flags dx with
  | nil => rw [decodeBatch]
  | cons b bytes ih =>
    match cicle with
    | 0 =>
      rw [decodeBatch]
      split
      · exact List.suffix_cons b bytes
      · exact (ih (by decide)).trans (List.suffix_cons b bytes)
    | 1 =>
      rw [decodeBatch]
      exact (ih (by decide)).trans (List.suffix_cons b bytes)
    | 2 =>
      rw [decodeBatch]
      split
      · exact (ih (by decide)).trans (List.suffix_cons b bytes)
      · exact (ih (by decide)).trans (List.suffix_cons b bytes)

/-- Each packet takes three bytes, and what is left comes behind a byte that is lost. -/
theorem decodeBatch_length (hcicle : cicle < 3) :
    3 * (decodeBatch cicle flags dx bytes).1.length + (decodeBatch cicle flags dx bytes).2.length
        ≤ cicle + bytes.length
      ∧ ((decodeBatch cicle flags dx bytes).2 ≠ [] →
        3 * (decodeBatch cicle flags dx bytes).1.length + (decodeBatch cicle flags dx bytes).2.length
          < cicle + bytes.length) := by
  induction bytes generalizing cicle flags dx with
  | nil =>
    rw [decodeBatch]
    exact ⟨Nat.zero_le _, fun hne => absurd rfl hne⟩
  | cons b bytes ih =>
    rw [List.length_cons]
    -- three bytes for a packet, counted with those that `cicle` stands for
    match cicle with
    | 0 =>
      rw [decodeBatch]
      split
      · simp only [List.length_nil]
        omega
      · obtain ⟨hle, hlt⟩ := @ih 1 b dx (by decide)
        exact ⟨by omega, fun hne => by have := hlt hne; omega⟩
    | 1 =>
      rw [decodeBatch]
      obtain ⟨hle, hlt⟩ := @ih 2 flags b (by decide)
      exact ⟨by omega, fun hne => by have := hlt hne; omega⟩
    | 2 =>
      rw [decodeBatch]
      split
      · obtain ⟨hle, hlt⟩ := @ih 2 flags dx (by decide)
        exact ⟨by omega, fun hne => by have := hlt hne; omega⟩
      · obtain ⟨hle, hlt⟩ := @ih 0 flags dx (by decide)
        simp only [List.length_cons]
        exact ⟨by omega, fun hne => by have := hlt hne; omega⟩

/-- The flags `f` can start a packet that is queued: bit 3 is set, and no overflow. -/
def StartsPacket (f : Nat) : Prop := f &&& 0x08 ≠ 0 ∧ ¬ (f &&& 0x80 ≠ 0 ∨ f &&& 0x40 ≠ 0)

instance (f : Nat) : Decidable (StartsPacket f) := inferInstanceAs (Decidable (_ ∧ _))

/-- One of the bytes, with two more behind it, can start a packet. -/
def HoldsPacket (f : Nat) (bytes : List Nat) : Prop :=
  ∃ before after, bytes = before ++ f :: after ∧ 2 ≤ after.length ∧ StartsPacket f

theorem HoldsPacket.append {f : Nat} (h : HoldsPacket f bytes) (before after : List Nat) :
    HoldsPacket f (before ++ bytes ++ after) := by
  obtain ⟨before', after', hsplit, hlength, hf⟩ := h
  refine ⟨before ++ before', after' ++ after, ?_, ?_, hf⟩
  · rw [hsplit, List.append_assoc, List.append_assoc, List.append_assoc, List.cons_append]
  · rw [List.length_append]
    omega

theorem HoldsPacket.cons {f : Nat} (h : HoldsPacket f bytes) (b : Nat) : HoldsPacket f (b :: bytes) := by
  have happend := h.append [b] []
  rw [List.append_nil] at happend
  exact happend

/-- Whatever is queued starts with one of the bytes, or with the flags in `pkt`. -/
theorem decodeBatch_mem (hcicle : cicle < 3) {p : Ps2Packet}
    (hp : p ∈ (decodeBatch cicle flags dx bytes).1) :
    (cicle ≠ 0 ∧ p.flags = flags ∧ 3 ≤ cicle + bytes.length ∧ ¬ p.Overflow) ∨ HoldsPacket p.flags bytes := by
  induction bytes generalizing cicle flags dx with
  | nil =>
    rw [decodeBatch] at hp
    exact absurd hp List.not_mem_nil
  | cons b bytes ih =>
    rw [List.length_cons]
    -- by induction over the bytes: a packet has its flags from before, or from the bytes
    match cicle with
    | 0 =>
      rw [decodeBatch] at hp
      by_cases hsync : b &&& 0x08 = 0
      · rw [if_pos hsync] at hp
        exact absurd hp List.not_mem_nil
      · rw [if_neg hsync] at hp
        right
        rcases ih (by decide) hp with ⟨_, hflags, hlength, hover⟩ | hlater
        · exact ⟨[], bytes, by rw [hflags]; rfl, by omega, by rw [hflags]; exact hsync, hover⟩
        · exact hlater.cons b
    | 1 =>
      rw [decodeBatch] at hp
      rcases ih (by decide) hp with ⟨_, hflags, hlength, hover⟩ | hlater
      · exact Or.inl ⟨by decide, hflags, by omega, hover⟩
      · exact Or.inr (hlater.cons b)
    | 2 =>
      rw [decodeBatch] at hp
      by_cases hover : (Ps2Packet.mk flags dx b).Overflow
      · rw [if_pos hover] at hp
        rcases ih (by decide) hp with ⟨_, hflags, hlength, hover⟩ | hlater
        · exact Or.inl ⟨by decide, hflags, by omega, hover⟩
        · exact Or.inr (hlater.cons b)
      · rw [if_neg hover] at hp
        rcases List.mem_cons.mp hp with rfl | hp
        · exact Or.inl ⟨by decide, rfl, by omega, hover⟩
        · rcases ih (by decide) hp with ⟨hne, _⟩ | hlater
          · exact absurd rfl hne
          · exact Or.inr (hlater.cons b)

end

/-! ## Batches

A stream of bytes is cut into batches, one for each interrupt. If the whole stream is packets without overflows,
its cuts decide. -/

/-- What the invocations make of the batches, with the bytes `left` in the buffer. -/
def decodeBatches : List (List Nat) → List Nat → List Ps2Packet × List Nat
  | [], left => ([], left)
  | b :: bs, left =>
    let (ps, left) := decodeBatch 0 0 0 (left ++ b)
    ((ps ++ (decodeBatches bs left).1), (decodeBatches bs left).2)

section

variable {g : KbGlobals} {mouseWait : Nat} {malloc : Nat → Nat → Nat} {fuel : Nat}
  {bs : List (List Nat)} {left : List Nat}

theorem decodeBatches_cons (b : List Nat) (bs : List (List Nat)) (left : List Nat) :
    decodeBatches (b :: bs) left
      = ((decodeBatch 0 0 0 (left ++ b)).1 ++ (decodeBatches bs (decodeBatch 0 0 0 (left ++ b)).2).1,
        (decodeBatches bs (decodeBatch 0 0 0 (left ++ b)).2).2) := rfl

theorem decodeBatches_append (bs' : List (List Nat)) : decodeBatches (bs ++ bs') left
    = ((decodeBatches bs left).1 ++ (decodeBatches bs' (decodeBatches bs left).2).1,
      (decodeBatches bs' (decodeBatches bs left).2).2) := by
  induction bs generalizing left with
  | nil => rfl
  | cons b bs ih => rw [List.cons_append, decodeBatches_cons, decodeBatches_cons, ih, List.append_assoc]

/-- **The invocations** of `mouse_handler`. -/
theorem mouseBatches_eq {s : Ports} (hbuffer : s.controller.buffer = left.map (Prod.mk Device.mouse))
    (hfuel : 3 * (left.length + bs.flatten.length) + 4 ≤ fuel) :
    ∃ s', mouseBatches g mouseWait malloc fuel bs s = some ((decodeBatches bs left).1, s') := by
  induction bs generalizing s left with
  | nil => exact ⟨s, rfl⟩
  | cons b bs ih =>
    rw [List.flatten_cons, List.length_append] at hfuel
    obtain ⟨s₁, hcall, hleft⟩ := @mouseInvocationQueued_eq g mouseWait (malloc bs.length) (left ++ b) fuel 0 0
      s.controller.last s.keyboard s.mouse (by decide) (by rw [List.length_append]; omega)
    rw [decodeBatch_start] at hcall hleft
    have hsuffix := (@decodeBatch_left 0 0 0 (left ++ b) (by decide)).length_le
    rw [List.length_append] at hsuffix
    obtain ⟨s', hrest⟩ := ih hleft (by omega)
    refine ⟨s', ?_⟩
    rw [List.map_append, ← hbuffer] at hcall
    unfold mouseBatches
    simp only [hcall, hrest, decodeBatches_cons]

/-- A stream with no packet to be found gives none, however it is cut. -/
theorem decodeBatches_none {done stream : List Nat} (hleft : left <:+ done)
    (hstream : done ++ bs.flatten = stream) (hnone : ∀ f, ¬ HoldsPacket f stream) :
    (decodeBatches bs left).1 = [] := by
  induction bs generalizing left done with
  | nil => rfl
  | cons b bs ih =>
    obtain ⟨before, rfl⟩ := hleft
    rw [List.flatten_cons, ← List.append_assoc] at hstream
    have hfirst : (decodeBatch 0 0 0 (left ++ b)).1 = [] := by
      refine List.eq_nil_iff_forall_not_mem.mpr fun p hp => ?_
      rcases decodeBatch_mem (by decide) hp with ⟨hne, _⟩ | hholds
      · exact hne rfl
      · have hwhole := hholds.append before bs.flatten
        rw [← List.append_assoc, hstream] at hwhole
        exact hnone _ hwhole
    have hsuffix : (decodeBatch 0 0 0 (left ++ b)).2 <:+ before ++ left ++ b := by
      rw [List.append_assoc]
      exact (decodeBatch_left (by decide)).trans (List.suffix_append before _)
    rw [decodeBatches_cons, hfirst, List.nil_append]
    exact ih hsuffix hstream

/-- With every byte in a batch of its own nothing is queued. -/
theorem decodeBatches_singletons (bytes : List Nat) :
    decodeBatches (bytes.map fun b => [b]) [] = ([], []) := by
  induction bytes with
  | nil => rfl
  | cons b bytes ih =>
    have hone : decodeBatch 0 0 0 [b] = ([], []) := by
      rw [decodeBatch]
      split
      · rfl
      · rw [decodeBatch]
    rw [List.map_cons, decodeBatches_cons, List.nil_append, hone, ih]
    rfl

theorem flatten_singletons (bytes : List Nat) : (bytes.map fun b => [b]).flatten = bytes := by
  rw [← List.flatMap_def, List.flatMap_singleton']

/-- A packet in a batch of its own is queued. -/
theorem decodeBatches_holds {f : Nat} {stream : List Nat} (h : HoldsPacket f stream) :
    ∃ bs, bs.flatten = stream ∧ (decodeBatches bs []).1 ≠ [] := by
  obtain ⟨before, after, rfl, hlength, hsync, hover⟩ := h
  match after with
  | dx :: dy :: rest =>
    refine ⟨before.map (fun b => [b]) ++ [[f, dx, dy], rest], ?_, ?_⟩
    · rw [List.flatten_append, flatten_singletons]
      simp
    · have hpacket : decodeBatch 0 0 0 [f, dx, dy] = ([⟨f, dx, dy⟩], []) := by
        have hqueued : ¬ (Ps2Packet.mk f dx dy).Overflow := hover
        rw [decodeBatch, if_neg hsync, decodeBatch, decodeBatch, if_neg hqueued, decodeBatch]
      rw [decodeBatches_append, decodeBatches_singletons, decodeBatches_cons, List.nil_append, List.nil_append,
        hpacket]
      exact List.cons_ne_nil _ _

/-- Packets in one batch. -/
theorem decodeBatch_packets {ps : List Ps2Packet} (hsync : ∀ p ∈ ps, p.flags &&& 0x08 ≠ 0)
    (hover : ∀ p ∈ ps, ¬ p.Overflow) : decodeBatch 0 0 0 (ps.flatMap Ps2Packet.bytes) = (ps, []) := by
  induction ps with
  | nil => rw [List.flatMap_nil, decodeBatch]
  | cons p ps ih =>
    obtain ⟨hp, hps⟩ := List.forall_mem_cons.mp hsync
    obtain ⟨hover, hovers⟩ := List.forall_mem_cons.mp hover
    show decodeBatch 0 0 0 (p.flags :: p.dx :: p.dy :: ps.flatMap Ps2Packet.bytes) = _
    rw [decodeBatch, if_neg hp, decodeBatch, decodeBatch, if_neg hover, decodeBatch_start, ih hps hovers]

/-- Batches of whole packets. -/
theorem decodeBatches_packets {ps : List Ps2Packet} (hsync : ∀ p ∈ ps, p.flags &&& 0x08 ≠ 0)
    (hover : ∀ p ∈ ps, ¬ p.Overflow) (hstream : bs.flatten = ps.flatMap Ps2Packet.bytes)
    (hwhole : ∀ b ∈ bs, 3 ∣ b.length) : decodeBatches bs [] = (ps, []) := by
  induction bs generalizing ps with
  | nil =>
    have hnil : ps = [] := by
      have hlength := congrArg List.length hstream
      rw [List.flatten_nil, List.length_nil, Ps2Packet.length_flatMap] at hlength
      exact List.length_eq_zero_iff.mp (by omega)
    rw [hnil]
    rfl
  | cons b bs ih =>
    obtain ⟨⟨k, hk⟩, hrest⟩ := List.forall_mem_cons.mp hwhole
    rw [List.flatten_cons] at hstream
    have hlength := congrArg List.length hstream
    rw [List.length_append, Ps2Packet.length_flatMap] at hlength
    -- the batch holds the first `k` packets
    have hsplit : b ++ bs.flatten
        = (ps.take k).flatMap Ps2Packet.bytes ++ (ps.drop k).flatMap Ps2Packet.bytes := by
      rw [hstream, ← List.flatMap_append, List.take_append_drop]
    have htake : b.length = ((ps.take k).flatMap Ps2Packet.bytes).length := by
      rw [Ps2Packet.length_flatMap, List.length_take]
      omega
    obtain ⟨hfirst, hlater⟩ := List.append_inj hsplit htake
    have hbatch : decodeBatch 0 0 0 b = (ps.take k, []) := by
      rw [hfirst]
      exact decodeBatch_packets (fun p hp => hsync p (List.mem_of_mem_take hp))
        fun p hp => hover p (List.mem_of_mem_take hp)
    rw [decodeBatches_cons, List.nil_append, hbatch, ih (fun p hp => hsync p (List.mem_of_mem_drop hp))
      (fun p hp => hover p (List.mem_of_mem_drop hp)) hlater hrest, List.take_append_drop]

theorem decodeBatches_length : 3 * (decodeBatches bs left).1.length ≤ left.length + bs.flatten.length := by
  induction bs generalizing left with
  | nil => exact Nat.zero_le _
  | cons b bs ih =>
    have hfirst := (@decodeBatch_length 0 0 0 (left ++ b) (by decide)).1
    have hrest := @ih (decodeBatch 0 0 0 (left ++ b)).2
    rw [decodeBatches_cons, List.length_append, List.flatten_cons, List.length_append]
    rw [List.length_append] at hfirst
    omega

/-- If no byte is lost, the batches are of whole packets. -/
theorem decodeBatches_whole (h : 3 * (decodeBatches bs []).1.length = bs.flatten.length) :
    ∀ b ∈ bs, 3 ∣ b.length := by
  induction bs with
  | nil => exact fun _ hb => absurd hb List.not_mem_nil
  | cons b bs ih =>
    obtain ⟨hle, hlt⟩ := @decodeBatch_length 0 0 0 b (by decide)
    have hrest := @decodeBatches_length bs (decodeBatch 0 0 0 b).2
    rw [decodeBatches_cons, List.nil_append, List.length_append, List.flatten_cons, List.length_append] at h
    have hnil : (decodeBatch 0 0 0 b).2 = [] := by
      by_contra hne
      have hless := hlt hne
      omega
    rw [hnil] at h hle hrest
    rw [List.length_nil] at hle hrest
    exact List.forall_mem_cons.mpr ⟨⟨(decodeBatch 0 0 0 b).1.length, by omega⟩, ih (by omega)⟩

/-- **Batches.** For a stream of packets, `mouse_handler` hands the same packets to `queue_add` however the
stream is cut into batches if and only if no byte of it, with two more behind it, has bit 3 and no overflow
bit, so that none is handed over at all. Where no packet overflows, a way of cutting hands over all packets
if and only if its batches are of whole packets. The packets that are handed over are what `mouse_queue`
gets: each is stored at an address that is added to the queue. -/
theorem mouse_batches_iff {ps : List Ps2Packet} (hsync : ∀ p ∈ ps, p.flags &&& 0x08 ≠ 0) {s : Ports}
    (hbuffer : s.controller.buffer = []) (hfuel : 3 * (ps.flatMap Ps2Packet.bytes).length + 4 ≤ fuel) :
    ((∀ bs bs', bs.flatten = ps.flatMap Ps2Packet.bytes → bs'.flatten = ps.flatMap Ps2Packet.bytes →
        ∃ qs s₁ s₂, mouseBatches g mouseWait malloc fuel bs s = some (qs, s₁)
          ∧ mouseBatches g mouseWait malloc fuel bs' s = some (qs, s₂))
        ↔ ∀ f, ¬ HoldsPacket f (ps.flatMap Ps2Packet.bytes))
      ∧ ((∀ p ∈ ps, ¬ p.Overflow) → ∀ bs, bs.flatten = ps.flatMap Ps2Packet.bytes →
        ∃ qs s', mouseBatches g mouseWait malloc fuel bs s = some (qs, s')
          ∧ (qs = ps ↔ ∀ b ∈ bs, 3 ∣ b.length))
      ∧ ((∀ i j n k, malloc i n = malloc j k → i = j ∧ n = k) → ∀ bs qs s',
        mouseBatches g mouseWait malloc fuel bs s = some (qs, s') →
        ∃ addrs, s'.mouse.mouseQueue = addrs.foldl queueAdd s.mouse.mouseQueue
          ∧ List.Forall₂ (fun q a => q.StoredAt s'.mouse.packet a) qs addrs) := by
  have hcall : ∀ bs : List (List Nat), bs.flatten = ps.flatMap Ps2Packet.bytes →
      ∃ s', mouseBatches g mouseWait malloc fuel bs s = some ((decodeBatches bs []).1, s') := by
    intro bs hbs
    refine mouseBatches_eq hbuffer ?_
    rw [hbs, List.length_nil]
    omega
  refine ⟨⟨?_, ?_⟩, ?_, ?_⟩
  · intro hsame f hholds
    -- the packet in a batch of its own, and every byte in a batch of its own
    obtain ⟨bs, hbs, hne⟩ := decodeBatches_holds hholds
    have hsingle := flatten_singletons (ps.flatMap Ps2Packet.bytes)
    obtain ⟨s₁, hcall₁⟩ := hcall _ hbs
    obtain ⟨s₂, hcall₂⟩ := hcall _ hsingle
    obtain ⟨qs, t₁, t₂, hqs₁, hqs₂⟩ := hsame _ _ hbs hsingle
    have heq₁ := congrArg Prod.fst (Option.some.inj (hcall₁.symm.trans hqs₁))
    have heq₂ := congrArg Prod.fst (Option.some.inj (hcall₂.symm.trans hqs₂))
    rw [decodeBatches_singletons] at heq₂
    exact hne (heq₁.trans heq₂.symm)
  · intro hnone bs bs' hbs hbs'
    obtain ⟨s₁, hcall₁⟩ := hcall _ hbs
    obtain ⟨s₂, hcall₂⟩ := hcall _ hbs'
    have hnil : ∀ bs : List (List Nat), bs.flatten = ps.flatMap Ps2Packet.bytes →
        (decodeBatches bs []).1 = [] := fun bs hbs =>
      decodeBatches_none (List.suffix_refl []) hbs hnone
    rw [hnil _ hbs] at hcall₁
    rw [hnil _ hbs'] at hcall₂
    exact ⟨[], s₁, s₂, hcall₁, hcall₂⟩
  · intro hover bs hbs
    obtain ⟨s', hrun⟩ := hcall _ hbs
    refine ⟨_, s', hrun, ?_, ?_⟩
    · intro hall
      apply decodeBatches_whole
      rw [hall, hbs, Ps2Packet.length_flatMap]
    · intro hwhole
      rw [decodeBatches_packets hsync hover hbs hwhole]
  · intro hmalloc bs qs s' hrun
    obtain ⟨addrs, _, hqueue, hstored, _⟩ := mouseBatches_gets hmalloc hrun
    exact ⟨addrs, hqueue, hstored⟩

end

/-- `mouse_handler` finds the first byte of a packet, and then the other two. -/
theorem mouse_packet_split :
    ∃ s₁ s₂, mouseBatches keyGlobals 1 (fun i n => i + n + 1) 13 [[0x08, 1, 2]] portBoot
        = some ([⟨0x08, 1, 2⟩], s₁)
      ∧ mouseBatches keyGlobals 1 (fun i n => i + n + 1) 13 [[0x08], [1, 2]] portBoot = some ([], s₂) := by
  obtain ⟨s₁, hwhole⟩ := @mouseBatches_eq keyGlobals 1 (fun i n => i + n + 1) 13 [[0x08, 1, 2]] [] portBoot rfl
    (by decide)
  obtain ⟨s₂, hsplit⟩ := @mouseBatches_eq keyGlobals 1 (fun i n => i + n + 1) 13 [[0x08], [1, 2]] [] portBoot
    rfl (by decide)
  exact ⟨s₁, s₂, hwhole, hsplit⟩

/-- Three packets, in a batch of one and a batch of two. -/
theorem mouse_batches_whole :
    ∃ qs s' addrs, mouseBatches keyGlobals 1 Nat.pair 31 [[0x08, 1, 2], [0x28, 3, 4, 0x09, 5, 6]] portBoot
        = some (qs, s')
      ∧ qs = [⟨0x08, 1, 2⟩, ⟨0x28, 3, 4⟩, ⟨0x09, 5, 6⟩]
      ∧ s'.mouse.mouseQueue = addrs.foldl queueAdd portBoot.mouse.mouseQueue
      ∧ List.Forall₂ (fun q a => q.StoredAt s'.mouse.packet a) qs addrs := by
  obtain ⟨_, hwhole, hgets⟩ := @mouse_batches_iff keyGlobals 1 Nat.pair 31
    [⟨0x08, 1, 2⟩, ⟨0x28, 3, 4⟩, ⟨0x09, 5, 6⟩] (by decide) portBoot rfl (by decide)
  obtain ⟨qs, s', hcall, hiff⟩ := hwhole (by decide) [[0x08, 1, 2], [0x28, 3, 4, 0x09, 5, 6]] rfl
  obtain ⟨addrs, hqueue, hstored⟩ := hgets (fun _ _ _ _ heq => Nat.pair_eq_pair.mp heq) _ _ _ hcall
  exact ⟨qs, s', addrs, hcall, hiff.mpr (by decide), hqueue, hstored⟩

end DiyOS
