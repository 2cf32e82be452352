import DiyOS.Interrupt
import DiyOS.Lib.Run

/-!
# The tables of the interrupts (`kernel/x86/int_handler.asm`, `kernel/x86/idt.c`)

`load_idt` completes the gates, and `isr_set_handler` stores a handler in the vector. In every run of the kernel each
interrupt below 128 reaches the handler that was set last; from 128 on none does, and the faults 17 and 30 return to
the wrong place.
-/

namespace DiyOS.Interrupt

open Cpu

/-! ## `load_idt`

The gates lie in the image of the kernel with their types, and without offsets. `build_idt` writes the two halves
of each offset: the stubs of `int_handler.asm` are ten bytes apart, so 256 turns with `edx` reach them all. -/

/-- One gate. -/
def buildGate : List Instr :=
  [.mov .eax .edx, .storeHalf (.ind .ebx) .eax, .shr .eax 16, .storeHalf (.at .ebx 6#32) .eax, .add .ebx 8#32,
    .add .edx 10#32]

/-- `build_idt`; the instruction `loop` counts with `ecx`. -/
def buildIdt : Nat → State → State
  | 0, s => s
  | fuel + 1, s =>
    let s := run buildGate s
    let s := s.setReg .ecx (s.reg .ecx - 1#32)
    if s.reg .ecx = 0#32 then s else buildIdt fuel s

def loadIdt (y : Symbols) (s : State) : State :=
  buildIdt 256 (run [.movImm .ecx 256#32, .movImm .ebx y.idt, .movImm .edx y.isr0] s)

/-- One turn stores the low half of `edx` at the gate and the high half six bytes on. -/
theorem run_buildGate (s : State) :
    let s' := run buildGate s
    s'.mem = storeHalf (storeHalf s.mem (s.reg .ebx) (s.reg .edx)) (s.reg .ebx + 6#32) (s.reg .edx >>> 16)
      ∧ s'.reg .ebx = s.reg .ebx + 8#32 ∧ s'.reg .edx = s.reg .edx + 10#32 ∧ s'.reg .ecx = s.reg .ecx
      ∧ s'.reg .esp = s.reg .esp := by
  simp -implicitDefEqProofs [buildGate, exec, State.address]

theorem append_halves (w : BitVec 32) : (w >>> 16).setWidth 16 ++ w.setWidth 16 = w := by
  ext i hi
  simp only [BitVec.getElem_append, BitVec.getElem_setWidth, BitVec.getLsbD_ushiftRight]
  split
  · exact BitVec.getLsbD_eq_getElem hi
  · rw [show 16 + (i - 16) = i by omega]
    exact BitVec.getLsbD_eq_getElem hi

/-- Bytes 2 to 5 of a gate are not written: the selector and the type. -/
theorem buildIdt_spec {n : Nat} {s : State} (hpos : 0 < n) (hn : n ≤ 256) (hecx : s.reg .ecx = BitVec.ofNat 32 n)
    (hfits : (s.reg .ebx).toNat + 8 * n ≤ 4294967296) :
    let s' := buildIdt n s
    s'.reg .ecx = 0#32 ∧ s'.reg .esp = s.reg .esp
      ∧ (∀ k < n, gateOffset s'.mem (s.reg .ebx + BitVec.ofNat 32 (8 * k)) = s.reg .edx + BitVec.ofNat 32 (10 * k))
      ∧ ∀ c, (∀ k < n, c < (s.reg .ebx).toNat + 8 * k ∨ (s.reg .ebx).toNat + 8 * k + 8 ≤ c
          ∨ ((s.reg .ebx).toNat + 8 * k + 2 ≤ c ∧ c < (s.reg .ebx).toNat + 8 * k + 6)) → s'.mem c = s.mem c := by
  induction n generalizing s with
  | zero => exact absurd hpos (Nat.lt_irrefl 0)
  | succ n ih =>
    obtain ⟨hmem, hebx, hedx, hcount, hesp⟩ := run_buildGate s
    unfold buildIdt
    dsimp only
    generalize run buildGate s = q at *
    generalize hb : s.reg .ebx = b at *
    generalize hd : s.reg .edx = d at *
    have hb6 : (b + 6#32).toNat = b.toNat + 6 := by bv_omega
    -- the two stores of this turn make up the offset, since they do not overlap
    have hgate : gateOffset q.mem b = d := by
      unfold gateOffset
      have hlow : loadHalf q.mem b = d.setWidth 16 := by
        rw [hmem, ← loadHalf_storeHalf s.mem b d]
        exact loadHalf_congr fun k hk => storeHalf_of_outside _ _ (by omega)
      rw [hlow, hmem, loadHalf_storeHalf, append_halves]
    -- bytes 2 to 5 lie between them
    have hkeep : ∀ c, c < b.toNat ∨ b.toNat + 8 ≤ c ∨ (b.toNat + 2 ≤ c ∧ c < b.toNat + 6) → q.mem c = s.mem c := by
      intro c hc
      rw [hmem, storeHalf_of_outside _ _ (by omega), storeHalf_of_outside _ _ (by omega)]
    have hless : q.reg .ecx - 1#32 = BitVec.ofNat 32 n := by
      rw [hcount, hecx]
      bv_omega
    rw [State.setReg_self, hless]
    by_cases hlast : n = 0
    · subst hlast
      rw [if_pos rfl]
      refine ⟨State.setReg_self _ _ _, (State.setReg_of_ne _ _ (by decide)).trans hesp, fun k hk => ?_, fun c hc => ?_⟩
      · obtain rfl : k = 0 := by omega
        simpa using hgate
      · exact hkeep c (by simpa using hc 0 (by omega))
    · have hzero : BitVec.ofNat 32 n ≠ 0#32 := by
        intro h
        have := congrArg BitVec.toNat h
        rw [BitVec.toNat_ofNat] at this
        simp at this
        omega
      have hb8 : (b + 8#32).toNat = b.toNat + 8 := by bv_omega
      rw [if_neg hzero]
      have hcell : ∀ r, r ≠ .ecx → (q.setReg .ecx (BitVec.ofNat 32 n)).reg r = q.reg r :=
        fun r hr => State.setReg_of_ne _ _ hr
      obtain ⟨hecx', hesp', hgates, hrest⟩ := @ih (q.setReg .ecx (BitVec.ofNat 32 n)) (by omega) (by omega)
        (State.setReg_self _ _ _) (by rw [hcell _ (by decide), hebx, hb8]; omega)
      rw [hcell _ (by decide), hebx] at hgates hrest
      rw [hcell _ (by decide), hedx] at hgates
      rw [hb8] at hrest
      refine ⟨hecx', hesp'.trans ((hcell _ (by decide)).trans hesp), fun k hk => ?_, fun c hc => ?_⟩
      · cases k with
        | zero =>
          -- the later turns write behind this gate
          have hsame : ∀ a : BitVec 32, a.toNat + 2 ≤ b.toNat + 8 →
              loadHalf (buildIdt n (q.setReg .ecx (BitVec.ofNat 32 n))).mem a = loadHalf q.mem a :=
            fun a ha => loadHalf_congr fun i hi => hrest _ fun k hk => by omega
          show gateOffset _ (b + 0#32) = d + 0#32
          rw [BitVec.add_zero, BitVec.add_zero, ← hgate]
          unfold gateOffset
          rw [hsame b (by omega), hsame _ (by omega)]
        | succ k =>
          have haddr : b + BitVec.ofNat 32 (8 * (k + 1)) = b + 8#32 + BitVec.ofNat 32 (8 * k) := by
            rw [Nat.mul_succ, Nat.add_comm, BitVec.ofNat_add, BitVec.add_assoc]
          have hstub : d + BitVec.ofNat 32 (10 * (k + 1)) = d + 10#32 + BitVec.ofNat 32 (10 * k) := by
            rw [Nat.mul_succ, Nat.add_comm, BitVec.ofNat_add, BitVec.add_assoc]
          rw [haddr, hstub]
          exact hgates k (by omega)
      · rw [hrest c fun k hk => ?_]
        · exact hkeep c (by simpa using hc 0 (by omega))
        · have := hc (k + 1) (by omega)
          omega

/-! ## `isr_set_handler`

Both functions take the number of the interrupt and a pointer to `struct isr_vector`, a type and a handler. They
are run in three pieces: the entry, the gate and the vector. -/

def setHandlerEnter : List Instr := [.push .ebp, .mov .ebp .esp, .push .eax, .push .esi]

/-- The type of the gate. -/
def setHandlerGate (y : Symbols) : List Instr :=
  [.load .esi (.at .ebp 12#32), .load .eax (.ind .esi), .xor .ebx .ebx, .loadByte .ebx (.at .ebp 8#32), .shl .ebx 3,
    .storeByte (.at .ebx (y.idt + 5#32)) .eax]

def setHandlerVector (y : Symbols) : List Instr :=
  [.load .eax (.abs y.isrCallPtrVector), .load .ebx (.at .ebp 8#32), .load .esi (.at .esi 4#32),
    .store (.scaled .eax .ebx 4#32) .esi]

def isrSetHandler (y : Symbols) (s : State) : State :=
  (run (setHandlerEnter ++ setHandlerGate y ++ setHandlerVector y ++ [.esi, .eax, .ebp].map .pop) s).ret

theorem run_setHandlerEnter (s : State) :
    let s' := run setHandlerEnter s
    let q := s.pushes [s.reg .ebp, s.reg .eax, s.reg .esi]
    s'.mem = q.mem ∧ s'.reg .esp = q.reg .esp ∧ s'.reg .ebp = s.reg .esp - 4#32 := by
  simp -implicitDefEqProofs [setHandlerEnter, exec, State.pushes, State.push_mem]

theorem run_setHandlerGate (y : Symbols) (s : State) {v : BitVec 32} (hv : load s.mem (s.reg .ebp + 12#32) = v) :
    let s' := run (setHandlerGate y) s
    let n := BitVec.ofNat 32 (s.mem (s.reg .ebp + 8#32).toNat).toNat
    s'.mem = s.mem.writeByte (n <<< 3 + (y.idt + 5#32)).toNat (UInt8.ofNat (load s.mem v).toNat)
      ∧ s'.reg .esp = s.reg .esp ∧ s'.reg .ebp = s.reg .ebp ∧ s'.reg .esi = v := by
  subst hv
  simp -implicitDefEqProofs [setHandlerGate, exec, State.address]

theorem run_setHandlerVector (y : Symbols) (s : State) :
    let s' := run (setHandlerVector y) s
    s'.mem = store s.mem (load s.mem y.isrCallPtrVector + load s.mem (s.reg .ebp + 8#32) * 4#32)
        (load s.mem (s.reg .esi + 4#32))
      ∧ s'.reg .esp = s.reg .esp ∧ s'.reg .ebx = load s.mem (s.reg .ebp + 8#32) := by
  simp -implicitDefEqProofs [setHandlerVector, exec, State.address]

/-! ## The tables

`Tables` is the invariant of all runs: every gate leads to its stub, the pointer to the vector, and the vector
holds the handlers that were set. Code that keeps off these bytes keeps it (`Tables.congr`), and
`isr_set_handler` updates one entry. -/

/-- `_idt`, `isr_call_vector` and `isr_call_ptr_vector` lie apart. -/
structure Placed (y : Symbols) : Prop where
  idt : y.idt.toNat + 2048 ≤ 4294967296
  vector : y.isrCallVector.toNat + 1024 ≤ 4294967296
  ptr : y.isrCallPtrVector.toNat + 4 ≤ 4294967296
  idt_vector : y.idt.toNat + 2048 ≤ y.isrCallVector.toNat ∨ y.isrCallVector.toNat + 1024 ≤ y.idt.toNat
  idt_ptr : y.idt.toNat + 2048 ≤ y.isrCallPtrVector.toNat ∨ y.isrCallPtrVector.toNat + 4 ≤ y.idt.toNat
  vector_ptr : y.isrCallVector.toNat + 1024 ≤ y.isrCallPtrVector.toNat
    ∨ y.isrCallPtrVector.toNat + 4 ≤ y.isrCallVector.toNat

/-- The bytes of the tables. -/
def InTables (y : Symbols) (c : Nat) : Prop :=
  (y.idt.toNat ≤ c ∧ c < y.idt.toNat + 2048)
    ∨ (y.isrCallVector.toNat ≤ c ∧ c < y.isrCallVector.toNat + 1024)
    ∨ (y.isrCallPtrVector.toNat ≤ c ∧ c < y.isrCallPtrVector.toNat + 4)

/-- Every interrupt has its gate, and the vector holds the handlers. -/
structure Tables (y : Symbols) (m : Mem) (handlers : Nat → BitVec 32) : Prop where
  gate : ∀ n < 256, Gate y m n
  ptr : load m y.isrCallPtrVector = y.isrCallVector
  handler : ∀ n < 256, load m (y.isrCallVector + BitVec.ofNat 32 (4 * n)) = handlers n

variable {y : Symbols} {m m' : Mem} {f : Nat → BitVec 32} {s : State} {n : Nat} {h : BitVec 32}

theorem toNat_add_ofNat {a : BitVec 32} {k : Nat} (hfits : a.toNat + k < 4294967296) :
    (a + BitVec.ofNat 32 k).toNat = a.toNat + k := by
  rw [BitVec.toNat_add, BitVec.toNat_ofNat]
  omega

theorem Gate.congr (hy : Placed y) (hn : n < 256) (hgate : Gate y m n)
    (hsame : ∀ c, y.idt.toNat + 8 * n ≤ c ∧ c < y.idt.toNat + 8 * n + 8 → m' c = m c) : Gate y m' n := by
  have hfits := hy.idt
  have haddr : (y.idt + BitVec.ofNat 32 (8 * n)).toNat = y.idt.toNat + 8 * n := toNat_add_ofNat (by omega)
  obtain ⟨htype, hoffset⟩ := hgate
  unfold gateOffset at hoffset
  have haddr' : (y.idt + BitVec.ofNat 32 (8 * n) + 6#32).toNat = y.idt.toNat + 8 * n + 6 :=
    (toNat_add_ofNat (by omega)).trans (by rw [haddr])
  refine ⟨?_, ?_⟩
  · rw [← htype, haddr]
    exact hsame _ (by omega)
  · unfold gateOffset
    rw [← hoffset, loadHalf_congr fun k hk => hsame _ (by omega), loadHalf_congr fun k hk => hsame _ (by omega)]

theorem Tables.congr (hy : Placed y) (ht : Tables y m f) (hsame : ∀ c, InTables y c → m' c = m c) : Tables y m' f := by
  unfold InTables at hsame
  refine ⟨fun n hn => (ht.gate n hn).congr hy hn fun c hc => hsame c (by omega), ?_, fun n hn => ?_⟩
  · rw [← ht.ptr]
    exact load_congr fun k hk => hsame _ (by omega)
  · have hfits := hy.vector
    have haddr : (y.isrCallVector + BitVec.ofNat 32 (4 * n)).toNat = y.isrCallVector.toNat + 4 * n :=
      toNat_add_ofNat (by omega)
    rw [← ht.handler n hn]
    exact load_congr fun k hk => hsame _ (by omega)

/-- A handler is stored in the vector. -/
theorem Tables.store (hy : Placed y) (ht : Tables y m f) (hn : n < 256) (h : BitVec 32) :
    Tables y (store m (y.isrCallVector + BitVec.ofNat 32 (4 * n)) h) (Function.update f n h) := by
  have hfits := hy.vector
  have haddr : ∀ k < 256, (y.isrCallVector + BitVec.ofNat 32 (4 * k)).toNat = y.isrCallVector.toNat + 4 * k :=
    fun k hk => toNat_add_ofNat (by omega)
  have hapart := hy.idt_vector
  have hapart' := hy.vector_ptr
  have hslot := haddr n hn
  -- the entry lies in the vector, and that apart from the gates and the pointer
  refine ⟨fun k hk => (ht.gate k hk).congr hy hk fun c hc => store_of_outside _ _ (by omega), ?_, fun k hk => ?_⟩
  · exact (load_store_of_disjoint _ _ (by omega)).trans ht.ptr
  · by_cases heq : k = n
    · rw [heq, load_store, Function.update_self]
    · have hslot' := haddr k hk
      rw [Function.update_of_ne heq, ← ht.handler k hk]
      exact load_store_of_disjoint _ _ (by omega)

/-- `isr_set_handler(n, &v)` is called with `v = {0x8E, h}`. -/
structure SetsHandler (y : Symbols) (s : State) (n : Nat) (h : BitVec 32) : Prop where
  lt : n < 256
  number : load s.mem (s.reg .esp + 4#32) = BitVec.ofNat 32 n
  gate : load s.mem (load s.mem (s.reg .esp + 8#32)) = 0x8E#32
  handler : load s.mem (load s.mem (s.reg .esp + 8#32) + 4#32) = h
  room : 12 ≤ (s.reg .esp).toNat
  fits : (s.reg .esp).toNat + 12 ≤ 4294967296
  record_fits : (load s.mem (s.reg .esp + 8#32)).toNat + 8 ≤ 4294967296
  stack : ∀ c, (s.reg .esp).toNat - 12 ≤ c ∧ c < (s.reg .esp).toNat + 12 → ¬ InTables y c
  record : (load s.mem (s.reg .esp + 8#32)).toNat + 8 ≤ (s.reg .esp).toNat - 12
    ∨ (s.reg .esp).toNat ≤ (load s.mem (s.reg .esp + 8#32)).toNat

/-- The low byte of a word. -/
theorem byte_of_load {a : BitVec 32} (hload : load m a = BitVec.ofNat 32 n) (hn : n < 256) :
    (m a.toNat).toNat = n := by
  have hword := congrArg BitVec.toNat hload
  unfold load at hword
  rw [BitVec.toNat_ofNat, BitVec.toNat_ofNat, Nat.mod_eq_of_lt (m.readWord_lt _), Nat.mod_eq_of_lt (by omega)] at hword
  unfold Mem.readWord at hword
  omega

/-- The byte of the gate's type. -/
theorem toNat_gateType (hy : Placed y) (hn : n < 256) :
    (BitVec.ofNat 32 n <<< 3 + (y.idt + 5#32)).toNat = (y.idt + BitVec.ofNat 32 (8 * n)).toNat + 5 := by
  have hidt := hy.idt
  have hshift : BitVec.ofNat 32 n <<< 3 = BitVec.ofNat 32 (8 * n) := by
    apply BitVec.eq_of_toNat_eq
    rw [BitVec.toNat_shiftLeft, BitVec.toNat_ofNat, BitVec.toNat_ofNat, Nat.shiftLeft_eq]
    omega
  have haddr : (y.idt + BitVec.ofNat 32 (8 * n)).toNat = y.idt.toNat + 8 * n := toNat_add_ofNat (by omega)
  rw [hshift, ← BitVec.add_assoc, BitVec.add_comm (BitVec.ofNat 32 (8 * n))]
  exact toNat_add_ofNat (by omega)

/-- The beginning of both functions keeps the tables, and `ebp` leads to the arguments. -/
theorem setHandlerEnter_spec (hy : Placed y) (ht : Tables y s.mem f) (hn : n < 256)
    (hnumber : load s.mem (s.reg .esp + 4#32) = BitVec.ofNat 32 n) (hroom : 12 ≤ (s.reg .esp).toNat)
    (hfits : (s.reg .esp).toNat + 12 ≤ 4294967296)
    (hstack : ∀ c, (s.reg .esp).toNat - 12 ≤ c ∧ c < (s.reg .esp).toNat + 12 → ¬ InTables y c) :
    let p := run setHandlerEnter s
    p.reg .esp = s.reg .esp - 12#32 ∧ p.reg .ebp + 8#32 = s.reg .esp + 4#32
      ∧ load p.mem (p.reg .ebp + 12#32) = load s.mem (s.reg .esp + 8#32)
      ∧ BitVec.ofNat 32 (p.mem (p.reg .ebp + 8#32).toNat).toNat = BitVec.ofNat 32 n ∧ Tables y p.mem f
      ∧ ∀ c, c < (s.reg .esp).toNat - 12 ∨ (s.reg .esp).toNat ≤ c → p.mem c = s.mem c := by
  have hesp4 : (s.reg .esp + 4#32).toNat = (s.reg .esp).toNat + 4 := by bv_omega
  have hesp8 : (s.reg .esp + 8#32).toNat = (s.reg .esp).toNat + 8 := by bv_omega
  obtain ⟨hpmem, hpesp, hpebp⟩ := run_setHandlerEnter s
  generalize run setHandlerEnter s = p at *
  have hkeep : ∀ c, c < (s.reg .esp).toNat - 12 ∨ (s.reg .esp).toNat ≤ c → p.mem c = s.mem c := by
    intro c hc
    rw [hpmem]
    exact @State.pushes_agree s [s.reg .ebp, s.reg .eax, s.reg .esi] (show 12 ≤ _ from hroom) c hc
  have hp8 : p.reg .ebp + 8#32 = s.reg .esp + 4#32 := by
    rw [hpebp]
    bv_omega
  have hp12 : p.reg .ebp + 12#32 = s.reg .esp + 8#32 := by
    rw [hpebp]
    bv_omega
  refine ⟨?_, hp8, ?_, ?_, ht.congr hy fun c hc => hkeep c ?_, hkeep⟩
  · rw [hpesp, State.pushes_esp]
    simp
  · rw [hp12]
    exact load_congr fun k hk => hkeep _ (by omega)
  · rw [hp8, hkeep _ (by omega), byte_of_load hnumber hn]
  · have hout := mt (hstack c) (not_not_intro hc)
    omega

/-- `isr_set_handler` stores the handler, and leaves the number in `ebx`, which its caller expects to be kept. -/
theorem isrSetHandler_spec (hy : Placed y) (ht : Tables y s.mem f) (hcall : SetsHandler y s n h) :
    let s' := isrSetHandler y s
    Tables y s'.mem (Function.update f n h) ∧ s'.eip = s.top ∧ s'.reg .esp = s.reg .esp + 4#32
      ∧ s'.reg .ebx = BitVec.ofNat 32 n := by
  obtain ⟨hn, hnumber, hgate, hhandler, hroom, hfits, hrecfits, hstack, hrecord⟩ := hcall
  obtain ⟨hpesp, hp8, hp12, hnbyte, htables, hkeep⟩ := setHandlerEnter_spec hy ht hn hnumber hroom hfits hstack
  generalize hv : load s.mem (s.reg .esp + 8#32) = v at *
  generalize hp : run setHandlerEnter s = p at *
  have hesp4 : (s.reg .esp + 4#32).toNat = (s.reg .esp).toNat + 4 := by bv_omega
  have hv4 : (v + 4#32).toNat = v.toNat + 4 := by bv_omega
  have hload : ∀ a : BitVec 32, a.toNat + 4 ≤ (s.reg .esp).toNat - 12 ∨ (s.reg .esp).toNat ≤ a.toNat →
      load p.mem a = load s.mem a :=
    fun a ha => load_congr fun k hk => hkeep _ (by omega)
  -- the type of the gate is what it has been
  obtain ⟨hgmem, hgesp, hgebp, hgesi⟩ := run_setHandlerGate y p hp12
  generalize hg : run (setHandlerGate y) p = g at *
  have hsame : g.mem = p.mem := by
    have htype := (htables.gate n hn).type
    rw [hgmem, hnbyte, toNat_gateType hy hn, hload v (by omega), hgate]
    exact (congrArg _ htype.symm).trans (Function.update_eq_self _ _)
  obtain ⟨hrmem, hresp, hrebx⟩ := run_setHandlerVector y g
  generalize hr : run (setHandlerVector y) g = r at *
  have hn4 : BitVec.ofNat 32 n * 4#32 = BitVec.ofNat 32 (4 * n) := by
    rw [Nat.mul_comm, BitVec.ofNat_mul]
  rw [hsame, hgebp, hp8, hload _ (by omega), hnumber] at hrebx
  rw [hsame, hgebp, hp8, hload (s.reg .esp + 4#32) (by omega), hnumber, hgesi, hload (v + 4#32) (by omega), hhandler,
    htables.ptr, hn4] at hrmem
  obtain ⟨-, hqesp, hqreg, hqmem, -⟩ := @run_pops r [.esi, .eax, .ebp] (by decide) (by decide)
  have hrun : isrSetHandler y s = (run ([.esi, .eax, .ebp].map .pop) r).ret := by
    unfold isrSetHandler
    rw [run_append, run_append, run_append, hp, hg, hr]
  rw [hrun]
  generalize run ([.esi, .eax, .ebp].map .pop) r = q at *
  have hsp : q.reg .esp = s.reg .esp := by
    rw [hqesp, hresp, hgesp, hpesp]
    exact BitVec.sub_add_cancel (s.reg .esp) 12#32
  dsimp only
  rw [State.ret_mem, State.ret_eip, State.ret_reg, State.drop_esp, hsp, State.drop_reg _ _ (by decide),
    hqreg _ (by decide) (by decide)]
  refine ⟨?_, ?_, rfl, hrebx⟩
  · rw [hqmem, hrmem]
    exact htables.store hy hn h
  · have hvector := hy.vector
    have hentry : (y.isrCallVector + BitVec.ofNat 32 (4 * n)).toNat = y.isrCallVector.toNat + 4 * n :=
      toNat_add_ofNat (by omega)
    have hfirst := hstack (s.reg .esp).toNat (by omega)
    have hlast := hstack ((s.reg .esp).toNat + 3) (by omega)
    unfold InTables at hfirst hlast
    unfold State.top
    rw [hqmem, hsp, hrmem, load_store_of_disjoint _ _ (by omega), hload _ (by omega)]

/-! ## `isr_get_handler`

It should fill the record that the caller passes. The type is stored there; but then `esi` is loaded with the
handler, and the handler is stored relative to itself. -/

def getHandlerGate (y : Symbols) : List Instr :=
  [.load .esi (.at .ebp 12#32), .xor .ebx .ebx, .xor .eax .eax, .loadByte .ebx (.at .ebp 8#32), .shl .ebx 3,
    .loadByte .eax (.at .ebx (y.idt + 5#32)), .store (.ind .esi) .eax]

def getHandlerVector (y : Symbols) : List Instr :=
  [.load .eax (.abs y.isrCallPtrVector), .load .ebx (.at .ebp 8#32), .load .esi (.scaled .eax .ebx 4#32),
    -- `esi` no longer holds the address of the record
    .store (.at .esi 4#32) .esi]

def isrGetHandler (y : Symbols) (s : State) : State :=
  (run (setHandlerEnter ++ getHandlerGate y ++ getHandlerVector y ++ [.esi, .eax, .ebp].map .pop) s).ret

/-- The middle of `isr_get_handler` stores the type in the record, whose address is in `esi`. -/
theorem run_getHandlerGate (y : Symbols) (s : State) {v : BitVec 32} (hv : load s.mem (s.reg .ebp + 12#32) = v) :
    let s' := run (getHandlerGate y) s
    let n := BitVec.ofNat 32 (s.mem (s.reg .ebp + 8#32).toNat).toNat
    s'.mem = store s.mem v (BitVec.ofNat 32 (s.mem (n <<< 3 + (y.idt + 5#32)).toNat).toNat)
      ∧ s'.reg .ebp = s.reg .ebp := by
  subst hv
  simp -implicitDefEqProofs [getHandlerGate, exec, State.address]

/-- The end loads `esi` with the handler, and stores it at an offset to itself. -/
theorem run_getHandlerVector (y : Symbols) (s : State) {h : BitVec 32}
    (hh : load s.mem (load s.mem y.isrCallPtrVector + load s.mem (s.reg .ebp + 8#32) * 4#32) = h) :
    (run (getHandlerVector y) s).mem = store s.mem (h + 4#32) h := by
  subst hh
  simp -implicitDefEqProofs [getHandlerVector, exec, State.address]

/-- `isr_get_handler(n, &v)` is called. -/
structure GetsHandler (y : Symbols) (s : State) (n : Nat) (v : BitVec 32) : Prop where
  lt : n < 256
  number : load s.mem (s.reg .esp + 4#32) = BitVec.ofNat 32 n
  pointer : load s.mem (s.reg .esp + 8#32) = v
  room : 12 ≤ (s.reg .esp).toNat
  fits : (s.reg .esp).toNat + 12 ≤ 4294967296
  record_fits : v.toNat + 8 ≤ 4294967296
  stack : ∀ c, (s.reg .esp).toNat - 12 ≤ c ∧ c < (s.reg .esp).toNat + 12 → ¬ InTables y c
  record : ∀ c, v.toNat ≤ c ∧ c < v.toNat + 4 → ¬ InTables y c
  apart : v.toNat + 8 ≤ (s.reg .esp).toNat - 12 ∨ (s.reg .esp).toNat + 12 ≤ v.toNat

/-- The address of the handler is written behind the first word of the handler. -/
theorem isrGetHandler_spec (hy : Placed y) (ht : Tables y s.mem f) {v : BitVec 32} (hcall : GetsHandler y s n v) :
    ∀ c, c < (s.reg .esp).toNat - 12 ∨ (s.reg .esp).toNat ≤ c →
      (isrGetHandler y s).mem c = store (store s.mem v 0x8E#32) (f n + 4#32) (f n) c := by
  obtain ⟨hn, hnumber, hpointer, hroom, hfits, hrecfits, hstack, hrecord, hapart⟩ := hcall
  obtain ⟨hpesp, hp8, hp12, hnbyte, htables, hkeep⟩ := setHandlerEnter_spec hy ht hn hnumber hroom hfits hstack
  generalize hp : run setHandlerEnter s = p at *
  have hesp4 : (s.reg .esp + 4#32).toNat = (s.reg .esp).toNat + 4 := by bv_omega
  obtain ⟨hgmem, hgebp⟩ := run_getHandlerGate y p (hp12.trans hpointer)
  rw [hnbyte, toNat_gateType hy hn, (htables.gate n hn).type] at hgmem
  generalize hg : run (getHandlerGate y) p = g at *
  -- the record is outside the tables, so that the type stored in it leaves them
  have hgtables : Tables y g.mem f := by
    refine htables.congr hy fun c hc => ?_
    have hout := mt (hrecord c) (not_not_intro hc)
    rw [hgmem]
    exact store_of_outside _ _ (by omega)
  have hnumber' : load g.mem (g.reg .ebp + 8#32) = BitVec.ofNat 32 n := by
    rw [hgebp, hp8, hgmem, load_store_of_disjoint _ _ (by omega), ← hnumber]
    exact load_congr fun k hk => hkeep _ (by omega)
  have hn4 : BitVec.ofNat 32 n * 4#32 = BitVec.ofNat 32 (4 * n) := by
    rw [Nat.mul_comm, BitVec.ofNat_mul]
  have hrmem := run_getHandlerVector y g (h := f n) (by rw [hgtables.ptr, hnumber', hn4, hgtables.handler n hn])
  generalize hr : run (getHandlerVector y) g = r at *
  obtain ⟨-, -, -, hqmem, -⟩ := @run_pops r [.esi, .eax, .ebp] (by decide) (by decide)
  have hrun : isrGetHandler y s = (run ([.esi, .eax, .ebp].map .pop) r).ret := by
    unfold isrGetHandler
    rw [run_append, run_append, run_append, hp, hg, hr]
  rw [hrun]
  generalize run ([.esi, .eax, .ebp].map .pop) r = q at *
  intro c hc
  rw [State.ret_mem, hqmem, hrmem, hgmem]
  exact store_congr _ _ (store_congr _ _ (hkeep c hc))

/-- `idt`, without `pic` and `isr_install`. -/
def idt (y : Symbols) (s : State) : State :=
  let s := loadIdt y s
  { s with mem := store s.mem y.isrCallPtrVector y.isrCallVector }

/-- The tables as they are loaded: gates of type `0x8E` without offsets, and an empty vector. -/
structure Static (y : Symbols) (m : Mem) : Prop where
  type : ∀ n < 256, m (y.idt.toNat + 8 * n + 5) = 0x8E
  vector : ∀ c, y.isrCallVector.toNat ≤ c ∧ c < y.isrCallVector.toNat + 1024 → m c = 0

theorem load_zero {a : BitVec 32} (hzero : ∀ k < 4, m (a.toNat + k) = 0) : load m a = 0#32 := by
  have hbytes : load m a = load (fun _ => 0) a := load_congr hzero
  rw [hbytes]
  simp [load, Mem.readWord]

/-- `idt` sets up the tables, with no handler yet. -/
theorem idt_tables (hy : Placed y) (hm : Static y s.mem) : Tables y (idt y s).mem fun _ => 0#32 := by
  have hfits := hy.idt
  have hvec := hy.vector
  have hptr := hy.ptr
  have hiv := hy.idt_vector
  have hip := hy.idt_ptr
  have hvp := hy.vector_ptr
  generalize hq : run [.movImm .ecx 256#32, .movImm .ebx y.idt, .movImm .edx y.isr0] s = q
  have hqreg : q.reg .ecx = BitVec.ofNat 32 256 ∧ q.reg .ebx = y.idt ∧ q.reg .edx = y.isr0 ∧ q.mem = s.mem := by
    rw [← hq]
    simp -implicitDefEqProofs [exec]
  obtain ⟨hecx, hebx, hedx, hqmem⟩ := hqreg
  -- all 256 gates, and nothing else; the pointer is stored afterwards
  obtain ⟨-, -, hgates, hkeep⟩ := buildIdt_spec (by decide) (by decide) hecx (by rw [hebx]; omega)
  have hload : loadIdt y s = buildIdt 256 q := by
    unfold loadIdt
    rw [hq]
  rw [hebx, hedx] at hgates
  rw [hebx, hqmem] at hkeep
  rw [← hload] at hgates hkeep
  unfold idt
  generalize loadIdt y s = t at *
  dsimp only
  refine ⟨fun n hn => ?_, load_store _ _ _, fun n hn => ?_⟩
  · have haddr : (y.idt + BitVec.ofNat 32 (8 * n)).toNat = y.idt.toNat + 8 * n := toNat_add_ofNat (by omega)
    have hgate : Gate y t.mem n := by
      refine ⟨?_, hgates n hn⟩
      rw [haddr, hkeep _ fun k hk => by omega]
      exact hm.type n hn
    exact hgate.congr hy hn fun c hc => store_of_outside _ _ (by omega)
  · have haddr : (y.isrCallVector + BitVec.ofNat 32 (4 * n)).toNat = y.isrCallVector.toNat + 4 * n :=
      toNat_add_ofNat (by omega)
    refine load_zero fun k hk => ?_
    rw [store_of_outside _ _ (by omega), hkeep _ fun k hk => by omega]
    exact hm.vector _ (by omega)

/-! ## Runs

The tables are set up by `idt`, and from then on changed by `isr_set_handler` alone. The run lemma `run_tables`
is what every result about interrupts starts from. -/

/-- `work` is all that the kernel does between calls of `isr_set_handler`. -/
inductive IsrEvent where
  | work
  | setHandler (n : Nat) (h : BitVec 32)

def Step (y : Symbols) (s : State) : IsrEvent → State → Prop
  | .work, s' => ∀ c, InTables y c → s'.mem c = s.mem c
  | .setHandler n h, s' => SetsHandler y s n h ∧ s' = isrSetHandler y s

def IsrEvent.sets (f : Nat → BitVec 32) : IsrEvent → Nat → BitVec 32
  | .work => f
  | .setHandler n h => Function.update f n h

/-- The handlers that a run has set. -/
def handlers (tr : List (Transition State IsrEvent)) : Nat → BitVec 32 :=
  tr.foldl (fun f τ => τ.event.sets f) fun _ => 0#32

/-- **The run.** The vector holds the handlers that were set last. -/
theorem run_tables {s₀ : State} {tr : List (Transition State IsrEvent)} (hy : Placed y) (hm : Static y s₀.mem)
    (hrun : Run (Step y) (idt y s₀) tr s) : Tables y s.mem (handlers tr) := by
  induction hrun with
  | nil => exact idt_tables hy hm
  | @snoc tr s t e _ hstep ih =>
    have hlast : handlers (tr ++ [⟨s, e, t⟩]) = e.sets (handlers tr) := List.foldl_append
    rw [hlast]
    cases e with
    | work => exact ih.congr hy hstep
    | setHandler n h =>
      obtain ⟨hcall, rfl⟩ := hstep
      exact (isrSetHandler_spec hy ih hcall).1

/-- The interrupts for which `isr_handler` reads the entry of the vector. -/
theorem vectorEntry_eq (ht : Tables y m f) (hn : n < 128) :
    vectorEntry y m n = y.isrCallVector + BitVec.ofNat 32 (4 * n) := by
  have hsign : (BitVec.ofNat 8 n).signExtend 32 * 4#32 = BitVec.ofNat 32 (4 * n) := by
    have hpos : (BitVec.ofNat 8 n).msb = false := by
      rw [BitVec.msb_eq_decide, BitVec.toNat_ofNat]
      simp
      omega
    rw [BitVec.signExtend_eq_setWidth_of_msb_false hpos]
    apply BitVec.eq_of_toNat_eq
    simp
    omega
  unfold vectorEntry
  rw [ht.ptr, hsign]

theorem msb_of_high (hn : 128 ≤ n) (hlt : n < 256) : (BitVec.ofNat 8 n).msb = true := by
  rw [BitVec.msb_eq_decide, BitVec.toNat_ofNat]
  simp
  omega

/-- From the interrupt 128 on the number is extended with its sign. -/
theorem vectorEntry_high (ht : Tables y m f) (hn : 128 ≤ n) (hlt : n < 256) :
    vectorEntry y m n = y.isrCallVector - BitVec.ofNat 32 (4 * (256 - n)) := by
  have hsign : (BitVec.ofNat 8 n).signExtend 32 * 4#32 = -BitVec.ofNat 32 (4 * (256 - n)) := by
    apply BitVec.eq_of_toNat_eq
    rw [BitVec.toNat_mul, BitVec.toNat_signExtend, if_pos (msb_of_high hn hlt), BitVec.toNat_neg]
    simp
    omega
  unfold vectorEntry
  rw [ht.ptr, hsign, BitVec.sub_eq_add_neg]

/-- The stack below the code that is interrupted lies apart from the tables. -/
def Apart (y : Symbols) (s : State) (k : Nat) : Prop :=
  ∀ c, (s.reg .esp).toNat - k ≤ c ∧ c < (s.reg .esp).toNat → ¬ InTables y c

theorem Apart.clear {k : Nat} (hapart : Apart y s k) (hk : 4 ≤ k) {a : BitVec 32} (hfirst : InTables y a.toNat)
    (hlast : InTables y (a.toNat + 3)) : Clear s k a := by
  have h₀ := mt (hapart a.toNat) (not_not_intro hfirst)
  have h₃ := mt (hapart (a.toNat + 3)) (not_not_intro hlast)
  unfold Clear
  omega

theorem Clear.mono {j k : Nat} {a : BitVec 32} (h : Clear s k a) (hjk : j ≤ k) : Clear s j a := by
  unfold Clear at h ⊢
  omega

/-- The callback of an interrupt below 128. -/
theorem Tables.lookup {k : Nat} (hy : Placed y) (ht : Tables y s.mem f) (hn : n < 128) (hk : 4 ≤ k) (hapart : Apart y s k) :
    Clear s k y.isrCallPtrVector ∧ Clear s k (vectorEntry y s.mem n)
      ∧ dispatch y s.mem ((BitVec.ofNat 8 n).signExtend 32) = if f n = 0#32 then y.isrFault else f n := by
  have hentry := vectorEntry_eq ht hn
  have haddr : (y.isrCallVector + BitVec.ofNat 32 (4 * n)).toNat = y.isrCallVector.toNat + 4 * n := by
    have := hy.vector
    exact toNat_add_ofNat (by omega)
  refine ⟨hapart.clear hk (Or.inr (Or.inr (by omega))) (Or.inr (Or.inr (by omega))), ?_, ?_⟩
  · rw [hentry]
    exact hapart.clear hk (Or.inr (Or.inl (by omega))) (Or.inr (Or.inl (by omega)))
  · have hslot := ht.handler n (by omega)
    rw [← hentry] at hslot
    unfold vectorEntry at hslot
    unfold dispatch
    rw [hslot]

/-- **An interrupt calls the handler that was set last, and is not noticed.** At every moment of every run the
interrupt calls what the last `isr_set_handler` has set, or `isr_fault`, with a pointer to the registers of the code
that is interrupted, and if the handler returns, that code goes on with the same registers. -/
theorem interrupt_dispatch {s₀ : State} {tr : List (Transition State IsrEvent)} {errCode : Option (BitVec 32)}
    (hy : Placed y) (hm : Static y s₀.mem) (hrun : Run (Step y) (idt y s₀) tr s) (code : BitVec 32 → State → State)
    (hn : n < 128) (hec : n ∈ intrEc ↔ errCode.isSome) (hroom : 76 ≤ (s.reg .esp).toNat) (hapart : Apart y s 76) :
    let target := if handlers tr n = 0#32 then y.isrFault else handlers tr n
    let e := (isrCallback y (isrState y n errCode s)).2
    (isrCallback y (isrState y n errCode s)).1 = target ∧ Called s e (intRegs s n errCode)
      ∧ (Returns e (code target e) → ∃ s', deliver y code n errCode s = some s' ∧ Unnoticed s s'
        ∧ s'.mem = (code target e).mem) := by
  have ht := run_tables hy hm hrun
  obtain ⟨hptr, hvector, htarget⟩ := ht.lookup hy hn (by decide) hapart
  have hspec := deliver_spec y code (by omega) (ht.gate n (by omega)) hec hroom hptr hvector
  rw [htarget] at hspec
  exact hspec

theorem returns_ret (s : State) : Returns s s.ret := by
  refine ⟨?_, ?_, fun c _ => ?_⟩
  · rw [State.ret_reg, State.drop_esp]
  · simp -implicitDefEqProofs [State.ret]
  · rw [State.ret_mem]

/-- Addresses for the tables and the code. -/
def someSymbols : Symbols := ⟨0x10000#32, 0x20000#32, 0x30000#32, 0x40000#32, 0x50000#32, 0x50010#32, 0x50020#32⟩

theorem someSymbols_placed : Placed someSymbols := by
  refine ⟨?_, ?_, ?_, ?_, ?_, ?_⟩
  all_goals simp [someSymbols]

/-- The machine with the tables as they are loaded. -/
def loaded : State :=
  ⟨fun _ => 0x90000#32, fun _ => 0, 0, 0, 0, fun c => if 0x20000 ≤ c ∧ c < 0x20800 ∧ c % 8 = 5 then 0x8E else 0⟩

theorem loaded_static : Static someSymbols loaded.mem := by
  refine ⟨fun n hn => ?_, fun c hc => ?_⟩
  · exact if_pos (by simp [someSymbols]; omega)
  · refine if_neg ?_
    simp [someSymbols] at hc
    omega

/-- A call of `isr_set_handler`, with its arguments on the stack. -/
theorem exists_setsHandler (m : Mem) (hn : n < 256) : ∃ s, (∀ c, InTables someSymbols c → s.mem c = m c)
    ∧ SetsHandler someSymbols s n h ∧ s.reg .esp = 0x90000#32
    ∧ load s.mem (s.reg .esp + 8#32) = 0xA0000#32 := by
  -- the arguments on the stack at 0x90000, and the record at 0xA0000
  let m₁ := store (store m 0x90004#32 (BitVec.ofNat 32 n)) 0x90008#32 0xA0000#32
  let m₂ := store (store m₁ 0xA0000#32 0x8E#32) 0xA0004#32 h
  have htables : ∀ c, InTables someSymbols c → c < 0x50000 := by
    intro c hc
    simp [InTables, someSymbols] at hc
    omega
  have hv : load m₂ (0x90000#32 + 8#32) = 0xA0000#32 := by
    rw [load_store_of_disjoint _ _ (by simp), load_store_of_disjoint _ _ (by simp)]
    exact load_store _ _ _
  have hkeep : ∀ c, c < 0x90000 → m₂ c = m c := by
    intro c hc
    have h₁ : (0x90004#32).toNat = 0x90004 := rfl
    have h₂ : (0x90008#32).toNat = 0x90008 := rfl
    have h₃ : (0xA0000#32).toNat = 0xA0000 := rfl
    have h₄ : (0xA0004#32).toNat = 0xA0004 := rfl
    show store (store (store (store m _ _) _ _) _ _) _ _ c = m c
    rw [store_of_outside _ _ (by omega), store_of_outside _ _ (by omega), store_of_outside _ _ (by omega),
      store_of_outside _ _ (by omega)]
  refine ⟨{ loaded with mem := m₂ }, fun c hc => hkeep c (Nat.lt_trans (htables c hc) (by decide)),
    ⟨hn, ?_, ?_, ?_, ?_, ?_, ?_, ?_, ?_⟩, rfl, hv⟩
  · show load m₂ (0x90000#32 + 4#32) = _
    rw [load_store_of_disjoint _ _ (by simp), load_store_of_disjoint _ _ (by simp),
      load_store_of_disjoint _ _ (by simp)]
    exact load_store _ _ _
  · show load m₂ (load m₂ (0x90000#32 + 8#32)) = _
    rw [hv, load_store_of_disjoint _ _ (by simp)]
    exact load_store _ _ _
  · show load m₂ (load m₂ (0x90000#32 + 8#32) + 4#32) = _
    rw [hv]
    exact load_store _ _ _
  · simp [loaded]
  · simp [loaded]
  · show (load m₂ (0x90000#32 + 8#32)).toNat + 8 ≤ _
    rw [hv]
    simp
  · intro c hc hin
    have := htables c hin
    simp [loaded] at hc
    omega
  · show (load m₂ (0x90000#32 + 8#32)).toNat + 8 ≤ _ ∨ _ ≤ (load m₂ (0x90000#32 + 8#32)).toNat
    rw [hv]
    simp [loaded]

/-- The keyboard interrupt arrives after its handler has been set. -/
theorem interrupt_dispatch_keyboard : ∃ tr s s', Run (Step someSymbols) (idt someSymbols loaded) tr s
    ∧ (isrCallback someSymbols (isrState someSymbols 33 none s)).1 = 0x60000#32
    ∧ deliver someSymbols (fun _ e => e.ret) 33 none s = some s' ∧ Unnoticed s s' := by
  obtain ⟨s₁, hwork, hcall, hesp, -⟩ := exists_setsHandler (idt someSymbols loaded).mem (n := 33) (h := 0x60000#32)
    (by decide)
  have hwork' : Step someSymbols (idt someSymbols loaded) .work s₁ := hwork
  have ht := run_tables someSymbols_placed loaded_static (Run.nil.snoc hwork')
  obtain ⟨-, -, hesp', -⟩ := isrSetHandler_spec someSymbols_placed ht hcall
  generalize hset : isrSetHandler someSymbols s₁ = s₂ at hesp'
  have hstep : Step someSymbols s₁ (.setHandler 33 0x60000#32) s₂ := ⟨hcall, hset.symm⟩
  have hrun := (Run.nil.snoc hwork').snoc hstep
  have hroom : (s₂.reg .esp).toNat = 0x90004 := by
    rw [hesp', hesp]
    rfl
  have hapart : Apart someSymbols s₂ 76 := by
    intro c hc hin
    simp [InTables, someSymbols] at hin
    omega
  obtain ⟨htarget, -, hresume⟩ := @interrupt_dispatch someSymbols s₂ 33 _ _ none someSymbols_placed loaded_static hrun
    (fun _ e => e.ret) (by decide) (by decide) (by omega) hapart
  obtain ⟨s', hs', hsame, -⟩ := hresume (returns_ret _)
  exact ⟨_, s₂, s', hrun, htarget, hs', hsame⟩

/-- **From the interrupt 128 on no handler is found.** `push byte` extends the number with its sign, and
`isr_handler` takes a word in front of the vector for the callback, whatever handlers have been set. -/
theorem interrupt_high {s₀ : State} {tr : List (Transition State IsrEvent)} (hy : Placed y) (hm : Static y s₀.mem)
    (hrun : Run (Step y) (idt y s₀) tr s) (code : BitVec 32 → State → State) (hn : 128 ≤ n) (hlt : n < 256)
    (hroom : 76 ≤ (s.reg .esp).toNat) (hapart : Apart y s 76)
    (hclear : Clear s 76 (y.isrCallVector - BitVec.ofNat 32 (4 * (256 - n)))) :
    let word := load s.mem (y.isrCallVector - BitVec.ofNat 32 (4 * (256 - n)))
    let target := if word = 0#32 then y.isrFault else word
    let e := (isrCallback y (isrState y n none s)).2
    (isrCallback y (isrState y n none s)).1 = target
      ∧ load e.mem (s.reg .esp - 68#32 + 48#32) = BitVec.ofNat 32 n - 256#32
      ∧ (Returns e (code target e) → ∃ s', deliver y code n none s = some s' ∧ Unnoticed s s'
        ∧ s'.mem = (code target e).mem) := by
  have ht := run_tables hy hm hrun
  -- the entry that is looked up lies in front of the vector
  have hentry := vectorEntry_high ht hn hlt
  rw [← hentry] at hclear ⊢
  have hptr := hapart.clear (by decide) (Or.inr (Or.inr ⟨Nat.le_refl _, by omega⟩))
    (Or.inr (Or.inr ⟨by omega, by omega⟩))
  have hplain : n ∉ intrEc := by
    intro h
    simp [intrEc] at h
    omega
  obtain ⟨htarget, hcalled, hresume⟩ := @deliver_spec y code n none s hlt (ht.gate n hlt)
    (iff_of_false hplain (by decide)) hroom hptr hclear
  refine ⟨htarget, (load_of_words (i := 12) hcalled.regs rfl).trans ?_, hresume⟩
  apply BitVec.eq_of_toNat_eq
  rw [BitVec.toNat_signExtend, if_pos (msb_of_high hn hlt), BitVec.toNat_sub]
  simp
  omega

/-- An interrupt 128 after some work. -/
theorem interrupt_high_syscall : ∃ tr s s', Run (Step someSymbols) (idt someSymbols loaded) tr s
    ∧ deliver someSymbols (fun _ e => e.ret) 128 none s = some s' ∧ Unnoticed s s' := by
  obtain ⟨s, hwork, -, hesp, -⟩ := exists_setsHandler (idt someSymbols loaded).mem (n := 0) (h := 0#32) (by decide)
  have hstep : Step someSymbols (idt someSymbols loaded) .work s := hwork
  have hroom : (s.reg .esp).toNat = 0x90000 := by
    rw [hesp]
    rfl
  have hapart : Apart someSymbols s 76 := by
    intro c hc hin
    simp [InTables, someSymbols] at hin
    omega
  have hclear : Clear s 76 (someSymbols.isrCallVector - BitVec.ofNat 32 (4 * (256 - 128))) :=
    Or.inl (by rw [hroom]; decide)
  obtain ⟨-, -, hresume⟩ := interrupt_high someSymbols_placed loaded_static (Run.nil.snoc hstep) (fun _ e => e.ret)
    (Nat.le_refl 128) (by decide) (by omega) hapart hclear
  obtain ⟨s', hs', hsame, -⟩ := hresume (returns_ret _)
  exact ⟨_, s, s', Run.nil.snoc hstep, hs', hsame⟩

/-- **A handler cannot be read back.** At every moment of every run `isr_get_handler` returns the type of the gate,
leaves the place for the handler as it is, and overwrites the second word of the handler's code with its address. -/
theorem isr_get_handler_overwrites {s₀ : State} {tr : List (Transition State IsrEvent)} {v : BitVec 32} (hy : Placed y)
    (hm : Static y s₀.mem) (hrun : Run (Step y) (idt y s₀) tr s) (hcall : GetsHandler y s n v)
    (hcode : (handlers tr n).toNat + 8 ≤ 4294967296)
    (hapart : (handlers tr n).toNat + 8 ≤ v.toNat ∨ v.toNat + 8 ≤ (handlers tr n).toNat)
    (hstack : (handlers tr n).toNat + 8 ≤ (s.reg .esp).toNat - 12 ∨ (s.reg .esp).toNat ≤ (handlers tr n).toNat) :
    let m := (isrGetHandler y s).mem
    load m v = 0x8E#32 ∧ load m (v + 4#32) = load s.mem (v + 4#32)
      ∧ load m (handlers tr n + 4#32) = handlers tr n
      ∧ load m (handlers tr n) = load s.mem (handlers tr n) := by
  have hspec := isrGetHandler_spec hy (run_tables hy hm hrun) hcall
  have hrecfits := hcall.record_fits
  have hrecord := hcall.apart
  generalize handlers tr n = h at *
  generalize (isrGetHandler y s).mem = m at *
  have hv4 : (v + 4#32).toNat = v.toNat + 4 := by bv_omega
  have hh4 : (h + 4#32).toNat = h.toNat + 4 := by bv_omega
  have hload : ∀ a : BitVec 32, a.toNat + 4 ≤ (s.reg .esp).toNat - 12 ∨ (s.reg .esp).toNat ≤ a.toNat →
      load m a = load (store (store s.mem v 0x8E#32) (h + 4#32) h) a :=
    fun a ha => load_congr fun k hk => hspec _ (by omega)
  refine ⟨?_, ?_, ?_, ?_⟩
  · rw [hload v (by omega), load_store_of_disjoint _ _ (by omega), load_store]
  · rw [hload _ (by omega), load_store_of_disjoint _ _ (by omega), load_store_of_disjoint _ _ (by omega)]
  · rw [hload _ (by omega), load_store]
  · rw [hload h (by omega), load_store_of_disjoint _ _ (by omega), load_store_of_disjoint _ _ (by omega)]

/-- The handler of the keyboard is read. -/
theorem isr_get_handler_overwrites_keyboard : ∃ tr s, Run (Step someSymbols) (idt someSymbols loaded) tr s
    ∧ handlers tr 33 = 0x60000#32 ∧ load (isrGetHandler someSymbols s).mem 0x60004#32 = 0x60000#32 := by
  obtain ⟨s₁, hwork, hcall, -, -⟩ := exists_setsHandler (idt someSymbols loaded).mem (n := 33) (h := 0x60000#32)
    (by decide)
  generalize hset : isrSetHandler someSymbols s₁ = s₂
  have hwork' : Step someSymbols (idt someSymbols loaded) .work s₁ := hwork
  have hstep : Step someSymbols s₁ (.setHandler 33 0x60000#32) s₂ := ⟨hcall, hset.symm⟩
  obtain ⟨s₃, hwork₃, hcall₃, hesp, hv⟩ := exists_setsHandler s₂.mem (n := 33) (h := 0#32) (by decide)
  have hwork₃' : Step someSymbols s₂ .work s₃ := hwork₃
  have hrun := ((Run.nil.snoc hwork').snoc hstep).snoc hwork₃'
  have hroom : (s₃.reg .esp).toNat = 0x90000 := by
    rw [hesp]
    rfl
  have hgets : GetsHandler someSymbols s₃ 33 0xA0000#32 := by
    refine ⟨hcall₃.lt, hcall₃.number, hv, hcall₃.room, hcall₃.fits, by simp, hcall₃.stack, fun c hc hin => ?_, ?_⟩
    · simp [InTables, someSymbols] at hin
      simp at hc
      omega
    · rw [hroom]
      simp
  have hspec := isr_get_handler_overwrites someSymbols_placed loaded_static hrun hgets
    (show (0x60000#32).toNat + 8 ≤ _ by simp) (show (0x60000#32).toNat + 8 ≤ _ ∨ _ by simp)
    (show (0x60000#32).toNat + 8 ≤ _ ∨ _ from Or.inl (by rw [hroom]; simp))
  exact ⟨_, s₃, hrun, rfl, hspec.2.2.1⟩

/-- `fault_names`, with the exceptions for which the processor pushes an error code. -/
def faultNames : List (Option String × Bool) :=
  [(some "Divide-by-Zero", false), (some "Debug", false), (some "Non-maskable Interrupt", false),
    (some "Breakpoint", false), (some "Overflow", false), (some "Bound Range Exceeded", false),
    (some "Invalid Opcode", false), (some "Device Not Available", false), (some "Double Fault", true),
    (some "Coprocessor Segment Overrun", false), (some "Invalid TSS", true), (some "Segment Not Present", true),
    (some "Stack-Segment Fault", true), (some "General Protection Fault", true), (some "Page Fault", true),
    (none, false), (some "x87 Floating-Point Exception", false), (some "Alignment Check", true),
    (some "Machine Check", false), (some "SIMD Floating-Point Exception", false),
    (some "Virtualization Exception", false), (none, false), (none, false), (none, false), (none, false),
    (none, false), (none, false), (none, false), (none, false), (none, false), (some "Security Exception", true),
    (none, false)]

/-- The stubs that expect an error code are those of the exceptions that have one, but for 17 and 30. -/
theorem faultNames_intrEc : ∀ n < 32, n ≠ 17 → n ≠ 30 → (faultNames[n]?).map Prod.snd = some (decide (n ∈ intrEc)) := by
  decide

/-- **Two faults lose their way.** With an error code where `fault_names` says so, an exception whose handler
returns is not noticed, but for 17 and 30: there the error code is taken for the return address. -/
theorem fault_unnoticed_iff {s₀ : State} {tr : List (Transition State IsrEvent)} {errCode : Option (BitVec 32)}
    (hy : Placed y) (hm : Static y s₀.mem) (hrun : Run (Step y) (idt y s₀) tr s) (code : BitVec 32 → State → State)
    {name : Option String} (hcode : faultNames[n]? = some (name, errCode.isSome)) (hroom : 80 ≤ (s.reg .esp).toNat)
    (hapart : Apart y s 80) :
    let target := if handlers tr n = 0#32 then y.isrFault else handlers tr n
    let e := (isrCallback y (isrState y n errCode s)).2
    Returns e (code target e) → ∃ s', deliver y code n errCode s = some s'
      ∧ (Unnoticed s s' ↔ n ≠ 17 ∧ n ≠ 30) ∧ (n = 17 ∨ n = 30 → errCode = some s'.eip) := by
  have ht := run_tables hy hm hrun
  have hn : n < 32 := by
    have := List.getElem?_eq_some_iff.mp hcode
    exact this.1
  obtain ⟨hptr, hvector, htarget⟩ := ht.lookup (n := n) hy (by omega) (by decide) hapart
  have hgate := ht.gate n (by omega)
  intro target e hreturns
  -- for these two the stub pushes a zero on top of the error code, and `iret` takes the error code
  by_cases hlost : n = 17 ∨ n = 30
  · have hplain : n ∉ intrEc := by
      rcases hlost with rfl | rfl
      all_goals decide
    obtain ⟨c, rfl⟩ : ∃ c, errCode = some c := by
      have hsome : errCode.isSome = true := by
        rcases hlost with rfl | rfl
        all_goals
          have := congrArg Prod.snd (Option.some.inj hcode)
          exact this.symm
      exact Option.isSome_iff_exists.mp hsome
    have hspec := @deliver_shifted y code n c s (by omega) hgate hplain hroom hptr hvector
    rw [htarget] at hspec
    obtain ⟨s', hs', heip, hesp⟩ := hspec hreturns
    refine ⟨s', hs', iff_of_false (fun h => ?_) (by omega), fun _ => congrArg some heip.symm⟩
    have := congrFun h.reg .esp
    rw [hesp] at this
    bv_omega
  · have hec : n ∈ intrEc ↔ errCode.isSome := by
      have hstub := faultNames_intrEc n hn (by omega) (by omega)
      rw [hcode, Option.map_some] at hstub
      have hflag : errCode.isSome = decide (n ∈ intrEc) := Option.some.inj hstub
      rw [hflag, decide_eq_true_iff]
    obtain ⟨-, -, hresume⟩ := @deliver_spec y code n errCode s (by omega) hgate hec (by omega)
      (hptr.mono (by decide)) (hvector.mono (by decide))
    rw [htarget] at hresume
    obtain ⟨s', hs', hsame, -⟩ := hresume hreturns
    exact ⟨s', hs', iff_of_true hsame (by omega), fun h => absurd h hlost⟩

/-- An alignment check with the error code 5. -/
theorem fault_unnoticed_iff_alignment : ∃ tr s s', Run (Step someSymbols) (idt someSymbols loaded) tr s
    ∧ deliver someSymbols (fun _ e => e.ret) 17 (some 5#32) s = some s' ∧ s'.eip = 5#32 := by
  obtain ⟨s, hwork, -, hesp, -⟩ := exists_setsHandler (idt someSymbols loaded).mem (n := 0) (h := 0#32) (by decide)
  have hstep : Step someSymbols (idt someSymbols loaded) .work s := hwork
  have hroom : (s.reg .esp).toNat = 0x90000 := by
    rw [hesp]
    rfl
  have hapart : Apart someSymbols s 80 := by
    intro c hc hin
    simp [InTables, someSymbols] at hin
    omega
  obtain ⟨s', hs', -, heip⟩ := @fault_unnoticed_iff someSymbols s 17 _ _ (some 5#32) someSymbols_placed loaded_static
    (Run.nil.snoc hstep) (fun _ e => e.ret) _ rfl (by omega) hapart (returns_ret _)
  exact ⟨_, s, s', Run.nil.snoc hstep, hs', (Option.some.inj (heip (Or.inl rfl))).symm⟩

end DiyOS.Interrupt
