import DiyOS.Lib.Cpu

/-!
# Interrupts (`kernel/x86/int_handler.asm`, `kernel/x86/idt.c`)

The gates of the interrupt table lead to 256 stubs of ten bytes each. A stub pushes the number of its interrupt,
and `isr_handler` saves the registers, calls the function that the vector `isr_call_vector` holds for the number,
and returns to the code that was interrupted, if the stub has left room for the error code as the processor does.
-/

namespace DiyOS.Interrupt

open Cpu

/-- The addresses that the code refers to, and the return addresses of its two calls. -/
structure Symbols where
  isr0 : BitVec 32
  idt : BitVec 32
  isrCallPtrVector : BitVec 32
  isrCallVector : BitVec 32
  isrFault : BitVec 32
  isrCall : BitVec 32
  isrCommon : BitVec 32

/-! ## The stubs and `isr_handler` -/

/-- The stubs of `INTR_EC`: the processor has pushed an error code. -/
def intrEc : List Nat := [0x08, 0x0A, 0x0B, 0x0C, 0x0D, 0x0E]

/-- `isr n`, up to the jump to `isr_handler`. -/
def isr (n : Nat) : List Instr :=
  if n ∈ intrEc then [.cli, .pushByte (BitVec.ofNat 8 n)] else [.cli, .pushByte 0, .pushByte (BitVec.ofNat 8 n)]

/-- `isr_handler`, the registers. -/
def isrSave : List Instr := [.pushSeg .gs, .pushSeg .fs, .pushSeg .es, .pushSeg .ds, .pusha]

/-- `isr_handler`, the data segments of the kernel. -/
def isrSegments : List Instr :=
  [.movHalf .eax 0x10, .movSeg .ds .eax, .movSeg .es .eax, .movSeg .fs .eax, .movSeg .gs .eax, .cld]

/-- `isr_handler`, the callback. -/
def isrLookup (y : Symbols) : List Instr :=
  [.push .esp, .mov .ebp .esp, .load .ebx (.at .ebp 52#32), .load .eax (.abs y.isrCallPtrVector),
    .load .eax (.scaled .eax .ebx 4#32), .cmp .eax 0#32]

def isrCommon : List Instr :=
  [.add .esp 4#32, .popa, .popSeg .ds, .popSeg .es, .popSeg .fs, .popSeg .gs, .add .esp 8#32]

/-- The function that `isr_handler` calls, and the state at its first instruction. -/
def isrCallback (y : Symbols) (s : State) : BitVec 32 × State :=
  let s := run (isrSave ++ isrSegments ++ isrLookup y) s
  if s.zeroFlag then (y.isrFault, s.call y.isrFault y.isrCommon) else (s.reg .eax, s.call (s.reg .eax) y.isrCall)

/-- `code a` is what the function at the address `a` does until it returns. -/
def isrHandler (y : Symbols) (code : BitVec 32 → State → State) (s : State) : State :=
  (run isrCommon (code (isrCallback y s).1 (isrCallback y s).2)).iret

/-- The words that `isr_handler` saves: `int_regs_t` without what the stub and the processor push. -/
def savedRegs (s : State) : List (BitVec 32) :=
  [s.reg .edi, s.reg .esi, s.reg .ebp, s.reg .esp - 16#32, s.reg .ebx, s.reg .edx, s.reg .ecx, s.reg .eax]
    ++ [.ds, .es, .fs, .gs].map fun g => (s.seg g).setWidth 32

theorem run_isrSave (s : State) : run isrSave s = s.pushes (savedRegs s).reverse := by
  have hesp : s.reg .esp - 4#32 - 4#32 - 4#32 - 4#32 = s.reg .esp - 16#32 := by bv_omega
  simp -implicitDefEqProofs [isrSave, exec, savedRegs, State.pushes, hesp]

theorem run_isrSegments (s : State) :
    let s' := run isrSegments s
    s'.mem = s.mem ∧ (∀ r, r ≠ .eax → s'.reg r = s.reg r) ∧ s'.seg .ss = s.seg .ss := by
  refine ⟨rfl, fun r hr => ?_, ?_⟩
  · exact State.setReg_of_ne _ _ hr
  · simp -implicitDefEqProofs [isrSegments, exec]

theorem run_isrLookup (y : Symbols) (s : State) {m : Mem} (hm : (s.push (s.reg .esp)).mem = m) :
    let s' := run (isrLookup y) s
    s'.mem = m ∧ s'.reg .esp = s.reg .esp - 4#32
      ∧ s'.reg .eax = load m (load m y.isrCallPtrVector + load m (s.reg .esp - 4#32 + 52#32) * 4#32)
      ∧ s'.zeroFlag = (s'.reg .eax == 0#32) ∧ s'.seg = s.seg := by
  subst hm
  unfold isrLookup
  simp -implicitDefEqProofs only [run_cons, run_nil, zeroFlag_cmp, BitVec.sub_zero]
  simp -implicitDefEqProofs [exec, State.address]

/-- The end of `isr_handler` takes back what its beginning has saved. -/
theorem isrCommon_spec (s t : State) {n err eip cs eflags : BitVec 32}
    (hwords : words s.mem (s.reg .esp + 4#32) 17 = savedRegs t ++ [n, err, eip, cs, eflags]) :
    let s' := (run isrCommon s).iret
    (∀ r, r ≠ .esp → s'.reg r = t.reg r) ∧ s'.reg .esp = s.reg .esp + 72#32
      ∧ (∀ g, g ≠ .cs → g ≠ .ss → s'.seg g = t.seg g) ∧ s'.seg .cs = cs.setWidth 16 ∧ s'.seg .ss = s.seg .ss
      ∧ s'.eip = eip ∧ s'.eflags = eflags ∧ s'.mem = s.mem ∧ s'.cr3 = s.cr3 := by
  simp only [words, savedRegs, BitVec.add_assoc, List.map, List.cons_append, List.nil_append, List.cons.injEq,
    BitVec.reduceAdd] at hwords
  obtain ⟨hedi, hesi, hebp, -, hebx, hedx, hecx, heax, hds, hes, hfs, hgs, -, -, heip, hcs, hflags, -⟩ := hwords
  refine ⟨fun r hr => ?_, ?_, fun g hcs hss => ?_, ?_, ?_, ?_, ?_, ?_, ?_⟩
  · cases r with
    | esp => exact absurd rfl hr
    | _ => simp -implicitDefEqProofs [isrCommon, exec, State.iret, BitVec.add_assoc, *]
  · simp -implicitDefEqProofs [isrCommon, exec, State.iret, BitVec.add_assoc]
  · cases g with
    | cs => exact absurd rfl hcs
    | ss => exact absurd rfl hss
    | _ => simp -implicitDefEqProofs [isrCommon, exec, State.iret, State.top, BitVec.add_assoc, *]
  all_goals simp -implicitDefEqProofs [isrCommon, exec, State.iret, State.top, State.drop, BitVec.add_assoc, *]

/-- The function for an interrupt, as the vector holds it. -/
def dispatch (y : Symbols) (m : Mem) (n : BitVec 32) : BitVec 32 :=
  let callback := load m (load m y.isrCallPtrVector + n * 4#32)
  if callback = 0#32 then y.isrFault else callback

/-- The word at `a` lies outside the `n` bytes below the stack pointer. -/
def Clear (s : State) (n : Nat) (a : BitVec 32) : Prop :=
  a.toNat + 4 ≤ (s.reg .esp).toNat - n ∨ (s.reg .esp).toNat ≤ a.toNat

/-- The callback is called with a pointer to the registers that have been saved. -/
theorem isrCallback_spec (y : Symbols) (s : State) {n : BitVec 32} {frame : List (BitVec 32)}
    (hframe : words s.mem (s.reg .esp) 5 = n :: frame) (hroom : 56 ≤ (s.reg .esp).toNat)
    (hfits : (s.reg .esp).toNat + 20 ≤ 4294967296) (hptr : Clear s 56 y.isrCallPtrVector)
    (hvector : Clear s 56 (load s.mem y.isrCallPtrVector + n * 4#32)) :
    let e := (isrCallback y s).2
    (isrCallback y s).1 = dispatch y s.mem n ∧ e.reg .esp = s.reg .esp - 56#32
      ∧ load e.mem (s.reg .esp - 52#32) = s.reg .esp - 48#32
      ∧ words e.mem (s.reg .esp - 48#32) 17 = savedRegs s ++ n :: frame ∧ e.seg .ss = s.seg .ss
      ∧ ∀ c, c < (s.reg .esp).toNat - 56 ∨ (s.reg .esp).toNat ≤ c → e.mem c = s.mem c := by
  have hlen : (savedRegs s).reverse.length = 12 := rfl
  have hpushed := run_isrSave s
  generalize hp : s.pushes (savedRegs s).reverse = p at hpushed
  have hpesp : p.reg .esp = s.reg .esp - 48#32 := by
    rw [← hp, State.pushes_esp, hlen]
  obtain ⟨hqmem, hqreg, hqss⟩ := run_isrSegments p
  generalize hq : run isrSegments p = q at hqmem hqreg hqss
  have hqesp : q.reg .esp = s.reg .esp - 48#32 := (hqreg .esp (by decide)).trans hpesp
  obtain ⟨hrmem, hresp, hreax, hrzero, hrss⟩ := run_isrLookup y q rfl
  have hrun : run (isrSave ++ isrSegments ++ isrLookup y) s = run (isrLookup y) q := by
    rw [run_append, run_append, hpushed, hq]
  generalize run (isrLookup y) q = r at *
  -- the two calls push different return addresses
  obtain ⟨ret, target, hcallback, htarget⟩ : ∃ ret target, isrCallback y s = (target, r.call target ret)
      ∧ target = if r.reg .eax = 0#32 then y.isrFault else r.reg .eax := by
    unfold isrCallback
    rw [hrun]
    dsimp only
    rw [hrzero]
    by_cases hzero : r.reg .eax = 0#32
    · exact ⟨y.isrCommon, y.isrFault, by simp [hzero], by simp [hzero]⟩
    · exact ⟨y.isrCall, r.reg .eax, by simp [hzero], by simp [hzero]⟩
  have hmem : (r.push ret).mem = (s.pushes ((savedRegs s).reverse ++ [s.reg .esp - 48#32, ret])).mem := by
    rw [State.pushes_append, hp]
    show _ = ((p.push _).push ret).mem
    rw [State.push_mem, State.push_mem, State.push_mem, State.push_esp, hrmem, State.push_mem, hresp, hqesp, hqmem,
      hpesp]
  generalize hpushes : (savedRegs s).reverse ++ [s.reg .esp - 48#32, ret] = pushed at hmem
  have hlen' : pushed.length = 14 := by rw [← hpushes]; rfl
  have hkeep : ∀ c, c < (s.reg .esp).toNat - 56 ∨ (s.reg .esp).toNat ≤ c → (r.push ret).mem c = s.mem c := by
    intro c hc
    rw [hmem]
    exact @State.pushes_agree s pushed (by omega) c (by omega)
  have hesp : (s.pushes pushed).reg .esp = s.reg .esp - 56#32 := by rw [State.pushes_esp, hlen']
  have hwords := @State.words_pushes s pushed (by omega)
  have hrev : pushed.reverse = [ret, s.reg .esp - 48#32] ++ savedRegs s := by rw [← hpushes]; simp
  rw [hesp, hlen', ← hmem, hrev] at hwords
  have hpointer := load_of_words (i := 1) hwords rfl
  have htop : words (r.push ret).mem (s.reg .esp) 5 = n :: frame := by
    rw [← hframe]
    exact words_congr (by omega) fun k hk => hkeep _ (by omega)
  -- the lookup reads the memory before the return address is pushed
  have hload : ∀ a, Clear s 56 a → load r.mem a = load s.mem a := by
    intro a ha
    unfold Clear at ha
    refine load_congr fun k hk => (Eq.symm ?_).trans (hkeep _ (by omega))
    rw [State.push_mem, hresp, hqesp]
    exact store_of_outside _ _ (by bv_omega)
  have hnumber : load s.mem (s.reg .esp) = n := (List.cons.inj hframe).1
  have heax : r.reg .eax = load s.mem (load s.mem y.isrCallPtrVector + n * 4#32) := by
    have hback : q.reg .esp - 4#32 + 52#32 = s.reg .esp := by
      rw [hqesp]
      bv_omega
    rw [hreax, ← hrmem, hback, hload _ hptr, hload (s.reg .esp) (Or.inr (Nat.le_refl _)), hnumber, hload _ hvector]
  rw [hcallback]
  dsimp only
  refine ⟨?_, ?_, ?_, ?_, ?_, hkeep⟩
  · rw [htarget, heax]
    rfl
  · show (r.push ret).reg .esp = _
    rw [State.push_esp, hresp, hqesp]
    bv_omega
  · show load (r.push ret).mem _ = _
    rw [← hpointer]
    exact congrArg (load _) (by bv_omega)
  · show words (r.push ret).mem (s.reg .esp - 48#32) (12 + 5) = _
    have hsplit : words (r.push ret).mem (s.reg .esp - 56#32) (2 + 12)
        = words _ (s.reg .esp - 56#32) 2 ++ words _ (s.reg .esp - 56#32 + BitVec.ofNat 32 (4 * 2)) 12 :=
      words_add _ _ 2 12
    have hsaved := (List.append_inj (hsplit.symm.trans hwords) (length_words _ _ _)).2
    have haddr : s.reg .esp - 56#32 + BitVec.ofNat 32 (4 * 2) = s.reg .esp - 48#32 := by bv_omega
    have haddr' : s.reg .esp - 48#32 + BitVec.ofNat 32 (4 * 12) = s.reg .esp := by bv_omega
    rw [haddr] at hsaved
    rw [words_add, haddr', hsaved, htop]
  · show (r.push ret).seg .ss = _
    rw [State.push_seg, hrss, hqss, ← hp, State.pushes_seg]

/-- What a function does that `isr_handler` calls: it returns, and keeps the registers that have been saved. -/
structure Returns (s s' : State) : Prop where
  esp : s'.reg .esp = s.reg .esp + 4#32
  ss : s'.seg .ss = s.seg .ss
  frame : ∀ c, (s.reg .esp).toNat + 8 ≤ c ∧ c < (s.reg .esp).toNat + 76 → s'.mem c = s.mem c

/-- `isr_handler` changes no register but for `eax`, `ebx` and the like, and the memory as the callback does. -/
theorem isrHandler_spec (y : Symbols) (code : BitVec 32 → State → State) (s : State)
    {n err eip cs eflags : BitVec 32} (hframe : words s.mem (s.reg .esp) 5 = [n, err, eip, cs, eflags])
    (hroom : 56 ≤ (s.reg .esp).toNat) (hfits : (s.reg .esp).toNat + 20 ≤ 4294967296)
    (hptr : Clear s 56 y.isrCallPtrVector) (hvector : Clear s 56 (load s.mem y.isrCallPtrVector + n * 4#32))
    (hreturns : Returns (isrCallback y s).2 (code (dispatch y s.mem n) (isrCallback y s).2)) :
    let s' := isrHandler y code s
    (∀ r, r ≠ .esp → s'.reg r = s.reg r) ∧ s'.reg .esp = s.reg .esp + 20#32
      ∧ (∀ g, g ≠ .cs → s'.seg g = s.seg g) ∧ s'.seg .cs = cs.setWidth 16 ∧ s'.eip = eip ∧ s'.eflags = eflags
      ∧ s'.mem = (code (dispatch y s.mem n) (isrCallback y s).2).mem := by
  obtain ⟨htarget, hesp, -, hwords, hss, -⟩ := isrCallback_spec y s hframe hroom hfits hptr hvector
  unfold isrHandler
  rw [htarget]
  generalize (isrCallback y s).2 = e at *
  obtain ⟨hesp', hss', hkeep⟩ := hreturns
  generalize code (dispatch y s.mem n) e = t at *
  have hpointer : t.reg .esp + 4#32 = s.reg .esp - 48#32 := by
    rw [hesp', hesp]
    bv_omega
  -- the handler has returned with its argument on the stack, and left what lies above
  have hwords' : words t.mem (t.reg .esp + 4#32) 17 = savedRegs s ++ [n, err, eip, cs, eflags] := by
    rw [hpointer, ← hwords]
    refine words_congr (by bv_omega) fun k hk => hkeep _ ?_
    rw [hesp]
    bv_omega
  obtain ⟨hreg, hnew, hseg, hcs, hssame, heip, hflags, hmem, -⟩ := isrCommon_spec t s hwords'
  generalize (run isrCommon t).iret = s' at *
  dsimp only
  refine ⟨hreg, ?_, fun g hg => ?_, hcs, heip, hflags, hmem⟩
  · rw [hnew, hesp', hesp]
    bv_omega
  · by_cases hstack : g = .ss
    · rw [hstack, hssame, hss', hss]
    · exact hseg g hg hstack

/-! ## Delivery -/

/-- The function that the gate at `a` leads to. -/
def gateOffset (m : Mem) (a : BitVec 32) : BitVec 32 := loadHalf m (a + 6#32) ++ loadHalf m a

/-- The stub at an address. -/
def stubAt (y : Symbols) (a : BitVec 32) : Option Nat :=
  (List.range 256).find? fun n => y.isr0 + BitVec.ofNat 32 (10 * n) == a

/-- The processor takes the interrupt `n`; `0x8E` is a gate for interrupts of the kernel. -/
def deliver (y : Symbols) (code : BitVec 32 → State → State) (n : Nat) (errCode : Option (BitVec 32)) (s : State) :
    Option State :=
  let a := y.idt + BitVec.ofNat 32 (8 * n)
  if s.mem (a.toNat + 5) = 0x8E then
    (stubAt y (gateOffset s.mem a)).map fun stub =>
      isrHandler y code (run (isr stub) (s.interrupt (loadHalf s.mem (a + 2#32)) (gateOffset s.mem a) errCode))
  else none

/-- What the stub of an interrupt pushes. -/
def stubWords (n : Nat) : List (BitVec 32) :=
  if n ∈ intrEc then [(BitVec.ofNat 8 n).signExtend 32] else [0, (BitVec.ofNat 8 n).signExtend 32]

theorem run_isr (n : Nat) (s : State) :
    run (isr n) s = State.pushes { s with eflags := withBit s.eflags 9 false } (stubWords n) := by
  unfold isr stubWords
  by_cases hec : n ∈ intrEc
  · rw [if_pos hec, if_pos hec]
    rfl
  · rw [if_neg hec, if_neg hec]
    rfl

/-- The state at the first instruction of `isr_handler`. -/
theorem entry_spec (s : State) (n : Nat) (selector : BitVec 16) (offset : BitVec 32)
    (errCode : Option (BitVec 32)) :
    let e := run (isr n) (s.interrupt selector offset errCode)
    let q := s.pushes ([s.eflags, (s.seg .cs).setWidth 32, s.eip] ++ errCode.toList ++ stubWords n)
    e.reg = q.reg ∧ e.mem = q.mem ∧ ∀ g, g ≠ .cs → e.seg g = s.seg g := by
  rw [run_isr]
  obtain ⟨hreg, hmem⟩ := @State.pushes_congr
    { s.interrupt selector offset errCode with eflags := withBit (s.interrupt selector offset errCode).eflags 9 false }
    (s.pushes ([s.eflags, (s.seg .cs).setWidth 32, s.eip] ++ errCode.toList)) rfl rfl (stubWords n)
  rw [State.pushes_append s]
  refine ⟨hreg, hmem, fun g hg => ?_⟩
  rw [State.pushes_seg]
  show Function.update (State.pushes s _).seg .cs selector g = _
  rw [Function.update_of_ne hg, State.pushes_seg]

/-- The stubs lie ten bytes apart. -/
theorem stubAt_stub (y : Symbols) {n : Nat} (hn : n < 256) : stubAt y (y.isr0 + BitVec.ofNat 32 (10 * n)) = some n := by
  unfold stubAt
  generalize hlimit : 256 = limit at hn
  refine List.find?_range_eq_some.mpr ⟨beq_self_eq_true _, List.mem_range.mpr hn, fun k hk => ?_⟩
  have hne : y.isr0 + BitVec.ofNat 32 (10 * k) ≠ y.isr0 + BitVec.ofNat 32 (10 * n) := by
    have hk' : 10 * k < 2 ^ 32 := by omega
    have hn' : 10 * n < 2 ^ 32 := by omega
    intro h
    have hsame := congrArg BitVec.toNat ((BitVec.add_right_inj _).mp h)
    rw [BitVec.toNat_ofNat, BitVec.toNat_ofNat, Nat.mod_eq_of_lt hk', Nat.mod_eq_of_lt hn'] at hsame
    exact absurd (Nat.eq_of_mul_eq_mul_left (by decide) hsame) (Nat.ne_of_lt hk)
  simp [hne]

/-- The gate of the interrupt leads to its stub. -/
structure Gate (y : Symbols) (m : Mem) (n : Nat) : Prop where
  type : m ((y.idt + BitVec.ofNat 32 (8 * n)).toNat + 5) = 0x8E
  offset : gateOffset m (y.idt + BitVec.ofNat 32 (8 * n)) = y.isr0 + BitVec.ofNat 32 (10 * n)

/-- The state at the first instruction of `isr_handler`. -/
def isrState (y : Symbols) (n : Nat) (errCode : Option (BitVec 32)) (s : State) : State :=
  let a := y.idt + BitVec.ofNat 32 (8 * n)
  run (isr n) (s.interrupt (loadHalf s.mem (a + 2#32)) (gateOffset s.mem a) errCode)

theorem deliver_eq (y : Symbols) (code : BitVec 32 → State → State) {n : Nat} (errCode : Option (BitVec 32))
    {s : State} (hn : n < 256) (hgate : Gate y s.mem n) :
    deliver y code n errCode s = some (isrHandler y code (isrState y n errCode s)) := by
  unfold deliver isrState
  dsimp only
  rw [if_pos hgate.type, hgate.offset, stubAt_stub y hn, Option.map_some]

/-- `int_regs_t`, as the callback finds it: the registers of the code that was interrupted. -/
def intRegs (s : State) (n : Nat) (errCode : Option (BitVec 32)) : List (BitVec 32) :=
  [s.reg .edi, s.reg .esi, s.reg .ebp, s.reg .esp - 36#32, s.reg .ebx, s.reg .edx, s.reg .ecx, s.reg .eax]
    ++ ([.ds, .es, .fs, .gs].map fun g => (s.seg g).setWidth 32)
    ++ [(BitVec.ofNat 8 n).signExtend 32, errCode.getD 0, s.eip, (s.seg .cs).setWidth 32, s.eflags]

/-- What the processor and the stub have pushed. -/
theorem isrState_pushes (y : Symbols) {n : Nat} {errCode : Option (BitVec 32)} (s : State) {ws : List (BitVec 32)}
    (hws : [s.eflags, (s.seg .cs).setWidth 32, s.eip] ++ errCode.toList ++ stubWords n = ws)
    (hroom : 4 * ws.length ≤ (s.reg .esp).toNat) :
    let e := isrState y n errCode s
    e.reg .esp = s.reg .esp - BitVec.ofNat 32 (4 * ws.length) ∧ words e.mem (e.reg .esp) ws.length = ws.reverse
      ∧ (∀ r, r ≠ .esp → e.reg r = s.reg r) ∧ (∀ g, g ≠ .cs → e.seg g = s.seg g)
      ∧ ∀ c, c < (s.reg .esp).toNat - 4 * ws.length ∨ (s.reg .esp).toNat ≤ c → e.mem c = s.mem c := by
  obtain ⟨hreg, hmem, hseg⟩ := entry_spec s n (loadHalf s.mem (y.idt + BitVec.ofNat 32 (8 * n) + 2#32))
    (gateOffset s.mem (y.idt + BitVec.ofNat 32 (8 * n))) errCode
  unfold isrState
  dsimp only
  generalize run (isr n) _ = e at *
  rw [hws] at hreg hmem
  have hwords := @State.words_pushes s ws hroom
  rw [← hreg, ← hmem] at hwords
  refine ⟨?_, hwords, fun r hr => ?_, hseg, fun c hc => ?_⟩
  · rw [hreg, State.pushes_esp]
  · rw [hreg, State.pushes_reg _ _ hr]
  · rw [hmem]
    exact @State.pushes_agree s ws hroom c hc

/-- The stub leaves room for an error code where the processor pushes none. -/
theorem isrState_spec (y : Symbols) {n : Nat} {errCode : Option (BitVec 32)} (s : State)
    (hec : n ∈ intrEc ↔ errCode.isSome) (hroom : 20 ≤ (s.reg .esp).toNat) :
    let e := isrState y n errCode s
    e.reg .esp = s.reg .esp - 20#32
      ∧ savedRegs e ++ words e.mem (e.reg .esp) 5 = intRegs s n errCode
      ∧ (∀ r, r ≠ .esp → e.reg r = s.reg r) ∧ (∀ g, g ≠ .cs → e.seg g = s.seg g)
      ∧ ∀ c, c < (s.reg .esp).toNat - 20 ∨ (s.reg .esp).toNat ≤ c → e.mem c = s.mem c := by
  have hpushed : [s.eflags, (s.seg .cs).setWidth 32, s.eip] ++ errCode.toList ++ stubWords n
      = [s.eflags, (s.seg .cs).setWidth 32, s.eip, errCode.getD 0, (BitVec.ofNat 8 n).signExtend 32] := by
    unfold stubWords
    cases errCode with
    | none => simp [show n ∉ intrEc from fun h => by simpa using hec.mp h]
    | some code => simp [hec.mpr rfl]
  obtain ⟨hesp, hwords, hreg, hseg, hkeep⟩ := isrState_pushes y s hpushed hroom
  generalize isrState y n errCode s = e at *
  have haddr : s.reg .esp - 20#32 - 16#32 = s.reg .esp - 36#32 := by bv_omega
  refine ⟨hesp, ?_, hreg, hseg, hkeep⟩
  show savedRegs e ++ words e.mem (e.reg .esp) 5 = _
  have hsp : e.reg .esp = s.reg .esp - 20#32 := hesp
  rw [show words e.mem (e.reg .esp) 5 = _ from hwords]
  simp [savedRegs, intRegs, hreg, hseg, hsp, haddr]

/-- The code that was interrupted goes on as if nothing had happened. -/
structure Unnoticed (s s' : State) : Prop where
  reg : s'.reg = s.reg
  seg : s'.seg = s.seg
  eip : s'.eip = s.eip
  eflags : s'.eflags = s.eflags

/-- What the callback of an interrupt finds on the stack, and nothing else has been written. -/
structure Called (s e : State) (regs : List (BitVec 32)) : Prop where
  esp : e.reg .esp = s.reg .esp - 76#32
  pointer : load e.mem (e.reg .esp + 4#32) = s.reg .esp - 68#32
  regs : words e.mem (s.reg .esp - 68#32) 17 = regs
  same : ∀ c, c < (s.reg .esp).toNat - 76 ∨ (s.reg .esp).toNat ≤ c → e.mem c = s.mem c

/-- The word of the vector that `isr_handler` reads. -/
def vectorEntry (y : Symbols) (m : Mem) (n : Nat) : BitVec 32 :=
  load m y.isrCallPtrVector + (BitVec.ofNat 8 n).signExtend 32 * 4#32

/-- What has been pushed does not change the lookup of the callback. -/
theorem dispatch_of_pushed {y : Symbols} {s e : State} {n j : Nat} (hesp : (e.reg .esp).toNat = (s.reg .esp).toNat - j)
    (hkeep : ∀ c, c < (s.reg .esp).toNat - j ∨ (s.reg .esp).toNat ≤ c → e.mem c = s.mem c)
    (hptr : Clear s (j + 56) y.isrCallPtrVector) (hvector : Clear s (j + 56) (vectorEntry y s.mem n)) :
    Clear e 56 y.isrCallPtrVector
      ∧ Clear e 56 (load e.mem y.isrCallPtrVector + (BitVec.ofNat 8 n).signExtend 32 * 4#32)
      ∧ dispatch y e.mem ((BitVec.ofNat 8 n).signExtend 32) = dispatch y s.mem ((BitVec.ofNat 8 n).signExtend 32) := by
  have hclear : ∀ a, Clear s (j + 56) a → Clear e 56 a ∧ load e.mem a = load s.mem a := by
    intro a ha
    unfold Clear at ha ⊢
    exact ⟨by omega, load_congr fun k hk => hkeep _ (by omega)⟩
  refine ⟨(hclear _ hptr).1, ?_, ?_⟩
  · rw [(hclear _ hptr).2]
    exact (hclear _ hvector).1
  · unfold dispatch
    rw [(hclear _ hptr).2]
    exact congrArg (fun callback => if callback = 0#32 then y.isrFault else callback) (hclear _ hvector).2

/-- An interrupt calls the function of the vector with a pointer to the registers, and returns to the code that was
interrupted. -/
theorem deliver_spec (y : Symbols) (code : BitVec 32 → State → State) {n : Nat} {errCode : Option (BitVec 32)}
    {s : State} (hn : n < 256) (hgate : Gate y s.mem n) (hec : n ∈ intrEc ↔ errCode.isSome)
    (hroom : 76 ≤ (s.reg .esp).toNat) (hptr : Clear s 76 y.isrCallPtrVector)
    (hvector : Clear s 76 (vectorEntry y s.mem n)) :
    let target := dispatch y s.mem ((BitVec.ofNat 8 n).signExtend 32)
    let e := (isrCallback y (isrState y n errCode s)).2
    (isrCallback y (isrState y n errCode s)).1 = target ∧ Called s e (intRegs s n errCode)
      ∧ (Returns e (code target e) → ∃ s', deliver y code n errCode s = some s' ∧ Unnoticed s s'
        ∧ s'.mem = (code target e).mem) := by
  obtain ⟨hesp, hsaved, hreg, hseg, hkeep⟩ := isrState_spec y s hec (by omega)
  rw [deliver_eq y code errCode hn hgate]
  generalize isrState y n errCode s = e₀ at *
  have hnat : (e₀.reg .esp).toNat = (s.reg .esp).toNat - 20 := by
    rw [hesp]
    bv_omega
  -- what has been pushed so far lies below the tables, or above
  obtain ⟨hptr', hvector', hdispatch⟩ := dispatch_of_pushed hnat hkeep hptr hvector
  have hframe : words e₀.mem (e₀.reg .esp) 5 = [(BitVec.ofNat 8 n).signExtend 32, errCode.getD 0, s.eip,
      (s.seg .cs).setWidth 32, s.eflags] :=
    (List.append_inj hsaved rfl).2
  have hroom' : 56 ≤ (e₀.reg .esp).toNat := by omega
  have hfits : (e₀.reg .esp).toNat + 20 ≤ 4294967296 := by
    have := (s.reg .esp).isLt
    omega
  obtain ⟨htarget, hesp', hpointer, hwords, -, hkeep'⟩ := isrCallback_spec y e₀ hframe hroom' hfits hptr' hvector'
  have hrun := isrHandler_spec y code e₀ hframe hroom' hfits hptr' hvector'
  rw [hdispatch] at hrun
  generalize (isrCallback y e₀).2 = e at *
  have hregs : e₀.reg .esp - 48#32 = s.reg .esp - 68#32 := by
    rw [hesp]
    bv_omega
  refine ⟨htarget.trans hdispatch, ⟨?_, ?_, ?_, fun c hc => ?_⟩, fun hreturns => ?_⟩
  · rw [hesp', hesp]
    bv_omega
  · have haddr : e.reg .esp + 4#32 = e₀.reg .esp - 52#32 := by
      rw [hesp']
      bv_omega
    rw [haddr, hpointer, hregs]
  · rw [← hregs, hwords, ← hframe, hsaved]
  · rw [hkeep' c (by omega), hkeep c (by omega)]
  -- `iret` pops what the processor has pushed
  · obtain ⟨hreg', hnew, hseg', hcs, heip, hflags, hmem⟩ := hrun hreturns
    refine ⟨_, rfl, ⟨?_, ?_, heip, hflags⟩, hmem⟩
    · funext r
      by_cases hr : r = .esp
      · rw [hr, hnew, hesp, BitVec.sub_add_cancel]
      · rw [hreg' r hr, hreg r hr]
    · funext g
      by_cases hg : g = .cs
      · rw [hg, hcs]
        simp
      · rw [hseg' g hg, hseg g hg]

/-- A stub that pushes a word in the place of an error code, for an exception that has one: `isr_handler` takes the
error code for the return address. -/
theorem deliver_shifted (y : Symbols) (code : BitVec 32 → State → State) {n : Nat} {errCode : BitVec 32} {s : State}
    (hn : n < 256) (hgate : Gate y s.mem n) (hec : n ∉ intrEc) (hroom : 80 ≤ (s.reg .esp).toNat)
    (hptr : Clear s 80 y.isrCallPtrVector) (hvector : Clear s 80 (vectorEntry y s.mem n)) :
    let target := dispatch y s.mem ((BitVec.ofNat 8 n).signExtend 32)
    let e := (isrCallback y (isrState y n (some errCode) s)).2
    Returns e (code target e) → ∃ s', deliver y code n (some errCode) s = some s' ∧ s'.eip = errCode
      ∧ s'.reg .esp = s.reg .esp - 4#32 := by
  have hpushed : [s.eflags, (s.seg .cs).setWidth 32, s.eip] ++ (some errCode).toList ++ stubWords n
      = [s.eflags, (s.seg .cs).setWidth 32, s.eip, errCode, 0, (BitVec.ofNat 8 n).signExtend 32] := by
    unfold stubWords
    rw [if_neg hec]
    rfl
  obtain ⟨hesp, hwords, -, -, hkeep⟩ := isrState_pushes y s hpushed (show 24 ≤ _ by omega)
  rw [deliver_eq y code (some errCode) hn hgate]
  generalize isrState y n (some errCode) s = e₀ at *
  have hesp' : e₀.reg .esp = s.reg .esp - 24#32 := hesp
  have hnat : (e₀.reg .esp).toNat = (s.reg .esp).toNat - 24 := by
    rw [hesp']
    bv_omega
  obtain ⟨hptr', hvector', hdispatch⟩ := dispatch_of_pushed hnat hkeep hptr hvector
  -- the stub's 0 stands where the error code should, so that the error code stands where `eip` should
  have hframe : words e₀.mem (e₀.reg .esp) 5
      = [(BitVec.ofNat 8 n).signExtend 32, 0, errCode, s.eip, (s.seg .cs).setWidth 32] := by
    have hsix : words e₀.mem (e₀.reg .esp) 5 ++ [load e₀.mem (e₀.reg .esp + BitVec.ofNat 32 (4 * 5))]
        = [(BitVec.ofNat 8 n).signExtend 32, 0, errCode, s.eip, (s.seg .cs).setWidth 32] ++ [s.eflags] :=
      (words_succ' _ _ 5).symm.trans hwords
    exact (List.append_inj hsix (length_words _ _ _)).1
  have hfits : (e₀.reg .esp).toNat + 20 ≤ 4294967296 := by
    have := (s.reg .esp).isLt
    omega
  have hrun := isrHandler_spec y code e₀ hframe (by omega) hfits hptr' hvector'
  rw [hdispatch] at hrun
  generalize (isrCallback y e₀).2 = e at *
  dsimp only
  intro hreturns
  obtain ⟨-, hnew, -, -, heip, -, -⟩ := hrun hreturns
  refine ⟨_, rfl, heip, ?_⟩
  rw [hnew, hesp']
  bv_omega

end DiyOS.Interrupt
