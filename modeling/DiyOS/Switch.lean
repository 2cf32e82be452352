import DiyOS.Lib.Cpu
import DiyOS.Lib.Run

/-!
# Switching tasks (`kernel/x86/switch_to.asm`, `kernel/thread.c`)

`switch_to` leaves the registers that a C function keeps, its return address and `eflags` on the stack of the
running task, and continues with what another task left on its own.
-/

namespace DiyOS.Switch

open Cpu

/-! ## `switch_to`

The instructions of `switch_to.asm`, in three parts: save, exchange the stacks and the directory, restore. -/

/-- The words that `switch_to` leaves on the stack. -/
def switchSave : List Instr := [.pop .eax, .pushf, .push .eax, .push .ebp, .push .edi, .push .esi, .push .ebx]

/-- From one stack to the other; `running_task` stands at the address `runningTask`. -/
def switchStack (runningTask : BitVec 32) : List Instr :=
  [.cli, .load .eax (.abs runningTask), .store (.ind .eax) .esp, .load .eax (.at .esp 24#32),
    .load .ebx (.at .eax 8#32),
    -- `xchg bx, bx`, a breakpoint of the emulator
    .xchg .ebx .ebx,
    .movCr3 .ebx, .store (.abs runningTask) .eax, .load .esp (.ind .eax)]

/-- The words of the other task; `eip` and `eflags` become a frame for `iret`. -/
def switchRestore : List Instr :=
  [.ebx, .esi, .edi, .ebp, .eax].map .pop ++ [.pushSeg .cs, .push .eax]

def switchTo (runningTask : BitVec 32) (s : State) : State :=
  (run (switchSave ++ switchStack runningTask ++ switchRestore) s).iret

/-- What a function that calls `switch_to` finds again when the call returns. -/
structure Context where
  ebx : BitVec 32
  esi : BitVec 32
  edi : BitVec 32
  ebp : BitVec 32
  eip : BitVec 32
  eflags : BitVec 32
  esp : BitVec 32

/-- The context at the entry of `switch_to`. -/
def contextOf (s : State) : Context :=
  ⟨s.reg .ebx, s.reg .esi, s.reg .edi, s.reg .ebp, s.top, s.eflags, s.reg .esp + 4#32⟩

structure Resumed (s : State) (k : Context) : Prop where
  ebx : s.reg .ebx = k.ebx
  esi : s.reg .esi = k.esi
  edi : s.reg .edi = k.edi
  ebp : s.reg .ebp = k.ebp
  eip : s.eip = k.eip
  eflags : s.eflags = k.eflags
  esp : s.reg .esp = k.esp

/-- The stack pointer in the task's record leads to the words of the context. -/
structure Saved (m : Mem) (t : BitVec 32) (k : Context) : Prop where
  kstack : load m t = k.esp - 24#32
  words : words m (k.esp - 24#32) 6 = [k.ebx, k.esi, k.edi, k.ebp, k.eip, k.eflags]

/-! ## The three parts

Saving pushes what the context has; restoring pops it again, and returns with `iret`. -/

theorem run_switchSave (s : State) : run switchSave s
    = ((s.drop 1).setReg .eax s.top).pushes [s.eflags, s.top, s.reg .ebp, s.reg .edi, s.reg .esi, s.reg .ebx] := by
  simp -implicitDefEqProofs [switchSave, exec, State.pushes, State.drop]

/-- The first part saves the context. -/
theorem switchSave_spec (s : State) (hroom : 20 ≤ (s.reg .esp).toNat) (hfits : (s.reg .esp).toNat + 4 < 4294967296) :
    let s' := run switchSave s
    s'.reg .esp = s.reg .esp - 20#32
      ∧ words s'.mem (s.reg .esp - 20#32) 6
        = [s.reg .ebx, s.reg .esi, s.reg .edi, s.reg .ebp, s.top, s.eflags]
      ∧ ∀ c, c < (s.reg .esp).toNat - 20 ∨ (s.reg .esp).toNat + 4 ≤ c → s'.mem c = s.mem c := by
  rw [run_switchSave]
  have hesp : ((s.drop 1).setReg .eax s.top).reg .esp = s.reg .esp + 4#32 := by
    rw [State.setReg_of_ne _ _ (by decide), State.drop_esp]
  have hmem : ((s.drop 1).setReg .eax s.top).mem = s.mem := rfl
  generalize (s.drop 1).setReg .eax s.top = popped at hesp hmem ⊢
  generalize hsaved : [s.eflags, s.top, s.reg .ebp, s.reg .edi, s.reg .esi, s.reg .ebx] = saved
  have hlen : saved.length = 6 := by rw [← hsaved]; rfl
  have hnat : (popped.reg .esp).toNat = (s.reg .esp).toNat + 4 := by
    rw [hesp]
    bv_omega
  have hrev : saved.reverse = [s.reg .ebx, s.reg .esi, s.reg .edi, s.reg .ebp, s.top, s.eflags] := by
    rw [← hsaved]
    rfl
  have hsp : (popped.pushes saved).reg .esp = s.reg .esp - 20#32 := by
    rw [State.pushes_esp, hesp, hlen]
    bv_omega
  have hwords := @State.words_pushes popped saved (by omega)
  rw [hsp, hlen, hrev] at hwords
  refine ⟨hsp, hwords, fun c hc => ?_⟩
  rw [← hmem]
  exact @State.pushes_agree popped saved (by omega) c (by omega)

/-- The second part leaves the stack pointer in one record and takes it from the other. -/
theorem switchStack_eq (runningTask : BitVec 32) (s : State) {a b : BitVec 32} {m₁ m₂ : Mem}
    (ha : load s.mem runningTask = a) (hm₁ : store s.mem a (s.reg .esp) = m₁)
    (hb : load m₁ (s.reg .esp + 24#32) = b) (hm₂ : store m₁ runningTask b = m₂) :
    let s' := run (switchStack runningTask) s
    s'.mem = m₂ ∧ s'.cr3 = load m₁ (b + 8#32) ∧ s'.reg .esp = load m₂ b ∧ s'.seg = s.seg := by
  subst ha hm₁ hb hm₂
  exact ⟨rfl, rfl, rfl, rfl⟩

theorem run_switchRestore (s : State) {q : State} (hq : run ([.ebx, .esi, .edi, .ebp, .eax].map .pop) s = q) :
    run switchRestore s = q.pushes [(q.seg .cs).setWidth 32, q.reg .eax] := by
  unfold switchRestore
  rw [run_append, hq]
  simp -implicitDefEqProofs [exec, State.pushes]

/-- The third part takes the context from the stack. -/
theorem switchRestore_spec (s : State) {k : Context} (hesp : s.reg .esp = k.esp - 24#32)
    (hroom : 24 ≤ k.esp.toNat)
    (hwords : words s.mem (k.esp - 24#32) 6 = [k.ebx, k.esi, k.edi, k.ebp, k.eip, k.eflags]) :
    let s' := (run switchRestore s).iret
    Resumed s' k ∧ s'.cr3 = s.cr3
      ∧ ∀ c, c < k.esp.toNat - 12 ∨ k.esp.toNat - 4 ≤ c → s'.mem c = s.mem c := by
  obtain ⟨hregs, hsp, -, hmem, -, hcr3⟩ := @run_pops s [.ebx, .esi, .edi, .ebp, .eax] (by decide) (by decide)
  generalize hq : run ([.ebx, .esi, .edi, .ebp, .eax].map .pop) s = q at hregs hsp hmem hcr3
  rw [run_switchRestore s hq]
  have hqsp : q.reg .esp = k.esp - 4#32 := by
    rw [hsp, hesp]
    show k.esp - 24#32 + 20#32 = _
    bv_omega
  -- of the six words, five are popped into registers, and the flags are on top
  have hsix : words s.mem (k.esp - 24#32) 6
      = words s.mem (k.esp - 24#32) 5 ++ [load s.mem (k.esp - 24#32 + BitVec.ofNat 32 (4 * 5))] :=
    words_succ' s.mem _ 5
  have hfive : words s.mem (k.esp - 24#32) 5 = [k.ebx, k.esi, k.edi, k.ebp, k.eip] :=
    (List.append_inj (hsix.symm.trans hwords) (length_words _ _ _)).1
  rw [hesp] at hregs
  obtain ⟨hebx, hesi, hedi, hebp, heax⟩ : q.reg .ebx = k.ebx ∧ q.reg .esi = k.esi ∧ q.reg .edi = k.edi
      ∧ q.reg .ebp = k.ebp ∧ q.reg .eax = k.eip := by
    simpa using hregs.trans hfive
  have htop : q.top = k.eflags := by
    have hlast := load_of_words (i := 5) hwords rfl
    unfold State.top
    rw [hqsp, hmem, ← hlast]
    exact congrArg (load s.mem) (by bv_omega)
  obtain ⟨heip, -, hflags, hnew, hkeep, hcr3', hmem'⟩ :=
    @iret_pushes q (q.seg .cs) (q.reg .eax) (by rw [hqsp]; bv_omega)
  refine ⟨⟨?_, ?_, ?_, ?_, ?_, ?_, ?_⟩, hcr3'.trans hcr3, fun c hc => ?_⟩
  · rw [hkeep _ (by decide), hebx]
  · rw [hkeep _ (by decide), hesi]
  · rw [hkeep _ (by decide), hedi]
  · rw [hkeep _ (by decide), hebp]
  · rw [heip, heax]
  · rw [hflags, htop]
  · rw [hnew, hqsp, BitVec.sub_add_cancel]
  · have hqnat : (q.reg .esp).toNat = k.esp.toNat - 4 := by
      rw [hqsp]
      bv_omega
    rw [hmem', @State.pushes_agree q _ (show 8 ≤ _ by omega) c (show c < _ - 8 ∨ _ by omega), hmem]

/-! ## Tasks in memory

A task that does not run has its context on its stack. A task owns its record and its stack, and the records of
two tasks do not overlap. -/

/-- The variable `running_task`, the records of the tasks, and their stacks. Before the first switch
`running_task` is `NULL`: the code that boots the kernel counts as a task there. -/
structure Places where
  runningTask : BitVec 32
  boot : BitVec 32
  tasks : List (BitVec 32)
  lo : BitVec 32 → Nat
  hi : BitVec 32 → Nat

/-- The bytes that only the task itself changes: `kstack`, `pagedir` and the stack. -/
def Places.Owns (L : Places) (t : BitVec 32) (c : Nat) : Prop :=
  (t.toNat ≤ c ∧ c < t.toNat + 4) ∨ (t.toNat + 8 ≤ c ∧ c < t.toNat + 12) ∨ (L.lo t ≤ c ∧ c < L.hi t)

structure Layout extends Places where
  boot_not_mem : boot ∉ tasks
  running_fits : runningTask.toNat + 4 ≤ 4294967296
  record_fits : ∀ t ∈ boot :: tasks, t.toNat + 12 ≤ 4294967296
  stack_fits : ∀ t ∈ boot :: tasks, hi t < 4294967296
  running_record : ∀ t ∈ boot :: tasks, t.toNat + 12 ≤ runningTask.toNat ∨ runningTask.toNat + 4 ≤ t.toNat
  running_stack : ∀ t ∈ boot :: tasks, hi t ≤ runningTask.toNat ∨ runningTask.toNat + 4 ≤ lo t
  record_stack : ∀ t ∈ boot :: tasks, ∀ u ∈ boot :: tasks, t.toNat + 12 ≤ lo u ∨ hi u ≤ t.toNat
  record_record : ∀ t ∈ boot :: tasks, ∀ u ∈ boot :: tasks, t ≠ u → t.toNat + 12 ≤ u.toNat ∨ u.toNat + 12 ≤ t.toNat
  stack_stack : ∀ t ∈ boot :: tasks, ∀ u ∈ boot :: tasks, t ≠ u → hi t ≤ lo u ∨ hi u ≤ lo t

namespace Layout

variable {L : Layout} {m m' : Mem} {s : State} {t a b : BitVec 32} {k : Context}

def running (L : Layout) (s : State) : BitVec 32 := load s.mem L.runningTask

/-- The task has left the context on its stack. -/
structure Suspended (L : Layout) (m : Mem) (t : BitVec 32) (k : Context) : Prop where
  saved : Saved m t k
  low : L.lo t + 24 ≤ k.esp.toNat
  high : k.esp.toNat ≤ L.hi t

theorem Suspended.congr (h : L.Suspended m t k) (hkeep : ∀ c, L.Owns t c → m' c = m c) : L.Suspended m' t k := by
  obtain ⟨hsaved, hlow, hhigh⟩ := h
  have hsp : (k.esp - 24#32).toNat = k.esp.toNat - 24 := by bv_omega
  refine ⟨⟨?_, ?_⟩, hlow, hhigh⟩
  · rw [← hsaved.kstack]
    exact load_congr fun i hi => hkeep _ (Or.inl (by omega))
  · rw [← hsaved.words]
    refine words_congr (by have := k.esp.isLt; omega) fun i hi => hkeep _ (Or.inr (Or.inr ?_))
    omega

theorem Suspended.unique {k' : Context} (h : L.Suspended m t k) (h' : L.Suspended m t k') : k = k' := by
  have hsp : k.esp = k'.esp := by
    have hsame := h.saved.kstack.symm.trans h'.saved.kstack
    bv_omega
  have hwords := h.saved.words
  rw [hsp, h'.saved.words] at hwords
  cases k
  cases k'
  simp_all

/-- `switch_to(b)` is called with room on the stack. -/
structure Calls (L : Layout) (s : State) (b : BitVec 32) : Prop where
  arg : load s.mem (s.reg .esp + 4#32) = b
  low : L.lo (L.running s) + 20 ≤ (s.reg .esp).toNat
  high : (s.reg .esp).toNat + 8 ≤ L.hi (L.running s)

/-- Leaving a task: its context is saved, and `running_task` is the other one. -/
theorem leave_spec (ha : L.running s ∈ L.boot :: L.tasks) (hb : b ∈ L.tasks) (hcall : L.Calls s b) :
    let q := run (switchSave ++ switchStack L.runningTask) s
    q.reg .esp = load q.mem b ∧ q.cr3 = load s.mem (b + 8#32) ∧ L.running q = b
      ∧ L.Suspended q.mem (L.running s) (contextOf s)
      ∧ ∀ c, (c < (s.reg .esp).toNat - 20 ∨ (s.reg .esp).toNat + 4 ≤ c) →
        (c < (L.running s).toNat ∨ (L.running s).toNat + 4 ≤ c) →
        (c < L.runningTask.toNat ∨ L.runningTask.toNat + 4 ≤ c) → q.mem c = s.mem c := by
  obtain ⟨harg, hlow, hhigh⟩ := hcall
  have hrunning : load s.mem L.runningTask = L.running s := rfl
  generalize L.running s = a at *
  have hafits := L.record_fits a ha
  have hahi := L.stack_fits a ha
  have hastack := L.record_stack a ha a ha
  have hbfits := L.record_fits b (List.mem_cons_of_mem _ hb)
  have hbstack := L.record_stack b (List.mem_cons_of_mem _ hb) a ha
  have hrfits := L.running_fits
  have hrrecord := L.running_record a ha
  have hrstack := L.running_stack a ha
  obtain ⟨hsp, hwords, hsave⟩ := switchSave_spec s (by omega) (by omega)
  generalize hp : run switchSave s = p at hsp hwords hsave
  have hspnat : (s.reg .esp - 20#32).toNat = (s.reg .esp).toNat - 20 := by bv_omega
  have hargnat : (s.reg .esp + 4#32).toNat = (s.reg .esp).toNat + 4 := by bv_omega
  have hpagenat : (b + 8#32).toNat = b.toNat + 8 := by bv_omega
  -- the record of `b` is that of `a`, or lies elsewhere
  have hpage : (b + 8#32).toNat + 4 ≤ a.toNat ∨ a.toNat + 4 ≤ (b + 8#32).toNat := by
    by_cases heq : b = a
    · rw [heq] at hpagenat ⊢
      omega
    · have hrecords := L.record_record b (List.mem_cons_of_mem _ hb) a ha heq
      omega
  have hcur : load p.mem L.runningTask = a := by
    rw [← hrunning]
    exact load_congr fun i hi => hsave _ (by omega)
  have hb' : load (store p.mem a (p.reg .esp)) (p.reg .esp + 24#32) = b := by
    have haddr : p.reg .esp + 24#32 = s.reg .esp + 4#32 := by
      rw [hsp]
      bv_omega
    rw [haddr, load_store_of_disjoint _ _ (by omega), ← harg]
    exact load_congr fun i hi => hsave _ (by omega)
  obtain ⟨hmem, hcr3, hesp, -⟩ := switchStack_eq L.runningTask p hcur rfl hb' rfl
  rw [run_append, hp]
  have hkeep : ∀ c, (c < (s.reg .esp).toNat - 20 ∨ (s.reg .esp).toNat + 4 ≤ c) → (c < a.toNat ∨ a.toNat + 4 ≤ c) →
      (c < L.runningTask.toNat ∨ L.runningTask.toNat + 4 ≤ c) →
      (run (switchStack L.runningTask) p).mem c = s.mem c := by
    intro c hframe hrecord hvar
    rw [hmem, store_of_outside _ _ hvar, store_of_outside _ _ hrecord, hsave c hframe]
  have hesp' : (contextOf s).esp - 24#32 = s.reg .esp - 20#32 := by
    show s.reg .esp + 4#32 - 24#32 = _
    bv_omega
  refine ⟨hesp.trans (congrArg (load · b) hmem.symm), ?_, ?_, ⟨⟨?_, ?_⟩, ?_, ?_⟩, hkeep⟩
  · rw [hcr3, load_store_of_disjoint _ _ (by omega)]
    exact load_congr fun i hi => hsave _ (by omega)
  · show load _ L.runningTask = b
    rw [hmem, load_store]
  · rw [hmem, load_store_of_disjoint _ _ (by omega), load_store, hsp, hesp']
  · rw [hesp']
    refine Eq.trans (words_congr (by omega) fun i hi => ?_) hwords
    rw [hmem, store_of_outside _ _ (by omega), store_of_outside _ _ (by omega)]
  · show _ ≤ (s.reg .esp + 4#32).toNat
    omega
  · show (s.reg .esp + 4#32).toNat ≤ _
    omega

/-- **A switch.** The task that is switched to resumes, the one that is left has left its context, and nothing
else is written but the frame for `iret`. -/
theorem switchTo_spec (ha : L.running s ∈ L.boot :: L.tasks) (hb : b ∈ L.tasks) (hcall : L.Calls s b)
    (hself : b = L.running s → k = contextOf s) (hother : b ≠ L.running s → L.Suspended s.mem b k) :
    let s' := switchTo L.runningTask s
    Resumed s' k ∧ L.running s' = b ∧ s'.cr3 = load s.mem (b + 8#32)
      ∧ (b ≠ L.running s → L.Suspended s'.mem (L.running s) (contextOf s))
      ∧ ∀ c, (c < (s.reg .esp).toNat - 20 ∨ (s.reg .esp).toNat + 4 ≤ c) →
        (c < (L.running s).toNat ∨ (L.running s).toNat + 4 ≤ c) →
        (c < L.runningTask.toNat ∨ L.runningTask.toNat + 4 ≤ c) →
        (c < k.esp.toNat - 12 ∨ k.esp.toNat - 4 ≤ c) → s'.mem c = s.mem c := by
  obtain ⟨hesp, hcr3, hrunning, hleft, hkeep⟩ := leave_spec ha hb hcall
  generalize hq : run (switchSave ++ switchStack L.runningTask) s = q at hesp hcr3 hrunning hleft hkeep
  have hb' := List.mem_cons_of_mem L.boot hb
  have hswitch : switchTo L.runningTask s = (run switchRestore q).iret := by
    rw [switchTo, run_append, hq]
  have hsuspended : L.Suspended q.mem b k := by
    by_cases heq : b = L.running s
    · rw [hself heq, heq]
      exact hleft
    · refine (hother heq).congr fun c hc => hkeep c ?_ ?_ ?_
      · have hstack := L.stack_stack b hb' _ ha heq
        have hrecord := L.record_stack b hb' _ ha
        obtain ⟨-, hlow, hhigh⟩ := hcall
        unfold Places.Owns at hc
        omega
      · have hrecord := L.record_stack _ ha b hb'
        have hrecords := L.record_record b hb' _ ha heq
        unfold Places.Owns at hc
        omega
      · have hrecord := L.running_record b hb'
        have hstack := L.running_stack b hb'
        unfold Places.Owns at hc
        omega
  obtain ⟨⟨hkstack, hwords⟩, hlow, hhigh⟩ := hsuspended
  obtain ⟨hresumed, hcr3', hmem⟩ := switchRestore_spec q (hesp.trans hkstack) (by omega) hwords
  rw [hswitch]
  refine ⟨hresumed, ?_, hcr3'.trans hcr3, fun hne => hleft.congr fun c hc => hmem c ?_, fun c h₁ h₂ h₃ h₄ => ?_⟩
  · rw [← hrunning]
    have hstack := L.running_stack b hb'
    exact load_congr fun i hi => hmem _ (by omega)
  · have hstack := L.stack_stack b hb' _ ha hne
    have hrecord := L.record_stack _ ha b hb'
    unfold Places.Owns at hc
    omega
  · rw [hmem c h₄, hkeep c h₁ h₂ h₃]

end Layout

/-! ## Runs

A run is work, creations of threads and switches. What a task owns is left alone by the others; so its context
waits, until a switch goes back to it. -/

/-- The part of `thread_create` that `switch_to` depends on; `stackMem` is the block of the stack. -/
def threadCreate (m : Mem) (t stackMem initIp cr3 : BitVec 32) : Mem :=
  let kstack := stackMem + 4096#32 - 24#32
  let m := store m (t + 8#32) cr3
  let m := store m t kstack
  let m := store m (kstack + 16#32) initIp
  store m (kstack + 20#32) 0x202#32

/-- The machine, and the tasks that have been created. -/
structure Threads where
  cpu : State
  created : List (BitVec 32)

/-- `work` is all that the running task does between calls of the other two. -/
inductive ThreadEvent where
  | work
  | create (t initIp : BitVec 32)
  | switchTo (t : BitVec 32)
  deriving DecidableEq

namespace Layout

variable {L : Layout} {m m' : Mem} {s s' : Threads} {t a b : BitVec 32} {k : Context} {c : Nat} {e : ThreadEvent}

/-- The running task changes no other task's `kstack`, `pagedir` and stack, and neither `running_task` nor `cr3`. -/
def Step (L : Layout) (s : Threads) : ThreadEvent → Threads → Prop
  | .work, s' =>
    s'.created = s.created ∧ L.running s'.cpu = L.running s.cpu ∧ s'.cpu.cr3 = s.cpu.cr3
      ∧ (∀ t ∈ s.created, load s'.cpu.mem (t + 8#32) = load s.cpu.mem (t + 8#32))
      ∧ ∀ t ∈ s.created, t ≠ L.running s.cpu → ∀ c, L.Owns t c → s'.cpu.mem c = s.cpu.mem c
  | .create t initIp, s' =>
    t ∈ L.tasks ∧ t ∉ s.created ∧ L.hi t = L.lo t + 4096
      ∧ s' = ⟨{ s.cpu with mem := threadCreate s.cpu.mem t (BitVec.ofNat 32 (L.lo t)) initIp s.cpu.cr3 },
        t :: s.created⟩
  | .switchTo b, s' =>
    b ∈ s.created ∧ L.Calls s.cpu b ∧ s' = ⟨switchTo L.runningTask s.cpu, s.created⟩

structure Ready (L : Layout) (s : Threads) : Prop where
  running : L.running s.cpu ∈ L.boot :: s.created
  created : ∀ t ∈ s.created, t ∈ L.tasks
  pagedir : ∀ t ∈ s.created, load s.cpu.mem (t + 8#32) = s.cpu.cr3
  suspended : ∀ t ∈ s.created, t ≠ L.running s.cpu → ∃ k, L.Suspended s.cpu.mem t k

theorem not_owns {u : BitVec 32} (ht : t ∈ L.boot :: L.tasks) (hu : u ∈ L.boot :: L.tasks) (hne : t ≠ u)
    (h : L.Owns t c) : ¬ L.Owns u c := by
  have hrecords := L.record_record t ht u hu hne
  have hstacks := L.stack_stack t ht u hu hne
  have htu := L.record_stack t ht u hu
  have hut := L.record_stack u hu t ht
  unfold Places.Owns at h ⊢
  omega

theorem running_of_not_owns (ht : t ∈ L.boot :: L.tasks) (hkeep : ∀ c, ¬ L.Owns t c → m' c = m c) :
    load m' L.runningTask = load m L.runningTask := by
  have hrecord := L.running_record t ht
  have hstack := L.running_stack t ht
  refine load_congr fun i hi => hkeep _ ?_
  unfold Places.Owns
  omega

/-- A created task is suspended at the start of its function, with interrupts enabled and an empty stack. -/
theorem threadCreate_spec (m : Mem) (ht : t ∈ L.boot :: L.tasks) (hsize : L.hi t = L.lo t + 4096)
    (initIp cr3 : BitVec 32) :
    let m' := threadCreate m t (BitVec.ofNat 32 (L.lo t)) initIp cr3
    (∃ k, L.Suspended m' t k ∧ k.eip = initIp ∧ k.eflags = 0x202#32 ∧ k.esp.toNat = L.hi t)
      ∧ load m' (t + 8#32) = cr3 ∧ ∀ c, ¬ L.Owns t c → m' c = m c := by
  have hfits := L.record_fits t ht
  have hhi := L.stack_fits t ht
  have hstack := L.record_stack t ht t ht
  have hlo : (BitVec.ofNat 32 (L.lo t)).toNat = L.lo t := by
    rw [BitVec.toNat_ofNat]
    omega
  generalize BitVec.ofNat 32 (L.lo t) = lo at hlo
  have htop : (lo + 4096#32).toNat = L.hi t := by bv_omega
  have hkstack : (lo + 4096#32 - 24#32).toNat = L.hi t - 24 := by bv_omega
  have heip : (lo + 4096#32 - 24#32 + 16#32).toNat = L.hi t - 8 := by bv_omega
  have hflags : (lo + 4096#32 - 24#32 + 20#32).toNat = L.hi t - 4 := by bv_omega
  have hpage : (t + 8#32).toNat = t.toNat + 8 := by bv_omega
  have hunfold : threadCreate m t lo initIp cr3
      = store (store (store (store m (t + 8#32) cr3) t (lo + 4096#32 - 24#32)) (lo + 4096#32 - 24#32 + 16#32) initIp)
        (lo + 4096#32 - 24#32 + 20#32) 0x202#32 := rfl
  rw [hunfold]
  generalize lo + 4096#32 = top at *
  generalize hm₁ : store (store m (t + 8#32) cr3) t (top - 24#32) = m₁
  -- `thread_create` leaves the words of the other registers as the heap returns them
  obtain ⟨ebx, esi, edi, ebp, hsaved⟩ : ∃ ebx esi edi ebp, words m₁ (top - 24#32) 4 = [ebx, esi, edi, ebp] :=
    ⟨_, _, _, _, rfl⟩
  refine ⟨⟨⟨ebx, esi, edi, ebp, initIp, 0x202#32, top⟩, ⟨⟨?_, ?_⟩, ?_, ?_⟩, rfl, rfl, htop⟩, ?_, fun c hc => ?_⟩
  · rw [load_store_of_disjoint _ _ (by omega), load_store_of_disjoint _ _ (by omega), ← hm₁, load_store]
  · show words _ (top - 24#32) (4 + 1 + 1) = [ebx, esi, edi, ebp] ++ [initIp] ++ [0x202#32]
    rw [words_succ', words_succ']
    show _ ++ [load _ (top - 24#32 + 16#32)] ++ [load _ (top - 24#32 + 20#32)] = _
    rw [← hsaved, load_store, load_store_of_disjoint _ _ (by omega), load_store]
    refine congrArg (· ++ _ ++ _) (words_congr (by omega) fun i hi => ?_)
    rw [store_of_outside _ _ (by omega), store_of_outside _ _ (by omega)]
  · show L.lo t + 24 ≤ top.toNat
    omega
  · show top.toNat ≤ L.hi t
    omega
  · rw [load_store_of_disjoint _ _ (by omega), load_store_of_disjoint _ _ (by omega), ← hm₁,
      load_store_of_disjoint _ _ (by omega), load_store]
  · unfold Places.Owns at hc
    rw [store_of_outside _ _ (by omega), store_of_outside _ _ (by omega), ← hm₁, store_of_outside _ _ (by omega),
      store_of_outside _ _ (by omega)]

theorem load_pagedir (ht : t ∈ L.boot :: L.tasks) (hkeep : ∀ i < 4, m' (t.toNat + 8 + i) = m (t.toNat + 8 + i)) :
    load m' (t + 8#32) = load m (t + 8#32) := by
  have hfits := L.record_fits t ht
  have hpage : (t + 8#32).toNat = t.toNat + 8 := by bv_omega
  refine load_congr fun i hi => ?_
  rw [hpage]
  exact hkeep i hi

/-- A switch in a run. -/
theorem Ready.switch (hs : L.Ready s) (hb : b ∈ s.created) (hcall : L.Calls s.cpu b) :
    let s' := switchTo L.runningTask s.cpu
    ∃ k, Resumed s' k ∧ (b = L.running s.cpu → k = contextOf s.cpu)
      ∧ (b ≠ L.running s.cpu → L.Suspended s.cpu.mem b k) ∧ L.running s' = b ∧ s'.cr3 = s.cpu.cr3
      ∧ (b ≠ L.running s.cpu → L.Suspended s'.mem (L.running s.cpu) (contextOf s.cpu))
      ∧ (∀ t ∈ s.created, load s'.mem (t + 8#32) = load s.cpu.mem (t + 8#32))
      ∧ (∀ t ∈ s.created, t ≠ L.running s.cpu → t ≠ b → ∀ c, L.Owns t c → s'.mem c = s.cpu.mem c)
      ∧ ∀ t ∈ L.boot :: s.created, ∀ c, L.lo t ≤ c ∧ c < L.hi t →
        (t = L.running s.cpu → c < (s.cpu.reg .esp).toNat - 20 ∨ (s.cpu.reg .esp).toNat + 4 ≤ c) →
        (t = b → c < k.esp.toNat - 12 ∨ k.esp.toNat - 4 ≤ c) → s'.mem c = s.cpu.mem c := by
  have htasks : ∀ t ∈ L.boot :: s.created, t ∈ L.boot :: L.tasks :=
    List.cons_subset_cons _ hs.created
  have ha := htasks _ hs.running
  have hb' := hs.created b hb
  obtain ⟨k, hself, hother⟩ : ∃ k, (b = L.running s.cpu → k = contextOf s.cpu)
      ∧ (b ≠ L.running s.cpu → L.Suspended s.cpu.mem b k) := by
    by_cases heq : b = L.running s.cpu
    · exact ⟨_, fun _ => rfl, fun hne => absurd heq hne⟩
    · obtain ⟨k, hk⟩ := hs.suspended b hb heq
      exact ⟨k, fun h => absurd h heq, fun _ => hk⟩
  obtain ⟨hresumed, hrunning, hcr3, hleft, hkeep⟩ := switchTo_spec ha hb' hcall hself hother
  obtain ⟨-, hlow, hhigh⟩ := hcall
  -- the frame of `iret` lies on the stack of `b`
  have hframe : L.lo b + 12 ≤ k.esp.toNat ∧ k.esp.toNat ≤ L.hi b := by
    by_cases heq : b = L.running s.cpu
    · have hesp : (s.cpu.reg .esp + 4#32).toNat = (s.cpu.reg .esp).toNat + 4 := by
        have := L.stack_fits _ ha
        bv_omega
      rw [hself heq, heq]
      show _ ≤ (s.cpu.reg .esp + 4#32).toNat ∧ (s.cpu.reg .esp + 4#32).toNat ≤ _
      omega
    · obtain ⟨-, hlow, hhigh⟩ := hother heq
      omega
  have hb'' := List.mem_cons_of_mem L.boot hb'
  refine ⟨k, hresumed, hself, hother, hrunning, hcr3.trans (hs.pagedir b hb), hleft, ?_, ?_, ?_⟩
  · intro t ht
    have ht' := htasks t (List.mem_cons_of_mem _ ht)
    have hta := L.record_stack t ht' _ ha
    have htb := L.record_stack t ht' b hb''
    have htr := L.running_record t ht'
    have hrecords := L.record_record t ht' _ ha
    refine load_pagedir ht' fun i hi => hkeep _ (by omega) ?_ (by omega) (by omega)
    by_cases heq : t = L.running s.cpu
    · rw [← heq]
      omega
    · have := hrecords heq
      omega
  · intro t ht hta htb c hc
    have ht' := htasks t (List.mem_cons_of_mem _ ht)
    have hnota := not_owns ht' ha hta hc
    have hnotb := not_owns ht' hb'' htb hc
    have hrecord := L.running_record t ht'
    have hstack := L.running_stack t ht'
    unfold Places.Owns at hc hnota hnotb
    exact hkeep c (by omega) (by omega) (by omega) (by omega)
  · intro t ht c hc hina hinb
    have ht' := htasks t ht
    have hrecord := L.record_stack _ ha t ht'
    have hrunning := L.running_stack t ht'
    refine hkeep c ?_ (by omega) (by omega) ?_
    · by_cases heq : t = L.running s.cpu
      · exact hina heq
      · have := L.stack_stack t ht' _ ha heq
        omega
    · by_cases heq : t = b
      · exact hinb heq
      · have := L.stack_stack t ht' b hb'' heq
        omega

/-- A task that neither runs nor is switched to keeps what is its own. -/
theorem step_keeps (hs : L.Ready s) (hstep : L.Step s e s') (ht : t ∈ s.created) (hne : t ≠ L.running s.cpu)
    (hback : e ≠ .switchTo t) :
    t ∈ s'.created ∧ t ≠ L.running s'.cpu ∧ ∀ c, L.Owns t c → s'.cpu.mem c = s.cpu.mem c := by
  cases e with
  | work =>
    obtain ⟨hcreated, hrunning, -, -, hkeep⟩ := hstep
    rw [hcreated, hrunning]
    exact ⟨ht, hne, hkeep t ht hne⟩
  | create u initIp =>
    obtain ⟨hu, hnew, hsize, rfl⟩ := hstep
    have hu' := List.mem_cons_of_mem L.boot hu
    obtain ⟨-, -, hkeep⟩ := threadCreate_spec s.cpu.mem hu' hsize initIp s.cpu.cr3
    have htu : t ≠ u := fun h => hnew (h ▸ ht)
    refine ⟨List.mem_cons_of_mem _ ht, ?_, fun c hc => hkeep c ?_⟩
    · rw [show L.running _ = L.running s.cpu from running_of_not_owns hu' hkeep]
      exact hne
    · exact not_owns (List.mem_cons_of_mem _ (hs.created t ht)) hu' htu hc
  | switchTo b =>
    obtain ⟨hb, hcall, rfl⟩ := hstep
    obtain ⟨k, -, -, -, hrunning, -, -, -, hkeep, -⟩ := hs.switch hb hcall
    have htb : t ≠ b := fun h => hback (congrArg _ h.symm)
    exact ⟨ht, hrunning.symm ▸ htb, hkeep t ht hne htb⟩

/-- **The step.** A switch or a creation leaves the tasks in order. -/
theorem step_ready (hs : L.Ready s) (hstep : L.Step s e s') : L.Ready s' ∧ s'.cpu.cr3 = s.cpu.cr3 := by
  -- a task that waits before and after the step has left the same words
  have hwait : ∀ t ∈ s.created, t ≠ L.running s.cpu → e ≠ .switchTo t → ∃ k, L.Suspended s'.cpu.mem t k := by
    intro t ht hne hback
    obtain ⟨k, hk⟩ := hs.suspended t ht hne
    exact ⟨k, hk.congr (step_keeps hs hstep ht hne hback).2.2⟩
  cases e with
  | work =>
    obtain ⟨hcreated, hrunning, hcr3, hpages, -⟩ := hstep
    refine ⟨⟨?_, ?_, fun t ht => ?_, fun t ht hne => ?_⟩, hcr3⟩
    · rw [hrunning, hcreated]
      exact hs.running
    · rw [hcreated]
      exact hs.created
    · rw [hcreated] at ht
      rw [hpages t ht, hcr3, hs.pagedir t ht]
    · rw [hcreated] at ht
      rw [hrunning] at hne
      exact hwait t ht hne (by simp)
  | create u initIp =>
    obtain ⟨hu, hnew, hsize, hs'⟩ := hstep
    have hu' := List.mem_cons_of_mem L.boot hu
    obtain ⟨⟨k, hk, -⟩, hpage, hkeep⟩ := threadCreate_spec s.cpu.mem hu' hsize initIp s.cpu.cr3
    generalize threadCreate s.cpu.mem u _ initIp s.cpu.cr3 = m' at *
    subst hs'
    have hrunning : load m' L.runningTask = L.running s.cpu := running_of_not_owns hu' hkeep
    refine ⟨⟨?_, ?_, fun t ht => ?_, fun t ht hne => ?_⟩, rfl⟩
    · show load m' L.runningTask ∈ _
      rw [hrunning]
      exact List.cons_subset_cons _ (List.subset_cons_self u s.created) hs.running
    · exact List.forall_mem_cons.mpr ⟨hu, hs.created⟩
    · rcases List.mem_cons.mp ht with rfl | ht
      · exact hpage
      · have ht' := List.mem_cons_of_mem L.boot (hs.created t ht)
        rw [← hs.pagedir t ht]
        refine load_pagedir ht' fun i hi => hkeep _ (not_owns ht' hu' (fun h => hnew (h ▸ ht)) ?_)
        exact Or.inr (Or.inl (by omega))
    · change t ≠ load m' L.runningTask at hne
      rw [hrunning] at hne
      rcases List.mem_cons.mp ht with rfl | ht
      · exact ⟨k, hk⟩
      · exact hwait t ht hne (by simp)
  | switchTo b =>
    obtain ⟨hb, hcall, rfl⟩ := hstep
    obtain ⟨-, -, -, -, hrunning, hcr3, hleft, hpages, -⟩ := hs.switch hb hcall
    refine ⟨⟨?_, hs.created, fun t ht => ?_, fun t ht hne => ?_⟩, hcr3⟩
    · rw [hrunning]
      exact List.mem_cons_of_mem _ hb
    · rw [hpages t ht, hcr3, hs.pagedir t ht]
    · rw [hrunning] at hne
      by_cases hcur : t = L.running s.cpu
      · subst hcur
        exact ⟨_, hleft (Ne.symm hne)⟩
      · exact hwait t ht hcur (by simpa using Ne.symm hne)

/-- `t` waits with the context `k`, and what is its own is as in `m`. -/
structure Waits (L : Layout) (m : Mem) (t : BitVec 32) (k : Context) (s : Threads) : Prop where
  ready : L.Ready s
  created : t ∈ s.created
  notRunning : t ≠ L.running s.cpu
  suspended : L.Suspended s.cpu.mem t k
  same : ∀ c, L.Owns t c → s.cpu.mem c = m c

theorem Waits.step (h : L.Waits m t k s) (hstep : L.Step s e s') (hback : e ≠ .switchTo t) : L.Waits m t k s' := by
  obtain ⟨hcreated, hrunning, hkeep⟩ := step_keeps h.ready hstep h.created h.notRunning hback
  exact ⟨(step_ready h.ready hstep).1, hcreated, hrunning, h.suspended.congr hkeep,
    fun c hc => (hkeep c hc).trans (h.same c hc)⟩

theorem run_ready {tr : List (Transition Threads ThreadEvent)} (hs : L.Ready s) (hrun : Run L.Step s tr s') :
    L.Ready s' ∧ s'.cpu.cr3 = s.cpu.cr3 :=
  hrun.invariant (I := fun x => L.Ready x ∧ x.cpu.cr3 = s.cpu.cr3) ⟨hs, rfl⟩ fun _ _ _ h hstep =>
    (step_ready h.1 hstep).imp_right (·.trans h.2)

/-- **The beginning.** Nothing but the boot code runs. -/
theorem ready_of_boot (hboot : L.running s.cpu = L.boot) (hnone : s.created = []) : L.Ready s := by
  refine ⟨?_, ?_, ?_, ?_⟩
  · rw [hboot]
    exact List.mem_cons_self
  all_goals simp [hnone]

/-- The transition that switches to the task. -/
def SwitchesTo (t : BitVec 32) (τ : Transition Threads ThreadEvent) : Bool := decide (τ.event = .switchTo t)

/-- A task that waits resumes its context at the first switch to it. -/
theorem Waits.resumes {tr : List (Transition Threads ThreadEvent)} {back : Transition Threads ThreadEvent}
    (hw : L.Waits m t k s) (hrun : Run L.Step s tr s') (hback : tr.find? (SwitchesTo t) = some back) :
    Resumed back.post.cpu k ∧ L.running back.post.cpu = t ∧ back.post.cpu.cr3 = s.cpu.cr3
      ∧ ∀ c, L.lo t ≤ c ∧ c < L.hi t → c < k.esp.toNat - 12 ∨ k.esp.toNat - 4 ≤ c →
        back.post.cpu.mem c = m c := by
  obtain ⟨hswitch, between, rest, rfl, hbetween⟩ := List.find?_eq_some_iff_append.mp hback
  obtain ⟨x, hbefore, hafter⟩ := hrun.of_append
  obtain ⟨rfl, hstep, -⟩ := hafter.cons_inv
  have hwait : L.Waits m t k back.pre := by
    refine hbefore.invariant_of_all (C := fun τ => τ.event ≠ .switchTo t) hw
      (fun _ _ _ h hstep hne => h.step hstep hne) fun τ hτ heq => ?_
    have hne := hbetween τ hτ
    simp [SwitchesTo, heq] at hne
  have hcr3 := (run_ready hw.ready hbefore).2
  rw [of_decide_eq_true hswitch] at hstep
  obtain ⟨hb, hcall, hpost⟩ := hstep
  obtain ⟨k', hresumed, -, hother, hrunning, hcr3', -, -, -, hstack⟩ := hwait.ready.switch hb hcall
  obtain rfl := (hother hwait.notRunning).unique hwait.suspended
  rw [hpost]
  refine ⟨hresumed, hrunning, hcr3'.trans hcr3, fun c hc hframe => ?_⟩
  have hkeep := hstack t (List.mem_cons_of_mem _ hb) c hc (fun h => absurd h hwait.notRunning) fun _ => hframe
  exact hkeep.trans (hwait.same c (Or.inr (Or.inr hc)))

/-- A task with room on its stack can call `switch_to` for every task that has been created. -/
theorem Ready.exists_call (hs : L.Ready s) (hroom : L.lo (L.running s.cpu) + 28 ≤ L.hi (L.running s.cpu))
    (b : BitVec 32) : ∃ s', L.Step s .work s' ∧ L.Calls s'.cpu b ∧ L.Ready s' ∧ s'.created = s.created
      ∧ L.running s'.cpu = L.running s.cpu := by
  have htasks := List.cons_subset_cons L.boot hs.created
  have ha := htasks hs.running
  generalize ha' : L.running s.cpu = a at *
  have hfits := L.stack_fits a ha
  have hesp : (BitVec.ofNat 32 (L.lo a + 20)).toNat = L.lo a + 20 := by
    rw [BitVec.toNat_ofNat]
    omega
  generalize BitVec.ofNat 32 (L.lo a + 20) = esp at hesp
  have harg : (esp + 4#32).toNat = L.lo a + 24 := by bv_omega
  -- work that puts an argument on the stack of the running task
  let s' : Threads := { s with cpu := { s.cpu with reg := fun _ => esp, mem := store s.cpu.mem (esp + 4#32) b } }
  have hrunning : L.running s'.cpu = a := by
    have hstack := L.running_stack a ha
    exact (load_store_of_disjoint _ _ (by omega)).trans ha'
  have hstep : L.Step s .work s' := by
    refine ⟨rfl, hrunning.trans ha'.symm, rfl, fun t ht => ?_, fun t ht hne c hc => ?_⟩
    · have ht' := htasks (List.mem_cons_of_mem _ ht)
      have hstack := L.record_stack t ht' a ha
      have hfits' := L.record_fits t ht'
      exact load_store_of_disjoint _ _ (by bv_omega)
    · have hnot := not_owns (htasks (List.mem_cons_of_mem _ ht)) ha (ha' ▸ hne) hc
      unfold Places.Owns at hnot
      exact store_of_outside _ _ (by omega)
  refine ⟨s', hstep, ⟨load_store _ _ _, ?_, ?_⟩, (step_ready hs hstep).1, rfl, hrunning⟩
  · rw [hrunning]
    show _ ≤ esp.toNat
    omega
  · rw [hrunning]
    show esp.toNat + 8 ≤ _
    omega

/-- A task with room on its stack can make a task and switch to it. -/
theorem Ready.exists_create (hs : L.Ready s) (hb : b ∈ L.tasks) (hnew : b ∉ s.created)
    (hsize : L.hi b = L.lo b + 4096) (initIp : BitVec 32) : ∃ s', L.Step s (.create b initIp) s' ∧ L.Ready s'
      ∧ s'.created = b :: s.created ∧ L.running s'.cpu = L.running s.cpu := by
  have hb' := List.mem_cons_of_mem L.boot hb
  obtain ⟨-, -, hkeep⟩ := threadCreate_spec s.cpu.mem hb' hsize initIp s.cpu.cr3
  generalize hm : threadCreate s.cpu.mem b (BitVec.ofNat 32 (L.lo b)) initIp s.cpu.cr3 = m at hkeep
  have hstep : L.Step s (.create b initIp) ⟨{ s.cpu with mem := m }, b :: s.created⟩ :=
    ⟨hb, hnew, hsize, hm ▸ rfl⟩
  exact ⟨_, hstep, (step_ready hs hstep).1, rfl, running_of_not_owns hb' hkeep⟩

theorem Ready.exists_switch (hs : L.Ready s) (hb : b ∈ s.created) (hcall : L.Calls s.cpu b) :
    ∃ s', L.Step s (.switchTo b) s' ∧ L.Ready s' ∧ s'.created = s.created ∧ L.running s'.cpu = b := by
  obtain ⟨-, -, -, -, hrunning, -⟩ := hs.switch hb hcall
  generalize hcpu : switchTo L.runningTask s.cpu = cpu at hrunning
  have hstep : L.Step s (.switchTo b) ⟨cpu, s.created⟩ := ⟨hb, hcall, hcpu ▸ rfl⟩
  exact ⟨_, hstep, (step_ready hs hstep).1, rfl, hrunning⟩

/-- Two tasks, their stacks, and the stack of the code that boots the kernel. -/
def twoTasks : Layout where
  runningTask := 0x8000#32
  boot := 0#32
  tasks := [0x5000#32, 0x2000#32]
  lo := fun t => t.toNat + 0x1000
  hi := fun t => t.toNat + 0x2000
  boot_not_mem := by simp
  running_fits := by simp
  record_fits := by simp
  stack_fits := by simp
  running_record := by simp
  running_stack := by simp
  record_stack := by simp
  record_record := by simp
  stack_stack := by simp

/-- The machine that boots the kernel. -/
def bootThreads : Threads := ⟨⟨fun _ => 0, fun _ => 0, 0, 0, 0, fun _ => 0⟩, []⟩

/-- **A call of `switch_to` returns to its caller.** Whatever the other tasks do, and however often they switch,
the first switch back to a task that has called `switch_to` finds its registers, its flags and its stack as they
were at the call. -/
theorem switch_resumes {s₀ : Threads} {before after : List (Transition Threads ThreadEvent)}
    {call back : Transition Threads ThreadEvent} (hboot : L.running s₀.cpu = L.boot) (hnone : s₀.created = [])
    (hrun : Run L.Step s₀ (before ++ call :: after) s) (hcall : call.event = .switchTo b)
    (hback : (call :: after).find? (SwitchesTo (L.running call.pre.cpu)) = some back) :
    Resumed back.post.cpu (contextOf call.pre.cpu) ∧ L.running back.post.cpu = L.running call.pre.cpu
      ∧ back.post.cpu.cr3 = call.pre.cpu.cr3
      ∧ ∀ c, L.lo (L.running call.pre.cpu) ≤ c ∧ c < L.hi (L.running call.pre.cpu) →
        c < (call.pre.cpu.reg .esp).toNat - 20 ∨ (call.pre.cpu.reg .esp).toNat + 4 ≤ c →
        back.post.cpu.mem c = call.pre.cpu.mem c := by
  obtain ⟨x, hbefore, hafter⟩ := hrun.of_append
  obtain ⟨rfl, hstep, hrest⟩ := hafter.cons_inv
  have hready := (run_ready (ready_of_boot hboot hnone) hbefore).1
  have hcallStep := hstep
  rw [hcall] at hstep
  obtain ⟨hb, hcalls, hpost⟩ := hstep
  obtain ⟨k, hresumed, hself, -, hrunning, hcr3, hleft, -, -, hstack⟩ := hready.switch hb hcalls
  have hesp : (call.pre.cpu.reg .esp + 4#32).toNat = (call.pre.cpu.reg .esp).toNat + 4 := by
    have hfits := L.stack_fits _ (List.cons_subset_cons L.boot hready.created hready.running)
    have hhigh := hcalls.high
    bv_omega
  have hframe : ∀ c, c < (call.pre.cpu.reg .esp).toNat - 20 ∨ (call.pre.cpu.reg .esp).toNat + 4 ≤ c →
      c < (contextOf call.pre.cpu).esp.toNat - 12 ∨ (contextOf call.pre.cpu).esp.toNat - 4 ≤ c := by
    intro c hc
    show c < (call.pre.cpu.reg .esp + 4#32).toNat - 12 ∨ (call.pre.cpu.reg .esp + 4#32).toNat - 4 ≤ c
    omega
  by_cases heq : b = L.running call.pre.cpu
  · -- the task has switched to itself
    have hfirst : SwitchesTo (L.running call.pre.cpu) call = true := by simp [SwitchesTo, hcall, heq]
    rw [List.find?_cons_of_pos hfirst] at hback
    obtain rfl := Option.some.inj hback
    rw [hpost]
    rw [hself heq] at hresumed hstack
    refine ⟨hresumed, hrunning.trans heq, hcr3, fun c hc hout => ?_⟩
    exact hstack _ hready.running c hc (fun _ => hout) fun _ => hframe c hout
  · have hfirst : ¬ SwitchesTo (L.running call.pre.cpu) call = true := by simp [SwitchesTo, hcall, heq]
    rw [List.find?_cons_of_neg hfirst] at hback
    -- the task that is switched back to has been created
    have hcreated : L.running call.pre.cpu ∈ call.pre.created := by
      obtain ⟨_, _, _, hreach, hstep'⟩ := hrest.reaches_of_mem (List.mem_of_find?_eq_some hback)
      have hready' := (run_ready (step_ready hready hcallStep).1 hreach).1
      have hswitch : SwitchesTo _ back = true := List.find?_some hback
      rw [of_decide_eq_true hswitch] at hstep'
      have hboot' : L.running call.pre.cpu ≠ L.boot := fun h => L.boot_not_mem (h ▸ hready'.created _ hstep'.1)
      exact List.mem_of_ne_of_mem hboot' hready.running
    have hwaits : L.Waits call.post.cpu.mem (L.running call.pre.cpu) (contextOf call.pre.cpu) call.post := by
      refine ⟨(step_ready hready hcallStep).1, ?_, ?_, ?_, fun c _ => rfl⟩
      · rw [hpost]
        exact hcreated
      · rw [hpost, hrunning]
        exact Ne.symm heq
      · rw [hpost]
        exact hleft heq
    obtain ⟨hresumed, hrunning, hcr3', hsame⟩ := hwaits.resumes hrest hback
    refine ⟨hresumed, hrunning, ?_, fun c hc hout => ?_⟩
    · rw [hcr3', hpost, hcr3]
    · rw [hsame c hc (hframe c hout), hpost]
      exact hstack _ hready.running c hc (fun _ => hout) fun h => absurd h.symm heq

/-- Two tasks call `switch_to` for each other. -/
theorem switch_resumes_twoTasks : ∃ before after s, ∃ call back : Transition Threads ThreadEvent,
    Run twoTasks.Step bootThreads (before ++ call :: after) s ∧ call.event = .switchTo 0x5000#32
      ∧ twoTasks.running call.pre.cpu = 0x2000#32 ∧ back.event = .switchTo 0x2000#32
      ∧ Resumed back.post.cpu (contextOf call.pre.cpu) := by
  have hboot : twoTasks.running bootThreads.cpu = twoTasks.boot := rfl
  have hsize : ∀ t, twoTasks.hi t = twoTasks.lo t + 4096 := fun t => Nat.add_assoc t.toNat 0x1000 4096
  have hroom : ∀ s : Threads, twoTasks.lo (twoTasks.running s.cpu) + 28 ≤ twoTasks.hi (twoTasks.running s.cpu) := by
    intro s
    rw [hsize]
    omega
  have h₀ : twoTasks.Ready bootThreads := ready_of_boot hboot rfl
  -- two threads, a switch to the first, one to the second, and one back
  obtain ⟨s₁, hstep₁, h₁, hc₁, -⟩ := h₀.exists_create (b := 0x2000#32) (by simp [twoTasks]) (by simp [bootThreads])
    (hsize _) 0x100000#32
  obtain ⟨s₂, hstep₂, h₂, hc₂, -⟩ := h₁.exists_create (b := 0x5000#32) (by simp [twoTasks])
    (by simp [hc₁, bootThreads]) (hsize _) 0x100000#32
  obtain ⟨s₃, hstep₃, hcall₃, h₃, hc₃, -⟩ := h₂.exists_call (hroom _) 0x2000#32
  obtain ⟨s₄, hstep₄, h₄, hc₄, hr₄⟩ := h₃.exists_switch (by simp [hc₃, hc₂, hc₁]) hcall₃
  obtain ⟨s₅, hstep₅, hcall₅, h₅, hc₅, hr₅⟩ := h₄.exists_call (hroom _) 0x5000#32
  obtain ⟨s₆, hstep₆, h₆, hc₆, hr₆⟩ := h₅.exists_switch (by simp [hc₅, hc₄, hc₃, hc₂]) hcall₅
  obtain ⟨s₇, hstep₇, hcall₇, h₇, hc₇, hr₇⟩ := h₆.exists_call (hroom _) 0x2000#32
  obtain ⟨s₈, hstep₈, -⟩ := h₇.exists_switch (by simp [hc₇, hc₆, hc₅, hc₄, hc₃, hc₂, hc₁]) hcall₇
  have hcaller : twoTasks.running s₅.cpu = 0x2000#32 := hr₅.trans hr₄
  have hback : List.find? (SwitchesTo (twoTasks.running s₅.cpu))
      [⟨s₅, .switchTo 0x5000#32, s₆⟩, ⟨s₆, .work, s₇⟩, ⟨s₇, .switchTo 0x2000#32, s₈⟩]
      = some ⟨s₇, .switchTo 0x2000#32, s₈⟩ := by
    simp [SwitchesTo, hcaller]
  have hrun : Run twoTasks.Step bootThreads ([⟨_, _, s₁⟩, ⟨s₁, _, s₂⟩, ⟨s₂, _, s₃⟩, ⟨s₃, _, s₄⟩, ⟨s₄, _, s₅⟩]
      ++ ⟨s₅, .switchTo 0x5000#32, s₆⟩ :: [⟨s₆, .work, s₇⟩, ⟨s₇, .switchTo 0x2000#32, s₈⟩]) s₈ :=
    (((((((Run.nil.snoc hstep₁).snoc hstep₂).snoc hstep₃).snoc hstep₄).snoc hstep₅).snoc hstep₆).snoc hstep₇).snoc
      hstep₈
  exact ⟨_, _, s₈, _, _, hrun, rfl, hcaller, rfl, (switch_resumes hboot rfl hrun rfl hback).1⟩

/-- **A task starts at its function.** The first switch to a task that `thread_create` has made enters the
function with interrupts enabled, the stack empty, and in the address space of the kernel. -/
theorem thread_starts {s₀ : Threads} {before after : List (Transition Threads ThreadEvent)}
    {create start : Transition Threads ThreadEvent} {initIp : BitVec 32} (hboot : L.running s₀.cpu = L.boot)
    (hnone : s₀.created = []) (hrun : Run L.Step s₀ (before ++ create :: after) s)
    (hcreate : create.event = .create t initIp) (hstart : after.find? (SwitchesTo t) = some start) :
    start.post.cpu.eip = initIp ∧ start.post.cpu.eflags = 0x202#32
      ∧ (start.post.cpu.reg .esp).toNat = L.hi t ∧ L.running start.post.cpu = t
      ∧ start.post.cpu.cr3 = s₀.cpu.cr3 := by
  obtain ⟨x, hbefore, hafter⟩ := hrun.of_append
  obtain ⟨rfl, hstep, hrest⟩ := hafter.cons_inv
  obtain ⟨hready, hcr3⟩ := run_ready (ready_of_boot hboot hnone) hbefore
  obtain ⟨hready', hcr3'⟩ := step_ready hready hstep
  rw [hcreate] at hstep
  obtain ⟨ht, hnew, hsize, hpost⟩ := hstep
  have ht' := List.mem_cons_of_mem L.boot ht
  obtain ⟨⟨k, hk, heip, hflags, hesp⟩, -, hkeep⟩ := threadCreate_spec create.pre.cpu.mem ht' hsize initIp
    create.pre.cpu.cr3
  have hrunning : L.running create.post.cpu = L.running create.pre.cpu := by
    rw [hpost]
    exact running_of_not_owns ht' hkeep
  -- the new task waits with the context that `thread_create` has built
  have hwaits : L.Waits create.post.cpu.mem t k create.post := by
    refine ⟨hready', ?_, ?_, ?_, fun c _ => rfl⟩
    · rw [hpost]
      exact List.mem_cons_self
    · rw [hrunning]
      rintro rfl
      rcases List.mem_cons.mp hready.running with hboot' | hcreated
      · exact L.boot_not_mem (hboot' ▸ ht)
      · exact hnew hcreated
    · rw [hpost]
      exact hk
  obtain ⟨hresumed, hrunning, hcr3'', -⟩ := hwaits.resumes hrest hstart
  refine ⟨hresumed.eip.trans heip, hresumed.eflags.trans hflags, ?_, hrunning, ?_⟩
  · rw [hresumed.esp, hesp]
  · rw [hcr3'', hcr3', hcr3]

/-- The code that boots the kernel makes a task and switches to it. -/
theorem thread_starts_twoTasks : ∃ before after s, ∃ create start : Transition Threads ThreadEvent,
    Run twoTasks.Step bootThreads (before ++ create :: after) s
      ∧ create.event = .create 0x2000#32 0x100000#32 ∧ start.event = .switchTo 0x2000#32
      ∧ start.post.cpu.eip = 0x100000#32 ∧ (start.post.cpu.reg .esp).toNat = 0x4000 := by
  have hboot : twoTasks.running bootThreads.cpu = twoTasks.boot := rfl
  have hsize : ∀ t, twoTasks.hi t = twoTasks.lo t + 4096 := fun t => Nat.add_assoc t.toNat 0x1000 4096
  have h₀ : twoTasks.Ready bootThreads := ready_of_boot hboot rfl
  obtain ⟨s₁, hstep₁, h₁, hc₁, -⟩ := h₀.exists_create (b := 0x2000#32) (by simp [twoTasks]) (by simp [bootThreads])
    (hsize _) 0x100000#32
  obtain ⟨s₂, hstep₂, hcall₂, h₂, hc₂, -⟩ := h₁.exists_call (by rw [hsize]; omega) 0x2000#32
  obtain ⟨s₃, hstep₃, -⟩ := h₂.exists_switch (by simp [hc₂, hc₁]) hcall₂
  have hstart : List.find? (SwitchesTo 0x2000#32) [⟨s₁, .work, s₂⟩, ⟨s₂, .switchTo 0x2000#32, s₃⟩]
      = some ⟨s₂, .switchTo 0x2000#32, s₃⟩ := by
    simp [SwitchesTo]
  have hrun : Run twoTasks.Step bootThreads ([] ++ ⟨_, .create 0x2000#32 0x100000#32, s₁⟩
      :: [⟨s₁, .work, s₂⟩, ⟨s₂, .switchTo 0x2000#32, s₃⟩]) s₃ :=
    ((Run.nil.snoc hstep₁).snoc hstep₂).snoc hstep₃
  obtain ⟨heip, -, hesp, -⟩ := thread_starts hboot rfl hrun rfl hstart
  exact ⟨_, _, s₃, _, _, hrun, rfl, rfl, heip, hesp⟩

end Layout

end DiyOS.Switch
