import DiyOS.Lib.Memory
import Mathlib.Data.List.Induction

/-!
# A 32-bit x86 machine

The general registers, the segment registers, `eip`, `eflags`, `cr3` and the memory, and the instructions that
the entry code of a kernel is made of. All code runs at one privilege level, so that a transfer of control
through a gate keeps the stack. The memory is that of one address space, and a word does not reach over its end.

* **`words_pushes`** — what is pushed lies on the stack, the last word first.
* **`pushes_agree`** — pushing changes only the memory below the stack pointer.
* **`run_pops`** — registers that are popped hold the words on the stack.
-/

namespace Cpu

/-! ## Memory

A word stands at its address with the lowest byte first. Addresses are taken as numbers once they are
dereferenced, so that a word at the end of the address space does not continue at 0. -/

/-- The word at `a`. -/
def load (m : Mem) (a : BitVec 32) : BitVec 32 := BitVec.ofNat 32 (m.readWord a.toNat)

def store (m : Mem) (a w : BitVec 32) : Mem := m.writeWord a.toNat w.toNat

/-- A word is loaded as it was stored. -/
theorem load_store (m : Mem) (a w : BitVec 32) : load (store m a w) a = w := by
  unfold load store
  rw [Mem.readWord_writeWord m _ w.isLt, BitVec.ofNat_toNat, BitVec.setWidth_eq]

/-- A store elsewhere leaves the word. -/
theorem load_store_of_disjoint (m : Mem) {a c : BitVec 32} (w : BitVec 32)
    (h : c.toNat + 4 ≤ a.toNat ∨ a.toNat + 4 ≤ c.toNat) : load (store m c w) a = load m a := by
  unfold load store
  rw [Mem.readWord_writeWord_of_disjoint m _ h]

/-- A store leaves the bytes outside its word. -/
theorem store_of_outside (m : Mem) {a : BitVec 32} {c : Nat} (w : BitVec 32)
    (h : c < a.toNat ∨ a.toNat + 4 ≤ c) : store m a w c = m c :=
  Mem.writeWord_of_outside m _ h

/-- A byte after a store depends on the same byte before it only. -/
theorem store_congr {m m' : Mem} {c : Nat} (a w : BitVec 32) (h : m' c = m c) : store m' a w c = store m a w c := by
  unfold store Mem.writeWord Mem.writeByte
  simp only [Function.update_apply, h]

/-- A word is its four bytes. -/
theorem load_congr {m m' : Mem} {a : BitVec 32} (h : ∀ k < 4, m' (a.toNat + k) = m (a.toNat + k)) :
    load m' a = load m a :=
  congrArg (BitVec.ofNat 32) (Mem.readWord_congr h)

def loadHalf (m : Mem) (a : BitVec 32) : BitVec 16 := BitVec.ofNat 16 (m.readHalf a.toNat)

/-- The low half of `w` at `a`. -/
def storeHalf (m : Mem) (a w : BitVec 32) : Mem :=
  (m.writeByte a.toNat (UInt8.ofNat w.toNat)).writeByte (a.toNat + 1) (UInt8.ofNat (w.toNat / 256))

/-- A half word keeps the lower sixteen bits of what was stored. -/
theorem loadHalf_storeHalf (m : Mem) (a w : BitVec 32) : loadHalf (storeHalf m a w) a = w.setWidth 16 := by
  apply BitVec.eq_of_toNat_eq
  unfold loadHalf storeHalf Mem.readHalf
  rw [Mem.writeByte_self, Mem.writeByte_of_ne _ _ (show a.toNat ≠ a.toNat + 1 by omega), Mem.writeByte_self,
    BitVec.toNat_ofNat, BitVec.toNat_setWidth]
  simp only [UInt8.toNat_ofNat']
  omega

theorem storeHalf_of_outside (m : Mem) {a : BitVec 32} {c : Nat} (w : BitVec 32)
    (h : c < a.toNat ∨ a.toNat + 2 ≤ c) : storeHalf m a w c = m c := by
  unfold storeHalf
  rw [Mem.writeByte_of_ne _ _ (by omega), Mem.writeByte_of_ne _ _ (by omega)]

theorem loadHalf_congr {m m' : Mem} {a : BitVec 32} (h : ∀ k < 2, m' (a.toNat + k) = m (a.toNat + k)) :
    loadHalf m' a = loadHalf m a :=
  congrArg (BitVec.ofNat 16) (Mem.readHalf_congr h)

/-- The `n` words from `a` on. -/
def words (m : Mem) (a : BitVec 32) : Nat → List (BitVec 32)
  | 0 => []
  | n + 1 => load m a :: words m (a + 4#32) n

@[simp] theorem length_words (m : Mem) (a : BitVec 32) (n : Nat) : (words m a n).length = n := by
  induction n generalizing a with
  | zero => rfl
  | succ n ih => exact congrArg (· + 1) (ih _)

/-- One more word, at the end. -/
theorem words_succ' (m : Mem) (a : BitVec 32) (n : Nat) :
    words m a (n + 1) = words m a n ++ [load m (a + BitVec.ofNat 32 (4 * n))] := by
  induction n generalizing a with
  | zero => exact congrArg (fun a => [load m a]) (BitVec.add_zero a).symm
  | succ n ih =>
    have haddr : a + BitVec.ofNat 32 (4 * (n + 1)) = a + 4#32 + BitVec.ofNat 32 (4 * n) := by
      rw [Nat.mul_succ, Nat.add_comm (4 * n), BitVec.ofNat_add, BitVec.add_assoc]
    rw [haddr]
    exact congrArg (load m a :: ·) (ih (a + 4#32))

/-- Words are split where the first ones end. -/
theorem words_add (m : Mem) (a : BitVec 32) (n k : Nat) :
    words m a (n + k) = words m a n ++ words m (a + BitVec.ofNat 32 (4 * n)) k := by
  induction k with
  | zero => exact (List.append_nil _).symm
  | succ k ih =>
    have haddr : a + BitVec.ofNat 32 (4 * (n + k)) = a + BitVec.ofNat 32 (4 * n) + BitVec.ofNat 32 (4 * k) := by
      rw [Nat.mul_add, BitVec.ofNat_add, BitVec.add_assoc]
    rw [← Nat.add_assoc, words_succ', words_succ', ih, haddr, List.append_assoc]

/-- Words are their bytes, where they do not run over the end of the address space. -/
theorem words_congr {m m' : Mem} {a : BitVec 32} {n : Nat} (hfits : a.toNat + 4 * n ≤ 4294967296)
    (h : ∀ k < 4 * n, m' (a.toNat + k) = m (a.toNat + k)) : words m' a n = words m a n := by
  induction n generalizing a with
  | zero => rfl
  | succ n ih =>
    unfold words
    rw [load_congr fun k hk => h k (by omega)]
    by_cases hlast : n = 0
    · subst hlast
      rfl
    · have hnext : (a + 4#32).toNat = a.toNat + 4 := by bv_omega
      rw [ih (by omega) fun k hk => ?_]
      rw [hnext, Nat.add_assoc]
      exact h (4 + k) (by omega)

/-! ## States

The registers, the segment registers, the flags and the memory, with one lemma for each field and each way of
changing a state. -/

inductive Reg where
  | eax | ecx | edx | ebx | esp | ebp | esi | edi
  deriving DecidableEq

inductive Seg where
  | cs | ss | ds | es | fs | gs
  deriving DecidableEq

structure State where
  reg : Reg → BitVec 32
  seg : Seg → BitVec 16
  eip : BitVec 32
  eflags : BitVec 32
  cr3 : BitVec 32
  mem : Mem

namespace State

def setReg (s : State) (r : Reg) (w : BitVec 32) : State := { s with reg := Function.update s.reg r w }

@[simp] theorem setReg_self (s : State) (r : Reg) (w : BitVec 32) : (s.setReg r w).reg r = w :=
  Function.update_self _ _ _

@[simp] theorem setReg_of_ne (s : State) {r q : Reg} (w : BitVec 32) (h : q ≠ r) :
    (s.setReg r w).reg q = s.reg q :=
  Function.update_of_ne h _ _

@[simp] theorem setReg_seg (s : State) (r : Reg) (w : BitVec 32) : (s.setReg r w).seg = s.seg := rfl

@[simp] theorem setReg_eip (s : State) (r : Reg) (w : BitVec 32) : (s.setReg r w).eip = s.eip := rfl

@[simp] theorem setReg_eflags (s : State) (r : Reg) (w : BitVec 32) : (s.setReg r w).eflags = s.eflags := rfl

@[simp] theorem setReg_cr3 (s : State) (r : Reg) (w : BitVec 32) : (s.setReg r w).cr3 = s.cr3 := rfl

@[simp] theorem setReg_mem (s : State) (r : Reg) (w : BitVec 32) : (s.setReg r w).mem = s.mem := rfl

/-! ## The stack

`push` stores below `esp`; `pop` loads the top and drops it. Lists of words stand for what is on the stack, the
top first. -/

def push (s : State) (w : BitVec 32) : State :=
  { s.setReg .esp (s.reg .esp - 4#32) with mem := store s.mem (s.reg .esp - 4#32) w }

/-- The word on top of the stack. -/
def top (s : State) : BitVec 32 := load s.mem (s.reg .esp)

/-- The stack without its `n` topmost words. -/
def drop (s : State) (n : Nat) : State := s.setReg .esp (s.reg .esp + BitVec.ofNat 32 (4 * n))

def pushes (s : State) (ws : List (BitVec 32)) : State := ws.foldl push s

@[simp] theorem push_esp (s : State) (w : BitVec 32) : (s.push w).reg .esp = s.reg .esp - 4#32 :=
  setReg_self s .esp _

@[simp] theorem push_reg (s : State) (w : BitVec 32) {r : Reg} (h : r ≠ .esp) : (s.push w).reg r = s.reg r :=
  setReg_of_ne s _ h

@[simp] theorem push_seg (s : State) (w : BitVec 32) : (s.push w).seg = s.seg := rfl

@[simp] theorem push_eip (s : State) (w : BitVec 32) : (s.push w).eip = s.eip := rfl

@[simp] theorem push_eflags (s : State) (w : BitVec 32) : (s.push w).eflags = s.eflags := rfl

@[simp] theorem push_cr3 (s : State) (w : BitVec 32) : (s.push w).cr3 = s.cr3 := rfl

theorem push_mem (s : State) (w : BitVec 32) : (s.push w).mem = store s.mem (s.reg .esp - 4#32) w := rfl

@[simp] theorem drop_esp (s : State) (n : Nat) : (s.drop n).reg .esp = s.reg .esp + BitVec.ofNat 32 (4 * n) :=
  setReg_self s .esp _

@[simp] theorem drop_reg (s : State) (n : Nat) {r : Reg} (h : r ≠ .esp) : (s.drop n).reg r = s.reg r :=
  setReg_of_ne s _ h

@[simp] theorem drop_seg (s : State) (n : Nat) : (s.drop n).seg = s.seg := rfl

@[simp] theorem drop_cr3 (s : State) (n : Nat) : (s.drop n).cr3 = s.cr3 := rfl

@[simp] theorem drop_mem (s : State) (n : Nat) : (s.drop n).mem = s.mem := rfl

theorem pushes_append (s : State) (ws vs : List (BitVec 32)) :
    s.pushes (ws ++ vs) = (s.pushes ws).pushes vs :=
  List.foldl_append

/-- What is pushed depends on the registers and the memory only. -/
theorem pushes_congr {s t : State} (hreg : s.reg = t.reg) (hmem : s.mem = t.mem) (ws : List (BitVec 32)) :
    (s.pushes ws).reg = (t.pushes ws).reg ∧ (s.pushes ws).mem = (t.pushes ws).mem := by
  induction ws generalizing s t with
  | nil => exact ⟨hreg, hmem⟩
  | cons w ws ih =>
    refine @ih (s.push w) (t.push w) ?_ ?_
    · show Function.update s.reg .esp _ = Function.update t.reg .esp _
      rw [hreg]
    · rw [push_mem, push_mem, hreg, hmem]

/-- Pushing leaves every register but `esp`. -/
theorem pushes_reg (s : State) (ws : List (BitVec 32)) {r : Reg} (h : r ≠ .esp) :
    (s.pushes ws).reg r = s.reg r := by
  induction ws generalizing s with
  | nil => rfl
  | cons w ws ih => exact (ih (s.push w)).trans (push_reg s w h)

theorem pushes_seg (s : State) (ws : List (BitVec 32)) : (s.pushes ws).seg = s.seg := by
  induction ws generalizing s with
  | nil => rfl
  | cons w ws ih => exact ih (s.push w)

/-- `esp` goes down by four for each word. -/
theorem pushes_esp (s : State) (ws : List (BitVec 32)) :
    (s.pushes ws).reg .esp = s.reg .esp - BitVec.ofNat 32 (4 * ws.length) := by
  induction ws generalizing s with
  | nil => exact (BitVec.sub_zero _).symm
  | cons w ws ih =>
    have hlen : BitVec.ofNat 32 (4 * (w :: ws).length) = 4#32 + BitVec.ofNat 32 (4 * ws.length) := by
      rw [List.length_cons, Nat.mul_succ, Nat.add_comm, BitVec.ofNat_add]
    show ((s.push w).pushes ws).reg .esp = _
    rw [ih, push_esp, hlen]
    bv_omega

/-- The stack pointer after pushes for which there is room. -/
theorem pushes_esp_toNat (s : State) {ws : List (BitVec 32)} (h : 4 * ws.length ≤ (s.reg .esp).toNat) :
    ((s.pushes ws).reg .esp).toNat = (s.reg .esp).toNat - 4 * ws.length := by
  rw [pushes_esp]
  bv_omega

/-- Pushing writes only between the new stack pointer and the old one. -/
theorem pushes_agree (s : State) {ws : List (BitVec 32)} (h : 4 * ws.length ≤ (s.reg .esp).toNat) {c : Nat}
    (hc : c < (s.reg .esp).toNat - 4 * ws.length ∨ (s.reg .esp).toNat ≤ c) : (s.pushes ws).mem c = s.mem c := by
  induction ws generalizing s with
  | nil => rfl
  | cons w ws ih =>
    rw [List.length_cons] at h hc
    have hesp : ((s.push w).reg .esp).toNat = (s.reg .esp).toNat - 4 := by
      rw [push_esp]
      bv_omega
    have hrest := ih (s.push w) (by omega) (by omega)
    refine hrest.trans (store_of_outside s.mem w ?_)
    rw [← push_esp s w, hesp]
    omega

/-- What is pushed lies on the stack, the last word first. -/
theorem words_pushes (s : State) {ws : List (BitVec 32)} (h : 4 * ws.length ≤ (s.reg .esp).toNat) :
    words (s.pushes ws).mem ((s.pushes ws).reg .esp) ws.length = ws.reverse := by
  induction ws using List.reverseRecOn with
  | nil => rfl
  | append_singleton ws w ih =>
    rw [List.length_append, List.length_singleton] at h
    have hesp := @pushes_esp_toNat s ws (by omega)
    rw [pushes_append, List.length_append, List.length_singleton, List.reverse_append,
      List.reverse_singleton, List.singleton_append]
    show words ((s.pushes ws).push w).mem (((s.pushes ws).push w).reg .esp) (ws.length + 1) = _
    have hnew : (((s.pushes ws).push w).reg .esp).toNat = ((s.pushes ws).reg .esp).toNat - 4 := by
      rw [push_esp]
      bv_omega
    have hback : ((s.pushes ws).push w).reg .esp + 4#32 = (s.pushes ws).reg .esp := by
      rw [push_esp]
      bv_omega
    unfold words
    refine congrArg₂ List.cons (load_store _ _ _) ?_
    rw [hback, ← ih (by omega)]
    refine words_congr (by have := (s.reg .esp).isLt; omega) fun k _ => store_of_outside _ w (Or.inr ?_)
    rw [← push_esp (s.pushes ws) w, hnew]
    omega

end State

/-- The words that are popped, one after the other. -/
theorem load_of_words {m : Mem} {a w : BitVec 32} {n : Nat} {ws : List (BitVec 32)} (h : words m a n = ws) {i : Nat}
    (hi : ws[i]? = some w) : load m (a + BitVec.ofNat 32 (4 * i)) = w := by
  induction n generalizing a i ws with
  | zero =>
    rw [← h] at hi
    cases hi
  | succ n ih =>
    unfold words at h
    subst h
    cases i with
    | zero => exact (congrArg (load m) (BitVec.add_zero a)).trans (Option.some.inj hi)
    | succ i =>
      have haddr : a + BitVec.ofNat 32 (4 * (i + 1)) = a + 4#32 + BitVec.ofNat 32 (4 * i) := by
        rw [Nat.mul_succ, Nat.add_comm (4 * i), BitVec.ofNat_add, BitVec.add_assoc]
      rw [haddr]
      exact ih rfl hi

/-! ## Flags

The flags are a word. An instruction changes single bits of it, which later ones test. -/

/-- `w` with the bit `i` set to `b`. -/
def withBit (w : BitVec 32) (i : Nat) (b : Bool) : BitVec 32 :=
  if b then w ||| BitVec.twoPow 32 i else w &&& ~~~BitVec.twoPow 32 i

/-- The bit that was set, and the other ones. -/
theorem getLsbD_withBit (w : BitVec 32) {i j : Nat} (b : Bool) (hi : i < 32) :
    (withBit w i b).getLsbD j = if j = i then b else w.getLsbD j := by
  unfold withBit
  by_cases heq : j = i
  · subst heq
    cases b with
    | true => simp [hi]
    | false => simp [hi]
  · cases b with
    | true => simp [heq, Ne.symm heq]
    | false =>
      by_cases hj : j < 32
      · simp [heq, hj]
      · have hout : w.getLsbD j = false := BitVec.getLsbD_of_ge w j (Nat.le_of_not_lt hj)
        simp [heq, hout]

/-- The flags after an operation with a result: parity of the low byte, zero, sign, carry and overflow. -/
def flagsOf (flags result : BitVec 32) (carry overflow : Bool) : BitVec 32 :=
  let parity := (List.range 8).countP result.getLsbD % 2 == 0
  withBit (withBit (withBit (withBit (withBit flags 0 carry) 2 parity) 7 result.msb) 11 overflow) 6 (result == 0#32)

/-- Bit 6 of `eflags`. -/
def State.zeroFlag (s : State) : Bool := s.eflags.getLsbD 6

/-! ## Instructions

Each instruction is a function on states, and a sequence of them runs in order: no jump is among them. -/

/-- A memory operand: `[disp]`, `[base]`, `[base + disp]` or `[base + index * scale]`. -/
inductive Operand where
  | abs (disp : BitVec 32)
  | ind (base : Reg)
  | at (base : Reg) (disp : BitVec 32)
  | scaled (base index : Reg) (scale : BitVec 32)

def State.address (s : State) : Operand → BitVec 32
  | .abs disp => disp
  | .ind base => s.reg base
  | .at base disp => s.reg base + disp
  | .scaled base index scale => s.reg base + s.reg index * scale

inductive Instr where
  | push (r : Reg)
  | pushSeg (g : Seg)
  /-- The byte is extended with its sign. -/
  | pushByte (n : BitVec 8)
  | pushf
  | pusha
  | pop (r : Reg)
  | popSeg (g : Seg)
  | popa
  | mov (dst src : Reg)
  | movImm (dst : Reg) (n : BitVec 32)
  /-- `mov` to the low sixteen bits of a register. -/
  | movHalf (dst : Reg) (n : BitVec 16)
  | movSeg (g : Seg) (src : Reg)
  | movCr3 (src : Reg)
  | load (dst : Reg) (o : Operand)
  /-- `mov` to the low eight bits of a register. -/
  | loadByte (dst : Reg) (o : Operand)
  | store (o : Operand) (src : Reg)
  /-- `mov` from the low eight bits of a register. -/
  | storeByte (o : Operand) (src : Reg)
  /-- `mov` from the low sixteen bits of a register. -/
  | storeHalf (o : Operand) (src : Reg)
  | add (dst : Reg) (n : BitVec 32)
  | cmp (r : Reg) (n : BitVec 32)
  | xor (dst src : Reg)
  | shl (dst : Reg) (n : Nat)
  | shr (dst : Reg) (n : Nat)
  | xchg (r q : Reg)
  | cli
  | cld

/-- One instruction. Flags that an instruction leaves undefined keep their value. -/
def exec (i : Instr) (s : State) : State :=
  match i with
  | .push r => s.push (s.reg r)
  | .pushSeg g => s.push ((s.seg g).setWidth 32)
  | .pushByte n => s.push (n.signExtend 32)
  | .pushf => s.push s.eflags
  | .pusha =>
    s.pushes [s.reg .eax, s.reg .ecx, s.reg .edx, s.reg .ebx, s.reg .esp, s.reg .ebp, s.reg .esi, s.reg .edi]
  | .pop r => (s.drop 1).setReg r s.top
  | .popSeg g => { s.drop 1 with seg := Function.update s.seg g (s.top.setWidth 16) }
  | .popa =>
    -- the word in the place of `esp` is skipped
    let w := fun i : Nat => load s.mem (s.reg .esp + BitVec.ofNat 32 (4 * i))
    (((((((s.setReg .edi (w 0)).setReg .esi (w 1)).setReg .ebp (w 2)).setReg .ebx (w 4)).setReg .edx
      (w 5)).setReg .ecx (w 6)).setReg .eax (w 7)).drop 8
  | .mov dst src => s.setReg dst (s.reg src)
  | .movImm dst n => s.setReg dst n
  | .movHalf dst n => s.setReg dst (s.reg dst &&& 0xFFFF0000#32 ||| n.setWidth 32)
  | .movSeg g src => { s with seg := Function.update s.seg g ((s.reg src).setWidth 16) }
  | .movCr3 src => { s with cr3 := s.reg src }
  | .load dst o => s.setReg dst (Cpu.load s.mem (s.address o))
  | .loadByte dst o =>
    s.setReg dst (s.reg dst &&& 0xFFFFFF00#32 ||| BitVec.ofNat 32 (s.mem (s.address o).toNat).toNat)
  | .store o src => { s with mem := Cpu.store s.mem (s.address o) (s.reg src) }
  | .storeByte o src =>
    { s with mem := s.mem.writeByte (s.address o).toNat (UInt8.ofNat (s.reg src).toNat) }
  | .storeHalf o src => { s with mem := Cpu.storeHalf s.mem (s.address o) (s.reg src) }
  | .add dst n =>
    let result := s.reg dst + n
    { s.setReg dst result with
      eflags := flagsOf s.eflags result (BitVec.uaddOverflow (s.reg dst) n) (BitVec.saddOverflow (s.reg dst) n) }
  | .cmp r n =>
    { s with
      eflags := flagsOf s.eflags (s.reg r - n) (BitVec.usubOverflow (s.reg r) n)
        (BitVec.ssubOverflow (s.reg r) n) }
  | .xor dst src =>
    let result := s.reg dst ^^^ s.reg src
    { s.setReg dst result with eflags := flagsOf s.eflags result false false }
  | .shl dst n =>
    let result := s.reg dst <<< n
    { s.setReg dst result with
      eflags := flagsOf s.eflags result ((s.reg dst).getLsbD (32 - n)) (s.eflags.getLsbD 11) }
  | .shr dst n =>
    let result := s.reg dst >>> n
    { s.setReg dst result with
      eflags := flagsOf s.eflags result ((s.reg dst).getLsbD (n - 1)) (s.eflags.getLsbD 11) }
  | .xchg r q => (s.setReg r (s.reg q)).setReg q (s.reg r)
  -- the interrupt flag and the direction flag
  | .cli => { s with eflags := withBit s.eflags 9 false }
  | .cld => { s with eflags := withBit s.eflags 10 false }

/-- `cmp` sets the zero flag where the operands are equal. -/
theorem zeroFlag_cmp (s : State) (r : Reg) (n : BitVec 32) : (exec (.cmp r n) s).zeroFlag = (s.reg r - n == 0#32) :=
  (getLsbD_withBit _ _ (by decide)).trans (if_pos rfl)

def run (is : List Instr) (s : State) : State := is.foldl (fun s i => exec i s) s

@[simp] theorem run_nil (s : State) : run [] s = s := rfl

@[simp] theorem run_cons (i : Instr) (is : List Instr) (s : State) : run (i :: is) s = run is (exec i s) := rfl

theorem run_append (is js : List Instr) (s : State) : run (is ++ js) s = run js (run is s) := List.foldl_append

/-- Registers that are popped hold the words on the stack; nothing else changes but the stack pointer. -/
theorem run_pops (s : State) {rs : List Reg} (hesp : .esp ∉ rs) (hnodup : rs.Nodup) :
    let s' := run (rs.map .pop) s
    rs.map s'.reg = words s.mem (s.reg .esp) rs.length ∧ s'.reg .esp = s.reg .esp + BitVec.ofNat 32 (4 * rs.length)
      ∧ (∀ r, r ≠ .esp → r ∉ rs → s'.reg r = s.reg r) ∧ s'.mem = s.mem ∧ s'.seg = s.seg ∧ s'.cr3 = s.cr3 := by
  induction rs generalizing s with
  | nil => exact ⟨rfl, (BitVec.add_zero _).symm, fun _ _ _ => rfl, rfl, rfl, rfl⟩
  | cons r rs ih =>
    rw [List.mem_cons, not_or] at hesp
    obtain ⟨hnew, hnodup⟩ := List.nodup_cons.mp hnodup
    -- what is popped later does not change the register popped first
    obtain ⟨hwords, hsp, hkeep, hmem, hseg, hcr3⟩ := ih (exec (.pop r) s) hesp.2 hnodup
    have hpopped : (exec (.pop r) s).reg .esp = s.reg .esp + 4#32 := by
      show ((s.drop 1).setReg r s.top).reg .esp = _
      rw [State.setReg_of_ne _ _ hesp.1, State.drop_esp]
    have hmem' : (exec (.pop r) s).mem = s.mem := rfl
    rw [hpopped, hmem'] at hwords
    rw [hpopped] at hsp
    refine ⟨?_, ?_, ?_, hmem, hseg, hcr3⟩
    · rw [List.map_cons, List.map_cons, run_cons, hwords]
      refine congrArg (· :: _) ((hkeep r (Ne.symm hesp.1) hnew).trans ?_)
      exact State.setReg_self (s.drop 1) r _
    · rw [List.map_cons, run_cons, hsp, List.length_cons, BitVec.add_assoc, Nat.mul_succ, Nat.add_comm,
        BitVec.ofNat_add]
    · intro q hq hmem
      rw [List.mem_cons, not_or] at hmem
      rw [List.map_cons, run_cons, hkeep q hq hmem.2]
      exact (State.setReg_of_ne (s.drop 1) _ hmem.1).trans (s.drop_reg 1 hq)

/-! ## Transfers of control

What a call, a return and the processor's own entry and exit of an interrupt do to the stack. -/

def State.call (s : State) (target ret : BitVec 32) : State := { s.push ret with eip := target }

def State.ret (s : State) : State := { s.drop 1 with eip := s.top }

@[simp] theorem State.ret_reg (s : State) : s.ret.reg = (s.drop 1).reg := rfl

@[simp] theorem State.ret_eip (s : State) : s.ret.eip = s.top := rfl

@[simp] theorem State.ret_mem (s : State) : s.ret.mem = s.mem := by simp -implicitDefEqProofs [State.ret]

/-- `iret` to the same privilege level. -/
def State.iret (s : State) : State :=
  let w := fun i : Nat => load s.mem (s.reg .esp + BitVec.ofNat 32 (4 * i))
  { s.drop 3 with
    eip := w 0
    seg := Function.update s.seg .cs ((w 1).setWidth 16)
    eflags := w 2 }

/-- `iret` behind a frame whose `eip` and `cs` have just been pushed. -/
theorem iret_pushes (s : State) {cs : BitVec 16} {eip : BitVec 32} (hroom : 8 ≤ (s.reg .esp).toNat) :
    let s' := (s.pushes [cs.setWidth 32, eip]).iret
    s'.eip = eip ∧ s'.seg = Function.update s.seg .cs cs ∧ s'.eflags = s.top ∧ s'.reg .esp = s.reg .esp + 4#32
      ∧ (∀ r, r ≠ .esp → s'.reg r = s.reg r) ∧ s'.cr3 = s.cr3 ∧ s'.mem = (s.pushes [cs.setWidth 32, eip]).mem := by
  have hesp : (s.pushes [cs.setWidth 32, eip]).reg .esp = s.reg .esp - 8#32 :=
    s.pushes_esp [cs.setWidth 32, eip]
  have hwords : words _ _ 2 = [eip, cs.setWidth 32] := @State.words_pushes s [cs.setWidth 32, eip] hroom
  have hflags : load (s.pushes [cs.setWidth 32, eip]).mem (s.reg .esp) = s.top :=
    load_congr fun k _ => @State.pushes_agree s [cs.setWidth 32, eip] hroom _ (Or.inr (Nat.le_add_right _ _))
  refine ⟨load_of_words (i := 0) hwords rfl, ?_, ?_, ?_, ?_, rfl, rfl⟩
  · have hcs := load_of_words (i := 1) hwords rfl
    show Function.update s.seg .cs ((load _ _).setWidth 16) = _
    rw [hcs]
    simp
  · show load _ ((s.pushes [cs.setWidth 32, eip]).reg .esp + 8#32) = _
    rw [hesp, BitVec.sub_add_cancel, hflags]
  · show ((s.pushes [cs.setWidth 32, eip]).drop 3).reg .esp = _
    rw [State.drop_esp, hesp]
    bv_omega
  · intro r hr
    exact (State.drop_reg _ 3 hr).trans (s.pushes_reg _ hr)

/-- The processor takes an interrupt through a gate for interrupts at the same privilege level. -/
def State.interrupt (s : State) (selector : BitVec 16) (offset : BitVec 32) (errCode : Option (BitVec 32)) : State :=
  let s' := s.pushes ([s.eflags, (s.seg .cs).setWidth 32, s.eip] ++ errCode.toList)
  { s' with
    seg := Function.update s'.seg .cs selector
    eip := offset
    eflags := withBit s.eflags 9 false }

end Cpu
