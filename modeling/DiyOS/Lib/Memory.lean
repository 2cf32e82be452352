import Mathlib.Data.List.Basic
import Mathlib.Logic.Function.Basic
import Mathlib.Tactic.Common

/-!
# Byte-addressed memory with little-endian words

A memory maps addresses to bytes. A 32-bit word at `a` occupies the bytes `a`, …, `a + 3`, the
least significant first.

* **`readWord_congr`** — a word is its four bytes, wherever they stand.
* **`readWord_writeWord`** — a word is read back where it was written.
* **`cString_eq`** — a string is read back from where it is laid out.
* **`Agree`** — two memories hold the same bytes over a range; a word, or any structure laid out in
  that range, reads the same in both (`Agree.readWord`).
* **`writeWord_agree`** — a write changes nothing outside its four bytes.
-/

/-- A memory: the byte at each address. -/
abbrev Mem := Nat → UInt8

namespace Mem

/-- The 32-bit word at `a`. -/
def readWord (m : Mem) (a : Nat) : Nat :=
  (m a).toNat + (m (a + 1)).toNat * 256 + (m (a + 2)).toNat * 65536 + (m (a + 3)).toNat * 16777216

/-- The 16-bit word at `a`. -/
def readHalf (m : Mem) (a : Nat) : Nat := (m a).toNat + (m (a + 1)).toNat * 256

/-- `m` with the byte `b` at `a`. -/
def writeByte (m : Mem) (a : Nat) (b : UInt8) : Mem := Function.update m a b

/-- `m` with the word `w` at `a`. -/
def writeWord (m : Mem) (a w : Nat) : Mem :=
  (((m.writeByte a (UInt8.ofNat w)).writeByte (a + 1) (UInt8.ofNat (w / 256))).writeByte (a + 2)
    (UInt8.ofNat (w / 65536))).writeByte (a + 3) (UInt8.ofNat (w / 16777216))

theorem writeByte_of_ne (m : Mem) {a c : Nat} (b : UInt8) (h : c ≠ a) : m.writeByte a b c = m c :=
  Function.update_of_ne h _ _

@[simp] theorem writeByte_self (m : Mem) (a : Nat) (b : UInt8) : m.writeByte a b a = b :=
  Function.update_self _ _ _

/-- A write of a word leaves every byte outside the word. -/
theorem writeWord_of_outside (m : Mem) {a c : Nat} (w : Nat) (h : c < a ∨ a + 4 ≤ c) :
    m.writeWord a w c = m c := by
  unfold writeWord
  rw [writeByte_of_ne _ _ (by omega), writeByte_of_ne _ _ (by omega),
    writeByte_of_ne _ _ (by omega), writeByte_of_ne _ _ (by omega)]

/-- A word is read as it was written. -/
theorem readWord_writeWord (m : Mem) (a : Nat) {w : Nat} (h : w < 4294967296) :
    (m.writeWord a w).readWord a = w := by
  unfold readWord writeWord
  -- the four bytes, each written once and not overwritten by the later ones
  rw [writeByte_self, writeByte_of_ne _ _ (show a + 2 ≠ a + 3 by omega), writeByte_self,
    writeByte_of_ne _ _ (show a + 1 ≠ a + 3 by omega),
    writeByte_of_ne _ _ (show a + 1 ≠ a + 2 by omega), writeByte_self,
    writeByte_of_ne _ _ (show a ≠ a + 3 by omega), writeByte_of_ne _ _ (show a ≠ a + 2 by omega),
    writeByte_of_ne _ _ (show a ≠ a + 1 by omega), writeByte_self]
  simp only [UInt8.toNat_ofNat']
  omega

theorem readWord_lt (m : Mem) (a : Nat) : m.readWord a < 4294967296 := by
  have h0 := (m a).toNat_lt
  have h1 := (m (a + 1)).toNat_lt
  have h2 := (m (a + 2)).toNat_lt
  have h3 := (m (a + 3)).toNat_lt
  unfold readWord
  omega

/-- A word is its four bytes. -/
theorem readWord_congr {m m' : Mem} {a a' : Nat} (h : ∀ k < 4, m' (a' + k) = m (a + k)) :
    m'.readWord a' = m.readWord a := by
  have h0 := h 0 (by decide)
  rw [Nat.add_zero, Nat.add_zero] at h0
  unfold readWord
  rw [h0, h 1 (by decide), h 2 (by decide), h 3 (by decide)]

/-- A half word is its two bytes. -/
theorem readHalf_congr {m m' : Mem} {a a' : Nat} (h : ∀ k < 2, m' (a' + k) = m (a + k)) :
    m'.readHalf a' = m.readHalf a := by
  have h0 := h 0 (by decide)
  rw [Nat.add_zero, Nat.add_zero] at h0
  unfold readHalf
  rw [h0, h 1 (by decide)]

/-- A word determines its four bytes. -/
theorem readWord_inj {m m' : Mem} {a a' : Nat} (h : m.readWord a = m'.readWord a') {k : Nat} (hk : k < 4) :
    m (a + k) = m' (a' + k) := by
  have hbytes : ∀ (m : Mem) (a : Nat), (m a).toNat < 256 := fun m a => (m a).toNat_lt
  have h0 := hbytes m a
  have h1 := hbytes m (a + 1)
  have h2 := hbytes m (a + 2)
  have h3 := hbytes m (a + 3)
  have h0' := hbytes m' a'
  have h1' := hbytes m' (a' + 1)
  have h2' := hbytes m' (a' + 2)
  have h3' := hbytes m' (a' + 3)
  unfold readWord at h
  apply UInt8.toNat_inj.mp
  match k, hk with
  | 0, _ =>
    show (m a).toNat = (m' a').toNat
    omega
  | 1, _ => omega
  | 2, _ => omega
  | 3, _ => omega

/-- The bytes of a word that is written. -/
theorem writeWord_byte (m : Mem) (a w : Nat) {k : Nat} (hk : k < 4) :
    (m.writeWord a w (a + k)).toNat = (w >>> (8 * k)) % 256 := by
  unfold writeWord
  match k, hk with
  | 0, _ =>
    show (writeByte _ (a + 3) _ a).toNat = w % 256
    rw [writeByte_of_ne _ _ (show a ≠ a + 3 by omega), writeByte_of_ne _ _ (show a ≠ a + 2 by omega),
      writeByte_of_ne _ _ (show a ≠ a + 1 by omega), writeByte_self]
    exact UInt8.toNat_ofNat'
  | 1, _ =>
    rw [writeByte_of_ne _ _ (show a + 1 ≠ a + 3 by omega), writeByte_of_ne _ _ (show a + 1 ≠ a + 2 by omega),
      writeByte_self, Nat.shiftRight_eq_div_pow]
    exact UInt8.toNat_ofNat'
  | 2, _ =>
    rw [writeByte_of_ne _ _ (show a + 2 ≠ a + 3 by omega), writeByte_self, Nat.shiftRight_eq_div_pow]
    exact UInt8.toNat_ofNat'
  | 3, _ =>
    rw [writeByte_self, Nat.shiftRight_eq_div_pow]
    exact UInt8.toNat_ofNat'

/-- A word that is written where it stands changes nothing. -/
theorem writeWord_readWord (m : Mem) (a : Nat) : m.writeWord a (m.readWord a) = m := by
  have hword := m.readWord_writeWord a (m.readWord_lt a)
  funext c
  by_cases hin : a ≤ c ∧ c < a + 4
  · obtain ⟨k, rfl⟩ := Nat.exists_eq_add_of_le hin.1
    exact readWord_inj hword (by omega)
  · exact writeWord_of_outside m _ (by omega)

/-! ## Bytes and strings

A range of memory as a list of bytes, and a string as the bytes before its first NUL. -/

/-- The `n` bytes from `a` on. -/
def bytes (m : Mem) (a n : Nat) : List UInt8 := (List.range n).map fun i => m (a + i)

@[simp] theorem length_bytes (m : Mem) (a n : Nat) : (m.bytes a n).length = n := by
  unfold bytes
  rw [List.length_map, List.length_range]

/-- The bytes of a range, one by one. -/
theorem getElem_bytes (m : Mem) (a n : Nat) {i : Nat} (h : i < (m.bytes a n).length) :
    (m.bytes a n)[i] = m (a + i) := by
  simp only [bytes, List.getElem_map, List.getElem_range]

theorem bytes_succ (m : Mem) (a n : Nat) : m.bytes a (n + 1) = m a :: m.bytes (a + 1) n := by
  unfold bytes
  rw [List.range_succ_eq_map, List.map_cons, List.map_map]
  refine congrArg₂ List.cons rfl (List.map_congr_left fun i _ => ?_)
  exact congrArg m (by simp only [Nat.succ_eq_add_one]; omega)

/-- A range is split where its first part ends. -/
theorem bytes_add (m : Mem) (a n k : Nat) : m.bytes a (n + k) = m.bytes a n ++ m.bytes (a + n) k := by
  unfold bytes
  rw [List.range_add, List.map_append, List.map_map]
  exact congrArg _ (List.map_congr_left fun i _ => congrArg m (Nat.add_assoc a n i).symm)

/-- The first bytes of a range are a range. -/
theorem take_bytes (m : Mem) (a : Nat) {k n : Nat} (h : k ≤ n) :
    (m.bytes a n).take k = m.bytes a k := by
  unfold bytes
  rw [← List.map_take, List.take_range, Nat.min_eq_left h]

/-- The bytes up to one that is written. -/
theorem bytes_writeByte (m : Mem) (a n : Nat) (b : UInt8) :
    (m.writeByte (a + n) b).bytes a (n + 1) = m.bytes a n ++ [b] := by
  have hbefore : (m.writeByte (a + n) b).bytes a n = m.bytes a n :=
    List.map_congr_left fun i hi => writeByte_of_ne m b (by have := List.mem_range.mp hi; omega)
  rw [bytes_add, hbefore, bytes_succ, writeByte_self]
  rfl

/-- `m` with the bytes `bs` from `a` on. -/
def writeBytes (m : Mem) (a : Nat) (bs : List UInt8) : Mem :=
  fun c => if a ≤ c then bs.getD (c - a) (m c) else m c

/-- A byte is there after it was written with others. -/
theorem writeBytes_apply (m : Mem) (a : Nat) {bs : List UInt8} {k : Nat} (hk : k < bs.length) :
    m.writeBytes a bs (a + k) = bs[k] := by
  unfold writeBytes
  rw [if_pos (Nat.le_add_right a k), Nat.add_sub_cancel_left, List.getD_eq_getElem?_getD,
    List.getElem?_eq_getElem hk]
  rfl

/-- The string at `a`, of at most `n` bytes. -/
def cString (m : Mem) : Nat → Nat → List UInt8
  | _, 0 => []
  | a, n + 1 => if m a = 0 then [] else m a :: m.cString (a + 1) n

/-- A string is read back from where it is laid out with its NUL. -/
theorem cString_eq {m : Mem} {a n : Nat} {s : List UInt8} (hzero : 0 ∉ s) (hlt : s.length < n)
    (hbytes : m.bytes a (s.length + 1) = s ++ [0]) : m.cString a n = s := by
  induction s generalizing a n with
  | nil =>
    rcases Nat.exists_eq_succ_of_ne_zero (Nat.ne_of_gt hlt) with ⟨n, rfl⟩
    rw [List.length_nil, bytes_succ] at hbytes
    exact if_pos (List.cons.inj hbytes).1
  | cons c s ih =>
    rcases Nat.exists_eq_succ_of_ne_zero (Nat.ne_of_gt (Nat.zero_lt_of_lt hlt)) with ⟨n, rfl⟩
    rw [List.length_cons, bytes_succ, List.cons_append] at hbytes
    rcases List.cons.inj hbytes with ⟨hfirst, hrest⟩
    have hne : m a ≠ 0 := by
      rw [hfirst]
      exact fun heq => hzero (heq ▸ List.mem_cons_self)
    show (if m a = 0 then [] else m a :: m.cString (a + 1) n) = c :: s
    rw [if_neg hne, hfirst, ih (fun hin => hzero (List.mem_cons_of_mem _ hin))
      (Nat.lt_of_succ_lt_succ hlt) hrest]

/-! ## Agreement over a range

Most frame conditions say that two memories agree over some range, and are used for what is read there. -/

/-- `m` and `m'` hold the same bytes at the `n` addresses from `a` on. -/
def Agree (m m' : Mem) (a n : Nat) : Prop := ∀ k < n, m' (a + k) = m (a + k)

theorem Agree.refl (m : Mem) (a n : Nat) : Agree m m a n := fun _ _ => rfl

theorem Agree.trans {m m' m'' : Mem} {a n : Nat} (h : Agree m m' a n) (h' : Agree m' m'' a n) :
    Agree m m'' a n := fun k hk => (h' k hk).trans (h k hk)

/-- Two memories that agree over a range have the same words in it. -/
theorem Agree.readWord {m m' : Mem} {a n : Nat} (h : Agree m m' a n) {k : Nat} (hk : k + 4 ≤ n) :
    m'.readWord (a + k) = m.readWord (a + k) := by
  have h0 := h k (by omega)
  have h1 := h (k + 1) (by omega)
  have h2 := h (k + 2) (by omega)
  have h3 := h (k + 3) (by omega)
  unfold Mem.readWord
  rw [Nat.add_assoc a k 1, Nat.add_assoc a k 2, Nat.add_assoc a k 3, h0, h1, h2, h3]

/-- They agree over every range inside it. -/
theorem Agree.sub {m m' : Mem} {a n : Nat} (h : Agree m m' a n) {k l : Nat} (hkl : k + l ≤ n) :
    Agree m m' (a + k) l := by
  intro i hi
  rw [Nat.add_assoc]
  exact h (k + i) (by omega)

theorem Agree.bytes {m m' : Mem} {a n : Nat} (h : Agree m m' a n) : m'.bytes a n = m.bytes a n :=
  List.map_congr_left fun i hi => h i (List.mem_range.mp hi)

/-- A word that is written outside a range leaves it. -/
theorem writeWord_agree (m : Mem) {a n c : Nat} (w : Nat) (h : c + 4 ≤ a ∨ a + n ≤ c) :
    Agree m (m.writeWord c w) a n :=
  fun k hk => writeWord_of_outside m w (by omega)

theorem writeByte_agree (m : Mem) {a n c : Nat} (b : UInt8) (h : c < a ∨ a + n ≤ c) :
    Agree m (m.writeByte c b) a n :=
  fun k hk => writeByte_of_ne m b (by omega)

/-- A word that does not overlap the one written keeps its value. -/
theorem readWord_writeWord_of_disjoint (m : Mem) {a c : Nat} (w : Nat)
    (h : c + 4 ≤ a ∨ a + 4 ≤ c) : (m.writeWord c w).readWord a = m.readWord a :=
  (writeWord_agree m w h).readWord (Nat.le_refl 4)

end Mem
