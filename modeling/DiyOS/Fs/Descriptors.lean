import DiyOS.Fs.Ramfs
import DiyOS.Lib.Run

/-!
# The file descriptors of a task (`lib/system/open.c`, `read.c`, `write.c`)

`task_t` is packed: `files`, sixteen slots of a node and an offset, stands at byte 34, and `file_count`
right behind it, at byte 162. A descriptor is the index of a slot. `open` does not compare the count
with 16, and `write` compares with `>` where `read` compares with `>=`.

* **`Table`** — the invariant: the descriptors returned are the slots below `file_count`.
* **`Table.step`** — one call keeps it, if it stays within the table.
* **`files_table`** — so over any run each descriptor designates the node it was opened on, and `read`
  and `write` accept no other.
-/

namespace DiyOS

open Word CString

/-! ## The calls

`t` is the address of the record of the running task. -/

/-- The address of `t->file_count`. -/
def fileCountAt (t : Nat) : Nat := t + 162

/-- The address of `t->files[i].node`. -/
def filesAt (t i : Nat) : Nat := u32 (t + 34 + 8 * i)

def fileCount (m : Mem) (t : Nat) : Nat := m.readWord (fileCountAt t)

def filesNode (m : Mem) (t i : Nat) : NodePtr := m.readWord (filesAt t i)

/-- `open`: the descriptor it returns, and the memory it leaves. -/
def sysOpen (fuel : Nat) (v : Vfs) (t : Nat) (m : Mem) (name : CString) : Except Halt (Int × Mem) :=
  match finddirFs v fuel v.rootNode name with
  | .error e => .error e
  | .ok none => .ok (-1, m)
  | .ok (some file) =>
    let m := m.writeWord (fileCountAt t) (u32 (fileCount m t + 1))
    let m := m.writeWord (filesAt t (sub32 (fileCount m t) 1)) file
    .ok (int32 (sub32 (fileCount m t) 1), m)

/-- `read`: the node it passes to `read_fs`, and the result. -/
def sysRead (v : Vfs) (t : Nat) (m : Mem) (fd size : Nat) :
    Except Halt (Option NodePtr × Option (Nat × List UInt8)) :=
  if fd ≥ fileCount m t then .ok (none, some (0, []))
  else
    match readFs m v (filesNode m t fd) 0 size with
    | .error e => .error e
    | .ok r => .ok (some (filesNode m t fd), r)

/-- `write`: the node it passes to `write_fs`. The callback of the serial ports, `serial_write_fs`, changes
no memory, and the field `write` of every other node is 0; what `write_fs` returns is left out. -/
def sysWrite (t : Nat) (m : Mem) (fd : Nat) : Option NodePtr :=
  if fd > fileCount m t then none else some (filesNode m t fd)

/-! ## Steps -/

structure FileState where
  mem : Mem
  vfs : Vfs

/-- A call with what it returned: `open` with the node that was found, `read` and `write` with the node
they passed on. -/
inductive FileEvent where
  | open (name : CString) (found : Option NodePtr) (fd : Int)
  | read (fd size : Nat) (node : Option NodePtr)
  | write (fd : Nat) (node : Option NodePtr)
  | other

/-- A call by the task; or anything else, which leaves the table of the task. -/
inductive FileStep (t : Nat) : FileState → FileEvent → FileState → Prop where
  | open {s : FileState} {m : Mem} {fuel : Nat} {name : CString} {found : Option NodePtr} {fd : Int}
      (hfind : finddirFs s.vfs fuel s.vfs.rootNode name = .ok found)
      (hptr : ∀ file, found = some file → file < 4294967296)
      (hcall : sysOpen fuel s.vfs t s.mem name = .ok (fd, m)) :
      FileStep t s (.open name found fd) { s with mem := m }
  | read {s : FileState} {fd size : Nat} {node : Option NodePtr} {r : Option (Nat × List UInt8)}
      (hcall : sysRead s.vfs t s.mem fd size = .ok (node, r)) : FileStep t s (.read fd size node) s
  | write {s : FileState} (fd : Nat) : FileStep t s (.write fd (sysWrite t s.mem fd)) s
  | other {s : FileState} {m : Mem} (v : Vfs) (hagree : Mem.Agree s.mem m (t + 34) 132) :
      FileStep t s .other ⟨m, v⟩

/-- The descriptor that a call of `open` returns, with the node it was opened on. -/
def openedBy (τ : Transition FileState FileEvent) : Option (Nat × NodePtr) :=
  match τ.event with
  | .open _ (some file) fd => if 0 ≤ fd then some (fd.toNat, file) else none
  | .open _ none _ | .read _ _ _ | .write _ _ | .other => none

def opened (tr : List (Transition FileState FileEvent)) : List (Nat × NodePtr) := tr.filterMap openedBy

/-- No file is opened with all slots in use, and `write` is not given `file_count` itself. -/
def WithinTable (t : Nat) (τ : Transition FileState FileEvent) : Prop :=
  match τ.event with
  | .open _ found _ => found ≠ none → fileCount τ.pre.mem t < 16
  | .write fd _ => fd ≠ fileCount τ.pre.mem t
  | .read _ _ _ | .other => True

/-- What is promised of a call, where `before` has been opened before it. -/
structure CallOk (t : Nat) (before : List (Nat × NodePtr)) (τ : Transition FileState FileEvent) :
    Prop where
  /-- Each descriptor returned designates the node it was opened on. -/
  designates : ∀ p ∈ before ++ (openedBy τ).toList, p.1 < 16 ∧ filesNode τ.post.mem t p.1 = p.2
  /-- `open` changes `files` and `file_count` alone. -/
  frame : ∀ name found fd, τ.event = .open name found fd →
    ∀ a, a < t + 34 ∨ t + 166 ≤ a → τ.post.mem a = τ.pre.mem a
  /-- `read` passes on the node of a descriptor that was returned, and no other. -/
  read : ∀ fd size node, τ.event = .read fd size node → ∀ n, node = some n ↔ (fd, n) ∈ before
  write : ∀ fd node, τ.event = .write fd node → ∀ n, node = some n ↔ (fd, n) ∈ before

/-! ## The table -/

/-- The descriptors in `before` are the slots below `file_count`, each with the node in its slot. -/
structure Table (t : Nat) (before : List (Nat × NodePtr)) (s : FileState) : Prop where
  le : fileCount s.mem t ≤ 16
  eq : before = (List.range (fileCount s.mem t)).map fun i => (i, filesNode s.mem t i)

section

variable {t : Nat} {before : List (Nat × NodePtr)} {s s' : FileState} {e : FileEvent} {m : Mem}

/-- Before the first `open` the table is empty. -/
theorem Table.empty (hzero : fileCount s.mem t = 0) : Table t [] s := by
  refine ⟨?_, ?_⟩
  · rw [hzero]
    exact Nat.zero_le _
  · rw [hzero]
    rfl

theorem Table.mem_iff (h : Table t before s) {fd : Nat} {n : NodePtr} :
    (fd, n) ∈ before ↔ fd < fileCount s.mem t ∧ n = filesNode s.mem t fd := by
  rw [h.eq, List.mem_map]
  refine ⟨?_, ?_⟩
  · rintro ⟨i, hi, heq⟩
    rcases Prod.mk.inj heq with ⟨rfl, rfl⟩
    exact ⟨List.mem_range.mp hi, rfl⟩
  · rintro ⟨hlt, rfl⟩
    exact ⟨fd, List.mem_range.mpr hlt, rfl⟩

theorem Table.designates (h : Table t before s) :
    ∀ p ∈ before, p.1 < 16 ∧ filesNode s.mem t p.1 = p.2 := by
  rintro ⟨fd, n⟩ hp
  rcases h.mem_iff.mp hp with ⟨hlt, heq⟩
  exact ⟨Nat.lt_of_lt_of_le hlt h.le, heq.symm⟩

/-- The slots of the table lie before `file_count`. -/
theorem filesAt_of_le (ht : t + 209 ≤ 4294967296) {i : Nat} (hi : i ≤ 16) :
    filesAt t i = t + 34 + 8 * i := u32_of_lt (by omega)

/-- The table looks at the bytes of `files` and `file_count`. -/
theorem Table.of_agree (h : Table t before s) (ht : t + 209 ≤ 4294967296)
    (hagree : Mem.Agree s.mem s'.mem (t + 34) 132) : Table t before s' := by
  have hcount : fileCount s'.mem t = fileCount s.mem t := hagree.readWord (k := 128) (by decide)
  refine ⟨?_, ?_⟩
  · rw [hcount]
    exact h.le
  · rw [hcount, h.eq]
    refine List.map_congr_left fun i hi => ?_
    have hlt : i < 16 := Nat.lt_of_lt_of_le (List.mem_range.mp hi) h.le
    unfold filesNode
    rw [filesAt_of_le ht (Nat.le_of_lt hlt), hagree.readWord (k := 8 * i) (by omega)]

/-! ## `open` -/

/-- What `open` returns and leaves. -/
theorem sysOpen_cases {fuel : Nat} {v : Vfs} {name : CString} {found : Option NodePtr} {fd : Int}
    {m' : Mem} (hfind : finddirFs v fuel v.rootNode name = .ok found)
    (hcall : sysOpen fuel v t m name = .ok (fd, m')) :
    found = none ∧ fd = -1 ∧ m' = m
      ∨ ∃ file, found = some file
        ∧ m' = (m.writeWord (fileCountAt t) (u32 (fileCount m t + 1))).writeWord
            (filesAt t (sub32 (u32 (fileCount m t + 1)) 1)) file
        ∧ fd = int32 (sub32 (fileCount m' t) 1) := by
  unfold sysOpen at hcall
  rw [hfind] at hcall
  cases found with
  | none =>
    rcases Prod.mk.inj (Except.ok.inj hcall) with ⟨rfl, rfl⟩
    exact Or.inl ⟨rfl, rfl, rfl⟩
  | some file =>
    have hcount : fileCount (m.writeWord (fileCountAt t) (u32 (fileCount m t + 1))) t
        = u32 (fileCount m t + 1) := Mem.readWord_writeWord m _ (u32_lt _)
    simp only [hcount] at hcall
    rcases Prod.mk.inj (Except.ok.inj hcall) with ⟨rfl, rfl⟩
    exact Or.inr ⟨file, rfl, rfl, rfl⟩

/-- **`open` with a slot left** puts the node into the slot of the descriptor it returns. -/
theorem Table.open (h : Table t before s) (ht : t + 209 ≤ 4294967296) {fuel : Nat} {name : CString}
    {file : NodePtr} {fd : Int} (hlt : fileCount s.mem t < 16) (hptr : file < 4294967296)
    (hfind : finddirFs s.vfs fuel s.vfs.rootNode name = .ok (some file))
    (hcall : sysOpen fuel s.vfs t s.mem name = .ok (fd, m)) :
    fd = fileCount s.mem t ∧ Table t (before ++ [(fileCount s.mem t, file)]) { s with mem := m }
      ∧ ∀ a, a < t + 34 ∨ t + 166 ≤ a → m a = s.mem a := by
  rcases sysOpen_cases hfind hcall with ⟨hnone, _⟩ | ⟨file', hfile, hm, hfd⟩
  · cases hnone
  obtain rfl := Option.some.inj hfile
  have hsucc : u32 (fileCount s.mem t + 1) = fileCount s.mem t + 1 := u32_of_lt (by omega)
  have hpred : sub32 (fileCount s.mem t + 1) 1 = fileCount s.mem t :=
    (sub32_of_le (by omega) (by omega)).trans (Nat.add_sub_cancel _ 1)
  rw [hsucc, hpred, filesAt_of_le ht (by omega)] at hm
  -- the slot lies in front of the counter
  have hcount : fileCount m t = fileCount s.mem t + 1 := by
    unfold fileCount fileCountAt at hm hlt ⊢
    rw [hm, Mem.readWord_writeWord_of_disjoint _ _ (by omega)]
    exact Mem.readWord_writeWord _ _ (by omega)
  rw [hcount, hpred, int32_of_lt (by omega)] at hfd
  have hnew : filesNode m t (fileCount s.mem t) = file := by
    unfold filesNode
    rw [filesAt_of_le ht (by omega), hm]
    exact Mem.readWord_writeWord _ _ hptr
  -- and behind the slots in use
  have hold : ∀ i < fileCount s.mem t, filesNode m t i = filesNode s.mem t i := by
    intro i hi
    unfold filesNode
    rw [filesAt_of_le ht (by omega), hm, Mem.readWord_writeWord_of_disjoint _ _ (by omega),
      Mem.readWord_writeWord_of_disjoint _ _ (by unfold fileCountAt; omega)]
  refine ⟨hfd, ⟨?_, ?_⟩, ?_⟩
  · show fileCount m t ≤ 16
    omega
  · show _ = (List.range (fileCount m t)).map fun i => (i, filesNode m t i)
    have hsame : ((List.range (fileCount s.mem t)).map fun i => (i, filesNode m t i)) = before := by
      rw [h.eq]
      exact List.map_congr_left fun i hi => congrArg (Prod.mk i) (hold i (List.mem_range.mp hi))
    rw [hcount, List.range_succ, List.map_append, List.map_singleton, hnew, hsame]
  · intro a ha
    rw [hm, Mem.writeWord_of_outside _ _ (by omega),
      Mem.writeWord_of_outside _ _ (by unfold fileCountAt; omega)]

/-- **`open` with all slots in use** writes the node over `file_count`. -/
theorem sysOpen_full (ht : t + 209 ≤ 4294967296) {fuel file : Nat} {v : Vfs} {name : CString}
    {fd : Int} {m' : Mem} (hfull : fileCount m t = 16) (hptr : file < 4294967296)
    (hfind : finddirFs v fuel v.rootNode name = .ok (some file))
    (hcall : sysOpen fuel v t m name = .ok (fd, m')) :
    fileCount m' t = file ∧ fd = int32 (sub32 file 1) := by
  rcases sysOpen_cases hfind hcall with ⟨hnone, _⟩ | ⟨file', hfile, hm, hfd⟩
  · cases hnone
  obtain rfl := Option.some.inj hfile
  rw [hfull] at hm
  -- `files[16].node` is `file_count`
  have hslot : filesAt t (sub32 (u32 (16 + 1)) 1) = fileCountAt t := filesAt_of_le ht (Nat.le_refl 16)
  have hcount : fileCount m' t = file := by
    unfold fileCount
    rw [hm, hslot]
    exact Mem.readWord_writeWord _ _ hptr
  rw [hcount] at hfd
  exact ⟨hcount, hfd⟩

/-! ## One call -/

/-- `read` passes on a node exactly if the descriptor is below `file_count`. -/
theorem sysRead_node {v : Vfs} {fd size : Nat} {node : Option NodePtr}
    {r : Option (Nat × List UInt8)} (hcall : sysRead v t m fd size = .ok (node, r)) (n : NodePtr) :
    node = some n ↔ fd < fileCount m t ∧ n = filesNode m t fd := by
  unfold sysRead at hcall
  by_cases hge : fd ≥ fileCount m t
  · rw [if_pos hge] at hcall
    rcases Prod.mk.inj (Except.ok.inj hcall) with ⟨rfl, _⟩
    exact iff_of_false (fun heq => by cases heq) fun hboth => absurd hboth.1 (Nat.not_lt.mpr hge)
  · rw [if_neg hge] at hcall
    split at hcall
    · cases hcall
    · rcases Prod.mk.inj (Except.ok.inj hcall) with ⟨rfl, _⟩
      rw [Option.some.injEq]
      exact ⟨fun heq => ⟨Nat.lt_of_not_le hge, heq.symm⟩, fun hboth => hboth.2.symm⟩

/-- `write` moreover accepts `file_count` itself. -/
theorem sysWrite_node (t : Nat) (m : Mem) (fd : Nat) (n : NodePtr) :
    sysWrite t m fd = some n ↔ fd ≤ fileCount m t ∧ n = filesNode m t fd := by
  unfold sysWrite
  by_cases hgt : fd > fileCount m t
  · rw [if_pos hgt]
    exact iff_of_false (fun heq => by cases heq) fun hboth => absurd hboth.1 (Nat.not_le.mpr hgt)
  · rw [if_neg hgt, Option.some.injEq]
    exact ⟨fun heq => ⟨Nat.le_of_not_lt hgt, heq.symm⟩, fun hboth => hboth.2.symm⟩

/-- A call that opens nothing leaves the list of descriptors. -/
theorem Table.quiet {τ : Transition FileState FileEvent} (h : Table t before τ.post) (hnone : openedBy τ = none) :
    Table t (before ++ (openedBy τ).toList) τ.post
      ∧ ∀ p ∈ before ++ (openedBy τ).toList, p.1 < 16 ∧ filesNode τ.post.mem t p.1 = p.2 := by
  rw [hnone, Option.toList_none, List.append_nil]
  exact ⟨h, h.designates⟩

/-- **One call within the table** keeps it, and is as promised. -/
theorem Table.step (h : Table t before s) (ht : t + 209 ≤ 4294967296) (hstep : FileStep t s e s')
    (hwithin : WithinTable t ⟨s, e, s'⟩) :
    Table t (before ++ (openedBy ⟨s, e, s'⟩).toList) s' ∧ CallOk t before ⟨s, e, s'⟩ := by
  cases hstep with
  | @«open» m fuel name found fd hfind hptr hcall =>
    cases found with
    -- a path that is not found leaves the table
    | none =>
      rcases sysOpen_cases hfind hcall with ⟨_, _, rfl⟩ | ⟨_, hsome, _⟩
      · refine ⟨by simpa [openedBy] using h, ?_, fun _ _ _ _ _ _ => rfl, fun _ _ _ heq => ?_,
          fun _ _ heq => ?_⟩
        · simpa [openedBy] using h.designates
        · cases heq
        · cases heq
      · cases hsome
    | some file =>
      obtain ⟨rfl, htable, hframe⟩ := h.open ht (hwithin (Option.some_ne_none file))
        (hptr file rfl) hfind hcall
      have hopened : openedBy ⟨s, .open name (some file) (fileCount s.mem t), { s with mem := m }⟩
          = some (fileCount s.mem t, file) := by
        unfold openedBy
        simp
      rw [hopened]
      refine ⟨htable, ?_, fun _ _ _ _ => hframe, fun _ _ _ heq => ?_, fun _ _ heq => ?_⟩
      · rw [hopened]
        exact htable.designates
      · cases heq
      · cases heq
  | @read fd size node r hcall =>
    obtain ⟨htable, hdesignates⟩ := @Table.quiet t before ⟨s, .read fd size node, s⟩ h rfl
    refine ⟨htable, hdesignates, fun _ _ _ heq => ?_, ?_, fun _ _ heq => ?_⟩
    · cases heq
    · intro fd' size' node' heq n
      rcases FileEvent.read.inj heq with ⟨rfl, rfl, rfl⟩
      rw [h.mem_iff]
      exact sysRead_node hcall n
    · cases heq
  | write fd =>
    -- `write` tests by `>`, so that one descriptor behind the table passes; this is not it
    have hne : fd ≠ fileCount s.mem t := hwithin
    obtain ⟨htable, hdesignates⟩ := @Table.quiet t before ⟨s, .write fd (sysWrite t s.mem fd), s⟩ h rfl
    refine ⟨htable, hdesignates, fun _ _ _ heq => ?_, fun _ _ _ heq => ?_, ?_⟩
    · cases heq
    · cases heq
    · intro fd' node' heq n
      rcases FileEvent.write.inj heq with ⟨rfl, rfl⟩
      rw [h.mem_iff, sysWrite_node]
      exact and_congr_left fun _ => ⟨fun hle => Nat.lt_of_le_of_ne hle hne, Nat.le_of_lt⟩
  | @other m v hagree =>
    obtain ⟨htable, hdesignates⟩ := @Table.quiet t before ⟨s, .other, ⟨m, v⟩⟩ (h.of_agree ht hagree) rfl
    refine ⟨htable, hdesignates, fun _ _ _ heq => ?_, fun _ _ _ heq => ?_, fun _ _ heq => ?_⟩
    · cases heq
    · cases heq
    · cases heq

/-! ## Runs -/

/-- Every call of a run is as promised. -/
def CallsOk (t : Nat) (tr : List (Transition FileState FileEvent)) : Prop :=
  ∀ before τ after, tr = before ++ τ :: after → CallOk t (opened before) τ

/-- `finddir_fs` gives an address above 16 and in the lower half of the address space, so that the address
less one is a descriptor. The nodes that `malloc` gives lie above 0xC0000000; there the seventeenth `open`
returns a negative number, and it is a later call that accepts what was not returned. -/
def LowNode (τ : Transition FileState FileEvent) : Prop :=
  ∀ name (file : Nat) fd, τ.event = .open name (some file) fd → 16 < file ∧ file ≤ 2147483648

variable {tr : List (Transition FileState FileEvent)} {τ : Transition FileState FileEvent}

theorem opened_snoc (tr : List (Transition FileState FileEvent)) (τ : Transition FileState FileEvent) :
    opened (tr ++ [τ]) = opened tr ++ (openedBy τ).toList := List.filterMap_snoc _ _ _

theorem callsOk_nil (t : Nat) : CallsOk t [] := by
  intro before τ after heq
  have hlength := congrArg List.length heq
  rw [List.length_append, List.length_cons, List.length_nil] at hlength
  omega

theorem callsOk_snoc : CallsOk t (tr ++ [τ]) ↔ CallsOk t tr ∧ CallOk t (opened tr) τ := by
  refine ⟨?_, ?_⟩
  · intro h
    refine ⟨?_, h tr τ [] rfl⟩
    intro before τ' after heq
    refine h before τ' (after ++ [τ]) ?_
    rw [heq, List.append_assoc, List.cons_append]
  · rintro ⟨htr, hlast⟩ before τ' after heq
    rcases List.eq_nil_or_concat after with rfl | ⟨after', x, rfl⟩
    · rcases List.append_inj' heq rfl with ⟨rfl, hτ⟩
      obtain rfl := List.singleton_inj.mp hτ
      exact hlast
    · rw [List.concat_eq_append, ← List.cons_append, ← List.append_assoc] at heq
      rcases List.append_inj' heq rfl with ⟨heq', _⟩
      exact htr before τ' after' heq'

/-- A write to `file_count` passes on a node that was not opened. -/
theorem Table.not_ok_write (h : Table t before s) {fd : Nat}
    (hok : CallOk t before ⟨s, .write fd (sysWrite t s.mem fd), s'⟩) : fd ≠ fileCount s.mem t := by
  rintro rfl
  have hnode := (sysWrite_node t s.mem _ _).mpr ⟨Nat.le_refl _, rfl⟩
  have hin := (hok.write _ _ rfl _).mp hnode
  exact Nat.lt_irrefl _ (h.mem_iff.mp hin).1

/-- An `open` with all slots in use returns an address less one, which is no slot. -/
theorem Table.not_ok_open (h : Table t before s) (ht : t + 209 ≤ 4294967296) {fuel file : Nat}
    {name : CString} {fd : Int}
    (hfind : finddirFs s.vfs fuel s.vfs.rootNode name = .ok (some file))
    (hcall : sysOpen fuel s.vfs t s.mem name = .ok (fd, m)) (hfile : 16 < file ∧ file ≤ 2147483648)
    (hok : CallOk t before ⟨s, .open name (some file) fd, s'⟩) : fileCount s.mem t < 16 := by
  by_contra hge
  have hfull : fileCount s.mem t = 16 := Nat.le_antisymm h.le (Nat.le_of_not_lt hge)
  rcases sysOpen_full ht hfull (by omega) hfind hcall with ⟨_, hfd⟩
  rw [sub32_of_le (by omega) (by omega), int32_of_lt (by omega)] at hfd
  have hopened : openedBy ⟨s, .open name (some file) fd, s'⟩ = some (file - 1, file) := by
    unfold openedBy
    rw [hfd]
    simp
  have hbound := (hok.designates (file - 1, file) (by rw [hopened]; simp)).1
  simp only at hbound
  omega

/-- **File descriptors.** A task starts with `file_count` 0. In every run in which no file is opened
with all sixteen slots in use and `write` is never given `file_count` itself, each call is as promised:
a descriptor that `open` returned is below 16 and designates its node from then on, `open` changes the
table alone, and `read` and `write` pass on the nodes of these descriptors and no others. Where the
nodes lie above address 16 and in the lower half of the address space, the condition is exact. -/
theorem files_table {s₀ : FileState} (ht : t + 209 ≤ 4294967296) (hzero : fileCount s₀.mem t = 0)
    (hrun : Run (FileStep t) s₀ tr s) :
    ((∀ τ ∈ tr, WithinTable t τ) → CallsOk t tr)
      ∧ ((∀ τ ∈ tr, LowNode τ) → CallsOk t tr → ∀ τ ∈ tr, WithinTable t τ) := by
  -- by induction on the run: the table holds what has been opened so far
  have hforward : (∀ τ ∈ tr, WithinTable t τ) → Table t (opened tr) s ∧ CallsOk t tr := by
    induction hrun with
    | nil => exact fun _ => ⟨Table.empty hzero, callsOk_nil t⟩
    | snoc _ hstep ih =>
      intro hall
      rw [List.forall_mem_append, List.forall_mem_singleton] at hall
      rcases ih hall.1 with ⟨htable, hcalls⟩
      rcases htable.step ht hstep hall.2 with ⟨htable', hcall⟩
      rw [opened_snoc]
      exact ⟨htable', callsOk_snoc.mpr ⟨hcalls, hcall⟩⟩
  refine ⟨fun hall => (hforward hall).2, ?_⟩
  clear hforward
  intro hlow hok
  -- a call that is as promised, after calls within the table, is within the table
  have hback : Table t (opened tr) s ∧ ∀ τ ∈ tr, WithinTable t τ := by
    induction hrun with
    | nil => exact ⟨Table.empty hzero, List.forall_mem_nil _⟩
    | @snoc tr s s' e _ hstep ih =>
      rw [List.forall_mem_append, List.forall_mem_singleton] at hlow ⊢
      rcases callsOk_snoc.mp hok with ⟨hcalls, hcall⟩
      rcases ih hlow.1 hcalls with ⟨htable, hall⟩
      have hwithin : WithinTable t ⟨s, e, s'⟩ := by
        cases hstep with
        | @«open» m fuel name found fd hfind hptr hopen =>
          intro hfound
          rcases Option.ne_none_iff_exists'.mp hfound with ⟨file, rfl⟩
          exact htable.not_ok_open ht hfind hopen (hlow.2 name file fd rfl) hcall
        | write fd => exact htable.not_ok_write hcall
        | read | other => trivial
      rw [opened_snoc]
      exact ⟨(htable.step ht hstep hwithin).1, hall, hwithin⟩
  exact hback.2

/-! ## The seventeenth file -/

/-- A node that is found can be opened while there are slots. -/
theorem opens_run {v : Vfs} {fuel : Nat} {name : CString} {file : NodePtr}
    (hfind : finddirFs v fuel v.rootNode name = .ok (some file)) (hptr : file < 4294967296)
    (ht : t + 209 ≤ 4294967296) (hzero : fileCount m t = 0) {n : Nat} (hn : n ≤ 16) :
    ∃ tr m', Run (FileStep t) ⟨m, v⟩ tr ⟨m', v⟩ ∧ tr.length = n ∧ Table t (opened tr) ⟨m', v⟩
      ∧ fileCount m' t = n := by
  induction n with
  | zero => exact ⟨[], m, Run.nil, rfl, Table.empty hzero, hzero⟩
  | succ n ih =>
    rcases ih (by omega) with ⟨tr, m₁, hrun, hlength, htable, hcount⟩
    obtain ⟨fd, m₂, hcall⟩ : ∃ fd m₂, sysOpen fuel v t m₁ name = .ok (fd, m₂) := by
      unfold sysOpen
      rw [hfind]
      exact ⟨_, _, rfl⟩
    have hstep := @FileStep.open t ⟨m₁, v⟩ m₂ fuel name _ fd hfind
      (fun _ heq => Option.some.inj heq ▸ hptr) hcall
    have hlt : fileCount m₁ t < 16 := by omega
    have hwithin : WithinTable t ⟨⟨m₁, v⟩, .open name (some file) fd, ⟨m₂, v⟩⟩ := fun _ => hlt
    have htable' := (htable.step ht hstep hwithin).1
    rw [← opened_snoc] at htable'
    have hlength' := congrArg List.length htable'.eq
    refine ⟨_, m₂, hrun.snoc hstep, by rw [List.length_append, hlength]; rfl, htable', ?_⟩
    rcases htable.open ht hlt hptr hfind hcall with ⟨rfl, hopen, _⟩
    have hone := congrArg List.length hopen.eq
    rw [List.length_append, List.length_map, List.length_range, htable.eq, List.length_map,
      List.length_range, hcount] at hone
    exact hone.symm

end

/-- The root on the heap. -/
def fileVfs : Vfs := fsRoot { bootVfs with nextNode := 0xC0200000 }

theorem fileVfs_root : finddirFs fileVfs 1 fileVfs.rootNode [slash] = .ok (some 0xC0200000) := rfl

/-- The root has no callback that reads. -/
theorem sysRead_root {t fd size : Nat} {m : Mem} (hfd : fd < fileCount m t) (hnode : filesNode m t fd = 0xC0200000) :
    sysRead fileVfs t m fd size = .ok (some 0xC0200000, some (0, [])) := by
  unfold sysRead
  rw [if_neg (Nat.not_le.mpr hfd), hnode]
  rfl

/-- A task opens the root, reads from it and writes to it. -/
theorem files_table_root :
    ∃ (tr : List (Transition FileState FileEvent)) (s : FileState),
      Run (FileStep 0xC0100000) ⟨fun _ => 0, fileVfs⟩ tr s ∧ tr.length = 3 ∧ opened tr = [(0, 0xC0200000)]
        ∧ CallsOk 0xC0100000 tr := by
  have hzero : fileCount (fun _ => 0) 0xC0100000 = 0 := rfl
  obtain ⟨fd, m, hcall⟩ : ∃ fd m, sysOpen 1 fileVfs 0xC0100000 (fun _ => 0) [slash] = .ok (fd, m) := by
    unfold sysOpen
    rw [fileVfs_root]
    exact ⟨_, _, rfl⟩
  have hopen := @FileStep.open 0xC0100000 ⟨fun _ => 0, fileVfs⟩ m 1 [slash] _ fd fileVfs_root
    (fun _ heq => Option.some.inj heq ▸ by decide) hcall
  obtain ⟨rfl, htable, -⟩ := (@Table.empty 0xC0100000 ⟨fun _ => 0, fileVfs⟩ hzero).open (by decide)
    (by rw [hzero]; decide) (by decide) fileVfs_root hcall
  rw [hzero, List.nil_append] at htable
  -- the descriptor 0 designates the root now
  obtain ⟨hlt, hnode⟩ := htable.mem_iff.mp (List.mem_singleton_self _)
  have hcount : fileCount m 0xC0100000 = 1 := by
    have hlength := congrArg List.length htable.eq
    rw [List.length_map, List.length_range, List.length_singleton] at hlength
    exact hlength.symm
  have hread := @FileStep.read 0xC0100000 ⟨m, fileVfs⟩ 0 8 _ _ (sysRead_root hlt hnode.symm)
  have hrun := ((Run.nil.snoc hopen).snoc hread).snoc (@FileStep.write 0xC0100000 ⟨m, fileVfs⟩ 0)
  refine ⟨_, _, hrun, rfl, ?_, (files_table (by decide) hzero hrun).1 ?_⟩
  · simp [opened, openedBy, hzero]
  · simp only [List.nil_append, List.forall_mem_append, List.forall_mem_singleton]
    refine ⟨⟨fun _ => ?_, trivial⟩, ?_⟩
    · show fileCount (fun _ => 0) 0xC0100000 < 16
      rw [hzero]
      decide
    · show 0 ≠ fileCount m 0xC0100000
      rw [hcount]
      decide

/-- The seventeenth `open` of the root puts its address into `file_count`, so that `read` accepts 16,
which no `open` has returned; and `write` accepts 0 from a task that has opened nothing. -/
theorem files_table_overrun :
    (∃ (tr : List (Transition FileState FileEvent)) (s : FileState),
      Run (FileStep 0xC0100000) ⟨fun _ => 0, fileVfs⟩ tr s ∧ tr.length = 18
        ∧ fileCount s.mem 0xC0100000 = 0xC0200000 ∧ ¬ CallsOk 0xC0100000 tr)
      ∧ ∃ (tr : List (Transition FileState FileEvent)) (s : FileState),
        Run (FileStep 0xC0100000) ⟨fun _ => 0, fileVfs⟩ tr s ∧ tr.length = 1 ∧ opened tr = []
          ∧ ¬ CallsOk 0xC0100000 tr := by
  refine ⟨?_, ?_⟩
  · obtain ⟨tr, m, hrun, hlength, htable, hcount⟩ := @opens_run 0xC0100000 (fun _ => 0) fileVfs 1 [slash] _
      fileVfs_root (by decide) (by decide) rfl 16 (Nat.le_refl 16)
    obtain ⟨fd, m', hcall⟩ : ∃ fd m', sysOpen 1 fileVfs 0xC0100000 m [slash] = .ok (fd, m') := by
      unfold sysOpen
      rw [fileVfs_root]
      exact ⟨_, _, rfl⟩
    -- sixteen slots are in use; the next node goes over `file_count`
    have hopen := @FileStep.open 0xC0100000 ⟨m, fileVfs⟩ m' 1 [slash] _ fd fileVfs_root
      (fun _ heq => Option.some.inj heq ▸ by decide) hcall
    obtain ⟨hcount', hfd⟩ := sysOpen_full (by decide) hcount (by decide) fileVfs_root hcall
    have hslot : filesNode m' 0xC0100000 16 = 0xC0200000 := hcount'
    have hread := @FileStep.read 0xC0100000 ⟨m', fileVfs⟩ 16 8 _ _
      (sysRead_root (by rw [hcount']; decide) hslot)
    refine ⟨_, _, (hrun.snoc hopen).snoc hread, by simp [hlength], hcount', ?_⟩
    intro hok
    have hin := ((callsOk_snoc.mp hok).2.read 16 8 _ rfl 0xC0200000).mp rfl
    -- the seventeenth `open` has returned a negative number
    have hnone : openedBy ⟨⟨m, fileVfs⟩, .open [slash] (some 0xC0200000) fd, ⟨m', fileVfs⟩⟩ = none := by
      unfold openedBy
      rw [hfd]
      exact if_neg (by decide)
    rw [opened_snoc, hnone, Option.toList_none, List.append_nil] at hin
    obtain ⟨hlt, -⟩ := htable.mem_iff.mp hin
    have hsixteen : fileCount m 0xC0100000 = 16 := hcount
    rw [hsixteen] at hlt
    exact Nat.lt_irrefl _ hlt
  · refine ⟨_, _, Run.nil.snoc (FileStep.write 0), rfl, rfl, ?_⟩
    intro hok
    have hnode := (sysWrite_node 0xC0100000 (fun _ => 0) 0 _).mpr ⟨Nat.zero_le _, rfl⟩
    have hin := ((hok [] _ [] rfl).write 0 _ rfl _).mp hnode
    cases hin

end DiyOS
