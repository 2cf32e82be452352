import DiyOS.Fs.Tar
import DiyOS.Lib.Walk

/-!
# `tar_parse` on any memory

The loop of `tar_parse` goes from one header to the next by a 32-bit amount that is computed from the
digits of the size. A size close to `2 ^ 32` makes that amount 0, or leads back; nothing tests that a
header lies in the archive before it is read, and nothing that `headers` has a slot left.

* **`tarLoop`** — the loop, which counts the headers without end; `tarParse` is its part within the 64
  slots (`tarParse_loop`).
* **`tarLoop_terminates_iff`** — it ends unless headers lead to each other in a cycle.
* **`tarParse_inBounds_iff`** — it stays inside the archive and the table exactly on archives of at most
  64 headers that lie inside and are ended by a block inside, or by an entry that reaches beyond.
-/

namespace DiyOS

open Word

/-! ## The loop -/

/-- The address after one turn of the loop of `tar_parse`, for the header at `address`. -/
def tarNext (m : Mem) (address : Nat) : Nat :=
  let size := tarGetsize m (address + 124)
  let next := u32 (address + (size / 512 + 1) * 512)
  if size % 512 ≠ 0 then u32 (next + 512) else next

/-- The address of the next turn, if there is one. -/
def tarStep (m : Mem) (limit address : Nat) : Option Nat :=
  if m address = 0 then none
  else if tarNext m address > limit then none else some (tarNext m address)

/-- The loop of `tar_parse` with `files` headers behind it: what it returns. What it stores behind the
64 slots of `headers` is left out. -/
def tarLoop (m : Mem) : Nat → Nat → Nat → Nat → Except Halt Nat
  | 0, _, _, _ => .error .loops
  | fuel + 1, files, address, limit =>
    if m address = 0 then .ok files
    else if tarNext m address > limit then .ok files
    else tarLoop m fuel (u32 (files + 1)) (tarNext m address) limit

section

variable {m : Mem} {limit : Nat}

/-- Within the 64 slots, `tarParse` and the loop are the same. -/
theorem tarParse_loop {fuel files address : Nat} (hfiles : files ≤ 64) :
    (∀ headers, tarParse m fuel files address limit = .ok headers →
      tarLoop m fuel files address limit = .ok (files + headers.length))
      ∧ (tarParse m fuel files address limit = .error .loops →
        tarLoop m fuel files address limit = .error .loops) := by
  induction fuel generalizing files address with
  | zero => exact ⟨fun _ h => (by cases h), fun _ => rfl⟩
  | succ fuel ih =>
    have hword : u32 (files + 1) = files + 1 := u32_of_lt (by omega)
    -- both loops go to the same header
    have hnext : (if tarGetsize m (address + 124) % 512 ≠ 0
        then u32 (u32 (address + (tarGetsize m (address + 124) / 512 + 1) * 512) + 512)
        else u32 (address + (tarGetsize m (address + 124) / 512 + 1) * 512)) = tarNext m address := rfl
    rw [tarParse, tarLoop, hword]
    simp only [hnext]
    by_cases hzero : m address = 0
    · simp only [if_pos hzero, Except.ok.injEq]
      exact ⟨fun headers h => (by rw [← h]; rfl), fun h => by cases h⟩
    · simp only [if_neg hzero]
      by_cases hfull : 64 ≤ files
      · simp only [if_pos hfull]
        exact ⟨fun _ h => (by cases h), fun h => by cases h⟩
      · simp only [if_neg hfull]
        by_cases hend : tarNext m address > limit
        · simp only [if_pos hend, Except.ok.injEq]
          exact ⟨fun headers h => (by rw [← h]; rfl), fun h => by cases h⟩
        · simp only [if_neg hend]
          rcases @ih (files + 1) (tarNext m address) (by omega) with ⟨hok, hloops⟩
          cases hrest : tarParse m fuel (files + 1) (tarNext m address) limit with
          | error e =>
            simp only
            refine ⟨fun _ h => (by cases h), fun h => ?_⟩
            cases h
            exact hloops hrest
          | ok headers =>
            simp only [Except.ok.injEq]
            refine ⟨fun all h => ?_, fun h => by cases h⟩
            rw [hok headers hrest, ← h, List.length_cons, Nat.add_assoc, Nat.add_comm 1]

/-- The loop needs more fuel as long as the walk goes on. -/
theorem tarLoop_loops_iff {fuel files address : Nat} :
    tarLoop m fuel files address limit = .error .loops
      ↔ ∃ b, Walk.visit (tarStep m limit) fuel address = some b := by
  induction fuel generalizing files address with
  | zero => exact iff_of_true rfl ⟨address, rfl⟩
  | succ fuel ih =>
    rw [tarLoop, Walk.visit, tarStep]
    by_cases hzero : m address = 0
    · simp [hzero]
    · by_cases hend : tarNext m address > limit
      · simp [hzero, hend]
      · simpa [hzero, hend] using ih

theorem tarLoop_ends_iff {files address : Nat} :
    (∃ fuel n, tarLoop m fuel files address limit = .ok n) ↔ Walk.Ends (tarStep m limit) address := by
  have hcases : ∀ fuel, (∃ n, tarLoop m fuel files address limit = .ok n)
      ↔ tarLoop m fuel files address limit ≠ .error .loops := by
    intro fuel
    induction fuel generalizing files address with
    | zero => simp [tarLoop]
    | succ fuel ih =>
      rw [tarLoop]
      split
      · simp
      · split
        · simp
        · exact ih
  unfold Walk.Ends
  apply exists_congr
  intro fuel
  rw [hcases, ne_eq, tarLoop_loops_iff]
  cases Walk.visit (tarStep m limit) fuel address <;> simp

/-! ## Termination -/

theorem tarStep_le {a b : Nat} (h : tarStep m limit a = some b) : b ≤ limit := by
  unfold tarStep at h
  split at h
  · cases h
  · split at h
    · cases h
    · rw [← Option.some.inj h]
      omega

/-- A header whose blocks end below `2 ^ 32` leads upwards. -/
theorem tarNext_of_lt {a : Nat}
    (h : a + (512 + (tarGetsize m (a + 124) + 511) / 512 * 512) < 4294967296) :
    tarNext m a = a + (512 + (tarGetsize m (a + 124) + 511) / 512 * 512) := by
  unfold tarNext
  exact next_address (Nat.le_refl _) h

/-- **The walk ends** unless it runs into a cycle of headers: for every memory and every `address` at
or below `limit`. It ends where no header at or below `limit` has a size that carries the address past
`2 ^ 32`. -/
theorem tarLoop_terminates_iff {address : Nat} (hle : address ≤ limit) :
    ((∃ fuel n, tarLoop m fuel 0 address limit = .ok n)
        ↔ ¬ Walk.RunsIntoCycle (tarStep m limit) address)
      ∧ ((∀ a ≤ limit, m a ≠ 0 →
          a + (512 + (tarGetsize m (a + 124) + 511) / 512 * 512) < 4294967296) →
        ∃ fuel n, tarLoop m fuel 0 address limit = .ok n) := by
  rw [tarLoop_ends_iff]
  constructor
  · -- the walk stays at or below `limit`
    apply Walk.ends_iff_no_cycle
    apply (Set.finite_le_nat limit).subset
    intro b hb
    induction hb with
    | refl => exact hle
    | tail _ hstep _ => exact tarStep_le hstep
  · intro hforward
    apply Walk.ends_of_lt _ hle
    intro a b ha hstep
    refine ⟨?_, tarStep_le hstep⟩
    unfold tarStep at hstep
    split at hstep
    · cases hstep
    · next hne =>
      have hnext := tarNext_of_lt (hforward a ha hne)
      split at hstep
      · cases hstep
      · rw [← Option.some.inj hstep, hnext]
        omega

/-! ## Bounds -/

/-- Each turn of the loop reads a header that lies wholly in `[start, limit)`, and stores it, if it does,
in a slot of `headers`. In turn `i` the variable `files` is `i`. -/
def WalkInBounds (m : Mem) (start limit : Nat) : Prop :=
  ∀ i a, Walk.visit (tarStep m limit) i start = some a →
    start ≤ a ∧ a + 512 ≤ limit ∧ (m a ≠ 0 → i < 64)

/-- Headers one behind the other from `a` on; `z` is the address behind them. -/
def HeaderChain (m : Mem) : Nat → List Nat → Nat → Prop
  | a, [], z => z = a
  | a, b :: bs, z => b = a ∧ m a ≠ 0 ∧ HeaderChain m (tarNext m a) bs z

/-- At most 64 headers, each inside `[start, limit)`, and behind them a block inside it that begins with
a zero, or an address beyond it. -/
def Enclosed (m : Mem) (start limit : Nat) : Prop :=
  ∃ headers z, HeaderChain m start headers z ∧ headers.length ≤ 64
    ∧ (∀ a ∈ headers, start ≤ a ∧ a + 512 ≤ limit)
    ∧ (limit < z ∨ start ≤ z ∧ z + 512 ≤ limit ∧ m z = 0)

/-- The turns from the one at `a` on, before which there were `j`. -/
theorem inBounds_from_iff {start a j : Nat} (hle : a ≤ limit) (hj : j ≤ 64) :
    (∀ i b, Walk.visit (tarStep m limit) i a = some b →
        start ≤ b ∧ b + 512 ≤ limit ∧ (m b ≠ 0 → j + i < 64))
      ↔ ∃ headers z, HeaderChain m a headers z ∧ j + headers.length ≤ 64
        ∧ (∀ b ∈ headers, start ≤ b ∧ b + 512 ≤ limit)
        ∧ (limit < z ∨ start ≤ z ∧ z + 512 ≤ limit ∧ m z = 0) := by
  -- by induction on the slots that are left
  generalize hd : 64 - j = d
  induction d using Nat.strong_induction_on generalizing a j with
  | _ d ih =>
    constructor
    · intro h
      have hfirst := h 0 a rfl
      by_cases hzero : m a = 0
      · exact ⟨[], a, rfl, hj, List.forall_mem_nil _, Or.inr ⟨hfirst.1, hfirst.2.1, hzero⟩⟩
      · have hslot : j < 64 := hfirst.2.2 hzero
        by_cases hend : tarNext m a > limit
        · refine ⟨[a], tarNext m a, ⟨rfl, hzero, rfl⟩, hslot, ?_, Or.inl hend⟩
          simpa using ⟨hfirst.1, hfirst.2.1⟩
        · have hleads : Walk.Leads (tarStep m limit) a (tarNext m a) := by
            simp [Walk.Leads, tarStep, hzero, hend]
          have hrest := (ih (64 - (j + 1)) (by omega) (Nat.le_of_not_gt hend) hslot rfl).mp (by
            intro i b hb
            have hlater := h (i + 1) b ((Walk.visit_of_leads hleads i).trans hb)
            refine ⟨hlater.1, hlater.2.1, fun hne => ?_⟩
            have := hlater.2.2 hne
            omega)
          rcases hrest with ⟨headers, z, hchain, hlength, hinside, hz⟩
          refine ⟨a :: headers, z, ⟨rfl, hzero, hchain⟩, ?_, ?_, hz⟩
          · rw [List.length_cons]
            omega
          · simpa using ⟨⟨hfirst.1, hfirst.2.1⟩, fun b hb => hinside b hb⟩
    · rintro ⟨headers, z, hchain, hlength, hinside, hz⟩ i b hb
      cases headers with
      | nil =>
        have hza : z = a := hchain
        subst hza
        rcases hz with hbeyond | ⟨hstart, hfits, hzero⟩
        · omega
        · -- the walk ends at the zero
          cases i with
          | zero =>
            cases hb
            exact ⟨hstart, hfits, fun hne => absurd hzero hne⟩
          | succ i => simp [Walk.visit, tarStep, hzero] at hb
      | cons c headers =>
        rcases hchain with ⟨rfl, hne, hchain⟩
        rw [List.length_cons] at hlength
        cases i with
        | zero =>
          cases hb
          have hc := hinside b List.mem_cons_self
          exact ⟨hc.1, hc.2, fun _ => by omega⟩
        | succ i =>
          by_cases hend : tarNext m c > limit
          · simp [Walk.visit, tarStep, hne, hend] at hb
          · have hleads : Walk.Leads (tarStep m limit) c (tarNext m c) := by
              simp [Walk.Leads, tarStep, hne, hend]
            rw [Walk.visit_of_leads hleads] at hb
            have hrest := (ih (64 - (j + 1)) (by omega) (Nat.le_of_not_gt hend)
              (show j + 1 ≤ 64 by omega) rfl).mpr
              ⟨headers, z, hchain, by omega, fun b hb => hinside b (List.mem_cons_of_mem _ hb), hz⟩ i b hb
            refine ⟨hrest.1, hrest.2.1, fun hnz => ?_⟩
            have := hrest.2.2 hnz
            omega

/-- **The bounds of the walk.** For every memory, `tar_parse` reads headers inside `[start, limit)` only,
and stores them in slots of `headers` only, if and only if there are at most 64 headers there, one behind
the other, all of them inside, and then a block inside that begins with a zero, or an address beyond. -/
theorem tarParse_inBounds_iff {start : Nat} (hle : start ≤ limit) :
    WalkInBounds m start limit ↔ Enclosed m start limit := by
  have h := @inBounds_from_iff m limit start start 0 hle (Nat.zero_le 64)
  simp only [Nat.zero_add] at h
  exact h

end

/-! ## Archives at the edge -/

theorem tarNext_oneFile : tarNext oneFile 512 = 1536 := by decide +kernel

theorem oneFile_above {a : Nat} (h : 1024 < a) : oneFile a = 0 := by
  have hnone : [(512, 102), (646, 49), (1024, 7)].lookup a = (none : Option UInt8) := by
    simp [List.lookup_eq_none_iff]
    omega
  unfold oneFile
  rw [if_neg (by omega), hnone]
  rfl

/-- No size in this memory carries an address at or below 2048 past `2 ^ 32`; and the loop counts the file. -/
theorem tarLoop_terminates_one : (∃ fuel n, tarLoop oneFile fuel 0 512 2048 = .ok n)
    ∧ tarLoop oneFile 2 0 512 2048 = .ok 1 := by
  constructor
  · apply (tarLoop_terminates_iff (by decide : 512 ≤ 2048)).2
    intro a _ hne
    have hlow : ∀ a < 1025, oneFile a ≠ 0 →
        a + (512 + (tarGetsize oneFile (a + 124) + 511) / 512 * 512) < 4294967296 := by
      decide +kernel
    apply hlow a _ hne
    by_contra hge
    exact hne (oneFile_above (by omega))
  · have hparse : tarParse oneFile 2 0 512 2048 = .ok [512] :=
      tarParse_entries (by decide) (by decide) oneFile_image (by decide) (by decide)
    exact (tarParse_loop (by decide)).1 [512] hparse

/-- The archive with the file `f` and a zero block. -/
theorem tarParse_inBounds_one : WalkInBounds oneFile 512 2048 := by
  apply (tarParse_inBounds_iff (by decide)).mpr
  refine ⟨[512], 1536, ⟨rfl, by decide, ?_⟩, by decide, by decide, Or.inr ⟨by decide, by decide, by decide⟩⟩
  exact tarNext_oneFile.symm

/-- Without the zero block: the walk reads the header at the end of the archive. -/
theorem tarParse_reads_beyond : ¬ WalkInBounds oneFile 512 1536 := by
  intro h
  have hstep : tarStep oneFile 1536 512 = some 1536 := by decide +kernel
  have hread := (h 1 1536 (by simp [Walk.visit, hstep])).2.1
  omega

/-- A header with the size `037777777000`, that is `2 ^ 32 - 512`. -/
def backHeader : Mem := fun x =>
  if 125 ≤ x ∧ x < 132 then 55 else if 132 ≤ x ∧ x < 135 then 48
  else ([(0, 102), (124, 51)].lookup x).getD 0

/-- The header leads to itself. -/
theorem tarLoop_never_ends : ¬ ∃ fuel n, tarLoop backHeader fuel 0 0 4096 = .ok n := by
  have hstep : Walk.Leads (tarStep backHeader 4096) 0 0 := by
    unfold Walk.Leads
    decide +kernel
  rw [tarLoop_ends_iff]
  intro hends
  exact hends.not_cycle (Relation.TransGen.single hstep)

end DiyOS
