import DiyOS.Stdio.Printf
import Mathlib.Data.Nat.Find

/-!
# The end of a format (`lib/stdio/printf.c`, `kernel/debug_printf.c`)

`printf` tests for the NUL at the start of a turn only, and steps over one that stands within a directive.

* **`scanDirective_cases`** — a directive is complete, or its letter is the NUL.
* **`printf_stops_iff`** — for which formats the scan stops at the NUL.
-/

namespace DiyOS

open Word

/-! ## The end of the format -/

/-- Where the scan of a format stands: in its text, or within a directive. -/
inductive Scan where
  | text | percent | zero | width
  deriving DecidableEq

def IsDigit (c : UInt8) : Prop := '0'.toUInt8 ≤ c ∧ c ≤ '9'.toUInt8

instance (c : UInt8) : Decidable (IsDigit c) := by
  unfold IsDigit
  infer_instance

def Scan.next : Scan → UInt8 → Scan
  | .text, c => if c = '%'.toUInt8 then .percent else .text
  | .percent, c => if c = '0'.toUInt8 then .zero else if IsDigit c then .width else .text
  | .zero, c => if IsDigit c then .width else .text
  | .width, _ => .text

/-- Where the scan stands after the characters `cs`. -/
def scanned (q : Scan) (cs : List UInt8) : Scan := cs.foldl Scan.next q

/-- How many directives the characters `cs` complete. -/
def completed : Scan → List UInt8 → Nat
  | _, [] => 0
  | q, c :: cs => (if q ≠ .text ∧ q.next c = .text then 1 else 0) + completed (q.next c) cs

/-- A call on the format `cs`, with `rest` in memory behind its NUL, reads no further than the NUL, and
consumes an argument for each complete directive only. -/
def StopsAtNul (call : List UInt8 → Except Halt Printf) (cs rest : List UInt8) : Prop :=
  ∃ r, call (cs ++ 0 :: rest) = .ok r ∧ r.format = rest ∧ r.arg = completed .text cs

section

variable {m : Mem} {args : Nat → UInt32} {fuel : Nat}

/-- A memory with a zero byte has no string without an end. -/
theorem charsAt_end (hnul : ∃ a < 4294967296, m a = 0) (p : UInt32) :
    ∃ n < 4294967296, charsAt m p n = 0 ∧ ∀ k < n, charsAt m p k ≠ 0 := by
  obtain ⟨a, ha, hzero⟩ := hnul
  have hat : charsAt m p (sub32 a p.toNat) = 0 := by
    unfold charsAt
    rw [Nat.add_comm, u32_sub32_add, u32_of_lt ha]
    exact hzero
  have hex : ∃ n, charsAt m p n = 0 := ⟨_, hat⟩
  refine ⟨Nat.find hex, ?_, Nat.find_spec hex, fun k hk => Nat.find_min hex hk⟩
  exact Nat.lt_of_le_of_lt (Nat.find_min' hex hat) (u32_lt _)

/-- Every letter consumes one argument. -/
theorem convert_returns (hnul : ∃ a < 4294967296, m a = 0) (hfuel : 4294967296 < fuel) (s : Printf)
    (pad0 : Bool) (pad : Nat) (c : UInt8) :
    ∃ buf out, convertArg m args fuel s pad0 pad c = .ok ⟨s.format, s.arg + 1, buf, out⟩ := by
  by_cases hnumber : c = 'X'.toUInt8 ∨ c = 'd'.toUInt8 ∨ c = 'u'.toUInt8 ∨ c = 'x'.toUInt8
  · obtain ⟨buf, hconvert⟩ := @convert_number m args fuel (by omega) s pad0 pad c hnumber
    exact ⟨buf, _, hconvert⟩
  · by_cases hstring : c = 's'.toUInt8
    · have hend : ∃ n < 4294967296,
          (if args s.arg = 0 then fun i => nullText.getD i 0 else charsAt m (args s.arg)) n = 0
          ∧ ∀ k < n, (if args s.arg = 0 then fun i => nullText.getD i 0 else charsAt m (args s.arg)) k
            ≠ 0 := by
        by_cases hnull : args s.arg = 0
        · rw [if_pos hnull]
          exact ⟨6, by decide, by decide, by decide⟩
        · rw [if_neg hnull]
          exact charsAt_end hnul (args s.arg)
      obtain ⟨n, hn, hzero, hne⟩ := hend
      have hemit := emitString_eq hne hzero (Nat.lt_trans hn hfuel) pad0 pad
      unfold convertArg
      rw [if_neg hnumber, if_pos hstring]
      simp only [bind, Except.bind, pure, Except.pure, hemit]
      exact ⟨s.buf, _, rfl⟩
    · exact ⟨s.buf, _, convert_char s pad0 pad hnumber hstring⟩

/-- The characters `cs` complete the directive that the scan is in, and `t` stands behind it. -/
structure Completes (q : Scan) (cs t : List UInt8) : Prop where
  shorter : t.length < cs.length
  subset : t ⊆ cs
  scanned : scanned q cs = scanned .text t
  completed : completed q cs = completed .text t + 1

/-- The character that completes a directive. -/
theorem Completes.last {q : Scan} {c : UInt8} (hq : q ≠ .text) (hnext : q.next c = .text)
    (t : List UInt8) : Completes q (c :: t) t := by
  refine ⟨Nat.lt_succ_self _, List.subset_cons_self c t, ?_, ?_⟩
  · show DiyOS.scanned (q.next c) t = _
    rw [hnext]
  · rw [DiyOS.completed, if_pos ⟨hq, hnext⟩, hnext, Nat.add_comm]

/-- A character within a directive. -/
theorem Completes.cons {q : Scan} {c : UInt8} {cs t : List UInt8} (hnext : q.next c ≠ .text)
    (h : Completes (q.next c) cs t) : Completes q (c :: cs) t := by
  refine ⟨Nat.lt_succ_of_lt h.shorter, List.subset_cons_of_subset c h.subset, h.scanned, ?_⟩
  rw [DiyOS.completed, if_neg fun hand => hnext hand.2, Nat.zero_add]
  exact h.completed

/-- The width and the letter, where `q` stands before the width: the directive is complete, or its letter
is the NUL behind `cs`. -/
theorem scanWidth_cases {q : Scan} {c : UInt8} (hq : q ≠ .text)
    (hnext : q.next c = if IsDigit c then .width else .text) (cs rest : List UInt8) :
    (∃ t pad c', scanWidth c (cs ++ 0 :: rest) = .ok (pad, c', t ++ 0 :: rest) ∧ Completes q (c :: cs) t)
    ∨ ∃ pad, scanWidth c (cs ++ 0 :: rest) = .ok (pad, 0, rest) ∧ scanned q (c :: cs) ≠ .text := by
  by_cases hc : IsDigit c
  · rw [if_pos hc] at hnext
    cases cs with
    | nil =>
      right
      refine ⟨_, scanWidth_digit hc 0 rest, ?_⟩
      show q.next c ≠ .text
      rw [hnext]
      decide
    | cons c' t =>
      left
      refine ⟨t, _, c', scanWidth_digit hc c' (t ++ 0 :: rest), .cons (by rw [hnext]; decide) ?_⟩
      rw [hnext]
      exact .last (by decide) rfl t
  · rw [if_neg hc] at hnext
    left
    exact ⟨cs, 0, c, scanWidth_of_not_digit hc _, .last hq hnext cs⟩

/-- **The scan of a directive** in a format that ends behind `cs`: the directive is complete, or its
letter is the NUL. -/
theorem scanDirective_cases (cs rest : List UInt8) :
    (∃ t pad0 pad c, scanDirective (cs ++ 0 :: rest) = .ok (pad0, pad, c, t ++ 0 :: rest)
      ∧ Completes .percent cs t)
    ∨ ∃ pad0 pad, scanDirective (cs ++ 0 :: rest) = .ok (pad0, pad, 0, rest)
      ∧ scanned .percent cs ≠ .text := by
  have hnul : scanWidth 0 rest = .ok (0, 0, rest) := scanWidth_of_not_digit (by decide) rest
  -- the NUL can stand for the flag, for the width, or for the letter
  cases cs with
  | nil =>
    right
    exact ⟨false, 0, scanDirective_eq (scanFlag_of_ne (by decide) rest) hnul, by decide⟩
  | cons c cs =>
    by_cases hc : c = '0'.toUInt8
    · rw [hc]
      cases cs with
      | nil =>
        right
        exact ⟨true, 0, scanDirective_eq (scanFlag_zero 0 rest) hnul, by decide⟩
      | cons c' cs =>
        rcases @scanWidth_cases .zero c' (by decide) rfl cs rest with
          ⟨t, pad, letter, hwidth, hcompletes⟩ | ⟨pad, hwidth, hinside⟩
        · left
          exact ⟨t, true, pad, letter, scanDirective_eq (scanFlag_zero c' _) hwidth,
            .cons (by decide) hcompletes⟩
        · right
          exact ⟨true, pad, scanDirective_eq (scanFlag_zero c' _) hwidth, hinside⟩
    · have hnext : Scan.percent.next c = if IsDigit c then .width else .text := if_neg hc
      rcases @scanWidth_cases .percent c (by decide) hnext cs rest with
        ⟨t, pad, letter, hwidth, hcompletes⟩ | ⟨pad, hwidth, hinside⟩
      · left
        exact ⟨t, false, pad, letter, scanDirective_eq (scanFlag_of_ne hc _) hwidth, hcompletes⟩
      · right
        exact ⟨false, pad, scanDirective_eq (scanFlag_of_ne hc _) hwidth, hinside⟩

theorem scanFlag_length {format format' : List UInt8} {pad0 : Bool} {c c' : UInt8}
    (h : scanFlag c format = .ok (pad0, c', format')) : format'.length ≤ format.length := by
  by_cases hc : c = '0'.toUInt8
  · rw [hc] at h
    cases format with
    | nil => cases h
    | cons d format =>
      cases h
      exact Nat.le_succ _
  · rw [scanFlag_of_ne hc] at h
    cases h
    exact Nat.le_refl _

theorem scanWidth_length {format format' : List UInt8} {pad : Nat} {c c' : UInt8}
    (h : scanWidth c format = .ok (pad, c', format')) : format'.length ≤ format.length := by
  by_cases hc : '0'.toUInt8 ≤ c ∧ c ≤ '9'.toUInt8
  · cases format with
    | nil =>
      unfold scanWidth at h
      rw [if_pos hc] at h
      cases h
    | cons d format =>
      rw [scanWidth_digit hc] at h
      cases h
      exact Nat.le_succ _
  · rw [scanWidth_of_not_digit hc] at h
    cases h
    exact Nat.le_refl _

/-- A scan goes forward. -/
theorem scanDirective_shorter {format format' : List UInt8} {pad0 : Bool} {pad : Nat} {c : UInt8}
    (h : scanDirective format = .ok (pad0, pad, c, format')) : format'.length < format.length := by
  obtain ⟨⟨c₀, format₀⟩, hfetch, h⟩ := bind_eq_ok.mp h
  obtain ⟨⟨pad0', c₁, format₁⟩, hflag, h⟩ := bind_eq_ok.mp h
  obtain ⟨⟨pad', c₂, format₂⟩, hwidth, h⟩ := bind_eq_ok.mp h
  cases h
  have hle := Nat.le_trans (scanWidth_length hwidth) (scanFlag_length hflag)
  cases format with
  | nil => cases hfetch
  | cons d format =>
    cases hfetch
    exact Nat.lt_succ_of_le hle

/-- The pointer ends behind where it started. -/
theorem printfLoop_shorter (hnul : ∃ a < 4294967296, m a = 0) (hfuel : 4294967296 < fuel) {n : Nat}
    {s r : Printf} (h : printfLoop m args fuel n s = .ok r) : r.format.length < s.format.length := by
  induction n generalizing s with
  | zero => cases h
  | succ n ih =>
    rcases s with ⟨format, i, buf, out⟩
    cases format with
    | nil => cases h
    | cons c format =>
      -- each turn reads at least one character of the format
      by_cases hend : c = 0
      · rw [hend, printfLoop_end] at h
        cases h
        exact Nat.lt_succ_self _
      · by_cases hc : c = '%'.toUInt8
        · rw [hc] at h
          cases hscan : scanDirective format with
          | error e =>
            rw [printfLoop] at h
            simp only [fetch, bind, Except.bind, hscan] at h
            cases h
          | ok scan =>
            rcases scan with ⟨pad0, pad, c', format'⟩
            obtain ⟨buf', out', hconvert⟩ := @convert_returns m args fuel hnul hfuel ⟨format', i, buf, out⟩
              pad0 pad c'
            rw [printfLoop_directive n hscan, hconvert] at h
            have hshorter := ih h
            have hscanned := scanDirective_shorter hscan
            simp only [List.length_cons] at hshorter ⊢
            omega
        · rw [printfLoop_literal n ⟨hend, hc⟩] at h
          exact Nat.lt_succ_of_lt (ih h)

/-- **The loop on a complete format** ends behind its NUL. -/
theorem printfLoop_complete (hnul : ∃ a < 4294967296, m a = 0) (hfuel : 4294967296 < fuel) {n : Nat}
    {cs : List UInt8} (hzero : 0 ∉ cs) (hn : cs.length < n) (hcomplete : scanned .text cs = .text)
    (rest : List UInt8) (i : Nat) (buf : Mem) (out : List UInt8) :
    ∃ buf' out', printfLoop m args fuel n ⟨cs ++ 0 :: rest, i, buf, out⟩
      = .ok ⟨rest, i + completed .text cs, buf', out'⟩ := by
  induction n generalizing cs i buf out with
  | zero => omega
  | succ n ih =>
    cases cs with
    | nil => exact ⟨buf, out, printfLoop_end n rest i buf out⟩
    | cons c cs =>
      have hc : c ≠ 0 := fun heq => hzero (heq ▸ List.mem_cons_self)
      have hcs : 0 ∉ cs := fun hmem => hzero (List.mem_cons_of_mem _ hmem)
      rw [List.length_cons] at hn
      -- a directive is read to its letter; a literal is copied
      by_cases hpercent : c = '%'.toUInt8
      · have hnext : Scan.text.next c = .percent := if_pos hpercent
        change scanned (Scan.text.next c) cs = .text at hcomplete
        rw [hnext] at hcomplete
        rw [completed, if_neg fun hand => hand.1 rfl, hnext, Nat.zero_add, hpercent, List.cons_append]
        rcases scanDirective_cases cs rest with ⟨t, pad0, pad, c', hscan, hcompletes⟩ | ⟨_, _, _, hinside⟩
        · obtain ⟨buf₁, out₁, hconvert⟩ := @convert_returns m args fuel hnul hfuel
            ⟨t ++ 0 :: rest, i, buf, out⟩ pad0 pad c'
          have hshorter := hcompletes.shorter
          obtain ⟨buf', out', hloop⟩ := ih (fun hmem => hcs (hcompletes.subset hmem)) (by omega)
            (hcompletes.scanned.symm.trans hcomplete) (i + 1) buf₁ out₁
          refine ⟨buf', out', ?_⟩
          rw [printfLoop_directive n hscan, hconvert, hcompletes.completed,
            show i + (completed .text t + 1) = i + 1 + completed .text t by omega]
          exact hloop
        · exact absurd hcomplete hinside
      · have hnext : Scan.text.next c = .text := if_neg hpercent
        change scanned (Scan.text.next c) cs = .text at hcomplete
        rw [hnext] at hcomplete
        obtain ⟨buf', out', hloop⟩ := ih hcs (by omega) hcomplete i buf (out ++ [c])
        refine ⟨buf', out', ?_⟩
        rw [completed, if_neg fun hand => hand.1 rfl, hnext, Nat.zero_add, List.cons_append,
          printfLoop_literal n ⟨hc, hpercent⟩]
        exact hloop

/-- **The loop on an incomplete format** steps over its NUL. -/
theorem printfLoop_incomplete (hnul : ∃ a < 4294967296, m a = 0) (hfuel : 4294967296 < fuel) {n : Nat}
    {cs : List UInt8} (hzero : 0 ∉ cs) (hincomplete : scanned .text cs ≠ .text) {rest : List UInt8}
    {i : Nat} {buf : Mem} {out : List UInt8} {r : Printf}
    (h : printfLoop m args fuel n ⟨cs ++ 0 :: rest, i, buf, out⟩ = .ok r) :
    r.format.length < rest.length := by
  induction n generalizing cs i buf out with
  | zero => cases h
  | succ n ih =>
    cases cs with
    | nil => exact absurd rfl hincomplete
    | cons c cs =>
      have hc : c ≠ 0 := fun heq => hzero (heq ▸ List.mem_cons_self)
      have hcs : 0 ∉ cs := fun hmem => hzero (List.mem_cons_of_mem _ hmem)
      change scanned (Scan.text.next c) cs ≠ .text at hincomplete
      by_cases hpercent : c = '%'.toUInt8
      · rw [show Scan.text.next c = .percent from if_pos hpercent] at hincomplete
        rw [hpercent, List.cons_append] at h
        rcases scanDirective_cases cs rest with ⟨t, pad0, pad, c', hscan, hcompletes⟩ | ⟨pad0, pad, hscan, _⟩
        · obtain ⟨buf₁, out₁, hconvert⟩ := @convert_returns m args fuel hnul hfuel
            ⟨t ++ 0 :: rest, i, buf, out⟩ pad0 pad c'
          rw [printfLoop_directive n hscan, hconvert] at h
          rw [hcompletes.scanned] at hincomplete
          exact ih (fun hmem => hcs (hcompletes.subset hmem)) hincomplete h
        · -- the NUL is the letter, and the loop goes on behind it
          obtain ⟨buf₁, out₁, hconvert⟩ := @convert_returns m args fuel hnul hfuel
            ⟨rest, i, buf, out⟩ pad0 pad 0
          rw [printfLoop_directive n hscan, hconvert] at h
          exact printfLoop_shorter hnul hfuel h
      · rw [show Scan.text.next c = .text from if_neg hpercent] at hincomplete
        rw [List.cons_append, printfLoop_literal n ⟨hc, hpercent⟩] at h
        exact ih hcs hincomplete h

/-- The scan stops at the NUL exactly if the format does not end within a directive. -/
theorem formatOutput_stops_iff (hnul : ∃ a < 4294967296, m a = 0) {cs : List UInt8} (hzero : 0 ∉ cs)
    (hfuel : 4294967296 + cs.length < fuel) (buf : Mem) (rest : List UInt8) :
    StopsAtNul (formatOutput m args fuel buf) cs rest ↔ scanned .text cs = .text := by
  constructor
  · rintro ⟨r, hcall, hformat, _⟩
    by_contra hincomplete
    have hshorter := printfLoop_incomplete hnul (by omega) hzero hincomplete hcall
    rw [hformat] at hshorter
    exact Nat.lt_irrefl _ hshorter
  · intro hcomplete
    obtain ⟨buf', out', hloop⟩ := @printfLoop_complete m args fuel hnul (by omega) fuel cs hzero (by omega)
      hcomplete rest 0 buf []
    exact ⟨_, hloop, rfl, Nat.zero_add _⟩

/-- **The end of the format.** `printf` and `debug_printf` read no character behind the NUL of their format,
and consume no argument for an incomplete directive, exactly if the format does not end within a
directive. -/
theorem printf_stops_iff (hnul : ∃ a < 4294967296, m a = 0) {cs : List UInt8} (hzero : 0 ∉ cs)
    (hfuel : 4294967296 + cs.length < fuel) (buf : Mem) (rest : List UInt8) :
    StopsAtNul (printf m args fuel buf) cs rest ∧ StopsAtNul (debugPrintf m args fuel buf) cs rest
      ↔ scanned .text cs = .text := by
  have hstops := @formatOutput_stops_iff m args fuel hnul cs hzero hfuel buf rest
  exact (and_self_iff).trans hstops

end

/-- `printf("%")` prints the text that stands in memory behind the format. -/
theorem printf_stops_percent :
    (printf (fun _ => 0) (fun _ => 65) 20 (fun _ => 0) ['%'.toUInt8, 0, 'B'.toUInt8, 0]).toOption.map
        (fun r => (r.out, r.format, r.arg)) = some (['A'.toUInt8, 'B'.toUInt8], [], 1)
    ∧ ¬ StopsAtNul (printf (fun _ => 0) (fun _ => 65) 20 fun _ => 0) ['%'.toUInt8] ['B'.toUInt8, 0] := by
  have hcall : (printf (fun _ => 0) (fun _ => 65) 20 (fun _ => 0) ['%'.toUInt8, 0, 'B'.toUInt8, 0]).toOption.map
      (fun r => (r.out, r.format, r.arg)) = some (['A'.toUInt8, 'B'.toUInt8], [], 1) := by decide
  refine ⟨hcall, ?_⟩
  rintro ⟨r, hr, hformat, _⟩
  rw [List.cons_append, List.nil_append] at hr
  rw [hr] at hcall
  have hbehind : r.format = [] := congrArg (fun x => x.2.1) (Option.some.inj hcall)
  rw [hformat] at hbehind
  cases hbehind

/-- A call with the format `%c`. -/
theorem printf_stops_char :
    StopsAtNul (printf (fun _ => 0) (fun _ => 65) 8589934592 fun _ => 0) ['%'.toUInt8, 'c'.toUInt8] [] :=
  ((@printf_stops_iff (fun _ => 0) (fun _ => 65) 8589934592 ⟨0, by decide, rfl⟩ ['%'.toUInt8, 'c'.toUInt8]
    (by decide) (by decide) (fun _ => 0) []).mpr (by decide)).1

end DiyOS
