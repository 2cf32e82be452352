import DiyOS.Lib.CString

/-!
# Splitting a path (`kernel/filesystem/path.c`)

`path` copies its argument, skips one leading `/`, and overwrites every other `/` of the copy by NUL.
A `/` at the end is overwritten too and starts no segment. The segments are then the consecutive
strings of the copy.

* **`path_spelled`** — the segments of `a/b/c`, `/a/b/c`, `a/b/c/` and `/a/b/c/` are `a`, `b` and `c`.
* **`path_splits`** — the segments of any string are those between its `/`, but for one at either end.
-/

namespace DiyOS

open CString

/-- The character `/`. -/
def slash : UInt8 := 47

/-- The first loop of `path`, from the pointer `str` on: what it leaves in the copy, and by how much
it raises `segs`. -/
def cutSegments : List UInt8 → List UInt8 × Nat
  | [] => ([], 0)
  | c :: rest =>
    if c = 0 then (c :: rest, 0)
    else if c = slash then
      -- a `/` before the final NUL ends the loop
      if rest.head? = some 0 then (0 :: rest, 0)
      else (0 :: (cutSegments rest).1, (cutSegments rest).2 + 1)
    else (c :: (cutSegments rest).1, (cutSegments rest).2)

/-- `path`: the segments of `file`. -/
def path (file : CString) : List CString :=
  let copy := file ++ [0]
  let str := if copy.head? = some slash then copy.tail else copy
  let (str, segs) := cutSegments str
  strings (1 + segs) str

/-! ## Segments and `/`

A `/` at the beginning and one at the end are skipped; the rest is cut at each `/`. -/

/-- What the first loop leaves has no `/` before the NUL that it stops at. -/
theorem slash_not_mem_cut (str : List UInt8) :
    ∀ seg ∈ strings (1 + (cutSegments str).2) (cutSegments str).1, slash ∉ seg := by
  have hread : ∀ rest : List UInt8, slash ∉ CString.read (0 :: rest) := fun rest => by simp [CString.read]
  induction str with
  | nil => decide
  | cons c rest ih =>
    rw [cutSegments]
    split
    case isTrue hc => simpa [hc, strings] using hread rest
    case isFalse hc =>
      split
      case isTrue hs =>
        split
        case isTrue => simpa [strings] using hread rest
        case isFalse =>
          rw [Nat.add_comm 1, strings, List.forall_mem_cons]
          refine ⟨hread _, ?_⟩
          rw [Nat.add_comm]
          exact ih
      case isFalse hs =>
        rw [Nat.add_comm 1, strings, List.forall_mem_cons] at ih ⊢
        have hcons : CString.read (c :: (cutSegments rest).1) = c :: CString.read (cutSegments rest).1 := by
          simp [CString.read, hc]
        have hskip : skip (c :: (cutSegments rest).1) = skip (cutSegments rest).1 := by
          simp [skip, hc]
        rw [hcons, hskip]
        refine ⟨?_, ih.2⟩
        rw [List.mem_cons, not_or]
        exact ⟨fun heq => hs heq.symm, ih.1⟩

/-- No segment of any string has a `/`. -/
theorem slash_not_mem_path (s : CString) : ∀ seg ∈ path s, slash ∉ seg := slash_not_mem_cut _

theorem zero_not_mem_path (s : CString) : ∀ seg ∈ path s, 0 ∉ seg := zero_not_mem_strings _ _

theorem path_ne_nil (s : CString) : path s ≠ [] := by
  unfold path
  simp only [Nat.add_comm 1, strings]
  exact List.cons_ne_nil _ _

theorem cutSegments_slash_not_mem {str : List UInt8} (h : slash ∉ str) : (cutSegments str).2 = 0 := by
  induction str with
  | nil => rfl
  | cons c rest ih =>
    rw [List.mem_cons, not_or] at h
    rw [cutSegments, if_neg (show ¬ c = slash from fun heq => h.1 heq.symm)]
    by_cases hc : c = 0
    · rw [if_pos hc]
    · rw [if_neg hc]
      exact ih h.2

/-- A string without `/` is one segment. -/
theorem path_slash_not_mem {s : CString} (h : slash ∉ s) : ∃ seg, path s = [seg] := by
  have hcopy : slash ∉ s ++ [0] := by simpa [slash] using h
  have hhead : (s ++ [0]).head? ≠ some slash := fun heq => hcopy (List.mem_of_mem_head? heq)
  unfold path
  simp only [if_neg hhead, cutSegments_slash_not_mem hcopy]
  exact ⟨_, rfl⟩

/-! ## The four spellings of a path

With or without these two. -/

/-- A segment of a path: a string that is not empty and has no `/`. -/
structure IsSegment (s : CString) : Prop where
  ne_nil : s ≠ []
  slash_not_mem : slash ∉ s
  zero_not_mem : 0 ∉ s

instance (s : CString) : Decidable (IsSegment s) :=
  decidable_of_iff (s ≠ [] ∧ slash ∉ s ∧ 0 ∉ s)
    ⟨fun h => ⟨h.1, h.2.1, h.2.2⟩, fun h => ⟨h.ne_nil, h.slash_not_mem, h.zero_not_mem⟩⟩

/-- The segments joined by `/`. -/
def joinPath (segs : List CString) : CString := List.intercalate [slash] segs

/-- The same with a leading or a trailing `/`, or both. -/
def spelled (leading trailing : Bool) (segs : List CString) : CString :=
  (if leading then [slash] else []) ++ joinPath segs ++ if trailing then [slash] else []

theorem joinPath_cons {s : CString} {segs : List CString} (h : segs ≠ []) :
    joinPath (s :: segs) = s ++ slash :: joinPath segs := by
  unfold joinPath
  rw [List.intercalate_cons_of_ne_nil h]
  simp

/-- Joined segments begin with a byte of the first one. -/
theorem joinPath_head {segs : List CString} (hne : segs ≠ []) (hsegs : ∀ s ∈ segs, IsSegment s) :
    ∃ c rest, joinPath segs = c :: rest ∧ c ≠ slash ∧ c ≠ 0 := by
  rcases List.exists_cons_of_ne_nil hne with ⟨s, segs, rfl⟩
  have hs := hsegs s List.mem_cons_self
  rcases List.exists_cons_of_ne_nil hs.ne_nil with ⟨c, s, rfl⟩
  have hc : c ≠ slash := fun heq => hs.slash_not_mem (heq ▸ List.mem_cons_self)
  have hz : c ≠ 0 := fun heq => hs.zero_not_mem (heq ▸ List.mem_cons_self)
  by_cases hlast : segs = []
  · subst hlast
    exact ⟨c, s, List.intercalate_singleton, hc, hz⟩
  · exact ⟨c, s ++ slash :: joinPath segs, joinPath_cons hlast, hc, hz⟩

/-- The loop passes over a segment. -/
theorem cutSegments_append {s : CString} (hslash : slash ∉ s) (hzero : 0 ∉ s) (rest : List UInt8) :
    cutSegments (s ++ rest) = (s ++ (cutSegments rest).1, (cutSegments rest).2) := by
  induction s with
  | nil => rfl
  | cons c s ih =>
    have hne : c ≠ 0 := fun heq => hzero (heq ▸ List.mem_cons_self)
    have hns : c ≠ slash := fun heq => hslash (heq ▸ List.mem_cons_self)
    have hrest := ih (fun hin => hslash (List.mem_cons_of_mem _ hin))
      fun hin => hzero (List.mem_cons_of_mem _ hin)
    rw [List.cons_append, cutSegments, if_neg hne, if_neg hns, hrest]
    rfl

/-- What follows the last segment: the NUL, perhaps after a `/`. -/
theorem cutSegments_end (trailing : Bool) :
    cutSegments ((if trailing then [slash] else []) ++ [0])
      = (if trailing then [0, 0] else [0], 0) := by
  cases trailing <;> decide

/-- The loop over joined segments: each `/` becomes the NUL that ends the segment before it. -/
theorem cutSegments_join {segs : List CString} (hne : segs ≠ []) (hsegs : ∀ s ∈ segs, IsSegment s)
    (trailing : Bool) :
    cutSegments (joinPath segs ++ ((if trailing then [slash] else []) ++ [0]))
      = (laidOut segs ++ (if trailing then [0] else []), segs.length - 1) := by
  induction segs with
  | nil => exact absurd rfl hne
  | cons s segs ih =>
    have hs := hsegs s List.mem_cons_self
    by_cases hlast : segs = []
    · subst hlast
      have hjoin : joinPath [s] = s := List.intercalate_singleton
      rw [hjoin, cutSegments_append hs.slash_not_mem hs.zero_not_mem, cutSegments_end]
      cases trailing <;> simp [laidOut]
    · have hrest := ih hlast fun t ht => hsegs t (List.mem_cons_of_mem _ ht)
      -- the byte after this `/` begins the next segment, so it is not the final NUL
      have hhead : (joinPath segs ++ ((if trailing then [slash] else []) ++ [0])).head? ≠ some 0 := by
        obtain ⟨c, rest, hjoin, _, hz⟩ :=
          joinPath_head hlast fun t ht => hsegs t (List.mem_cons_of_mem _ ht)
        rw [hjoin]
        simpa using hz
      have hlength : 0 < segs.length := List.length_pos_iff.mpr hlast
      rw [joinPath_cons hlast, List.append_assoc, cutSegments_append hs.slash_not_mem hs.zero_not_mem,
        List.cons_append, cutSegments, if_neg (by decide), if_pos rfl, if_neg hhead, hrest]
      refine Prod.ext ?_ ?_
      · simp [laidOut]
      · show segs.length - 1 + 1 = segs.length + 1 - 1
        omega

/-- **The four spellings** of a path split into its segments. -/
theorem path_spelled {segs : List CString} (hne : segs ≠ []) (hsegs : ∀ s ∈ segs, IsSegment s)
    (leading trailing : Bool) : path (spelled leading trailing segs) = segs := by
  rcases joinPath_head hne hsegs with ⟨c, rest, hjoin, hc, _⟩
  -- past the leading `/`, the copy holds the joined segments and what follows them
  have hstr : (if (spelled leading trailing segs ++ [0]).head? = some slash
      then (spelled leading trailing segs ++ [0]).tail else spelled leading trailing segs ++ [0])
        = joinPath segs ++ ((if trailing then [slash] else []) ++ [0]) := by
    unfold spelled
    cases leading with
    | true => simp
    | false =>
      rw [hjoin]
      simp [hc]
  have hlength : 1 + (segs.length - 1) = segs.length := by
    have hpos := List.length_pos_iff.mpr hne
    omega
  unfold path
  simp only [hstr, cutSegments_join hne hsegs trailing, hlength]
  exact strings_laidOut (fun s hs => (hsegs s hs).zero_not_mem) _

/-- Such a path is not the path `/`. -/
theorem spelled_ne_slash {segs : List CString} (hne : segs ≠ []) (hsegs : ∀ s ∈ segs, IsSegment s)
    (leading trailing : Bool) : spelled leading trailing segs ≠ [slash] := by
  rcases joinPath_head hne hsegs with ⟨c, rest, hjoin, hc, _⟩
  unfold spelled
  rw [hjoin]
  cases leading with
  | true => simp
  | false => simp [hc]

/-! ## The segments of any string

Strings that are no paths have segments, too: empty ones between two `/`. -/

/-- `s` without one `/` at its beginning, and then without one at its end. -/
def trimSlashes (s : CString) : CString :=
  let t := if s.head? = some slash then s.tail else s
  if t.getLast? = some slash then t.dropLast else t

theorem length_splitOn (t : CString) : (t.splitOn slash).length = 1 + t.count slash := by
  induction t with
  | nil => rfl
  | cons c t ih =>
    rw [List.splitOn_cons_eq_if_modifyHead, List.count_cons]
    split
    case isTrue => simp [ih]; omega
    case isFalse => simp [ih]

theorem not_mem_of_mem_splitOn (t : CString) : ∀ seg ∈ t.splitOn slash, slash ∉ seg := by
  induction t with
  | nil => simp
  | cons c t ih =>
    rw [List.splitOn_cons_eq_if_modifyHead]
    obtain ⟨seg, segs, hsplit⟩ := List.exists_cons_of_ne_nil (List.splitOn_ne_nil slash t)
    rw [hsplit] at ih ⊢
    split
    case isTrue => simpa using ih
    case isFalse hc =>
      have hne : slash ≠ c := fun heq => hc (by simp [heq])
      simp only [List.modifyHead_cons, List.forall_mem_cons] at ih ⊢
      exact ⟨by simp [hne, ih.1], ih.2⟩

/-- Cutting at the first byte: a `/` ends a segment, any other byte is the first of one. -/
theorem laidOut_splitOn_cons (c : UInt8) (t : CString) :
    laidOut ((c :: t).splitOn slash)
      = (if c = slash then 0 else c) :: laidOut (t.splitOn slash) := by
  obtain ⟨seg, segs, hsplit⟩ := List.exists_cons_of_ne_nil (List.splitOn_ne_nil slash t)
  rw [List.splitOn_cons_eq_if_modifyHead, hsplit]
  by_cases hc : c = slash <;> simp [hc, laidOut]

/-- The loop over a string and what follows it, where that neither begins with the final NUL after a
`/` of the string nor is touched. -/
theorem cutSegments_splitOn {t : CString} (hzero : 0 ∉ t) (trailing : Bool)
    (hlast : trailing = false → t.getLast? ≠ some slash) :
    cutSegments (t ++ ((if trailing then [slash] else []) ++ [0]))
      = (laidOut (t.splitOn slash) ++ (if trailing then [0] else []), t.count slash) := by
  induction t with
  | nil => rw [List.nil_append, cutSegments_end]; cases trailing <;> rfl
  | cons c t ih =>
    have hc : c ≠ 0 := fun heq => hzero (heq ▸ List.mem_cons_self)
    have hzero' : 0 ∉ t := fun hin => hzero (List.mem_cons_of_mem _ hin)
    have hlast' : trailing = false → t.getLast? ≠ some slash := by
      intro hf
      cases t with
      | nil => simp
      | cons d t => simpa using hlast hf
    have hrest := ih hzero' hlast'
    rw [List.cons_append, laidOut_splitOn_cons, cutSegments, if_neg hc]
    by_cases hs : c = slash
    · -- the final NUL does not stand right behind: a byte of `t`, or the trailing `/`, does
      have hhead : (t ++ ((if trailing then [slash] else []) ++ [0])).head? ≠ some 0 := by
        cases t with
        | nil =>
          cases trailing with
          | false => exact absurd (by simp [hs]) (hlast rfl)
          | true => decide
        | cons d t =>
          have hd : d ≠ 0 := fun heq => hzero' (heq ▸ List.mem_cons_self)
          simpa using hd
      rw [if_pos hs, if_neg hhead, hrest, if_pos hs, hs, List.count_cons_self]
      rfl
    · rw [if_neg hs, hrest, if_neg hs, List.count_cons_of_ne (fun heq => hs heq)]
      rfl

/-- Their characters are the string's. -/
theorem mem_of_mem_splitOn (t : CString) : ∀ seg ∈ t.splitOn slash, ∀ x ∈ seg, x ∈ t := by
  induction t with
  | nil => simp
  | cons c t ih =>
    rw [List.splitOn_cons_eq_if_modifyHead]
    obtain ⟨seg, segs, hsplit⟩ := List.exists_cons_of_ne_nil (List.splitOn_ne_nil slash t)
    rw [hsplit] at ih ⊢
    simp only [List.forall_mem_cons] at ih
    have hsegs : ∀ seg ∈ segs, ∀ x ∈ seg, x ∈ c :: t :=
      fun seg hseg x hx => List.mem_cons_of_mem _ (ih.2 seg hseg x hx)
    have hseg : ∀ x ∈ seg, x ∈ c :: t := fun x hx => List.mem_cons_of_mem _ (ih.1 x hx)
    split
    case isTrue =>
      rw [List.forall_mem_cons, List.forall_mem_cons]
      exact ⟨nofun, hseg, hsegs⟩
    case isFalse =>
      rw [List.modifyHead_cons, List.forall_mem_cons, List.forall_mem_cons]
      exact ⟨⟨List.mem_cons_self, hseg⟩, hsegs⟩

/-- The loop over any string: it leaves the segments, one after the other. -/
theorem cutSegments_nul {t : CString} (hzero : 0 ∉ t) :
    ∃ rest, cutSegments (t ++ [0])
      = (laidOut ((if t.getLast? = some slash then t.dropLast else t).splitOn slash) ++ rest,
        (if t.getLast? = some slash then t.dropLast else t).count slash) := by
  by_cases hlast : t.getLast? = some slash
  · -- the last `/` is what `trailing` stands for
    have hsplit : t ++ [0] = t.dropLast ++ ((if true then [slash] else []) ++ [0]) := by
      rw [← List.append_assoc]
      exact congrArg (· ++ [0]) (List.dropLast_append_getLast? slash hlast).symm
    rw [if_pos hlast, hsplit]
    exact ⟨_, cutSegments_splitOn (fun hin => hzero (List.dropLast_subset _ hin)) true nofun⟩
  · rw [if_neg hlast]
    exact ⟨_, cutSegments_splitOn hzero false fun _ => hlast⟩

theorem skipSlash_nul (s : CString) :
    (if (s ++ [0]).head? = some slash then (s ++ [0]).tail else s ++ [0])
      = (if s.head? = some slash then s.tail else s) ++ [0] := by
  cases s with
  | nil => decide
  | cons c s => by_cases hc : c = slash <;> simp [hc]

theorem zero_not_mem_skipSlash {s : CString} (hzero : 0 ∉ s) :
    0 ∉ if s.head? = some slash then s.tail else s := by
  split
  · exact fun hin => hzero (List.mem_of_mem_tail hin)
  · exact hzero

theorem zero_not_mem_skipLast {t : CString} (hzero : 0 ∉ t) :
    0 ∉ if t.getLast? = some slash then t.dropLast else t := by
  split
  · exact fun hin => hzero (List.dropLast_subset _ hin)
  · exact hzero

/-- `path` splits at every `/`, but for one at either end. -/
theorem path_eq_splitOn {s : CString} (hzero : 0 ∉ s) : path s = (trimSlashes s).splitOn slash := by
  have hskip := zero_not_mem_skipSlash hzero
  obtain ⟨rest, hcut⟩ := cutSegments_nul hskip
  unfold path trimSlashes
  simp only [skipSlash_nul, hcut, ← length_splitOn]
  have htrim := zero_not_mem_skipLast hskip
  exact strings_laidOut (fun seg hseg hin => htrim (mem_of_mem_splitOn _ seg hseg 0 hin)) _

theorem path_length_pos {s : CString} (hzero : 0 ∉ s) : 0 < (path s).length := by
  rw [path_eq_splitOn hzero]
  exact List.length_pos_iff.mpr (List.splitOn_ne_nil _ _)

/-- What the first loop leaves of the copy: the segments, one after the other. -/
theorem cutSegments_path {s : CString} (hzero : 0 ∉ s) :
    ∃ rest, cutSegments ((if s.head? = some slash then s.tail else s) ++ [0])
      = (laidOut (path s) ++ rest, (path s).length - 1) := by
  obtain ⟨rest, hcut⟩ := cutSegments_nul (zero_not_mem_skipSlash hzero)
  refine ⟨rest, ?_⟩
  rw [hcut, path_eq_splitOn hzero, length_splitOn, Nat.add_sub_cancel_left]
  rfl

/-- **Splitting inverts joining.** The segments of a string are those between its `/`, but for one
at either end, and joined segments split into themselves. -/
theorem path_splits {s : CString} (hzero : 0 ∉ s) :
    (path s).length = 1 + (trimSlashes s).count slash
      ∧ (∀ seg ∈ path s, slash ∉ seg)
      ∧ joinPath (path s) = trimSlashes s
      ∧ ∀ segs : List CString, segs ≠ [] → (∀ seg ∈ segs, IsSegment seg) →
          ∀ leading trailing, path (spelled leading trailing segs) = segs := by
  rw [path_eq_splitOn hzero]
  exact ⟨length_splitOn _, not_mem_of_mem_splitOn _, List.intercalate_splitOn _,
    fun _ hne hsegs => path_spelled hne hsegs⟩

/-- `//a//`: `/a/` is left, which has three segments. -/
theorem path_splits_doubled : path [slash, slash, 97, slash, slash] = [[], [97], []]
    ∧ joinPath (path [slash, slash, 97, slash, slash]) = [slash, 97, slash] :=
  ⟨by decide, (path_splits (by decide)).2.2.1⟩

end DiyOS
