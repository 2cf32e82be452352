import DiyOS.Gui.Navigator

/-!
# Directory strings of the navigator

Going down appends a name, with a `/` before it unless the string ends with one; going up cuts the string
behind an earlier `/`. Both lead from a path of the root to another.

* **`Absolute`** — the paths of the root, and their segments.
* **`goUp_absolute`**, **`child_absolute`** — one step up and one step down.
* **`choose_down_up`** — down into a directory and up again.
* **`dotDot_inside_iff`** — `..` stays in the string as long as it is not chosen in `/`.
-/

namespace DiyOS

open Word CString

namespace Navigator

/-- `/`, or a path of the root with these segments, with or without a `/` at its end. -/
inductive Absolute : CString → List CString → Prop where
  | root : Absolute [slash] []
  | nested {segs : List CString} (hne : segs ≠ []) (hsegs : ∀ s ∈ segs, IsSegment s) (trailing : Bool) :
      Absolute (spelled true trailing segs) segs

section

variable {directory name s : CString} {segs : List CString} {outside : Nat → UInt8}

theorem joinPath_append {segs segs' : List CString} (h : segs ≠ []) (h' : segs' ≠ []) :
    joinPath (segs ++ segs') = joinPath segs ++ slash :: joinPath segs' := by
  induction segs with
  | nil => exact absurd rfl h
  | cons s segs ih =>
    by_cases hlast : segs = []
    · rw [hlast, List.singleton_append, joinPath_cons h']
      rw [show joinPath [s] = s from List.intercalate_singleton]
    · have hne : segs ++ segs' ≠ [] := List.append_ne_nil_of_left_ne_nil hlast _
      rw [List.cons_append, joinPath_cons hne, ih hlast, joinPath_cons hlast]
      simp

/-- The path of the directory that `segs` lead to, without a `/` at its end. -/
def above (segs : List CString) : CString := if segs = [] then [] else slash :: joinPath segs

/-- A path with a `/` at its end is a path. -/
theorem above_slash (hsegs : ∀ s ∈ segs, IsSegment s) : Absolute (above segs ++ [slash]) segs := by
  by_cases hne : segs = []
  · rw [hne]
    exact Absolute.root
  · have hspelled : above segs ++ [slash] = spelled true true segs := by
      simp [above, spelled, hne]
    rw [hspelled]
    exact Absolute.nested hne hsegs true

/-- The last segment behind the path of the others. -/
theorem spelled_concat (segs : List CString) (s : CString) (trailing : Bool) :
    spelled true trailing (segs ++ [s])
      = above segs ++ slash :: (s ++ if trailing then [slash] else []) := by
  by_cases hne : segs = []
  · simp [hne, above, spelled, joinPath, List.intercalate_singleton]
  · have hlast : joinPath [s] = s := List.intercalate_singleton
    simp only [spelled, joinPath_append hne (List.cons_ne_nil s []), hlast, above, if_neg hne, if_true]
    simp

theorem Absolute.segments (h : Absolute directory segs) : ∀ s ∈ segs, IsSegment s := by
  cases h with
  | root => exact nofun
  | nested _ hsegs _ => exact hsegs

theorem Absolute.ne_nil (h : Absolute directory segs) : directory ≠ [] := by
  cases h with
  | root => exact List.cons_ne_nil _ _
  | nested _ _ trailing => simp [spelled]

/-- What a path splits into. -/
theorem Absolute.path_eq (h : Absolute directory segs) :
    path directory = if segs = [] then [[]] else segs := by
  cases h with
  | root => decide
  | nested hne hsegs trailing => rw [if_neg hne, path_spelled hne hsegs]

/-- Only `/` has no segments. -/
theorem Absolute.eq_slash_iff (h : Absolute directory segs) : directory = [slash] ↔ segs = [] := by
  cases h with
  | root => exact iff_of_true rfl rfl
  | nested hne hsegs trailing => exact iff_of_false (spelled_ne_slash hne hsegs true trailing) hne

/-- The last byte of a path with segments is a `/` only where it was put at the end. -/
theorem getLast?_nested (hne : segs ≠ []) (hsegs : ∀ s ∈ segs, IsSegment s) (trailing : Bool) :
    (spelled true trailing segs).getLast? = some slash ↔ trailing = true := by
  cases trailing with
  | true =>
    refine iff_of_true ?_ rfl
    show (_ ++ [slash]).getLast? = some slash
    exact List.getLast?_concat
  | false =>
    obtain ⟨init, s, rfl⟩ := (List.eq_nil_or_concat' segs).resolve_left hne
    have hs := hsegs s (by simp)
    obtain ⟨t, c, rfl⟩ := (List.eq_nil_or_concat' s).resolve_left hs.ne_nil
    have hc : c ≠ slash := fun heq => hs.slash_not_mem (by simp [heq])
    have hsplit : spelled true false (init ++ [t ++ [c]]) = above init ++ slash :: t ++ [c] := by
      rw [spelled_concat]
      simp
    rw [hsplit, List.getLast?_concat, Option.some.injEq]
    exact iff_of_false hc Bool.false_ne_true

/-! ## Down

A name is appended behind a `/`. If the string ends with one already, as the root's does, there is one `/` only. -/

theorem byteAt_eq {i : Nat} (hi : i < directory.length) : byteAt directory outside i = directory[i] := by
  unfold byteAt
  rw [List.getElem?_append_left hi, List.getElem?_eq_getElem hi]
  rfl

theorem byteAt_last (hne : directory ≠ []) (hlt : directory.length < 4294967296) :
    byteAt directory outside (sub32 directory.length 1) = slash ↔ directory.getLast? = some slash := by
  have hpos := List.length_pos_iff.mpr hne
  rw [sub32_of_le hpos hlt, byteAt_eq (by omega), List.getLast?_eq_getElem?,
    List.getElem?_eq_getElem (show directory.length - 1 < directory.length by omega), Option.some.injEq]

/-- One step down, with one `/` between. -/
theorem child_eq (h : Absolute directory segs) (hlt : directory.length < 4294967296) (name : CString) :
    (if byteAt directory outside (sub32 directory.length 1) ≠ slash then directory ++ slash :: name
      else directory ++ name) = above segs ++ slash :: name := by
  have hlast := @byteAt_last directory outside h.ne_nil hlt
  cases h with
  | root =>
    rw [if_neg (not_not_intro (hlast.mpr rfl))]
    rfl
  | nested hne hsegs trailing =>
    rw [getLast?_nested hne hsegs] at hlast
    cases trailing with
    | true =>
      rw [if_neg (not_not_intro (hlast.mpr rfl))]
      simp [spelled, above, hne]
    | false =>
      rw [if_pos fun heq => absurd (hlast.mp heq) (by decide)]
      simp [spelled, above, hne]

/-- A name behind a path is one more segment. -/
theorem child_absolute (hsegs : ∀ s ∈ segs, IsSegment s) (hname : Unsplit name) :
    Absolute (above segs ++ slash :: name) (if name = [] then segs else segs ++ [name]) := by
  by_cases hnil : name = []
  · rw [if_pos hnil, hnil]
    exact above_slash hsegs
  · have hspelled := spelled_concat segs name false
    simp only [if_neg Bool.false_ne_true, List.append_nil] at hspelled
    rw [if_neg hnil, ← hspelled]
    refine Absolute.nested (List.append_ne_nil_of_right_ne_nil _ (List.cons_ne_nil _ _)) ?_ false
    intro s hs
    rcases List.mem_append.mp hs with hin | hlast
    · exact hsegs s hin
    · rw [List.mem_singleton.mp hlast]
      exact ⟨hnil, hname.1, hname.2⟩

/-! ## Up

The string is scanned for a `/`, from its last character but one to the left, and what is left ends with this
`/`. For the string `/` that index is -1, so the scan begins outside. -/

theorem scanBack_le (byte : Nat → UInt8) (i : Nat) :
    (scanBack byte i).2 ≤ i ∧ ∀ r ∈ (scanBack byte i).1, r ≤ i := by
  induction i with
  | zero => exact ⟨Nat.le_refl _, by simp [scanBack]⟩
  | succ i ih =>
    rw [scanBack]
    split
    · refine ⟨Nat.le_succ_of_le ih.1, ?_⟩
      rw [List.forall_mem_cons]
      exact ⟨Nat.le_refl _, fun r hr => Nat.le_succ_of_le (ih.2 r hr)⟩
    · exact ⟨Nat.le_refl _, by simp⟩

/-- The scan stops at the first `/` that it comes to. -/
theorem scanBack_eq {byte : Nat → UInt8} {k j : Nat} (hk : byte k = slash)
    (hbetween : ∀ i, k < i → i ≤ k + j → byte i ≠ slash) : (scanBack byte (k + j)).2 = k := by
  induction j with
  | zero =>
    cases k with
    | zero => rfl
    | succ k =>
      rw [Nat.add_zero, scanBack, if_neg (not_not_intro hk)]
  | succ j ih =>
    have hne := hbetween (k + (j + 1)) (by omega) (Nat.le_refl _)
    rw [← Nat.add_assoc] at hne ⊢
    rw [scanBack, if_pos hne]
    exact ih fun i hlt hle => hbetween i hlt (by omega)

/-- The first index that is read. -/
theorem scanBack_start (byte : Nat → UInt8) (i : Nat) : i ∈ (scanBack byte i).1 := by
  cases i with
  | zero => simp [scanBack]
  | succ i =>
    rw [scanBack]
    split <;> simp

theorem Up.ofScan_reads (directory : CString) (scan : List Nat × Nat) :
    (Up.ofScan directory scan).reads = scan.1 := rfl

theorem Up.ofScan_write (directory : CString) (scan : List Nat × Nat) :
    (Up.ofScan directory scan).write = u32 (scan.2 + 1) := rfl

theorem Up.ofScan_directory (directory : CString) (scan : List Nat × Nat) :
    (Up.ofScan directory scan).directory = directory.take (Up.ofScan directory scan).write := rfl

/-- The scan in a string of which the last segment is `s` ends at the `/` before it. -/
theorem scanBack_segment {before after : CString} (hs : IsSegment s) (hafter : after.length ≤ 1)
    (hlt : (before ++ slash :: (s ++ after)).length < 4294967296) :
    (scanBack (byteAt (before ++ slash :: (s ++ after)) outside)
      (sub32 (before ++ slash :: (s ++ after)).length 2)).2 = before.length := by
  generalize hdirectory : before ++ slash :: (s ++ after) = directory at hlt ⊢
  have hlength : directory.length = before.length + 1 + s.length + after.length := by
    rw [← hdirectory]
    simp only [List.length_append, List.length_cons]
    omega
  have hpos := List.length_pos_iff.mpr hs.ne_nil
  have hstart : sub32 directory.length 2 = before.length + (s.length + after.length - 1) := by
    rw [sub32_of_le (by omega) hlt]
    omega
  rw [hstart]
  refine scanBack_eq ?_ ?_
  · rw [byteAt_eq (by omega)]
    subst hdirectory
    simp
  · -- from the first index on, the bytes down to the `/` are those of the segment
    intro i hlo hhi heq
    rw [byteAt_eq (by omega)] at heq
    subst hdirectory
    obtain ⟨j, rfl⟩ : ∃ j, i = before.length + (j + 1) := ⟨i - before.length - 1, by omega⟩
    rw [List.getElem_append_right (by omega)] at heq
    simp only [Nat.add_sub_cancel_left, List.getElem_cons_succ] at heq
    rw [List.getElem_append_left (by omega)] at heq
    exact hs.slash_not_mem (heq ▸ List.getElem_mem _)

/-- One step up, in such a string. -/
theorem goUp_segment {before after : CString} (hs : IsSegment s) (hafter : after.length ≤ 1)
    (hdirectory : directory = before ++ slash :: (s ++ after)) (hlt : directory.length < 4294967296) :
    (∀ i ∈ (goUp directory outside).reads, i ≤ directory.length)
      ∧ (goUp directory outside).write ≤ directory.length
      ∧ (goUp directory outside).directory = before ++ [slash] := by
  have hlength : before.length + 2 ≤ directory.length := by
    have hpos := List.length_pos_iff.mpr hs.ne_nil
    rw [hdirectory]
    simp only [List.length_append, List.length_cons]
    omega
  have hstart : sub32 directory.length 2 ≤ directory.length := by
    rw [sub32_of_le (by omega) hlt]
    exact Nat.sub_le _ _
  have htake : directory.take (before.length + 1) = before ++ [slash] := by
    rw [hdirectory, List.take_length_add_append]
    rfl
  have hwrite : (goUp directory outside).write = before.length + 1 := by
    -- the scan ends at the `/` in front of the last segment
    have hscan : (scanBack (byteAt directory outside) (sub32 directory.length 2)).2 = before.length := by
      rw [hdirectory] at hlt ⊢
      exact scanBack_segment hs hafter hlt
    rw [goUp, Up.ofScan_write, hscan]
    exact u32_of_lt (Nat.lt_of_lt_of_le (Nat.lt_succ_self _) (Nat.le_trans hlength (Nat.le_of_lt hlt)))
  refine ⟨fun i hi => ?_, ?_, ?_⟩
  · rw [goUp, Up.ofScan_reads] at hi
    exact Nat.le_trans ((scanBack_le _ _).2 i hi) hstart
  · rw [hwrite]
    exact Nat.le_of_succ_le hlength
  · rw [goUp, Up.ofScan_directory]
    rw [goUp] at hwrite
    rw [hwrite, htake]

/-- **Up.** In a path with segments, `..` reads and writes inside the string and leaves the path without
the last segment. -/
theorem goUp_absolute (h : Absolute directory (segs ++ [s])) (hlt : directory.length < 4294967296) :
    (∀ i ∈ (goUp directory outside).reads, i ≤ directory.length)
      ∧ (goUp directory outside).write ≤ directory.length
      ∧ (goUp directory outside).directory = above segs ++ [slash] := by
  generalize hall : segs ++ [s] = all at h
  cases h with
  | root => simp at hall
  | nested _ hsegs trailing =>
    subst hall
    exact goUp_segment (hsegs s (by simp)) (by cases trailing <;> simp) (spelled_concat segs s trailing) hlt

/-- In `/`, the first byte that `..` reads lies outside. -/
theorem goUp_root (outside : Nat → UInt8) : 4294967295 ∈ (goUp [slash] outside).reads := by
  have hstart : sub32 ([slash] : CString).length 2 = 4294967295 := by decide
  rw [goUp, Up.ofScan_reads, hstart]
  exact scanBack_start _ _

/-- What `..` leaves of `/`: the path itself, or nothing. -/
theorem goUp_root_directory (outside : Nat → UInt8) :
    (goUp [slash] outside).directory = [] ∨ (goUp [slash] outside).directory = [slash] := by
  rw [goUp, Up.ofScan_directory]
  generalize (Up.ofScan _ _).write = k
  cases k with
  | zero => exact Or.inl rfl
  | succ k => exact Or.inr (by simp)

end

/-! ## Down and up again

The string that comes back can differ from the one before by a `/` at its end. Both are paths with the same
segments, and list the same directory. -/

section

variable {v : Vfs} {g g' : Garbage} {fn fn' : Navigator} {directory : CString} {segs : List CString}
  {l : Vfs.Dirent}

/-- The choice of the selected entry ends, and leads from `fn` to `fn'`. -/
def Chooses (v : Vfs) (g : Garbage) (fn fn' : Navigator) : Prop :=
  Settles (fun fuel => fileNavigatorChoose v g fuel fn) (.ok fn')

/-- No call of `readdir` for the listing reads through a null list. -/
def Lists (v : Vfs) (g : Garbage) (directory : CString) : Prop :=
  ¬ Fails (readdir v 2 directory) .undefined (some (dotDotEntry g))

/-- A choice of an entry, where the directory can be listed. -/
theorem Chooses.chosen (hfits : ListsFit v) (hentry : listGet fn.files fn.selected = some l)
    (hdirectory : fn.directory = some directory) (h : Chooses v g fn fn') : Chosen v g fn fn' := by
  rcases choose_settles hfits hentry hdirectory with ⟨fn'', hcall, hchosen⟩ | hundefined
  · cases h.unique hcall
    exact hchosen
  · cases h.unique hundefined

theorem Lists.set (hfits : ListsFit v) (hfn : fn.Loadable) (h : Lists v g directory) :
    ∃ ds, Settles (fun fuel => fileNavigatorSet v fuel g fn (some directory))
      (.ok (fn.showing directory g ds)) := by
  obtain ⟨ds, hds, n, hle⟩ := (@readdir_ends v directory (some (dotDotEntry g))).resolve_right h
  have hbound := hfits n
  exact ⟨ds, set_of_enumerates hfn hds (by omega)⟩

/-- A path with room for the name. -/
theorem filePath_eq {name : CString} (hroom : directory.length + name.length + 2 < 4294967296) :
    filePath directory name = .ok (directory ++ slash :: name) := by
  have hfirst : strcat directory [slash] = .ok (directory ++ [slash]) :=
    if_pos (show directory.length + [slash].length + 1 < 4294967296 by simp; omega)
  have hsecond : strcat (directory ++ [slash]) name = .ok (directory ++ slash :: name) := by
    unfold strcat
    rw [if_pos (by simp; omega), List.append_assoc]
    rfl
  rw [filePath, hfirst]
  exact hsecond

/-- The directory of a child. -/
theorem childPath_absolute (h : Absolute directory segs) (hlt : directory.length < 4294967296)
    (outside : Nat → UInt8) {name : CString} (hroom : directory.length + name.length + 2 < 4294967296) :
    childPath directory outside name = .ok (above segs ++ slash :: name) := by
  have hchild := @child_eq directory segs outside h hlt name
  unfold childPath
  split at hchild
  case isTrue hlast =>
    rw [if_pos hlast, ← hchild]
    exact filePath_eq hroom
  case isFalse hlast =>
    rw [if_neg hlast, ← hchild]
    unfold strcat
    rw [if_pos (by omega)]

/-- The choice of a directory, where its list ends. -/
theorem chooses_child (hD : Absolute directory segs) (hdirectory : fn.directory = some directory)
    (hentry : listGet fn.files fn.selected = some l) (hflags : l.flags &&& FS_DIRECTORY ≠ 0)
    (hname : l.name ≠ dotDotName) (hroom : directory.length + l.name.length + 2 < 4294967296)
    {ds : List Vfs.Dirent}
    (hds : Enumerates (readdir v 2 (above segs ++ slash :: l.name)) (some (dotDotEntry g)) ds)
    (hlength : 12 * (ds.length + 1) < 4294967296) :
    Chooses v g fn (fn.showing (above segs ++ slash :: l.name) g ds) := by
  have hload : fn.Loadable := Or.inl (by rw [hdirectory]; rfl)
  exact choose_down hentry hdirectory hflags hname (childPath_absolute hD (by omega) g.byte hroom)
    (set_of_enumerates hload hds hlength)

/-- The choice of `..`, where the list of the directory above ends. -/
theorem chooses_parent {s : CString} (hD : Absolute directory (segs ++ [s]))
    (hlt : directory.length < 4294967296) (hdirectory : fn.directory = some directory)
    (hentry : listGet fn.files fn.selected = some (dotDotEntry g')) {ds : List Vfs.Dirent}
    (hds : Enumerates (readdir v 2 (above segs ++ [slash])) (some (dotDotEntry g)) ds)
    (hlength : 12 * (ds.length + 1) < 4294967296) :
    Chooses v g fn (fn.showing (above segs ++ [slash]) g ds) := by
  have hup := (@goUp_absolute _ _ segs g.byte hD hlt).2.2
  rw [← hup] at hds ⊢
  have hload : ({ fn with directory := some (goUp directory g.byte).directory } : Navigator).Loadable :=
    Or.inl rfl
  exact choose_up hentry hdirectory (show FS_DIRECTORY &&& FS_DIRECTORY ≠ 0 by decide) rfl
    (set_of_enumerates hload hds hlength)

/-- **Down and up.** In a path of the root, the choice of a directory and then of `..`, wherever it stands
in the list, leave a string that splits into the segments of the first. The choices end unless a listing
reads through a null list or a string outgrows the memory. -/
theorem choose_down_up (hfits : ListsFit v) (hD : Absolute directory segs)
    (hlt : directory.length < 4294967296) (hdirectory : fn.directory = some directory)
    (hentry : listGet fn.files fn.selected = some l) (hflags : l.flags &&& FS_DIRECTORY ≠ 0)
    (hsegment : IsSegment l.name) (hname : l.name ≠ dotDotName) :
    (∀ fn₁, Chooses v g fn fn₁ → ∀ i d g' fn₂, listGet fn₁.files i = some d →
      d.flags &&& FS_DIRECTORY ≠ 0 → d.name = dotDotName →
      Chooses v g' { fn₁ with selected := i } fn₂ →
        ∃ directory', fn₂.directory = some directory' ∧ path directory' = path directory)
    ∧ (directory.length + l.name.length + 2 < 4294967296 → Lists v g (above segs ++ slash :: l.name) →
      ∃ fn₁, Chooses v g fn fn₁ ∧ listGet fn₁.files fn₁.selected = some (dotDotEntry g)
        ∧ ∀ g', Lists v g' (above segs ++ [slash]) → ∃ fn₂, Chooses v g' fn₁ fn₂) := by
  have hsegs := hD.segments
  have hparent : Absolute (above segs ++ [slash]) segs := above_slash hsegs
  have hchild : Absolute (above segs ++ slash :: l.name) (segs ++ [l.name]) := by
    have h := child_absolute hsegs ⟨hsegment.slash_not_mem, hsegment.zero_not_mem⟩
    rwa [if_neg hsegment.ne_nil] at h
  refine ⟨?_, ?_⟩
  -- what has been chosen first is the directory, and then the entry `..`: no other case of a choice fits
  · intro fn₁ hdown i d g' fn₂ hd hdflags hdname hup
    have hchosen := hdown.chosen hfits hentry hdirectory
    cases hchosen with
    | up hentry' _ _ hname' =>
      cases hentry.symm.trans hentry'
      exact absurd hname' hname
    | view hentry' _ hflags' =>
      cases hentry.symm.trans hentry'
      exact absurd hflags' hflags
    | @down l' directory' p ds hentry' hdirectory' _ _ hp hplt =>
      cases hentry.symm.trans hentry'
      cases hdirectory.symm.trans hdirectory'
      rw [child_eq hD hlt] at hp
      subst hp
      have hagain := hup.chosen hfits hd rfl
      cases hagain with
      | down hentry'' _ _ hname'' =>
        cases hd.symm.trans hentry''
        exact absurd hdname hname''
      | view hentry'' _ hflags'' =>
        cases hd.symm.trans hentry''
        exact absurd hflags'' hdflags
      | up _ hdirectory'' =>
        cases hdirectory''
        refine ⟨_, rfl, ?_⟩
        rw [(goUp_absolute hchild hplt).2.2, hparent.path_eq, hD.path_eq]
  -- the child and its parent are listed, so that both choices end
  · intro hroom hlists
    have hload : fn.Loadable := Or.inl (by rw [hdirectory]; rfl)
    obtain ⟨ds, hset⟩ := hlists.set hfits hload
    refine ⟨_, choose_down hentry hdirectory hflags hname (childPath_absolute hD hlt g.byte hroom) hset,
      rfl, fun g' hlists' => ?_⟩
    have hplt : (above segs ++ slash :: l.name).length < 4294967296 := by
      rw [← @child_eq directory segs g.byte hD hlt l.name]
      split <;> simp <;> omega
    have hup := (@goUp_absolute _ _ segs g'.byte hchild hplt).2.2
    rw [← hup] at hlists'
    obtain ⟨ds', hset'⟩ := hlists'.set hfits (Or.inl rfl : ({ fn.showing _ g ds with
      directory := some (goUp (above segs ++ slash :: l.name) g'.byte).directory } : Navigator).Loadable)
    exact ⟨_, choose_up rfl rfl (show FS_DIRECTORY &&& FS_DIRECTORY ≠ 0 by decide) rfl hset'⟩

theorem bootRoot_listed : Enumerates (readdir (fsRoot bootVfs) 2 [slash]) (some (dotDotEntry (zeroed 0)))
    [⟨[100, 101, 118], .index 2, 1, FS_DIRECTORY⟩] := Enumerates.cons rfl (Enumerates.nil rfl)

theorem devEntries_listed : Enumerates (readdir (fsRoot bootVfs) 2 [slash, 100, 101, 118])
    (some (dotDotEntry (zeroed 0))) devEntries :=
  Enumerates.cons rfl (Enumerates.cons rfl (Enumerates.cons rfl (Enumerates.nil rfl)))

/-- From `/` into `dev` and back. -/
theorem choose_down_up_dev : ∃ fn₁ fn₂ directory',
    Chooses (fsRoot bootVfs) (zeroed 0) { bootRoot with selected := 1 } fn₁
    ∧ Chooses (fsRoot bootVfs) (zeroed 0) fn₁ fn₂
    ∧ fn₂.directory = some directory' ∧ path directory' = path [slash] := by
  have h := @choose_down_up (fsRoot bootVfs) (zeroed 0) { bootRoot with selected := 1 } [slash] []
    ⟨[100, 101, 118], .index 2, 1, FS_DIRECTORY⟩ listsFit_boot Absolute.root (by decide) rfl rfl (by decide)
    (by decide) (by decide)
  obtain ⟨fn₁, hdown, hselected, hagain⟩ := h.2 (by decide) devEntries_listed.not_fails
  obtain ⟨fn₂, hup⟩ := hagain (zeroed 0) bootRoot_listed.not_fails
  obtain ⟨directory', hdirectory, hpath⟩ := h.1 fn₁ hdown fn₁.selected _ (zeroed 0) fn₂ hselected
    (show FS_DIRECTORY &&& FS_DIRECTORY ≠ 0 by decide) rfl hup
  exact ⟨fn₁, fn₂, directory', hdown, hup, hdirectory, hpath⟩

/-! ## Runs

Over all keys: the string is a path of a directory that is listed, or a `..` has been chosen in `/`. -/

/-- The navigator lists `directory`. -/
structure Shown (v : Vfs) (fn : Navigator) (directory : CString) : Prop where
  directory_eq : fn.directory = some directory
  entries : ∃ g ds, fn.files = dotDotEntry g :: ds
    ∧ Enumerates (readdir v 2 directory) (some (dotDotEntry g)) ds

/-- An entry in the list of the directory `n`, and the node that `readdir` listed as the entry. -/
structure Listing (v : Vfs) (directory : CString) (l : Vfs.Dirent) (n c : NodePtr) : Prop where
  resolves : finddirFs v 2 v.rootNode directory = .ok (some n)
  listed : (v.listed n)[l.offset - 1]? = some c
  entry : v.EntryOf l c

theorem Shown.showing (fn : Navigator) {ds : List Vfs.Dirent}
    (hds : Enumerates (readdir v 2 directory) (some (dotDotEntry g)) ds) :
    Shown v (fn.showing directory g ds) directory := ⟨rfl, g, ds, rfl, hds⟩

/-- An entry is `..`, or one of a child. -/
theorem Shown.entry_cases (h : Shown v fn directory) {i : Nat} (hl : listGet fn.files i = some l) :
    (∃ g, l = dotDotEntry g) ∨ ∃ n c, Listing v directory l n c := by
  obtain ⟨g, ds, hfiles, hds⟩ := h.entries
  rw [listGet_eq_getElem] at hl
  have hmem := List.mem_of_getElem? hl
  rw [hfiles] at hmem
  rcases List.mem_cons.mp hmem with rfl | hin
  · exact Or.inl ⟨g, rfl⟩
  · obtain ⟨n, c, hfind, hget, hentry⟩ := readdir_entries hds l hin
    exact Or.inr ⟨n, c, hfind, hget, hentry⟩

variable {lo n c : NodePtr} {e : Press}

/-- The node of an entry. -/
theorem Listing.child (h : Listing v directory l n c) (hgrown : Grown v) (hm : Mounted lo v) :
    v.Within n ∧ (v.children n)[l.offset - 1]? = some c ∧ v.Placed c := by
  have hwithin := hgrown.resolved hm h.resolves
  have hget := h.listed
  rw [hgrown.listed_eq hm hwithin] at hget
  exact ⟨hwithin, hget, hgrown.children_placed hm hwithin (List.mem_of_getElem? hget)⟩

theorem Shown.unsplit (h : Shown v fn directory) (hgrown : Grown v) (hm : Mounted lo v) {i : Nat}
    (hl : listGet fn.files i = some l) (hflags : l.flags &&& FS_DIRECTORY ≠ 0) : Unsplit l.name := by
  rcases h.entry_cases hl with ⟨g, rfl⟩ | ⟨n, c, hlisting⟩
  · exact (by unfold Unsplit; decide : Unsplit dotDotName)
  · rw [hlisting.entry.2] at hflags
    rw [hlisting.entry.1]
    exact (hgrown.unsplit (hlisting.child hgrown hm).2.2 hflags).2

/-- The key chooses the entry `..`. -/
def ChoosesDotDot (fn : Navigator) (e : Press) : Prop :=
  e.key = 10 ∧ ∃ l, listGet fn.files fn.selected = some l ∧ l.flags &&& FS_DIRECTORY ≠ 0
    ∧ l.name = dotDotName

/-- **One key**, in a path of the root: the next directory is a path of the root too, except that `..`
may leave nothing of `/`. -/
theorem Shown.pressed (h : Shown v fn directory) (hgrown : Grown v) (hm : Mounted lo v)
    (hD : Absolute directory segs) (hlt : directory.length < 4294967296) (hpressed : Pressed v fn e fn') :
    ∃ directory', Shown v fn' directory' ∧ directory'.length < 4294967296
      ∧ ((∃ segs', Absolute directory' segs')
        ∨ ChoosesDotDot fn e ∧ directory = [slash] ∧ directory' = []) := by
  cases hpressed with
  | select => exact ⟨directory, ⟨h.directory_eq, h.entries⟩, hlt, Or.inl ⟨segs, hD⟩⟩
  | choose hkey hchosen =>
    cases hchosen with
    | view => exact ⟨directory, ⟨h.directory_eq, h.entries⟩, hlt, Or.inl ⟨segs, hD⟩⟩
    | down hentry hdirectory hflags _ hp hplt hds _ =>
      cases h.directory_eq.symm.trans hdirectory
      rw [child_eq hD hlt] at hp
      subst hp
      have hname := h.unsplit hgrown hm hentry hflags
      exact ⟨_, Shown.showing fn hds, hplt, Or.inl ⟨_, child_absolute hD.segments hname⟩⟩
    | up hentry hdirectory hflags hname hds _ =>
      cases h.directory_eq.symm.trans hdirectory
      rcases List.eq_nil_or_concat' segs with rfl | ⟨init, s, rfl⟩
      · have hroot := hD.eq_slash_iff.mpr rfl
        -- in `/` the byte in front of the string decides what is left of it
        rcases goUp_root_directory e.garbage.byte with hnil | hslash
        · rw [hroot, hnil] at hds ⊢
          have hchosen : ChoosesDotDot fn e := ⟨hkey, _, hentry, hflags, hname⟩
          exact ⟨[], Shown.showing fn hds, by decide, Or.inr ⟨hchosen, rfl, rfl⟩⟩
        · rw [hroot, hslash] at hds ⊢
          exact ⟨[slash], Shown.showing fn hds, by simp, Or.inl ⟨[], Absolute.root⟩⟩
      · obtain ⟨_, _, hup⟩ := @goUp_absolute _ _ init e.garbage.byte hD hlt
        have hinit : ∀ s ∈ init, IsSegment s := fun s hs => hD.segments s (List.mem_append_left _ hs)
        refine ⟨_, Shown.showing fn hds, ?_, Or.inl ⟨init, ?_⟩⟩
        · rw [goUp, Up.ofScan_directory]
          generalize (Up.ofScan _ _).write = k
          exact Nat.lt_of_le_of_lt (List.length_take_le' k directory) hlt
        · rw [hup]
          exact above_slash hinit

/-- The navigator lists a path of the root. -/
def AtPath (v : Vfs) (fn : Navigator) : Prop :=
  ∃ directory segs, Shown v fn directory ∧ Absolute directory segs ∧ directory.length < 4294967296

/-- **The beginning.** A new navigator is at the path `/`. -/
theorem created_atPath (hfits : ListsFit v) {fn₀ : Navigator}
    (hcreate : Settles (fun fuel => fileNavigatorCreate v fuel g (some [slash])) (.ok fn₀)) :
    AtPath v fn₀ := by
  rcases set_settles hfits (Or.inr ⟨rfl, rfl, rfl⟩ : empty.Loadable) g [slash] with
    ⟨ds, hds, _, hset⟩ | hundefined
  · cases hcreate.unique hset
    exact ⟨[slash], [], Shown.showing empty hds, Absolute.root, by simp⟩
  · cases hcreate.unique hundefined

/-- What choosing `..` should do: it reads and writes in the string, and leaves the path without its last
segment, which of `/` is `/` again. -/
def StaysInside (fn : Navigator) (e : Press) (fn' : Navigator) : Prop :=
  ∃ directory segs directory', fn.directory = some directory ∧ Absolute directory segs
    ∧ (∀ i ∈ (goUp directory e.garbage.byte).reads, i ≤ directory.length)
    ∧ (goUp directory e.garbage.byte).write ≤ directory.length
    ∧ fn'.directory = some directory' ∧ Absolute directory' segs.dropLast

/-- `..` stays inside the string, but in `/`. -/
theorem Shown.staysInside_iff (h : Shown v fn directory) (hD : Absolute directory segs)
    (hlt : directory.length < 4294967296) (hpressed : Pressed v fn e fn') (hup : ChoosesDotDot fn e) :
    StaysInside fn e fn' ↔ fn.directory ≠ some [slash] := by
  obtain ⟨hkey, l, hentry, hflags, hname⟩ := hup
  have hdirectory : fn'.directory = some (goUp directory e.garbage.byte).directory := by
    cases hpressed with
    | select hne => exact absurd hkey hne
    | choose _ hchosen =>
      cases hchosen with
      | up _ hdirectory =>
        cases h.directory_eq.symm.trans hdirectory
        rfl
      | down hentry' _ _ hname' =>
        cases hentry.symm.trans hentry'
        exact absurd hname hname'
      | view hentry' _ hflags' =>
        cases hentry.symm.trans hentry'
        exact absurd hflags' hflags
  rcases List.eq_nil_or_concat' segs with rfl | ⟨init, s, rfl⟩
  · have hroot := hD.eq_slash_iff.mpr rfl
    refine iff_of_false ?_ (not_not_intro (h.directory_eq.trans (congrArg some hroot)))
    rintro ⟨d, segs, d', hd, _, hreads, _⟩
    cases h.directory_eq.symm.trans hd
    rw [hroot] at hreads
    have hle := hreads _ (goUp_root _)
    rw [List.length_singleton] at hle
    omega
  · have hne : directory ≠ [slash] := fun heq =>
      List.append_ne_nil_of_right_ne_nil init (List.cons_ne_nil s []) (hD.eq_slash_iff.mp heq)
    obtain ⟨hreads, hwrite, hleft⟩ := @goUp_absolute _ _ init e.garbage.byte hD hlt
    have hinit : ∀ s ∈ init, IsSegment s := fun s hs => hD.segments s (List.mem_append_left _ hs)
    refine iff_of_true ⟨_, _, _, h.directory_eq, hD, hreads, hwrite, hdirectory, ?_⟩ ?_
    · rw [hleft, List.dropLast_concat]
      exact above_slash hinit
    · rw [h.directory_eq]
      exact fun heq => hne (Option.some.inj heq)

/-- **`..` in the string.** In a run of keys from `/`, each choice of `..` reads and writes inside the
directory string and leaves the parent, exactly if none of them is made in `/`. -/
theorem dotDot_inside_iff {v₀ : Vfs} (h₀ : Unlisted v₀) {regs : List (Transition Vfs Registration)}
    (hregs : Run Registers (fsRoot v₀) regs v) (hfits : ListsFit v) {fn₀ : Navigator}
    (hcreate : Settles (fun fuel => fileNavigatorCreate v fuel g (some [slash])) (.ok fn₀))
    {tr : List (Transition Navigator Press)} (hrun : Run (KeyStep v) fn₀ tr fn) :
    (∀ τ ∈ tr, ChoosesDotDot τ.pre τ.event → StaysInside τ.pre τ.event τ.post)
      ↔ ∀ τ ∈ tr, ¬ (ChoosesDotDot τ.pre τ.event ∧ τ.pre.directory = some [slash]) := by
  have hm := mounted_registers h₀ hregs
  have hgrown := grown_registers h₀ hregs
  refine hrun.all_iff_while (I := fun fn => fn.Inv ∧ AtPath v fn)
    (P := fun τ => ChoosesDotDot τ.pre τ.event → StaysInside τ.pre τ.event τ.post)
    (Q := fun τ => ¬ (ChoosesDotDot τ.pre τ.event ∧ τ.pre.directory = some [slash]))
    ⟨Inv.created hfits hcreate, created_atPath hfits hcreate⟩ ?_ ?_
  · rintro s e t ⟨hinv, directory, segs, hshown, hD, hlt⟩ hstep
    rw [not_and]
    exact forall_congr' fun hup => hshown.staysInside_iff hD hlt (hinv.keyStep hfits hstep) hup
  · rintro s e t ⟨hinv, directory, segs, hshown, hD, hlt⟩ hstep hcond
    have hpressed := hinv.keyStep hfits hstep
    obtain ⟨directory', hshown', hlt', hcases⟩ := hshown.pressed hgrown hm hD hlt hpressed
    refine ⟨hinv.pressed hpressed, directory', ?_⟩
    rcases hcases with ⟨segs', hD'⟩ | ⟨hup, hroot, _⟩
    · exact ⟨segs', hshown', hD', hlt'⟩
    · exact absurd ⟨hup, hshown.directory_eq.trans (congrArg some hroot)⟩ hcond

/-- `/dev`, entered from `/`. -/
def bootDev : Navigator := bootRoot.showing [slash, 100, 101, 118] (zeroed 0) devEntries

theorem bootDev_run : Run (KeyStep (fsRoot bootVfs)) bootRoot
    [⟨bootRoot, ⟨keyDown, zeroed 0⟩, { bootRoot with selected := 1 }⟩,
      ⟨{ bootRoot with selected := 1 }, ⟨10, zeroed 0⟩, bootDev⟩] bootDev := by
  have hselect : KeyStep (fsRoot bootVfs) bootRoot ⟨keyDown, zeroed 0⟩ { bootRoot with selected := 1 } :=
    ⟨0, fun _ _ => rfl⟩
  have hdown : KeyStep (fsRoot bootVfs) { bootRoot with selected := 1 } ⟨10, zeroed 0⟩ bootDev :=
    chooses_child (l := ⟨[100, 101, 118], .index 2, 1, FS_DIRECTORY⟩) Absolute.root rfl rfl (by decide)
      (by decide) (by decide) devEntries_listed (by decide)
  exact (Run.nil.snoc hselect).snoc hdown

/-- From `/` into `dev`, and back by `..`. -/
theorem dotDot_inside_dev : ∃ fn, KeyStep (fsRoot bootVfs) bootDev ⟨10, zeroed 0⟩ fn
    ∧ ChoosesDotDot bootDev ⟨10, zeroed 0⟩ ∧ StaysInside bootDev ⟨10, zeroed 0⟩ fn := by
  have hentry : listGet bootDev.files bootDev.selected = some (dotDotEntry (zeroed 0)) := rfl
  have hdotDot : ChoosesDotDot bootDev ⟨10, zeroed 0⟩ :=
    ⟨rfl, dotDotEntry (zeroed 0), hentry, (show FS_DIRECTORY &&& FS_DIRECTORY ≠ 0 by decide), rfl⟩
  have hchild : Absolute [slash, 100, 101, 118] ([] ++ [[100, 101, 118]]) :=
    child_absolute (List.forall_mem_nil _) (by unfold Unsplit; decide)
  have hup : KeyStep (fsRoot bootVfs) bootDev ⟨10, zeroed 0⟩ _ :=
    chooses_parent hchild (by decide) rfl hentry bootRoot_listed (by decide)
  have hinside := (dotDot_inside_iff bootVfs_unlisted Run.nil listsFit_boot bootRoot_created
    (bootDev_run.snoc hup)).mpr ?_
  · have hstays := hinside ⟨bootDev, ⟨10, zeroed 0⟩, _⟩ (List.mem_append_right _ List.mem_cons_self)
    exact ⟨_, hup, hdotDot, hstays hdotDot⟩
  · simp only [List.cons_append, List.nil_append, List.forall_mem_cons]
    refine ⟨?_, ?_, ?_, List.forall_mem_nil _⟩
    · rintro ⟨⟨hkey, _⟩, _⟩
      exact absurd hkey (by decide)
    · rintro ⟨⟨_, l, hentry, _, hname⟩, _⟩
      cases hentry
      exact absurd hname (by decide)
    · rintro ⟨_, hdirectory⟩
      exact absurd hdirectory (by decide)

/-- `..` chosen in `/`: the first read is at the index `0xFFFFFFFF`. -/
theorem dotDot_leaves_string :
    Settles (fun fuel => fileNavigatorCreate (fsRoot bootVfs) fuel (zeroed 0) (some [slash])) (.ok bootRoot)
    ∧ ChoosesDotDot bootRoot ⟨10, zeroed 0⟩
    ∧ ∃ fn, KeyStep (fsRoot bootVfs) bootRoot ⟨10, zeroed 0⟩ fn
      ∧ ¬ StaysInside bootRoot ⟨10, zeroed 0⟩ fn := by
  have hup : ChoosesDotDot bootRoot ⟨10, zeroed 0⟩ :=
    ⟨rfl, dotDotEntry (zeroed 0), rfl, (show FS_DIRECTORY &&& FS_DIRECTORY ≠ 0 by decide), rfl⟩
  have hnil : Enumerates (readdir (fsRoot bootVfs) 2 []) (some (dotDotEntry (zeroed 0))) [] :=
    Enumerates.nil rfl
  obtain ⟨ds, hds, hlength⟩ : ∃ ds,
      Enumerates (readdir (fsRoot bootVfs) 2 (goUp [slash] (zeroed 0).byte).directory)
        (some (dotDotEntry (zeroed 0))) ds ∧ 12 * (ds.length + 1) < 4294967296 := by
    rcases goUp_root_directory (zeroed 0).byte with heq | heq
    · rw [heq]
      exact ⟨_, hnil, by decide⟩
    · rw [heq]
      exact ⟨_, bootRoot_listed, by decide⟩
  have hload : ({ bootRoot with
      directory := some (goUp [slash] (zeroed 0).byte).directory } : Navigator).Loadable := Or.inl rfl
  have hset := set_of_enumerates hload hds hlength
  have hstep : KeyStep (fsRoot bootVfs) bootRoot ⟨10, zeroed 0⟩ _ :=
    choose_up (l := dotDotEntry (zeroed 0)) rfl rfl (show FS_DIRECTORY &&& FS_DIRECTORY ≠ 0 by decide)
      rfl hset
  refine ⟨bootRoot_created, hup, _, hstep, ?_⟩
  have hshown : Shown (fsRoot bootVfs) bootRoot [slash] := Shown.showing empty bootRoot_listed
  have hinv : bootRoot.Inv := Inv.created listsFit_boot bootRoot_created
  have hpressed := hinv.keyStep listsFit_boot hstep
  rw [hshown.staysInside_iff Absolute.root (by simp) hpressed hup]
  exact not_not_intro rfl

end

end Navigator

end DiyOS
