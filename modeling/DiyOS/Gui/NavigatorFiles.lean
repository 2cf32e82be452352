import DiyOS.Gui.NavigatorPaths
import DiyOS.Fs.RoundTrip

/-!
# Files that the navigator opens

The path that is passed to `text_view` is the directory string, one `/` more, and the name of the entry.
Where the string ends with `/` already, as it does after `..`, the path has an empty segment.

* **`path_doubled`** — how `path` splits it then.
* **`Opens`**, **`Openable`** — the path leads to the node of the entry, and when it does.
* **`file_opens_iff`** — in every state that keys lead to, for each file in the list.
-/

namespace DiyOS

open Word CString

namespace Navigator

section

variable {segs : List CString} {directory name : CString}

theorem zero_not_mem_joinPath {segs : List CString} (h : ∀ s ∈ segs, 0 ∉ s) : 0 ∉ joinPath segs := by
  induction segs with
  | nil => exact List.not_mem_nil
  | cons s segs ih =>
    rw [List.forall_mem_cons] at h
    by_cases hlast : segs = []
    · rw [hlast, show joinPath [s] = s from List.intercalate_singleton]
      exact h.1
    · rw [joinPath_cons hlast]
      have hrest := ih h.2
      simp [h.1, hrest, slash]

/-- A string that is joined of segments, some of them empty, splits into them. -/
theorem path_joinPath (hne : segs ≠ []) (hsegs : ∀ s ∈ segs, Unsplit s) :
    path (slash :: joinPath segs ++ [slash]) = segs
      ∧ ((joinPath segs).getLast? ≠ some slash → path (slash :: joinPath segs) = segs) := by
  have hzero : 0 ∉ joinPath segs := zero_not_mem_joinPath fun s hs => (hsegs s hs).2
  have hsplit : (joinPath segs).splitOn slash = segs :=
    List.splitOn_intercalate slash (fun s hs => (hsegs s hs).1) hne
  refine ⟨?_, fun hlast => ?_⟩
  · rw [path_eq_splitOn (by simp [hzero, slash])]
    have htrim : trimSlashes (slash :: joinPath segs ++ [slash]) = joinPath segs := by
      simp [trimSlashes]
    rw [htrim, hsplit]
  · rw [path_eq_splitOn (by simp [hzero, slash])]
    have htrim : trimSlashes (slash :: joinPath segs) = joinPath segs := by
      simp [trimSlashes, hlast]
    rw [htrim, hsplit]

theorem getLast?_segment {s : CString} (hs : IsSegment s) (before : CString) :
    (before ++ s).getLast? ≠ some slash := by
  obtain ⟨t, c, rfl⟩ := (List.eq_nil_or_concat' s).resolve_left hs.ne_nil
  have hc : c ≠ slash := fun heq => hs.slash_not_mem (by simp [heq])
  rw [← List.append_assoc, List.getLast?_concat]
  exact fun heq => hc (Option.some.inj heq)

/-- Behind a string that ends with `/`, one `/` more makes an empty segment. -/
theorem path_doubled (hsegs : ∀ s ∈ segs, IsSegment s) (hname : Unsplit name) :
    path (above segs ++ slash :: slash :: name) = segs ++ if name = [] then [[]] else [[], name] := by
  have hall : ∀ rest : List CString, (∀ s ∈ rest, Unsplit s) → ∀ s ∈ segs ++ rest, Unsplit s := by
    intro rest hrest s hs
    rcases List.mem_append.mp hs with hin | hin
    · exact ⟨(hsegs s hin).slash_not_mem, (hsegs s hin).zero_not_mem⟩
    · exact hrest s hin
  have hjoin : ∀ rest : List CString, rest ≠ [] →
      above segs ++ slash :: joinPath rest = slash :: joinPath (segs ++ rest) := by
    intro rest hrest
    by_cases hne : segs = []
    · simp [hne, above]
    · rw [joinPath_append hne hrest, above, if_neg hne, List.cons_append]
  have hempty : Unsplit [] := ⟨List.not_mem_nil, List.not_mem_nil⟩
  by_cases hnil : name = []
  · have hlast := hjoin [[]] (List.cons_ne_nil _ _)
    have hsplit := (path_joinPath (List.append_ne_nil_of_right_ne_nil segs (List.cons_ne_nil [] []))
      (hall [[]] (by simp [hempty]))).1
    rw [if_pos hnil, hnil, ← hsplit, ← hlast]
    rw [show joinPath [[]] = [] from rfl]
    simp
  · have hpair : joinPath [[], name] = slash :: name := by
      rw [joinPath_cons (List.cons_ne_nil _ _), show joinPath [name] = name from List.intercalate_singleton]
      rfl
    have hlast := hjoin [[], name] (List.cons_ne_nil _ _)
    have hsplit := (path_joinPath (List.append_ne_nil_of_right_ne_nil segs (List.cons_ne_nil [] [name]))
      (hall [[], name] (by simp [hempty, hname]))).2
    rw [if_neg hnil, ← hpair, hlast]
    refine hsplit ?_
    -- the string ends as the name does
    have hne : segs ++ [[]] ≠ [] := List.append_ne_nil_of_right_ne_nil _ (List.cons_ne_nil _ _)
    have hend : joinPath (segs ++ [[], name]) = (joinPath (segs ++ [[]]) ++ [slash]) ++ name := by
      rw [show segs ++ [[], name] = segs ++ [[]] ++ [name] by simp,
        joinPath_append hne (List.cons_ne_nil _ _), show joinPath [name] = name from List.intercalate_singleton]
      simp
    rw [hend]
    exact getLast?_segment ⟨hnil, hname.1, hname.2⟩ _

/-! ## Looking up the file -/

variable {v : Vfs} {lo n c : NodePtr} {l : Vfs.Dirent}

/-- The path of the entry leads to `c`. -/
def Opens (v : Vfs) (directory name : CString) (c : NodePtr) : Prop :=
  Settles (fun fuel => rootFsFinddir v fuel v.rootNode (directory ++ slash :: name)) (.ok (some c))

/-- The entry is the first of its name in the directory `n`, its name is one segment, and the string does
not end with `/`. In a string that does, the segment between the two `/` is empty: it has to be the name
itself, or that of a directory with the same file. -/
def Openable (v : Vfs) (directory : CString) (n : NodePtr) (name : CString) (c : NodePtr) : Prop :=
  if directory.getLast? = some slash then
    name = [] ∧ v.Child n [] c ∨ IsSegment name ∧ ∃ m, v.Child n [] m ∧ v.Child m name c
  else IsSegment name ∧ v.Child n name c

/-- A path with at least two bytes is not `/`. -/
theorem ne_slash_of_ne_nil (h : directory ≠ []) (name : CString) : directory ++ slash :: name ≠ [slash] := by
  intro heq
  have hlength := congrArg List.length heq
  have hpos := List.length_pos_iff.mpr h
  simp only [List.length_append, List.length_cons, List.length_nil] at hlength
  omega

/-- A path of the root, by its last byte. -/
theorem Absolute.ends (hD : Absolute directory segs) :
    directory.getLast? = some slash ∧ directory = above segs ++ [slash]
      ∨ directory.getLast? ≠ some slash ∧ segs ≠ [] ∧ directory = above segs := by
  cases hD with
  | root => exact Or.inl ⟨rfl, rfl⟩
  | nested hne hsegs trailing =>
    have hlast := getLast?_nested hne hsegs trailing
    cases trailing with
    | true => exact Or.inl ⟨hlast.mpr rfl, by simp [spelled, above, hne]⟩
    | false =>
      refine Or.inr ⟨fun heq => absurd (hlast.mp heq) Bool.false_ne_true, hne, ?_⟩
      simp [spelled, above, hne]

/-- The walk along the segments of the directory string. -/
theorem Absolute.reaches (hD : Absolute directory segs) (hgrown : Grown v) (hm : Mounted lo v)
    (hfind : finddirFs v 2 v.rootNode directory = .ok (some n)) : v.Reaches v.rootNode segs n := by
  cases hD with
  | root =>
    have hroot : (v.node v.rootNode).flags &&& 7 = FS_DIRECTORY := hm.root.isDirectory
    rw [finddirFs, if_pos hroot, hm.root.finddir] at hfind
    simp only [rootFsFinddirWith, if_true] at hfind
    cases hfind
    exact Vfs.Reaches.nil _
  | nested hne hsegs trailing =>
    obtain ⟨r, hr, hreach⟩ := hgrown.lookup hm (spelled_ne_slash hne hsegs true trailing) 0
    cases hr.symm.trans hfind
    rw [← path_spelled hne hsegs true trailing]
    exact (hreach n).mp rfl

/-- What a path leads to has a name that is one segment, or the empty name. -/
theorem Opens.unsplit (hopens : Opens v directory name c) (hne : directory ≠ []) (hgrown : Grown v)
    (hm : Mounted lo v) : Unsplit (v.node c).name := by
  have hreach := (hgrown.opens_iff hm (ne_slash_of_ne_nil hne name)).mp hopens
  obtain ⟨init, s, hpath⟩ := (List.eq_nil_or_concat' (path (directory ++ slash :: name))).resolve_left
    (path_ne_nil _)
  have hmem : s ∈ path (directory ++ slash :: name) := by simp [hpath]
  rw [hpath] at hreach
  rw [hreach.name_eq]
  exact ⟨slash_not_mem_path _ s hmem, zero_not_mem_path _ s hmem⟩

/-- Where the walk from the root ends with the segments `rest`, the walk from the directory has only
them. -/
theorem reaches_behind {rest : List CString} (hn : v.Reaches v.rootNode segs n) :
    v.Reaches v.rootNode (segs ++ rest) c ↔ v.Reaches n rest c := by
  rw [reaches_append]
  refine ⟨?_, fun h => ⟨n, hn, h⟩⟩
  rintro ⟨k, hk, h⟩
  rw [hn.unique hk]
  exact h

/-- Behind a `/`, the path has an empty segment. -/
theorem Absolute.reaches_doubled (hD : Absolute directory segs) (hn : v.Reaches v.rootNode segs n)
    (hdirectory : directory = above segs ++ [slash]) (hunsplit : Unsplit name) :
    v.Reaches v.rootNode (path (directory ++ slash :: name)) c
      ↔ name = [] ∧ v.Child n [] c ∨ IsSegment name ∧ ∃ m, v.Child n [] m ∧ v.Child m name c := by
  have hpath : path (directory ++ slash :: name) = segs ++ if name = [] then [[]] else [[], name] := by
    rw [hdirectory, List.append_assoc]
    exact path_doubled hD.segments hunsplit
  rw [hpath, reaches_behind hn]
  by_cases hnil : name = []
  · rw [if_pos hnil, reaches_single]
    refine ⟨fun hchild => Or.inl ⟨hnil, hchild⟩, ?_⟩
    rintro (⟨_, hchild⟩ | ⟨hsegment, _⟩)
    · exact hchild
    · exact absurd hnil hsegment.ne_nil
  · rw [if_neg hnil, show [[], name] = [[]] ++ [name] from rfl, reaches_append]
    simp only [reaches_single]
    refine ⟨fun hwalk => Or.inr ⟨⟨hnil, hunsplit.1, hunsplit.2⟩, hwalk⟩, ?_⟩
    rintro (⟨hempty, _⟩ | ⟨_, hwalk⟩)
    · exact absurd hempty hnil
    · exact hwalk

/-- Elsewhere the name is one more segment; an empty one leads back to the directory. -/
theorem Absolute.reaches_child (hD : Absolute directory segs) (hn : v.Reaches v.rootNode segs n) (hne : segs ≠ [])
    (hdirectory : directory = above segs) (hunsplit : Unsplit name) (hnot : c ≠ n) :
    v.Reaches v.rootNode (path (directory ++ slash :: name)) c ↔ IsSegment name ∧ v.Child n name c := by
  by_cases hnil : name = []
  · have hsegment : ¬ IsSegment name := fun hs => hs.ne_nil hnil
    have hpath : path (directory ++ slash :: name) = segs := by
      rw [hdirectory, hnil, above, if_neg hne]
      exact path_spelled hne hD.segments true true
    rw [hpath]
    exact iff_of_false (fun hreach => hnot (hreach.unique hn)) fun hopen => hsegment hopen.1
  · have hsegment : IsSegment name := ⟨hnil, hunsplit.1, hunsplit.2⟩
    have hsegs : ∀ s ∈ segs ++ [name], IsSegment s := by
      simpa [or_imp, forall_and, hsegment] using hD.segments
    have hpath : path (directory ++ slash :: name) = segs ++ [name] := by
      have hspelled := spelled_concat segs name false
      rw [if_neg Bool.false_ne_true, List.append_nil, ← hdirectory] at hspelled
      rw [← hspelled]
      exact path_spelled (List.append_ne_nil_of_right_ne_nil _ (List.cons_ne_nil _ _)) hsegs true false
    rw [hpath, reaches_behind hn, reaches_single]
    exact (and_iff_right hsegment).symm

/-- **One file** in the list of a path of the root. -/
theorem Listing.opens_iff (h : Listing v directory l n c) (hD : Absolute directory segs) (hgrown : Grown v)
    (hm : Mounted lo v) (hfile : l.flags &&& FS_DIRECTORY = 0) :
    Opens v directory l.name c ↔ Openable v directory n l.name c := by
  have hn := hD.reaches hgrown hm h.resolves
  obtain ⟨hwithin, hget, hplaced⟩ := h.child hgrown hm
  have hdir := hgrown.isDirectory_of_child hm hwithin (List.mem_of_getElem? hget)
  have hnot : c ≠ n := by
    rintro rfl
    have hflags := (hgrown.shape c hplaced).isDirectory_iff.mp hdir
    rw [h.entry.2, hflags] at hfile
    exact absurd hfile (by decide)
  by_cases hunsplit : Unsplit l.name
  · unfold Opens Openable
    rw [hgrown.opens_iff hm (ne_slash_of_ne_nil hD.ne_nil l.name)]
    -- a directory with a `/` at its end gives a path with two
    rcases hD.ends with ⟨hlast, hdirectory⟩ | ⟨hlast, hne, hdirectory⟩
    · rw [if_pos hlast]
      exact hD.reaches_doubled hn hdirectory hunsplit
    · rw [if_neg hlast]
      exact hD.reaches_child hn hne hdirectory hunsplit hnot
  · refine iff_of_false ?_ ?_
    · intro hopens
      rw [h.entry.1] at hunsplit
      exact hunsplit (hopens.unsplit hD.ne_nil hgrown hm)
    · unfold Openable
      split
      · rintro (⟨hnil, _⟩ | ⟨hsegment, _⟩)
        · rw [hnil] at hunsplit
          exact hunsplit ⟨List.not_mem_nil, List.not_mem_nil⟩
        · exact hunsplit ⟨hsegment.slash_not_mem, hsegment.zero_not_mem⟩
      · rintro ⟨hsegment, _⟩
        exact hunsplit ⟨hsegment.slash_not_mem, hsegment.zero_not_mem⟩

end

/-! ## Runs -/

section

variable {v : Vfs} {g : Garbage} {fn fn' fn₀ : Navigator} {lo : NodePtr} {l : Vfs.Dirent} {i : Nat}

/-- Nothing but `..` is listed for the empty string, as no node of the root has an empty name. -/
theorem Shown.nil_entry (h : Shown v fn []) (hgrown : Grown v) (hm : Mounted lo v)
    (hl : listGet fn.files i = some l) : ∃ g, l = dotDotEntry g := by
  refine (h.entry_cases hl).resolve_right ?_
  rintro ⟨n, c, hlisting⟩
  obtain ⟨r, hr, hreach⟩ := hgrown.lookup hm (List.cons_ne_nil slash []).symm 0
  cases hr.symm.trans hlisting.resolves
  have hchild := reaches_single.mp ((hreach n).mp rfl)
  obtain ⟨_, _, _, hname, _⟩ := hchild.2
  have hmem := hchild.mem
  rw [hm.children_rootNode] at hmem
  exact (hm.root_mem n hmem).2.2.ne_nil hname

theorem goUp_nil (outside : Nat → UInt8) : (goUp [] outside).directory = [] := by
  rw [goUp, Up.ofScan_directory, List.take_nil]

/-- **One key**, where `..` left the empty string: it stays empty. -/
theorem Shown.nil_pressed {e : Press} (h : Shown v fn []) (hgrown : Grown v) (hm : Mounted lo v)
    (hpressed : Pressed v fn e fn') : Shown v fn' [] := by
  cases hpressed with
  | select => exact ⟨h.directory_eq, h.entries⟩
  | choose hkey hchosen =>
    cases hchosen with
    | view => exact ⟨h.directory_eq, h.entries⟩
    | down hentry _ _ hname =>
      obtain ⟨g, rfl⟩ := h.nil_entry hgrown hm hentry
      exact absurd rfl hname
    | up _ hdirectory _ _ hds =>
      cases h.directory_eq.symm.trans hdirectory
      rw [goUp_nil] at hds ⊢
      exact Shown.showing fn hds

/-- After any keys, a path of the root is listed, or the empty string. -/
theorem run_shown (hgrown : Grown v) (hm : Mounted lo v) (hfits : ListsFit v)
    (hcreate : Settles (fun fuel => fileNavigatorCreate v fuel g (some [slash])) (.ok fn₀))
    {tr : List (Transition Navigator Press)} (hrun : Run (KeyStep v) fn₀ tr fn) :
    fn.Inv ∧ (AtPath v fn ∨ Shown v fn []) := by
  refine hrun.invariant (I := fun fn => fn.Inv ∧ (AtPath v fn ∨ Shown v fn []))
    ⟨Inv.created hfits hcreate, Or.inl (created_atPath hfits hcreate)⟩ ?_
  rintro s e t ⟨hinv, hwhere⟩ hstep
  have hpressed := hinv.keyStep hfits hstep
  refine ⟨hinv.pressed hpressed, ?_⟩
  rcases hwhere with ⟨directory, segs, hshown, hD, hlt⟩ | hshown
  · obtain ⟨directory', hshown', hlt', hcases⟩ := hshown.pressed hgrown hm hD hlt hpressed
    rcases hcases with ⟨segs', hD'⟩ | ⟨_, _, rfl⟩
    · exact Or.inl ⟨directory', segs', hshown', hD', hlt'⟩
    · exact Or.inr hshown'
  · exact Or.inr (hshown.nil_pressed hgrown hm hpressed)

/-- **Files.** In every state that keys lead to from `/`, each file in the list stands for a node of the
directory. The choice of the file passes a path to `text_view` that leads to this node exactly if the
directory string does not end with `/` and the entry is the first one of its name, which is one segment,
or the segment that is empty in the path of a string that does leads to it. -/
theorem file_opens_iff {v₀ : Vfs} (h₀ : Unlisted v₀) {regs : List (Transition Vfs Registration)}
    (hregs : Run Registers (fsRoot v₀) regs v) (hfits : ListsFit v)
    (hcreate : Settles (fun fuel => fileNavigatorCreate v fuel g (some [slash])) (.ok fn₀))
    {tr : List (Transition Navigator Press)} (hrun : Run (KeyStep v) fn₀ tr fn)
    (hentry : listGet fn.files i = some l) (hfile : l.flags &&& FS_DIRECTORY = 0) :
    ∃ directory n c, fn.directory = some directory ∧ Listing v directory l n c
      ∧ (∀ g, directory.length + l.name.length + 2 < 4294967296 →
        Chooses v g { fn with selected := i }
          { fn with selected := i, viewed := fn.viewed ++ [directory ++ slash :: l.name] })
      ∧ (Opens v directory l.name c ↔ Openable v directory n l.name c) := by
  have hm := mounted_registers h₀ hregs
  have hgrown := grown_registers h₀ hregs
  have hnot : ∀ g, l ≠ dotDotEntry g := by
    rintro g rfl
    exact absurd hfile (show FS_DIRECTORY &&& FS_DIRECTORY ≠ 0 by decide)
  rcases (run_shown hgrown hm hfits hcreate hrun).2 with ⟨directory, segs, hshown, hD, hlt⟩ | hshown
  · rcases hshown.entry_cases hentry with ⟨g, heq⟩ | ⟨n, c, hlisting⟩
    · exact absurd heq (hnot g)
    · refine ⟨directory, n, c, hshown.directory_eq, hlisting, fun g hroom => ?_,
        hlisting.opens_iff hD hgrown hm hfile⟩
      have hchosen : listGet ({ fn with selected := i } : Navigator).files i = some l := hentry
      exact choose_view hchosen hshown.directory_eq hfile (filePath_eq hroom)
  · obtain ⟨g, heq⟩ := hshown.nil_entry hgrown hm hentry
    exact absurd heq (hnot g)

/-- `/dev/one`. -/
theorem file_opens_one : Opens (fsRoot bootVfs) [slash, 100, 101, 118] [111, 110, 101] 3 := by
  obtain ⟨directory, n, c, hdirectory, hlisting, _, hiff⟩ := file_opens_iff (i := 1)
    (l := ⟨[111, 110, 101], .index 3, 1, FS_FILE⟩) bootVfs_unlisted Run.nil listsFit_boot bootRoot_created
    bootDev_run rfl rfl
  cases Option.some.inj hdirectory
  cases hlisting.resolves
  cases hlisting.listed
  refine hiff.mpr ?_
  have hchild : (fsRoot bootVfs).Child 2 [111, 110, 101] 3 := ⟨rfl, [], [4, 5], rfl, rfl, List.forall_mem_nil _⟩
  unfold Openable
  rw [if_neg (by decide)]
  exact ⟨by decide, hchild⟩

/-- The bytes of an archive with the directory `d/`, the file `d/f` in it, and the empty file `g`. -/
def fileImage : Mem := fun x =>
  if 1660 ≤ x ∧ x < 1671 ∨ x = 1692 then 48 else if x = 1536 then 103 else smallImage x

/-- After `fs_root`, with this archive as the RAM disk. -/
def mountedVfs : Vfs :=
  match ramfs fileImage 65 0 2560 (fsRoot bootVfs) with
  | .ok v => v
  | .error _ => bootVfs

theorem mountedVfs_ramfs : ramfs fileImage 65 0 2560 (fsRoot bootVfs) = .ok mountedVfs := by
  have hok : (ramfs fileImage 65 0 2560 (fsRoot bootVfs)).isOk = true := by decide +kernel
  unfold mountedVfs
  cases hcall : ramfs fileImage 65 0 2560 (fsRoot bootVfs) with
  | error e =>
    rw [hcall] at hok
    cases hok
  | ok v => rfl

/-- The entries of the root: `dev` and `ram`. -/
def mountedEntries : List Vfs.Dirent :=
  [⟨[100, 101, 118], .index 2, 1, FS_DIRECTORY⟩, ⟨ramName, .index 6, 2, FS_DIRECTORY⟩]

/-- The entries of the RAM disk: `d` and `g`. -/
def ramEntries : List Vfs.Dirent := [⟨[100], .nodes [8], 1, FS_DIRECTORY⟩, ⟨[103], .index 2, 2, FS_FILE⟩]

theorem mountedEntries_listed :
    Enumerates (readdir mountedVfs 2 [slash]) (some (dotDotEntry (zeroed 0))) mountedEntries :=
  Enumerates.cons rfl (Enumerates.cons rfl (Enumerates.nil rfl))

theorem ramEntries_listed (trailing : Bool) :
    Enumerates (readdir mountedVfs 2 (spelled true trailing [ramName])) (some (dotDotEntry (zeroed 0)))
      ramEntries := by
  cases trailing with
  | false => exact Enumerates.cons rfl (Enumerates.cons rfl (Enumerates.nil rfl))
  | true => exact Enumerates.cons rfl (Enumerates.cons rfl (Enumerates.nil rfl))

/-- The root with the RAM disk, the RAM disk, and the directory `d`. -/
def mountedRoot : Navigator := empty.showing [slash] (zeroed 0) mountedEntries

def mountedRam : Navigator := mountedRoot.showing (spelled true false [ramName]) (zeroed 0) ramEntries

def mountedD : Navigator :=
  mountedRam.showing (above [ramName] ++ slash :: [100]) (zeroed 0) [⟨[102], .index 1, 1, FS_FILE⟩]

/-- From `/` into `ram`, and into `d`. -/
theorem mountedD_run : ∃ tr, Run (KeyStep mountedVfs) mountedRoot tr mountedD := by
  have hram : Absolute (spelled true false [ramName]) [ramName] :=
    Absolute.nested (List.cons_ne_nil _ _) (by decide) false
  have hd : Enumerates (readdir mountedVfs 2 (above [ramName] ++ slash :: [100]))
      (some (dotDotEntry (zeroed 0))) [⟨[102], .index 1, 1, FS_FILE⟩] :=
    Enumerates.cons rfl (Enumerates.nil rfl)
  have hdown : KeyStep mountedVfs mountedRoot ⟨keyDown, zeroed 0⟩ { mountedRoot with selected := 1 } :=
    ⟨0, fun _ _ => rfl⟩
  have hdown' : KeyStep mountedVfs { mountedRoot with selected := 1 } ⟨keyDown, zeroed 0⟩
      { mountedRoot with selected := 2 } := ⟨0, fun _ _ => rfl⟩
  have hchoose : KeyStep mountedVfs { mountedRoot with selected := 2 } ⟨10, zeroed 0⟩ mountedRam :=
    chooses_child (l := ⟨ramName, .index 6, 2, FS_DIRECTORY⟩) Absolute.root rfl rfl (by decide)
      (by decide) (by decide) (ramEntries_listed false) (by decide)
  have hselect : KeyStep mountedVfs mountedRam ⟨keyDown, zeroed 0⟩ { mountedRam with selected := 1 } :=
    ⟨0, fun _ _ => rfl⟩
  have hchoose' : KeyStep mountedVfs { mountedRam with selected := 1 } ⟨10, zeroed 0⟩ mountedD :=
    chooses_child (l := ⟨[100], .nodes [8], 1, FS_DIRECTORY⟩) hram rfl rfl (by decide) (by decide)
      (by decide) hd (by decide)
  exact ⟨_, ((((Run.nil.snoc hdown).snoc hdown').snoc hchoose).snoc hselect).snoc hchoose'⟩

/-- From `/` into `ram`, into `d`, and back by `..`: the string is `/ram/`, and `/ram//g` leads nowhere. -/
theorem file_lost :
    Run Registers (fsRoot bootVfs) [⟨fsRoot bootVfs, .ramfs fileImage 65 0 2560, mountedVfs⟩] mountedVfs
    ∧ Settles (fun fuel => fileNavigatorCreate mountedVfs fuel (zeroed 0) (some [slash])) (.ok mountedRoot)
    ∧ ∃ tr fn l, Run (KeyStep mountedVfs) mountedRoot tr fn
      ∧ fn.directory = some (spelled true true [ramName])
      ∧ listGet fn.files 2 = some l ∧ l.flags &&& FS_DIRECTORY = 0
      ∧ Listing mountedVfs (spelled true true [ramName]) l 6 9
      ∧ ¬ Opens mountedVfs (spelled true true [ramName]) l.name 9 := by
  have hregs := Run.nil.snoc (Registers.ramfs mountedVfs_ramfs)
  have hcreate : Settles (fun fuel => fileNavigatorCreate mountedVfs fuel (zeroed 0) (some [slash]))
      (.ok mountedRoot) := set_of_enumerates (Or.inr ⟨rfl, rfl, rfl⟩) mountedEntries_listed (by decide)
  obtain ⟨tr, hrun⟩ := mountedD_run
  have hd : Absolute (above [ramName] ++ slash :: [100]) ([ramName] ++ [[100]]) :=
    child_absolute (by decide) (by unfold Unsplit; decide)
  have hentry : listGet mountedD.files mountedD.selected = some (dotDotEntry (zeroed 0)) := rfl
  have hup : KeyStep mountedVfs mountedD ⟨10, zeroed 0⟩ _ :=
    chooses_parent hd (by decide) rfl hentry (ramEntries_listed true) (by decide)
  have hlisting : Listing mountedVfs (spelled true true [ramName]) ⟨[103], .index 2, 2, FS_FILE⟩ 6 9 :=
    ⟨rfl, rfl, rfl, rfl⟩
  refine ⟨hregs, hcreate, _, _, _, hrun.snoc hup, rfl, rfl, rfl, hlisting, ?_⟩
  have hnone : Settles (fun fuel => rootFsFinddir mountedVfs fuel mountedVfs.rootNode
      (spelled true true [ramName] ++ slash :: [103])) (.ok none) := by
    refine ⟨1, fun fuel hfuel => ?_⟩
    obtain ⟨fuel, rfl⟩ := Nat.exists_eq_succ_of_ne_zero (Nat.ne_of_gt hfuel)
    rfl
  intro hopens
  cases hopens.unique hnone

end

end Navigator

end DiyOS
