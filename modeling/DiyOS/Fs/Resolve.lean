import DiyOS.Fs.Vfs

/-!
# Path resolution

What a lookup should find: from the root, in each directory, the first child with the segment's name.

* **`Vfs.Reaches`** — that walk, as a relation.
* **`Vfs.Tree`** — the trees for which the lookup is specified.
* **`finddirFs_tree`** — in such a tree `finddir_fs` is one step of the walk.
* **`rootFsFinddir_resolves`** — `root_fs_finddir` finds what the walk reaches, for each of the four
  spellings of a path, and nothing exactly where the walk stops.
-/

namespace DiyOS

open CString

/-! ## The walk -/

/-- The first node of the list with the name. -/
def IsFirstNamed (v : Vfs) (l : List NodePtr) (name : CString) (n : NodePtr) : Prop :=
  ∃ before after, l = before ++ n :: after ∧ (v.node n).name = name
    ∧ ∀ d ∈ before, (v.node d).name ≠ name

namespace Vfs

variable (v : Vfs)

def IsDirectory (n : NodePtr) : Prop := (v.node n).flags &&& 7 = FS_DIRECTORY

/-- The nodes listed in a directory, whichever file system it belongs to. -/
def children (n : NodePtr) : List NodePtr :=
  match (v.node n).finddir with
  | .null => []
  | .rootFsFinddir => v.rootNodes
  | .devfsFinddir => v.devNodes
  | .ramfsFinddir => (v.node n).inode.list

/-- One step: `c` is the first child of the directory `n` with that name. -/
def Child (n : NodePtr) (name : CString) (c : NodePtr) : Prop :=
  v.IsDirectory n ∧ IsFirstNamed v (v.children n) name c

/-- `m` is reached from `n` by one step for each segment. -/
inductive Reaches : NodePtr → List CString → NodePtr → Prop where
  | nil (n : NodePtr) : Reaches n [] n
  | cons {n c m : NodePtr} {s : CString} {segs : List CString} (hstep : v.Child n s c)
      (hrest : Reaches c segs m) : Reaches n (s :: segs) m

/-- No step: `n` is not a directory, or no child has that name. -/
def Stops (n : NodePtr) (name : CString) : Prop :=
  ¬ v.IsDirectory n ∨ ∀ c ∈ v.children n, (v.node c).name ≠ name

/-- The nodes below the root. -/
inductive Registered : NodePtr → Prop where
  | top {n : NodePtr} (h : n ∈ v.rootNodes) : Registered n
  | child {n c : NodePtr} (hn : Registered n) (hc : c ∈ v.children n) : Registered c

/-- A node below the root: the `/dev` directory, a directory of the RAM disk, or a file without
`finddir`. -/
inductive Kind (n : NodePtr) : Prop where
  | dev (hnode : n = v.devfsRootNode) (hdir : v.IsDirectory n)
      (hfinddir : (v.node n).finddir = .devfsFinddir)
  | ramfs (hdir : v.IsDirectory n) (hfinddir : (v.node n).finddir = .ramfsFinddir)
  | file (hfile : ¬ v.IsDirectory n) (hfinddir : (v.node n).finddir = .null)

/-- The root is a directory with the root's callback, and every node below it is of one of the three
kinds. -/
structure Tree : Prop where
  root_dir : v.IsDirectory v.rootNode
  root_finddir : (v.node v.rootNode).finddir = .rootFsFinddir
  kind : ∀ n, v.Registered n → v.Kind n

end Vfs

/-! ## The fuel of a lookup

`root_fs_finddir` calls `finddir_fs`, which can call it again. A lookup that ends, ends in the same way with more
fuel; and names without a `/` never come back to the root. -/

section

variable {v : Vfs} {f g : NodePtr → CString → Except Halt (Option NodePtr)}

/-- A lookup along a path, with callbacks that know more. -/
theorem findSegments_mono (hfg : ∀ n s r, f n s = .ok r → g n s = .ok r) {n : NodePtr}
    {segs : List CString} {r : Option NodePtr} (h : findSegments f n segs = .ok r) :
    findSegments g n segs = .ok r := by
  induction segs generalizing n with
  | nil => exact h
  | cons s segs ih =>
    rw [findSegments] at h ⊢
    cases hstep : f n s with
    | error e =>
      rw [hstep] at h
      cases h
    | ok c =>
      rw [hstep] at h
      rw [hfg n s c hstep]
      cases c with
      | none => exact h
      | some c => exact ih h

/-- The same from the root. -/
theorem rootFsFinddirWith_mono (hfg : ∀ n s r, f n s = .ok r → g n s = .ok r) {n : NodePtr} {name : CString}
    {r : Option NodePtr} (h : rootFsFinddirWith v f n name = .ok r) :
    rootFsFinddirWith v g n name = .ok r := by
  unfold rootFsFinddirWith at h ⊢
  split
  case isTrue hname => rwa [if_pos hname] at h
  case isFalse hname =>
    rw [if_neg hname] at h
    split
    case isFalse hroot => rwa [if_neg hroot] at h
    case isTrue hroot =>
      rw [if_pos hroot] at h
      cases hpath : path name with
      | nil => rwa [hpath] at h
      | cons s segs =>
        rw [hpath] at h
        simp only at h ⊢
        cases hfirst : listForeach v.rootNodes (findName v s) with
        | none => rwa [hfirst] at h
        | some entry =>
          rw [hfirst] at h
          exact findSegments_mono hfg h

/-- More fuel changes no answer. -/
theorem finddirFs_succ {fuel : Nat} {n : NodePtr} {name : CString} {r : Option NodePtr}
    (h : finddirFs v fuel n name = .ok r) : finddirFs v (fuel + 1) n name = .ok r := by
  induction fuel generalizing n name r with
  | zero => cases h
  | succ fuel ih =>
    rw [finddirFs] at h ⊢
    split
    case isFalse hdir => rwa [if_neg hdir] at h
    case isTrue hdir =>
      rw [if_pos hdir] at h
      cases hfinddir : (v.node n).finddir with
      | rootFsFinddir =>
        rw [hfinddir] at h
        exact rootFsFinddirWith_mono (fun n s r => ih) h
      | null | devfsFinddir | ramfsFinddir => rwa [hfinddir] at h

theorem finddirFs_mono {fuel fuel' : Nat} {n : NodePtr} {name : CString} {r : Option NodePtr}
    (h : finddirFs v fuel n name = .ok r) (hle : fuel ≤ fuel') : finddirFs v fuel' n name = .ok r := by
  induction hle with
  | refl => exact h
  | step _ ih => exact finddirFs_succ ih

/-- A lookup in a node below needs one call of `finddir_fs`. -/
theorem finddirFs_returns (v : Vfs) (fuel : Nat) (n : NodePtr) {name : CString} (hname : slash ∉ name) :
    ∃ r, finddirFs v (fuel + 1) n name = .ok r := by
  rw [finddirFs]
  split
  case isFalse => exact ⟨none, rfl⟩
  case isTrue =>
    cases (v.node n).finddir with
    | null => exact ⟨none, rfl⟩
    | devfsFinddir => exact ⟨_, rfl⟩
    | ramfsFinddir => exact ⟨_, rfl⟩
    | rootFsFinddir =>
      obtain ⟨seg, hpath⟩ := path_slash_not_mem hname
      have hne : name ≠ [slash] := fun heq => hname (by rw [heq]; simp)
      simp only [rootFsFinddirWith, if_neg hne]
      split
      case isFalse => exact ⟨none, rfl⟩
      case isTrue =>
        rw [hpath]
        simp only
        cases listForeach v.rootNodes (findName v seg) <;> exact ⟨_, rfl⟩

theorem findSegments_returns (v : Vfs) (fuel : Nat) (n : NodePtr) {segs : List CString}
    (hsegs : ∀ s ∈ segs, slash ∉ s) : ∃ r, findSegments (finddirFs v (fuel + 1)) n segs = .ok r := by
  induction segs generalizing n with
  | nil => exact ⟨_, rfl⟩
  | cons s segs ih =>
    rw [List.forall_mem_cons] at hsegs
    obtain ⟨r, hstep⟩ := finddirFs_returns v fuel n hsegs.1
    rw [findSegments, hstep]
    cases r with
    | none => exact ⟨none, rfl⟩
    | some c => exact ih c hsegs.2

/-- Two calls of `finddir_fs` in each other are enough for every path. -/
theorem finddirFs_path_returns (v : Vfs) (fuel : Nat) (n : NodePtr) (name : CString) :
    ∃ r, finddirFs v (fuel + 2) n name = .ok r := by
  rw [finddirFs]
  split
  case isFalse => exact ⟨none, rfl⟩
  case isTrue =>
    cases (v.node n).finddir with
    | null => exact ⟨none, rfl⟩
    | devfsFinddir => exact ⟨_, rfl⟩
    | ramfsFinddir => exact ⟨_, rfl⟩
    | rootFsFinddir =>
      simp only [rootFsFinddirWith]
      split
      case isTrue => exact ⟨_, rfl⟩
      case isFalse =>
        split
        case isFalse => exact ⟨none, rfl⟩
        case isTrue =>
          have hsegs := slash_not_mem_path name
          cases hpath : path name with
          | nil => exact ⟨none, rfl⟩
          | cons s segs =>
            rw [hpath, List.forall_mem_cons] at hsegs
            simp only
            cases listForeach v.rootNodes (findName v s) with
            | none => exact ⟨none, rfl⟩
            | some entry => exact findSegments_returns v fuel entry hsegs.2

end

/-! ## One step

A directory and a name: there is a child, there is none, or the search stops. Exactly one of these holds, and the
code tells them apart. -/

variable {v : Vfs}

theorem not_findName (name : CString) (n : NodePtr) :
    (!findName v name n) = decide ((v.node n).name = name) := by
  unfold findName
  by_cases hname : (v.node n).name = name
  · rw [if_pos hname, decide_eq_true hname]
    rfl
  · rw [if_neg hname, decide_eq_false hname]
    rfl

theorem listForeach_findName_some {l : List NodePtr} {name : CString} {n : NodePtr} :
    listForeach l (findName v name) = some n ↔ IsFirstNamed v l name n := by
  rw [listForeach_eq_find, List.find?_eq_some_iff_append]
  simp only [not_findName, decide_eq_true_eq, Bool.not_eq_true', decide_eq_false_iff_not]
  refine ⟨?_, ?_⟩
  · rintro ⟨hname, before, after, hsplit, hbefore⟩
    exact ⟨before, after, hsplit, hname, hbefore⟩
  · rintro ⟨before, after, hsplit, hname, hbefore⟩
    exact ⟨hname, before, after, hsplit, hbefore⟩

theorem listForeach_findName_none {l : List NodePtr} {name : CString} :
    listForeach l (findName v name) = none ↔ ∀ n ∈ l, (v.node n).name ≠ name := by
  rw [listForeach_eq_find, List.find?_eq_none]
  simp only [not_findName, decide_eq_true_eq]

theorem Vfs.Child.unique {n c c' : NodePtr} {name : CString} (h : v.Child n name c)
    (h' : v.Child n name c') : c = c' := by
  have hfind := listForeach_findName_some.mpr h.2
  have hfind' := listForeach_findName_some.mpr h'.2
  exact Option.some.inj (hfind.symm.trans hfind')

/-- A child of a directory stands in its list. -/
theorem Vfs.Child.mem {n c : NodePtr} {name : CString} (h : v.Child n name c) : c ∈ v.children n := by
  rcases h with ⟨_, before, after, hsplit, _⟩
  rw [hsplit]
  simp

theorem Vfs.Stops.not_child {n c : NodePtr} {name : CString} (h : v.Stops n name) :
    ¬ v.Child n name c := by
  intro hchild
  rcases h with hdir | hnone
  · exact hdir hchild.1
  · rcases hchild.2 with ⟨before, after, _, hname, _⟩
    exact hnone c hchild.mem hname

/-- A callback's answer for one name: the first child, or nothing where the walk stops. -/
theorem child_or_stops {n : NodePtr} (hdir : v.IsDirectory n) (name : CString) :
    (∃ c, listForeach (v.children n) (findName v name) = some c ∧ v.Child n name c)
      ∨ listForeach (v.children n) (findName v name) = none ∧ v.Stops n name := by
  cases hfind : listForeach (v.children n) (findName v name) with
  | none => exact Or.inr ⟨rfl, Or.inr (listForeach_findName_none.mp hfind)⟩
  | some c => exact Or.inl ⟨c, rfl, hdir, listForeach_findName_some.mp hfind⟩

/-- The test of `ramfs_finddir` holds of every directory. -/
theorem isDirectory_flag {n : NodePtr} (h : v.IsDirectory n) :
    (v.node n).flags &&& FS_DIRECTORY ≠ 0 := by
  have hand : (v.node n).flags &&& 7 &&& 2 = (v.node n).flags &&& 2 := Nat.and_assoc _ _ _
  rw [show (v.node n).flags &&& 7 = 2 from h] at hand
  rw [FS_DIRECTORY, ← hand]
  decide

/-- **`finddir_fs` takes one step of the walk**, at each kind of node below the root. -/
theorem finddirFs_kind {n : NodePtr} (h : v.Kind n) (fuel : Nat) (name : CString) :
    (∃ c, finddirFs v (fuel + 1) n name = .ok (some c) ∧ v.Child n name c)
      ∨ finddirFs v (fuel + 1) n name = .ok none ∧ v.Stops n name := by
  unfold finddirFs
  cases h with
  | dev hnode hdir hfinddir =>
    have hlist : v.children n = v.devNodes := by
      unfold Vfs.children
      rw [hfinddir]
    have hstep := child_or_stops hdir name
    rw [hlist] at hstep
    rw [if_pos (show (v.node n).flags &&& 7 = FS_DIRECTORY from hdir), hfinddir]
    simp only [devfsFinddir, if_pos hnode, Except.ok.injEq]
    exact hstep
  | ramfs hdir hfinddir =>
    have hlist : v.children n = (v.node n).inode.list := by
      unfold Vfs.children
      rw [hfinddir]
    have hstep := child_or_stops hdir name
    rw [hlist] at hstep
    rw [if_pos (show (v.node n).flags &&& 7 = FS_DIRECTORY from hdir), hfinddir]
    simp only [ramfsFinddir, if_pos (isDirectory_flag hdir), Except.ok.injEq]
    exact hstep
  | file hfile hfinddir =>
    rw [if_neg (show ¬ (v.node n).flags &&& 7 = FS_DIRECTORY from hfile)]
    exact Or.inr ⟨rfl, Or.inl hfile⟩

/-! ## All segments

`Finds` is what a lookup should answer; the loop over the segments is an induction on the path. -/

/-- The walk from `n` stops on the way. -/
def Vfs.Fails (v : Vfs) (n : NodePtr) (segs : List CString) : Prop :=
  ∃ before s after m, segs = before ++ s :: after ∧ v.Reaches n before m ∧ v.Stops m s

/-- `r` is what the walk from `n` finds. -/
structure Finds (v : Vfs) (n : NodePtr) (segs : List CString) (r : Option NodePtr) : Prop where
  some_iff : ∀ m, r = some m ↔ v.Reaches n segs m
  none_iff : r = none ↔ v.Fails n segs

theorem finds_nil (n : NodePtr) : Finds v n [] (some n) where
  some_iff m := by
    refine ⟨?_, ?_⟩
    · intro heq
      rw [← Option.some.inj heq]
      exact Vfs.Reaches.nil n
    · intro hreach
      cases hreach
      rfl
  none_iff := by
    refine iff_of_false (Option.some_ne_none n) ?_
    rintro ⟨before, s, after, _, hsplit, _⟩
    simp at hsplit

/-- A step, then the rest of the walk. -/
theorem Finds.cons {n c : NodePtr} {s : CString} {segs : List CString} {r : Option NodePtr}
    (hstep : v.Child n s c) (h : Finds v c segs r) : Finds v n (s :: segs) r where
  some_iff m := by
    rw [h.some_iff m]
    refine ⟨fun hreach => Vfs.Reaches.cons hstep hreach, ?_⟩
    intro hreach
    cases hreach with
    | cons hstep' hrest =>
      rw [hstep.unique hstep']
      exact hrest
  none_iff := by
    rw [h.none_iff]
    refine ⟨?_, ?_⟩
    · rintro ⟨before, t, after, m, hsplit, hreach, hstop⟩
      refine ⟨s :: before, t, after, m, ?_, Vfs.Reaches.cons hstep hreach, hstop⟩
      rw [hsplit, List.cons_append]
    · rintro ⟨before, t, after, m, hsplit, hreach, hstop⟩
      cases hreach with
      | nil =>
        -- the walk cannot stop at `n`, where it has a child to go to
        rcases List.cons.inj hsplit with ⟨rfl, _⟩
        exact absurd hstep hstop.not_child
      | cons hstep' hrest =>
        rcases List.cons.inj hsplit with ⟨rfl, hsplit'⟩
        rw [hstep.unique hstep']
        exact ⟨_, t, after, m, hsplit', hrest, hstop⟩

/-- The walk that stops at once. -/
theorem finds_none {n : NodePtr} {s : CString} (hstop : v.Stops n s) (segs : List CString) :
    Finds v n (s :: segs) none where
  some_iff m := by
    refine iff_of_false (Option.some_ne_none m).symm ?_
    intro hreach
    cases hreach with
    | cons hstep _ => exact hstop.not_child hstep
  none_iff := iff_of_true rfl ⟨[], s, segs, n, rfl, Vfs.Reaches.nil n, hstop⟩

/-- The loop over the segments follows the walk, among nodes that `K` describes: each is of one of
the three kinds, and so are its children. -/
theorem findSegments_finds {K : NodePtr → Prop} (hkind : ∀ n, K n → v.Kind n)
    (hchild : ∀ n c, K n → c ∈ v.children n → K c) (fuel : Nat) {n : NodePtr} (hn : K n)
    (segs : List CString) :
    ∃ r, findSegments (finddirFs v (fuel + 1)) n segs = .ok r ∧ Finds v n segs r := by
  induction segs generalizing n with
  | nil => exact ⟨_, rfl, finds_nil n⟩
  | cons s segs ih =>
    unfold findSegments
    rcases finddirFs_kind (hkind n hn) fuel s with ⟨c, hfind, hstep⟩ | ⟨hfind, hstop⟩
    · rcases ih (hchild n c hn hstep.mem) with ⟨r, hrest, hfinds⟩
      rw [hfind]
      exact ⟨r, hrest, hfinds.cons hstep⟩
    · rw [hfind]
      exact ⟨none, rfl, finds_none hstop segs⟩

/-- A lookup from the root: its first segment in the list of registered nodes, then the loop. -/
theorem rootFsFinddir_cons (v : Vfs) (fuel : Nat) {s : CString} {segs : List CString}
    (hsegs : ∀ t ∈ s :: segs, IsSegment t) (leading trailing : Bool) :
    rootFsFinddir v fuel v.rootNode (spelled leading trailing (s :: segs))
      = match listForeach v.rootNodes (findName v s) with
        | none => .ok none
        | some entry => findSegments (finddirFs v fuel) entry segs := by
  have hne : s :: segs ≠ [] := List.cons_ne_nil s segs
  have hpath := path_spelled hne hsegs leading trailing
  unfold rootFsFinddir rootFsFinddirWith
  rw [if_neg (spelled_ne_slash hne hsegs leading trailing), if_pos rfl]
  generalize path (spelled leading trailing (s :: segs)) = p at hpath ⊢
  subst hpath
  rfl

/-- **Path resolution.** In every tree whose nodes below the root are the `/dev` directory,
directories of the RAM disk and files without `finddir`, and for all segments, joined by `/` with or
without a leading or a trailing `/`: `root_fs_finddir` returns, namely the node that is reached by
taking in each directory the first child with the segment's name, and null exactly if at some segment
there is no such child or the node is not a directory. -/
theorem rootFsFinddir_resolves (hv : v.Tree) {segs : List CString} (hne : segs ≠ [])
    (hsegs : ∀ s ∈ segs, IsSegment s) (leading trailing : Bool) (fuel : Nat) :
    ∃ r, rootFsFinddir v (fuel + 1) v.rootNode (spelled leading trailing segs) = .ok r
      ∧ (∀ m, r = some m ↔ v.Reaches v.rootNode segs m)
      ∧ (r = none ↔ ∃ before s after m, segs = before ++ s :: after
        ∧ v.Reaches v.rootNode before m
        ∧ (¬ v.IsDirectory m ∨ ∀ c ∈ v.children m, (v.node c).name ≠ s)) := by
  have hfinds : ∃ r, rootFsFinddir v (fuel + 1) v.rootNode (spelled leading trailing segs) = .ok r
      ∧ Finds v v.rootNode segs r := by
    have hlist : v.children v.rootNode = v.rootNodes := by
      unfold Vfs.children
      rw [hv.root_finddir]
    rcases List.exists_cons_of_ne_nil hne with ⟨s, segs, rfl⟩
    rw [rootFsFinddir_cons v _ hsegs]
    -- the first segment is looked up in `root_nodes`, the others by `finddir_fs`
    rcases child_or_stops hv.root_dir s with ⟨c, hfind, hstep⟩ | ⟨hfind, hstop⟩
    · rw [hlist] at hfind
      have hc : v.Registered c := Vfs.Registered.top (by rw [← hlist]; exact hstep.mem)
      obtain ⟨r, hrest, hfinds⟩ := findSegments_finds hv.kind
        (fun _ _ hn hmem => Vfs.Registered.child hn hmem) fuel hc segs
      rw [hfind]
      exact ⟨r, hrest, hfinds.cons hstep⟩
    · rw [hlist] at hfind
      rw [hfind]
      exact ⟨none, rfl, finds_none hstop segs⟩
  rcases hfinds with ⟨r, hcall, hfinds⟩
  exact ⟨r, hcall, hfinds.some_iff, hfinds.none_iff⟩

/-- `dev/zero/` after `fs_root`. -/
theorem rootFsFinddir_resolves_zero :
    ∃ r, rootFsFinddir (fsRoot bootVfs) 1 1
        (spelled false true [[100, 101, 118], [122, 101, 114, 111]]) = .ok r
      ∧ ∀ m, r = some m
        ↔ (fsRoot bootVfs).Reaches 1 [[100, 101, 118], [122, 101, 114, 111]] m := by
  have hdevices : ∀ n ∈ [3, 4, 5], ¬ (fsRoot bootVfs).IsDirectory n
      ∧ ((fsRoot bootVfs).node n).finddir = .null := by
    unfold Vfs.IsDirectory
    decide
  -- `/dev` and the three devices in it
  have hbelow : ∀ n, (fsRoot bootVfs).Registered n → n = 2 ∨ n ∈ [3, 4, 5] := by
    intro n hn
    induction hn with
    | top h => exact Or.inl (List.mem_singleton.mp h)
    | @child n c hn hc ih =>
      rcases ih with rfl | hin
      · exact Or.inr hc
      · unfold Vfs.children at hc
        rw [(hdevices n hin).2] at hc
        cases hc
  have htree : (fsRoot bootVfs).Tree := by
    refine ⟨rfl, rfl, ?_⟩
    intro n hn
    rcases hbelow n hn with rfl | hin
    · exact Vfs.Kind.dev rfl rfl rfl
    · exact Vfs.Kind.file (hdevices n hin).1 (hdevices n hin).2
  obtain ⟨r, hcall, hfinds, _⟩ := rootFsFinddir_resolves htree
    (show [[100, 101, 118], [122, 101, 114, 111]] ≠ [] by decide) (by decide) false true 0
  exact ⟨r, hcall, hfinds⟩

end DiyOS
