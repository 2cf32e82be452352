import DiyOS.Fs.Readdir

/-!
# The nodes below the root

`fs_root`, `devfs_register` and `ramfs` allocate every node behind the root, so that the lists below the
root hold such nodes only.

* **`Grown`** — each of these nodes is a file, `/dev`, or a directory of the RAM disk, and no directory's
  name has a `/`.
* **`grown_registers`** — any registrations keep that.
* **`resolved`** — a path leads to the root or to one of these nodes.
-/

namespace DiyOS

open CString

/-- `n` was allocated after the root. -/
def Vfs.Placed (v : Vfs) (n : NodePtr) : Prop := v.rootNode < n ∧ n < v.nextNode

/-- A name without `/` and NUL; it may be empty. -/
def Unsplit (name : CString) : Prop := slash ∉ name ∧ 0 ∉ name

/-- What the node `n` with the record `r` is. -/
inductive Shape (dev : NodePtr) (placed : NodePtr → Prop) (n : NodePtr) (r : FsNode) : Prop where
  | file (hflags : r.flags = FS_FILE) (hfinddir : r.finddir = .null)
  | dev (hflags : r.flags = FS_DIRECTORY) (hfinddir : r.finddir = .devfsFinddir) (hname : Unsplit r.name)
      (hn : n = dev)
  | ramfs (hflags : r.flags = FS_DIRECTORY) (hfinddir : r.finddir = .ramfsFinddir) (hname : Unsplit r.name)
      (hlist : ∀ c ∈ r.inode.list, placed c)

structure Grown (v : Vfs) : Prop where
  root_lt : v.rootNode < v.nextNode
  shape : ∀ n, v.Placed n → Shape v.devfsRootNode v.Placed n (v.node n)
  root_below : ∀ n ∈ v.rootNodes, v.Placed n
  dev_below : ∀ n ∈ v.devNodes, v.Placed n
  dev_mem : v.devfsRootNode ∈ v.rootNodes
  dev_ne : v.devNodes ≠ []

section

variable {v v' : Vfs} {n d : NodePtr}

theorem Shape.mono {dev : NodePtr} {placed placed' : NodePtr → Prop} {r : FsNode}
    (h : Shape dev placed n r) (hmono : ∀ c, placed c → placed' c) : Shape dev placed' n r := by
  cases h with
  | file hflags hfinddir => exact Shape.file hflags hfinddir
  | dev hflags hfinddir hname hn => exact Shape.dev hflags hfinddir hname hn
  | ramfs hflags hfinddir hname hlist =>
    exact Shape.ramfs hflags hfinddir hname fun c hc => hmono c (hlist c hc)

/-! ## What registering nodes keeps

`devfs` and `ramfs` allocate every node at the next address, and the root is the first. A node below the root is
therefore never the root, and a path that begins there does not come back. -/

/-- A new node of one of the three shapes. -/
theorem Grown.mallocNode (h : Grown v) {rec : FsNode}
    (hrec : Shape v.devfsRootNode v.Placed v.nextNode rec) : Grown (v.mallocNode rec) := by
  have hmono : ∀ c, v.Placed c → (v.mallocNode rec).Placed c :=
    fun c hc => ⟨hc.1, Nat.lt_succ_of_lt hc.2⟩
  refine ⟨Nat.lt_succ_of_lt h.root_lt, ?_, ?_, ?_, h.dev_mem, h.dev_ne⟩
  · rintro n ⟨hroot, hlt⟩
    rcases Nat.lt_succ_iff_lt_or_eq.mp hlt with hold | rfl
    · rw [Vfs.mallocNode_node_of_lt v rec hold]
      exact (h.shape n ⟨hroot, hold⟩).mono hmono
    · rw [Vfs.mallocNode_node_self]
      exact hrec.mono hmono
  · exact fun n hn => hmono n (h.root_below n hn)
  · exact fun n hn => hmono n (h.dev_below n hn)

/-- The new node lies behind the root. -/
theorem Grown.placed_new (h : Grown v) (rec : FsNode) : (v.mallocNode rec).Placed v.nextNode :=
  ⟨h.root_lt, Nat.lt_succ_self _⟩

/-- A node is added to a directory of the RAM disk. -/
theorem Grown.addChild (h : Grown v) (hn : v.Placed n) (hadd : addChild d n v = .ok v') : Grown v' := by
  obtain ⟨l, hl, rfl⟩ := addChild_ok hadd
  refine ⟨h.root_lt, ?_, h.root_below, h.dev_below, h.dev_mem, h.dev_ne⟩
  intro m hm
  by_cases hmd : m = d
  · rw [hmd, Vfs.setNode_node_self]
    rw [hmd] at hm
    cases h.shape d hm with
    | file hflags hfinddir => exact Shape.file hflags hfinddir
    | dev hflags hfinddir hname hn => exact Shape.dev hflags hfinddir hname hn
    | ramfs hflags hfinddir hname hlist =>
      refine Shape.ramfs hflags hfinddir hname fun c hc => ?_
      -- an `inode` of 0 is the empty list
      have hold : (v.node d).inode.list = l := by
        cases hinode : (v.node d).inode with
        | index i =>
          rw [hinode, Inode.asList] at hl
          split at hl
          · cases hl
            rfl
          · cases hl
        | nodes l' =>
          rw [hinode] at hl
          cases hl
          rfl
      rcases List.mem_append.mp (show c ∈ l ++ [n] from hc) with hin | hlast
      · exact hlist c (by rw [hold]; exact hin)
      · rw [List.mem_singleton.mp hlast]
        exact hn
  · rw [Vfs.setNode_node_of_ne _ _ hmd]
    exact h.shape m hm

theorem Grown.fsRegister (h : Grown v) (hn : v.Placed n) : Grown (fsRegister n v) := by
  refine ⟨h.root_lt, h.shape, ?_, h.dev_below, List.mem_append_left _ h.dev_mem, h.dev_ne⟩
  intro m hm
  rcases List.mem_append.mp hm with hold | hnew
  · exact h.root_below m hold
  · rw [List.mem_singleton.mp hnew]
    exact hn

theorem Grown.devfsRegister (h : Grown v) (hn : v.Placed n) : Grown (devfsRegister n v) := by
  refine ⟨h.root_lt, h.shape, h.root_below, ?_, h.dev_mem, List.append_ne_nil_of_left_ne_nil h.dev_ne _⟩
  intro m hm
  rcases List.mem_append.mp hm with hold | hnew
  · exact h.dev_below m hold
  · rw [List.mem_singleton.mp hnew]
    exact hn

/-- What `ramfs` writes keeps all this. -/
theorem grown_builds (root n : NodePtr) :
    RamfsBuilds (root + 1) Unsplit (fun n next => root < n ∧ n < next)
      fun v => v.rootNode = root ∧ n < v.nextNode ∧ Grown v where
  new next hle := ⟨hle, Nat.lt_succ_self next⟩
  mono _ _ _ h hle := ⟨h.1, Nat.lt_of_lt_of_le h.2 hle⟩
  dir _ _ hname _ h :=
    ⟨h.1, Nat.lt_succ_of_lt h.2.1, h.2.2.mallocNode (Shape.ramfs rfl rfl hname nofun)⟩
  file _ _ _ _ _ h := ⟨h.1, Nat.lt_succ_of_lt h.2.1, h.2.2.mallocNode (Shape.file rfl rfl)⟩
  child v v' d c hc hadd h := by
    have hplaced : v.Placed c := by
      unfold Vfs.Placed
      rw [h.1]
      exact hc
    have hgrown := h.2.2.addChild hplaced hadd
    obtain ⟨l, _, rfl⟩ := addChild_ok hadd
    exact ⟨h.1, h.2.1, hgrown⟩

/-- A RAM disk that is mounted. -/
theorem Grown.ramfs (h : Grown v) {m : Mem} {fuel address limit : Nat}
    (hramfs : ramfs m fuel address limit v = .ok v') : Grown v' := by
  unfold DiyOS.ramfs at hramfs
  cases htar : tarParse m fuel 0 address limit with
  | error e =>
    rw [htar] at hramfs
    cases hramfs
  | ok headers =>
    simp only [htar] at hramfs
    generalize hw : ({ v.mallocNode (ramfsDir ramName) with
      ramfsRootNode := v.nextNode, headers := headers } : Vfs) = w at hramfs
    -- the root of the RAM disk comes first, then the nodes that the loop makes, behind it
    have hnew : Grown (v.mallocNode (ramfsDir ramName)) :=
      h.mallocNode (Shape.ramfs rfl rfl (by unfold Unsplit; decide) nofun)
    have hinit : w.rootNode = v.rootNode ∧ v.nextNode < w.nextNode ∧ Grown w := by
      rw [← hw]
      exact ⟨rfl, Nat.lt_succ_self _, hnew.root_lt, hnew.shape, hnew.root_below, hnew.dev_below,
        hnew.dev_mem, hnew.dev_ne⟩
    have hnames : ∀ header, ∀ s ∈ path (m.cString header 4294967296), Unsplit s := fun header s hs =>
      ⟨slash_not_mem_path _ s hs, zero_not_mem_path _ s hs⟩
    have hlo : v.rootNode + 1 ≤ w.nextNode := by
      rw [← hw]
      exact Nat.le_succ_of_le h.root_lt
    cases hloop : ramfsLoop m 0 headers none w with
    | error e =>
      rw [hloop] at hramfs
      cases hramfs
    | ok w' =>
      rw [hloop] at hramfs
      cases hramfs
      obtain ⟨hroot, hlt, hgrown⟩ :=
        (grown_builds v.rootNode v.nextNode).loop hnames hlo (fun _ hn => by cases hn) hinit hloop
      refine hgrown.fsRegister ⟨?_, hlt⟩
      rw [hroot]
      exact h.root_lt

/-! `fs_root` -/

/-- The four nodes that `fs_root` allocates behind the root: `/dev` and its devices. -/
theorem fsRoot_placed (v : Vfs) (n : NodePtr) : (fsRoot v).Placed n ↔
    n = v.nextNode + 1 ∨ n = v.nextNode + 2 ∨ n = v.nextNode + 3 ∨ n = v.nextNode + 4 := by
  have hbounds : (fsRoot v).Placed n ↔ v.nextNode < n ∧ n < v.nextNode + 5 := Iff.rfl
  rw [hbounds]
  generalize v.nextNode = next
  unfold NodePtr at *
  omega

/-- **The beginning.** -/
theorem fsRoot_grown {v : Vfs} (h : Unlisted v) : Grown (fsRoot v) := by
  have hroot : (fsRoot v).rootNodes = [v.nextNode + 1] := by
    show v.rootNodes ++ [v.nextNode + 1] = _
    rw [h.rootNodes]
    rfl
  have hdevs : (fsRoot v).devNodes = [v.nextNode + 2, v.nextNode + 3, v.nextNode + 4] := by
    show v.devNodes ++ [v.nextNode + 2] ++ [v.nextNode + 3] ++ [v.nextNode + 4] = _
    rw [h.devNodes]
    rfl
  have hdev : (fsRoot v).Placed (v.nextNode + 1) := (fsRoot_placed v _).mpr (Or.inl rfl)
  refine ⟨?_, ?_, ?_, ?_, ?_, ?_⟩
  · show v.nextNode < v.nextNode + 5
    exact Nat.lt_add_of_pos_right (by decide)
  -- the nodes of `/dev` and of its three devices
  · intro n hn
    rcases (fsRoot_placed v n).mp hn with rfl | rfl | rfl | rfl
    · refine Shape.dev ?_ ?_ ?_ rfl <;>
        simp [fsRoot, devfs, devRand, devZero, devOne, devNode, fsRegister, devfsRegister,
          Vfs.mallocNode, Vfs.setNode, Function.update, Unsplit, slash]
    all_goals
      refine Shape.file ?_ ?_ <;>
        simp [fsRoot, devfs, devRand, devZero, devOne, devNode, fsRegister, devfsRegister,
          Vfs.mallocNode, Vfs.setNode, Function.update]
  · rw [hroot]
    intro n hn
    rw [List.mem_singleton.mp hn]
    exact hdev
  · rw [hdevs]
    intro n hn
    rw [fsRoot_placed]
    simp only [List.mem_cons, List.not_mem_nil, or_false] at hn
    exact Or.inr hn
  · rw [hroot]
    exact List.mem_singleton.mpr rfl
  · rw [hdevs]
    exact List.cons_ne_nil _ _

theorem Grown.registers {e : Registration} (h : Grown v) (hstep : Registers v e v') : Grown v' := by
  cases hstep with
  | device hflags hreaddir hfinddir =>
    exact (h.mallocNode (Shape.file hflags hfinddir)).devfsRegister (h.placed_new _)
  | ramfs hramfs => exact h.ramfs hramfs

end

/-- After `fs_root` and any registrations. -/
theorem grown_registers {v₀ v : Vfs} (h₀ : Unlisted v₀) {tr : List (Transition Vfs Registration)}
    (hrun : Run Registers (fsRoot v₀) tr v) : Grown v :=
  hrun.invariant (fsRoot_grown h₀) fun _ _ _ hpre hstep => hpre.registers hstep

theorem mounted_registers {v₀ v : Vfs} (h₀ : Unlisted v₀) {tr : List (Transition Vfs Registration)}
    (hrun : Run Registers (fsRoot v₀) tr v) : Mounted v₀.nextNode v :=
  hrun.invariant (fsRoot_mounted h₀) fun _ _ _ hpre hstep => hpre.registers hstep

/-! ## The tree

The three kinds of directories, seen from the lists: the names in them, and what they are. -/

section

variable {lo n c : NodePtr} {v : Vfs}

/-- The root, or a node behind it. -/
def Vfs.Within (v : Vfs) (n : NodePtr) : Prop := n = v.rootNode ∨ v.Placed n

/-- A directory has no other flag. -/
theorem Shape.isDirectory_iff {dev : NodePtr} {placed : NodePtr → Prop}
    (h : Shape dev placed n (v.node n)) :
    v.IsDirectory n ↔ (v.node n).flags = FS_DIRECTORY := by
  unfold Vfs.IsDirectory
  cases h with
  | file hflags _ =>
    rw [hflags]
    decide
  | dev hflags _ _ _ =>
    rw [hflags]
    decide
  | ramfs hflags _ _ _ =>
    rw [hflags]
    decide

theorem Grown.kind (h : Grown v) (hn : v.Placed n) : v.Kind n := by
  have hshape := h.shape n hn
  have hdir := hshape.isDirectory_iff
  cases hshape with
  | file hflags hfinddir =>
    refine Vfs.Kind.file ?_ hfinddir
    rw [hdir, hflags]
    decide
  | dev hflags hfinddir _ hnode => exact Vfs.Kind.dev hnode (hdir.mpr hflags) hfinddir
  | ramfs hflags hfinddir _ _ => exact Vfs.Kind.ramfs (hdir.mpr hflags) hfinddir

theorem Mounted.children_rootNode (hm : Mounted lo v) : v.children v.rootNode = v.rootNodes :=
  hm.root.children_root

/-- The nodes in the list of a directory were allocated behind the root. -/
theorem Grown.children_placed (h : Grown v) (hm : Mounted lo v) (hn : v.Within n) (hc : c ∈ v.children n) :
    v.Placed c := by
  rcases hn with rfl | hn
  · rw [hm.children_rootNode] at hc
    exact h.root_below c hc
  · unfold Vfs.children at hc
    cases h.shape n hn with
    | file _ hfinddir =>
      rw [hfinddir] at hc
      cases hc
    | dev _ hfinddir _ _ =>
      rw [hfinddir] at hc
      exact h.dev_below c hc
    | ramfs _ hfinddir _ hlist =>
      rw [hfinddir] at hc
      exact hlist c hc

/-- `readdir` and `finddir` of a node go through the same list. -/
theorem Mounted.listed_eq (hm : Mounted lo v) (hge : lo ≤ n) (hlt : n < v.nextNode) :
    v.listed n = v.children n := by
  unfold Vfs.listed Vfs.children
  rw [hm.matching n hge hlt]
  cases (v.node n).finddir <;> rfl

theorem Grown.listed_eq (h : Grown v) (hm : Mounted lo v) (hn : v.Within n) : v.listed n = v.children n := by
  rcases hn with rfl | hn
  · exact hm.listed_eq hm.root.ge h.root_lt
  · exact hm.listed_eq (Nat.le_trans hm.root.ge (Nat.le_of_lt hn.1)) hn.2

/-- The directories are those that `readdir` lists. -/
theorem Grown.listable (h : Grown v) (hm : Mounted lo v) (hn : v.Within n) (hdir : v.IsDirectory n) :
    v.Listable lo n := by
  rcases hn with rfl | hn
  · exact Or.inl rfl
  · have hshape := h.shape n hn
    have hflags := hshape.isDirectory_iff.mp hdir
    cases hshape with
    | file hfile _ =>
      rw [hfile] at hflags
      exact absurd hflags (by decide)
    | dev _ _ _ hnode => exact Or.inr (Or.inl hnode)
    | ramfs _ hfinddir _ _ =>
      exact Or.inr (Or.inr ⟨_, Nat.le_trans hm.root.ge (Nat.le_of_lt hn.1), hn.2, rfl, hflags, hfinddir⟩)

/-- A name that is chosen in a listing: that of a directory is not split. -/
theorem Grown.unsplit (h : Grown v) (hn : v.Placed n) (hflags : (v.node n).flags &&& FS_DIRECTORY ≠ 0) :
    v.IsDirectory n ∧ Unsplit (v.node n).name := by
  have hshape := h.shape n hn
  have hdir := hshape.isDirectory_iff
  cases hshape with
  | file hfile _ =>
    rw [hfile] at hflags
    exact absurd rfl hflags
  | dev hdev _ hname _ => exact ⟨hdir.mpr hdev, hname⟩
  | ramfs hram _ hname _ => exact ⟨hdir.mpr hram, hname⟩

/-! ## Paths

`Reaches` follows the names of a path. Since the first entry with a name is the one that is found, there is at
most one node at its end. -/

theorem Vfs.Reaches.placed {m : NodePtr} {segs : List CString} (h : Grown v) (hm : Mounted lo v)
    (hreach : v.Reaches n segs m) (hn : v.Within n) : v.Within m := by
  induction hreach with
  | nil => exact hn
  | cons hstep _ ih => exact ih (Or.inr (h.children_placed hm hn hstep.mem))

/-- The loop of `root_fs_finddir` in the tree. -/
theorem Grown.findSegments (h : Grown v) (hm : Mounted lo v) (fuel : Nat) (hn : v.Placed n)
    (segs : List CString) :
    ∃ r, findSegments (finddirFs v (fuel + 1)) n segs = .ok r ∧ Finds v n segs r :=
  findSegments_finds (fun _ => h.kind) (fun _ _ hx hc => h.children_placed hm (Or.inr hx) hc) fuel hn segs

/-- **A path that is not `/`** leads where the walk along its segments leads. -/
theorem Grown.lookup (h : Grown v) (hm : Mounted lo v) {p : CString} (hp : p ≠ [slash]) (fuel : Nat) :
    ∃ r, finddirFs v (fuel + 2) v.rootNode p = .ok r ∧ ∀ m, r = some m ↔ v.Reaches v.rootNode (path p) m := by
  have hroot : (v.node v.rootNode).flags &&& 7 = FS_DIRECTORY := hm.root.isDirectory
  rw [finddirFs, if_pos hroot, hm.root.finddir]
  simp only [rootFsFinddirWith, if_neg hp, if_true]
  cases hpath : path p with
  | nil => exact absurd hpath (path_ne_nil p)
  | cons s segs =>
    simp only
    rcases child_or_stops hm.root.isDirectory s with ⟨c, hfind, hstep⟩ | ⟨hfind, hstop⟩
    · rw [hm.children_rootNode] at hfind
      have hc : v.Placed c := h.root_below c (by rw [← hm.children_rootNode]; exact hstep.mem)
      obtain ⟨r, hrest, hfinds⟩ := h.findSegments hm fuel hc segs
      rw [hfind]
      exact ⟨r, hrest, (hfinds.cons hstep).some_iff⟩
    · rw [hm.children_rootNode] at hfind
      rw [hfind]
      exact ⟨none, rfl, (finds_none hstop segs).some_iff⟩

/-- The node that a path leads to. -/
theorem Grown.resolved (h : Grown v) (hm : Mounted lo v) {p : CString}
    (hfind : finddirFs v 2 v.rootNode p = .ok (some n)) : v.Within n := by
  by_cases hp : p = [slash]
  · have hroot : (v.node v.rootNode).flags &&& 7 = FS_DIRECTORY := hm.root.isDirectory
    rw [finddirFs, if_pos hroot, hm.root.finddir] at hfind
    simp only [rootFsFinddirWith, if_pos hp] at hfind
    cases hfind
    exact Or.inl rfl
  · obtain ⟨r, hr, hreach⟩ := h.lookup hm hp 0
    cases hr.symm.trans hfind
    exact ((hreach n).mp rfl).placed h hm (Or.inl rfl)

/-- A walk along two lists of segments. -/
theorem reaches_append {m : NodePtr} {segs segs' : List CString} :
    v.Reaches n (segs ++ segs') m ↔ ∃ k, v.Reaches n segs k ∧ v.Reaches k segs' m := by
  induction segs generalizing n with
  | nil =>
    refine ⟨fun h => ⟨n, Vfs.Reaches.nil n, h⟩, ?_⟩
    rintro ⟨k, hk, h⟩
    cases hk
    exact h
  | cons s segs ih =>
    refine ⟨?_, ?_⟩
    · intro h
      cases h with
      | cons hstep hrest =>
        obtain ⟨k, hk, h⟩ := ih.mp hrest
        exact ⟨k, Vfs.Reaches.cons hstep hk, h⟩
    · rintro ⟨k, hk, h⟩
      cases hk with
      | cons hstep hrest => exact Vfs.Reaches.cons hstep (ih.mpr ⟨k, hrest, h⟩)

theorem Vfs.Reaches.unique {m m' : NodePtr} {segs : List CString} (h : v.Reaches n segs m)
    (h' : v.Reaches n segs m') : m = m' := by
  induction h with
  | nil =>
    cases h'
    rfl
  | cons hstep _ ih =>
    cases h' with
    | cons hstep' hrest' =>
      rw [hstep.unique hstep'] at ih
      exact ih hrest'

theorem reaches_single {s : CString} : v.Reaches n [s] c ↔ v.Child n s c := by
  refine ⟨?_, fun h => Vfs.Reaches.cons h (Vfs.Reaches.nil c)⟩
  intro h
  cases h with
  | cons hstep hrest =>
    cases hrest
    exact hstep

/-- A walk ends at a node with the last segment's name. -/
theorem Vfs.Reaches.name_eq {m : NodePtr} {segs : List CString} {s : CString}
    (h : v.Reaches n (segs ++ [s]) m) : (v.node m).name = s := by
  obtain ⟨k, _, hlast⟩ := reaches_append.mp h
  obtain ⟨_, _, _, hname, _⟩ := (reaches_single.mp hlast).2
  exact hname

/-- `root_fs_finddir` on the root, for a path other than `/`. -/
theorem Grown.opens_iff (h : Grown v) (hm : Mounted lo v) {p : CString} (hp : p ≠ [slash]) :
    Settles (fun fuel => rootFsFinddir v fuel v.rootNode p) (.ok (some c))
      ↔ v.Reaches v.rootNode (path p) c := by
  have hroot : (v.node v.rootNode).flags &&& 7 = FS_DIRECTORY := hm.root.isDirectory
  have hcall : ∀ fuel, rootFsFinddir v fuel v.rootNode p = finddirFs v (fuel + 1) v.rootNode p := by
    intro fuel
    rw [finddirFs, if_pos hroot, hm.root.finddir]
    rfl
  obtain ⟨r, hr, hreach⟩ := h.lookup hm hp 0
  have hsettles : Settles (fun fuel => rootFsFinddir v fuel v.rootNode p) (.ok r) := by
    refine ⟨1, fun fuel hfuel => ?_⟩
    show rootFsFinddir v fuel v.rootNode p = .ok r
    rw [hcall]
    exact finddirFs_mono hr (Nat.succ_le_succ hfuel)
  rw [← hreach]
  refine ⟨fun hc => Except.ok.inj (hsettles.unique hc), ?_⟩
  rintro rfl
  exact hsettles

/-- Only directories have children. -/
theorem Grown.isDirectory_of_child (h : Grown v) (hm : Mounted lo v) (hn : v.Within n)
    (hc : c ∈ v.children n) : v.IsDirectory n := by
  rcases hn with rfl | hn
  · exact hm.root.isDirectory
  · have hshape := h.shape n hn
    cases hshape with
    | file _ hfinddir =>
      unfold Vfs.children at hc
      rw [hfinddir] at hc
      cases hc
    | dev hflags _ _ _ => exact (h.shape n hn).isDirectory_iff.mpr hflags
    | ramfs hflags _ _ _ => exact (h.shape n hn).isDirectory_iff.mpr hflags

end

end DiyOS
