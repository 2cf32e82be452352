import DiyOS.Fs.Ramfs
import DiyOS.Fs.Resolve
import DiyOS.Lib.Cursor
import DiyOS.Lib.Run
import Mathlib.Data.List.Forall2

/-!
# Listing directories (`lib/system/readdir.c`, `kernel/filesystem/`)

The three `readdir` callbacks, `readdir_fs`, and the library's `readdir`, whose cursor stands in the
entry that the caller gives back. `malloc` of an entry does not fail here, and `free` does nothing.

* **`Listed`** — what registering nodes keeps: the counters are the lengths of the lists, and each node
  has the callbacks of one file system.
* **`readdir_lists`** — the calls go through the directory, and lookups find what they return.
-/

namespace DiyOS

open CString

/-- `struct dirent`. `inode` is the address of the node in the root and in `/dev`, and what the node
holds in its own `inode` in the RAM disk. -/
structure Vfs.Dirent where
  name : CString
  inode : Inode
  offset : Nat
  flags : Nat

/-- `root_fs_readdir` and `devfs_readdir` on their list and its counter. -/
def listReaddir (v : Vfs) (nodes : List NodePtr) (files index : Nat) :
    Except Halt (Option Vfs.Dirent) :=
  if files ≤ index then .ok none
  else
    match listGet nodes index with
    | none => .error .undefined
    | some rnode =>
      if rnode = null then .ok none
      else .ok (some ⟨(v.node rnode).name, .index rnode, index, (v.node rnode).flags⟩)

def rootFsReaddir (v : Vfs) (_node : NodePtr) (index : Nat) : Except Halt (Option Vfs.Dirent) :=
  listReaddir v v.rootNodes v.rootFiles index

def devfsReaddir (v : Vfs) (_node : NodePtr) (index : Nat) : Except Halt (Option Vfs.Dirent) :=
  listReaddir v v.devNodes v.devFiles index

def ramfsReaddir (v : Vfs) (node : NodePtr) (index : Nat) : Except Halt (Option Vfs.Dirent) :=
  if node = null then .ok none
  else if (v.node node).flags &&& FS_DIRECTORY ≠ 0 then
    match (v.node node).inode.asList with
    | .error e => .error e
    | .ok nodes =>
      -- `list_get` reads the magic number of the first entry
      if nodes = [] then .error .undefined
      else
        match listGet nodes index with
        | none => .ok none
        | some iNode =>
          .ok (some ⟨(v.node iNode).name, (v.node iNode).inode, index, (v.node iNode).flags⟩)
  else .ok none

def readdirFs (v : Vfs) (node : NodePtr) (index : Nat) : Except Halt (Option Vfs.Dirent) :=
  if (v.node node).flags &&& 7 = FS_DIRECTORY then
    match (v.node node).readdir with
    | .null => .ok none
    | .rootFsReaddir => rootFsReaddir v node index
    | .devfsReaddir => devfsReaddir v node index
    | .ramfsReaddir => ramfsReaddir v node index
  else .ok none

/-- The position that a call of `readdir` with `dir` starts from. -/
def direntOffset : Option Vfs.Dirent → Nat
  | none => 0
  | some dir => dir.offset

/-- `readdir`, the library's. -/
def readdir (v : Vfs) (fuel : Nat) (path : CString) (dir : Option Vfs.Dirent) :
    Except Halt (Option Vfs.Dirent) :=
  let offset := direntOffset dir
  match finddirFs v fuel v.rootNode path with
  | .error e => .error e
  | .ok none => .ok none
  | .ok (some node) =>
    match readdirFs v node offset with
    | .error e => .error e
    | .ok none => .ok none
    | .ok (some d) => .ok (some { d with offset := offset + 1 })

/-! ## What registering nodes keeps

The root and `/dev` count their nodes besides listing them, and `readdir` goes by the count. So the invariant
says that both agree; and that every node has the three callbacks of one file system, so that listing and lookup
go to the same list. -/

/-- The `readdir` of the file system that a `finddir` belongs to. -/
def FinddirType.readdir : FinddirType → ReaddirType
  | .null => .null
  | .rootFsFinddir => .rootFsReaddir
  | .devfsFinddir => .devfsReaddir
  | .ramfsFinddir => .ramfsReaddir

/-- The directory `name` with the callback `f`, allocated at `lo` or above. -/
structure DirNode (lo : NodePtr) (v : Vfs) (n : NodePtr) (name : CString) (f : FinddirType) : Prop where
  ge : lo ≤ n
  lt : n < v.nextNode
  name_eq : (v.node n).name = name
  flags : (v.node n).flags = FS_DIRECTORY
  finddir : (v.node n).finddir = f

/-- The lists of nodes, which are allocated from `lo` on. -/
structure Listed (lo : NodePtr) (v : Vfs) : Prop where
  lo_pos : 0 < lo
  lo_le : lo ≤ v.nextNode
  rootFiles : v.rootFiles = v.rootNodes.length
  devFiles : v.devFiles = v.devNodes.length
  root_mem : ∀ n ∈ v.rootNodes, lo ≤ n ∧ n < v.nextNode ∧ IsSegment (v.node n).name
  dev_mem : ∀ n ∈ v.devNodes, lo ≤ n
  matching : ∀ n, lo ≤ n → n < v.nextNode → (v.node n).readdir = (v.node n).finddir.readdir

/-- The state after `fs_root`. -/
structure Mounted (lo : NodePtr) (v : Vfs) : Prop extends Listed lo v where
  root : DirNode lo v v.rootNode [slash] .rootFsFinddir
  dev : DirNode lo v v.devfsRootNode [100, 101, 118] .devfsFinddir

section

variable {lo n : NodePtr} {v v' : Vfs} {name : CString} {f : FinddirType}

theorem DirNode.same (h : DirNode lo v n name f) (hnode : v'.node = v.node)
    (hnext : v'.nextNode = v.nextNode) : DirNode lo v' n name f := by
  refine ⟨h.ge, ?_, ?_, ?_, ?_⟩
  · rw [hnext]
    exact h.lt
  · rw [hnode]
    exact h.name_eq
  · rw [hnode]
    exact h.flags
  · rw [hnode]
    exact h.finddir

/-! A new node -/

theorem DirNode.mallocNode (h : DirNode lo v n name f) (rec : FsNode) :
    DirNode lo (v.mallocNode rec) n name f := by
  have hnode := Vfs.mallocNode_node_of_lt v rec h.lt
  refine ⟨h.ge, Nat.lt_succ_of_lt h.lt, ?_, ?_, ?_⟩
  · rw [hnode]
    exact h.name_eq
  · rw [hnode]
    exact h.flags
  · rw [hnode]
    exact h.finddir

/-- A new node joins no list, so that lists and counters stay. -/
theorem Listed.mallocNode (h : Listed lo v) {rec : FsNode} (hrec : rec.readdir = rec.finddir.readdir) :
    Listed lo (v.mallocNode rec) where
  lo_pos := h.lo_pos
  lo_le := Nat.le_succ_of_le h.lo_le
  rootFiles := h.rootFiles
  devFiles := h.devFiles
  root_mem n hn := by
    obtain ⟨hge, hlt, hname⟩ := h.root_mem n hn
    rw [Vfs.mallocNode_node_of_lt v rec hlt]
    exact ⟨hge, Nat.lt_succ_of_lt hlt, hname⟩
  dev_mem := h.dev_mem
  matching n hge hlt := by
    rcases Nat.lt_succ_iff_lt_or_eq.mp hlt with hold | rfl
    · rw [Vfs.mallocNode_node_of_lt v rec hold]
      exact h.matching n hge hold
    · rw [Vfs.mallocNode_node_self]
      exact hrec

theorem Mounted.mallocNode (h : Mounted lo v) {rec : FsNode}
    (hrec : rec.readdir = rec.finddir.readdir) : Mounted lo (v.mallocNode rec) :=
  ⟨h.toListed.mallocNode hrec, h.root.mallocNode rec, h.dev.mallocNode rec⟩

/-- The directory that a new node is. -/
theorem Listed.dirNode (h : Listed lo v) {rec : FsNode} (hname : rec.name = name)
    (hflags : rec.flags = FS_DIRECTORY) (hfinddir : rec.finddir = f) :
    DirNode lo (v.mallocNode rec) v.nextNode name f := by
  have hnode := Vfs.mallocNode_node_self v rec
  refine ⟨h.lo_le, Nat.lt_succ_self _, ?_, ?_, ?_⟩
  · rw [hnode, hname]
  · rw [hnode, hflags]
  · rw [hnode, hfinddir]

/-! A node in the list of a directory of the RAM disk -/

/-- `list_add` to a directory changes only its list. -/
theorem addChild_fields {d m : NodePtr} (h : addChild d n v = .ok v') :
    (v'.node m).name = (v.node m).name ∧ (v'.node m).flags = (v.node m).flags
      ∧ (v'.node m).readdir = (v.node m).readdir ∧ (v'.node m).finddir = (v.node m).finddir := by
  obtain ⟨l, _, rfl⟩ := addChild_ok h
  by_cases hm : m = d
  · rw [hm, Vfs.setNode_node_self]
    exact ⟨rfl, rfl, rfl, rfl⟩
  · rw [Vfs.setNode_node_of_ne _ _ hm]
    exact ⟨rfl, rfl, rfl, rfl⟩

theorem DirNode.addChild (h : DirNode lo v n name f) {d m : NodePtr}
    (hadd : addChild d m v = .ok v') : DirNode lo v' n name f := by
  obtain ⟨hname, hflags, _, hfinddir⟩ := @addChild_fields m v v' d n hadd
  obtain ⟨l, _, rfl⟩ := addChild_ok hadd
  exact ⟨h.ge, h.lt, hname.trans h.name_eq, hflags.trans h.flags, hfinddir.trans h.finddir⟩

/-- A node added to a directory of the RAM disk, whose list has no counter. -/
theorem Mounted.addChild (h : Mounted lo v) {d : NodePtr} (hadd : addChild d n v = .ok v') :
    Mounted lo v' := by
  have hfields := fun m => @addChild_fields n v v' d m hadd
  have hroot := h.root.addChild hadd
  have hdev := h.dev.addChild hadd
  obtain ⟨l, _, rfl⟩ := addChild_ok hadd
  refine ⟨⟨h.lo_pos, h.lo_le, h.rootFiles, h.devFiles, ?_, h.dev_mem, ?_⟩, hroot, hdev⟩
  · intro n hn
    rw [(hfields n).1]
    exact h.root_mem n hn
  · intro n hge hlt
    rw [(hfields n).2.2.1, (hfields n).2.2.2]
    exact h.matching n hge hlt

/-! A node in the root or in `/dev` -/

/-- A directory added to the root, with the counter. -/
theorem Mounted.fsRegister (h : Mounted lo v) (hn : DirNode lo v n name f) (hname : IsSegment name) :
    Mounted lo (fsRegister n v) := by
  refine ⟨⟨h.lo_pos, h.lo_le, ?_, h.devFiles, ?_, h.dev_mem, h.matching⟩,
    h.root.same rfl rfl, h.dev.same rfl rfl⟩
  · show v.rootFiles + 1 = (v.rootNodes ++ [n]).length
    rw [h.rootFiles, List.length_append]
    rfl
  · intro m hm
    rcases List.mem_append.mp hm with hold | hnew
    · exact h.root_mem m hold
    · rw [List.mem_singleton.mp hnew]
      exact ⟨hn.ge, hn.lt, by show IsSegment (v.node n).name; rw [hn.name_eq]; exact hname⟩

/-- A new file in `/dev`. -/
theorem Mounted.device (h : Mounted lo v) {rec : FsNode} (hrec : rec.readdir = rec.finddir.readdir) :
    Mounted lo (devfsRegister v.nextNode (v.mallocNode rec)) := by
  have hnew := h.mallocNode hrec
  refine ⟨⟨h.lo_pos, hnew.lo_le, h.rootFiles, ?_, hnew.root_mem, ?_, hnew.matching⟩,
    hnew.root.same rfl rfl, hnew.dev.same rfl rfl⟩
  · show v.devFiles + 1 = (v.devNodes ++ [v.nextNode]).length
    rw [h.devFiles, List.length_append]
    rfl
  · intro m hm
    rcases List.mem_append.mp hm with hold | hnew
    · exact h.dev_mem m hold
    · rw [List.mem_singleton.mp hnew]
      exact h.lo_le

theorem Mounted.devNode (h : Mounted lo v) (name : CString) : Mounted lo (devNode name v) :=
  @Mounted.device lo v h { v.node v.nextNode with
    name := name, flags := FS_FILE, read := .device, readdir := .null, finddir := .null } rfl

/-! `ramfs` -/

theorem mounted_keeps (lo n : NodePtr) (name : CString) (f : FinddirType) :
    RamfsKeeps fun v => Mounted lo v ∧ DirNode lo v n name f where
  dir _ _ h := ⟨h.1.mallocNode rfl, h.2.mallocNode _⟩
  file _ _ _ h := ⟨h.1.mallocNode rfl, h.2.mallocNode _⟩
  child _ _ _ _ hadd h := ⟨h.1.addChild hadd, h.2.addChild hadd⟩

/-- A RAM disk that is mounted. -/
theorem Mounted.ramfs (h : Mounted lo v) {m : Mem} {fuel address limit : Nat}
    (hramfs : ramfs m fuel address limit v = .ok v') : Mounted lo v' := by
  unfold DiyOS.ramfs at hramfs
  cases htar : tarParse m fuel 0 address limit with
  | error e =>
    rw [htar] at hramfs
    cases hramfs
  | ok headers =>
    simp only [htar] at hramfs
    -- the root of the RAM disk, before its tree is built
    generalize hw : ({ v.mallocNode (ramfsDir ramName) with
      ramfsRootNode := v.nextNode, headers := headers } : Vfs) = w at hramfs
    have hinit : Mounted lo w ∧ DirNode lo w v.nextNode ramName .ramfsFinddir := by
      have hnew : Mounted lo (v.mallocNode (ramfsDir ramName)) := h.mallocNode rfl
      have hram : DirNode lo (v.mallocNode (ramfsDir ramName)) v.nextNode ramName .ramfsFinddir :=
        h.toListed.dirNode rfl rfl rfl
      rw [← hw]
      exact ⟨⟨⟨h.lo_pos, hnew.lo_le, h.rootFiles, h.devFiles, hnew.root_mem, h.dev_mem, hnew.matching⟩,
        hnew.root.same rfl rfl, hnew.dev.same rfl rfl⟩, hram.same rfl rfl⟩
    cases hloop : ramfsLoop m 0 headers none w with
    | error e =>
      rw [hloop] at hramfs
      cases hramfs
    | ok w' =>
      rw [hloop] at hramfs
      cases hramfs
      obtain ⟨hmounted, hroot⟩ := (mounted_keeps lo v.nextNode ramName .ramfsFinddir).loop hinit hloop
      exact hmounted.fsRegister hroot (by decide)

end

/-! `fs_root` -/

/-- The globals as they are before `fs_root`; nodes are allocated from `nextNode` on. -/
structure Unlisted (v : Vfs) : Prop where
  nextNode_pos : 0 < v.nextNode
  rootNodes : v.rootNodes = []
  rootFiles : v.rootFiles = 0
  devNodes : v.devNodes = []
  devFiles : v.devFiles = 0

theorem Unlisted.listed {v : Vfs} (h : Unlisted v) : Listed v.nextNode v where
  lo_pos := h.nextNode_pos
  lo_le := Nat.le_refl _
  rootFiles := by rw [h.rootFiles, h.rootNodes]; rfl
  devFiles := by rw [h.devFiles, h.devNodes]; rfl
  root_mem n hn := by rw [h.rootNodes] at hn; cases hn
  dev_mem n hn := by rw [h.devNodes] at hn; cases hn
  matching n hge hlt := absurd hge (Nat.not_le_of_lt hlt)

/-- `devfs` registers `/dev` and its first devices. -/
theorem devfs_mounted {lo : NodePtr} {v : Vfs} (h : Listed lo v)
    (hroot : DirNode lo v v.rootNode [slash] .rootFsFinddir) : Mounted lo (devfs v) := by
  let r : FsNode := { v.node v.nextNode with
    name := [100, 101, 118], flags := FS_DIRECTORY, read := .null, readdir := .devfsReaddir,
    finddir := .devfsFinddir }
  have hlisted : Listed lo (v.mallocNode r) := h.mallocNode rfl
  have hdev : DirNode lo (v.mallocNode r) v.nextNode [100, 101, 118] .devfsFinddir :=
    h.dirNode rfl rfl rfl
  have hmounted : Mounted lo { v.mallocNode r with devfsRootNode := v.nextNode } :=
    ⟨⟨h.lo_pos, hlisted.lo_le, h.rootFiles, h.devFiles, hlisted.root_mem, h.dev_mem, hlisted.matching⟩,
      (hroot.mallocNode r).same rfl rfl, hdev.same rfl rfl⟩
  -- the three devices
  have hdevices : Mounted lo
      (devRand (devZero (devOne { v.mallocNode r with devfsRootNode := v.nextNode }))) :=
    ((hmounted.devNode _).devNode _).devNode _
  exact hdevices.fsRegister hdevices.dev (by decide)

/-- **The beginning.** `fs_root` sets up what registering keeps. -/
theorem fsRoot_mounted {v : Vfs} (h : Unlisted v) : Mounted v.nextNode (fsRoot v) := by
  let r : FsNode := { v.node v.nextNode with
    name := [slash], flags := FS_DIRECTORY, read := .null, readdir := .rootFsReaddir,
    finddir := .rootFsFinddir }
  have hlisted : Listed v.nextNode (v.mallocNode r) := h.listed.mallocNode rfl
  have hroot : DirNode v.nextNode (v.mallocNode r) v.nextNode [slash] .rootFsFinddir :=
    h.listed.dirNode rfl rfl rfl
  have hnext : Listed v.nextNode { v.mallocNode r with rootNode := v.nextNode } :=
    ⟨hlisted.lo_pos, hlisted.lo_le, hlisted.rootFiles, hlisted.devFiles, hlisted.root_mem,
      hlisted.dev_mem, hlisted.matching⟩
  exact devfs_mounted hnext (hroot.same rfl rfl)

/-- What adds nodes after `fs_root`: `devfs_register` of a new file, and `ramfs`. -/
inductive Registration where
  | device (rec : FsNode)
  | ramfs (m : Mem) (fuel address limit : Nat)

inductive Registers : Vfs → Registration → Vfs → Prop where
  | device {v : Vfs} {rec : FsNode} (hflags : rec.flags = FS_FILE) (hreaddir : rec.readdir = .null)
      (hfinddir : rec.finddir = .null) :
      Registers v (.device rec) (devfsRegister v.nextNode (v.mallocNode rec))
  | ramfs {v v' : Vfs} {m : Mem} {fuel address limit : Nat}
      (hramfs : ramfs m fuel address limit v = .ok v') : Registers v (.ramfs m fuel address limit) v'

/-- **The step.** A registration keeps it. -/
theorem Mounted.registers {lo : NodePtr} {v v' : Vfs} {e : Registration} (h : Mounted lo v)
    (hstep : Registers v e v') : Mounted lo v' := by
  cases hstep with
  | device hflags hreaddir hfinddir =>
    exact h.device (by rw [hreaddir, hfinddir]; rfl)
  | ramfs hramfs => exact h.ramfs hramfs

/-! ## Listing and lookup

The index of a call is the position in the list, and a lookup by the name that it returns finds the node, or an
older one with the same name. -/

section

variable {lo n c : NodePtr} {v : Vfs}

/-- `d` is the entry for the node `c`. -/
def Vfs.EntryOf (v : Vfs) (d : Vfs.Dirent) (c : NodePtr) : Prop :=
  d.name = (v.node c).name ∧ d.flags = (v.node c).flags

theorem listReaddir_some {nodes : List NodePtr} {files index : Nat} (hfiles : files = nodes.length)
    (hget : nodes[index]? = some c) (hc : c ≠ null) :
    ∃ d, listReaddir v nodes files index = .ok (some d) ∧ v.EntryOf d c := by
  have hlt : ¬ files ≤ index := by
    obtain ⟨h, _⟩ := List.getElem?_eq_some_iff.mp hget
    omega
  unfold listReaddir
  rw [if_neg hlt, listGet_eq_getElem, hget]
  simp only [if_neg hc]
  exact ⟨_, rfl, rfl, rfl⟩

theorem listReaddir_none {nodes : List NodePtr} {files index : Nat} (hfiles : files = nodes.length)
    (hget : nodes[index]? = none) : listReaddir v nodes files index = .ok none := by
  unfold listReaddir
  rw [hfiles, if_pos (List.getElem?_eq_none_iff.mp hget)]

theorem DirNode.isDirectory {name : CString} {f : FinddirType} (h : DirNode lo v n name f) :
    v.IsDirectory n := by
  unfold Vfs.IsDirectory
  rw [h.flags]
  rfl

/-- The directories: the root, `/dev`, and those of the RAM disk. -/
def Vfs.Listable (lo : NodePtr) (v : Vfs) (n : NodePtr) : Prop :=
  n = v.rootNode ∨ n = v.devfsRootNode ∨ ∃ name, DirNode lo v n name .ramfsFinddir

/-- `readdir_fs` calls the callback that goes with the lookup. -/
theorem Mounted.readdirFs_eq (h : Mounted lo v) {name : CString} {f : FinddirType}
    (hn : DirNode lo v n name f) (index : Nat) :
    readdirFs v n index = match f.readdir with
      | .null => .ok none
      | .rootFsReaddir => rootFsReaddir v n index
      | .devfsReaddir => devfsReaddir v n index
      | .ramfsReaddir => ramfsReaddir v n index := by
  have hflags : (v.node n).flags &&& 7 = FS_DIRECTORY := hn.isDirectory
  unfold readdirFs
  rw [if_pos hflags, h.matching n hn.ge hn.lt, hn.finddir]

theorem DirNode.children_root {name : CString} (hn : DirNode lo v n name .rootFsFinddir) :
    v.children n = v.rootNodes := by
  unfold Vfs.children
  rw [hn.finddir]

theorem DirNode.children_dev {name : CString} (hn : DirNode lo v n name .devfsFinddir) :
    v.children n = v.devNodes := by
  unfold Vfs.children
  rw [hn.finddir]

theorem DirNode.children_ramfs {name : CString} (hn : DirNode lo v n name .ramfsFinddir) :
    v.children n = (v.node n).inode.list := by
  unfold Vfs.children
  rw [hn.finddir]

/-- No node is allocated at 0. -/
theorem ne_null_of_ge (hpos : 0 < lo) (hge : lo ≤ n) : n ≠ null :=
  Nat.ne_of_gt (Nat.lt_of_lt_of_le hpos hge)

/-- The RAM disk's callback, in a directory that is not empty. -/
theorem ramfsReaddir_eq {name : CString} (hpos : 0 < lo) (hn : DirNode lo v n name .ramfsFinddir)
    (hne : (v.node n).inode.list ≠ []) (index : Nat) :
    ramfsReaddir v n index = .ok ((v.node n).inode.list[index]?.map fun c =>
      ⟨(v.node c).name, (v.node c).inode, index, (v.node c).flags⟩) := by
  have hnull : n ≠ null := ne_null_of_ge hpos hn.ge
  have hflags : (v.node n).flags &&& FS_DIRECTORY ≠ 0 := by
    rw [hn.flags]
    decide
  unfold ramfsReaddir
  rw [if_neg hnull, if_pos hflags]
  cases hinode : (v.node n).inode with
  | index i =>
    rw [hinode] at hne
    exact absurd rfl hne
  | nodes l =>
    rw [hinode] at hne
    have hl : l ≠ [] := hne
    simp only [Inode.asList, Inode.list, if_neg hl, listGet_eq_getElem]
    cases l[index]? <;> rfl

/-- `readdir_fs` gives the entry of the child at the index. -/
theorem Mounted.readdirFs_some (h : Mounted lo v) (hn : v.Listable lo n) {index : Nat}
    (hget : (v.children n)[index]? = some c) :
    ∃ d, readdirFs v n index = .ok (some d) ∧ v.EntryOf d c := by
  have hpos := h.lo_pos
  rcases hn with rfl | rfl | ⟨name, hram⟩
  · rw [h.readdirFs_eq h.root]
    rw [h.root.children_root] at hget
    exact listReaddir_some h.rootFiles hget
      (ne_null_of_ge hpos (h.root_mem c (List.mem_of_getElem? hget)).1)
  · rw [h.readdirFs_eq h.dev]
    rw [h.dev.children_dev] at hget
    exact listReaddir_some h.devFiles hget
      (ne_null_of_ge hpos (h.dev_mem c (List.mem_of_getElem? hget)))
  · rw [h.readdirFs_eq hram]
    rw [hram.children_ramfs] at hget
    have hne : (v.node n).inode.list ≠ [] := List.ne_nil_of_mem (List.mem_of_getElem? hget)
    refine ⟨⟨(v.node c).name, (v.node c).inode, index, (v.node c).flags⟩, ?_, rfl, rfl⟩
    show ramfsReaddir v n index = _
    rw [ramfsReaddir_eq hpos hram hne, hget]
    rfl

/-- Behind the last child it gives nothing. -/
theorem Mounted.readdirFs_none (h : Mounted lo v) (hn : v.Listable lo n) (hne : v.children n ≠ [])
    {index : Nat} (hget : (v.children n)[index]? = none) : readdirFs v n index = .ok none := by
  rcases hn with rfl | rfl | ⟨name, hram⟩
  · rw [h.readdirFs_eq h.root]
    rw [h.root.children_root] at hget
    exact listReaddir_none h.rootFiles hget
  · rw [h.readdirFs_eq h.dev]
    rw [h.dev.children_dev] at hget
    exact listReaddir_none h.devFiles hget
  · rw [h.readdirFs_eq hram]
    rw [hram.children_ramfs] at hget hne
    show ramfsReaddir v n index = _
    rw [ramfsReaddir_eq h.lo_pos hram hne, hget]
    rfl

/-- Among nodes with distinct names, a search finds each. -/
theorem listForeach_of_distinct {l : List NodePtr} (hdistinct : (l.map fun c => (v.node c).name).Nodup)
    (hc : c ∈ l) : listForeach l (findName v (v.node c).name) = some c := by
  obtain ⟨before, after, rfl⟩ := List.append_of_mem hc
  refine listForeach_findName_some.mpr ⟨before, after, rfl, rfl, ?_⟩
  rw [List.map_append, List.map_cons, List.nodup_append] at hdistinct
  intro d hd
  exact hdistinct.2.2 _ (List.mem_map_of_mem hd) _ List.mem_cons_self

/-- `finddir_fs` finds each child of a directory whose children have distinct names. -/
theorem Mounted.finddirFs_child (h : Mounted lo v) (hn : v.Listable lo n)
    (hdistinct : ((v.children n).map fun c => (v.node c).name).Nodup) (hc : c ∈ v.children n)
    (fuel : Nat) : finddirFs v (fuel + 1) n (v.node c).name = .ok (some c) := by
  have hfind := listForeach_of_distinct hdistinct hc
  have hcall : ∀ {name f}, DirNode lo v n name f → (v.node n).flags &&& 7 = FS_DIRECTORY
      ∧ (v.node n).finddir = f := fun hnode => ⟨hnode.isDirectory, hnode.finddir⟩
  rw [finddirFs]
  rcases hn with rfl | rfl | ⟨name, hram⟩
  · rw [h.root.children_root] at hfind hc
    have hseg := (h.root_mem c hc).2.2
    have hslash : (v.node c).name ≠ [slash] := fun heq => hseg.slash_not_mem (by rw [heq]; simp)
    -- the name is a path of one segment
    have hpath : path (v.node c).name = [(v.node c).name] := by
      have hsplit := @path_spelled [(v.node c).name] (by simp) (by simpa using hseg) false false
      simpa [spelled, joinPath] using hsplit
    rw [if_pos (hcall h.root).1, (hcall h.root).2]
    unfold rootFsFinddirWith
    rw [if_neg hslash, if_pos rfl, hpath]
    simp only [hfind, findSegments]
  · rw [h.dev.children_dev] at hfind
    rw [if_pos (hcall h.dev).1, (hcall h.dev).2]
    unfold devfsFinddir
    simp only [if_true, hfind]
  · rw [hram.children_ramfs] at hfind
    have hflags : (v.node n).flags &&& FS_DIRECTORY ≠ 0 := by
      rw [hram.flags]
      decide
    rw [if_pos (hcall hram).1, (hcall hram).2]
    unfold ramfsFinddir
    simp only [if_pos hflags]
    exact congrArg Except.ok hfind

end

/-! ## Any directory

`readdir_fs` never runs out of fuel, and its answers are the names in one list: which one depends on the
callback. The navigator uses this for directories that it knows nothing else of. -/

section

variable (v : Vfs)

/-- The list that `readdir` of a node goes through. -/
def Vfs.listed (n : NodePtr) : List NodePtr :=
  match (v.node n).readdir with
  | .null => []
  | .rootFsReaddir => v.rootNodes
  | .devfsReaddir => v.devNodes
  | .ramfsReaddir => (v.node n).inode.list

/-- What a call of `readdir_fs` can return. -/
inductive ReaddirAnswer (n : NodePtr) (index : Nat) : Except Halt (Option Vfs.Dirent) → Prop where
  | entry {c : NodePtr} {d : Vfs.Dirent} (hget : (v.listed n)[index]? = some c) (hd : v.EntryOf d c) :
      ReaddirAnswer n index (.ok (some d))
  | nothing : ReaddirAnswer n index (.ok none)
  | undefined : ReaddirAnswer n index (.error .undefined)

/-- What a call on a list with a counter answers. -/
theorem listReaddir_answer {n : NodePtr} {nodes : List NodePtr} (hlisted : v.listed n = nodes)
    (files index : Nat) : ReaddirAnswer v n index (listReaddir v nodes files index) := by
  unfold listReaddir
  split
  case isTrue => exact ReaddirAnswer.nothing
  case isFalse =>
    rw [listGet_eq_getElem]
    cases hget : nodes[index]? with
    | none => exact ReaddirAnswer.undefined
    | some c =>
      simp only
      split
      case isTrue => exact ReaddirAnswer.nothing
      case isFalse => exact ReaddirAnswer.entry (by rw [hlisted, hget]) ⟨rfl, rfl⟩

/-- And on a list without one. -/
theorem ramfsReaddir_answer {n : NodePtr} (hlisted : v.listed n = (v.node n).inode.list) (index : Nat) :
    ReaddirAnswer v n index (ramfsReaddir v n index) := by
  unfold ramfsReaddir
  split
  case isTrue => exact ReaddirAnswer.nothing
  case isFalse =>
    split
    case isFalse => exact ReaddirAnswer.nothing
    case isTrue =>
      cases hinode : (v.node n).inode with
      | index i =>
        rw [Inode.asList]
        -- a file is read as a list: an index of 0 is a null pointer, another one no list
        by_cases hi : i = 0
        · rw [if_pos hi]
          exact ReaddirAnswer.undefined
        · rw [if_neg hi]
          exact ReaddirAnswer.undefined
      | nodes l =>
        simp only [Inode.asList]
        split
        case isTrue => exact ReaddirAnswer.undefined
        case isFalse =>
          rw [listGet_eq_getElem]
          cases hget : l[index]? with
          | none => exact ReaddirAnswer.nothing
          | some c => exact ReaddirAnswer.entry (by rw [hlisted, hinode]; exact hget) ⟨rfl, rfl⟩

/-- So that every call answers with an entry of the list, with none, or not at all. -/
theorem readdirFs_answer (n : NodePtr) (index : Nat) : ReaddirAnswer v n index (readdirFs v n index) := by
  unfold readdirFs
  split
  case isFalse => exact ReaddirAnswer.nothing
  case isTrue =>
    cases hreaddir : (v.node n).readdir with
    | null => exact ReaddirAnswer.nothing
    | rootFsReaddir => exact listReaddir_answer v (by unfold Vfs.listed; rw [hreaddir]) _ _
    | devfsReaddir => exact listReaddir_answer v (by unfold Vfs.listed; rw [hreaddir]) _ _
    | ramfsReaddir => exact ramfsReaddir_answer v (by unfold Vfs.listed; rw [hreaddir]) _

/-- The lookup of `readdir` needs no more fuel than two. -/
theorem readdir_fuel {fuel : Nat} (hfuel : 2 ≤ fuel) (path : CString) :
    readdir v fuel path = readdir v 2 path := by
  obtain ⟨r, hr⟩ := finddirFs_path_returns v 0 v.rootNode path
  funext dir
  unfold readdir
  rw [finddirFs_mono hr hfuel, hr]

variable {v} {path : CString}

/-- An entry that `readdir` returns, and the node that it is for. -/
theorem readdir_some {dir : Option Vfs.Dirent} {d : Vfs.Dirent} (h : readdir v 2 path dir = .ok (some d)) :
    ∃ n c, finddirFs v 2 v.rootNode path = .ok (some n) ∧ (v.listed n)[direntOffset dir]? = some c
      ∧ v.EntryOf d c ∧ d.offset = direntOffset dir + 1 := by
  unfold readdir at h
  cases hfind : finddirFs v 2 v.rootNode path with
  | error e =>
    rw [hfind] at h
    cases h
  | ok r =>
    rw [hfind] at h
    cases r with
    | none => cases h
    | some n =>
      have hanswer := readdirFs_answer v n (direntOffset dir)
      simp only at h
      generalize readdirFs v n (direntOffset dir) = answer at h hanswer
      cases hanswer with
      | entry hget hd =>
        cases h
        exact ⟨n, _, rfl, hget, hd, rfl⟩
      | nothing => cases h
      | undefined => cases h

/-- The library's `readdir` has no other way to fail. -/
theorem readdir_error {dir : Option Vfs.Dirent} {e : Halt} (h : readdir v 2 path dir = .error e) :
    e = .undefined := by
  obtain ⟨r, hr⟩ := finddirFs_path_returns v 0 v.rootNode path
  unfold readdir at h
  rw [hr] at h
  cases r with
  | none => cases h
  | some n =>
    have hanswer := readdirFs_answer v n (direntOffset dir)
    simp only at h
    generalize readdirFs v n (direntOffset dir) = answer at h hanswer
    cases hanswer with
    | entry hget hd => cases h
    | nothing => cases h
    | undefined =>
      cases h
      rfl

/-- The node of each entry stands in the list of the directory, at the position that the entry holds. -/
theorem readdir_entries {dir : Option Vfs.Dirent} {ds : List Vfs.Dirent}
    (h : Enumerates (readdir v 2 path) dir ds) : ∀ d ∈ ds, ∃ n c,
      finddirFs v 2 v.rootNode path = .ok (some n) ∧ (v.listed n)[d.offset - 1]? = some c
        ∧ v.EntryOf d c := by
  induction h with
  | nil => exact fun _ hd => nomatch hd
  | cons hnext _ ih =>
    rw [List.forall_mem_cons]
    obtain ⟨n, c, hfind, hget, hd, hoffset⟩ := readdir_some hnext
    refine ⟨⟨n, c, hfind, ?_, hd⟩, ih⟩
    rw [hoffset, Nat.add_sub_cancel]
    exact hget

/-- Every listing comes to an end, whatever the position it starts from. -/
theorem readdir_ends (path : CString) (dir : Option Vfs.Dirent) :
    (∃ ds, Enumerates (readdir v 2 path) dir ds ∧ ∃ n, ds.length ≤ (v.listed n).length)
      ∨ Fails (readdir v 2 path) .undefined dir := by
  obtain ⟨r, hr⟩ := finddirFs_path_returns v 0 v.rootNode path
  cases r with
  | none =>
    have hnext : readdir v 2 path dir = .ok none := by
      unfold readdir
      rw [hr]
    exact Or.inl ⟨[], Enumerates.nil hnext, 0, Nat.zero_le _⟩
  | some n =>
    have hnext : ∀ d e, readdir v 2 path d = .ok (some e) →
        direntOffset (some e) = direntOffset d + 1 ∧ direntOffset d < (v.listed n).length := by
      intro d e hcall
      obtain ⟨m, c, hfind, hget, _, hoffset⟩ := readdir_some hcall
      cases hr.symm.trans hfind
      exact ⟨hoffset, (List.getElem?_eq_some_iff.mp hget).1⟩
    rcases enumerates_or_fails hnext dir with ⟨ds, hds, hle⟩ | ⟨err, herr⟩
    · exact Or.inl ⟨ds, hds, n, by omega⟩
    · refine Or.inr ?_
      have hundefined : err = .undefined := by
        clear hnext
        induction herr with
        | here hcall => exact readdir_error hcall
        | later _ _ ih => exact ih
      rw [← hundefined]
      exact herr

end

/-- **Directory enumeration.** After any registrations, in the root, in `/dev` and in a directory of the
RAM disk that have children: the calls of `readdir` return an entry for each child, in the order of the
list, and then nothing; and where the names are distinct, `finddir_fs` finds the child by the name in
its entry. -/
theorem readdir_lists {v₀ v : Vfs} (h₀ : Unlisted v₀) {tr : List (Transition Vfs Registration)}
    (hrun : Run Registers (fsRoot v₀) tr v) {fuel : Nat} {path : CString} {n : NodePtr}
    (hpath : finddirFs v fuel v.rootNode path = .ok (some n)) (hn : v.Listable v₀.nextNode n)
    (hne : v.children n ≠ []) :
    ∃ ds, Enumerates (readdir v fuel path) none ds ∧ List.Forall₂ v.EntryOf ds (v.children n)
      ∧ (((v.children n).map fun c => (v.node c).name).Nodup → ∀ k,
        List.Forall₂ (fun d c => finddirFs v (k + 1) n d.name = .ok (some c)) ds (v.children n)) := by
  have h : Mounted v₀.nextNode v :=
    hrun.invariant (fsRoot_mounted h₀) fun _ _ _ hpre hstep => hpre.registers hstep
  have hnext : ∀ dir c, (v.children n)[direntOffset dir]? = some c → ∃ d,
      readdir v fuel path dir = .ok (some d) ∧ direntOffset (some d) = direntOffset dir + 1
        ∧ v.EntryOf d c := by
    intro dir c hget
    obtain ⟨d, hcall, hd⟩ := h.readdirFs_some hn hget
    refine ⟨{ d with offset := direntOffset dir + 1 }, ?_, rfl, hd⟩
    unfold readdir
    simp only [hpath, hcall]
  have hend : ∀ dir, (v.children n)[direntOffset dir]? = none →
      readdir v fuel path dir = .ok none := by
    intro dir hget
    unfold readdir
    simp only [hpath, h.readdirFs_none hn hne hget]
  obtain ⟨ds, henum, hentries⟩ := enumerates_of_index hnext hend none
  rw [direntOffset, List.drop_zero] at hentries
  refine ⟨ds, henum, hentries, fun hdistinct k => ?_⟩
  refine List.forall₂_iff_zip.mpr ⟨hentries.length_eq, fun {d c} hmem => ?_⟩
  have hentry : v.EntryOf d c := List.forall₂_zip hentries hmem
  rw [hentry.1]
  exact h.finddirFs_child hn hdistinct (List.of_mem_zip hmem).2 k

theorem bootVfs_unlisted : Unlisted bootVfs := ⟨by decide, rfl, rfl, rfl, rfl⟩

/-- `readdir("dev", ..)` after `fs_root`: an entry for each of the devices `one`, `zero` and `random`. -/
theorem readdir_lists_dev : ∃ ds, Enumerates (readdir (fsRoot bootVfs) 1 [100, 101, 118]) none ds
    ∧ List.Forall₂ (fsRoot bootVfs).EntryOf ds [3, 4, 5]
    ∧ List.Forall₂ (fun d c => finddirFs (fsRoot bootVfs) 1 2 d.name = .ok (some c)) ds [3, 4, 5] := by
  have hchildren : (fsRoot bootVfs).children 2 = [3, 4, 5] := rfl
  obtain ⟨ds, henum, hentries, hlookup⟩ := @readdir_lists bootVfs _ bootVfs_unlisted _ Run.nil 1
    [100, 101, 118] 2 rfl (Or.inr (Or.inl rfl)) (by rw [hchildren]; simp)
  rw [hchildren] at hentries hlookup
  exact ⟨ds, henum, hentries, hlookup (by decide) 0⟩

end DiyOS
