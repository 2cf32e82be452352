import DiyOS.Basic
import DiyOS.LinkedList
import DiyOS.Fs.Path

/-!
# The virtual file system (`kernel/filesystem/fs.c`, `fs_root.c`, `devfs.c`, `ramfs.c`)

The nodes, the lists that hold them, and the three `finddir` callbacks. The lists' entries lie in the
32-bit memory, so that what counts them does not wrap. `finddir_fs` calls the
callback of a node, and the root's callback calls `finddir_fs` for each segment of a path, so that
the two are recursive; fuel counts the calls of `finddir_fs` in each other.
-/

namespace DiyOS

open CString

abbrev NodePtr := Nat

def FS_FILE : Nat := 1
def FS_DIRECTORY : Nat := 2

/-- The callbacks that `finddir` can hold; `null` is 0. -/
inductive FinddirType where
  | null
  | rootFsFinddir
  | devfsFinddir
  | ramfsFinddir
  deriving DecidableEq

/-- The callbacks that `readdir` can hold. -/
inductive ReaddirType where
  | null
  | rootFsReaddir
  | devfsReaddir
  | ramfsReaddir
  deriving DecidableEq

/-- The callbacks that `read` can hold: 0, `ramfs_read`, or one of a device, which is left out. -/
inductive ReadType where
  | null
  | ramfsRead
  | device
  deriving DecidableEq

/-- The field `inode`: a number, or in a directory of the RAM disk the list of its nodes, which is
empty where the pointer is null. -/
inductive Inode where
  | index (i : Nat)
  | nodes (l : List NodePtr)
  deriving DecidableEq

/-- `(list_t*)node->inode`. -/
def Inode.list : Inode → List NodePtr
  | .index _ => []
  | .nodes l => l

/-- `fs_node_t`, the fields that lookups, listings and reads use. -/
structure FsNode where
  name : CString
  flags : Nat
  inode : Inode
  read : ReadType
  readdir : ReaddirType
  finddir : FinddirType

/-- The nodes in memory and the globals that lead to them. -/
structure Vfs where
  node : NodePtr → FsNode
  /-- The address that `malloc` gives to the next node: above all that it gave before. -/
  nextNode : NodePtr
  rootNodes : List NodePtr
  rootFiles : Nat
  rootNode : NodePtr
  devNodes : List NodePtr
  devFiles : Nat
  devfsRootNode : NodePtr
  ramfsRootNode : NodePtr
  /-- The addresses of the tar headers, `headers[0]`, …, `headers[files - 1]`. -/
  headers : List Nat

namespace Vfs

/-- `v` with the record `r` at `n`. -/
def setNode (v : Vfs) (n : NodePtr) (r : FsNode) : Vfs :=
  { v with node := Function.update v.node n r }

/-- `v` after `malloc` of a node that is filled in with `r`. -/
def mallocNode (v : Vfs) (r : FsNode) : Vfs :=
  { v.setNode v.nextNode r with nextNode := v.nextNode + 1 }

@[simp] theorem setNode_node_self (v : Vfs) (n : NodePtr) (r : FsNode) :
    (v.setNode n r).node n = r := Function.update_self _ _ _

theorem setNode_node_of_ne (v : Vfs) {n m : NodePtr} (r : FsNode) (h : m ≠ n) :
    (v.setNode n r).node m = v.node m := Function.update_of_ne h _ _

@[simp] theorem mallocNode_node_self (v : Vfs) (r : FsNode) :
    (v.mallocNode r).node v.nextNode = r := Function.update_self _ _ _

/-- A new node leaves the older ones. -/
theorem mallocNode_node_of_lt (v : Vfs) {m : NodePtr} (r : FsNode) (h : m < v.nextNode) :
    (v.mallocNode r).node m = v.node m := Function.update_of_ne (Nat.ne_of_lt h) _ _

end Vfs

/-! ## `finddir`

A path is searched name by name, and each directory has its own function for it. -/

/-- `_fs_find`, `_devfs_find` and `_find_name`, which are the same function: false on the entry with
the name. -/
def findName (v : Vfs) (name : CString) (entry : NodePtr) : Bool :=
  if (v.node entry).name = name then false else true

def devfsFinddir (v : Vfs) (node : NodePtr) (name : CString) : Option NodePtr :=
  if node = v.devfsRootNode then listForeach v.devNodes (findName v name) else none

def ramfsFinddir (v : Vfs) (node : NodePtr) (name : CString) : Option NodePtr :=
  if (v.node node).flags &&& FS_DIRECTORY ≠ 0 then
    listForeach (v.node node).inode.list (findName v name)
  else none

/-- The loop of `root_fs_finddir` over the segments after the first one. -/
def findSegments (finddir : NodePtr → CString → Except Halt (Option NodePtr)) :
    NodePtr → List CString → Except Halt (Option NodePtr)
  | node, [] => .ok (some node)
  | node, s :: segs =>
    match finddir node s with
    | .error e => .error e
    | .ok none => .ok none
    | .ok (some node) => findSegments finddir node segs

/-- `root_fs_finddir`, with the `finddir_fs` it calls. -/
def rootFsFinddirWith (v : Vfs) (finddir : NodePtr → CString → Except Halt (Option NodePtr))
    (node : NodePtr) (name : CString) : Except Halt (Option NodePtr) :=
  if name = [slash] then .ok (some v.rootNode)
  else if node = v.rootNode then
    match path name with
    | [] => .ok none
    | s :: segs =>
      match listForeach v.rootNodes (findName v s) with
      | none => .ok none
      | some entry => findSegments finddir entry segs
  else .ok none

def finddirFs (v : Vfs) : Nat → NodePtr → CString → Except Halt (Option NodePtr)
  | 0, _, _ => .error .loops
  | fuel + 1, node, name =>
    if (v.node node).flags &&& 7 = FS_DIRECTORY then
      match (v.node node).finddir with
      | .null => .ok none
      | .rootFsFinddir => rootFsFinddirWith v (finddirFs v fuel) node name
      | .devfsFinddir => .ok (devfsFinddir v node name)
      | .ramfsFinddir => .ok (ramfsFinddir v node name)
    else .ok none

def rootFsFinddir (v : Vfs) (fuel : Nat) (node : NodePtr) (name : CString) :
    Except Halt (Option NodePtr) :=
  rootFsFinddirWith v (finddirFs v fuel) node name

/-! ## The root, `/dev` and its devices

The root is a list of nodes that file systems are registered in. `/dev` gives its devices as `dev_register` has
left them. -/

def fsRegister (node : NodePtr) (v : Vfs) : Vfs :=
  { v with rootNodes := listAdd v.rootNodes node, rootFiles := v.rootFiles + 1 }

def devfsRegister (node : NodePtr) (v : Vfs) : Vfs :=
  { v with devNodes := listAdd v.devNodes node, devFiles := v.devFiles + 1 }

/-- A device's node, registered; `inode` keeps what was in memory. -/
def devNode (name : CString) (v : Vfs) : Vfs :=
  devfsRegister v.nextNode (v.mallocNode
    { v.node v.nextNode with
      name := name, flags := FS_FILE, read := .device, readdir := .null, finddir := .null })

/-- The name `one`. -/
def devOne : Vfs → Vfs := devNode [111, 110, 101]

/-- The name `zero`. -/
def devZero : Vfs → Vfs := devNode [122, 101, 114, 111]

/-- The name `random`. -/
def devRand : Vfs → Vfs := devNode [114, 97, 110, 100, 111, 109]

/-- `devfs`: the directory `dev` and its first devices. -/
def devfs (v : Vfs) : Vfs :=
  let n := v.nextNode
  let v := { v.mallocNode { v.node n with
      name := [100, 101, 118], flags := FS_DIRECTORY, read := .null, readdir := .devfsReaddir,
      finddir := .devfsFinddir } with
    devfsRootNode := n }
  fsRegister n (devRand (devZero (devOne v)))

/-- `fs_root`. -/
def fsRoot (v : Vfs) : Vfs :=
  let n := v.nextNode
  devfs { v.mallocNode { v.node n with
      name := [slash], flags := FS_DIRECTORY, read := .null, readdir := .rootFsReaddir,
      finddir := .rootFsFinddir } with
    rootNode := n }

/-- The initial values of the globals. The memory is zero. -/
def bootVfs : Vfs where
  node _ := ⟨[], 0, .index 0, .null, .null, .null⟩
  nextNode := 1
  rootNodes := []
  rootFiles := 0
  rootNode := null
  devNodes := []
  devFiles := 0
  devfsRootNode := null
  ramfsRootNode := null
  headers := []

end DiyOS
