import DiyOS.Fs.Tar
import DiyOS.Fs.Vfs

/-!
# The RAM disk (`kernel/filesystem/ramfs.c`)

`ramfs` makes a node for each header of the archive and adds it to the list of the directory that
the entry's path leads to; `_ramfs_create_path` makes the directories that are missing on the way.
The array that `path` returned ends with a NULL outside its block, which the first node that is made
overwrites.

The nodes are those of the virtual file system. The archive lies in the memory `m`, in which no node
stands: the kernel writes to neither of them through the other.
-/

namespace DiyOS

open Word CString

/-- The name `ram`. -/
def ramName : CString := [114, 97, 109]

/-- `(list_t*)node->inode`, read to be followed: only 0 is a number that is a list too. -/
def Inode.asList : Inode → Except Halt (List NodePtr)
  | .index i => if i = 0 then .ok [] else .error .undefined
  | .nodes l => .ok l

/-! ## Building the tree -/

/-- A directory of the RAM disk. `inode` is 0, the empty list. -/
def ramfsDir (name : CString) : FsNode where
  name := name
  flags := FS_DIRECTORY
  inode := .nodes []
  read := .null
  readdir := .ramfsReaddir
  finddir := .ramfsFinddir

/-- A file of the RAM disk, the one of `headers[i]`. -/
def ramfsFile (name : CString) (i : Nat) : FsNode where
  name := name
  flags := FS_FILE
  inode := .index i
  read := .ramfsRead
  readdir := .null
  finddir := .null

/-- `parent->inode = list_add(parent->inode, node)`. -/
def addChild (parent node : NodePtr) (v : Vfs) : Except Halt Vfs :=
  match (v.node parent).inode.asList with
  | .error e => .error e
  | .ok l => .ok (v.setNode parent { v.node parent with inode := .nodes (listAdd l node) })

/-- The loop of `_ramfs_create_path` once it has made a directory. The header of that directory's block
stands where the NULL behind the segments stood, and the next word is 0: the last segment is walked
like the others. -/
def ramfsCreateAll (v : Vfs) (parent : NodePtr) : List CString → Except Halt (NodePtr × Vfs)
  | [] => .ok (parent, v)
  | s :: p =>
    match (v.node parent).inode.asList with
    | .error e => .error e
    | .ok l =>
      match listForeach l (findName v s) with
      | some entry => ramfsCreateAll v entry p
      | none =>
        let node := v.nextNode
        match addChild parent node (v.mallocNode (ramfsDir s)) with
        | .error e => .error e
        | .ok v => ramfsCreateAll v node p

/-- The loop of `_ramfs_create_path` over the segments but the last one, from `parent` on: the
directory they lead to. -/
def ramfsCreatePath (v : Vfs) (parent : NodePtr) : List CString → Except Halt (NodePtr × Vfs)
  | [] => .ok (parent, v)
  | [_] => .ok (parent, v)
  | s :: t :: p =>
    match (v.node parent).inode.asList with
    | .error e => .error e
    | .ok l =>
      match listForeach l (findName v s) with
      | some entry => ramfsCreatePath v entry (t :: p)
      | none =>
        let node := v.nextNode
        match addChild parent node (v.mallocNode (ramfsDir s)) with
        | .error e => .error e
        | .ok v => ramfsCreateAll v node (t :: p)

/-- One turn of the loop of `ramfs`, for `headers[i]`, which stands at `header`. `node` is the
variable's value from the turn before, which the case of an unknown type adds once more. -/
def ramfsAdd (m : Mem) (i header : Nat) (node : Option NodePtr) (v : Vfs) :
    Except Halt (Option NodePtr × Vfs) :=
  let p := path (m.cString header 4294967296)
  match ramfsCreatePath v v.ramfsRootNode p with
  | .error e => .error e
  | .ok (pNode, w) =>
    -- where a directory was made, a magic number counts as one more segment
    let s := if v.nextNode < w.nextNode then p.length + 1 else p.length
    -- the index is a `uint8_t`
    if 256 ≤ s then .error .loops
    else
      let typeflag := m (header + 156)
      if typeflag = REGTYPE ∨ typeflag = AREGTYPE then
        match p[s - 1]? with
        | none => .error .undefined
        | some name =>
          let file := w.nextNode
          match addChild pNode file (w.mallocNode (ramfsFile name i)) with
          | .error e => .error e
          | .ok v => .ok (some file, v)
      else if typeflag = DIRTYPE then
        match p[s - 1]? with
        | none => .error .undefined
        | some name =>
          match ramfsCreatePath w w.ramfsRootNode p with
          | .error e => .error e
          | .ok (pNode, v) =>
            let dir := v.nextNode
            match addChild pNode dir (v.mallocNode (ramfsDir name)) with
            | .error e => .error e
            | .ok v => .ok (some dir, v)
      else
        match node with
        | none => .error .undefined
        | some node =>
          match addChild pNode node w with
          | .error e => .error e
          | .ok v => .ok (some node, v)

/-- The loop of `ramfs`, from `headers[i]` on. -/
def ramfsLoop (m : Mem) : Nat → List Nat → Option NodePtr → Vfs → Except Halt Vfs
  | _, [], _, v => .ok v
  | i, header :: headers, node, v =>
    match ramfsAdd m i header node v with
    | .error e => .error e
    | .ok (node, v) => ramfsLoop m (i + 1) headers node v

/-- `ramfs`, with fuel for the loop of `tar_parse`. -/
def ramfs (m : Mem) (fuel address limit : Nat) (v : Vfs) : Except Halt Vfs :=
  match tarParse m fuel 0 address limit with
  | .error e => .error e
  | .ok headers =>
    let root := v.nextNode
    let v := { v.mallocNode (ramfsDir ramName) with ramfsRootNode := root, headers := headers }
    match ramfsLoop m 0 headers none v with
    | .error e => .error e
    | .ok v => .ok (fsRegister root v)

/-! ## What the loop keeps

`ramfs` allocates nodes and puts them into lists, and does nothing else. An invariant is proved for these writes
(`RamfsBuilds`), and holds after the whole loop. -/

/-- What `list_add` does to the directory. -/
theorem addChild_ok {v v' : Vfs} {d n : NodePtr} (h : addChild d n v = .ok v') :
    ∃ l, (v.node d).inode.asList = .ok l
      ∧ v' = v.setNode d { v.node d with inode := .nodes (l ++ [n]) } := by
  unfold addChild at h
  cases hlist : (v.node d).inode.asList with
  | error err =>
    rw [hlist] at h
    cases h
  | ok l =>
    rw [hlist] at h
    exact ⟨l, rfl, (Except.ok.inj h).symm⟩

/-- Every turn ends with `list_add` of the node `x` that it took or made. -/
theorem RamfsKeeps.addChild_of_turn {v v' : Vfs} {d n : NodePtr} {x node' : Option NodePtr}
    (h : (match addChild d n v with
      | .error err => .error err
      | .ok w => .ok (x, w) : Except Halt (Option NodePtr × Vfs)) = .ok (node', v')) :
    addChild d n v = .ok v' ∧ node' = x := by
  cases hadd : addChild d n v with
  | error err =>
    rw [hadd] at h
    cases h
  | ok w =>
    rw [hadd] at h
    cases h
    exact ⟨rfl, rfl⟩

theorem addChild_nextNode {v v' : Vfs} {d n : NodePtr} (h : addChild d n v = .ok v') :
    v'.nextNode = v.nextNode := by
  obtain ⟨l, _, rfl⟩ := addChild_ok h
  rfl

/-- `P` holds again after each of the writes that the loop consists of. New nodes have names that are
`named`, and the nodes that are added to lists are `allocated` before the next address. -/
structure RamfsBuilds (lo : NodePtr) (named : CString → Prop) (allocated : NodePtr → NodePtr → Prop)
    (P : Vfs → Prop) : Prop where
  new : ∀ next, lo ≤ next → allocated next (next + 1)
  mono : ∀ n next next', allocated n next → next ≤ next' → allocated n next'
  dir : ∀ v name, named name → lo ≤ v.nextNode → P v → P (v.mallocNode (ramfsDir name))
  file : ∀ v name i, named name → lo ≤ v.nextNode → P v → P (v.mallocNode (ramfsFile name i))
  child : ∀ v v' parent node, allocated node v.nextNode → addChild parent node v = .ok v' → P v → P v'

namespace RamfsBuilds

variable {P : Vfs → Prop} {lo : NodePtr} {named : CString → Prop} {allocated : NodePtr → NodePtr → Prop}
  {v v' : Vfs} {d n : NodePtr}

/-- A directory is made and added to a list. -/
theorem mkdir (hP : RamfsBuilds lo named allocated P) {s : CString} (hs : named s) (hlo : lo ≤ v.nextNode) (hv : P v)
    (hadd : addChild d v.nextNode (v.mallocNode (ramfsDir s)) = .ok v') :
    P v' ∧ v.nextNode ≤ v'.nextNode := by
  refine ⟨hP.child _ _ _ _ (hP.new _ hlo) hadd (hP.dir v s hs hlo hv), ?_⟩
  rw [addChild_nextNode hadd]
  exact Nat.le_succ _

/-- The directories that are missing from here on. -/
theorem createAll (hP : RamfsBuilds lo named allocated P) {p : List CString} (hp : ∀ s ∈ p, named s)
    (hlo : lo ≤ v.nextNode) (hv : P v) (h : ramfsCreateAll v d p = .ok (n, v')) :
    P v' ∧ v.nextNode ≤ v'.nextNode := by
  induction p generalizing v d with
  | nil =>
    rw [ramfsCreateAll] at h
    cases h
    exact ⟨hv, Nat.le_refl _⟩
  | cons s p ih =>
    rw [List.forall_mem_cons] at hp
    rw [ramfsCreateAll] at h
    cases hlist : (v.node d).inode.asList with
    | error err =>
      rw [hlist] at h
      cases h
    | ok l =>
      rw [hlist] at h
      -- a directory that is there is gone into, another one is made
      cases hfind : listForeach l (findName v s) with
      | some c =>
        simp only [hfind] at h
        exact ih hp.2 hlo hv h
      | none =>
        simp only [hfind] at h
        cases hadd : addChild d v.nextNode (v.mallocNode (ramfsDir s)) with
        | error err =>
          rw [hadd] at h
          cases h
        | ok w =>
          rw [hadd] at h
          obtain ⟨hw, hnext⟩ := hP.mkdir hp.1 hlo hv hadd
          obtain ⟨hv', hle⟩ := ih hp.2 (Nat.le_trans hlo hnext) hw h
          exact ⟨hv', Nat.le_trans hnext hle⟩

/-- The directories in front of the last name. -/
theorem createPath (hP : RamfsBuilds lo named allocated P) {p : List CString} (hp : ∀ s ∈ p, named s)
    (hlo : lo ≤ v.nextNode) (hv : P v) (h : ramfsCreatePath v d p = .ok (n, v')) :
    P v' ∧ v.nextNode ≤ v'.nextNode := by
  induction p generalizing v d with
  | nil =>
    rw [ramfsCreatePath] at h
    cases h
    exact ⟨hv, Nat.le_refl _⟩
  | cons s p ih =>
    cases p with
    | nil =>
      rw [ramfsCreatePath] at h
      cases h
      exact ⟨hv, Nat.le_refl _⟩
    | cons t p =>
      rw [List.forall_mem_cons] at hp
      rw [ramfsCreatePath] at h
      cases hlist : (v.node d).inode.asList with
      | error err =>
        rw [hlist] at h
        cases h
      | ok l =>
        rw [hlist] at h
        cases hfind : listForeach l (findName v s) with
        | some c =>
          simp only [hfind] at h
          exact ih hp.2 hlo hv h
        | none =>
          -- a directory that was missing is made
          simp only [hfind] at h
          cases hadd : addChild d v.nextNode (v.mallocNode (ramfsDir s)) with
          | error err =>
            rw [hadd] at h
            cases h
          | ok w =>
            rw [hadd] at h
            obtain ⟨hw, hnext⟩ := hP.mkdir hp.1 hlo hv hadd
            obtain ⟨hv', hle⟩ := hP.createAll hp.2 (Nat.le_trans hlo hnext) hw h
            exact ⟨hv', Nat.le_trans hnext hle⟩

/-- One turn of the loop. -/
theorem turn (hP : RamfsBuilds lo named allocated P) {m : Mem} {i header : Nat}
    {node node' : Option NodePtr} (hnames : ∀ s ∈ path (m.cString header 4294967296), named s)
    (hlo : lo ≤ v.nextNode) (hnode : ∀ n ∈ node, allocated n v.nextNode) (hv : P v)
    (h : ramfsAdd m i header node v = .ok (node', v')) :
    P v' ∧ v.nextNode ≤ v'.nextNode ∧ ∀ n ∈ node', allocated n v'.nextNode := by
  unfold ramfsAdd at h
  generalize path (m.cString header 4294967296) = p at h hnames
  cases hcreate : ramfsCreatePath v v.ramfsRootNode p with
  | error err =>
    simp only [hcreate] at h
    cases h
  | ok created =>
    rcases created with ⟨d, w⟩
    obtain ⟨hw, hle⟩ := hP.createPath hnames hlo hv hcreate
    -- a node made for the header, at the next address of `x`, and added to a list
    have hmade : ∀ {x : Vfs} {d : NodePtr} {rec : FsNode}, v.nextNode ≤ x.nextNode → P (x.mallocNode rec) →
        addChild d x.nextNode (x.mallocNode rec) = .ok v' ∧ node' = some x.nextNode →
        P v' ∧ v.nextNode ≤ v'.nextNode ∧ ∀ n ∈ node', allocated n v'.nextNode := by
      rintro x d rec hx hnew ⟨hadd, rfl⟩
      have hnext : v'.nextNode = x.nextNode + 1 := addChild_nextNode hadd
      have hallocated := hP.new x.nextNode (Nat.le_trans hlo hx)
      refine ⟨hP.child _ _ _ _ hallocated hadd hnew, ?_, ?_⟩
      · rw [hnext]
        exact Nat.le_succ_of_le hx
      · rintro n ⟨⟩
        rw [hnext]
        exact hallocated
    simp only [hcreate] at h
    generalize (if v.nextNode < w.nextNode then p.length + 1 else p.length) = s at h
    split at h
    · cases h
    split at h
    · cases hname : p[s - 1]? with
      | none =>
        simp only [hname] at h
        cases h
      | some name =>
        simp only [hname] at h
        have hnamed := hnames name (List.mem_of_getElem? hname)
        exact hmade hle (hP.file w _ _ hnamed (Nat.le_trans hlo hle) hw) (RamfsKeeps.addChild_of_turn h)
    split at h
    · -- a directory: the path is searched once more
      cases hname : p[s - 1]? with
      | none =>
        simp only [hname] at h
        cases h
      | some name =>
        cases hagain : ramfsCreatePath w w.ramfsRootNode p with
        | error err =>
          simp only [hname, hagain] at h
          cases h
        | ok again =>
          rcases again with ⟨d', w'⟩
          simp only [hname, hagain] at h
          have hnamed := hnames name (List.mem_of_getElem? hname)
          obtain ⟨hw', hle'⟩ := hP.createPath hnames (Nat.le_trans hlo hle) hw hagain
          have hall := Nat.le_trans hle hle'
          exact hmade hall (hP.dir w' _ hnamed (Nat.le_trans hlo hall) hw') (RamfsKeeps.addChild_of_turn h)
    · cases node with
      | none => cases h
      | some n =>
        obtain ⟨hadd, rfl⟩ := RamfsKeeps.addChild_of_turn h
        have hallocated := hP.mono _ _ _ (hnode n rfl) hle
        have hnext := addChild_nextNode hadd
        rw [hnext]
        refine ⟨hP.child _ _ _ _ hallocated hadd hw, hle, ?_⟩
        rintro n' ⟨⟩
        exact hallocated

theorem loop (hP : RamfsBuilds lo named allocated P) {m : Mem}
    (hnames : ∀ header, ∀ s ∈ path (m.cString header 4294967296), named s) {headers : List Nat} {i : Nat}
    {node : Option NodePtr} (hlo : lo ≤ v.nextNode) (hnode : ∀ n ∈ node, allocated n v.nextNode) (hv : P v)
    (h : ramfsLoop m i headers node v = .ok v') : P v' := by
  induction headers generalizing v i node with
  | nil =>
    rw [ramfsLoop] at h
    cases h
    exact hv
  | cons header headers ih =>
    rw [ramfsLoop] at h
    cases hturn : ramfsAdd m i header node v with
    | error err =>
      rw [hturn] at h
      cases h
    | ok next =>
      rw [hturn] at h
      obtain ⟨hv', hle, hnode'⟩ := hP.turn (hnames header) hlo hnode hv hturn
      exact ih (Nat.le_trans hlo hle) hnode' hv' h

end RamfsBuilds

/-- The same for a `P` that does not depend on the names and the nodes. -/
structure RamfsKeeps (P : Vfs → Prop) : Prop where
  dir : ∀ v name, P v → P (v.mallocNode (ramfsDir name))
  file : ∀ v name i, P v → P (v.mallocNode (ramfsFile name i))
  child : ∀ v v' parent node, addChild parent node v = .ok v' → P v → P v'

namespace RamfsKeeps

variable {P : Vfs → Prop} {v v' : Vfs}

theorem builds (hP : RamfsKeeps P) : RamfsBuilds 0 (fun _ => True) (fun _ _ => True) P where
  new _ _ := trivial
  mono _ _ _ _ _ := trivial
  dir v name _ _ := hP.dir v name
  file v name i _ _ := hP.file v name i
  child v v' parent node _ := hP.child v v' parent node

/-- One turn of the loop, for these. -/
theorem turn (hP : RamfsKeeps P) {m : Mem} {i header : Nat} {node node' : Option NodePtr} (hv : P v)
    (h : ramfsAdd m i header node v = .ok (node', v')) : P v' :=
  (hP.builds.turn (fun _ _ => trivial) (Nat.zero_le _) (fun _ _ => trivial) hv h).1

theorem loop (hP : RamfsKeeps P) {m : Mem} {headers : List Nat} {i : Nat} {node : Option NodePtr}
    (hv : P v) (h : ramfsLoop m i headers node v = .ok v') : P v' :=
  hP.builds.loop (fun _ _ _ => trivial) (Nat.zero_le _) (fun _ _ => trivial) hv h

end RamfsKeeps

/-! ## Reading a file -/

/-- `ramfs_read`: the number of bytes, and what it copies to the buffer. The copy starts at the
first byte of the file, whatever `offset` is. -/
def ramfsRead (m : Mem) (v : Vfs) (node : NodePtr) (offset size : Nat) :
    Except Halt (Nat × List UInt8) :=
  match (v.node node).inode with
  | .nodes _ => .error .undefined
  | .index i =>
    match v.headers[i]? with
    | none => .error .undefined
    | some header =>
      let fileSz := tarGetsize m (header + 124)
      if offset > fileSz then .ok (0, [])
      else
        let size := if u32 (offset + size) > fileSz then sub32 fileSz offset else size
        .ok (size, m.bytes (header + 512) size)

/-- `read_fs`, where the callback is `ramfs_read`; what a device gives is left out. -/
def readFs (m : Mem) (v : Vfs) (node : NodePtr) (offset size : Nat) :
    Except Halt (Option (Nat × List UInt8)) :=
  match (v.node node).read with
  | .null => .ok (some (0, []))
  | .ramfsRead =>
    match ramfsRead m v node offset size with
    | .error e => .error e
    | .ok r => .ok (some r)
  | .device => .ok none

end DiyOS
