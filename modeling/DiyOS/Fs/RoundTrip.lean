import DiyOS.Fs.Read
import DiyOS.Fs.Resolve
import DiyOS.Lib.PathTree

/-!
# The RAM disk holds its archive

The directories and files of the RAM disk are a tree of named nodes, kept in creation order
(`PathTree`): the root `/ram` first, then one node for each entry of the archive.

* **`Represents`** — the records in memory are those of the tree: a directory's list has its children,
  in order, and a file has the number of its header.
* **`ramfsAdd_represents`** — one turn of the loop of `ramfs` adds the entry to the tree.
* **`ramfs_represents`** — after `ramfs`, the tree of the whole archive is in memory.
* **`ramfs_roundTrip`** — lookups and reads then give the archive back.
-/

namespace DiyOS

open Word CString

/-! ## The tree in memory

`Represents` ties the records of the nodes to a tree of paths: each node has a record at its address, with the
children in the order in which they were added. -/

/-- What the tree holds at a node: its address, and the number of its header. -/
structure RamVal where
  ptr : NodePtr
  index : Nat

abbrev RamNode := PathTree.Node CString RamVal

/-- The name of the node at a path; the root is `ram`. -/
def nodeName (p : List CString) : CString := p.getLast?.getD ramName

/-- The record of a node of the tree `t`. -/
def ramRecord (t : List RamNode) (n : RamNode) : FsNode :=
  if n.dir then
    { ramfsDir (nodeName n.path) with
      inode := .nodes ((PathTree.children t n.path).map fun c => c.val.ptr) }
  else ramfsFile (nodeName n.path) n.val.index

/-- The tree `t` stands in memory from the address `r` on, where its root is. -/
structure Represents (r : NodePtr) (v : Vfs) (t : List RamNode) : Prop where
  wellFormed : PathTree.WellFormed t
  root : ⟨[], true, ⟨r, 0⟩⟩ ∈ t
  ramfsRoot : v.ramfsRootNode = r
  record : ∀ n ∈ t, v.node n.val.ptr = ramRecord t n
  ptr_ge : ∀ n ∈ t, r ≤ n.val.ptr
  ptr_lt : ∀ n ∈ t, n.val.ptr < v.nextNode
  ptr_inj : ∀ n ∈ t, ∀ n' ∈ t, n.val.ptr = n'.val.ptr → n = n'

/-- What building the tree leaves alone: the older nodes, and the other globals. -/
structure SameBelow (r : NodePtr) (v v' : Vfs) : Prop where
  node : ∀ n < r, v'.node n = v.node n
  rootNodes : v'.rootNodes = v.rootNodes
  rootNode : v'.rootNode = v.rootNode
  headers : v'.headers = v.headers

theorem SameBelow.refl (r : NodePtr) (v : Vfs) : SameBelow r v v := ⟨fun _ _ => rfl, rfl, rfl, rfl⟩

theorem SameBelow.trans {r : NodePtr} {v v' v'' : Vfs} (h : SameBelow r v v')
    (h' : SameBelow r v' v'') : SameBelow r v v'' where
  node n hn := (h'.node n hn).trans (h.node n hn)
  rootNodes := h'.rootNodes.trans h.rootNodes
  rootNode := h'.rootNode.trans h.rootNode
  headers := h'.headers.trans h.headers

section

variable {r : NodePtr} {v : Vfs} {t : List RamNode} {n : RamNode}

theorem ramRecord_name (t : List RamNode) (n : RamNode) : (ramRecord t n).name = nodeName n.path := by
  unfold ramRecord
  split <;> rfl

theorem ramRecord_dir (t : List RamNode) (h : n.dir = true) :
    ramRecord t n = { ramfsDir (nodeName n.path) with
      inode := .nodes ((PathTree.children t n.path).map fun c => c.val.ptr) } := if_pos h

theorem ramRecord_file (t : List RamNode) (h : n.dir = false) :
    ramRecord t n = ramfsFile (nodeName n.path) n.val.index := if_neg (by simp [h])

theorem nodeName_concat (p : List CString) (s : CString) : nodeName (p ++ [s]) = s := by
  unfold nodeName
  rw [List.getLast?_concat]
  rfl

theorem dropLast_append_nodeName {p : List CString} (hne : p ≠ []) : p.dropLast ++ [nodeName p] = p := by
  unfold nodeName
  rw [List.getLast?_eq_some_getLast hne, Option.getD_some]
  exact List.dropLast_append_getLast hne

/-- The child that a search by name finds is the node at the longer path. -/
theorem Represents.find_some (h : Represents r v t) {p : List CString} {s : CString} {x : NodePtr} :
    listForeach ((PathTree.children t p).map fun c => c.val.ptr) (findName v s) = some x
      ↔ ∃ c ∈ t, c.path = p ++ [s] ∧ c.val.ptr = x := by
  have hname : ∀ c ∈ PathTree.children t p, (v.node c.val.ptr).name = s ↔ c.path = p ++ [s] := by
    intro c hc
    rcases PathTree.mem_children.mp hc with ⟨hmem, hne, hparent⟩
    rw [h.record c hmem, ramRecord_name]
    refine ⟨?_, ?_⟩
    · intro heq
      have hsplit := List.dropLast_append_getLast hne
      rw [← hsplit, hparent, nodeName_concat] at heq
      rw [← hsplit, hparent, heq]
    · intro heq
      rw [heq, nodeName_concat]
  have hfirst : ∀ y, listForeach ((PathTree.children t p).map fun c => c.val.ptr) (findName v s) = some y
      → ∃ c ∈ t, c.path = p ++ [s] ∧ c.val.ptr = y := by
    intro y hfind
    rcases listForeach_findName_some.mp hfind with ⟨before, after, hsplit, hy, _⟩
    have hmem : y ∈ (PathTree.children t p).map fun c => c.val.ptr := by
      rw [hsplit]
      simp
    rcases List.mem_map.mp hmem with ⟨c, hc, rfl⟩
    exact ⟨c, (PathTree.mem_children.mp hc).1, (hname c hc).mp hy, rfl⟩
  refine ⟨hfirst x, ?_⟩
  rintro ⟨c, hc, hpath, rfl⟩
  have hchild := (PathTree.child_of_path_eq hc hpath).1
  cases hfind : listForeach ((PathTree.children t p).map fun c => c.val.ptr) (findName v s) with
  | none =>
    have hnone := listForeach_findName_none.mp hfind c.val.ptr (List.mem_map_of_mem hchild)
    exact absurd ((hname c hchild).mpr hpath) hnone
  | some y =>
    -- no other child has the path
    rcases hfirst y hfind with ⟨c', hc', hpath', rfl⟩
    rw [h.wellFormed.eq_of_path hc hc' (hpath.trans hpath'.symm)]

/-! ## Adding a node

A new node gets the next address and goes to the end of its directory's list. Nothing else changes below the root
of the RAM disk. -/

/-- `_ramfs_create_path` finds every directory on the way, and makes none. -/
theorem Represents.createPath (h : Represents r v t) {q : List CString} {d : RamNode} (hn : n ∈ t)
    (hreach : PathTree.Reaches t n q d) (x : CString) :
    ramfsCreatePath v n.val.ptr (q ++ [x]) = .ok (d.val.ptr, v) := by
  induction hreach with
  | nil n => rfl
  | @cons n c d s q hdir hc hname _ ih =>
    have hpath := PathTree.path_eq_of_child hc hname
    have hmem := (PathTree.mem_children.mp hc).1
    have hfind := h.find_some.mpr ⟨c, hmem, hpath, rfl⟩
    have hlist : (v.node n.val.ptr).inode.asList
        = .ok ((PathTree.children t n.path).map fun c => c.val.ptr) := by
      rw [h.record n hn, ramRecord_dir t hdir]
      rfl
    obtain ⟨y, rest, hrest⟩ := List.exists_cons_of_ne_nil (List.append_ne_nil_of_right_ne_nil q
      (List.cons_ne_nil x []))
    have hnext := ih hmem
    rw [hrest] at hnext
    rw [List.cons_append, hrest, ramfsCreatePath, hlist]
    simp only [hfind]
    exact hnext

/-- The memory in which the node `n` was made and added to its directory `d`. -/
def grow (v : Vfs) (t : List RamNode) (d n : RamNode) : Vfs :=
  (v.mallocNode (ramRecord [] n)).setNode d.val.ptr
    { ramRecord t d with
      inode := .nodes (listAdd ((PathTree.children t d.path).map fun c => c.val.ptr) v.nextNode) }

/-- The directory of a new node: which, with the node, stands in the tree but not in a list yet. -/
structure Grows (v : Vfs) (t : List RamNode) (d n : RamNode) : Prop where
  mem : d ∈ t
  dir : d.dir = true
  ptr : n.val.ptr = v.nextNode
  ne_nil : n.path ≠ []
  parent : n.path.dropLast = d.path
  fresh : n.path ∉ t.map PathTree.Node.path

variable {d : RamNode}

/-- `list_add` gives the grown tree. -/
theorem Grows.addChild (hn : Grows v t d n) (h : Represents r v t) :
    addChild d.val.ptr v.nextNode (v.mallocNode (ramRecord [] n)) = .ok (grow v t d n) := by
  have hrecord : (v.mallocNode (ramRecord [] n)).node d.val.ptr = ramRecord t d := by
    rw [Vfs.mallocNode_node_of_lt v _ (h.ptr_lt d hn.mem), h.record d hn.mem]
  have hlist : (ramRecord t d).inode.asList
      = .ok ((PathTree.children t d.path).map fun c => c.val.ptr) := by
    rw [ramRecord_dir t hn.dir]
    rfl
  unfold DiyOS.addChild grow
  rw [hrecord, hlist]

/-- Nothing lies under the new node yet. -/
theorem Grows.leaf (hn : Grows v t d n) (h : Represents r v t) :
    PathTree.children (t ++ [n]) n.path = [] := by
  have hnone : PathTree.children t n.path = [] := by
    refine List.filter_eq_nil_iff.mpr fun c hc hunder => ?_
    rcases of_decide_eq_true hunder with ⟨hne, hparent⟩
    rcases h.wellFormed.closed c hc hne with ⟨e, he, _, hpath⟩
    exact hn.fresh (List.mem_map.mpr ⟨e, he, hpath.trans hparent⟩)
  have hself : ¬ PathTree.Under n.path n := by
    intro hunder
    have hlength := congrArg List.length hunder.2
    have hpos := List.length_pos_iff.mpr hn.ne_nil
    rw [List.length_dropLast] at hlength
    omega
  rw [PathTree.children_snoc, hnone, if_neg hself]
  rfl

/-- Every node has its record in the memory that has grown. -/
theorem Grows.record (hn : Grows v t d n) (h : Represents r v t) {c : RamNode} (hc : c ∈ t ++ [n]) :
    (grow v t d n).node c.val.ptr = ramRecord (t ++ [n]) c := by
  unfold grow
  rcases List.mem_append.mp hc with hold | hlast
  · by_cases heq : c = d
    · -- the directory: the new node is its last child
      subst heq
      have hunder : PathTree.Under c.path n := ⟨hn.ne_nil, hn.parent⟩
      rw [Vfs.setNode_node_self, ramRecord_dir t hn.dir, ramRecord_dir _ hn.dir,
        PathTree.children_snoc, if_pos hunder, List.map_append, List.map_singleton, hn.ptr]
      rfl
    · have hptr : c.val.ptr ≠ d.val.ptr := fun hp => heq (h.ptr_inj c hold d hn.mem hp)
      have hunder : ¬ PathTree.Under c.path n := by
        intro hu
        exact heq (h.wellFormed.eq_of_path hold hn.mem (hu.2.symm.trans hn.parent))
      rw [Vfs.setNode_node_of_ne _ _ hptr, Vfs.mallocNode_node_of_lt v _ (h.ptr_lt c hold),
        h.record c hold]
      unfold ramRecord
      rw [PathTree.children_snoc, if_neg hunder, List.append_nil]
  · obtain rfl := List.mem_singleton.mp hlast
    have hptr : v.nextNode ≠ d.val.ptr := Nat.ne_of_gt (h.ptr_lt d hn.mem)
    rw [hn.ptr, Vfs.setNode_node_of_ne _ _ hptr, Vfs.mallocNode_node_self]
    unfold ramRecord
    rw [hn.leaf h]
    rfl

/-- **A node added to its directory** is added to the tree. -/
theorem Grows.represents (hn : Grows v t d n) (h : Represents r v t) :
    Represents r (grow v t d n) (t ++ [n]) where
  wellFormed := h.wellFormed.snoc hn.fresh ⟨d, hn.mem, hn.dir, hn.parent.symm⟩
  root := List.mem_append_left _ h.root
  ramfsRoot := h.ramfsRoot
  record _ hc := hn.record h hc
  ptr_ge c hc := by
    rcases List.mem_append.mp hc with hold | hlast
    · exact h.ptr_ge c hold
    · rw [List.mem_singleton.mp hlast, hn.ptr]
      exact Nat.le_of_lt (h.ptr_lt _ h.root)
  ptr_lt c hc := by
    show c.val.ptr < v.nextNode + 1
    rcases List.mem_append.mp hc with hold | hlast
    · exact Nat.lt_succ_of_lt (h.ptr_lt c hold)
    · rw [List.mem_singleton.mp hlast, hn.ptr]
      exact Nat.lt_succ_self _
  ptr_inj c hc c' hc' heq := by
    -- the new node lies behind all others
    have hne : ∀ b ∈ t, b.val.ptr ≠ n.val.ptr := by
      intro b hb
      rw [hn.ptr]
      exact Nat.ne_of_lt (h.ptr_lt b hb)
    rcases List.mem_append.mp hc with hold | hlast
    · rcases List.mem_append.mp hc' with hold' | hlast'
      · exact h.ptr_inj c hold c' hold' heq
      · rw [List.mem_singleton.mp hlast'] at heq
        exact absurd heq (hne c hold)
    · rcases List.mem_append.mp hc' with hold' | hlast'
      · rw [List.mem_singleton.mp hlast] at heq
        exact absurd heq.symm (hne c' hold')
      · rw [List.mem_singleton.mp hlast, List.mem_singleton.mp hlast']

theorem Grows.sameBelow (hn : Grows v t d n) (h : Represents r v t) :
    SameBelow r v (grow v t d n) := by
  refine ⟨?_, rfl, rfl, rfl⟩
  intro k hk
  have hkd : k ≠ d.val.ptr := Nat.ne_of_lt (Nat.lt_of_lt_of_le hk (h.ptr_ge d hn.mem))
  have hknew : k < v.nextNode := Nat.lt_trans hk (h.ptr_lt _ h.root)
  unfold grow
  rw [Vfs.setNode_node_of_ne _ _ hkd, Vfs.mallocNode_node_of_lt v _ hknew]

/-! ## The loop over the archive

The directory of an entry stands before it in the archive, so that `ramfs_create_path` finds it and makes none. -/

/-- The node of the entry `e`, made at `k` for `headers[i]`. -/
def entryNode (k i : Nat) (e : TarEntry) : RamNode := ⟨e.segs, e.isDir, ⟨k, i⟩⟩

/-- The nodes of consecutive entries. -/
def entryNodes : Nat → Nat → List TarEntry → List RamNode
  | _, _, [] => []
  | k, i, e :: es => entryNode k i e :: entryNodes (k + 1) (i + 1) es

/-- Joined segments are at least as long as there are segments. -/
theorem length_le_joinPath {segs : List CString} (hsegs : ∀ s ∈ segs, IsSegment s) :
    segs.length ≤ (joinPath segs).length := by
  induction segs with
  | nil => exact Nat.zero_le _
  | cons s segs ih =>
    have hs := List.length_pos_iff.mpr (hsegs s List.mem_cons_self).ne_nil
    have hrest := ih fun u hu => hsegs u (List.mem_cons_of_mem _ hu)
    by_cases hlast : segs = []
    · subst hlast
      have hjoin : joinPath [s] = s := List.intercalate_singleton
      rw [hjoin]
      exact hs
    · rw [joinPath_cons hlast, List.length_append, List.length_cons, List.length_cons]
      omega

theorem TarEntry.Named.length_lt {e : TarEntry} (he : e.Named) : e.segs.length < 100 := by
  have hjoin := length_le_joinPath he.segments
  have hname := he.name_lt
  unfold TarEntry.name spelled at hname
  rw [List.length_append, List.length_append] at hname
  omega

/-- The header's name, and the segments it splits into. -/
theorem HeaderAt.path_eq {m : Mem} {a : Nat} {e : TarEntry} (h : HeaderAt m a e) (he : e.Named) :
    path (m.cString a 4294967296) = e.segs := by
  have hlt : e.name.length < 4294967296 := Nat.lt_trans he.name_lt (by decide)
  rw [Mem.cString_eq he.zero_not_mem hlt h.name_bytes]
  exact path_spelled he.ne_nil he.segments false e.trailing

/-- The record of an entry's node when it is made. -/
def TarEntry.record (e : TarEntry) (i : Nat) : FsNode :=
  if e.isDir then ramfsDir (nodeName e.segs) else ramfsFile (nodeName e.segs) i

theorem ramRecord_entryNode (k i : Nat) (e : TarEntry) :
    ramRecord [] (entryNode k i e) = e.record i := by
  unfold TarEntry.record
  cases hdir : e.isDir with
  | true => exact ramRecord_dir [] hdir
  | false => exact ramRecord_file [] hdir

section Turn

variable {m : Mem} {i a : Nat} {e : TarEntry} {p : NodePtr}

/-- The last segment, as the loop finds it. -/
theorem getElem?_last_eq {segs : List CString} (hne : segs ≠ []) :
    segs[segs.length - 1]? = some (nodeName segs) := by
  unfold nodeName
  rw [← List.getLast?_eq_getElem?, List.getLast?_eq_some_getLast hne]
  rfl

/-- What a turn does for an entry whose directory `p` exists: it makes a node and adds it there. -/
theorem ramfsAdd_supported (hheader : HeaderAt m a e) (he : e.Named) (hsupported : e.Supported)
    (hcreate : ramfsCreatePath v v.ramfsRootNode e.segs = .ok (p, v)) (node : Option NodePtr) :
    ramfsAdd m i a node v
      = match addChild p v.nextNode (v.mallocNode (e.record i)) with
        | .error err => .error err
        | .ok v' => .ok (some v.nextNode, v') := by
  have hlength : ¬ 256 ≤ e.segs.length := by
    have hlt := he.length_lt
    omega
  unfold ramfsAdd TarEntry.record
  simp only [hheader.path_eq he, hcreate, if_neg (Nat.lt_irrefl v.nextNode), if_neg hlength,
    getElem?_last_eq he.ne_nil, hheader.typeflag]
  by_cases hfile : e.typeflag = REGTYPE ∨ e.typeflag = AREGTYPE
  · have hdir : e.isDir = false := by
      unfold TarEntry.isDir
      rcases hfile with htype | htype
      · rw [htype]
        rfl
      · rw [htype]
        rfl
    rw [if_pos hfile, hdir]
    rfl
  · -- the path is searched a second time, and leads to the same directory
    have htype : e.typeflag = DIRTYPE := by
      rcases hsupported with hreg | hareg | hdirtype
      · exact absurd (Or.inl hreg) hfile
      · exact absurd (Or.inr hareg) hfile
      · exact hdirtype
    have hdir : e.isDir = true := decide_eq_true htype
    rw [if_neg hfile, if_pos htype, hdir]
    rfl

/-- For an entry of another type it adds the node of the turn before there. -/
theorem ramfsAdd_unsupported (hheader : HeaderAt m a e) (he : e.Named) (hunsupported : ¬ e.Supported)
    (hcreate : ramfsCreatePath v v.ramfsRootNode e.segs = .ok (p, v)) (node : Option NodePtr) :
    ramfsAdd m i a node v
      = match node with
        | none => .error .undefined
        | some n =>
          match addChild p n v with
          | .error err => .error err
          | .ok v' => .ok (some n, v') := by
  have hlength : ¬ 256 ≤ e.segs.length := by
    have hlt := he.length_lt
    omega
  have hfile : ¬ (e.typeflag = REGTYPE ∨ e.typeflag = AREGTYPE) := by
    rintro (htype | htype)
    · exact hunsupported (Or.inl htype)
    · exact hunsupported (Or.inr (Or.inl htype))
  have hdir : e.typeflag ≠ DIRTYPE := fun htype => hunsupported (Or.inr (Or.inr htype))
  -- the `default` case leaves `node` as it was
  unfold ramfsAdd
  cases node with
  | none =>
    simp only [hheader.path_eq he, hcreate, if_neg (Nat.lt_irrefl v.nextNode), if_neg hlength,
      hheader.typeflag, if_neg hfile, if_neg hdir]
  | some n =>
    cases hadd : addChild p n v with
    | error err =>
      simp only [hheader.path_eq he, hcreate, if_neg (Nat.lt_irrefl v.nextNode), if_neg hlength,
        hheader.typeflag, if_neg hfile, if_neg hdir, hadd]
    | ok v' =>
      simp only [hheader.path_eq he, hcreate, if_neg (Nat.lt_irrefl v.nextNode), if_neg hlength,
        hheader.typeflag, if_neg hfile, if_neg hdir, hadd]

end Turn

/-- **One turn of the loop** makes the entry's node, and adds it to its directory. -/
theorem ramfsAdd_represents {m : Mem} {i a : Nat} {e : TarEntry} {node : Option NodePtr}
    (h : Represents r v t) (hheader : HeaderAt m a e) (he : e.Valid)
    (hn : Grows v t d (entryNode v.nextNode i e)) :
    ramfsAdd m i a node v = .ok (some v.nextNode, grow v t d (entryNode v.nextNode i e)) := by
  have hsplit := List.dropLast_append_getLast he.ne_nil
  -- the walk of `ramfs_create_path` ends at the entry's directory
  have hreach : PathTree.Reaches t (⟨[], true, ⟨r, 0⟩⟩ : RamNode) e.segs.dropLast d :=
    h.wellFormed.reaches h.root hn.mem (by rw [List.nil_append]; exact hn.parent.symm)
  have hcreate : ramfsCreatePath v v.ramfsRootNode e.segs = .ok (d.val.ptr, v) := by
    have hwalk := h.createPath h.root hreach (e.segs.getLast he.ne_nil)
    rw [hsplit] at hwalk
    rw [h.ramfsRoot]
    exact hwalk
  have hadd := hn.addChild h
  rw [ramRecord_entryNode] at hadd
  rw [ramfsAdd_supported hheader he.named he.type hcreate node, hadd]

/-- Each entry's directory is in the tree when its turn comes. -/
def ParentsListed (t : List RamNode) (es : List TarEntry) : Prop :=
  ∀ before e after, es = before ++ e :: after →
    (∃ d ∈ t, d.dir = true ∧ d.path = e.segs.dropLast)
      ∨ ∃ b ∈ before, b.isDir = true ∧ b.segs = e.segs.dropLast

/-- The rest of the archive, with one entry more in the tree. -/
theorem ParentsListed.tail {e : TarEntry} {es : List TarEntry} (h : ParentsListed t (e :: es))
    (k i : Nat) : ParentsListed (t ++ [entryNode k i e]) es := by
  intro before e' after hsplit
  obtain ⟨d, hd, hdir, hpath⟩ | ⟨b, hb, hdir, hsegs⟩ :=
    h (e :: before) e' after (by rw [hsplit, List.cons_append])
  · exact Or.inl ⟨d, List.mem_append_left _ hd, hdir, hpath⟩
  · rcases List.mem_cons.mp hb with rfl | hin
    · exact Or.inl ⟨entryNode k i b, by simp, hdir, hsegs⟩
    · exact Or.inr ⟨b, hin, hdir, hsegs⟩

/-- The loop adds the entries one after the other. -/
theorem ramfsLoop_represents {m : Mem} {limit : Nat} {es : List TarEntry} {a i : Nat}
    {node : Option NodePtr} (h : Represents r v t) (himage : ImageAt m a es limit)
    (hvalid : ∀ e ∈ es, e.Valid) (hparents : ParentsListed t es)
    (hdistinct : (t.map PathTree.Node.path ++ es.map TarEntry.segs).Nodup) :
    ∃ v', ramfsLoop m i (headerAddresses a es) node v = .ok v'
      ∧ Represents r v' (t ++ entryNodes v.nextNode i es) ∧ SameBelow r v v' := by
  induction es generalizing v t a i node with
  | nil =>
    refine ⟨v, rfl, ?_, SameBelow.refl r v⟩
    rw [entryNodes, List.append_nil]
    exact h
  | cons e es ih =>
    rcases himage with ⟨hheader, himage⟩
    have he := hvalid e List.mem_cons_self
    -- no entry comes before the first, so its directory is in the tree already
    have hparent : ∃ d ∈ t, d.dir = true ∧ d.path = e.segs.dropLast := by
      rcases hparents [] e es rfl with hlisted | ⟨b, hb, _⟩
      · exact hlisted
      · cases hb
    rcases hparent with ⟨d, hd, hdir, hpath⟩
    have hfresh : e.segs ∉ t.map PathTree.Node.path := by
      intro hin
      exact (List.nodup_append.mp hdistinct).2.2 _ hin _ (by simp) rfl
    have hgrows : Grows v t d (entryNode v.nextNode i e) :=
      ⟨hd, hdir, rfl, he.ne_nil, hpath.symm, hfresh⟩
    have hmap : ((t ++ [entryNode v.nextNode i e]).map PathTree.Node.path
        ++ es.map TarEntry.segs).Nodup := by
      rw [List.map_append, List.append_assoc]
      exact hdistinct
    obtain ⟨v', hcall, hrep, hsame⟩ := @ih (grow v t d (entryNode v.nextNode i e))
      (t ++ [entryNode v.nextNode i e]) (a + e.extent) (i + 1) (some v.nextNode)
      (hgrows.represents h) himage (fun u hu => hvalid u (List.mem_cons_of_mem _ hu))
      (hparents.tail _ _) hmap
    refine ⟨v', ?_, ?_, (hgrows.sameBelow h).trans hsame⟩
    · rw [headerAddresses, addresses, ramfsLoop, ramfsAdd_represents h hheader he hgrows]
      exact hcall
    · rw [List.append_assoc] at hrep
      exact hrep

/-! ## The whole archive

The invariant at the end of the loop, and the RAM disk registered in the root. -/

/-- The tree of the archive `es`, with its root at `r`. -/
def ramTree (r : NodePtr) (es : List TarEntry) : List RamNode :=
  ⟨[], true, ⟨r, 0⟩⟩ :: entryNodes (r + 1) 0 es

/-- The tree of an empty archive. -/
theorem represents_root (v : Vfs) (headers : List Nat) :
    Represents v.nextNode
      { v.mallocNode (ramfsDir ramName) with ramfsRootNode := v.nextNode, headers := headers }
      [⟨[], true, ⟨v.nextNode, 0⟩⟩] where
  wellFormed := PathTree.wellFormed_root _
  root := List.mem_singleton_self _
  ramfsRoot := rfl
  record n hn := by
    rw [List.mem_singleton.mp hn]
    exact Vfs.mallocNode_node_self v _
  ptr_ge n hn := by
    rw [List.mem_singleton.mp hn]
  ptr_lt n hn := by
    rw [List.mem_singleton.mp hn]
    exact Nat.lt_succ_self _
  ptr_inj n hn n' hn' _ := by
    rw [List.mem_singleton.mp hn, List.mem_singleton.mp hn']

/-- An archive for which the RAM disk is specified, at `a` in memory. -/
structure Archive (m : Mem) (a limit : Nat) (es : List TarEntry) : Prop where
  limit_lt : limit < 4294967296
  image : ImageAt m a es limit
  count : es.length ≤ 64
  valid : ∀ e ∈ es, e.Valid
  distinct : (es.map TarEntry.segs).Nodup
  /-- The parent of an entry is the root, or a directory listed before it. -/
  parents : ∀ before e after, es = before ++ e :: after → e.segs.dropLast ≠ [] →
    ∃ b ∈ before, b.isDir = true ∧ b.segs = e.segs.dropLast

variable {m : Mem} {a limit fuel : Nat} {es : List TarEntry}

/-- **After `ramfs`** the tree of the archive is in memory, and the other nodes are as they were. -/
theorem ramfs_represents (hes : Archive m a limit es) (hfuel : es.length < fuel) (v : Vfs) :
    ∃ v', ramfs m fuel a limit v = .ok v' ∧ Represents v.nextNode v' (ramTree v.nextNode es)
      ∧ v'.rootNodes = listAdd v.rootNodes v.nextNode ∧ v'.rootNode = v.rootNode
      ∧ v'.headers = headerAddresses a es ∧ ∀ n < v.nextNode, v'.node n = v.node n := by
  have hparse : tarParse m fuel 0 a limit = .ok (headerAddresses a es) :=
    tarParse_image hes.limit_lt (fun e he => (hes.valid e he).named) hes.image hes.count hfuel
  have hparents : ParentsListed [(⟨[], true, ⟨v.nextNode, 0⟩⟩ : RamNode)] es := by
    intro before e after hsplit
    -- an entry at the top has the root as its directory
    by_cases htop : e.segs.dropLast = []
    · exact Or.inl ⟨_, List.mem_singleton_self _, rfl, htop.symm⟩
    · exact Or.inr (hes.parents before e after hsplit htop)
  have hdistinct : ([(⟨[], true, ⟨v.nextNode, 0⟩⟩ : RamNode)].map PathTree.Node.path
      ++ es.map TarEntry.segs).Nodup := by
    refine List.nodup_cons.mpr ⟨?_, hes.distinct⟩
    intro hin
    rcases List.mem_map.mp hin with ⟨e, he, hnil⟩
    exact (hes.valid e he).ne_nil hnil
  obtain ⟨v', hcall, hrep, hsame⟩ := @ramfsLoop_represents _ _ _ m limit es a 0 none
    (represents_root v (headerAddresses a es)) hes.image hes.valid hparents hdistinct
  refine ⟨fsRegister v.nextNode v', ?_, ?_, ?_, hsame.rootNode, hsame.headers, ?_⟩
  · unfold ramfs
    rw [hparse]
    simp only [hcall]
  · exact ⟨hrep.wellFormed, hrep.root, hrep.ramfsRoot, hrep.record, hrep.ptr_ge, hrep.ptr_lt,
      hrep.ptr_inj⟩
  · show listAdd v'.rootNodes v.nextNode = listAdd v.rootNodes v.nextNode
    rw [hsame.rootNodes]
    rfl
  · intro n hn
    exact (hsame.node n hn).trans (Vfs.mallocNode_node_of_lt v _ hn)

/-! ## Looking up

Of the tree, lookups find exactly the paths. -/

theorem Represents.list_eq (h : Represents r v t) (hn : n ∈ t) (hdir : n.dir = true) :
    (v.node n.val.ptr).inode.list = (PathTree.children t n.path).map fun c => c.val.ptr := by
  rw [h.record n hn, ramRecord_dir t hdir]
  rfl

theorem Represents.children_eq (h : Represents r v t) (hn : n ∈ t) (hdir : n.dir = true) :
    v.children n.val.ptr = (PathTree.children t n.path).map fun c => c.val.ptr := by
  rw [← h.list_eq hn hdir]
  unfold Vfs.children
  rw [h.record n hn, ramRecord_dir t hdir]
  rfl

/-- The flag of a directory. -/
theorem Represents.isDirectory (h : Represents r v t) (hn : n ∈ t) :
    v.IsDirectory n.val.ptr ↔ n.dir = true := by
  unfold Vfs.IsDirectory
  rw [h.record n hn]
  cases hdir : n.dir with
  | true =>
    rw [ramRecord_dir t hdir]
    exact iff_of_true (show FS_DIRECTORY &&& 7 = FS_DIRECTORY by decide) rfl
  | false =>
    rw [ramRecord_file t hdir]
    exact iff_of_false (show ¬ FS_FILE &&& 7 = FS_DIRECTORY by decide) Bool.false_ne_true

/-- A node is of one of the three kinds. -/
theorem Represents.kind (h : Represents r v t) (hn : n ∈ t) : v.Kind n.val.ptr := by
  cases hdir : n.dir with
  | true =>
    refine Vfs.Kind.ramfs ((h.isDirectory hn).mpr hdir) ?_
    rw [h.record n hn, ramRecord_dir t hdir]
    rfl
  | false =>
    refine Vfs.Kind.file ?_ ?_
    · rw [h.isDirectory hn, hdir]
      exact Bool.false_ne_true
    · rw [h.record n hn, ramRecord_file t hdir]
      rfl

/-- One step down, in memory and in the tree. -/
theorem Represents.child_iff (h : Represents r v t) (hn : n ∈ t) {s : CString} {x : NodePtr} :
    v.Child n.val.ptr s x
      ↔ n.dir = true ∧ ∃ c ∈ PathTree.children t n.path, c.path.getLast? = some s ∧ c.val.ptr = x := by
  unfold Vfs.Child
  rw [h.isDirectory hn]
  refine and_congr_right fun hdir => ?_
  rw [h.children_eq hn hdir, ← listForeach_findName_some, h.find_some]
  refine ⟨?_, ?_⟩
  · rintro ⟨c, hc, hpath, hptr⟩
    rcases PathTree.child_of_path_eq hc hpath with ⟨hchild, hname⟩
    exact ⟨c, hchild, hname, hptr⟩
  · rintro ⟨c, hc, hname, hptr⟩
    exact ⟨c, (PathTree.mem_children.mp hc).1, PathTree.path_eq_of_child hc hname, hptr⟩

/-- Walks in memory are those of the tree. -/
theorem Represents.reaches_iff (h : Represents r v t) (hn : n ∈ t) {segs : List CString}
    {x : NodePtr} : v.Reaches n.val.ptr segs x
      ↔ ∃ c, PathTree.Reaches t n segs c ∧ c.val.ptr = x := by
  refine ⟨?_, ?_⟩
  · intro hreach
    induction segs generalizing n with
    | nil =>
      cases hreach
      exact ⟨n, PathTree.Reaches.nil n, rfl⟩
    | cons s segs ih =>
      cases hreach with
      | cons hstep hrest =>
        rcases (h.child_iff hn).mp hstep with ⟨hdir, c, hc, hname, rfl⟩
        rcases ih (PathTree.mem_children.mp hc).1 hrest with ⟨d, hd, hptr⟩
        exact ⟨d, PathTree.Reaches.cons hdir hc hname hd, hptr⟩
  · rintro ⟨c, hreach, rfl⟩
    induction hreach with
    | nil n => exact Vfs.Reaches.nil _
    | cons hdir hc hname _ ih =>
      have hstep := (h.child_iff hn).mpr ⟨hdir, _, hc, hname, rfl⟩
      exact Vfs.Reaches.cons hstep (ih (PathTree.mem_children.mp hc).1)

/-- The path `/ram/` followed by `name`. -/
def ramPath (name : CString) : CString := slash :: (ramName ++ slash :: name)

theorem ramPath_spelled {segs : List CString} (hne : segs ≠ []) (trailing : Bool) :
    ramPath (spelled false trailing segs) = spelled true trailing (ramName :: segs) := by
  unfold ramPath spelled
  rw [joinPath_cons hne]
  simp

/-- **A lookup below `/ram`** finds the node of the tree at the path, and nothing where there is
none. -/
theorem Represents.lookup (h : Represents r v t)
    (hram : listForeach v.rootNodes (findName v ramName) = some r) {segs : List CString}
    (hne : segs ≠ []) (hsegs : ∀ s ∈ segs, IsSegment s) (trailing : Bool) (fuel : Nat) :
    ∃ res, rootFsFinddir v (fuel + 1) v.rootNode (ramPath (spelled false trailing segs)) = .ok res
      ∧ ∀ x, res = some x ↔ ∃ n ∈ t, n.path = segs ∧ n.val.ptr = x := by
  have hname : ∀ s ∈ ramName :: segs, IsSegment s := by
    intro s hs
    rcases List.mem_cons.mp hs with rfl | hin
    · decide
    · exact hsegs s hin
  have hkind : ∀ x, (∃ n ∈ t, n.val.ptr = x) → v.Kind x := by
    rintro _ ⟨n, hn, rfl⟩
    exact h.kind hn
  -- the walk stays among the nodes of the tree
  have hchild : ∀ x c, (∃ n ∈ t, n.val.ptr = x) → c ∈ v.children x → ∃ n ∈ t, n.val.ptr = c := by
    rintro _ c ⟨n, hn, rfl⟩ hc
    cases hdir : n.dir with
    | true =>
      rw [h.children_eq hn hdir] at hc
      rcases List.mem_map.mp hc with ⟨d, hd, rfl⟩
      exact ⟨d, (PathTree.mem_children.mp hd).1, rfl⟩
    | false =>
      unfold Vfs.children at hc
      rw [h.record n hn, ramRecord_file t hdir] at hc
      cases hc
  rcases findSegments_finds hkind hchild fuel ⟨_, h.root, rfl⟩ segs with ⟨res, hcall, hfinds⟩
  refine ⟨res, ?_, ?_⟩
  · rw [ramPath_spelled hne, rootFsFinddir_cons v _ hname, hram]
    exact hcall
  · intro x
    rw [hfinds.some_iff, h.reaches_iff h.root]
    refine exists_congr fun n => ?_
    rw [h.wellFormed.reaches_iff h.root, List.nil_append]
    exact and_assoc

/-! ## The round trip

An archive, unpacked, and read again. -/

/-- The `i`-th entry has the `i`-th node. -/
theorem entryNode_mem {k j i : Nat} {es : List TarEntry} {e : TarEntry} (h : es[i]? = some e) :
    entryNode (k + i) (j + i) e ∈ entryNodes k j es := by
  induction es generalizing k j i with
  | nil => simp at h
  | cons d es ih =>
    cases i with
    | zero =>
      rw [List.getElem?_cons_zero] at h
      obtain rfl := Option.some.inj h
      exact List.mem_cons_self
    | succ i =>
      rw [List.getElem?_cons_succ] at h
      have hrest := @ih (k + 1) (j + 1) i h
      rw [Nat.add_right_comm k, Nat.add_right_comm j] at hrest
      exact List.mem_cons_of_mem _ hrest

theorem entryNode_mem_ramTree {i : Nat} {e : TarEntry} (h : es[i]? = some e) (r : NodePtr) :
    entryNode (r + 1 + i) i e ∈ ramTree r es := by
  have hmem := @entryNode_mem (r + 1) 0 i es e h
  rw [Nat.zero_add] at hmem
  exact List.mem_cons_of_mem _ hmem

/-- Every node is that of an entry. -/
theorem entryNodes_entry {k j : Nat} {es : List TarEntry} (h : n ∈ entryNodes k j es) :
    ∃ e ∈ es, n.path = e.segs := by
  induction es generalizing k j with
  | nil => cases h
  | cons e es ih =>
    rcases List.mem_cons.mp h with rfl | hin
    · exact ⟨e, List.mem_cons_self, rfl⟩
    · rcases ih hin with ⟨d, hd, hpath⟩
      exact ⟨d, List.mem_cons_of_mem _ hd, hpath⟩

/-- The nodes under a path, in order, are those of the entries under it. -/
theorem entryNodes_under {γ : Type} (f : RamNode → γ) (g : TarEntry → γ) (p : List CString)
    {k j : Nat} {es : List TarEntry} (hne : ∀ e ∈ es, e.segs ≠ [])
    (hfg : ∀ n ∈ entryNodes k j es, ∀ e ∈ es, n.path = e.segs → f n = g e) :
    (PathTree.children (entryNodes k j es) p).map f
      = (es.filter fun e => e.segs.dropLast = p).map g := by
  induction es generalizing k j with
  | nil => rfl
  | cons e es ih =>
    have hhead : f (entryNode k j e) = g e :=
      hfg _ List.mem_cons_self e List.mem_cons_self rfl
    have hrest := @ih (k + 1) (j + 1) (fun d hd => hne d (List.mem_cons_of_mem _ hd))
      fun n hn d hd => hfg n (List.mem_cons_of_mem _ hn) d (List.mem_cons_of_mem _ hd)
    unfold PathTree.children at hrest ⊢
    rw [entryNodes]
    by_cases hunder : e.segs.dropLast = p
    · have hnode : PathTree.Under p (entryNode k j e) := ⟨hne e List.mem_cons_self, hunder⟩
      simp only [List.filter_cons, hnode, hunder, decide_true, if_true, List.map_cons, hhead, hrest]
    · have hnode : ¬ PathTree.Under p (entryNode k j e) := fun hu => hunder hu.2
      simp only [List.filter_cons, hnode, hunder, decide_false, Bool.false_eq_true, if_false, hrest]

/-- The `i`-th header is that of the `i`-th entry. -/
theorem ImageAt.header {es : List TarEntry} {a i : Nat} {e : TarEntry} (h : ImageAt m a es limit)
    (hi : es[i]? = some e) :
    ∃ header, (headerAddresses a es)[i]? = some header ∧ HeaderAt m header e
      ∧ e.data.length < limit := by
  obtain ⟨hget, hheader, hfits⟩ := Layout.getElem h hi
  exact ⟨_, hget, hheader, UstarEntry.data_lt hfits⟩

/-- Reading from the start of a file. -/
theorem ramfsRead_zero {v : Vfs} {x : NodePtr} {i header k : Nat} {e : TarEntry}
    (hinode : (v.node x).inode = .index i) (hget : v.headers[i]? = some header)
    (hheader : HeaderAt m header e) (hdata : e.data.length < 4294967296) (hk : k < 4294967296) :
    ramfsRead m v x 0 k = .ok (min k e.data.length, e.data.take k) := by
  have hdata_at : m.bytes (header + 512) e.data.length = e.data := hheader.data
  have hsize : tarGetsize m (header + 124) = e.data.length := hheader.getsize hdata
  have hbytes : m.bytes (header + 512) (min k e.data.length) = e.data.take k := by
    rw [← Mem.take_bytes m _ (Nat.min_le_right k e.data.length), hdata_at]
    exact List.take_eq_take_min.symm
  have hcount : readCount e.data.length 0 k = min k e.data.length := by
    rw [readCount_of_lt (by omega), Nat.sub_zero]
  have hnode : HeaderOf v x header := ⟨i, hinode, hget⟩
  rw [ramfsRead_eq hnode, hsize, hcount, hbytes]

/-- What the lookup of an entry finds: its node in the tree. -/
theorem Represents.lookup_entry {v : Vfs} {es : List TarEntry}
    (h : Represents r v (ramTree r es))
    (hram : listForeach v.rootNodes (findName v ramName) = some r) {i : Nat} {e : TarEntry}
    (hi : es[i]? = some e) (he : e.Valid) (fuel : Nat) :
    rootFsFinddir v (fuel + 1) v.rootNode (ramPath e.name) = .ok (some (r + 1 + i)) := by
  rcases h.lookup hram he.ne_nil he.segments e.trailing fuel with ⟨res, hcall, hres⟩
  rw [(hres (r + 1 + i)).mpr ⟨_, entryNode_mem_ramTree hi r, rfl, rfl⟩] at hcall
  exact hcall

/-- The nodes of the root directory before the RAM disk is registered. -/
structure Booted (v : Vfs) : Prop where
  lt : ∀ n ∈ v.rootNodes, n < v.nextNode
  not_ram : ∀ n ∈ v.rootNodes, (v.node n).name ≠ ramName

/-- A file of the archive is found, and its bytes are read. -/
theorem Represents.file_entry {v : Vfs} (h : Represents r v (ramTree r es))
    (hram : listForeach v.rootNodes (findName v ramName) = some r) (hes : Archive m a limit es)
    (hheaders : v.headers = headerAddresses a es) {e : TarEntry} (he : e ∈ es) (hfile : e.isDir = false)
    (fuel : Nat) :
    ∃ n, rootFsFinddir v (fuel + 1) v.rootNode (ramPath e.name) = .ok (some n)
      ∧ (v.node n).flags = FS_FILE
      ∧ ∀ k < 4294967296, readFs m v n 0 k = .ok (some (min k e.data.length, e.data.take k)) := by
  rcases List.getElem?_of_mem he with ⟨i, hi⟩
  have hnode : v.node (r + 1 + i) = ramfsFile (nodeName e.segs) i :=
    (h.record _ (entryNode_mem_ramTree hi _)).trans (ramRecord_file _ hfile)
  refine ⟨_, h.lookup_entry hram hi (hes.valid e he) fuel, ?_, ?_⟩
  · rw [hnode]
    rfl
  · intro k hk
    rcases hes.image.header hi with ⟨header, hget, hheader, hlt⟩
    rw [← hheaders] at hget
    have hinode : (v.node (r + 1 + i)).inode = .index i := by rw [hnode]; rfl
    have hread := ramfsRead_zero hinode hget hheader (Nat.lt_trans hlt hes.limit_lt) hk
    unfold readFs
    rw [hnode, hread]
    rfl

/-- A directory of the archive is found, and lists what the lookups of the entries in it find. -/
theorem Represents.dir_entry {v : Vfs} (h : Represents r v (ramTree r es))
    (hram : listForeach v.rootNodes (findName v ramName) = some r) (hes : Archive m a limit es)
    {e : TarEntry} (he : e ∈ es) (hdir : e.isDir = true) (fuel : Nat) :
    ∃ n, rootFsFinddir v (fuel + 1) v.rootNode (ramPath e.name) = .ok (some n)
      ∧ (v.node n).flags = FS_DIRECTORY
      ∧ (v.node n).inode.list.map (fun c => .ok (some c))
        = (es.filter fun d => d.segs.dropLast = e.segs).map fun d =>
            rootFsFinddir v (fuel + 1) v.rootNode (ramPath d.name) := by
  rcases List.getElem?_of_mem he with ⟨i, hi⟩
  have hmem := entryNode_mem_ramTree hi r
  refine ⟨_, h.lookup_entry hram hi (hes.valid e he) fuel, ?_, ?_⟩
  · have hnode := (h.record _ hmem).trans (ramRecord_dir _ hdir)
    exact congrArg FsNode.flags hnode
  · have hroot : ¬ PathTree.Under e.segs (⟨[], true, ⟨r, 0⟩⟩ : RamNode) := fun hu => hu.1 rfl
    have hchildren : PathTree.children (ramTree r es) e.segs
        = PathTree.children (entryNodes (r + 1) 0 es) e.segs :=
      List.filter_cons_of_neg (by simpa using hroot)
    have hlist : (v.node (r + 1 + i)).inode.list
        = (PathTree.children (entryNodes (r + 1) 0 es) e.segs).map fun c => c.val.ptr := by
      rw [← hchildren]
      exact h.list_eq hmem hdir
    rw [hlist, List.map_map]
    refine entryNodes_under _ _ e.segs (fun d hd => (hes.valid d hd).ne_nil) ?_
    intro n hn d hd hpath
    rcases List.getElem?_of_mem hd with ⟨j, hj⟩
    have hfound := h.lookup_entry hram hj (hes.valid d hd) fuel
    -- the node listed and the node found have the same path
    have hmemn : n ∈ ramTree r es := List.mem_cons_of_mem _ hn
    have heq := h.wellFormed.eq_of_path hmemn (entryNode_mem_ramTree hj _) hpath
    rw [heq]
    exact hfound.symm

/-- A path that the archive does not have is not found. -/
theorem Represents.no_entry {v : Vfs} (h : Represents r v (ramTree r es))
    (hram : listForeach v.rootNodes (findName v ramName) = some r) {segs : List CString} (hne : segs ≠ [])
    (hsegs : ∀ s ∈ segs, IsSegment s) (hother : segs ∉ es.map TarEntry.segs) (trailing : Bool) (fuel : Nat) :
    rootFsFinddir v (fuel + 1) v.rootNode (ramPath (spelled false trailing segs)) = .ok none := by
  rcases h.lookup hram hne hsegs trailing fuel with ⟨res, hfind, hres⟩
  cases res with
  | none => exact hfind
  | some x =>
    rcases (hres x).mp rfl with ⟨n, hn, hpath, _⟩
    rcases List.mem_cons.mp hn with rfl | hin
    · exact absurd hpath.symm hne
    · rcases entryNodes_entry hin with ⟨e, he, hsame⟩
      exact absurd (List.mem_map.mpr ⟨e, he, hsame.symm.trans hpath⟩) hother

/-- **RAM disk round trip.** After `ramfs` of an archive, the path of a regular entry leads to a file
from whose start `read_fs` gives the bytes asked for, or all there are; that of a directory to a
directory that lists the nodes of the entries directly under it, in their order; and every other path
of non-empty segments below `/ram/` to nothing. -/
theorem ramfs_roundTrip {v : Vfs} (hv : Booted v) (hes : Archive m a limit es) (hfuel : 64 < fuel) :
    ∃ v', ramfs m fuel a limit v = .ok v' ∧ ∀ fuel',
      let lookup name := rootFsFinddir v' (fuel' + 1) v'.rootNode (ramPath name)
      (∀ e ∈ es, e.isDir = false →
        ∃ n, lookup e.name = .ok (some n) ∧ (v'.node n).flags = FS_FILE
          ∧ ∀ k < 4294967296, readFs m v' n 0 k = .ok (some (min k e.data.length, e.data.take k)))
      ∧ (∀ e ∈ es, e.isDir = true →
        ∃ n, lookup e.name = .ok (some n) ∧ (v'.node n).flags = FS_DIRECTORY
          ∧ (v'.node n).inode.list.map (fun c => .ok (some c))
            = (es.filter fun d => d.segs.dropLast = e.segs).map fun d => lookup d.name)
      ∧ ∀ segs, segs ≠ [] → (∀ s ∈ segs, IsSegment s) → segs ∉ es.map TarEntry.segs →
        ∀ trailing, lookup (spelled false trailing segs) = .ok none := by
  have hcount := hes.count
  rcases ramfs_represents hes (Nat.lt_of_le_of_lt hcount hfuel) v with ⟨v', hcall, hrep, hroots, _, hheaders, hold⟩
  -- the last registered node is the first one named `ram`
  have hrootName : (v'.node v.nextNode).name = ramName := by
    rw [hrep.record _ hrep.root, ramRecord_name]
    rfl
  have hram : listForeach v'.rootNodes (findName v' ramName) = some v.nextNode := by
    refine listForeach_findName_some.mpr ⟨v.rootNodes, [], hroots, hrootName, ?_⟩
    intro n hn
    rw [hold n (hv.lt n hn)]
    exact hv.not_ram n hn
  refine ⟨v', hcall, fun fuel' => ⟨?_, ?_, ?_⟩⟩
  · exact fun e he hfile => hrep.file_entry hram hes hheaders he hfile fuel'
  · exact fun e he hdir => hrep.dir_entry hram hes he hdir fuel'
  · exact fun segs hne hsegs hother trailing => hrep.no_entry hram hne hsegs hother trailing fuel'

/-- The bytes of an archive with the directory `d/` and the file `d/f` of one byte. -/
def smallImage : Mem := fun x =>
  if 124 ≤ x ∧ x < 135 ∨ 636 ≤ x ∧ x < 646 then 48
  else ([(0, 100), (1, 47), (156, 53), (512, 100), (513, 47), (514, 102), (646, 49), (668, 48),
    (1024, 42)].lookup x).getD 0

end

def smallEntries : List TarEntry :=
  [⟨[[100]], DIRTYPE, true, []⟩, ⟨[[100], [102]], REGTYPE, false, [42]⟩]

theorem smallImage_at : ImageAt smallImage 0 smallEntries 2048 := by
  refine ⟨⟨⟨by decide, by decide, by decide, by decide⟩, by decide, by decide⟩,
    ⟨⟨by decide, by decide, by decide, by decide⟩, by decide, by decide⟩, ?_, by decide⟩
  decide +kernel

theorem smallEntries_valid : ∀ e ∈ smallEntries, e.Valid := by
  intro e he
  rcases List.mem_cons.mp he with rfl | hfile
  · exact ⟨by decide, by decide, by decide, by decide, by decide⟩
  · rw [List.mem_singleton.mp hfile]
    exact ⟨by decide, by decide, by decide, by decide, by decide⟩

theorem smallEntries_parents : ∀ before e after, smallEntries = before ++ e :: after →
    e.segs.dropLast ≠ [] → ∃ b ∈ before, b.isDir = true ∧ b.segs = e.segs.dropLast := by
  intro before e after hsplit hne
  cases before with
  | nil =>
    rcases List.cons.inj hsplit with ⟨rfl, _⟩
    exact absurd rfl hne
  | cons b before =>
    rcases List.cons.inj hsplit with ⟨rfl, hrest⟩
    have hmem : e ∈ [⟨[[100], [102]], REGTYPE, false, [42]⟩] := by
      rw [hrest]
      exact List.mem_append_right before List.mem_cons_self
    rw [List.mem_singleton.mp hmem]
    exact ⟨_, List.mem_cons_self, rfl, rfl⟩

theorem fsRoot_booted : Booted (fsRoot bootVfs) := by
  refine ⟨?_, ?_⟩ <;> decide

/-- The file of the small archive. -/
theorem ramfs_roundTrip_small :
    ∃ v', ramfs smallImage 65 0 2048 (fsRoot bootVfs) = .ok v'
      ∧ ∃ n, rootFsFinddir v' 1 v'.rootNode (ramPath [100, 47, 102]) = .ok (some n)
        ∧ readFs smallImage v' n 0 9 = .ok (some (1, [42])) := by
  obtain ⟨v', hcall, hlookup⟩ := ramfs_roundTrip fsRoot_booted
    ⟨by decide, smallImage_at, by decide, smallEntries_valid, by decide, smallEntries_parents⟩
    (show 64 < 65 by decide)
  obtain ⟨n, hfound, _, hread⟩ := (hlookup 0).1 ⟨[[100], [102]], REGTYPE, false, [42]⟩
    (List.mem_cons_of_mem _ List.mem_cons_self) rfl
  exact ⟨v', hcall, n, hfound, hread 9 (by decide)⟩

end DiyOS
