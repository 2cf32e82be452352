import DiyOS.Fs.RoundTrip
import DiyOS.Lib.PathList

/-!
# Each entry of the archive is attached once

The loop of `ramfs` makes a node for each file and directory, and adds it to the list of the directory
that a search for the entry's parent finds. Several entries may have the same path: the search finds the
first of them.

* **`AttachedOnce`** — the tree has one node for each file and directory of the archive, under its own
  parent, and nothing else.
* **`Attached`** — the loop's invariant: the records of the nodes of the entries so far.
* **`Attached.add`**, **`ramfsLoop_attached`** — one turn, and many turns, for files and directories whose
  parents are directories.
* **`Attached.once`** — then each entry is attached once.
-/

namespace DiyOS

open Word CString

/-! ## The tree in memory

Archives may hold what `ramfs` was not written for. `Attached` describes the list of each directory as the code
leaves it. -/

/-- The node `n` hangs in the tree of the RAM disk at the path `p`. -/
inductive InTree (v : Vfs) : NodePtr → List CString → Prop where
  | root : InTree v v.ramfsRootNode []
  | child {d n : NodePtr} {p : List CString} (hd : InTree v d p)
      (hdir : (v.node d).flags = FS_DIRECTORY) (hn : n ∈ (v.node d).inode.list) :
      InTree v n (p ++ [(v.node n).name])

/-- `nodeOf i` is the node of the `i`-th entry, for files and directories. -/
structure AttachedOnce (v : Vfs) (es : List TarEntry) (nodeOf : Nat → NodePtr) : Prop where
  /-- It has the entry's path, and so hangs under the entry's own parent. -/
  path : ∀ i e, es[i]? = some e → e.Supported → InTree v (nodeOf i) e.segs
  kind : ∀ i e, es[i]? = some e → e.Supported →
    (v.node (nodeOf i)).flags = if e.isDir then FS_DIRECTORY else FS_FILE
  file : ∀ i e, es[i]? = some e → e.Supported → e.isDir = false →
    (v.node (nodeOf i)).inode = .index i
  distinct : ∀ i j d e, es[i]? = some d → d.Supported → es[j]? = some e → e.Supported →
    nodeOf i = nodeOf j → i = j
  ne_root : ∀ i e, es[i]? = some e → e.Supported → nodeOf i ≠ v.ramfsRootNode
  /-- Nothing else is in a directory. -/
  only : ∀ d p n, InTree v d p → n ∈ (v.node d).inode.list →
    ∃ i e, es[i]? = some e ∧ e.Supported ∧ nodeOf i = n
  nodup : ∀ d p, InTree v d p → (v.node d).inode.list.Nodup
  once : ∀ d p d' p' n, InTree v d p → InTree v d' p' → n ∈ (v.node d).inode.list →
    n ∈ (v.node d').inode.list → d = d'

/-- An archive with entries of any type, in which every parent directory is listed before its
children. -/
structure MixedArchive (m : Mem) (a limit : Nat) (es : List TarEntry) : Prop where
  limit_lt : limit < 4294967296
  image : ImageAt m a es limit
  named : ∀ e ∈ es, e.Named
  parents : ∀ before e after, es = before ++ e :: after → e.segs.dropLast ≠ [] →
    ∃ b ∈ before, b.isDir = true ∧ b.segs = e.segs.dropLast

/-! ## The entries so far

The position of an entry in the archive is the address of its node, so that nodes are counted, not searched. -/

/-- The nodes directly under `p`, where the node of `es[i]` is `r + 1 + i`. -/
def childNodes (r : NodePtr) (es : List TarEntry) (p : List CString) : List NodePtr :=
  (PathList.children (es.map TarEntry.segs) p).map fun i => r + 1 + i

/-- The node that a search for `p` finds: the root, or that of the first entry with the path. -/
def nodeAt (r : NodePtr) (es : List TarEntry) (p : List CString) : Option NodePtr :=
  if p = [] then some r else (PathList.first (es.map TarEntry.segs) p).map fun i => r + 1 + i

/-- The first entry with the path `p` is a directory. -/
def DirAt (es : List TarEntry) (p : List CString) : Prop :=
  p = [] ∨ ∃ i d, PathList.first (es.map TarEntry.segs) p = some i ∧ es[i]? = some d ∧ d.isDir = true

/-- The record of the node of `es[i]`. -/
def entryRecord (r : NodePtr) (es : List TarEntry) (i : Nat) (e : TarEntry) : FsNode :=
  if e.isDir then
    { ramfsDir (nodeName e.segs) with
      inode := .nodes (if nodeAt r es e.segs = some (r + 1 + i) then childNodes r es e.segs else []) }
  else ramfsFile (nodeName e.segs) i

/-- The loop's state after the entries `es`. -/
structure Attached (r : NodePtr) (node : Option NodePtr) (v : Vfs) (es : List TarEntry) : Prop where
  ramfsRoot : v.ramfsRootNode = r
  nextNode : v.nextNode = r + 1 + es.length
  node : node = if es = [] then none else some (r + es.length)
  root : v.node r = { ramfsDir ramName with inode := .nodes (childNodes r es []) }
  record : ∀ i e, es[i]? = some e → v.node (r + 1 + i) = entryRecord r es i e
  named : ∀ e ∈ es, e.Named
  supported : ∀ e ∈ es, e.Supported
  parents : ∀ e ∈ es, DirAt es e.segs.dropLast

section

variable {r : NodePtr} {node : Option NodePtr} {v : Vfs} {es : List TarEntry} {e : TarEntry}
  {p : List CString} {n : NodePtr} {i : Nat}

/-- The root is made first. -/
theorem root_lt (r : NodePtr) (i : Nat) : r < r + 1 + i :=
  Nat.lt_of_lt_of_le (Nat.lt_succ_self r) (Nat.le_add_right _ _)

theorem nodeAt_nil (r : NodePtr) (es : List TarEntry) : nodeAt r es [] = some r := if_pos rfl

theorem nodeAt_eq_some (hp : p ≠ []) :
    nodeAt r es p = some n ↔ ∃ i, PathList.first (es.map TarEntry.segs) p = some i ∧ r + 1 + i = n := by
  unfold nodeAt
  rw [if_neg hp, Option.map_eq_some_iff]

theorem getElem?_map_segs {q : List CString} (h : (es.map TarEntry.segs)[i]? = some q) :
    ∃ e, es[i]? = some e ∧ e.segs = q := by
  rw [List.getElem?_map] at h
  exact Option.map_eq_some_iff.mp h

/-- The index of an entry with the path. -/
theorem getElem?_of_first (h : PathList.first (es.map TarEntry.segs) p = some i) :
    ∃ e, es[i]? = some e ∧ e.segs = p :=
  getElem?_map_segs (PathList.getElem?_of_first h)

/-- The children are the entries one segment longer. -/
theorem mem_childNodes :
    n ∈ childNodes r es p ↔ ∃ i e, es[i]? = some e ∧ PathList.Under p e.segs ∧ r + 1 + i = n := by
  unfold childNodes
  rw [List.mem_map]
  constructor
  · rintro ⟨i, hi, rfl⟩
    rcases PathList.mem_children.mp hi with ⟨q, hq, hunder⟩
    rcases getElem?_map_segs hq with ⟨e, he, rfl⟩
    exact ⟨i, e, he, hunder, rfl⟩
  · rintro ⟨i, e, he, hunder, rfl⟩
    refine ⟨i, PathList.mem_children.mpr ⟨e.segs, ?_, hunder⟩, rfl⟩
    rw [List.getElem?_map, he]
    rfl

theorem nodup_childNodes (r : NodePtr) (es : List TarEntry) (p : List CString) :
    (childNodes r es p).Nodup := by
  apply (PathList.nodup_children _ p).map
  intro i j heq
  exact Nat.add_left_cancel heq

/-- The first directory with its path has all that lies under the path. -/
theorem entryRecord_first (hdir : e.isDir = true) (hat : nodeAt r es e.segs = some (r + 1 + i)) :
    entryRecord r es i e
      = { ramfsDir (nodeName e.segs) with inode := .nodes (childNodes r es e.segs) } := by
  unfold entryRecord
  rw [if_pos hdir, if_pos hat]

/-! ## One more entry

What one entry adds to the lists. -/

theorem childNodes_snoc (r : NodePtr) (es : List TarEntry) (e : TarEntry) (p : List CString) :
    childNodes r (es ++ [e]) p
      = childNodes r es p ++ if PathList.Under p e.segs then [r + 1 + es.length] else [] := by
  unfold childNodes
  rw [List.map_append, List.map_singleton, PathList.children_snoc, List.map_append, List.length_map]
  by_cases hunder : PathList.Under p e.segs
  · rw [if_pos hunder, if_pos hunder]
    rfl
  · rw [if_neg hunder, if_neg hunder]
    rfl

theorem nodeAt_snoc (r : NodePtr) (es : List TarEntry) (e : TarEntry) (p : List CString) :
    nodeAt r (es ++ [e]) p
      = (nodeAt r es p).or (if e.segs = p then some (r + 1 + es.length) else none) := by
  unfold nodeAt
  by_cases hp : p = []
  · rw [if_pos hp, if_pos hp]
    rfl
  · rw [if_neg hp, if_neg hp, List.map_append, List.map_singleton, PathList.first_snoc,
      List.length_map, Option.map_or]
    by_cases heq : e.segs = p
    · rw [if_pos heq, if_pos heq]
      rfl
    · rw [if_neg heq, if_neg heq]
      rfl

/-- What a search found it still finds. -/
theorem nodeAt_mono (h : nodeAt r es p = some n) (e : TarEntry) : nodeAt r (es ++ [e]) p = some n := by
  rw [nodeAt_snoc, h]
  rfl

theorem DirAt.snoc (h : DirAt es p) (e : TarEntry) : DirAt (es ++ [e]) p := by
  rcases h with hnil | ⟨i, d, hi, hd, hdir⟩
  · exact Or.inl hnil
  · refine Or.inr ⟨i, d, ?_, ?_, hdir⟩
    · rw [List.map_append, List.map_singleton, PathList.first_snoc, hi]
      rfl
    · rw [List.getElem?_append_left (List.getElem?_eq_some_iff.mp hd).1]
      exact hd

theorem nodeAt_isSome_of_mem (h : p ∈ es.map TarEntry.segs) (hp : p ≠ []) :
    ∃ i, PathList.first (es.map TarEntry.segs) p = some i ∧ nodeAt r es p = some (r + 1 + i) := by
  rcases PathList.exists_first h with ⟨i, hi⟩
  exact ⟨i, hi, (nodeAt_eq_some hp).mpr ⟨i, hi, rfl⟩⟩

/-! ## Searching among the entries so far

A directory is found by the first entry with its path. -/

theorem Attached.name (h : Attached r node v es) (he : es[i]? = some e) :
    (v.node (r + 1 + i)).name = nodeName e.segs := by
  rw [h.record i e he]
  unfold entryRecord
  split <;> rfl

theorem DirAt.mem (h : DirAt es p) : p = [] ∨ p ∈ es.map TarEntry.segs := by
  rcases h with hnil | ⟨i, _, hi, _⟩
  · exact Or.inl hnil
  · exact Or.inr (List.mem_of_getElem? (PathList.getElem?_of_first hi))

/-- A directory found by a search lists the nodes of the entries under its path. -/
theorem Attached.directory (h : Attached r node v es) (hdir : DirAt es p) :
    ∃ n, nodeAt r es p = some n ∧ n < v.nextNode
      ∧ v.node n = { ramfsDir (nodeName p) with inode := .nodes (childNodes r es p) } := by
  rw [h.nextNode]
  rcases hdir with rfl | ⟨i, d, hi, hd, hd_dir⟩
  · exact ⟨r, nodeAt_nil r es, root_lt r _, h.root⟩
  · rcases getElem?_of_first hi with ⟨d', hd', rfl⟩
    rw [hd] at hd'
    cases hd'
    have hlt := (List.getElem?_eq_some_iff.mp hd).1
    have hne := (h.named d (List.mem_of_getElem? hd)).ne_nil
    have hat : nodeAt r es d.segs = some (r + 1 + i) := (nodeAt_eq_some hne).mpr ⟨i, hi, rfl⟩
    refine ⟨r + 1 + i, hat, Nat.add_lt_add_left hlt _, ?_⟩
    rw [h.record i d hd, entryRecord_first hd_dir hat]

theorem Attached.directory_at (h : Attached r node v es) (hdir : DirAt es p)
    (hn : nodeAt r es p = some n) : n < v.nextNode
      ∧ v.node n = { ramfsDir (nodeName p) with inode := .nodes (childNodes r es p) } := by
  rcases h.directory hdir with ⟨n', hn', hrecord⟩
  rw [hn] at hn'
  cases hn'
  exact hrecord

/-- An entry's node is listed in its directory. -/
theorem Attached.listed (h : Attached r node v es) (he : es[i]? = some e) :
    ∃ d, nodeAt r es e.segs.dropLast = some d ∧ d < v.nextNode ∧ (v.node d).flags = FS_DIRECTORY
      ∧ r + 1 + i ∈ (v.node d).inode.list := by
  have hmem := List.mem_of_getElem? he
  rcases h.directory (h.parents e hmem) with ⟨d, hd, hlt, hrecord⟩
  refine ⟨d, hd, hlt, ?_, ?_⟩
  · rw [hrecord]
    rfl
  · rw [hrecord]
    exact mem_childNodes.mpr ⟨i, e, he, ⟨(h.named e hmem).ne_nil, rfl⟩, rfl⟩

/-- The search for a name in such a directory. -/
theorem Attached.find (h : Attached r node v es) (p : List CString) (s : CString) :
    listForeach (childNodes r es p) (findName v s) = nodeAt r es (p ++ [s]) := by
  have hname : ∀ i q, (es.map TarEntry.segs)[i]? = some q → PathList.Under p q →
      ((!findName v s (r + 1 + i)) = true ↔ q.getLast? = some s) := by
    intro i q hq hunder
    rcases getElem?_map_segs hq with ⟨e, he, rfl⟩
    have hlast : e.segs.getLast? = some (nodeName e.segs) := by
      rw [← dropLast_append_nodeName hunder.1, List.getLast?_concat, nodeName_concat]
    rw [not_findName, decide_eq_true_iff, h.name he, hlast, Option.some.injEq]
  unfold nodeAt childNodes
  rw [if_neg (List.append_ne_nil_of_right_ne_nil p (List.cons_ne_nil s [])), listForeach_eq_find,
    List.find?_map, ← PathList.find?_children hname]
  rfl

/-- `_ramfs_create_path` makes no node where the path is there. -/
theorem Attached.createPath (h : Attached r node v es) {q : List CString} {m : NodePtr}
    (hn : nodeAt r es p = some n) (hm : nodeAt r es (p ++ q) = some m) (x : CString) :
    ramfsCreatePath v n (q ++ [x]) = .ok (m, v) := by
  induction q generalizing p n with
  | nil =>
    rw [List.append_nil, hn] at hm
    cases hm
    rfl
  | cons s q ih =>
    -- every directory on the way is the first entry with its path
    have habove : ∀ {p' q' : List CString}, q' ≠ [] → p' ++ q' = p ++ s :: q → DirAt es p' := by
      intro p' q' hne heq
      have hin : p' ++ q' ∈ es.map TarEntry.segs := by
        have hnot : p' ++ q' ≠ [] := List.append_ne_nil_of_right_ne_nil p' hne
        rw [← heq] at hm
        rcases (nodeAt_eq_some hnot).mp hm with ⟨i, hi, _⟩
        exact List.mem_of_getElem? (PathList.getElem?_of_first hi)
      apply PathList.prefix_of_parent _ (fun p => DirAt.mem) hne hin
      intro u hu
      rcases List.mem_map.mp hu with ⟨e, he, rfl⟩
      exact h.parents e he
    have hrecord := (h.directory_at (habove (List.cons_ne_nil s q) rfl) hn).2
    have hsplit : (p ++ [s]) ++ q = p ++ s :: q := by simp
    have hnext : ∃ c, nodeAt r es (p ++ [s]) = some c := by
      cases q with
      | nil => exact ⟨m, hm⟩
      | cons t q =>
        rcases h.directory (habove (List.cons_ne_nil t q) hsplit) with ⟨c, hc, _⟩
        exact ⟨c, hc⟩
    rcases hnext with ⟨c, hc⟩
    rcases List.exists_cons_of_ne_nil (List.append_ne_nil_of_right_ne_nil q (List.cons_ne_nil x []))
      with ⟨y, rest, hrest⟩
    have hstep := ih hc (by rw [hsplit]; exact hm)
    rw [hrest] at hstep
    have hlist : (v.node n).inode.asList = .ok (childNodes r es p) := by
      rw [hrecord]
      rfl
    rw [List.cons_append, hrest, ramfsCreatePath, hlist]
    simp only [h.find p s, hc]
    exact hstep

/-- The walk for an entry whose parent is there. -/
theorem Attached.createPath_entry (h : Attached r node v es) (hne : e.segs ≠ [])
    (hn : nodeAt r es e.segs.dropLast = some n) :
    ramfsCreatePath v v.ramfsRootNode e.segs = .ok (n, v) := by
  have hwalk := h.createPath (nodeAt_nil r es) (show nodeAt r es ([] ++ e.segs.dropLast) = some n from hn)
    (e.segs.getLast hne)
  rw [List.dropLast_append_getLast hne] at hwalk
  rw [h.ramfsRoot]
  exact hwalk

/-! ## One turn

An entry that is neither a file nor a directory allocates nothing; the `list_add` behind the `switch` adds the
node of the turn before. -/

/-- The new node does not change what the other nodes have. -/
theorem entryRecord_snoc {d : TarEntry} (hd : es[i]? = some d) (hne : d.segs ≠ [])
    (hat : nodeAt r es e.segs.dropLast = some n) (hother : r + 1 + i ≠ n) :
    entryRecord r (es ++ [e]) i d = entryRecord r es i d := by
  have hin : d.segs ∈ es.map TarEntry.segs := List.mem_map_of_mem (List.mem_of_getElem? hd)
  rcases nodeAt_isSome_of_mem (r := r) hin hne with ⟨j, _, hj⟩
  unfold entryRecord
  rw [nodeAt_mono hj, hj, childNodes_snoc]
  by_cases hfirst : some (r + 1 + j) = some (r + 1 + i)
  · -- a first entry under whose path the new one lies is its directory
    have hunder : ¬ PathList.Under d.segs e.segs := by
      intro hu
      rw [hu.2, hj, hfirst] at hat
      exact hother (Option.some.inj hat)
    rw [if_neg hunder, List.append_nil]
  · rw [if_neg hfirst, if_neg hfirst]

/-- The record of the new node itself: nothing lies under it yet. -/
theorem Attached.entryRecord_self (h : Attached r node v es) (hne : e.segs ≠ []) :
    entryRecord r (es ++ [e]) es.length e = e.record es.length := by
  unfold entryRecord TarEntry.record
  have hlist : (if nodeAt r (es ++ [e]) e.segs = some (r + 1 + es.length)
      then childNodes r (es ++ [e]) e.segs else []) = [] := by
    by_cases hin : e.segs ∈ es.map TarEntry.segs
    · -- an earlier entry has the same path, and is the one that is found
      rcases nodeAt_isSome_of_mem (r := r) hin hne with ⟨j, hj, hat⟩
      have hlt : j < es.length := by
        rcases getElem?_of_first hj with ⟨d, hd, _⟩
        exact (List.getElem?_eq_some_iff.mp hd).1
      have hother : some (r + 1 + j) ≠ some (r + 1 + es.length) := by
        intro heq
        exact Nat.ne_of_lt hlt (Nat.add_left_cancel (Option.some.inj heq))
      rw [nodeAt_mono hat, if_neg hother]
    · have hnone : PathList.children (es.map TarEntry.segs) e.segs = [] := by
        apply PathList.children_eq_nil _ (fun p => DirAt.mem) hne hin
        intro u hu
        rcases List.mem_map.mp hu with ⟨d, hd, rfl⟩
        exact h.parents d hd
      have hempty : childNodes r (es ++ [e]) e.segs = [] := by
        rw [childNodes_snoc, if_neg (PathList.not_under_self _), List.append_nil]
        unfold childNodes
        rw [hnone]
        rfl
      rw [hempty, ite_self]
  rw [hlist]
  rfl

/-- The memory in which the node of `e` was made and added to its directory `n`. -/
def attach (r : NodePtr) (v : Vfs) (es : List TarEntry) (e : TarEntry) (n : NodePtr) : Vfs :=
  (v.mallocNode (e.record es.length)).setNode n { ramfsDir (nodeName e.segs.dropLast) with
    inode := .nodes (childNodes r (es ++ [e]) e.segs.dropLast) }

theorem attach_node_self (r : NodePtr) (v : Vfs) (es : List TarEntry) (e : TarEntry) (n : NodePtr) :
    (attach r v es e n).node n = { ramfsDir (nodeName e.segs.dropLast) with
      inode := .nodes (childNodes r (es ++ [e]) e.segs.dropLast) } := Vfs.setNode_node_self _ _ _

theorem attach_node_of_ne (r : NodePtr) (es : List TarEntry) (e : TarEntry) {c : NodePtr}
    (hc : c < v.nextNode) (hother : c ≠ n) : (attach r v es e n).node c = v.node c := by
  unfold attach
  rw [Vfs.setNode_node_of_ne _ _ hother, Vfs.mallocNode_node_of_lt v _ hc]

/-- Every entry has its record in the new memory. -/
theorem Attached.record_attach (h : Attached r node v es) (he : e.Named)
    (hdir : DirAt es e.segs.dropLast) (hn : nodeAt r es e.segs.dropLast = some n)
    {d : TarEntry} (hd : (es ++ [e])[i]? = some d) :
    (attach r v es e n).node (r + 1 + i) = entryRecord r (es ++ [e]) i d := by
  rcases h.directory_at hdir hn with ⟨hlt, hrecord⟩
  rcases Nat.lt_or_ge i es.length with hi | hi
  · rw [List.getElem?_append_left hi] at hd
    have hd_lt : r + 1 + i < v.nextNode := by
      rw [h.nextNode]
      exact Nat.add_lt_add_left hi _
    by_cases hother : r + 1 + i = n
    · -- the directory: the new node is its last child
      have hne : e.segs.dropLast ≠ [] := by
        intro hnil
        rw [hnil, nodeAt_nil, ← hother] at hn
        exact Nat.ne_of_lt (root_lt r i) (Option.some.inj hn)
      rcases hdir with hnil | ⟨j, d', hj, hd', hd_dir⟩
      · exact absurd hnil hne
      · have hat : nodeAt r es e.segs.dropLast = some (r + 1 + j) :=
          (nodeAt_eq_some hne).mpr ⟨j, hj, rfl⟩
        rw [hn, ← hother] at hat
        obtain rfl := Nat.add_left_cancel (Option.some.inj hat)
        rw [hd] at hd'
        cases hd'
        have hsegs : d.segs = e.segs.dropLast := by
          rcases getElem?_of_first hj with ⟨d', hd', hsegs⟩
          rw [hd] at hd'
          cases hd'
          exact hsegs
        have hfirst : nodeAt r (es ++ [e]) d.segs = some (r + 1 + i) := by
          rw [hsegs, hother]
          exact nodeAt_mono hn e
        rw [hother, attach_node_self, entryRecord_first hd_dir hfirst, hsegs]
    · have hd_ne := (h.named d (List.mem_of_getElem? hd)).ne_nil
      rw [attach_node_of_ne r es e hd_lt hother, h.record i d hd, entryRecord_snoc hd hd_ne hn hother]
  · have hlast : i = es.length := by
      have hlt' := (List.getElem?_eq_some_iff.mp hd).1
      rw [List.length_append, List.length_singleton] at hlt'
      omega
    subst hlast
    rw [List.getElem?_concat_length] at hd
    cases hd
    rw [h.entryRecord_self he.ne_nil, ← h.nextNode]
    unfold attach
    rw [Vfs.setNode_node_of_ne _ _ (Nat.ne_of_gt hlt), Vfs.mallocNode_node_self]

/-- The root has its record. -/
theorem Attached.root_attach (h : Attached r node v es)
    (hn : nodeAt r es e.segs.dropLast = some n) :
    (attach r v es e n).node r = { ramfsDir ramName with inode := .nodes (childNodes r (es ++ [e]) []) } := by
  by_cases hnil : e.segs.dropLast = []
  · rw [hnil, nodeAt_nil] at hn
    cases hn
    rw [attach_node_self, hnil]
    rfl
  · have hunder : ¬ PathList.Under [] e.segs := fun hu => hnil hu.2
    have hother : r ≠ n := by
      rcases (nodeAt_eq_some hnil).mp hn with ⟨i, _, rfl⟩
      exact Nat.ne_of_lt (root_lt r i)
    have hlt : r < v.nextNode := by
      rw [h.nextNode]
      exact root_lt r _
    rw [attach_node_of_ne r es e hlt hother, h.root, childNodes_snoc, if_neg hunder, List.append_nil]

/-- **A turn for a file or a directory** whose parent is there adds its node. -/
theorem Attached.add (h : Attached r node v es) (he : e.Named) (hsupported : e.Supported)
    (hdir : DirAt es e.segs.dropLast) (hn : nodeAt r es e.segs.dropLast = some n) :
    addChild n v.nextNode (v.mallocNode (e.record es.length)) = .ok (attach r v es e n)
      ∧ Attached r (some v.nextNode) (attach r v es e n) (es ++ [e]) := by
  constructor
  · rcases h.directory_at hdir hn with ⟨hlt, hrecord⟩
    have hunder : PathList.Under e.segs.dropLast e.segs := ⟨he.ne_nil, rfl⟩
    unfold addChild attach
    rw [Vfs.mallocNode_node_of_lt v _ hlt, hrecord, childNodes_snoc, if_pos hunder, ← h.nextNode]
    rfl
  · refine ⟨h.ramfsRoot, ?_, ?_, h.root_attach hn, fun i d hd => h.record_attach he hdir hn hd,
      ?_, ?_, ?_⟩
    · show v.nextNode + 1 = _
      rw [h.nextNode, List.length_append]
      rfl
    · rw [if_neg (by simp), h.nextNode, List.length_append, List.length_singleton,
        Nat.add_assoc r, Nat.add_comm 1]
    · intro d hd
      rcases List.mem_append.mp hd with hold | hlast
      · exact h.named d hold
      · rw [List.mem_singleton.mp hlast]
        exact he
    · intro d hd
      rcases List.mem_append.mp hd with hold | hlast
      · exact h.supported d hold
      · rw [List.mem_singleton.mp hlast]
        exact hsupported
    · intro d hd
      apply DirAt.snoc
      rcases List.mem_append.mp hd with hold | hlast
      · exact h.parents d hold
      · rw [List.mem_singleton.mp hlast]
        exact hdir

/-! ## Many turns

By induction over the archive. -/

/-- The memory when the loop starts. -/
theorem attached_root (v : Vfs) (headers : List Nat) :
    Attached v.nextNode none
      { v.mallocNode (ramfsDir ramName) with ramfsRootNode := v.nextNode, headers := headers } [] where
  ramfsRoot := rfl
  nextNode := rfl
  node := rfl
  root := Vfs.mallocNode_node_self v _
  record i e he := by simp at he
  named e he := by cases he
  supported e he := by cases he
  parents e he := by cases he

/-- The turns for files and directories whose parents are there. -/
theorem ramfsLoop_attached {m : Mem} {a limit : Nat} {rest tail : List TarEntry}
    (h : Attached r node v es) (himage : ImageAt m a (rest ++ tail) limit)
    (hnamed : ∀ e ∈ rest, e.Named) (hsupported : ∀ e ∈ rest, e.Supported)
    (hdirs : ∀ before e after, rest = before ++ e :: after → DirAt (es ++ before) e.segs.dropLast) :
    ∃ a' node' v', ramfsLoop m es.length (headerAddresses a (rest ++ tail)) node v
        = ramfsLoop m (es ++ rest).length (headerAddresses a' tail) node' v'
      ∧ ImageAt m a' tail limit ∧ Attached r node' v' (es ++ rest) := by
  induction rest generalizing v es a node with
  | nil =>
    rw [List.append_nil]
    exact ⟨a, node, v, rfl, himage, h⟩
  | cons e rest ih =>
    rcases himage with ⟨hheader, himage⟩
    have he := hnamed e List.mem_cons_self
    -- the entry's directory is among the entries so far
    have hdir : DirAt es e.segs.dropLast := by
      have hfirst := hdirs [] e rest rfl
      rw [List.append_nil] at hfirst
      exact hfirst
    rcases h.directory hdir with ⟨n, hn, _⟩
    have he_supported := hsupported e List.mem_cons_self
    rcases h.add he he_supported hdir hn with ⟨hadd, hnext⟩
    have hturn := ramfsAdd_supported (i := es.length) hheader he he_supported
      (h.createPath_entry he.ne_nil hn) node
    rw [hadd] at hturn
    have hdirs' : ∀ before u after, rest = before ++ u :: after →
        DirAt (es ++ [e] ++ before) u.segs.dropLast := by
      intro before u after hsplit
      rw [List.append_assoc]
      exact hdirs (e :: before) u after (by rw [hsplit]; rfl)
    rcases ih hnext himage (fun u hu => hnamed u (List.mem_cons_of_mem _ hu))
      (fun u hu => hsupported u (List.mem_cons_of_mem _ hu)) hdirs'
      with ⟨a', node', v', hloop, htail, hrest⟩
    rw [List.append_assoc, List.length_append, List.length_singleton] at hloop
    rw [List.append_assoc] at hrest
    refine ⟨a', node', v', ?_, htail, hrest⟩
    rw [List.cons_append, headerAddresses, addresses, ramfsLoop, hturn]
    exact hloop

/-! ## The tree of the entries so far

Which nodes should be in which directory, and which are. -/

/-- What is listed in the root or in the node of an entry. -/
theorem Attached.list_cases (h : Attached r node v es)
    (hn : p = [] ∧ n = r ∨ ∃ i e, es[i]? = some e ∧ e.segs = p ∧ r + 1 + i = n) :
    (v.node n).inode.list = []
      ∨ nodeAt r es p = some n ∧ (v.node n).inode.list = childNodes r es p := by
  rcases hn with ⟨rfl, rfl⟩ | ⟨i, e, he, rfl, rfl⟩
  · right
    rw [h.root]
    exact ⟨nodeAt_nil _ es, rfl⟩
  · rw [h.record i e he]
    unfold entryRecord
    cases hdir : e.isDir with
    | false => exact Or.inl rfl
    | true =>
      by_cases hat : nodeAt r es e.segs = some (r + 1 + i)
      · rw [if_pos hat]
        exact Or.inr ⟨hat, rfl⟩
      · rw [if_neg hat]
        exact Or.inl rfl

/-- A node of the tree is the root, or that of an entry with its path. -/
theorem Attached.of_inTree (h : Attached r node v es) (hn : InTree v n p) :
    p = [] ∧ n = r ∨ ∃ i e, es[i]? = some e ∧ e.segs = p ∧ r + 1 + i = n := by
  induction hn with
  | root => exact Or.inl ⟨rfl, h.ramfsRoot⟩
  | @child d n p _ _ hn ih =>
    right
    rcases h.list_cases ih with hnone | ⟨_, hlist⟩
    · rw [hnone] at hn
      cases hn
    · rw [hlist] at hn
      rcases mem_childNodes.mp hn with ⟨i, e, he, hunder, rfl⟩
      refine ⟨i, e, he, ?_, rfl⟩
      rw [h.name he, ← hunder.2]
      exact (dropLast_append_nodeName hunder.1).symm

/-- The node of an entry hangs under that of its directory. -/
theorem Attached.inTree_child (h : Attached r node v es) (he : es[i]? = some e)
    (hn : nodeAt r es e.segs.dropLast = some n) (hd : InTree v n e.segs.dropLast) :
    InTree v (r + 1 + i) e.segs := by
  rcases h.listed he with ⟨d, hd_at, _, hflags, hin⟩
  rw [hn] at hd_at
  cases hd_at
  have hchild := InTree.child hd hflags hin
  rw [h.name he, dropLast_append_nodeName (h.named e (List.mem_of_getElem? he)).ne_nil] at hchild
  exact hchild

/-- A directory is in the tree. -/
theorem Attached.inTree_dir (h : Attached r node v es) (hdir : DirAt es p)
    (hn : nodeAt r es p = some n) : InTree v n p := by
  induction p using List.reverseRecOn generalizing n with
  | nil =>
    rw [nodeAt_nil] at hn
    cases hn
    have hroot := InTree.root (v := v)
    rw [h.ramfsRoot] at hroot
    exact hroot
  | append_singleton p s ih =>
    have hne : p ++ [s] ≠ [] := List.append_ne_nil_of_right_ne_nil p (List.cons_ne_nil s [])
    rcases (nodeAt_eq_some hne).mp hn with ⟨i, hi, rfl⟩
    rcases getElem?_of_first hi with ⟨e, he, hsegs⟩
    -- the directory above has a shorter path
    have hparent : DirAt es p := by
      have hdrop := h.parents e (List.mem_of_getElem? he)
      rw [hsegs, List.dropLast_concat] at hdrop
      exact hdrop
    rcases h.directory hparent with ⟨d, hd, _⟩
    have hlast : e.segs.dropLast = p := by rw [hsegs, List.dropLast_concat]
    rw [← hsegs]
    apply h.inTree_child he (n := d)
    · rw [hlast]
      exact hd
    · rw [hlast]
      exact ih hparent hd

/-- Every entry has its place in the tree. -/
theorem Attached.inTree_entry (h : Attached r node v es) (he : es[i]? = some e) :
    InTree v (r + 1 + i) e.segs := by
  have hparent := h.parents e (List.mem_of_getElem? he)
  rcases h.directory hparent with ⟨n, hn, _⟩
  exact h.inTree_child he hn (h.inTree_dir hparent hn)

/-- **The invariant at the end** of the loop: each entry is attached once. -/
theorem Attached.once (h : Attached r node v es) : AttachedOnce v es fun i => r + 1 + i where
  path i e he _ := h.inTree_entry he
  kind i e he _ := by
    rw [h.record i e he]
    unfold entryRecord
    split <;> rfl
  file i e he _ hfile := by
    rw [h.record i e he]
    unfold entryRecord
    rw [hfile]
    rfl
  distinct i j d e _ _ _ _ heq := Nat.add_left_cancel heq
  ne_root i e _ _ := by
    rw [h.ramfsRoot]
    exact Nat.ne_of_gt (root_lt r i)
  only d p n hd hn := by
    rcases h.list_cases (h.of_inTree hd) with hnone | ⟨_, hlist⟩
    · rw [hnone] at hn
      cases hn
    · rw [hlist] at hn
      rcases mem_childNodes.mp hn with ⟨i, e, he, _, hi⟩
      exact ⟨i, e, he, h.supported e (List.mem_of_getElem? he), hi⟩
  nodup d p hd := by
    rcases h.list_cases (h.of_inTree hd) with hnone | ⟨_, hlist⟩
    · rw [hnone]
      exact List.nodup_nil
    · rw [hlist]
      exact nodup_childNodes r es p
  once d p d' p' n hd hd' hn hn' := by
    rcases h.list_cases (h.of_inTree hd) with hnone | ⟨hat, hlist⟩
    · rw [hnone] at hn
      cases hn
    · rcases h.list_cases (h.of_inTree hd') with hnone | ⟨hat', hlist'⟩
      · rw [hnone] at hn'
        cases hn'
      · -- the parent's path is that of the entry without its last name
        rw [hlist] at hn
        rw [hlist'] at hn'
        rcases mem_childNodes.mp hn with ⟨i, e, he, hunder, rfl⟩
        rcases mem_childNodes.mp hn' with ⟨j, e', he', hunder', heq⟩
        obtain rfl := Nat.add_left_cancel heq
        rw [he] at he'
        cases he'
        rw [← hunder.2] at hat
        rw [← hunder'.2, hat] at hat'
        exact Option.some.inj hat'

end

end DiyOS
