import DiyOS.Fs.Attach

/-!
# Entries that `ramfs` does not support

For a link, a device or a FIFO the `switch` of `ramfs` makes no node, and the turn adds that of the turn
before once more. No later turn takes it away: lists only get longer.

* **`Extends`** — what every turn keeps.
* **`Attached.spoiled`** — after a turn for such an entry, or for one whose parent is a file, the tree
  is wrong to the end.
* **`ramfs_attaches_iff`** — each entry is attached once exactly if no entry is of another type, no file
  comes before a directory with its path, and there are at most 64 entries.
-/

namespace DiyOS

open Word CString

/-! ## Lists only get longer -/

/-- What the turns keep of the nodes that are there. -/
structure Extends (v v' : Vfs) : Prop where
  ramfsRoot : v'.ramfsRootNode = v.ramfsRootNode
  nextNode : v.nextNode ≤ v'.nextNode
  name : ∀ n < v.nextNode, (v'.node n).name = (v.node n).name
  flags : ∀ n < v.nextNode, (v'.node n).flags = (v.node n).flags
  nodes : ∀ n < v.nextNode, ∀ l, (v.node n).inode = .nodes l →
    ∃ l', (v'.node n).inode = .nodes l' ∧ l <+: l'

section

variable {v v' v'' : Vfs} {d n : NodePtr}

theorem Extends.refl (v : Vfs) : Extends v v :=
  ⟨rfl, Nat.le_refl _, fun _ _ => rfl, fun _ _ => rfl, fun _ _ l hl => ⟨l, hl, List.prefix_refl l⟩⟩

theorem Extends.trans (h : Extends v v') (h' : Extends v' v'') : Extends v v'' where
  ramfsRoot := h'.ramfsRoot.trans h.ramfsRoot
  nextNode := Nat.le_trans h.nextNode h'.nextNode
  name n hn := (h'.name n (Nat.lt_of_lt_of_le hn h.nextNode)).trans (h.name n hn)
  flags n hn := (h'.flags n (Nat.lt_of_lt_of_le hn h.nextNode)).trans (h.flags n hn)
  nodes n hn l hl := by
    rcases h.nodes n hn l hl with ⟨l', hl', hprefix⟩
    rcases h'.nodes n (Nat.lt_of_lt_of_le hn h.nextNode) l' hl' with ⟨l'', hl'', hprefix'⟩
    exact ⟨l'', hl'', hprefix.trans hprefix'⟩

/-- `malloc` of a node. -/
theorem extends_mallocNode (v : Vfs) (rec : FsNode) : Extends v (v.mallocNode rec) where
  ramfsRoot := rfl
  nextNode := Nat.le_succ _
  name n hn := by rw [Vfs.mallocNode_node_of_lt v rec hn]
  flags n hn := by rw [Vfs.mallocNode_node_of_lt v rec hn]
  nodes n hn l hl := by
    rw [Vfs.mallocNode_node_of_lt v rec hn]
    exact ⟨l, hl, List.prefix_refl l⟩

theorem extends_addChild (h : addChild d n v = .ok v') : Extends v v' := by
  rcases addChild_ok h with ⟨l, hlist, rfl⟩
  refine ⟨rfl, Nat.le_refl _, ?_, ?_, ?_⟩
  · intro c _
    by_cases hc : c = d
    · rw [hc, Vfs.setNode_node_self]
    · rw [Vfs.setNode_node_of_ne _ _ hc]
  · intro c _
    by_cases hc : c = d
    · rw [hc, Vfs.setNode_node_self]
    · rw [Vfs.setNode_node_of_ne _ _ hc]
  · intro c _ l' hl'
    by_cases hc : c = d
    · rw [hc] at hl' ⊢
      rw [hl'] at hlist
      cases hlist
      rw [Vfs.setNode_node_self]
      exact ⟨l ++ [n], rfl, List.prefix_append l [n]⟩
    · rw [Vfs.setNode_node_of_ne _ _ hc]
      exact ⟨l', hl', List.prefix_refl l'⟩

theorem extends_keeps (v : Vfs) : RamfsKeeps (Extends v) where
  dir _ _ h := h.trans (extends_mallocNode _ _)
  file _ _ _ h := h.trans (extends_mallocNode _ _)
  child _ _ _ _ hadd h := h.trans (extends_addChild hadd)

/-- One turn of the loop. -/
theorem extends_ramfsAdd {m : Mem} {i header : Nat} {node node' : Option NodePtr}
    (h : ramfsAdd m i header node v = .ok (node', v')) : Extends v v' :=
  (extends_keeps v).turn (Extends.refl v) h

theorem extends_ramfsLoop {m : Mem} {headers : List Nat} {i : Nat} {node : Option NodePtr}
    (h : ramfsLoop m i headers node v = .ok v') : Extends v v' :=
  (extends_keeps v).loop (Extends.refl v) h

/-! ## A tree that has gone wrong -/

theorem Extends.list_prefix (h : Extends v v') (hn : n < v.nextNode) :
    (v.node n).inode.list <+: (v'.node n).inode.list := by
  cases hinode : (v.node n).inode with
  | index i => exact List.nil_prefix
  | nodes l =>
    rcases h.nodes n hn l hinode with ⟨l', hl', hprefix⟩
    rw [hl']
    exact hprefix

/-- What hangs in the tree stays there. -/
theorem Extends.inTree (h : Extends v v') (hlt : ∀ n p, InTree v n p → n < v.nextNode)
    {p : List CString} (hn : InTree v n p) : InTree v' n p := by
  induction hn with
  | root =>
    have hroot := InTree.root (v := v')
    rw [h.ramfsRoot] at hroot
    exact hroot
  | @child d n p hd hdir hn ih =>
    have hd_lt := hlt d p hd
    have hn_lt := hlt n _ (InTree.child hd hdir hn)
    have hflags := (h.flags d hd_lt).trans hdir
    rw [← h.name n hn_lt]
    exact InTree.child ih hflags ((h.list_prefix hd_lt).subset hn)

variable {r : NodePtr} {node : Option NodePtr} {es all : List TarEntry} {e : TarEntry}
  {p : List CString} {nodeOf : Nat → NodePtr} {i : Nat}

theorem Attached.inTree_lt (h : Attached r node v es) (n : NodePtr) (p : List CString)
    (hn : InTree v n p) : n < v.nextNode := by
  rw [h.nextNode]
  rcases h.of_inTree hn with ⟨_, rfl⟩ | ⟨i, e, he, _, rfl⟩
  · exact root_lt n _
  · exact Nat.add_lt_add_left (List.getElem?_eq_some_iff.mp he).1 _

/-- A file's node that has become a list. -/
theorem Attached.spoiled_file (h : Attached r node v es) (he : es[i]? = some e)
    (hfile : e.isDir = false) (hext : Extends v v') {l : List NodePtr}
    (hlist : (v'.node (r + 1 + i)).inode = .nodes l) : ¬ AttachedOnce v' all nodeOf := by
  intro honce
  have hparent := h.parents e (List.mem_of_getElem? he)
  rcases h.listed he with ⟨d, hd, hd_lt, _, hin⟩
  have hlt : r + 1 + i < v.nextNode := h.inTree_lt _ _ (h.inTree_entry he)
  have htree := hext.inTree h.inTree_lt (h.inTree_dir hparent hd)
  -- it is listed, so it is the node of some entry, and that entry a file
  rcases honce.only d _ _ htree ((hext.list_prefix hd_lt).subset hin) with ⟨j, u, hu, hsupported, hj⟩
  have hflags : (v'.node (r + 1 + i)).flags = FS_FILE := by
    rw [hext.flags _ hlt, h.record i e he]
    unfold entryRecord
    rw [hfile]
    rfl
  have hkind := honce.kind j u hu hsupported
  rw [hj, hflags] at hkind
  cases hdir : u.isDir with
  | true =>
    rw [hdir] at hkind
    exact absurd hkind (by decide)
  | false =>
    have hinode := honce.file j u hu hsupported hdir
    rw [hj, hlist] at hinode
    cases hinode

/-- A node added once more. -/
theorem Attached.spoiled_stale (h : Attached r node v es) (hdir : DirAt es p)
    (hn : nodeAt r es p = some n) (he : es[i]? = some e) (hadd : addChild n (r + 1 + i) v = .ok v')
    (hext : Extends v' v'') : ¬ AttachedOnce v'' all nodeOf := by
  intro honce
  have hparent := h.parents e (List.mem_of_getElem? he)
  have hall : Extends v v'' := (extends_addChild hadd).trans hext
  rcases h.directory_at hdir hn with ⟨hlt, hrecord⟩
  rcases h.listed he with ⟨d, hd, hd_lt, _, hown⟩
  have hlonger : childNodes r es p ++ [r + 1 + i] <+: (v''.node n).inode.list := by
    rcases addChild_ok hadd with ⟨l, hl, rfl⟩
    rw [hrecord] at hl
    cases hl
    have hprefix := hext.list_prefix (n := n) hlt
    rw [Vfs.setNode_node_self] at hprefix
    exact hprefix
  have hn_tree := hall.inTree h.inTree_lt (h.inTree_dir hdir hn)
  have hd_tree := hall.inTree h.inTree_lt (h.inTree_dir hparent hd)
  have hlast : r + 1 + i ∈ (v''.node n).inode.list := hlonger.subset (by simp)
  -- the directory must be its own one, which has it already
  have hsame := honce.once n p d _ _ hn_tree hd_tree hlast ((hall.list_prefix hd_lt).subset hown)
  rw [← hsame, hrecord] at hown
  have hnodup := hlonger.sublist.nodup (honce.nodup n p hn_tree)
  exact (List.nodup_append.mp hnodup).2.2 _ hown _ (List.mem_singleton_self _) rfl

/-! ## Archives of any entries -/

/-- The entry `e` of the archive `es` gets a node, and the first entry with its parent's path is a
directory. -/
def Attachable (es : List TarEntry) (e : TarEntry) : Prop :=
  e.Supported ∧ ∀ d, es.find? (fun b => b.segs = e.segs.dropLast) = some d → d.isDir = true

theorem find?_eq_first (es : List TarEntry) (p : List CString) :
    es.find? (fun b => b.segs = p) = (PathList.first (es.map TarEntry.segs) p).bind fun i => es[i]? := by
  unfold PathList.first
  rw [List.findIdx?_map, List.find?_eq_bind_findIdx?_getElem?]
  rfl

/-- Where the first entry with a path is, if there is one. -/
theorem dirAt_iff (hne : ∀ e ∈ es, e.segs ≠ []) (hmem : p = [] ∨ p ∈ es.map TarEntry.segs) :
    DirAt es p ↔ ∀ d, es.find? (fun b => b.segs = p) = some d → d.isDir = true := by
  by_cases hp : p = []
  · -- no entry has the root's path
    refine iff_of_true (Or.inl hp) fun d hd => ?_
    have hsegs : d.segs = p := by simpa using List.find?_some hd
    exact absurd (hsegs.trans hp) (hne d (List.mem_of_find?_eq_some hd))
  · rcases PathList.exists_first (hmem.resolve_left hp) with ⟨i, hi⟩
    rcases getElem?_of_first hi with ⟨d, hd, _⟩
    have hfind : es.find? (fun b => b.segs = p) = some d := by
      rw [find?_eq_first, hi]
      exact hd
    rw [hfind]
    unfold DirAt
    constructor
    · rintro (hnil | ⟨j, d', hj, hd', hdir⟩) u hu
      · exact absurd hnil hp
      · rw [hi] at hj
        cases hj
        rw [hd] at hd'
        cases hd'
        cases hu
        exact hdir
    · intro hdir
      exact Or.inr ⟨i, d, hi, hd, hdir d rfl⟩

/-- In an archive the parent of an entry is among the entries before it. -/
theorem MixedArchive.dirAt_iff {m : Mem} {a limit : Nat} (hes : MixedArchive m a limit es)
    {before after : List TarEntry} (hsplit : es = before ++ e :: after) :
    (e.segs.dropLast = [] ∨ e.segs.dropLast ∈ before.map TarEntry.segs)
      ∧ (DirAt before e.segs.dropLast
        ↔ ∀ d, es.find? (fun b => b.segs = e.segs.dropLast) = some d → d.isDir = true) := by
  have hlisted : e.segs.dropLast = [] ∨ e.segs.dropLast ∈ before.map TarEntry.segs := by
    by_cases hnil : e.segs.dropLast = []
    · exact Or.inl hnil
    · rcases hes.parents before e after hsplit hnil with ⟨b, hb, _, hsegs⟩
      exact Or.inr (List.mem_map.mpr ⟨b, hb, hsegs⟩)
  have hbefore : ∀ b ∈ before, b.segs ≠ [] := by
    intro b hb
    exact (hes.named b (by rw [hsplit]; exact List.mem_append_left _ hb)).ne_nil
  refine ⟨hlisted, ?_⟩
  rw [DiyOS.dirAt_iff hbefore hlisted]
  rcases hlisted with hnil | hin
  · -- no entry has the root's path
    have hnone : ∀ l : List TarEntry, (∀ b ∈ l, b.segs ≠ []) →
        l.find? (fun b => b.segs = e.segs.dropLast) = none := by
      intro l hl
      rw [List.find?_eq_none]
      intro b hb
      rw [hnil]
      simpa using hl b hb
    rw [hnone before hbefore, hnone es fun b hb => (hes.named b hb).ne_nil]
  · rcases PathList.exists_first hin with ⟨i, hi⟩
    rcases getElem?_of_first hi with ⟨d, hd, _⟩
    have hfind : before.find? (fun b => b.segs = e.segs.dropLast) = some d := by
      rw [find?_eq_first, hi]
      exact hd
    rw [hsplit, List.find?_append, hfind]
    rfl

/-- The first entry that is not attachable. -/
theorem exists_first_unattachable (h : ¬ ∀ e ∈ es, Attachable es e) :
    ∃ before e after, es = before ++ e :: after ∧ (∀ b ∈ before, Attachable es b)
      ∧ ¬ Attachable es e := by
  classical
  cases hfind : es.find? fun e => !decide (Attachable es e) with
  | none =>
    refine absurd (fun e he => ?_) h
    simpa using List.find?_eq_none.mp hfind e he
  | some e =>
    rcases List.find?_eq_some_iff_append.mp hfind with ⟨hbad, before, after, hsplit, hbefore⟩
    exact ⟨before, e, after, hsplit, by simpa using hbefore, by simpa using hbad⟩

section

variable {m : Mem} {a limit fuel : Nat}

/-- The loop over the entries up to the first one that is not attachable. -/
theorem MixedArchive.loop (hes : MixedArchive m a limit es) {before rest : List TarEntry}
    (hsplit : es = before ++ rest) (hbefore : ∀ b ∈ before, Attachable es b) (v : Vfs)
    (headers : List Nat) :
    ∃ a' node' v', ramfsLoop m 0 (headerAddresses a es) none
          { v.mallocNode (ramfsDir ramName) with ramfsRootNode := v.nextNode, headers := headers }
        = ramfsLoop m before.length (headerAddresses a' rest) node' v'
      ∧ ImageAt m a' rest limit ∧ Attached v.nextNode node' v' before := by
  have himage := hes.image
  rw [hsplit] at himage
  have hdirs : ∀ first b last, before = first ++ b :: last → DirAt ([] ++ first) b.segs.dropLast := by
    intro first b last heq
    have hwhole : es = first ++ b :: (last ++ rest) := by rw [hsplit, heq, List.append_assoc]; rfl
    exact (hes.dirAt_iff hwhole).2.mpr (hbefore b (by rw [heq]; simp)).2
  have hloop := ramfsLoop_attached (attached_root v headers) himage
    (fun b hb => hes.named b (by rw [hsplit]; exact List.mem_append_left _ hb))
    (fun b hb => (hbefore b hb).1) hdirs
  rw [List.nil_append, ← hsplit] at hloop
  exact hloop

/-- The directory that a turn adds to has a list after it. -/
theorem ramfsAdd_list {node' : Option NodePtr} (hheader : HeaderAt m a e) (he : e.Named)
    (hcreate : ramfsCreatePath v v.ramfsRootNode e.segs = .ok (n, v))
    (hturn : ramfsAdd m i a node v = .ok (node', v')) : ∃ l, (v'.node n).inode = .nodes l := by
  have hlist : ∀ {x : NodePtr} {w : Vfs}, addChild n x w = .ok v' →
      ∃ l, (v'.node n).inode = .nodes l := by
    intro x w hadd
    rcases addChild_ok hadd with ⟨l, _, rfl⟩
    exact ⟨l ++ [x], by rw [Vfs.setNode_node_self]⟩
  by_cases hsupported : e.Supported
  · rw [ramfsAdd_supported hheader he hsupported hcreate] at hturn
    exact hlist (RamfsKeeps.addChild_of_turn hturn).1
  · rw [ramfsAdd_unsupported hheader he hsupported hcreate] at hturn
    cases node with
    | none => cases hturn
    | some x => exact hlist (RamfsKeeps.addChild_of_turn hturn).1

/-- **After an entry that is not attachable** the tree is wrong to the end, if the loop ends at all. -/
theorem Attached.spoiled {node' : Option NodePtr} (h : Attached r node v es) (he : e.Named)
    (hheader : HeaderAt m a e) (hlisted : e.segs.dropLast = [] ∨ e.segs.dropLast ∈ es.map TarEntry.segs)
    (hbad : ¬ (e.Supported ∧ DirAt es e.segs.dropLast))
    (hturn : ramfsAdd m i a node v = .ok (node', v')) (hext : Extends v' v'') :
    ¬ AttachedOnce v'' all nodeOf := by
  by_cases hdir : DirAt es e.segs.dropLast
  · -- an entry of another type: the node of the entry before it is added once more
    have hunsupported : ¬ e.Supported := fun hsupported => hbad ⟨hsupported, hdir⟩
    rcases h.directory hdir with ⟨n, hn, _⟩
    rw [ramfsAdd_unsupported hheader he hunsupported (h.createPath_entry he.ne_nil hn)] at hturn
    cases hnode : node with
    | none =>
      rw [hnode] at hturn
      cases hturn
    | some x =>
      have hstale := h.node
      rw [hnode] at hturn hstale
      by_cases hnil : es = []
      · rw [if_pos hnil] at hstale
        cases hstale
      · rw [if_neg hnil] at hstale
        have hpos := List.length_pos_iff.mpr hnil
        have hx : x = r + 1 + (es.length - 1) := by
          rw [Option.some.inj hstale, Nat.add_assoc]
          congr 1
          omega
        have hlast : es[es.length - 1]? = some (es[es.length - 1]) := List.getElem?_eq_getElem (by omega)
        rw [hx] at hturn
        exact h.spoiled_stale hdir hn hlast (RamfsKeeps.addChild_of_turn hturn).1 hext
  · -- the search for the parent finds a file
    have hne : e.segs.dropLast ≠ [] := fun hnil => hdir (Or.inl hnil)
    rcases nodeAt_isSome_of_mem (r := r) (hlisted.resolve_left hne) hne with ⟨j, hj, hn⟩
    rcases getElem?_of_first hj with ⟨d, hd, _⟩
    have hfile : d.isDir = false := by
      cases hkind : d.isDir with
      | true => exact absurd (Or.inr ⟨j, d, hj, hd, hkind⟩) hdir
      | false => rfl
    have hall := extends_ramfsAdd hturn
    have hlt := h.inTree_lt _ _ (h.inTree_entry hd)
    rcases ramfsAdd_list hheader he (h.createPath_entry he.ne_nil hn) hturn with ⟨l, hl⟩
    rcases hext.nodes _ (Nat.lt_of_lt_of_le hlt hall.nextNode) l hl with ⟨l', hl', _⟩
    exact h.spoiled_file hd hfile (hall.trans hext) hl'

/-- `fs_register` is no change to the tree. -/
theorem extends_fsRegister (x : NodePtr) (v : Vfs) : Extends v (fsRegister x v) :=
  ⟨rfl, Nat.le_refl _, fun _ _ => rfl, fun _ _ => rfl, fun _ _ l hl => ⟨l, hl, List.prefix_refl l⟩⟩

/-- **A loop that ends** over an archive with such an entry leaves a wrong tree. -/
theorem MixedArchive.spoiled (hes : MixedArchive m a limit es) {before after : List TarEntry}
    (hsplit : es = before ++ e :: after) (hbefore : ∀ b ∈ before, Attachable es b)
    (hbad : ¬ Attachable es e) {headers : List Nat}
    (hcall : ramfsLoop m 0 (headerAddresses a es) none
      { v.mallocNode (ramfsDir ramName) with ramfsRootNode := v.nextNode, headers := headers } = .ok v') :
    ¬ AttachedOnce (fsRegister v.nextNode v') es nodeOf := by
  rcases hes.loop hsplit hbefore v headers with ⟨a', node, w, hloop, himage, hattached⟩
  rcases hes.dirAt_iff hsplit with ⟨hlisted, hdirAt⟩
  have he := hes.named e (by rw [hsplit]; simp)
  have hnot : ¬ (e.Supported ∧ DirAt before e.segs.dropLast) := by
    intro hgood
    exact hbad ⟨hgood.1, hdirAt.mp hgood.2⟩
  rw [hloop, headerAddresses, addresses, ramfsLoop] at hcall
  cases hturn : ramfsAdd m before.length a' node w with
  | error err =>
    rw [hturn] at hcall
    cases hcall
  | ok next =>
    rw [hturn] at hcall
    have hrest := (extends_ramfsLoop hcall).trans (extends_fsRegister v.nextNode v')
    exact hattached.spoiled he himage.1 hlisted hnot hturn hrest

/-- **Each entry is attached once** — the archive is loaded, and its files and directories have one node
each, under their own parents — exactly if there are at most 64 entries, all of them files or directories,
and no file comes before a directory with its path. -/
theorem ramfs_attaches_iff (hes : MixedArchive m a limit es) (hfuel : 64 < fuel) (v : Vfs) :
    (∃ v' nodeOf, ramfs m fuel a limit v = .ok v' ∧ AttachedOnce v' es nodeOf)
      ↔ es.length ≤ 64 ∧ ∀ e ∈ es, Attachable es e := by
  by_cases hcount : es.length ≤ 64
  · have hparse : tarParse m fuel 0 a limit = .ok (headerAddresses a es) :=
      tarParse_image hes.limit_lt hes.named hes.image hcount (Nat.lt_of_le_of_lt hcount hfuel)
    unfold ramfs
    rw [hparse]
    simp only
    constructor
    · rintro ⟨v', nodeOf, hcall, honce⟩
      refine ⟨hcount, ?_⟩
      by_contra hnot
      rcases exists_first_unattachable hnot with ⟨before, e, after, hsplit, hbefore, hbad⟩
      cases hloop : ramfsLoop m 0 (headerAddresses a es) none
          { v.mallocNode (ramfsDir ramName) with
            ramfsRootNode := v.nextNode, headers := headerAddresses a es } with
      | error err =>
        rw [hloop] at hcall
        cases hcall
      | ok last =>
        rw [hloop] at hcall
        cases hcall
        exact hes.spoiled hsplit hbefore hbad hloop honce
    · rintro ⟨_, hall⟩
      rcases hes.loop (List.append_nil es).symm hall v (headerAddresses a es)
        with ⟨a', node, w, hloop, _, hattached⟩
      refine ⟨fsRegister v.nextNode w, fun i => v.nextNode + 1 + i, ?_, ?_⟩
      · rw [hloop]
        rfl
      · have hregistered : Attached v.nextNode node (fsRegister v.nextNode w) es :=
          ⟨hattached.ramfsRoot, hattached.nextNode, hattached.node, hattached.root, hattached.record,
            hattached.named, hattached.supported, hattached.parents⟩
        exact hregistered.once
  · -- the walk over the headers stores beyond its 64 slots
    refine iff_of_false ?_ fun hboth => hcount hboth.1
    rintro ⟨v', nodeOf, hcall, _⟩
    unfold ramfs at hcall
    rw [tarParse_image_overfull hes.limit_lt hes.named hes.image (by omega) hfuel] at hcall
    cases hcall

end

end

theorem ramfs_attaches_small :
    ∃ v' nodeOf, ramfs smallImage 65 0 2048 (fsRoot bootVfs) = .ok v'
      ∧ AttachedOnce v' smallEntries nodeOf := by
  have hes : MixedArchive smallImage 0 2048 smallEntries :=
    ⟨by decide, smallImage_at, fun e he => (smallEntries_valid e he).named, smallEntries_parents⟩
  refine (ramfs_attaches_iff hes (show 64 < 65 by decide) (fsRoot bootVfs)).mpr ⟨by decide, ?_⟩
  intro e he
  refine ⟨(smallEntries_valid e he).type, ?_⟩
  revert e
  decide

/-- An archive with the empty file `f` and the symbolic link `l`. -/
def linkImage : Mem := fun x =>
  if 124 ≤ x ∧ x < 135 ∨ 636 ≤ x ∧ x < 647 then 48
  else ([(0, 102), (156, 48), (512, 108), (668, 50)].lookup x).getD 0

def linkEntries : List TarEntry := [⟨[[102]], REGTYPE, false, []⟩, ⟨[[108]], 50, false, []⟩]

/-- For the link the file's node is added to the root once more. -/
theorem ramfs_attaches_file_twice :
    MixedArchive linkImage 0 2048 linkEntries
      ∧ ¬ ∃ v' nodeOf, ramfs linkImage 65 0 2048 (fsRoot bootVfs) = .ok v'
        ∧ AttachedOnce v' linkEntries nodeOf := by
  constructor
  · have htop : ∀ e ∈ linkEntries, e.segs.dropLast = [] := by decide
    refine ⟨by decide, ⟨⟨⟨by decide, by decide, by decide, by decide⟩, by decide, by decide⟩,
      ⟨⟨by decide, by decide, by decide, by decide⟩, by decide, by decide⟩, ?_, by decide⟩, ?_, ?_⟩
    · decide +kernel
    · intro e he
      rcases List.mem_cons.mp he with rfl | hlink
      · exact ⟨by decide, by decide, by decide⟩
      · rw [List.mem_singleton.mp hlink]
        exact ⟨by decide, by decide, by decide⟩
    · intro before e after hsplit hne
      exact absurd (htop e (by rw [hsplit]; simp)) hne
  · rintro ⟨v', nodeOf, hcall, honce⟩
    have hlist : (match ramfs linkImage 65 0 2048 (fsRoot bootVfs) with
        | .ok v => (v.node v.ramfsRootNode).inode
        | .error _ => .index 0) = .nodes [7, 7] := by decide +kernel
    rw [hcall] at hlist
    have hnodup := honce.nodup _ _ InTree.root
    rw [show (v'.node v'.ramfsRootNode).inode = .nodes [7, 7] from hlist] at hnodup
    exact absurd hnodup (by decide)

end DiyOS
