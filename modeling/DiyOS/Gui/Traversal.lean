import DiyOS.Gui.Forest
import DiyOS.Lib.Run

/-!
# Calls of the constructors, and walks along the links

* **`create`** — a call of one of the constructors, with a list of what has been created with which parent.
* **`WidgetForest`** — what holds of the widgets then: the child lists, the parents, and that the walks of
  `widget_draw` and `widget_absolute_xy` end and where they go.
* **`widget_forest`** — it holds after every sequence of calls.
-/

namespace DiyOS

open Word

/-! ## The walks -/

section

variable {s : Widgets} {F : Forest Nat}

/-- What `widget_draw` does at a widget. -/
def visit (s : Widgets) (w : Nat) : Visit := ⟨w, drawCall s w⟩

/-- The loop over the children draws each of them with what is below it. -/
theorem drawSiblings_eq {l : List Nat} {a : Nat} (hl : Siblings s a l)
    (hdraw : ∀ c ∈ l, ∃ enough, ∀ fuel ≥ enough,
      widgetDraw fuel s c = .ok ((F.preorder c).map (visit s))) :
    ∃ enough, ∀ fuel ≥ enough, drawSiblings fuel s a = .ok ((l.flatMap F.preorder).map (visit s)) := by
  induction l generalizing a with
  | nil =>
    refine ⟨1, fun fuel hfuel => ?_⟩
    rcases Nat.exists_eq_add_of_le' hfuel with ⟨fuel, rfl⟩
    rw [drawSiblings]
    exact if_pos hl
  | cons c l ih =>
    rcases hl with ⟨rfl, hne, hrest⟩
    rcases hdraw a List.mem_cons_self with ⟨n, hn⟩
    rcases ih hrest fun d hd => hdraw d (List.mem_cons_of_mem a hd) with ⟨m, hm⟩
    refine ⟨max n m + 1, fun fuel hfuel => ?_⟩
    rcases Nat.exists_eq_add_of_le' (Nat.le_of_add_left_le hfuel) with ⟨fuel, rfl⟩
    rw [drawSiblings, if_neg hne, hn fuel (by omega), hm fuel (by omega), List.flatMap_cons, List.map_append]
    rfl

/-- **`widget_draw`** ends, and comes to a widget and all that is below it in preorder. -/
theorem widgetDraw_eq (h : Holds s F) {w : Nat} (hw : w ∈ F.nodes) :
    ∃ enough, ∀ fuel ≥ enough, widgetDraw fuel s w = .ok ((F.preorder w).map (visit s)) := by
  revert hw
  refine F.downward_induction (P := fun w => w ∈ F.nodes → ∃ enough, ∀ fuel ≥ enough,
    widgetDraw fuel s w = .ok ((F.preorder w).map (visit s))) ?_ w
  intro w ih hw
  obtain ⟨n, hn⟩ := drawSiblings_eq (h.threaded.child w hw) fun c hc =>
    ih c hc ((F.children_sublist w).subset hc)
  have hne : w ≠ null := by
    rintro rfl
    exact h.threaded.nil_not_mem hw
  refine ⟨n + 1, fun fuel hfuel => ?_⟩
  rcases Nat.exists_eq_add_of_le' (Nat.le_of_add_left_le hfuel) with ⟨fuel, rfl⟩
  rw [widgetDraw, if_neg hne, h.onPaint w hw, F.preorder_eq, List.map_cons]
  dsimp only [Option.any_none]
  rw [if_neg Bool.false_ne_true, hn fuel (by omega)]
  rfl

/-- What the ancestors add to a coordinate. -/
def offset (s : Widgets) (f : Widget → Nat) (above : List Nat) : Nat :=
  (above.map fun a => f (s.widget a)).sum

/-- The loop of `widget_absolute_xy` from the parent of `w` on. -/
theorem addAncestors_eq (h : Holds s F) {w : Nat} (hw : w ∈ F.nodes) (x y : Nat) :
    ∃ enough, ∀ fuel ≥ enough, addAncestors fuel s (s.widget w).parent (u32 x, u32 y)
      = .ok (u32 (x + offset s (fun a => a.x + a.paddingLeft) (F.ancestors w)),
          u32 (y + offset s (fun a => a.y + a.paddingTop) (F.ancestors w))) := by
  revert hw x y
  -- the sums so far are arbitrary: the induction is on the ancestors that are left
  refine F.upward_induction (P := fun w => w ∈ F.nodes → ∀ x y, ∃ enough, ∀ fuel ≥ enough,
    addAncestors fuel s (s.widget w).parent (u32 x, u32 y)
      = .ok (u32 (x + offset s (fun a => a.x + a.paddingLeft) (F.ancestors w)),
          u32 (y + offset s (fun a => a.y + a.paddingTop) (F.ancestors w)))) ?_ ?_ w
  · intro w hroot hw x y
    have hparent : (s.widget w).parent = null := by
      rw [h.threaded.parent w hw, hroot]
      rfl
    refine ⟨1, fun fuel hfuel => ?_⟩
    rcases Nat.exists_eq_add_of_le' hfuel with ⟨fuel, rfl⟩
    rw [hparent, addAncestors, if_pos rfl, F.ancestors_of_none hroot]
    rfl
  · intro w p hp ih hw x y
    have hparent : (s.widget w).parent = p := by
      rw [h.threaded.parent w hw, hp]
      rfl
    have hpmem := F.mem_of_under hp
    have hne : p ≠ null := by
      rintro rfl
      exact h.threaded.nil_not_mem hpmem
    obtain ⟨n, hn⟩ := ih hpmem (x + ((s.widget p).x + (s.widget p).paddingLeft))
      (y + ((s.widget p).y + (s.widget p).paddingTop))
    have hword : ∀ a b, u32 (u32 a + u32 b) = u32 (a + b) := fun a b => (Nat.add_mod a b _).symm
    refine ⟨n + 1, fun fuel hfuel => ?_⟩
    rcases Nat.exists_eq_add_of_le' (Nat.le_of_add_left_le hfuel) with ⟨fuel, rfl⟩
    rw [hparent, addAncestors, if_neg hne]
    dsimp only
    rw [hword, hword, hn fuel (by omega), F.ancestors_of_some hp]
    unfold offset
    rw [List.map_cons, List.map_cons, List.sum_cons, List.sum_cons, Nat.add_assoc x, Nat.add_assoc y]

end

/-! ## Sequences of calls -/

/-- The widgets, and a list of those created so far with the parent that each was given. -/
structure CreateState where
  widgets : Widgets
  created : List (Nat × Nat)

/-- The widgets created so far, in that order. -/
def CreateState.nodes (g : CreateState) : List Nat := g.created.map Prod.fst

/-- A call of a constructor, with the addresses that its calls of `malloc` return; or the assignment of
a widget to `desktop_window`, which is the parent of the windows. -/
inductive Create where
  | widget (mem cls x y w h parent : Nat)
  | window (mem nameMem w h : Nat)
  | label (mem textMem : Nat) (text : Option (List UInt8)) (parent : Nat)
  | button (mem labelMem textMem : Nat) (caption : Option (List UInt8)) (parent : Nat)
  | edit (mem textMem parent : Nat)
  | fileNavigator (mem : Nat) (directory : Option (List UInt8 × Listing)) (parent : Nat)
  | desktop (window : Nat)

section

variable (chosen : Dirent → Nat → Widgets → Except Halt Widgets)

def create (fuel : Nat) (g : CreateState) : Create → Except Halt CreateState
  | .widget mem cls x y w h parent => do
    let (p, s) ← widgetCreate fuel g.widgets mem cls x y w h parent
    .ok ⟨s, g.created ++ record p parent⟩
  | .window mem nameMem w h => do
    let (p, s) ← windowCreate fuel g.widgets mem nameMem w h
    .ok ⟨s, g.created ++ record p g.widgets.desktopWindow⟩
  | .label mem textMem text parent => do
    let (p, s) ← labelCreate fuel g.widgets mem textMem text parent
    .ok ⟨s, g.created ++ record p parent⟩
  | .button mem labelMem textMem caption parent => do
    let (p, s) ← buttonCreate fuel g.widgets mem labelMem textMem caption parent
    .ok ⟨s, g.created ++ buttonRecord p parent (s.button p).label⟩
  | .edit mem textMem parent => do
    let (p, s) ← editCreate fuel g.widgets mem textMem parent
    .ok ⟨s, g.created ++ record p parent⟩
  | .fileNavigator mem directory parent => do
    let (p, s) ← fileNavigatorCreate chosen fuel g.widgets mem directory parent
    .ok ⟨s, g.created ++ record p parent⟩
  | .desktop window => .ok { g with widgets := { g.widgets with desktopWindow := window } }

/-- `malloc` returns the null pointer or memory in which no widget lies. -/
def Fresh (g : CreateState) (mem : Nat) : Prop := mem = null ∨ mem ∉ g.nodes

/-- The null pointer or a widget created before. -/
def Given (g : CreateState) (p : Nat) : Prop := p = null ∨ p ∈ g.nodes

/-- What a call needs. -/
def Create.Valid (g : CreateState) : Create → Prop
  | .widget mem _ _ _ _ _ parent => Fresh g mem ∧ Given g parent
  | .window mem .. => Fresh g mem
  | .label mem _ _ parent => Fresh g mem ∧ Given g parent
  | .button mem labelMem _ _ parent =>
    Fresh g mem ∧ (labelMem = null ∨ labelMem ∉ g.nodes ∧ labelMem ≠ mem) ∧ Given g parent
  | .edit mem _ parent => Fresh g mem ∧ Given g parent
  | .fileNavigator mem _ parent => Fresh g mem ∧ Given g parent
  | .desktop p => Given g p

/-- A call that returns. -/
def createStep (g : CreateState) (c : Create) (g' : CreateState) : Prop :=
  c.Valid g ∧ ∃ fuel, create chosen fuel g c = .ok g'

omit chosen in
/-- A constructor that returns what has then been listed. -/
theorem recorded {g : CreateState} {x : Except Halt (Nat × Widgets)} {fuel mem parent : Nat}
    (hx : Yields fuel g.created.length
      (fun r => r.1 = mem ∧ Built r.2 (g.created ++ record r.1 parent)) x) :
    Yields fuel (g.created.length + 1) (fun g' : CreateState => Built g'.widgets g'.created)
      (x >>= fun r => .ok ⟨r.2, g.created ++ record r.1 parent⟩) :=
  (hx.mono (Nat.le_succ _) fun _ hr => hr.2).bind fun _ hr => hr

/-- A call keeps the forest of the widgets created so far. -/
theorem create_yields {g : CreateState} (h : Built g.widgets g.created) {c : Create} (hc : c.Valid g)
    (fuel : Nat) :
    Yields fuel (g.created.length + 1) (fun g' => Built g'.widgets g'.created) (create chosen fuel g c) := by
  cases c with
  | widget mem cls x y w height parent =>
    exact recorded (widgetCreate_yields h hc.1 fuel hc.2 cls x y w height)
  | window mem nameMem w height =>
    rcases id h with ⟨F, hF, hcreated⟩
    -- the parent of a window is `desktop_window`
    have hdesktop := hF.desktop
    rw [← nodes_of_created hcreated] at hdesktop
    exact recorded (windowCreate_yields h hc fuel hdesktop nameMem w height rfl)
  | label mem textMem text parent =>
    exact recorded (labelCreate_yields h hc.1 fuel hc.2 textMem text)
  | button mem labelMem textMem caption parent =>
    exact (buttonCreate_yields h hc.1 fuel hc.2.2 textMem caption hc.2.1).bind fun _ hr => hr.2
  | edit mem textMem parent => exact recorded (editCreate_yields h hc.1 fuel hc.2 textMem)
  | fileNavigator mem directory parent =>
    exact recorded (fileNavigatorCreate_yields h hc.1 fuel hc.2 chosen directory)
  | desktop window =>
    rcases h with ⟨F, hF, hcreated⟩
    refine ⟨F, ⟨hF.threaded, hF.onPaint, ?_⟩, hcreated⟩
    rw [← nodes_of_created hcreated]
    exact hc

end

/-! ## What holds of the widgets -/

/-- `c` is a widget whose parent is `p`. -/
def Under (g : CreateState) (c p : Nat) : Prop :=
  c ∈ g.nodes ∧ (g.widgets.widget c).parent = p ∧ p ≠ null

/-- The child list of `p`, up to its null pointer. -/
def ChildList (s : Widgets) (p : Nat) (l : List Nat) : Prop := Siblings s (s.widget p).child l

/-- The widgets are a forest, and `widget_draw` and `widget_absolute_xy` walk along it. -/
structure WidgetForest (g : CreateState) : Prop where
  parent : ∀ w p, (w, p) ∈ g.created → (g.widgets.widget w).parent = p
  /-- Child lists end, and are in the order of creation. -/
  childList : ∀ p ∈ g.nodes, ∃ l, ChildList g.widgets p l ∧ l.Sublist g.nodes ∧ ∀ c ∈ l, (c, p) ∈ g.created
  /-- A widget is in the child list of its parent once, and in no other one. -/
  once : ∀ w p, (w, p) ∈ g.created → p ≠ null → ∀ q ∈ g.nodes, ∀ l, ChildList g.widgets q l →
    l.count w = if q = p then 1 else 0
  acyclic : ∀ w, ¬ Relation.TransGen (Under g) w w
  /-- `widget_draw` comes to each descendant once, and to a parent before its children. -/
  draw : ∀ root ∈ g.nodes, ∃ order : List Nat,
    (∃ enough, ∀ fuel ≥ enough, widgetDraw fuel g.widgets root = .ok (order.map (visit g.widgets)))
      ∧ order.Nodup ∧ (∀ w, w ∈ order ↔ Relation.ReflTransGen (Under g) w root)
      ∧ ∀ c ∈ order, c ≠ root → ∀ p, Under g c p → [p, c].Sublist order
  /-- `widget_absolute_xy` adds up over the proper ancestors. -/
  absoluteXy : ∀ w ∈ g.nodes, ∃ above : List Nat,
    above.Nodup ∧ (∀ a, a ∈ above ↔ Relation.TransGen (Under g) w a)
      ∧ ∃ enough, ∀ fuel ≥ enough, widgetAbsoluteXy fuel g.widgets w
        = .ok (u32 ((g.widgets.widget w).x + offset g.widgets (fun a => a.x + a.paddingLeft) above),
            u32 ((g.widgets.widget w).y + offset g.widgets (fun a => a.y + a.paddingTop) above))

section

variable {F : Forest Nat} {g : CreateState}

/-- A pointer to a parent is its parent in the forest. -/
theorem under_of_getD {w p : Nat} (h : (F.parent w).getD null = p) (hne : p ≠ null) : F.Under w p := by
  cases hparent : F.parent w with
  | none =>
    rw [hparent] at h
    exact absurd h.symm hne
  | some q =>
    rw [hparent] at h
    exact hparent.trans (congrArg some h)

/-- What is listed is in the forest. -/
theorem given_of_created (hcreated : F.nodes.map (fun w => (w, (F.parent w).getD null)) = g.created)
    {w p : Nat} (h : (w, p) ∈ g.created) : w ∈ F.nodes ∧ (F.parent w).getD null = p := by
  rw [← hcreated] at h
  rcases List.mem_map.mp h with ⟨v, hv, heq⟩
  cases heq
  exact ⟨hv, rfl⟩

/-- The pointers to the parents are those of the forest. -/
theorem under_eq (hF : Holds g.widgets F) (hnodes : g.nodes = F.nodes) : Under g = F.Under := by
  funext c p
  refine propext ⟨fun ⟨hc, hp, hne⟩ => ?_, fun hcp => ?_⟩
  · rw [hnodes] at hc
    rw [hF.threaded.parent c hc] at hp
    exact under_of_getD hp hne
  · have hc := F.mem_of_parent hcp
    refine ⟨hnodes ▸ hc, ?_, fun heq => hF.threaded.nil_not_mem (heq ▸ F.mem_of_under hcp)⟩
    rw [hF.threaded.parent c hc, hcp]
    rfl

theorem Built.forest (h : Built g.widgets g.created) : WidgetForest g := by
  rcases h with ⟨F, hF, hcreated⟩
  have hnodes : g.nodes = F.nodes := nodes_of_created hcreated
  have hunder := under_eq hF hnodes
  refine ⟨?_, ?_, ?_, ?_, ?_, ?_⟩
  · intro w p hmem
    have hw := given_of_created hcreated hmem
    rw [hF.threaded.parent w hw.1, hw.2]
  · intro p hp
    rw [hnodes] at hp ⊢
    refine ⟨F.children p, hF.threaded.child p hp, F.children_sublist p, fun c hc => ?_⟩
    have hcp := F.mem_children.mp hc
    rw [← hcreated]
    refine List.mem_map.mpr ⟨c, F.mem_of_parent hcp, ?_⟩
    rw [hcp]
    rfl
  · -- the list is the one of the forest, in which a node is a child of its parent only
    intro w p hmem hne q hq l hl
    rw [hnodes] at hq
    have hlist : l = F.children q := hl.unique (hF.threaded.child q hq)
    have hwp := under_of_getD (given_of_created hcreated hmem).2 hne
    rw [hlist]
    by_cases hqp : q = p
    · subst hqp
      rw [if_pos rfl]
      exact List.count_eq_one_of_mem (F.nodup_children q) (F.mem_children.mpr hwp)
    · rw [if_neg hqp]
      refine List.count_eq_zero_of_not_mem fun hin => ?_
      exact hqp (F.under_unique (F.mem_children.mp hin) hwp)
  · rw [hunder]
    exact F.not_ancestor_self
  · intro root hroot
    rw [hnodes] at hroot
    rw [hunder]
    refine ⟨F.preorder root, widgetDraw_eq hF hroot, F.nodup_preorder root, fun w => F.mem_preorder, ?_⟩
    exact fun c hc hne p hcp => F.parent_before hc hne hcp
  · intro w hw
    rw [hnodes] at hw
    rw [hunder]
    exact ⟨F.ancestors w, F.nodup_ancestors w, fun a => F.mem_ancestors, addAncestors_eq hF hw _ _⟩

end

/-- Before the first call there are no widgets. -/
theorem built_nil {s : Widgets} (hs : s.desktopWindow = null) : Built s [] :=
  ⟨Forest.empty, ⟨⟨List.not_mem_nil, fun _ h => absurd h List.not_mem_nil, fun _ h => absurd h List.not_mem_nil⟩,
    fun _ h => absurd h List.not_mem_nil, Or.inl hs⟩, rfl⟩

/-- The links of the widgets hold a forest after any sequence of calls. -/
theorem built_run {chosen : Dirent → Nat → Widgets → Except Halt Widgets} {s : Widgets}
    (hs : s.desktopWindow = null) {tr : List (Transition CreateState Create)} {g : CreateState}
    (hrun : Run (createStep chosen) ⟨s, []⟩ tr g) : Built g.widgets g.created := by
  refine hrun.invariant (I := fun g => Built g.widgets g.created) ?_ ?_
  · exact built_nil hs
  · intro g c g' hg ⟨hc, fuel, hok⟩
    have hyields := create_yields chosen hg hc fuel
    rw [hok] at hyields
    exact hyields

/-- **The forest of widgets.** After any sequence of calls of the constructors, whatever each of them is
given as a parent of the widgets created before, the widgets are a forest, and the next call loops only for
want of fuel. -/
theorem widget_forest (chosen : Dirent → Nat → Widgets → Except Halt Widgets) {s : Widgets}
    (hs : s.desktopWindow = null) {tr : List (Transition CreateState Create)} {g : CreateState}
    (hrun : Run (createStep chosen) ⟨s, []⟩ tr g) :
    WidgetForest g ∧ ∀ c : Create, c.Valid g → ∃ enough, ∀ fuel ≥ enough,
      create chosen fuel g c ≠ .error .loops := by
  have hbuilt := built_run hs hrun
  refine ⟨hbuilt.forest, fun c hc => ⟨g.created.length + 2, fun fuel hfuel hloops => ?_⟩⟩
  have hyields := create_yields chosen hbuilt hc fuel
  rw [hloops] at hyields
  exact absurd hyields (by show ¬ fuel ≤ g.created.length + 1; omega)

/-- Memory of zeros, before any widget is created. -/
def noWidgets : Widgets where
  widget _ := Widget.zero
  window _ := ⟨0, null, none, .none⟩
  label _ := ⟨none, 0, noWrap⟩
  button _ := ⟨null, 0, 0⟩
  edit _ := ⟨none, 0, 0, 0⟩
  fileNavigator _ := ⟨none, none, [], 0, 0⟩
  desktopWindow := null
  gfxWidth := 640

/-- The desktop, and a button on it with its label. -/
theorem widget_forest_button :
    ∃ g, g.created = [(8, null), (16, 8), (24, 16)] ∧ WidgetForest g := by
  let chosen : Dirent → Nat → Widgets → Except Halt Widgets := fun _ _ s => .ok s
  have hdesktop : createStep chosen ⟨noWidgets, []⟩ (.widget 8 wWidget 0 0 640 463 null) _ :=
    ⟨⟨Or.inr (by decide), Or.inl rfl⟩, 3, rfl⟩
  have hrun := (Run.nil.snoc hdesktop).snoc (e := Create.button 16 24 32 (some [103, 111]) 8)
    ⟨⟨Or.inr (by decide), Or.inr ⟨by decide, by decide⟩, Or.inr (by decide)⟩, 3, rfl⟩
  exact ⟨_, rfl, (widget_forest chosen rfl hrun).1⟩

end DiyOS
