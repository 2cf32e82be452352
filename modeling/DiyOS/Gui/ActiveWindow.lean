import DiyOS.Gui.Traversal

/-!
# The active window (`gui/gui.c`)

Each window has a flag, and two walks along the children of the desktop set and read it.

* **`setActiveLoop_eq`**, **`getActiveLoop_eq`** — the walks.
* **`ClassesKept`**, **`create_kept`** — what a constructor leaves of the other widgets.
* **`one_active_window`** — after any calls, at most one window is active: the last one that was set.
-/

namespace DiyOS

/-! ## The source

Both functions go through the children of the desktop. `gui_set_active_window` assigns to the flag of each window
among them, 1 to the one it is given; `gui_get_active_window` returns the first with a flag that is not 0. -/

/-- `WINDOW(child)->active = active`. -/
def Widgets.setActive (s : Widgets) (child active : Nat) : Widgets :=
  { s with window := Function.update s.window child { s.window child with active := active } }

/-- The loop of `gui_set_active_window`. -/
def setActiveLoop : Nat → Widgets → Nat → Nat → Except Halt Widgets
  | 0, _, _, _ => .error .loops
  | fuel + 1, s, child, window =>
    if child = null then .ok s
    else
      let s := if (s.widget child).cls = wWindow then s.setActive child (if child = window then 1 else 0) else s
      setActiveLoop fuel s (s.widget child).next window

def guiSetActiveWindow (fuel : Nat) (s : Widgets) (window : Nat) : Except Halt Widgets :=
  if s.desktopWindow = null then .ok s
  else setActiveLoop fuel s (s.widget s.desktopWindow).child window

/-- The loop of `gui_get_active_window`. -/
def getActiveLoop : Nat → Widgets → Nat → Except Halt Nat
  | 0, _, _ => .error .loops
  | fuel + 1, s, child =>
    if child = null then .ok null
    else if (s.widget child).cls = wWindow ∧ (s.window child).active = 1 then .ok child
    else getActiveLoop fuel s (s.widget child).next

/-- `gui_get_active_window`; without a desktop it returns no value. -/
def guiGetActiveWindow (fuel : Nat) (s : Widgets) : Except Halt Nat :=
  if s.desktopWindow = null then .error .undefined
  else getActiveLoop fuel s (s.widget s.desktopWindow).child

/-! ## The walks

A walk follows the `next` of each widget, and a list of siblings ends. So with fuel for all of them it visits
each once. -/

/-- A window whose flag is set. -/
def IsActive (s : Widgets) (w : Nat) : Prop := (s.widget w).cls = wWindow ∧ (s.window w).active = 1

instance (s : Widgets) (w : Nat) : Decidable (IsActive s w) := inferInstanceAs (Decidable (_ ∧ _))

section

variable {s : Widgets} {a window : Nat} {l : List Nat}

/-- The windows of the list, with their flags set for `window`. -/
def Widgets.activated (s : Widgets) (l : List Nat) (window : Nat) : Widgets :=
  { s with window := fun w =>
      if w ∈ l ∧ (s.widget w).cls = wWindow then
        { s.window w with active := if w = window then 1 else 0 }
      else s.window w }

/-- After `gui_set_active_window`, the window it was given is active and no other. -/
theorem activated_isActive (s : Widgets) (l : List Nat) (window w : Nat) :
    IsActive (s.activated l window) w
      ↔ if w ∈ l then (s.widget w).cls = wWindow ∧ w = window else IsActive s w := by
  unfold IsActive Widgets.activated
  by_cases hw : w ∈ l
  · rw [if_pos hw]
    refine and_congr_right fun hcls => ?_
    have hset : w ∈ l ∧ (s.widget w).cls = wWindow := ⟨hw, hcls⟩
    simp only [if_pos hset]
    split
    case isTrue heq => exact iff_of_true rfl heq
    case isFalse hne => exact iff_of_false (by decide) hne
  · simp only [hw, false_and, if_false]

theorem activated_cons (s : Widgets) (c : Nat) (l : List Nat) (window : Nat) :
    (s.activated [c] window).activated l window = s.activated (c :: l) window := by
  unfold Widgets.activated
  refine congrArg (fun f => { s with window := f }) (funext fun w => ?_)
  by_cases hcls : (s.widget w).cls = wWindow
  · by_cases hc : w = c
    · subst hc
      by_cases hl : w ∈ l <;> simp [hcls, hl]
    · by_cases hl : w ∈ l <;> simp [hcls, hc, hl]
  · simp [hcls]

/-- One turn of the loop. -/
theorem setActive_eq (s : Widgets) (c window : Nat) :
    (if (s.widget c).cls = wWindow then s.setActive c (if c = window then 1 else 0) else s)
      = s.activated [c] window := by
  split
  case isTrue hcls =>
    unfold Widgets.activated Widgets.setActive
    refine congrArg (fun f => { s with window := f }) (funext fun w => ?_)
    rw [Function.update_apply]
    by_cases hw : w = c
    · have hset : c ∈ [c] ∧ (s.widget c).cls = wWindow := ⟨List.mem_singleton.mpr rfl, hcls⟩
      rw [hw, if_pos (show c = c from rfl)]
      exact (if_pos hset).symm
    · rw [if_neg hw, if_neg fun h => hw (List.mem_singleton.mp h.1)]
  case isFalse hcls =>
    unfold Widgets.activated
    refine congrArg (fun f => { s with window := f }) (funext fun w => ?_)
    rw [if_neg]
    rintro ⟨hw, hwcls⟩
    rw [List.mem_singleton.mp hw] at hwcls
    exact hcls hwcls

/-- `gui_set_active_window` comes to each child. -/
theorem setActiveLoop_eq (hl : Siblings s a l) {fuel : Nat} (hfuel : l.length < fuel) :
    setActiveLoop fuel s a window = .ok (s.activated l window) := by
  induction fuel generalizing s a l with
  | zero => exact absurd hfuel (Nat.not_lt_zero _)
  | succ fuel ih =>
    rw [setActiveLoop]
    cases l with
    | nil =>
      rw [if_pos (show a = null from hl)]
      unfold Widgets.activated
      simp
    | cons c l =>
      obtain ⟨rfl, hne, hrest⟩ := hl
      -- the links are not touched
      have hlinks : Siblings (s.activated [a] window) (s.widget a).next l := hrest
      rw [if_neg hne]
      simp only [setActive_eq]
      exact (ih hlinks (Nat.lt_of_succ_lt_succ hfuel)).trans (by rw [activated_cons])

theorem getActiveLoop_eq (hl : Siblings s a l) {fuel : Nat} (hfuel : l.length < fuel) :
    getActiveLoop fuel s a = .ok ((l.find? fun w => IsActive s w).getD null) := by
  induction fuel generalizing a l with
  | zero => exact absurd hfuel (Nat.not_lt_zero _)
  | succ fuel ih =>
    rw [getActiveLoop]
    cases l with
    | nil =>
      rw [if_pos (show a = null from hl)]
      rfl
    | cons c l =>
      obtain ⟨rfl, hne, hrest⟩ := hl
      rw [if_neg hne]
      by_cases hactive : IsActive s a
      · rw [List.find?_cons, decide_eq_true hactive]
        exact if_pos hactive
      · rw [List.find?_cons, decide_eq_false hactive]
        exact (if_neg hactive).trans (ih hrest (Nat.lt_of_succ_lt_succ hfuel))

end

/-! ## What the constructors leave

A constructor writes to the memory that it gets, to the links of the siblings, and to nothing else. A new window
has the flag 0; of the other classes the flag does not count. -/

/-- The classes and window structs of the widgets but `new`, of which none is active. -/
structure KeptBut (new : List Nat) (s s' : Widgets) : Prop where
  cls : ∀ p ∉ new, (s'.widget p).cls = (s.widget p).cls
  window : ∀ p ∉ new, s'.window p = s.window p
  inactive : ∀ p ∈ new, ¬ IsActive s' p
  desktop : s'.desktopWindow = s.desktopWindow

section

variable {s s' s'' : Widgets} {new new' : List Nat} {mem p fuel : Nat} {f : Widget → Widget}

theorem KeptBut.isActive (h : KeptBut new s s') (hp : p ∉ new) : IsActive s' p ↔ IsActive s p := by
  unfold IsActive
  rw [h.cls p hp, h.window p hp]

theorem KeptBut.trans (h : KeptBut new s s') (h' : KeptBut new' s' s'') : KeptBut (new ++ new') s s'' := by
  refine ⟨fun p hp => ?_, fun p hp => ?_, fun p hp => ?_, h'.desktop.trans h.desktop⟩
  · rw [List.mem_append, not_or] at hp
    rw [h'.cls p hp.2, h.cls p hp.1]
  · rw [List.mem_append, not_or] at hp
    rw [h'.window p hp.2, h.window p hp.1]
  · by_cases hlast : p ∈ new'
    · exact h'.inactive p hlast
    · rw [h'.isActive hlast]
      exact h.inactive p ((List.mem_append.mp hp).resolve_right hlast)

/-- A step that creates no widget may follow. -/
theorem KeptBut.after (h : KeptBut new s s') (h' : KeptBut [] s' s'') : KeptBut new s s'' := by
  have hboth := h.trans h'
  rwa [List.append_nil] at hboth

/-- Structs of other kinds. -/
theorem KeptBut.of_eq (hwidget : s'.widget = s.widget) (hwindow : s'.window = s.window)
    (hdesktop : s'.desktopWindow = s.desktopWindow) : KeptBut [] s s' :=
  ⟨fun p _ => by rw [hwidget], fun p _ => by rw [hwindow], nofun, hdesktop⟩

/-- Assignments to a widget, but for its class. -/
theorem KeptBut.setWidget (h : KeptBut new s s') (hf : ∀ w, (f w).cls = w.cls) :
    KeptBut new s (s'.setWidget p f) := by
  refine h.after ⟨fun q _ => ?_, fun _ _ => rfl, nofun, rfl⟩
  rw [setWidget_widget]
  split
  case isTrue heq => rw [hf, heq]
  case isFalse => rfl

/-- A widget of another class than a window's, in memory that `malloc` returned. -/
theorem KeptBut.of_update {w : Widget} (hcls : w.cls ≠ wWindow)
    (hwidget : s'.widget = Function.update s.widget mem w) (hwindow : s'.window = s.window)
    (hdesktop : s'.desktopWindow = s.desktopWindow) : KeptBut [mem] s s' := by
  refine ⟨fun p hp => ?_, fun p _ => by rw [hwindow], fun p hp hactive => ?_, hdesktop⟩
  · rw [hwidget, Function.update_of_ne fun heq => hp (List.mem_singleton.mpr heq)]
  · have hself := hactive.1
    rw [List.mem_singleton.mp hp, hwidget, Function.update_self] at hself
    exact hcls hself

/-- `widget_set_parent` writes links only. -/
theorem widgetSetParent_kept {x parent : Nat} (h : widgetSetParent fuel s x parent = .ok s') :
    KeptBut [] s s' := by
  have hrefl : KeptBut [] s s := KeptBut.of_eq rfl rfl rfl
  unfold widgetSetParent at h
  split at h
  case isTrue =>
    cases h
    exact hrefl
  case isFalse =>
    dsimp only at h
    split at h
    case isTrue =>
      cases h
      exact KeptBut.setWidget hrefl fun _ => rfl
    case isFalse =>
      split at h
      case isTrue =>
        obtain ⟨chld, -, hchld⟩ := bind_eq_ok.mp h
        cases hchld
        refine KeptBut.setWidget ?_ fun _ => rfl
        refine KeptBut.setWidget ?_ fun _ => rfl
        exact KeptBut.setWidget hrefl fun _ => rfl
      case isFalse =>
        cases h
        refine KeptBut.setWidget ?_ fun _ => rfl
        refine KeptBut.setWidget ?_ fun _ => rfl
        exact KeptBut.setWidget hrefl fun _ => rfl

/-- `label_size_request` writes sizes only. -/
theorem labelSizeRequest_kept {lbl : Nat} (h : labelSizeRequest s lbl = .ok s') : KeptBut [] s s' := by
  have hrefl : KeptBut [] s s := KeptBut.of_eq rfl rfl rfl
  unfold labelSizeRequest at h
  split at h
  · cases h
    exact hrefl
  · split at h
    · cases h
      exact KeptBut.setWidget hrefl fun _ => rfl
    · dsimp only at h
      split at h
      · split at h
        · split at h
          · cases h
          · cases h
            exact KeptBut.setWidget hrefl fun _ => rfl
        · cases h
          exact hrefl
      · cases h
        exact KeptBut.setWidget hrefl fun _ => rfl

theorem labelSetText_kept {lbl textMem : Nat} {text : Option (List UInt8)}
    (h : labelSetText s lbl text textMem = .ok s') : KeptBut [] s s' := by
  unfold labelSetText at h
  split at h
  · cases h
    exact KeptBut.of_eq rfl rfl rfl
  · refine KeptBut.after ?_ (labelSizeRequest_kept h)
    exact KeptBut.of_eq rfl rfl rfl

/-! What a constructor adds is listed, and it keeps the other widgets. -/

variable {parent : Nat} {r : Nat × Widgets}

/-- A constructor that returns what `malloc` has given it, and does nothing if that is the null pointer. -/
theorem KeptBut.returning {body : Except Halt (Nat × Widgets)}
    (hbody : mem ≠ null → body = .ok r → r.1 = mem ∧ KeptBut [mem] s r.2)
    (h : (if mem = null then .ok (null, s) else body) = .ok r) (parent : Nat) :
    KeptBut ((record r.1 parent).map Prod.fst) s r.2 := by
  split at h
  case isTrue =>
    cases h
    exact KeptBut.of_eq rfl rfl rfl
  case isFalse hne =>
    obtain ⟨heq, hkept⟩ := hbody hne h
    rw [record, heq, if_neg hne]
    exact hkept

/-- The last call of a constructor. -/
theorem KeptBut.attach (hkept : KeptBut [mem] s s')
    (h : (widgetSetParent fuel s' mem parent >>= fun t => .ok (mem, t)) = .ok r) :
    r.1 = mem ∧ KeptBut [mem] s r.2 := by
  obtain ⟨t, ht, heq⟩ := bind_eq_ok.mp h
  cases heq
  exact ⟨rfl, hkept.after (widgetSetParent_kept ht)⟩

theorem widgetCreate_kept {cls x y w height : Nat} (hcls : cls ≠ wWindow)
    (h : widgetCreate fuel s mem cls x y w height parent = .ok r) :
    KeptBut ((record r.1 parent).map Prod.fst) s r.2 := by
  refine KeptBut.returning (fun _ hbody => KeptBut.attach ?_ hbody) h parent
  refine KeptBut.setWidget ?_ fun _ => rfl
  exact KeptBut.of_update (by exact hcls) rfl rfl rfl

theorem editCreate_kept {textMem : Nat} (h : editCreate fuel s mem textMem parent = .ok r) :
    KeptBut ((record r.1 parent).map Prod.fst) s r.2 := by
  refine KeptBut.returning (fun _ hbody => KeptBut.attach ?_ hbody) h parent
  refine KeptBut.setWidget ?_ fun _ => rfl
  exact KeptBut.of_update (show wEdit ≠ wWindow by decide) rfl rfl rfl

theorem labelCreate_kept {textMem : Nat} {text : Option (List UInt8)}
    (h : labelCreate fuel s mem textMem text parent = .ok r) :
    KeptBut ((record r.1 parent).map Prod.fst) s r.2 := by
  refine KeptBut.returning (fun _ hbody => ?_) h parent
  obtain ⟨t, ht, hbody⟩ := bind_eq_ok.mp hbody
  obtain ⟨u, hu, heq⟩ := bind_eq_ok.mp hbody
  cases heq
  refine ⟨rfl, KeptBut.after (?_ : KeptBut [mem] s u) (KeptBut.of_eq rfl rfl rfl)⟩
  refine KeptBut.after ?_ (labelSetText_kept hu)
  refine KeptBut.after ?_ (widgetSetParent_kept ht)
  refine KeptBut.setWidget ?_ fun _ => rfl
  exact KeptBut.of_update (show wLabel ≠ wWindow by decide) rfl rfl rfl

/-- `file_navigator_create`, with or without a directory. -/
theorem fileNavigatorCreate_kept {chosen : Dirent → Nat → Widgets → Except Halt Widgets}
    {directory : Option (List UInt8 × Listing)}
    (h : fileNavigatorCreate chosen fuel s mem directory parent = .ok r) :
    KeptBut ((record r.1 parent).map Prod.fst) s r.2 := by
  refine KeptBut.returning (fun _ hbody => ?_) h parent
  obtain ⟨t, ht, hbody⟩ := bind_eq_ok.mp hbody
  have hkept : KeptBut [mem] s t := by
    refine KeptBut.after ?_ (widgetSetParent_kept ht)
    refine KeptBut.setWidget ?_ fun _ => rfl
    exact KeptBut.of_update (show wFileNavigator ≠ wWindow by decide) rfl rfl rfl
  cases directory with
  | none =>
    cases hbody
    exact ⟨rfl, hkept⟩
  | some d =>
    -- linking has left the navigator as it was initialised
    have hnav := (congrArg (fun u => u.fileNavigator mem) (widgetSetParent_frame ht)).trans
      (Function.update_self _ _ _)
    have hload : (t.fileNavigator mem).Loadable := Or.inr ⟨congrArg FileNavigator.files hnav,
      congrArg FileNavigator.count hnav, congrArg FileNavigator.selected hnav⟩
    have hset := fileNavigatorSet_eq chosen hload d.1 d.2
    obtain ⟨u, hu, heq⟩ := bind_eq_ok.mp hbody
    cases hset.symm.trans hu
    cases heq
    exact ⟨rfl, hkept.after (KeptBut.of_eq rfl rfl rfl)⟩

/-- `button_create`, which makes a label as well. -/
theorem buttonCreate_kept {labelMem textMem : Nat} {caption : Option (List UInt8)}
    (h : buttonCreate fuel s mem labelMem textMem caption parent = .ok r) :
    KeptBut ((buttonRecord r.1 parent (r.2.button r.1).label).map Prod.fst) s r.2 := by
  unfold buttonCreate at h
  split at h
  case isTrue =>
    cases h
    exact KeptBut.of_eq rfl rfl rfl
  case isFalse hne =>
    obtain ⟨t, ht, h⟩ := bind_eq_ok.mp h
    obtain ⟨⟨lbl, u⟩, hu, heq⟩ := bind_eq_ok.mp h
    cases heq
    have hbutton : KeptBut [mem] s t := by
      refine KeptBut.after ?_ (widgetSetParent_kept ht)
      refine KeptBut.setWidget ?_ fun _ => rfl
      refine KeptBut.setWidget ?_ fun _ => rfl
      exact KeptBut.of_update (show wButton ≠ wWindow by decide) rfl rfl rfl
    have hlabel := hbutton.trans (labelCreate_kept hu)
    have hfinal : ∀ v : Widgets, KeptBut [] u v →
        v.button = Function.update u.button mem { u.button mem with label := lbl } →
        KeptBut ((buttonRecord mem parent (v.button mem).label).map Prod.fst) s v := by
      intro v hv hl
      rw [hl, Function.update_self, buttonRecord, if_neg hne]
      exact hlabel.after hv
    dsimp only
    refine hfinal _ ?_ rfl
    refine KeptBut.setWidget ?_ fun _ => rfl
    exact KeptBut.of_eq rfl rfl rfl

theorem KeptBut.windowSetName {name : List UInt8} {nameMem : Nat} (h : KeptBut [mem] s s') :
    KeptBut [mem] s (windowSetName s' mem name nameMem) := by
  unfold DiyOS.windowSetName
  split
  · exact h
  · refine ⟨h.cls, fun p hp => ?_, fun p hp hactive => h.inactive p hp ⟨hactive.1, ?_⟩, h.desktop⟩
    · have hne : p ≠ mem := fun heq => hp (List.mem_singleton.mpr heq)
      exact (Function.update_of_ne hne _ _).trans (h.window p hp)
    · obtain rfl := List.mem_singleton.mp hp
      have hset := hactive.2
      simp only [Function.update_self] at hset
      exact hset

/-- A new window is not active. -/
theorem windowCreate_kept {nameMem w height : Nat} (h : windowCreate fuel s mem nameMem w height = .ok r) :
    KeptBut ((record r.1 parent).map Prod.fst) s r.2 := by
  refine KeptBut.returning (fun _ hbody => KeptBut.attach ?_ hbody) h parent
  refine KeptBut.windowSetName ?_
  refine KeptBut.setWidget ?_ fun _ => rfl
  refine KeptBut.setWidget ?_ fun _ => rfl
  have hother : ∀ p ∉ [mem], p ≠ mem := fun p hp heq => hp (List.mem_singleton.mpr heq)
  refine ⟨fun p hp => ?_, fun p hp => Function.update_of_ne (hother p hp) _ _, fun p hp hactive => ?_, rfl⟩
  · exact congrArg Widget.cls (Function.update_of_ne (hother p hp) _ _)
  · obtain rfl := List.mem_singleton.mp hp
    have hset := hactive.2
    simp only [Function.update_self] at hset
    cases hset

/-! ## Runs

Widgets are created and windows activated, in any order. The invariant is that the flags say which window was
activated last. -/

/-- Calls that do not make windows other than by `window_create`, and leave `desktop_window`. -/
def Create.Ordinary : Create → Prop
  | .widget _ cls .. => cls ≠ wWindow
  | .desktop _ => False
  | _ => True

/-- A constructor lists what it adds, and keeps the other widgets. -/
theorem create_kept {chosen : Dirent → Nat → Widgets → Except Halt Widgets} {g g' : CreateState} {c : Create}
    (hc : c.Ordinary) (h : create chosen fuel g c = .ok g') :
    ∃ new, g'.created = g.created ++ new ∧ KeptBut (new.map Prod.fst) g.widgets g'.widgets := by
  cases c with
  | widget =>
    obtain ⟨r, hr, heq⟩ := bind_eq_ok.mp h
    cases heq
    exact ⟨_, rfl, widgetCreate_kept hc hr⟩
  | window =>
    obtain ⟨r, hr, heq⟩ := bind_eq_ok.mp h
    cases heq
    exact ⟨_, rfl, windowCreate_kept hr⟩
  | label =>
    obtain ⟨r, hr, heq⟩ := bind_eq_ok.mp h
    cases heq
    exact ⟨_, rfl, labelCreate_kept hr⟩
  | button =>
    obtain ⟨r, hr, heq⟩ := bind_eq_ok.mp h
    cases heq
    exact ⟨_, rfl, buttonCreate_kept hr⟩
  | edit =>
    obtain ⟨r, hr, heq⟩ := bind_eq_ok.mp h
    cases heq
    exact ⟨_, rfl, editCreate_kept hr⟩
  | fileNavigator =>
    obtain ⟨r, hr, heq⟩ := bind_eq_ok.mp h
    cases heq
    exact ⟨_, rfl, fileNavigatorCreate_kept hr⟩
  | desktop => exact absurd hc id

end

/-- A window among the children of the desktop. -/
def WindowChild (g : CreateState) (w : Nat) : Prop :=
  (w, g.widgets.desktopWindow) ∈ g.created ∧ (g.widgets.widget w).cls = wWindow

/-- A call of a constructor, or of `gui_set_active_window`. -/
inductive Act where
  | create (c : Create)
  | activate (w : Nat)

/-- A call that returns; only window children are made active. -/
inductive Acts (chosen : Dirent → Nat → Widgets → Except Halt Widgets) :
    CreateState → Act → CreateState → Prop where
  | create {g g' : CreateState} {c : Create} (hc : c.Ordinary) (h : createStep chosen g c g') :
      Acts chosen g (.create c) g'
  | activate {g : CreateState} {w : Nat} {s' : Widgets} (hw : WindowChild g w)
      (h : Settles (fun fuel => guiSetActiveWindow fuel g.widgets w) (.ok s')) :
      Acts chosen g (.activate w) { g with widgets := s' }

/-- The window of the last call of `gui_set_active_window`. -/
def lastActivated (tr : List (Transition CreateState Act)) : Option Nat :=
  (tr.filterMap fun τ => match τ.event with
    | .create _ => none
    | .activate w => some w).getLast?

theorem lastActivated_snoc (tr : List (Transition CreateState Act)) (g g' : CreateState) (e : Act) :
    lastActivated (tr ++ [⟨g, e, g'⟩]) = match e with
      | .create _ => lastActivated tr
      | .activate w => some w := by
  unfold lastActivated
  cases e <;> simp

/-- The window `last`, if there is one, is the only active one among the children of the desktop. -/
structure OneActive (g : CreateState) (last : Option Nat) : Prop where
  built : Built g.widgets g.created
  desktop : g.widgets.desktopWindow ∈ g.nodes
  desktop_ne : g.widgets.desktopWindow ≠ null
  active : ∀ w, WindowChild g w → (IsActive g.widgets w ↔ last = some w)
  last : ∀ w, last = some w → WindowChild g w

section

variable {chosen : Dirent → Nat → Widgets → Except Halt Widgets} {g g' : CreateState} {last : Option Nat}
  {w : Nat}

theorem Built.nodup (h : Built g.widgets g.created) : g.nodes.Nodup := by
  obtain ⟨F, hF, hcreated⟩ := h
  rw [show g.nodes = F.nodes from nodes_of_created hcreated]
  exact F.nodup

/-- The list that both walks go along. -/
theorem OneActive.children (h : OneActive g last) :
    ∃ l, ChildList g.widgets g.widgets.desktopWindow l
      ∧ ∀ w, w ∈ l ↔ (w, g.widgets.desktopWindow) ∈ g.created := by
  have hforest := h.built.forest
  obtain ⟨l, hl, _, hcreated⟩ := hforest.childList _ h.desktop
  refine ⟨l, hl, fun w => ⟨hcreated w, fun hw => ?_⟩⟩
  have hcount := hforest.once w _ hw h.desktop_ne _ h.desktop l hl
  rw [if_pos rfl] at hcount
  exact List.count_pos_iff.mp (by omega)

/-- A new widget is not active, and the others keep their flags. -/
theorem OneActive.create (h : OneActive g last) {c : Create} (hc : c.Ordinary)
    (hstep : createStep chosen g c g') : OneActive g' last := by
  obtain ⟨hvalid, fuel, hok⟩ := hstep
  have hbuilt : Built g'.widgets g'.created := by
    have hyields := create_yields chosen h.built hvalid fuel
    rw [hok] at hyields
    exact hyields
  obtain ⟨new, hcreated, hkept⟩ := create_kept hc hok
  have hnodes : g'.nodes = g.nodes ++ new.map Prod.fst := by
    unfold CreateState.nodes
    rw [hcreated, List.map_append]
  have hdisjoint : ∀ w ∈ g.nodes, w ∉ new.map Prod.fst := by
    have hnodup := hbuilt.nodup
    rw [hnodes] at hnodup
    exact fun w hw hnew => (List.nodup_append.mp hnodup).2.2 w hw w hnew rfl
  have hold : ∀ w, WindowChild g w → w ∉ new.map Prod.fst :=
    fun w hw => hdisjoint w (List.mem_map_of_mem hw.1)
  refine ⟨hbuilt, ?_, ?_, fun w hw => ?_, fun w hw => ?_⟩
  · rw [hkept.desktop, hnodes]
    exact List.mem_append_left _ h.desktop
  · rw [hkept.desktop]
    exact h.desktop_ne
  · obtain ⟨hchild, hcls⟩ := hw
    rw [hkept.desktop, hcreated] at hchild
    rcases List.mem_append.mp hchild with hin | hin
    · have hnot := hdisjoint w (List.mem_map_of_mem hin)
      rw [hkept.cls w hnot] at hcls
      rw [hkept.isActive hnot]
      exact h.active w ⟨hin, hcls⟩
    · -- the new one is not the last that was set, which was there before
      have hnew : w ∈ new.map Prod.fst := List.mem_map_of_mem hin
      exact iff_of_false (hkept.inactive w hnew) fun hlast => hold w (h.last w hlast) hnew
  · have hchild := h.last w hw
    refine ⟨?_, ?_⟩
    · rw [hkept.desktop, hcreated]
      exact List.mem_append_left _ hchild.1
    · rw [hkept.cls w (hold w hchild)]
      exact hchild.2

/-- `gui_set_active_window` ends, and so does `gui_get_active_window`. -/
theorem OneActive.set (h : OneActive g last) (window : Nat) :
    ∃ l, (∀ w, w ∈ l ↔ (w, g.widgets.desktopWindow) ∈ g.created)
      ∧ Settles (fun fuel => guiSetActiveWindow fuel g.widgets window) (.ok (g.widgets.activated l window)) := by
  obtain ⟨l, hl, hmem⟩ := h.children
  refine ⟨l, hmem, l.length + 1, fun fuel hfuel => ?_⟩
  exact (if_neg h.desktop_ne).trans (setActiveLoop_eq hl hfuel)

/-- Where the flags say so, `gui_get_active_window` finds the window. -/
theorem OneActive.get (h : OneActive g last) :
    Settles (fun fuel => guiGetActiveWindow fuel g.widgets) (.ok (last.getD null)) := by
  obtain ⟨l, hl, hmem⟩ := h.children
  have hchild : ∀ w ∈ l, IsActive g.widgets w → last = some w :=
    fun w hw hactive => (h.active w ⟨(hmem w).mp hw, hactive.1⟩).mp hactive
  have hfind : (l.find? fun w => IsActive g.widgets w) = last := by
    cases hfound : l.find? fun w => IsActive g.widgets w with
    | some w =>
      have hactive : IsActive g.widgets w := by simpa using List.find?_some hfound
      exact (hchild w (List.mem_of_find?_eq_some hfound) hactive).symm
    | none =>
      cases hlast : last with
      | none => rfl
      | some w =>
        have hw := h.last w hlast
        have hnot := List.find?_eq_none.mp hfound w ((hmem w).mpr hw.1)
        exact absurd (decide_eq_true ((h.active w hw).mpr hlast)) hnot
  refine ⟨l.length + 1, fun fuel hfuel => ?_⟩
  show guiGetActiveWindow fuel g.widgets = _
  rw [guiGetActiveWindow, if_neg h.desktop_ne, getActiveLoop_eq hl hfuel, hfind]

theorem OneActive.activate (h : OneActive g last) (hw : WindowChild g w) {s' : Widgets}
    (hset : Settles (fun fuel => guiSetActiveWindow fuel g.widgets w) (.ok s')) :
    OneActive { g with widgets := s' } (some w) := by
  obtain ⟨l, hmem, hcall⟩ := h.set w
  cases hset.unique hcall
  refine ⟨h.built.congr (.of_widget_eq rfl rfl), h.desktop, h.desktop_ne, fun v hv => ?_, ?_⟩
  · rw [activated_isActive, if_pos ((hmem v).mpr hv.1)]
    refine ⟨fun hactive => congrArg some hactive.2.symm, fun heq => ⟨hv.2, (Option.some.inj heq).symm⟩⟩
  · rintro v ⟨⟩
    exact hw

/-- **One active window.** From a state in which the desktop has no windows, after any calls of the
constructors and of `gui_set_active_window`, at most one window among the children of the desktop is
active, and `gui_get_active_window` returns the window that was set last. -/
theorem one_active_window {s : Widgets} (hs : s.desktopWindow = null)
    {tr₀ : List (Transition CreateState Create)} {g₀ : CreateState}
    (h₀ : Run (createStep chosen) ⟨s, []⟩ tr₀ g₀) (hdesktop : g₀.widgets.desktopWindow ≠ null)
    (hnone : ∀ w, ¬ WindowChild g₀ w) {tr : List (Transition CreateState Act)}
    (hrun : Run (Acts chosen) g₀ tr g) :
    (∀ w w', WindowChild g w → WindowChild g w' → (g.widgets.window w).active = 1 →
        (g.widgets.window w').active = 1 → w = w')
      ∧ Settles (fun fuel => guiGetActiveWindow fuel g.widgets) (.ok ((lastActivated tr).getD null))
      ∧ ∀ w, ∃ s', Settles (fun fuel => guiSetActiveWindow fuel g.widgets w) (.ok s') := by
  -- by induction over the run
  have h : OneActive g (lastActivated tr) := by
    induction hrun with
    | nil =>
      have hbuilt := built_run hs h₀
      obtain ⟨F, hF, hcreated⟩ := id hbuilt
      have hmem := hF.desktop.resolve_left hdesktop
      rw [← nodes_of_created hcreated] at hmem
      exact ⟨hbuilt, hmem, hdesktop, fun w hw => absurd hw (hnone w), nofun⟩
    | snoc hrun hstep ih =>
      cases hstep with
      | create hc hcreate =>
        rw [lastActivated_snoc]
        exact ih.create hc hcreate
      | activate hw hset =>
        rw [lastActivated_snoc]
        exact ih.activate hw hset
  refine ⟨fun w w' hw hw' hactive hactive' => ?_, h.get, fun w => ?_⟩
  · have heq := (h.active w hw).mp ⟨hw.2, hactive⟩
    exact Option.some.inj (heq.symm.trans ((h.active w' hw').mp ⟨hw'.2, hactive'⟩))
  · obtain ⟨l, _, hset⟩ := h.set w
    exact ⟨_, hset⟩

/-- Two windows on the desktop, of which the first one is made active. -/
theorem one_active_window_two : ∃ g : CreateState, g.created = [(8, null), (16, 8), (32, 8)]
    ∧ Settles (fun fuel => guiGetActiveWindow fuel g.widgets) (.ok 16) := by
  let chosen : Dirent → Nat → Widgets → Except Halt Widgets := fun _ _ s => .ok s
  have hwidget : createStep chosen ⟨noWidgets, []⟩ (.widget 8 wWidget 0 0 640 463 null) _ :=
    ⟨⟨Or.inr (by decide), Or.inl rfl⟩, 3, rfl⟩
  have h₀ := (Run.nil.snoc hwidget).snoc (e := Create.desktop 8) ⟨Or.inr (by decide), 3, rfl⟩
  have hstart : ∀ {tr g}, Run (createStep chosen) ⟨noWidgets, []⟩ tr g → Run (Acts chosen) g [] g :=
    fun _ => Run.nil
  have hwindows := ((hstart h₀).snoc (e := Act.create (.window 16 24 300 300))
    (Acts.create trivial ⟨Or.inr (by decide), 3, rfl⟩)).snoc (e := Act.create (.window 32 40 300 300))
    (Acts.create trivial ⟨Or.inr (by decide), 3, rfl⟩)
  have hnone : ∀ g : CreateState, g.created = [(8, null)] → g.widgets.desktopWindow = 8 →
      ∀ w, ¬ WindowChild g w := by
    rintro g hcreated hdesktop w ⟨hmem, _⟩
    rw [hcreated, hdesktop] at hmem
    exact absurd (Prod.mk.inj (List.mem_singleton.mp hmem)).2 (by decide)
  obtain ⟨s', hset⟩ := (one_active_window rfl h₀ (by decide) (hnone _ rfl rfl) hwindows).2.2 16
  have hrun := hwindows.snoc (Acts.activate ⟨by decide, rfl⟩ hset)
  exact ⟨_, rfl, (one_active_window rfl h₀ (by decide) (hnone _ rfl rfl) hrun).2.1⟩

end

end DiyOS
