import DiyOS.Dead

/-!
# The loop of the GUI task (`gui/gui.c`)

`gui_main` reads all its messages with interrupts disabled, draws, enables interrupts and calls
`task_block`. `message_to` marks the task ready; between `enable` and the assignment in `task_block`
that mark is overwritten.

* **`GuiStep`** — one statement of the loop, or one call of `message_to` by another task, which can
  come wherever interrupts are enabled.
* **`gui_lost_iff`** — the task is never left blocked with a message in its queue if and only if
  `task_block` always finds the queue empty; and it does while no message comes after `enable`.
-/

namespace DiyOS

open Word

/-! ## The loop -/

/-- Where the GUI task stands in the loop of `gui_main`. -/
inductive GuiPc where
  | disable
  | drain
  | handle (msg : Nat)
  | draw
  | enable
  | block
  | schedule
  deriving DecidableEq

structure Gui where
  kernel : Kernel
  /-- Interrupts are enabled, so that other tasks can run. -/
  interrupts : Bool
  pc : GuiPc

inductive GuiEvent where
  | gui
  | messageTo (caller msg data size : Nat)

/-- One statement of `gui_main`, the task of which is `gui`. What the callbacks of the windows and the
drawing do concerns no task. -/
def guiStep (gui : TaskPtr) (s : Gui) : Gui :=
  match s.pc with
  | .disable => { s with interrupts := false, pc := .drain }
  | .drain =>
    let (msg, k) := message (switchTo gui s.kernel)
    { s with kernel := k, pc := if msg = null then .draw else .handle msg }
  | .handle _ => { s with pc := .drain }
  | .draw => { s with pc := .enable }
  | .enable => { s with interrupts := true, pc := .block }
  -- `running_task->status = TS_BLOCKED`
  | .block => { s with kernel := taskBlockBody (switchTo gui s.kernel), pc := .schedule }
  -- `schedule` returns
  | .schedule => { s with pc := .disable }

/-- A statement of the loop, or a call of `message_to` to the GUI task. `schedule` returns to a task
that is ready; and `malloc` gives the message memory that is not null. -/
inductive GuiStep (gui : TaskPtr) : Gui → GuiEvent → Gui → Prop where
  | gui {s : Gui} (hready : s.pc = .schedule → s.kernel.Ready gui) : GuiStep gui s .gui (guiStep gui s)
  | messageTo {s : Gui} {k : Kernel} {caller msg data size : Nat} (hcaller : caller ≠ gui)
      (hmsg : msg ≠ null) (henabled : s.interrupts = true)
      (hcall : messageTo msg (s.kernel.task gui).pid data size (switchTo caller s.kernel) = .ok k) :
      GuiStep gui s (.messageTo caller msg data size) { s with kernel := k }

/-- The task was blocked by `task_block`, and a message waits in its queue. -/
def Gui.Lost (gui : TaskPtr) (s : Gui) : Prop :=
  s.pc = .schedule ∧ (s.kernel.task gui).status = .blocked
    ∧ queueSize (s.kernel.task gui).messageQueue ≠ 0

/-- The statement in `task_block` finds the task's queue empty. -/
def BlocksEmpty (gui : TaskPtr) (τ : Transition Gui GuiEvent) : Prop :=
  τ.event = .gui → τ.pre.pc = .block → queueSize (τ.pre.kernel.task gui).messageQueue = 0

/-- No message comes between `enable` and the statement in `task_block`. -/
def NotInWindow (τ : Transition Gui GuiEvent) : Prop := τ.event ≠ .gui → τ.pre.pc ≠ .block

/-! ## What the steps do to the task -/

section

variable {gui : TaskPtr} {s s' : Gui} {e : GuiEvent} {k : Kernel}

/-- A message to the pid of the task reaches it, or leaves its record. -/
theorem messageTo_gui {caller msg data size : Nat}
    (hcall : messageTo msg (s.kernel.task gui).pid data size (switchTo caller s.kernel) = .ok k) :
    k.task gui = s.kernel.task gui
      ∨ k.task gui = { s.kernel.task gui with
        status := .ready, messageQueue := queueAdd (s.kernel.task gui).messageQueue msg } := by
  rcases messageTo_cases hcall with ⟨_, rfl⟩ | ⟨t, _, _, rfl⟩
  · exact Or.inl rfl
  · by_cases heq : t = gui
    · subst heq
      exact Or.inr (Kernel.setTask_task_self (switchTo caller s.kernel) t _)
    · exact Or.inl (Kernel.setTask_task_of_ne (switchTo caller s.kernel) _ fun hne => heq hne.symm)

theorem taskBlockBody_task (gui : TaskPtr) (k : Kernel) :
    (taskBlockBody (switchTo gui k)).task gui = { k.task gui with status := .blocked } :=
  Kernel.setTask_task_self (switchTo gui k) gui _

/-- **One step** from a state in which no message is lost: one is lost by it exactly if it is the
statement in `task_block`, with a message in the queue. -/
theorem GuiStep.lost_iff (hstep : GuiStep gui s e s') (h : ¬ s.Lost gui) :
    ¬ s'.Lost gui ↔ BlocksEmpty gui ⟨s, e, s'⟩ := by
  cases hstep with
  | gui hready =>
    by_cases hblock : s.pc = .block
    · have htask : ((guiStep gui s).kernel.task gui) = { s.kernel.task gui with status := .blocked } := by
        unfold guiStep
        rw [hblock]
        exact taskBlockBody_task gui s.kernel
      have hpc : (guiStep gui s).pc = .schedule := by
        unfold guiStep
        rw [hblock]
      unfold Gui.Lost BlocksEmpty
      rw [htask, hpc]
      refine ⟨?_, ?_⟩
      · intro hnot _ _
        by_contra hne
        exact hnot ⟨rfl, rfl, hne⟩
      · intro hempty hlost
        exact hlost.2.2 (hempty rfl hblock)
    · -- no other statement goes to `schedule`
      have hpc : (guiStep gui s).pc ≠ .schedule := by
        unfold guiStep
        cases hs : s.pc with
        | block => exact absurd hs hblock
        | drain =>
          simp only
          split <;> exact fun heq => by cases heq
        | _ => exact fun heq => by cases heq
      exact iff_of_true (fun hlost => hpc hlost.1) fun _ hpre => absurd hpre hblock
  | messageTo hcaller hmsg henabled hcall =>
    refine iff_of_true ?_ fun hgui => by cases hgui
    rintro ⟨hpc, hblocked, hqueue⟩
    rcases messageTo_gui hcall with hsame | hready
    · rw [hsame] at hblocked hqueue
      exact h ⟨hpc, hblocked, hqueue⟩
    · rw [hready] at hblocked
      cases hblocked

/-! ## The window -/

/-- The statements from `disable` to `enable`. -/
def GuiPc.masked : GuiPc → Bool
  | .drain | .handle _ | .draw | .enable => true
  | .disable | .block | .schedule => false

/-- The statements from the end of the drain to the one in `task_block`. -/
def GuiPc.drained : GuiPc → Bool
  | .draw | .enable | .block => true
  | .disable | .drain | .handle _ | .schedule => false

/-- The queue holds `held`, which is empty where it has been drained. -/
structure DrainInv (gui : TaskPtr) (held : List Nat) (s : Gui) : Prop where
  holds : (s.kernel.task gui).messageQueue.Holds held
  ne_null : null ∉ held
  masked : s.pc.masked = true → s.interrupts = false
  drained : s.pc.drained = true → held = []

/-- `message` takes the oldest message; where there is none, the drain ends. -/
theorem DrainInv.drain {held : List Nat} (h : DrainInv gui held s) (hgui : gui ≠ null)
    (hpc : s.pc = .drain) : DrainInv gui (Fifo.pop held) (guiStep gui s) := by
  have hcall := message_eq (show (switchTo gui s.kernel).runningTask ≠ null from hgui)
  have hfst : (message (switchTo gui s.kernel)).1 = held.headD null := by
    rw [hcall]
    exact queueRemove_fst h.holds
  have hqueue : ((message (switchTo gui s.kernel)).2.task gui).messageQueue
      = (queueRemove (s.kernel.task gui).messageQueue).2 := by
    rw [hcall]
    exact congrArg Task.messageQueue (Kernel.setTask_task_self (switchTo gui s.kernel) gui _)
  have hstep : guiStep gui s = { s with
      kernel := (message (switchTo gui s.kernel)).2
      pc := if held.headD null = null then .draw else .handle (held.headD null) } := by
    unfold guiStep
    rw [hpc, ← hfst]
  rw [hstep]
  refine ⟨?_, fun hin => h.ne_null (List.mem_of_mem_tail hin), ?_, ?_⟩
  · show ((message (switchTo gui s.kernel)).2.task gui).messageQueue.Holds (Fifo.pop held)
    rw [hqueue]
    exact queueRemove_holds h.holds
  · intro _
    exact h.masked (by rw [hpc]; rfl)
  · intro hpost
    cases held with
    | nil => rfl
    | cons x rest =>
      -- a message is never the null pointer, so the drain goes on
      have hx : x ≠ null := fun heq => h.ne_null (heq ▸ List.mem_cons_self)
      rw [List.headD_cons, if_neg hx] at hpost
      cases hpost

/-- A statement that leaves the task's record. -/
theorem DrainInv.of_eq {held : List Nat} (h : DrainInv gui held s)
    (htask : (s'.kernel.task gui).messageQueue = (s.kernel.task gui).messageQueue)
    (hmasked : s'.pc.masked = true → s'.interrupts = false)
    (hdrained : s'.pc.drained = true → s.pc.drained = true) : DrainInv gui held s' := by
  refine ⟨?_, h.ne_null, hmasked, fun hpost => h.drained (hdrained hpost)⟩
  rw [htask]
  exact h.holds

/-- **One step**, which is no message in the window, leaves a drained queue empty. -/
theorem DrainInv.step {held : List Nat} (h : DrainInv gui held s) (hgui : gui ≠ null)
    (hstep : GuiStep gui s e s') (hwindow : NotInWindow ⟨s, e, s'⟩) :
    ∃ held', DrainInv gui held' s' := by
  cases hstep with
  | gui hready =>
    have hmasked : s.pc.masked = true → s.interrupts = false := h.masked
    unfold guiStep
    cases hpc : s.pc with
    | disable => exact ⟨held, h.of_eq rfl (fun _ => rfl) fun hpost => by cases hpost⟩
    | drain =>
      have hdrain := h.drain hgui hpc
      unfold guiStep at hdrain
      rw [hpc] at hdrain
      exact ⟨_, hdrain⟩
    | handle =>
      rw [hpc] at hmasked
      exact ⟨held, h.of_eq rfl (fun _ => hmasked rfl) fun hpost => by cases hpost⟩
    | draw =>
      rw [hpc] at hmasked
      exact ⟨held, h.of_eq rfl (fun _ => hmasked rfl) fun _ => by rw [hpc]; rfl⟩
    | enable =>
      exact ⟨held, h.of_eq rfl (fun hpost => by cases hpost) fun _ => by rw [hpc]; rfl⟩
    | block =>
      refine ⟨held, h.of_eq ?_ (fun hpost => by cases hpost) fun hpost => by cases hpost⟩
      show ((taskBlockBody (switchTo gui s.kernel)).task gui).messageQueue = _
      rw [taskBlockBody_task]
    | schedule =>
      exact ⟨held, h.of_eq rfl (fun hpost => by cases hpost) fun hpost => by cases hpost⟩
  | @messageTo k caller msg data size hcaller hmsg henabled hcall =>
    have hnot : s.pc ≠ .block := hwindow (fun hgui => by cases hgui)
    have hpc : s.pc.masked = false ∧ s.pc.drained = false := by
      cases hs : s.pc with
      | disable => exact ⟨rfl, rfl⟩
      | schedule => exact ⟨rfl, rfl⟩
      | block => exact absurd hs hnot
      | _ =>
        -- interrupts are disabled there
        have hoff := h.masked (by rw [hs]; rfl)
        rw [henabled] at hoff
        cases hoff
    rcases messageTo_gui hcall with hsame | hready
    · exact ⟨held, h.of_eq (congrArg Task.messageQueue hsame) h.masked id⟩
    · refine ⟨Fifo.push (s.kernel.task gui).messageQueue.size held msg, ?_, ?_, h.masked, ?_⟩
      · show (k.task gui).messageQueue.Holds _
        rw [hready]
        exact queueAdd_holds h.holds msg
      · unfold Fifo.push
        split
        · rw [List.mem_append, List.mem_singleton]
          exact fun hor => hor.elim h.ne_null fun heq => hmsg heq.symm
        · exact h.ne_null
      · intro hpost
        rw [show s.pc.drained = false from hpc.2] at hpost
        cases hpost

/-! ## Runs -/

/-- **The wake-up of the GUI task.** Start before the loop, with an empty message queue, and let the
statements of the loop and calls of `message_to` come in any order that interrupts allow. The task is
never left blocked with a message in its queue if and only if the statement in `task_block` always
finds the queue empty; and it does if no call of `message_to` comes after `enable` and before that
statement. -/
theorem gui_lost_iff {s₀ : Gui} (hgui : gui ≠ null) (hpc : s₀.pc = .disable)
    (hqueue : ∃ data, (s₀.kernel.task gui).messageQueue = queueInit data 32)
    {tr : List (Transition Gui GuiEvent)} (hrun : Run (GuiStep gui) s₀ tr s) :
    ((∀ τ ∈ tr, ¬ τ.post.Lost gui) ↔ ∀ τ ∈ tr, BlocksEmpty gui τ)
      ∧ ((∀ τ ∈ tr, NotInWindow τ) → ∀ τ ∈ tr, BlocksEmpty gui τ) := by
  have hstart : ¬ s₀.Lost gui := by
    rintro ⟨hschedule, _⟩
    rw [hpc] at hschedule
    cases hschedule
  have hinit : ∃ held, DrainInv gui held s₀ := by
    rcases hqueue with ⟨data, hdata⟩
    refine ⟨[], ?_, List.not_mem_nil, ?_, fun _ => rfl⟩
    · rw [hdata]
      exact queueInit_holds data (by decide) (by decide)
    · rw [hpc]
      exact fun hmasked => by cases hmasked
  refine ⟨?_, ?_⟩
  · refine @Run.all_iff_while _ _ _ _ (fun s => ¬ s.Lost gui) _ _ hstart ?_ ?_ tr s hrun
    · exact fun _ _ _ hpre hstep => hstep.lost_iff hpre
    · exact fun _ _ _ hpre hstep hempty => (hstep.lost_iff hpre).mpr hempty
  · -- up to the statement the run has stayed out of the window
    intro hall τ hτ hevent hblock
    rcases hrun.reaches_of_mem hτ with ⟨before, after, heq, hpre, _⟩
    obtain ⟨held, hinv⟩ := @Run.invariant_of_all _ _ _ _ (fun s => ∃ held, DrainInv gui held s)
      NotInWindow hinit (by
        rintro s e s' ⟨held, hs⟩ hstep hwindow
        exact hs.step hgui hstep hwindow) before τ.pre hpre
      fun τ' hτ' => hall τ' (by rw [heq]; exact List.mem_append_left _ hτ')
    have hholds := hinv.holds
    rw [hinv.drained (by rw [hblock]; rfl)] at hholds
    exact hholds.count_eq

end

/-! ## A message in the window -/

/-- The idle task, the GUI task 2, which runs, and a task 3. -/
def guiTasks : Kernel := taskAdd 3 (threadCreate 3 1 100 twoTasks)

/-- The GUI task has read all its messages and drawn, and calls `enable`. -/
def guiDrawn : Gui := ⟨(message (switchTo 2 guiTasks)).2, false, .enable⟩

theorem guiTasks_drawn :
    ∃ tr, Run (GuiStep 2) ⟨guiTasks, true, .disable⟩ tr guiDrawn ∧ tr.length = 3 := by
  have hdisable := @GuiStep.gui 2 ⟨guiTasks, true, .disable⟩ fun hpc => by cases hpc
  have hdrain := @GuiStep.gui 2 ⟨guiTasks, false, .drain⟩ fun hpc => by cases hpc
  have hdraw := @GuiStep.gui 2 ⟨(message (switchTo 2 guiTasks)).2, false, .draw⟩ fun hpc => by cases hpc
  exact ⟨_, ((Run.nil.snoc hdisable).snoc hdrain).snoc hdraw, rfl⟩

/-- Task 3 sends a message, which the GUI task reads before it draws and blocks. -/
theorem gui_lost_blocked :
    ∃ (tr : List (Transition Gui GuiEvent)) (s : Gui),
      Run (GuiStep 2) ⟨guiTasks, true, .disable⟩ tr s ∧ tr.length = 8
        ∧ (s.kernel.task 2).status = .blocked ∧ ∀ τ ∈ tr, ¬ τ.post.Lost 2 := by
  have hsend := Run.nil.snoc (@GuiStep.messageTo 2 ⟨guiTasks, true, .disable⟩ _ 3 100 7 4
    (by decide) (by decide) rfl rfl)
  have hplain : ∀ s : Gui, s.pc ≠ .schedule → GuiStep 2 s .gui (guiStep 2 s) :=
    fun s hpc => GuiStep.gui fun hschedule => absurd hschedule hpc
  have hdisable := hsend.snoc (hplain _ (by decide))
  -- the message is read, and then there is none
  have hread := (hdisable.snoc (hplain _ (by decide))).snoc (hplain _ (by decide))
  have hdrain := hread.snoc (hplain _ (by decide))
  have hdraw := hdrain.snoc (hplain _ (by decide))
  have hrun := (hdraw.snoc (hplain _ (by decide))).snoc (hplain _ (by decide))
  refine ⟨_, _, hrun, rfl, rfl, ?_⟩
  rcases gui_lost_iff (by decide) rfl ⟨_, rfl⟩ hrun with ⟨hiff, hempty⟩
  refine hiff.mpr (hempty ?_)
  have hgui : ∀ s s' : Gui, NotInWindow ⟨s, .gui, s'⟩ := fun _ _ hne => absurd rfl hne
  simp only [List.forall_mem_append, List.forall_mem_singleton, hgui, and_true]
  exact ⟨List.forall_mem_nil _, fun _ heq => by cases heq⟩

/-- Task 3 sends the GUI task a message after `enable`: `task_block` overwrites its status. -/
theorem message_lost_in_window :
    ∃ (tr : List (Transition Gui GuiEvent)) (s : Gui),
      Run (GuiStep 2) ⟨guiTasks, true, .disable⟩ tr s ∧ tr.length = 6 ∧ s.Lost 2 := by
  rcases guiTasks_drawn with ⟨tr, hdrawn, hlength⟩
  have henable := @GuiStep.gui 2 guiDrawn fun hpc => by cases hpc
  have hsend := @GuiStep.messageTo 2 { guiDrawn with interrupts := true, pc := .block } _ 3 100 7 4
    (by decide) (by decide) rfl rfl
  have hrun := (hdrawn.snoc henable).snoc hsend
  have hblock : ∀ s : Gui, s.pc = .block → GuiStep 2 s .gui (guiStep 2 s) :=
    fun s hpc => GuiStep.gui fun hschedule => by rw [hpc] at hschedule; cases hschedule
  exact ⟨_, _, hrun.snoc (hblock _ rfl), by simp [hlength], rfl, rfl, by decide⟩

end DiyOS
