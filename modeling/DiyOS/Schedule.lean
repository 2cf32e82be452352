import DiyOS.Task
import DiyOS.Lib.FirstMax
import DiyOS.Lib.Run

/-!
# The scheduler's choice

`schedule` passes over the task list twice: the first pass finds the greatest priority of a ready
task, from a floor of -127, and the second one the first ready task with that priority. Off the end of
its list the second pass would return no value.

* **`scheduleTask_firstMax`** — with one ready task at or above the floor, the choice is the first ready
  task of greatest priority.
* **`IdleReady`** — the invariant: that task is the idle task, which is never blocked.
* **`schedule_choice`** — the choice in every state that can be reached after `tasking`.
-/

namespace DiyOS

open Word FirstMax

/-! ## The two passes

Both iterators, as functions: the first raises a priority, the second finds the first task that has it. Together
they are the first maximum among the ready tasks. -/

abbrev Kernel.Ready (k : Kernel) (t : TaskPtr) : Prop := (k.task t).status = .ready

abbrev Kernel.priority (k : Kernel) (t : TaskPtr) : Int := (k.task t).priority

theorem findHigherPriority_eq (k : Kernel) :
    findHigherPriority k = fun t p => (false, raise k.Ready k.priority p t) := by
  funext t p
  unfold findHigherPriority raise
  by_cases hready : k.Ready t
  · rw [if_pos hready]
    by_cases hhigher : (k.task t).priority > p
    · rw [if_pos hhigher, if_pos ⟨hready, hhigher⟩]
    · rw [if_neg hhigher, if_neg fun hboth => hhigher hboth.2]
  · rw [if_neg hready, if_neg fun hboth => hready hboth.1]

theorem higherTask_eq (k : Kernel) :
    higherTask k = fun t p => (decide (k.Ready t ∧ k.priority t = p), p) := by
  funext t p
  unfold higherTask
  by_cases hready : k.Ready t
  · rw [if_pos hready]
    by_cases hsame : (k.task t).priority = p
    · rw [if_pos hsame, decide_eq_true ⟨hready, hsame⟩]
    · rw [if_neg hsame, decide_eq_false fun hboth => hsame hboth.2]
  · rw [if_neg hready, decide_eq_false fun hboth => hready hboth.1]

/-- The choice is found by looking for the greatest priority. -/
theorem scheduleTask_eq {k : Kernel} (htasks : k.tasks ≠ []) :
    scheduleTask k = match k.tasks.find? fun t =>
        k.Ready t ∧ k.priority t = maxKey k.Ready k.priority k.tasks (-127) with
      | none => .error .undefined
      | some t => .ok t := by
  unfold scheduleTask taskForeach
  rw [if_neg htasks, findHigherPriority_eq, taskIterate_all]
  simp only
  rw [if_neg htasks, higherTask_eq, taskIterate_find]
  -- what the first pass made of the floor is the greatest priority
  rw [show k.tasks.foldl (fun s p => raise k.Ready k.priority s p) (-127)
    = maxKey k.Ready k.priority k.tasks (-127) from rfl]
  cases k.tasks.find? fun t =>
      decide (k.Ready t ∧ k.priority t = maxKey k.Ready k.priority k.tasks (-127)) with
  | none => rfl
  | some t => rfl

/-- **The choice.** With one ready task at or above the floor of -127, `schedule` chooses the first
ready task of greatest priority. -/
theorem scheduleTask_firstMax {k : Kernel} {w : TaskPtr} (hw : w ∈ k.tasks) (hready : k.Ready w)
    (hfloor : -127 ≤ k.priority w) :
    ∃ t, scheduleTask k = .ok t ∧ IsFirstMax k.Ready k.priority k.tasks t := by
  have htasks : k.tasks ≠ [] := List.ne_nil_of_mem hw
  rcases find_maxKey k.Ready k.priority hw hready hfloor with ⟨t, hfind, hmax⟩
  refine ⟨t, ?_, hmax⟩
  rw [scheduleTask_eq htasks, hfind]

/-- Whatever `schedule` chooses is listed, ready, and at or above the floor. -/
theorem scheduleTask_cases {k : Kernel} {t : TaskPtr} (h : scheduleTask k = .ok t) :
    t ∈ k.tasks ∧ k.Ready t ∧ -127 ≤ k.priority t := by
  have htasks : k.tasks ≠ [] := by
    intro hnil
    unfold scheduleTask taskForeach at h
    rw [if_pos hnil] at h
    cases h
  rw [scheduleTask_eq htasks] at h
  split at h
  · cases h
  · next t' hfind =>
    have ht' := List.find?_some hfind
    have hchosen := of_decide_eq_true ht'
    rw [← Except.ok.inj h]
    refine ⟨List.mem_of_find?_eq_some hfind, hchosen.1, ?_⟩
    rw [hchosen.2]
    exact le_maxKey _ _ _ _

theorem scheduleTask_ready {k : Kernel} {t : TaskPtr} (h : scheduleTask k = .ok t) : k.Ready t :=
  (scheduleTask_cases h).2.1

/-! ## The states after `tasking`

The invariant is that the idle task stands in the list, ready and with the lowest priority. The events leave it
so: only other tasks block, sleep or exit. -/

/-- What can happen after `tasking`, up to the calls of `schedule`, and `schedule` itself. -/
inductive TaskingEvent where
  | threadCreate (t : TaskPtr) (priority : Int) (ppid : Nat)
  | taskAdd (t : TaskPtr)
  | messageTo (msg toPid data size : Nat)
  | wakeUp (q : Nat)
  | tick
  | sleep (ms : Nat)
  | sleepOn (q : Nat) (timeout : Option Nat)
  | taskBlock
  | taskExit (left : TaskPtr → Bool) (code : Int)
  | schedule

/-- One event. `thread_create` writes to fresh memory; a task that blocks, sleeps or exits is running
and is not the idle task. -/
inductive TaskingStep (idle : TaskPtr) : Kernel → TaskingEvent → Kernel → Prop where
  | threadCreate {k : Kernel} {t : TaskPtr} (priority : Int) (ppid : Nat) (hfresh : t ∉ k.tasks) :
      TaskingStep idle k (.threadCreate t priority ppid) (threadCreate t priority ppid k)
  | taskAdd {k : Kernel} (t : TaskPtr) : TaskingStep idle k (.taskAdd t) (taskAdd t k)
  | messageTo {k k' : Kernel} {msg toPid data size : Nat}
      (hcall : messageTo msg toPid data size k = .ok k') :
      TaskingStep idle k (.messageTo msg toPid data size) k'
  | wakeUp {k : Kernel} (q : Nat) : TaskingStep idle k (.wakeUp q) (wakeUp q k)
  | tick {k k' : Kernel} (hcall : timerBody k = .ok k') : TaskingStep idle k .tick k'
  | sleep {k : Kernel} (ms : Nat) (hrunning : k.runningTask ≠ idle) :
      TaskingStep idle k (.sleep ms) (sleepBody ms k)
  | sleepOn {k : Kernel} (q : Nat) (timeout : Option Nat) (hrunning : k.runningTask ≠ idle) :
      TaskingStep idle k (.sleepOn q timeout) (sleepOnBody q timeout k)
  | taskBlock {k : Kernel} (hrunning : k.runningTask ≠ idle) :
      TaskingStep idle k .taskBlock (taskBlockBody k)
  | taskExit {k k' : Kernel} {left : TaskPtr → Bool} {code : Int} (hrunning : k.runningTask ≠ idle)
      (hcall : taskExitBody left code k = .ok k') : TaskingStep idle k (.taskExit left code) k'
  | schedule {k k' : Kernel} (hcall : schedule k = .ok k') : TaskingStep idle k .schedule k'

/-- The idle task is listed, ready, and above the floor of `schedule`. -/
structure IdleReady (idle : TaskPtr) (k : Kernel) : Prop where
  mem : idle ∈ k.tasks
  ready : k.Ready idle
  priority : k.priority idle = -1

variable {idle : TaskPtr} {k : Kernel}

theorem tasking_idleReady (idle : TaskPtr) (k : Kernel) : IdleReady idle (tasking idle k) where
  mem := List.mem_append_right _ List.mem_cons_self
  ready := by
    show ((threadCreate idle (-1) 100 k).task idle).status = .ready
    simp [threadCreate]
  priority := by
    show ((threadCreate idle (-1) 100 k).task idle).priority = -1
    simp [threadCreate]

/-- A record that stays ready and keeps its priority, or is not the idle task's, can be replaced. -/
theorem IdleReady.setTask (h : IdleReady idle k) {t : TaskPtr} {r : Task}
    (hr : t = idle → r.status = .ready ∧ r.priority = -1) : IdleReady idle (k.setTask t r) := by
  by_cases heq : t = idle
  · rcases hr heq with ⟨hready, hpriority⟩
    subst heq
    refine ⟨h.mem, ?_, ?_⟩
    · rw [Kernel.Ready, Kernel.setTask_task_self]
      exact hready
    · rw [Kernel.priority, Kernel.setTask_task_self]
      exact hpriority
  · have hkept : (k.setTask t r).task idle = k.task idle :=
      Kernel.setTask_task_of_ne k r fun hidle => heq hidle.symm
    refine ⟨h.mem, ?_, ?_⟩
    · rw [Kernel.Ready, hkept]
      exact h.ready
    · rw [Kernel.priority, hkept]
      exact h.priority

/-- Waking a task. -/
theorem IdleReady.wake (h : IdleReady idle k) (t : TaskPtr) {r : Task} (hready : r.status = .ready)
    (hpriority : r.priority = (k.task t).priority) : IdleReady idle (k.setTask t r) := by
  refine h.setTask fun heq => ⟨hready, ?_⟩
  rw [hpriority, heq]
  exact h.priority

theorem updateTimeout_idleReady (h : IdleReady idle k) (data : Nat) (t : TaskPtr) :
    IdleReady idle (updateTimeout data t k) := by
  unfold updateTimeout
  split
  · simp only
    split
    · exact h.wake t rfl rfl
    · refine h.setTask fun heq => ?_
      rw [heq]
      exact ⟨h.ready, h.priority⟩
  · exact h

theorem taskWakeAfterDead_idleReady (h : IdleReady idle k) (t : TaskPtr) :
    IdleReady idle (taskWakeAfterDead t k) := by
  unfold taskWakeAfterDead
  split
  · exact h
  · split
    · split
      · exact h.wake t rfl rfl
      · exact h
    · exact h

/-- The running task is not the idle task, so that its record may change in any way. -/
theorem IdleReady.setRunning (h : IdleReady idle k) (hrunning : k.runningTask ≠ idle) (r : Task) :
    IdleReady idle (k.setTask k.runningTask r) :=
  h.setTask fun heq => absurd heq hrunning

/-- The invariant looks at the task records and at the list alone. -/
theorem IdleReady.of_eq {k' : Kernel} (h : IdleReady idle k) (htask : k'.task = k.task)
    (htasks : k'.tasks = k.tasks) : IdleReady idle k' := by
  refine ⟨?_, ?_, ?_⟩
  · rw [htasks]
    exact h.mem
  · rw [Kernel.Ready, htask]
    exact h.ready
  · rw [Kernel.priority, htask]
    exact h.priority

/-- **Every event keeps the idle task ready.** -/
theorem IdleReady.step (h : IdleReady idle k) {e : TaskingEvent} {k' : Kernel}
    (hstep : TaskingStep idle k e k') : IdleReady idle k' := by
  cases hstep with
  | @threadCreate t priority ppid hfresh =>
    -- the fresh memory is not the idle task's record
    have hne : t ≠ idle := fun heq => hfresh (heq ▸ h.mem)
    have hset : IdleReady idle (k.setTask t ((threadCreate t priority ppid k).task t)) :=
      h.setTask fun heq => absurd heq hne
    refine hset.of_eq ?_ rfl
    unfold threadCreate
    simp
  | taskAdd t => exact ⟨List.mem_append_left _ h.mem, h.ready, h.priority⟩
  | @messageTo _ msg toPid data size hcall =>
    rcases messageTo_cases hcall with ⟨_, rfl⟩ | ⟨t, _, _, rfl⟩
    · exact h
    · have hwoken : IdleReady idle (k.setTask t { k.task t with
          status := .ready, messageQueue := queueAdd (k.task t).messageQueue msg }) :=
        h.wake t rfl rfl
      exact hwoken.of_eq rfl rfl
  | wakeUp q =>
    rcases wakeUp_cases q k with ⟨_, heq⟩ | ⟨t, _, _, heq⟩
    · rw [heq]
      exact h.of_eq rfl rfl
    · have hwoken : IdleReady idle (k.setTask t { k.task t with status := .ready }) :=
        h.wake t rfl rfl
      rw [heq]
      exact hwoken.of_eq rfl rfl
  | tick hcall =>
    rw [timerBody_eq hcall]
    exact List.foldlRecOn k.tasks _ h fun k' hk' t _ => updateTimeout_idleReady hk' _ t
  | sleep ms hrunning => exact h.setRunning hrunning _
  | sleepOn q timeout hrunning =>
    rw [sleepOnBody_eq]
    exact IdleReady.of_eq (h.setRunning hrunning _) rfl rfl
  | taskBlock hrunning => exact h.setRunning hrunning _
  | taskExit hrunning hcall =>
    rw [taskExitBody_eq hcall]
    refine @taskIterate_invariant Kernel (IdleReady idle) _ ?_ k.tasks _ (h.setRunning hrunning _)
    exact fun t k' hk' => taskWakeAfterDead_idleReady hk' t
  | schedule hcall =>
    rcases schedule_cases hcall with ⟨t, _, rfl⟩
    exact h.of_eq rfl rfl

/-- **Scheduler choice.** In every state reached after `tasking` — by new tasks, messages, wake-ups,
timer ticks, tasks other than the idle one that block, sleep or exit, and calls of `schedule` — the
second pass of `schedule` finds a task. It is ready, its priority is the greatest among the ready
tasks, and it is the first such task in the list. -/
theorem schedule_choice {k₀ : Kernel} {tr : List (Transition Kernel TaskingEvent)} {k : Kernel}
    (hrun : Run (TaskingStep idle) (tasking idle k₀) tr k) :
    ∃ t before after, scheduleTask k = .ok t ∧ k.tasks = before ++ t :: after ∧ k.Ready t
      ∧ (∀ t' ∈ k.tasks, k.Ready t' → k.priority t' ≤ k.priority t)
      ∧ ∀ t' ∈ before, k.Ready t' → k.priority t' < k.priority t := by
  have hidle : IdleReady idle k := by
    refine hrun.invariant (tasking_idleReady idle k₀) ?_
    intro _ _ _ hpre hstep
    exact hpre.step hstep
  have hfloor : -127 ≤ k.priority idle := by
    rw [hidle.priority]
    decide
  obtain ⟨t, hchoice, before, after, hsplit, hready, hmax, hfirst⟩ :=
    scheduleTask_firstMax hidle.mem hidle.ready hfloor
  exact ⟨t, before, after, hchoice, hsplit, hready, hmax, hfirst⟩

/-- The idle task and a task of priority 1, added and scheduled. -/
theorem schedule_choice_two :
    ∃ (tr : List (Transition Kernel TaskingEvent)) (k : Kernel),
      Run (TaskingStep 1) (tasking 1 bootKernel) tr k ∧ tr.length = 3 ∧ k.runningTask = 2
        ∧ ∃ t, scheduleTask k = .ok t ∧ k.Ready t := by
  have hcreate := @TaskingStep.threadCreate 1 (tasking 1 bootKernel) 2 1 100 (by decide)
  have hadd := @TaskingStep.taskAdd 1 (threadCreate 2 1 100 (tasking 1 bootKernel)) 2
  have hschedule := @TaskingStep.schedule 1
    (taskAdd 2 (threadCreate 2 1 100 (tasking 1 bootKernel))) _ rfl
  have hrun := ((Run.nil.snoc hcreate).snoc hadd).snoc hschedule
  rcases schedule_choice hrun with ⟨t, _, _, hchoice, _, hready, _⟩
  exact ⟨_, _, hrun, rfl, rfl, t, hchoice, hready⟩

end DiyOS
