import DiyOS.Schedule

/-!
# Tasks that have exited

`task_exit` marks the running task dead and leaves it in the task list. Four functions mark a task
ready, and none of them asks whether the task is dead: `message_to`, `wake_up`, `update_timeout` and
`task_wake_after_dead`.

* **`SparesDead`** — the condition on one event: the task that it would mark ready is not dead.
* **`Deaths`** — the invariant under that condition: the dead tasks are those that have exited.
* **`dead_stay_dead_iff`** — over any run, a task that has exited is never ready again and never runs
  again if and only if every event met the condition.
-/

namespace DiyOS

open Word

abbrev Kernel.Dead (k : Kernel) (t : TaskPtr) : Prop := (k.task t).status = .dead

/-! ## Events

Everything that can change the status of a task. `died` is the history: the tasks that have called `task_exit`. -/

/-- The kernel, and the tasks that have called `task_exit`. -/
structure Census where
  kernel : Kernel
  died : List TaskPtr

inductive KernelEvent where
  | messageTo (msg toPid data size : Nat)
  | wakeUp (q : Nat)
  | timer
  | sleep (ms : Nat)
  | sleepOn (q : Nat) (timeout : Option Nat)
  | taskBlock
  | taskExit (left : TaskPtr → Bool) (code : Int)

/-- One event, with the call of `schedule` it ends in. A null running task has no record to block. -/
inductive KernelStep : Census → KernelEvent → Census → Prop where
  | messageTo {s : Census} {k : Kernel} {msg toPid data size : Nat}
      (hcall : messageTo msg toPid data size s.kernel = .ok k) :
      KernelStep s (.messageTo msg toPid data size) ⟨k, s.died⟩
  | wakeUp {s : Census} (q : Nat) : KernelStep s (.wakeUp q) ⟨wakeUp q s.kernel, s.died⟩
  | timer {s : Census} {k : Kernel} (hcall : timerHandler s.kernel = .ok k) :
      KernelStep s .timer ⟨k, s.died⟩
  | sleep {s : Census} {k : Kernel} {ms : Nat} (hcall : sleep ms s.kernel = .ok k) :
      KernelStep s (.sleep ms) ⟨k, s.died⟩
  | sleepOn {s : Census} {k : Kernel} {q : Nat} {timeout : Option Nat}
      (hrunning : s.kernel.runningTask ≠ null) (hcall : sleepOn q timeout s.kernel = .ok k) :
      KernelStep s (.sleepOn q timeout) ⟨k, s.died⟩
  | taskBlock {s : Census} {k : Kernel} (hrunning : s.kernel.runningTask ≠ null)
      (hcall : taskBlock s.kernel = .ok k) : KernelStep s .taskBlock ⟨k, s.died⟩
  | taskExit {s : Census} {k : Kernel} {left : TaskPtr → Bool} {code : Int}
      (hrunning : s.kernel.runningTask ≠ null) (hcall : taskExit left code s.kernel = .ok k) :
      KernelStep s (.taskExit left code) ⟨k, s.kernel.runningTask :: s.died⟩

/-- The tasks on which `task_foreach` calls an iterator that leaves `left t` behind. -/
def visited (left : TaskPtr → Bool) : List TaskPtr → List TaskPtr
  | [] => []
  | t :: ts => if left t then [t] else t :: visited left ts

/-- `t` waits for the end of the running task. -/
def Kernel.WaitsForRunning (k : Kernel) (t : TaskPtr) : Prop :=
  (k.task t).pid = (k.task k.runningTask).ppid ∧ (k.task t).wait4pid = true

/-- The event marks no dead task ready. For `task_exit`, the task that exits counts as dead. -/
def SparesDead (τ : Transition Census KernelEvent) : Prop :=
  let k := τ.pre.kernel
  match τ.event with
  | .messageTo _ toPid _ _ => ∀ t, taskFromPid toPid k = some t → ¬ k.Dead t
  | .wakeUp q => queuePeek (k.waitQueue q) ≠ null → ¬ k.Dead (queuePeek (k.waitQueue q))
  | .timer => ∀ t ∈ k.tasks, u32 (k.task t).timeout = 10 → ¬ k.Dead t
  | .sleep _ | .sleepOn _ _ | .taskBlock => True
  | .taskExit left _ =>
    ∀ t ∈ visited left k.tasks, k.WaitsForRunning t → t ≠ k.runningTask ∧ ¬ k.Dead t

/-- No task that has exited is ready, and none of them runs. -/
def StayDead (s : Census) : Prop :=
  ∀ t ∈ s.died, ¬ s.kernel.Ready t ∧ s.kernel.runningTask ≠ t

/-! ## The invariant

`Deaths died k` says that the tasks in `died` are dead and stand in the list. -/

/-- The dead tasks are those that have exited, and no task is listed twice. -/
structure Deaths (died : List TaskPtr) (k : Kernel) : Prop where
  dead_iff : ∀ t, k.Dead t ↔ t ∈ died
  nodup : k.tasks.Nodup

/-- The invariant between events: moreover no dead task runs. -/
structure DeathsInv (s : Census) : Prop where
  deaths : Deaths s.died s.kernel
  running : s.kernel.runningTask ∉ s.died

theorem DeathsInv.stayDead {s : Census} (h : DeathsInv s) : StayDead s := by
  intro t ht
  refine ⟨?_, fun heq => h.running (heq ▸ ht)⟩
  intro hready
  have hdead := (h.deaths.dead_iff t).mpr ht
  rw [Kernel.Dead, hready] at hdead
  cases hdead

section

variable {died : List TaskPtr} {k k' : Kernel}

/-- The invariant looks at the task records and at the list alone. -/
theorem Deaths.of_eq (h : Deaths died k) (htask : k'.task = k.task) (htasks : k'.tasks = k.tasks) :
    Deaths died k' := by
  refine ⟨?_, ?_⟩
  · intro t
    rw [Kernel.Dead, htask]
    exact h.dead_iff t
  · rw [htasks]
    exact h.nodup

/-- A record of a task that has not exited may change, if it does not become dead. -/
theorem Deaths.setTask (h : Deaths died k) {t : TaskPtr} {r : Task} (ht : t ∉ died)
    (hr : r.status ≠ .dead) : Deaths died (k.setTask t r) := by
  refine ⟨?_, h.nodup⟩
  intro t'
  by_cases heq : t' = t
  · subst heq
    rw [Kernel.Dead, Kernel.setTask_task_self]
    exact iff_of_false hr ht
  · rw [Kernel.Dead, Kernel.setTask_task_of_ne k r heq]
    exact h.dead_iff t'

/-- After `schedule`, no dead task runs. -/
theorem Deaths.schedule (h : Deaths died k) (hcall : schedule k = .ok k') :
    DeathsInv ⟨k', died⟩ := by
  -- `schedule` switches to a ready task, which is not dead
  rcases schedule_cases hcall with ⟨t, hchoice, rfl⟩
  refine ⟨h.of_eq rfl rfl, ?_⟩
  intro hdied
  have hdead := (h.dead_iff t).mpr hdied
  rw [Kernel.Dead, scheduleTask_ready hchoice] at hdead
  cases hdead

/-! ## Messages and wake-ups

Both mark a task ready without a look at its status; the condition is that it is not dead. -/

theorem Deaths.messageTo (h : Deaths died k) {msg toPid data size : Nat}
    (hcall : messageTo msg toPid data size k = .ok k')
    (hspare : ∀ t, taskFromPid toPid k = some t → ¬ k.Dead t) : Deaths died k' := by
  rcases messageTo_cases hcall with ⟨_, rfl⟩ | ⟨t, ht, _, rfl⟩
  · exact h
  · have halive : t ∉ died := fun hdied => hspare t ht ((h.dead_iff t).mpr hdied)
    have hset : Deaths died (k.setTask t { k.task t with
        status := .ready, messageQueue := queueAdd (k.task t).messageQueue msg }) :=
      h.setTask halive fun hready => by cases hready
    exact hset.of_eq rfl rfl

/-- A task that is not dead is woken. -/
theorem Deaths.wakeUp (h : Deaths died k) {q : Nat}
    (hspare : queuePeek (k.waitQueue q) ≠ null → ¬ k.Dead (queuePeek (k.waitQueue q))) :
    Deaths died (wakeUp q k) := by
  rcases wakeUp_cases q k with ⟨_, heq⟩ | ⟨t, ht, hnull, heq⟩
  · rw [heq]
    exact h.of_eq rfl rfl
  · have hpeek : queuePeek (k.waitQueue q) = t := (queueRemove_fst_eq_peek _).symm.trans ht
    rw [hpeek] at hspare
    have halive : t ∉ died := fun hdied => hspare hnull ((h.dead_iff t).mpr hdied)
    have hset : Deaths died (k.setTask t { k.task t with status := .ready }) :=
      h.setTask halive fun hready => by cases hready
    rw [heq]
    exact hset.of_eq rfl rfl

/-! ## Timer ticks

`update_timeout` does so too, when a timeout ends. A task that exits while its timeout runs is the case. -/

/-- What a tick makes of a task's record. -/
def expired (r : Task) : Task :=
  if r.timeout > 0 then
    if sub32 r.timeout 10 ≤ 0 then { r with status := .ready, timeout := 0 }
    else { r with timeout := sub32 r.timeout 10 }
  else r

theorem updateTimeout_eq (t : TaskPtr) (k : Kernel) :
    updateTimeout (1000 / 100) t k = k.setTask t (expired (k.task t)) := by
  unfold updateTimeout expired
  by_cases hpos : (k.task t).timeout > 0
  · rw [if_pos hpos, if_pos hpos]
    simp only
    split <;> rfl
  · rw [if_neg hpos, if_neg hpos]
    unfold Kernel.setTask
    rw [Function.update_eq_self]

theorem expired_ready {r : Task} (h : u32 r.timeout = 10) : (expired r).status = .ready := by
  -- a tick takes ten milliseconds from the timeout
  have hpos : r.timeout > 0 := by
    unfold u32 at h
    omega
  have hzero : sub32 r.timeout 10 ≤ 0 := by
    unfold sub32 u32 at *
    omega
  rw [expired, if_pos hpos, if_pos hzero]

theorem expired_status {r : Task} (h : u32 r.timeout ≠ 10) : (expired r).status = r.status := by
  unfold expired
  split
  · have hne : ¬ sub32 r.timeout 10 ≤ 0 := by
      unfold sub32 u32 at *
      omega
    rw [if_neg hne]
  · rfl

/-- A pass that replaces the record of each task of a list without repetition. -/
theorem foldl_setTask (f : Task → Task) {ps : List TaskPtr} (hnodup : ps.Nodup) (k : Kernel)
    (t : TaskPtr) : (ps.foldl (fun k p => k.setTask p (f (k.task p))) k).task t
      = if t ∈ ps then f (k.task t) else k.task t := by
  induction ps generalizing k with
  | nil => simp
  | cons p ps ih =>
    rw [List.foldl_cons, ih (List.nodup_cons.mp hnodup).2]
    by_cases heq : t = p
    · subst heq
      rw [if_neg (List.nodup_cons.mp hnodup).1, Kernel.setTask_task_self,
        if_pos List.mem_cons_self]
    · rw [Kernel.setTask_task_of_ne _ _ heq]
      simp [heq]

theorem foldl_setTask_tasks (f : Task → Task) (ps : List TaskPtr) (k : Kernel) :
    (ps.foldl (fun k p => k.setTask p (f (k.task p))) k).tasks = k.tasks := by
  induction ps generalizing k with
  | nil => rfl
  | cons p ps ih => exact ih _

theorem timerBody_cases (hnodup : k.tasks.Nodup) (hcall : timerBody k = .ok k') :
    k'.tasks = k.tasks ∧ ∀ t, k'.task t = if t ∈ k.tasks then expired (k.task t) else k.task t := by
  have hpass := timerBody_eq hcall
  simp only [updateTimeout_eq] at hpass
  rw [hpass]
  exact ⟨foldl_setTask_tasks expired k.tasks k, foldl_setTask expired hnodup k⟩

/-- A tick that ends the timeout of no dead task. -/
theorem Deaths.timerBody (h : Deaths died k) (hcall : timerBody k = .ok k')
    (hspare : ∀ t ∈ k.tasks, u32 (k.task t).timeout = 10 → ¬ k.Dead t) : Deaths died k' := by
  rcases timerBody_cases h.nodup hcall with ⟨htasks, htask⟩
  refine ⟨?_, ?_⟩
  · intro t
    rw [← h.dead_iff t, Kernel.Dead, htask t]
    by_cases hmem : t ∈ k.tasks
    · rw [if_pos hmem]
      by_cases hten : u32 (k.task t).timeout = 10
      · -- the task becomes ready, and was not dead
        rw [expired_ready hten]
        exact iff_of_false (fun hready => by cases hready) (hspare t hmem hten)
      · rw [expired_status hten]
    · rw [if_neg hmem]
  · rw [htasks]
    exact h.nodup

/-! ## The end of a task

Its parent is woken if it waits; which tasks the pass comes to depends on a value that the iterator does not
return. -/

theorem taskIterate_visited (left : TaskPtr → Bool) (f : TaskPtr → Kernel → Kernel)
    (ps : List TaskPtr) (k : Kernel) : (taskIterate (fun t k => (left t, f t k)) ps k).2
      = (visited left ps).foldl (fun k t => f t k) k := by
  induction ps generalizing k with
  | nil => rfl
  | cons p ps ih =>
    rw [taskIterate, visited]
    cases left p with
    | true => rfl
    | false => exact ih (f p k)

/-- The record of a task that has been woken by the end of another one. -/
def woken (r : Task) : Task := { r with wait4pid := false, status := .ready }

/-- The iterator wakes the waiting parent of a dead task. -/
theorem taskWakeAfterDead_cases (t : TaskPtr) (k : Kernel) :
    k.Dead k.runningTask ∧ k.WaitsForRunning t
        ∧ taskWakeAfterDead t k = k.setTask t (woken (k.task t))
      ∨ ¬ (k.Dead k.runningTask ∧ k.WaitsForRunning t) ∧ taskWakeAfterDead t k = k := by
  unfold taskWakeAfterDead Kernel.WaitsForRunning
  -- the three tests of the function, in its order
  by_cases hdead : (k.task k.runningTask).status = .dead
  · rw [if_neg (not_not.mpr hdead)]
    by_cases hpid : (k.task t).pid = (k.task k.runningTask).ppid
    · rw [if_pos hpid]
      by_cases hwait : (k.task t).wait4pid = true
      · rw [if_pos hwait]
        exact Or.inl ⟨hdead, ⟨hpid, hwait⟩, rfl⟩
      · rw [if_neg hwait]
        exact Or.inr ⟨fun hboth => hwait hboth.2.2, rfl⟩
    · rw [if_neg hpid]
      exact Or.inr ⟨fun hboth => hpid hboth.2.1, rfl⟩
  · rw [if_pos hdead]
    exact Or.inr ⟨fun hboth => hdead hboth.1, rfl⟩

/-- Waking one task does not make another one wait. -/
theorem waitsForRunning_of_woken {t u : TaskPtr}
    (h : (k.setTask t (woken (k.task t))).WaitsForRunning u) : u ≠ t ∧ k.WaitsForRunning u := by
  rcases h with ⟨hpid, hwait⟩
  have hne : u ≠ t := by
    intro heq
    rw [heq, Kernel.setTask_task_self] at hwait
    cases hwait
  have hppid : ((k.setTask t (woken (k.task t))).task k.runningTask).ppid
      = (k.task k.runningTask).ppid := by
    by_cases heq : k.runningTask = t
    · rw [heq, Kernel.setTask_task_self]
      rfl
    · rw [Kernel.setTask_task_of_ne _ _ heq]
  rw [Kernel.setTask_runningTask, hppid, Kernel.setTask_task_of_ne _ _ hne] at hpid
  rw [Kernel.setTask_task_of_ne _ _ hne] at hwait
  exact ⟨hne, hpid, hwait⟩

/-- A pass that wakes no dead task. -/
theorem Deaths.foldl_wake (h : Deaths died k) {ts : List TaskPtr}
    (hspare : ∀ t ∈ ts, k.WaitsForRunning t → t ∉ died) :
    Deaths died (ts.foldl (fun k t => taskWakeAfterDead t k) k) := by
  induction ts generalizing k with
  | nil => exact h
  | cons t ts ih =>
    rw [List.foldl_cons]
    rcases taskWakeAfterDead_cases t k with ⟨_, hwaits, heq⟩ | ⟨_, heq⟩
    · rw [heq]
      -- `t` is alive, so waking it keeps the invariant; who waits afterwards has waited before
      have halive := hspare t List.mem_cons_self hwaits
      refine ih (h.setTask halive fun hready => by cases hready) ?_
      intro u hu huwaits
      exact hspare u (List.mem_cons_of_mem _ hu) (waitsForRunning_of_woken huwaits).2
    · rw [heq]
      exact ih h fun u hu => hspare u (List.mem_cons_of_mem _ hu)

/-- The pass never unmarks a ready task. -/
theorem foldl_wake_ready {t : TaskPtr} (h : k.Ready t) (ts : List TaskPtr) :
    (ts.foldl (fun k t => taskWakeAfterDead t k) k).Ready t := by
  induction ts generalizing k with
  | nil => exact h
  | cons u ts ih =>
    rw [List.foldl_cons]
    refine ih ?_
    rcases taskWakeAfterDead_cases u k with ⟨_, _, heq⟩ | ⟨_, heq⟩
    · rw [heq, Kernel.Ready]
      by_cases hut : t = u
      · rw [hut, Kernel.setTask_task_self]
        rfl
      · rw [Kernel.setTask_task_of_ne _ _ hut]
        exact h
    · rw [heq]
      exact h

/-- A dead task among those that wait: the first of them to be visited becomes ready. -/
theorem Deaths.foldl_wake_dead (h : Deaths died k) (hrunning : k.runningTask ∈ died)
    {ts : List TaskPtr} {t : TaskPtr} (ht : t ∈ ts) (hwaits : k.WaitsForRunning t) (hdied : t ∈ died) :
    ∃ u ∈ died, (ts.foldl (fun k t => taskWakeAfterDead t k) k).Ready u := by
  induction ts generalizing k with
  | nil => cases ht
  | cons u ts ih =>
    rw [List.foldl_cons]
    rcases taskWakeAfterDead_cases u k with ⟨_, _, heq⟩ | ⟨hnot, heq⟩
    · by_cases hu : u ∈ died
      · -- a dead task is woken, and stays ready to the end of the pass
        refine ⟨u, hu, foldl_wake_ready ?_ ts⟩
        rw [heq, Kernel.Ready, Kernel.setTask_task_self]
        rfl
      · -- a task that has not exited is woken, and changes nothing for `t`
        have hne : t ≠ u := fun htu => hu (htu ▸ hdied)
        have hrun : k.runningTask ≠ u := fun hru => hu (hru ▸ hrunning)
        have htail : t ∈ ts := (List.mem_cons.mp ht).resolve_left hne
        rw [heq]
        refine ih (h.setTask hu fun hready => by cases hready) hrunning htail ?_
        unfold Kernel.WaitsForRunning
        rw [Kernel.setTask_runningTask, Kernel.setTask_task_of_ne _ _ hne,
          Kernel.setTask_task_of_ne _ _ hrun]
        exact hwaits
    · -- `u` is passed over, so it is not `t`, which waits
      have hne : t ≠ u := fun htu => hnot ⟨(h.dead_iff _).mpr hrunning, htu ▸ hwaits⟩
      rw [heq]
      exact ih h hrunning ((List.mem_cons.mp ht).resolve_left hne) hwaits

/-- `task_exit` before it wakes anyone: the running task is dead, and nothing else changed. -/
theorem Deaths.exit (h : Deaths died k) (code : Int) :
    Deaths (k.runningTask :: died) (k.setTask k.runningTask
      { k.task k.runningTask with exitCode := code, status := .dead }) := by
  refine ⟨?_, h.nodup⟩
  intro t
  rw [List.mem_cons]
  by_cases heq : t = k.runningTask
  · rw [Kernel.Dead, heq, Kernel.setTask_task_self]
    exact iff_of_true rfl (Or.inl rfl)
  · rw [Kernel.Dead, Kernel.setTask_task_of_ne _ _ heq, or_iff_right heq]
    exact h.dead_iff t

theorem waitsForRunning_exit (code : Int) (t : TaskPtr) :
    (k.setTask k.runningTask { k.task k.runningTask with
      exitCode := code, status := .dead }).WaitsForRunning t ↔ k.WaitsForRunning t := by
  unfold Kernel.WaitsForRunning
  rw [Kernel.setTask_runningTask, Kernel.setTask_task_self]
  by_cases heq : t = k.runningTask
  · rw [heq, Kernel.setTask_task_self]
  · rw [Kernel.setTask_task_of_ne _ _ heq]

end

/-! ## One event

From each event, the condition under which the dead stay dead. -/

variable {s s' : Census} {e : KernelEvent}

/-- The running task has not exited: its record may change, if it does not become dead. -/
theorem DeathsInv.block (h : DeathsInv s) {r : Task} (hr : r.status = .blocked) :
    Deaths s.died (s.kernel.setTask s.kernel.runningTask r) :=
  h.deaths.setTask h.running fun hdead => by
    rw [hr] at hdead
    cases hdead

/-- **An event that meets the condition keeps the invariant.** -/
theorem DeathsInv.step (h : DeathsInv s) (hstep : KernelStep s e s')
    (hspare : SparesDead ⟨s, e, s'⟩) : DeathsInv s' := by
  cases hstep with
  | messageTo hcall =>
    have hdeaths := h.deaths.messageTo hcall hspare
    refine ⟨hdeaths, ?_⟩
    rcases messageTo_cases hcall with ⟨_, rfl⟩ | ⟨t, _, _, rfl⟩
    · exact h.running
    · exact h.running
  | wakeUp q =>
    refine ⟨h.deaths.wakeUp hspare, ?_⟩
    show (wakeUp q s.kernel).runningTask ∉ s.died
    rcases wakeUp_cases q s.kernel with ⟨_, heq⟩ | ⟨t, _, _, heq⟩
    · rw [heq]
      exact h.running
    · rw [heq]
      exact h.running
  | timer hcall =>
    rcases timerHandler_cases hcall with ⟨k₁, hbody, hschedule⟩
    exact (h.deaths.timerBody hbody hspare).schedule hschedule
  | @sleep _ ms hcall =>
    have hblock : Deaths s.died (sleepBody ms s.kernel) := h.block rfl
    exact hblock.schedule (sleep_cases hcall)
  | @sleepOn _ q timeout hrunning hcall =>
    have hblock : Deaths s.died (s.kernel.setTask s.kernel.runningTask
        { s.kernel.task s.kernel.runningTask with
          status := .blocked, timeout := timeout.getD 0 }) := h.block rfl
    have hqueued : Deaths s.died (sleepOnBody q timeout s.kernel) := by
      rw [sleepOnBody_eq]
      exact hblock.of_eq rfl rfl
    exact hqueued.schedule hcall
  | taskBlock hrunning hcall =>
    have hblock : Deaths s.died (taskBlockBody s.kernel) := h.block rfl
    exact hblock.schedule hcall
  | @taskExit _ left code hrunning hcall =>
    rcases taskExit_cases hcall with ⟨k₁, hbody, hschedule⟩
    rw [taskExitBody_eq hbody, taskIterate_visited] at hschedule
    -- the pass starts with the exiting task dead, and `schedule` follows it
    refine Deaths.schedule ((h.deaths.exit code).foldl_wake ?_) hschedule
    intro t ht hwaits hdied
    rcases hspare t ht ((waitsForRunning_exit code t).mp hwaits) with ⟨hne, halive⟩
    rcases List.mem_cons.mp hdied with heq | hdied
    · exact hne heq
    · exact halive ((h.deaths.dead_iff t).mpr hdied)

/-- **An event after which no exited task is ready met the condition.** -/
theorem DeathsInv.spares (h : DeathsInv s) (hstep : KernelStep s e s') (hstay : StayDead s') :
    SparesDead ⟨s, e, s'⟩ := by
  cases hstep with
  | @messageTo k msg toPid data size hcall =>
    intro t ht hdead
    refine (hstay t ((h.deaths.dead_iff t).mp hdead)).1 ?_
    -- `message_to` has found the same task by its pid
    rcases messageTo_cases hcall with ⟨hnone, _⟩ | ⟨t', ht', _, heq⟩
    · rw [ht] at hnone
      cases hnone
    · obtain rfl := Option.some.inj (ht'.symm.trans ht)
      show (k.task t').status = .ready
      rw [heq]
      exact congrArg Task.status (Kernel.setTask_task_self s.kernel t' _)
  | wakeUp q =>
    intro hnull hdead
    refine (hstay _ ((h.deaths.dead_iff _).mp hdead)).1 ?_
    rw [← queueRemove_fst_eq_peek] at hnull ⊢
    show ((wakeUp q s.kernel).task _).status = .ready
    rcases wakeUp_cases q s.kernel with ⟨hempty, _⟩ | ⟨t, ht, _, heq⟩
    · exact absurd hempty hnull
    · rw [heq, ht]
      exact congrArg Task.status (Kernel.setTask_task_self s.kernel t _)
  | @timer k hcall =>
    intro t hmem hten hdead
    refine (hstay t ((h.deaths.dead_iff t).mp hdead)).1 ?_
    rcases timerHandler_cases hcall with ⟨k₁, hbody, hschedule⟩
    rcases schedule_cases hschedule with ⟨_, _, heq⟩
    show (k.task t).status = .ready
    rw [heq]
    show (k₁.task t).status = .ready
    rw [(timerBody_cases h.deaths.nodup hbody).2 t, if_pos hmem]
    exact expired_ready hten
  | sleep hcall => trivial
  | sleepOn hrunning hcall => trivial
  | taskBlock hrunning hcall => trivial
  | @taskExit k left code hrunning hcall =>
    intro t ht hwaits
    rcases taskExit_cases hcall with ⟨k₁, hbody, hschedule⟩
    rcases schedule_cases hschedule with ⟨_, _, heq⟩
    rw [taskExitBody_eq hbody, taskIterate_visited] at heq
    have hnot : t ∉ s.kernel.runningTask :: s.died := by
      intro hdied
      -- otherwise the pass leaves a dead task ready
      obtain ⟨u, hu, hready⟩ := (h.deaths.exit code).foldl_wake_dead List.mem_cons_self ht
        ((waitsForRunning_exit code t).mpr hwaits) hdied
      refine (hstay u hu).1 ?_
      show (k.task u).status = .ready
      rw [heq]
      exact hready
    rw [List.mem_cons, not_or] at hnot
    exact ⟨hnot.1, fun hdead => hnot.2 ((h.deaths.dead_iff t).mp hdead)⟩

/-! ## Runs

By induction; the other direction looks at the first event that does not meet its condition. -/

/-- **Dead tasks.** Start before any task has exited, each task listed once, and let the kernel's
events happen in any order. After every event, no task that has exited is ready and none of them
runs, if and only if every event met `SparesDead`: no message to the pid of a dead task, no wake-up of
a queue whose oldest entry is a dead task, no tick that takes a dead task's timeout from 10 to 0, and
no exit whose visited tasks include a waiting parent that is dead or is the exiting task itself. -/
theorem dead_stay_dead_iff {k₀ : Kernel} (hstart : ∀ t, ¬ k₀.Dead t) (hnodup : k₀.tasks.Nodup)
    {tr : List (Transition Census KernelEvent)} {s : Census} (hrun : Run KernelStep ⟨k₀, []⟩ tr s) :
    (∀ τ ∈ tr, StayDead τ.post) ↔ ∀ τ ∈ tr, SparesDead τ := by
  have hinit : DeathsInv ⟨k₀, []⟩ :=
    ⟨⟨fun t => iff_of_false (hstart t) List.not_mem_nil, hnodup⟩, List.not_mem_nil⟩
  -- the condition carries the invariant from event to event
  refine hrun.all_iff_while hinit ?_ fun _ _ _ hpre hstep hspare => hpre.step hstep hspare
  intro _ _ _ hpre hstep
  exact ⟨hpre.spares hstep, fun hspare => (hpre.step hstep hspare).stayDead⟩

/-! ## A task that exits

Two tasks, of which the second is running. -/

/-- The idle task, and task 2, which runs. -/
def twoTasks : Kernel := switchTo 2 (taskAdd 2 (threadCreate 2 1 100 (tasking 1 bootKernel)))

/-- Nobody is dead yet. -/
theorem twoTasks_alive (t : TaskPtr) : ¬ twoTasks.Dead t := by
  have htask : twoTasks.task t = (threadCreate 2 1 100 (tasking 1 bootKernel)).task t := rfl
  rw [Kernel.Dead, htask]
  by_cases h2 : t = 2
  · subst h2
    decide
  · by_cases h1 : t = 1
    · subst h1
      decide
    · have hboot : (threadCreate 2 1 100 (tasking 1 bootKernel)).task t = bootKernel.task t := by
        show Function.update (Function.update bootKernel.task 1 _) 2 _ t = _
        rw [Function.update_of_ne h2, Function.update_of_ne h1]
      rw [hboot]
      exact fun hdead => by cases hdead

/-- The same two tasks after task 2 has called `task_exit(0)`. -/
def twoTasksExited : Kernel :=
  switchTo 1 (twoTasks.setTask 2 { twoTasks.task 2 with exitCode := 0, status := .dead })

theorem twoTasks_exit :
    KernelStep ⟨twoTasks, []⟩ (.taskExit (fun _ => false) 0) ⟨twoTasksExited, [2]⟩ :=
  KernelStep.taskExit (by decide) rfl

/-- Task 2 exits, and the idle task sends a message to itself. -/
theorem dead_stay_dead_two :
    ∃ (tr : List (Transition Census KernelEvent)) (s : Census),
      Run KernelStep ⟨twoTasks, []⟩ tr s ∧ tr.length = 2 ∧ s.died = [2]
        ∧ ∀ τ ∈ tr, StayDead τ.post := by
  have hsend := @KernelStep.messageTo ⟨twoTasksExited, [2]⟩ _ 100 1001 7 4 rfl
  have hrun := (Run.nil.snoc twoTasks_exit).snoc hsend
  refine ⟨_, _, hrun, rfl, rfl, ?_⟩
  refine (dead_stay_dead_iff twoTasks_alive (by decide) hrun).mpr ?_
  rw [List.forall_mem_append, List.nil_append, List.forall_mem_singleton,
    List.forall_mem_singleton]
  refine ⟨?_, ?_⟩
  · -- no task waits
    intro t ht hwaits
    have hmem : t ∈ [1, 2] := ht
    have hwait := hwaits.2
    obtain rfl | rfl : t = 1 ∨ t = 2 := by simpa using hmem
    · cases hwait
    · cases hwait
  · intro t ht
    have hidle : taskFromPid 1001 twoTasksExited = some 1 := rfl
    obtain rfl := Option.some.inj (hidle.symm.trans ht)
    exact fun hdead => by cases hdead

/-- Task 2 exits, and the idle task sends a message to it: it is ready, and `schedule` resumes it. -/
theorem dead_task_woken :
    ∃ (tr : List (Transition Census KernelEvent)) (s : Census),
      Run KernelStep ⟨twoTasks, []⟩ tr s ∧ tr.length = 2 ∧ s.died = [2]
        ∧ s.kernel.Ready 2 ∧ scheduleTask s.kernel = .ok 2 := by
  have hsend := @KernelStep.messageTo ⟨twoTasksExited, [2]⟩ _ 100 1002 7 4 rfl
  exact ⟨_, _, (Run.nil.snoc twoTasks_exit).snoc hsend, rfl, rfl, rfl, rfl⟩

end DiyOS
