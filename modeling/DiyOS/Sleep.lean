import DiyOS.Dead

/-!
# How long a task sleeps (`sleep`, `update_timeout`)

`sleep(ms)` writes `ms` to the task's timeout, and each tick of the timer takes ten milliseconds from
it. The timeout is unsigned: the tick that should bring it to 0 or below does so only if it brings it
to 0, otherwise the difference wraps and the task sleeps on. A timeout of 0 is never looked at.

* **`Asleep`** — the invariant: the task is blocked, with so many milliseconds left.
* **`Asleep.step`**, **`Asleep.tick`** — everything but the timer leaves them; a tick takes ten.
* **`sleep_duration_iff`** — the task wakes with the tick it should wake with exactly if `ms` is a
  positive multiple of ten.
-/

namespace DiyOS

open Word

/-! ## What happens while a task sleeps -/

inductive SleepEvent where
  | kernel (e : KernelEvent)
  | threadCreate (t : TaskPtr) (priority : Int) (ppid : Nat)

/-- One event of the kernel, or a new task in fresh memory. -/
inductive SleepStep : Kernel → SleepEvent → Kernel → Prop where
  | kernel {s s' : Census} {e : KernelEvent} (hstep : KernelStep s e s') :
      SleepStep s.kernel (.kernel e) s'.kernel
  | threadCreate {k : Kernel} {t : TaskPtr} (priority : Int) (ppid : Nat) (hfresh : t ∉ k.tasks) :
      SleepStep k (.threadCreate t priority ppid) (taskAdd t (threadCreate t priority ppid k))

def SleepEvent.isTick : SleepEvent → Bool
  | .kernel .timer => true
  | _ => false

/-- The passes of `update_timeout` in a run. -/
def ticks (tr : List (Transition Kernel SleepEvent)) : Nat := tr.countP fun τ => τ.event.isTick

/-- Apart from the timer, the event does not wake `t`: it is not a message to `t`, not a wake-up of a
queue whose oldest entry is `t`, and not the end of a task that `t` waits for. -/
def Undisturbed (t : TaskPtr) (τ : Transition Kernel SleepEvent) : Prop :=
  match τ.event with
  | .kernel (.messageTo _ toPid _ _) => taskFromPid toPid τ.pre ≠ some t
  | .kernel (.wakeUp q) => (queueRemove (τ.pre.waitQueue q)).1 ≠ t
  | .kernel (.taskExit left _) => t ∈ visited left τ.pre.tasks → ¬ τ.pre.WaitsForRunning t
  | _ => True

/-- `t` is blocked before the tick number `⌈ms / 10⌉`, and ready with timeout 0 after it; if that number
is 0, right at the start. -/
def SleepsFor (t : TaskPtr) (ms : Nat) (tr : List (Transition Kernel SleepEvent)) (k : Kernel) : Prop :=
  (ticks tr < (ms + 9) / 10 → (k.task t).status = .blocked)
    ∧ (ticks tr = (ms + 9) / 10 → (∀ τ ∈ tr.getLast?, τ.event.isTick) →
        k.Ready t ∧ (k.task t).timeout = 0)

/-! ## The invariant -/

/-- `t`, listed once, is asleep with `left` milliseconds left. -/
structure Asleep (t : TaskPtr) (left : Nat) (k : Kernel) : Prop where
  mem : t ∈ k.tasks
  nodup : k.tasks.Nodup
  running : k.runningTask ≠ t
  status : (k.task t).status = .blocked
  timeout : (k.task t).timeout = left

section

variable {t : TaskPtr} {left : Nat} {k k' : Kernel}

/-- The invariant looks at the list, the running task and the record of `t`. -/
theorem Asleep.of_eq (h : Asleep t left k) (htasks : k'.tasks = k.tasks)
    (hrunning : k'.runningTask = k.runningTask) (htask : k'.task t = k.task t) : Asleep t left k' := by
  constructor
  · rw [htasks]
    exact h.mem
  · rw [htasks]
    exact h.nodup
  · rw [hrunning]
    exact h.running
  · rw [htask]
    exact h.status
  · rw [htask]
    exact h.timeout

theorem Asleep.setTask (h : Asleep t left k) {u : TaskPtr} (hne : t ≠ u) (r : Task) :
    Asleep t left (k.setTask u r) :=
  h.of_eq rfl rfl (Kernel.setTask_task_of_ne k r hne)

/-- `schedule` does not choose a task that is blocked. -/
theorem Asleep.schedule (h : Asleep t left k) (hcall : schedule k = .ok k') : Asleep t left k' := by
  rcases schedule_cases hcall with ⟨u, hchoice, rfl⟩
  refine ⟨h.mem, h.nodup, ?_, h.status, h.timeout⟩
  show u ≠ t
  intro heq
  have hready := scheduleTask_ready hchoice
  rw [heq, Kernel.Ready, h.status] at hready
  cases hready

theorem Asleep.taskAdd (h : Asleep t left k) {u : TaskPtr} (hfresh : u ∉ k.tasks) :
    Asleep t left (taskAdd u k) := by
  refine ⟨List.mem_append_left _ h.mem, ?_, h.running, h.status, h.timeout⟩
  show (k.tasks ++ [u]).Nodup
  rw [List.nodup_append]
  refine ⟨h.nodup, by simp, ?_⟩
  intro v hv w hw
  rw [List.mem_singleton.mp hw]
  exact ne_of_mem_of_not_mem hv hfresh

/-- A pass in which `t` waits for nobody, or is not visited. -/
theorem foldl_wake_task {ts : List TaskPtr} (hspare : t ∈ ts → ¬ k.WaitsForRunning t) :
    (ts.foldl (fun k t => taskWakeAfterDead t k) k).task t = k.task t := by
  induction ts generalizing k with
  | nil => rfl
  | cons u ts ih =>
    rw [List.foldl_cons]
    rcases taskWakeAfterDead_cases u k with ⟨_, hwaits, heq⟩ | ⟨_, heq⟩
    · -- the task that is woken is not `t`
      have hne : t ≠ u := by
        rintro rfl
        exact hspare List.mem_cons_self hwaits
      rw [heq, ih fun hmem hw => hspare (List.mem_cons_of_mem u hmem) (waitsForRunning_of_woken hw).2]
      exact Kernel.setTask_task_of_ne k _ hne
    · rw [heq]
      exact ih fun hmem => hspare (List.mem_cons_of_mem u hmem)

theorem foldl_wake_rest (ts : List TaskPtr) (k : Kernel) :
    (ts.foldl (fun k t => taskWakeAfterDead t k) k).tasks = k.tasks
      ∧ (ts.foldl (fun k t => taskWakeAfterDead t k) k).runningTask = k.runningTask := by
  induction ts generalizing k with
  | nil => exact ⟨rfl, rfl⟩
  | cons u ts ih =>
    rw [List.foldl_cons]
    rcases taskWakeAfterDead_cases u k with ⟨_, _, heq⟩ | ⟨_, heq⟩
    · rw [heq]
      exact ih _
    · rw [heq]
      exact ih k

/-- The event of a tick is a call of `timer_handler`. -/
theorem SleepStep.timerHandler {e : SleepEvent} (hstep : SleepStep k e k') (htick : e.isTick = true) :
    timerHandler k = .ok k' := by
  cases hstep with
  | threadCreate => cases htick
  | kernel hstep =>
    cases hstep with
    | timer hcall => exact hcall
    | messageTo => cases htick
    | wakeUp => cases htick
    | sleep => cases htick
    | sleepOn => cases htick
    | taskBlock => cases htick
    | taskExit => cases htick

/-- **Whatever else happens, `t` sleeps on.** -/
theorem Asleep.step (h : Asleep t left k) {e : SleepEvent} (hstep : SleepStep k e k')
    (htick : e.isTick = false) (hcalm : Undisturbed t ⟨k, e, k'⟩) : Asleep t left k' := by
  cases hstep with
  | @threadCreate _ u priority ppid hfresh =>
    have hne : t ≠ u := by
      rintro rfl
      exact hfresh h.mem
    have hset := h.setTask hne ((threadCreate u priority ppid k).task u)
    have hcreated : Asleep t left (DiyOS.threadCreate u priority ppid k) := by
      refine Asleep.of_eq hset rfl rfl ?_
      unfold DiyOS.threadCreate
      simp
    exact hcreated.taskAdd hfresh
  | @kernel s s' e hstep =>
    cases hstep with
    | messageTo hcall =>
      rcases messageTo_cases hcall with ⟨_, rfl⟩ | ⟨u, hu, _, rfl⟩
      · exact h
      · have hne : t ≠ u := by
          rintro rfl
          exact hcalm hu
        exact (h.setTask hne _).of_eq rfl rfl rfl
    | wakeUp q =>
      show Asleep t left (DiyOS.wakeUp q s.kernel)
      rcases wakeUp_cases q s.kernel with ⟨_, heq⟩ | ⟨u, hu, _, heq⟩
      · rw [heq]
        exact h.of_eq rfl rfl rfl
      · have hne : t ≠ u := by
          rintro rfl
          exact hcalm hu
        rw [heq]
        exact (h.setTask hne _).of_eq rfl rfl rfl
    | timer => cases htick
    | sleep hcall => exact (h.setTask h.running.symm _).schedule (sleep_cases hcall)
    | sleepOn _ hcall =>
      refine Asleep.schedule ?_ hcall
      rw [sleepOnBody_eq]
      exact (h.setTask h.running.symm _).of_eq rfl rfl rfl
    | taskBlock _ hcall => exact (h.setTask h.running.symm _).schedule hcall
    | @taskExit _ left' code _ hcall =>
      rcases taskExit_cases hcall with ⟨k₁, hbody, hschedule⟩
      rw [taskExitBody_eq hbody, taskIterate_visited] at hschedule
      -- the exiting task is not `t`, and none of those it wakes is
      have hexit := h.setTask h.running.symm
        { s.kernel.task s.kernel.runningTask with exitCode := code, status := .dead }
      refine Asleep.schedule ?_ hschedule
      refine hexit.of_eq (foldl_wake_rest _ _).1 (foldl_wake_rest _ _).2 (foldl_wake_task ?_)
      exact fun hmem hwaits => hcalm hmem ((waitsForRunning_exit code t).mp hwaits)

/-! ## Ticks -/

theorem timerBody_runningTask (hcall : timerBody k = .ok k') : k'.runningTask = k.runningTask := by
  rw [timerBody_eq hcall]
  apply @List.foldlRecOn _ _ (fun k' : Kernel => k'.runningTask = k.runningTask) k.tasks _ k rfl
  intro k₁ hk₁ u _
  rw [updateTimeout_eq]
  exact hk₁

/-- **A tick** takes ten milliseconds, if the difference is not 0. -/
theorem Asleep.tick (h : Asleep t left k) (hcall : timerHandler k = .ok k') (hpos : 0 < left)
    (hleft : sub32 left 10 ≠ 0) : Asleep t (sub32 left 10) k' := by
  rcases timerHandler_cases hcall with ⟨k₁, hbody, hschedule⟩
  rcases timerBody_cases h.nodup hbody with ⟨htasks, htask⟩
  have hrecord : k₁.task t = { k.task t with timeout := sub32 left 10 } := by
    rw [htask, if_pos h.mem, expired, h.timeout, if_pos hpos, if_neg (by omega)]
  have hrunning : k₁.runningTask = k.runningTask := timerBody_runningTask hbody
  refine Asleep.schedule ⟨?_, ?_, ?_, ?_, ?_⟩ hschedule
  · rw [htasks]
    exact h.mem
  · rw [htasks]
    exact h.nodup
  · rw [hrunning]
    exact h.running
  · rw [hrecord]
    exact h.status
  · rw [hrecord]

/-- The tick that brings the timeout to 0 wakes the task. -/
theorem Asleep.wakes (h : Asleep t left k) (hcall : timerHandler k = .ok k') (hleft : left = 10) :
    k'.Ready t ∧ (k'.task t).timeout = 0 := by
  rcases timerHandler_cases hcall with ⟨k₁, hbody, hschedule⟩
  rcases schedule_cases hschedule with ⟨u, _, rfl⟩
  show (k₁.task t).status = .ready ∧ (k₁.task t).timeout = 0
  have hrecord : k₁.task t = { k.task t with status := .ready, timeout := 0 } := by
    have hzero : sub32 left 10 ≤ 0 := by
      rw [hleft]
      decide
    rw [(timerBody_cases h.nodup hbody).2, if_pos h.mem, expired, h.timeout, if_pos (by omega),
      if_pos hzero]
  rw [hrecord]
  exact ⟨rfl, rfl⟩

/-- `schedule` finds a task. -/
def Schedulable (k : Kernel) : Prop := ∃ u ∈ k.tasks, k.Ready u ∧ -127 ≤ k.priority u

theorem Schedulable.schedule (h : Schedulable k) : ∃ k', schedule k = .ok k' := by
  rcases h with ⟨u, hu, hready, hfloor⟩
  rcases scheduleTask_firstMax hu hready hfloor with ⟨v, hv, _⟩
  unfold DiyOS.schedule
  rw [hv]
  exact ⟨_, rfl⟩

theorem schedulable_of_schedule (hcall : schedule k = .ok k') : Schedulable k' := by
  rcases schedule_cases hcall with ⟨u, hchoice, rfl⟩
  exact ⟨u, scheduleTask_cases hchoice⟩

theorem expired_ready_of_ready {r : Task} (h : r.status = .ready) : (expired r).status = .ready := by
  by_cases hten : u32 r.timeout = 10
  · exact expired_ready hten
  · rw [expired_status hten, h]

theorem expired_priority (r : Task) : (expired r).priority = r.priority := by
  unfold expired
  split
  · split <;> rfl
  · rfl

/-- There is always a next tick. -/
theorem Schedulable.timerHandler (h : Schedulable k) (hnodup : k.tasks.Nodup) :
    ∃ k', timerHandler k = .ok k' := by
  rcases h with ⟨u, hu, hready, hfloor⟩
  have hne : k.tasks ≠ [] := List.ne_nil_of_mem hu
  obtain ⟨k₁, hbody⟩ : ∃ k₁, timerBody k = .ok k₁ := by
    unfold timerBody taskForeach
    rw [if_neg hne]
    exact ⟨_, rfl⟩
  rcases timerBody_cases hnodup hbody with ⟨htasks, htask⟩
  have hsched : Schedulable k₁ := by
    refine ⟨u, ?_, ?_, ?_⟩
    · rw [htasks]
      exact hu
    · rw [Kernel.Ready, htask, if_pos hu]
      exact expired_ready_of_ready hready
    · rw [Kernel.priority, htask, if_pos hu, expired_priority]
      exact hfloor
  rcases hsched.schedule with ⟨k', hschedule⟩
  refine ⟨k', ?_⟩
  unfold DiyOS.timerHandler
  rw [hbody]
  exact hschedule

/-! ## Runs -/

theorem ticks_snoc (tr : List (Transition Kernel SleepEvent)) (τ : Transition Kernel SleepEvent) :
    ticks (tr ++ [τ]) = ticks tr + if τ.event.isTick then 1 else 0 := by
  unfold ticks
  rw [List.countP_append, List.countP_singleton]

/-- The running task is asleep once it has called `sleep`. -/
theorem sleep_asleep {ms : Nat} (hmem : k.runningTask ∈ k.tasks) (hnodup : k.tasks.Nodup)
    (hcall : sleep ms k = .ok k') : Asleep k.runningTask ms k' ∧ Schedulable k' := by
  have hschedule := sleep_cases hcall
  have htask : (sleepBody ms k).task k.runningTask
      = { k.task k.runningTask with timeout := ms, status := .blocked } := Kernel.setTask_task_self _ _ _
  refine ⟨?_, schedulable_of_schedule hschedule⟩
  rcases schedule_cases hschedule with ⟨u, hchoice, rfl⟩
  have hready := scheduleTask_ready hchoice
  refine ⟨hmem, hnodup, ?_, ?_, ?_⟩
  · -- it is not the one that `schedule` chooses
    show u ≠ k.runningTask
    rintro rfl
    rw [Kernel.Ready, htask] at hready
    cases hready
  · exact congrArg Task.status htask
  · exact congrArg Task.timeout htask

/-- Before the tick that wakes it, a task that sleeps for a multiple of ten milliseconds has `ms` less
ten for each tick left. -/
theorem Asleep.run {ms : Nat} (h : Asleep t ms k) (hms : ms < 4294967296) (hten : ms % 10 = 0)
    {tr : List (Transition Kernel SleepEvent)} (hrun : Run SleepStep k tr k')
    (hcalm : ∀ τ ∈ tr, Undisturbed t τ) (hticks : ticks tr < ms / 10) :
    Asleep t (ms - 10 * ticks tr) k' := by
  induction hrun with
  | nil => exact h
  | @snoc tr s s' e hrun hstep ih =>
    rw [ticks_snoc] at hticks ⊢
    have hbefore := ih (fun τ hτ => hcalm τ (List.mem_append_left _ hτ)) (by omega)
    have hlast := hcalm ⟨s, e, s'⟩ (by simp)
    cases htick : e.isTick with
    | false => simpa [htick] using hbefore.step hstep htick hlast
    | true =>
      simp only [htick, if_true] at hticks ⊢
      have hleft : sub32 (ms - 10 * ticks tr) 10 = ms - 10 * (ticks tr + 1) := by
        rw [sub32_of_le (by omega) (by omega)]
        omega
      rw [← hleft]
      exact hbefore.tick (SleepStep.timerHandler hstep htick) (by omega) (by omega)

/-- The timeout that is left after `n` ticks wraps; it is not 0 if `ms` is no multiple of ten. -/
theorem Asleep.exists_run {ms : Nat} (h : Asleep t ms k) (hsched : Schedulable k) (hms : ms < 4294967296)
    (hten : ms % 10 ≠ 0) {n : Nat} (hn : n ≤ (ms + 9) / 10) :
    ∃ tr k', Run SleepStep k tr k' ∧ (∀ τ ∈ tr, τ.event.isTick ∧ Undisturbed t τ) ∧ ticks tr = n
      ∧ Asleep t (u32 (ms + 4294967296 - 10 * n)) k' ∧ Schedulable k' := by
  induction n with
  | zero =>
    refine ⟨[], k, .nil, List.forall_mem_nil _, rfl, ?_, hsched⟩
    have hall : u32 (ms + 4294967296 - 10 * 0) = ms := by
      unfold u32
      omega
    rw [hall]
    exact h
  | succ n ih =>
    rcases ih (by omega) with ⟨tr, k₁, hrun, hall, hticks, hleft, hsched₁⟩
    rcases hsched₁.timerHandler hleft.nodup with ⟨k₂, hcall⟩
    have hstep : SleepStep k₁ (.kernel .timer) k₂ :=
      @SleepStep.kernel ⟨k₁, []⟩ ⟨k₂, []⟩ _ (KernelStep.timer hcall)
    have hsub : sub32 (u32 (ms + 4294967296 - 10 * n)) 10 = u32 (ms + 4294967296 - 10 * (n + 1)) := by
      unfold sub32 u32
      omega
    -- no number of ticks makes the timeout 0: below 0 it wraps
    have hne : ∀ i ≤ n + 1, u32 (ms + 4294967296 - 10 * i) ≠ 0 := by
      intro i hi
      unfold u32
      rcases Nat.lt_or_ge ms (10 * i) with hlt | hge
      · rw [Nat.mod_eq_of_lt (by omega)]
        omega
      · have hwrap : ms + 4294967296 - 10 * i = ms - 10 * i + 4294967296 := by omega
        rw [hwrap, Nat.add_mod_right, Nat.mod_eq_of_lt (by omega)]
        omega
    refine ⟨_, k₂, hrun.snoc hstep, ?_, ?_, ?_, ?_⟩
    · rw [List.forall_mem_append, List.forall_mem_singleton]
      exact ⟨hall, rfl, trivial⟩
    · rw [ticks_snoc, hticks]
      rfl
    · have hnext := hleft.tick hcall (Nat.pos_of_ne_zero (hne n (Nat.le_succ n)))
      rw [hsub] at hnext
      exact hnext (hne (n + 1) (Nat.le_refl _))
    · rcases timerHandler_cases hcall with ⟨_, _, hschedule⟩
      exact schedulable_of_schedule hschedule

/-- **How long a task sleeps.** The running task calls `sleep(ms)`, for any 32-bit `ms` in any kernel
that lists the task once. In every run after it in which only the timer may wake the task, it is blocked
up to the tick number `⌈ms / 10⌉` and then ready with timeout 0, if and only if `ms` is a positive
multiple of ten. -/
theorem sleep_duration_iff {ms : Nat} (hms : ms < 4294967296) (hmem : k.runningTask ∈ k.tasks)
    (hnodup : k.tasks.Nodup) (hcall : sleep ms k = .ok k') :
    (∀ tr k'', Run SleepStep k' tr k'' → (∀ τ ∈ tr, Undisturbed k.runningTask τ) →
        SleepsFor k.runningTask ms tr k'')
      ↔ 0 < ms ∧ ms % 10 = 0 := by
  rcases sleep_asleep hmem hnodup hcall with ⟨hasleep, hsched⟩
  constructor
  · intro hall
    have hpos : 0 < ms := by
      -- `sleep(0)` blocks the task
      by_contra hzero
      have hnow := ((hall [] k' .nil (List.forall_mem_nil _)).2 (by simp [ticks]; omega) (by simp)).1
      rw [Kernel.Ready, hasleep.status] at hnow
      cases hnow
    refine ⟨hpos, ?_⟩
    by_contra hten
    rcases hasleep.exists_run hsched hms hten (Nat.le_refl _) with
      ⟨tr, k'', hrun, hevents, hticks, hstill, _⟩
    have hready := ((hall tr k'' hrun fun τ hτ => (hevents τ hτ).2).2 hticks
      fun τ hτ => (hevents τ (List.mem_of_mem_getLast? hτ)).1).1
    rw [Kernel.Ready, hstill.status] at hready
    cases hready
  · rintro ⟨hpos, hten⟩ tr k'' hrun hcalm
    have hceil : (ms + 9) / 10 = ms / 10 := by omega
    unfold SleepsFor
    rw [hceil]
    refine ⟨fun hticks => (hasleep.run hms hten hrun hcalm hticks).status, ?_⟩
    intro hticks hlast
    -- the last event of the run is the tick that wakes the task
    cases hrun with
    | nil =>
      have hnone : ticks [] = 0 := rfl
      omega
    | @snoc tr s s' e hrun hstep =>
      have htick : e.isTick = true := hlast ⟨s, e, k''⟩ (by simp)
      rw [ticks_snoc, htick, if_pos rfl] at hticks
      have hbefore := hasleep.run hms hten hrun
        (fun τ hτ => hcalm τ (List.mem_append_left _ hτ)) (by omega)
      exact hbefore.wakes (hstep.timerHandler htick) (by omega)

end

/-! ## Two tasks -/

/-- Task 2 has called `sleep(ms)`; the idle task runs. -/
def twoTasksSleep (ms : Nat) : Kernel := switchTo 1 (sleepBody ms twoTasks)

/-- `sleep(10)`: the next tick, whatever it is, wakes the task. -/
theorem sleep_duration_ten :
    ∃ k, timerHandler (twoTasksSleep 10) = .ok k ∧ k.Ready 2 ∧ (k.task 2).timeout = 0 := by
  have hcall : sleep 10 twoTasks = .ok (twoTasksSleep 10) := rfl
  have hall := (sleep_duration_iff (by decide) (by decide) (by decide) hcall).mpr (by decide)
  have hstep := @SleepStep.kernel ⟨twoTasksSleep 10, []⟩ _ _ (KernelStep.timer rfl)
  have hwoken := (hall _ _ (Run.nil.snoc hstep) (by simp [Undisturbed])).2 rfl (by simp [SleepEvent.isTick])
  exact ⟨_, rfl, hwoken⟩

/-- `sleep(15)`, and two ticks: the timeout has wrapped, and the task is still blocked. -/
theorem sleep_past_fifteen :
    ∃ k k₁ k₂, sleep 15 twoTasks = .ok k ∧ timerHandler k = .ok k₁ ∧ timerHandler k₁ = .ok k₂
      ∧ (k₂.task 2).status = .blocked ∧ (k₂.task 2).timeout = 4294967291 :=
  ⟨_, _, _, rfl, rfl, rfl, by decide, by decide⟩

end DiyOS
