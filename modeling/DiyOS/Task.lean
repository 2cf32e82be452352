import DiyOS.Queue
import DiyOS.LinkedList

/-!
# Tasks (`kernel/task.c`, `kernel/thread.c`, `kernel/schedule.c`, `kernel/message.c`, `drivers/timer.c`)

The kernel's tasks: their records, the list of them, the task that runs, the queues that tasks wait
on, and the messages. Every function here is one atomic step; the functions that end in a call of
`schedule` come in two parts, the state in which they call it (`…Body`) and the whole.

`switch_to` returns in another task. What a function does after `schedule` returns (`sleep_on` copies
the remaining timeout into a variable of its caller) changes no task and is left out.
-/

namespace DiyOS

open Word

abbrev TaskPtr := Nat

inductive TaskStatus where
  | ready
  | blocked
  | dead
  deriving DecidableEq

/-- `task_t`, the fields that scheduling and messages use. -/
structure Task where
  status : TaskStatus
  priority : Int
  exitCode : Int
  timeout : Nat
  wait4pid : Bool
  pid : Nat
  ppid : Nat
  messageQueue : Queue

/-- `message_t`. -/
structure Message where
  fromPid : Nat
  toPid : Nat
  data : Nat
  size : Nat
  deriving DecidableEq

/-- The task records and messages in memory, and the globals that lead to them. -/
structure Kernel where
  task : TaskPtr → Task
  tasks : List TaskPtr
  runningTask : TaskPtr
  pidN : Nat
  /-- The queues that tasks sleep on, by address. -/
  waitQueue : Nat → Queue
  /-- `none` where `message_to` has not allocated a message. -/
  message : Nat → Option Message

namespace Kernel

/-- `k` with the record `t` at `p`. -/
def setTask (k : Kernel) (p : TaskPtr) (t : Task) : Kernel :=
  { k with task := Function.update k.task p t }

variable (k : Kernel) (p q : TaskPtr) (t : Task)

@[simp] theorem setTask_tasks : (k.setTask p t).tasks = k.tasks := rfl
@[simp] theorem setTask_runningTask : (k.setTask p t).runningTask = k.runningTask := rfl
@[simp] theorem setTask_waitQueue : (k.setTask p t).waitQueue = k.waitQueue := rfl
@[simp] theorem setTask_message : (k.setTask p t).message = k.message := rfl
@[simp] theorem setTask_task_self : (k.setTask p t).task p = t := Function.update_self _ _ _

theorem setTask_task_of_ne {p q : TaskPtr} (h : q ≠ p) : (k.setTask p t).task q = k.task q :=
  Function.update_of_ne h _ _

end Kernel

/-- The initial values of the globals: no task, and `pid_n` is 1000. The memory is zero. -/
def bootKernel : Kernel where
  task _ := ⟨.blocked, 0, 0, 0, false, 0, 0, ⟨fun _ => 0, 0, 0, 0, 0⟩⟩
  tasks := []
  runningTask := null
  pidN := 1000
  waitQueue _ := ⟨fun _ => 0, 0, 0, 0, 0⟩
  message _ := none

/-! ## `task_foreach`

The iterators of the C code get a task and a pointer to data that they may change. Most of them return false
always, or change nothing; there is a lemma for either kind. -/

/-- The loop of `task_foreach`: the task on which the iterator returned true, with what the iterator
made of its data. Off the end of the list there is no task, and the C function returns no value. -/
def taskIterate {σ : Type} (it : TaskPtr → σ → Bool × σ) : List TaskPtr → σ → Option TaskPtr × σ
  | [], s => (none, s)
  | p :: ps, s =>
    match it p s with
    | (true, s) => (some p, s)
    | (false, s) => taskIterate it ps s

def taskForeach {σ : Type} (tasks : List TaskPtr) (it : TaskPtr → σ → Bool × σ) (s : σ) :
    Except Halt (Option TaskPtr × σ) :=
  if tasks = [] then .error (.panic "tasks != NULL") else .ok (taskIterate it tasks s)

/-- An iterator that never returns true goes through the whole list. -/
theorem taskIterate_all {σ : Type} (f : TaskPtr → σ → σ) (ps : List TaskPtr) (s : σ) :
    taskIterate (fun p s => (false, f p s)) ps s = (none, ps.foldl (fun s p => f p s) s) := by
  induction ps generalizing s with
  | nil => rfl
  | cons p ps ih => exact ih (f p s)

/-- An iterator that leaves its data finds the first task that passes its test. -/
theorem taskIterate_find {σ : Type} (test : TaskPtr → σ → Bool) (ps : List TaskPtr) (s : σ) :
    taskIterate (fun p s => (test p s, s)) ps s = (ps.find? fun p => test p s, s) := by
  induction ps with
  | nil => rfl
  | cons p ps ih =>
    rw [taskIterate, List.find?_cons]
    cases test p s with
    | true => rfl
    | false => exact ih

/-- What every call of the iterator preserves, `task_foreach` preserves. -/
theorem taskIterate_invariant {σ : Type} {I : σ → Prop} {it : TaskPtr → σ → Bool × σ}
    (hit : ∀ p s, I s → I (it p s).2) (ps : List TaskPtr) {s : σ} (hs : I s) :
    I (taskIterate it ps s).2 := by
  induction ps generalizing s with
  | nil => exact hs
  | cons p ps ih =>
    have hnext := hit p s hs
    rw [taskIterate]
    split
    · next heq =>
      rw [heq] at hnext
      exact hnext
    · next heq =>
      rw [heq] at hnext
      exact ih hnext

/-- A call on a list with tasks is the loop. -/
theorem taskForeach_ok {σ : Type} {tasks : List TaskPtr} {it : TaskPtr → σ → Bool × σ} {s : σ}
    {r : Option TaskPtr × σ} (h : taskForeach tasks it s = .ok r) : r = taskIterate it tasks s := by
  unfold taskForeach at h
  split at h
  · cases h
  · exact (Except.ok.inj h).symm

/-! ## `schedule`

Two passes: the highest priority of a ready task, then the first ready task that has it. The idle task is always
ready, so that the second pass ends on a task; that it does is proved from the invariant of `Schedule`. -/

def findHigherPriority (k : Kernel) (t : TaskPtr) (udata : Int) : Bool × Int :=
  if (k.task t).status = .ready then
    if (k.task t).priority > udata then (false, (k.task t).priority) else (false, udata)
  else (false, udata)

def higherTask (k : Kernel) (t : TaskPtr) (udata : Int) : Bool × Int :=
  if (k.task t).status = .ready then
    if (k.task t).priority = udata then (true, udata) else (false, udata)
  else (false, udata)

/-- The task that `schedule` passes to `switch_to`. -/
def scheduleTask (k : Kernel) : Except Halt TaskPtr :=
  match taskForeach k.tasks (findHigherPriority k) (-127) with
  | .error e => .error e
  | .ok (_, p) =>
    match taskForeach k.tasks (higherTask k) p with
    | .error e => .error e
    | .ok (none, _) => .error .undefined
    | .ok (some t, _) => .ok t

/-- `switch_to`: the running task is the one it is given. -/
def switchTo (t : TaskPtr) (k : Kernel) : Kernel := { k with runningTask := t }

def schedule (k : Kernel) : Except Halt Kernel :=
  match scheduleTask k with
  | .error e => .error e
  | .ok t => .ok (switchTo t k)

/-! ## Creating tasks

`malloc` gives the record of a task; what was in memory before stays in the fields that `thread_create` does not
set, `timeout` and `exit_code` among them. -/

/-- `thread_create`, in the memory `t` that `malloc` gave; the fields it does not set keep what
was there. -/
def threadCreate (t : TaskPtr) (priority : Int) (ppid : Nat) (k : Kernel) : Kernel :=
  { k.setTask t
      { k.task t with
        wait4pid := false
        ppid := ppid
        pid := u32 (k.pidN + 1)
        status := .ready
        priority := priority
        messageQueue := queueInit (k.task t).messageQueue.data 32 } with
    pidN := u32 (k.pidN + 1) }

def taskAdd (t : TaskPtr) (k : Kernel) : Kernel := { k with tasks := listAdd k.tasks t }

/-- `tasking`: the idle task, in the memory `idle`. -/
def tasking (idle : TaskPtr) (k : Kernel) : Kernel := taskAdd idle (threadCreate idle (-1) 100 k)

/-! ## Blocking and waking

A task sleeps in a queue, with a timeout or without one, and is woken by `wake_up` or by the timer. The queue and
the timeout know nothing of each other: a task that the timer has woken is still queued. -/

def taskBlockBody (k : Kernel) : Kernel :=
  k.setTask k.runningTask { k.task k.runningTask with status := .blocked }

def taskBlock (k : Kernel) : Except Halt Kernel := schedule (taskBlockBody k)

def sleepBody (ms : Nat) (k : Kernel) : Kernel :=
  k.setTask k.runningTask { k.task k.runningTask with timeout := ms, status := .blocked }

def sleep (ms : Nat) (k : Kernel) : Except Halt Kernel :=
  if k.runningTask = null then .error (.panic "t != NULL") else schedule (sleepBody ms k)

/-- `sleep_on`, that is `sleep_on_without_lock` without a lock; `none` is a null `timeout`. -/
def sleepOnBody (q : Nat) (timeout : Option Nat) (k : Kernel) : Kernel :=
  let t := k.runningTask
  let k := k.setTask t { k.task t with status := .blocked }
  let k := { k with waitQueue := Function.update k.waitQueue q (queueAdd (k.waitQueue q) t) }
  k.setTask t { k.task t with timeout := timeout.getD 0 }

def sleepOn (q : Nat) (timeout : Option Nat) (k : Kernel) : Except Halt Kernel :=
  schedule (sleepOnBody q timeout k)

def wakeUp (q : Nat) (k : Kernel) : Kernel :=
  let t := (queueRemove (k.waitQueue q)).1
  let k := { k with waitQueue := Function.update k.waitQueue q (queueRemove (k.waitQueue q)).2 }
  if t = null then k else k.setTask t { k.task t with status := .ready }

/-! ## The timer

At each tick, every task with a timeout is brought ten milliseconds closer to its end. -/

def updateTimeout (data : Nat) (t : TaskPtr) (k : Kernel) : Kernel :=
  if (k.task t).timeout > 0 then
    -- `timeout` is unsigned: the difference wraps, and is never below 0
    let timeout := sub32 (k.task t).timeout data
    if timeout ≤ 0 then k.setTask t { k.task t with status := .ready, timeout := 0 }
    else k.setTask t { k.task t with timeout := timeout }
  else k

/-- `timer_handler`'s pass over the tasks, at 100 ticks a second. -/
def timerBody (k : Kernel) : Except Halt Kernel :=
  match taskForeach k.tasks (fun t k => (false, updateTimeout (1000 / 100) t k)) k with
  | .error e => .error e
  | .ok (_, k) => .ok k

def timerHandler (k : Kernel) : Except Halt Kernel :=
  match timerBody k with
  | .error e => .error e
  | .ok k => schedule k

/-! ## The end of a task

The record of a dead task stays in the list. Its parent is woken if it waits. -/

def taskWakeAfterDead (t : TaskPtr) (k : Kernel) : Kernel :=
  if (k.task k.runningTask).status ≠ .dead then k
  else if (k.task t).pid = (k.task k.runningTask).ppid then
    if (k.task t).wait4pid then k.setTask t { k.task t with wait4pid := false, status := .ready }
    else k
  else k

/-- `task_exit` up to its call of `schedule`. `task_wake_after_dead` is passed to `task_foreach` as
an iterator but returns no value; `left t` is what the call for `t` left in the register that
`task_foreach` reads. -/
def taskExitBody (left : TaskPtr → Bool) (code : Int) (k : Kernel) : Except Halt Kernel :=
  let k := k.setTask k.runningTask
    { k.task k.runningTask with exitCode := code, status := .dead }
  match taskForeach k.tasks (fun t k => (left t, taskWakeAfterDead t k)) k with
  | .error e => .error e
  | .ok (_, k) => .ok k

def taskExit (left : TaskPtr → Bool) (code : Int) (k : Kernel) : Except Halt Kernel :=
  match taskExitBody left code k with
  | .error e => .error e
  | .ok k => schedule k

/-! ## Messages

Every task has a queue of pointers to messages, which `queue_add` refuses when it holds 32. -/

/-- `_task_get_pid`: false on the task with the pid, where `list_foreach` stops. -/
def taskGetPid (k : Kernel) (pid : Nat) (t : TaskPtr) : Bool :=
  if (k.task t).pid = pid then false else true

def taskFromPid (pid : Nat) (k : Kernel) : Option TaskPtr := listForeach k.tasks (taskGetPid k pid)

def pid (k : Kernel) : Except Halt Nat :=
  if k.runningTask = null then .error (.panic "running_task != NULL")
  else .ok (k.task k.runningTask).pid

/-- `message_to`; `msg` is the memory that `malloc` gives it. -/
def messageTo (msg toPid data size : Nat) (k : Kernel) : Except Halt Kernel :=
  match taskFromPid toPid k with
  | none => .ok k
  | some t =>
    match pid k with
    | .error e => .error e
    | .ok fromPid =>
      let k := { k with message := Function.update k.message msg (some ⟨fromPid, toPid, data, size⟩) }
      let k := k.setTask t
        { k.task t with messageQueue := queueAdd (k.task t).messageQueue msg }
      .ok (k.setTask t { k.task t with status := .ready })

/-- `message`: the message it returns, and the kernel it leaves. -/
def message (k : Kernel) : Nat × Kernel :=
  let t := k.runningTask
  if t = null then (null, k)
  else
    ((queueRemove (k.task t).messageQueue).1,
      k.setTask t { k.task t with messageQueue := (queueRemove (k.task t).messageQueue).2 })

/-! ## What one call does

The functions above assign fields one after the other; each lemma here gives the outcome at once. -/

variable {k k' : Kernel}

/-- A call that returns has switched to the task it has chosen. -/
theorem schedule_cases (h : schedule k = .ok k') :
    ∃ t, scheduleTask k = .ok t ∧ k' = switchTo t k := by
  unfold schedule at h
  split at h
  · cases h
  · next t ht => exact ⟨t, ht, (Except.ok.inj h).symm⟩

/-- The running task is blocked and queued, with its timeout. -/
theorem sleepOnBody_eq (q : Nat) (timeout : Option Nat) (k : Kernel) :
    sleepOnBody q timeout k = { k.setTask k.runningTask
        { k.task k.runningTask with status := .blocked, timeout := timeout.getD 0 } with
      waitQueue := Function.update k.waitQueue q (queueAdd (k.waitQueue q) k.runningTask) } := by
  unfold sleepOnBody Kernel.setTask
  simp only [Function.update_self, Function.update_idem]

/-- The oldest task in the queue is ready; from an empty queue nothing is woken. -/
theorem wakeUp_cases (q : Nat) (k : Kernel) :
    (queueRemove (k.waitQueue q)).1 = null
        ∧ wakeUp q k = { k with
          waitQueue := Function.update k.waitQueue q (queueRemove (k.waitQueue q)).2 }
      ∨ ∃ t, (queueRemove (k.waitQueue q)).1 = t ∧ t ≠ null
        ∧ wakeUp q k = { k.setTask t { k.task t with status := .ready } with
          waitQueue := Function.update k.waitQueue q (queueRemove (k.waitQueue q)).2 } := by
  unfold wakeUp
  by_cases hnull : (queueRemove (k.waitQueue q)).1 = null
  · exact Or.inl ⟨hnull, if_pos hnull⟩
  · exact Or.inr ⟨_, rfl, hnull, if_neg hnull⟩

/-- A message to a pid that no listed task has changes nothing; one to a task is queued, if there is
room, and leaves the task ready. -/
theorem messageTo_cases {msg toPid data size : Nat} (h : messageTo msg toPid data size k = .ok k') :
    taskFromPid toPid k = none ∧ k' = k
      ∨ ∃ t, taskFromPid toPid k = some t ∧ k.runningTask ≠ null
        ∧ k' = { k.setTask t { k.task t with
              status := .ready, messageQueue := queueAdd (k.task t).messageQueue msg } with
            message := Function.update k.message msg
              (some ⟨(k.task k.runningTask).pid, toPid, data, size⟩) } := by
  unfold messageTo at h
  split at h
  · next hnone => exact Or.inl ⟨hnone, (Except.ok.inj h).symm⟩
  · next t ht =>
    refine Or.inr ⟨t, ht, ?_⟩
    by_cases hnull : k.runningTask = null
    · rw [pid, if_pos hnull] at h
      cases h
    · rw [pid, if_neg hnull] at h
      have hk := (Except.ok.inj h).symm
      -- two assignments to the same record are one
      refine ⟨hnull, hk.trans ?_⟩
      unfold Kernel.setTask
      simp only [Function.update_self, Function.update_idem]

/-- The running task takes the oldest message in its queue. -/
theorem message_eq (h : k.runningTask ≠ null) :
    message k = ((queueRemove (k.task k.runningTask).messageQueue).1,
      k.setTask k.runningTask { k.task k.runningTask with
        messageQueue := (queueRemove (k.task k.runningTask).messageQueue).2 }) := if_neg h

/-- The timer's pass is one `update_timeout` for each task in the list. -/
theorem timerBody_eq (h : timerBody k = .ok k') :
    k' = k.tasks.foldl (fun k t => updateTimeout (1000 / 100) t k) k := by
  unfold timerBody at h
  split at h
  · cases h
  · next hpass =>
    have hall := taskIterate_all (updateTimeout (1000 / 100)) k.tasks k
    rw [← taskForeach_ok hpass] at hall
    rw [← Except.ok.inj h]
    exact congrArg Prod.snd hall

/-- The task is dead before the others are looked at. -/
theorem taskExitBody_eq {left : TaskPtr → Bool} {code : Int} (h : taskExitBody left code k = .ok k') :
    k' = (taskIterate (fun t k => (left t, taskWakeAfterDead t k)) k.tasks
      (k.setTask k.runningTask
        { k.task k.runningTask with exitCode := code, status := .dead })).2 := by
  unfold taskExitBody at h
  simp only at h
  split at h
  · cases h
  · next hpass =>
    rw [← Except.ok.inj h]
    exact congrArg Prod.snd (taskForeach_ok hpass)

/-- The handler of the timer, up to its call of `schedule`, and the call. -/
theorem timerHandler_cases (h : timerHandler k = .ok k') :
    ∃ k₁, timerBody k = .ok k₁ ∧ schedule k₁ = .ok k' := by
  unfold timerHandler at h
  split at h
  · cases h
  · next k₁ hbody => exact ⟨k₁, hbody, h⟩

theorem taskExit_cases {left : TaskPtr → Bool} {code : Int} (h : taskExit left code k = .ok k') :
    ∃ k₁, taskExitBody left code k = .ok k₁ ∧ schedule k₁ = .ok k' := by
  unfold taskExit at h
  split at h
  · cases h
  · next k₁ hbody => exact ⟨k₁, hbody, h⟩

/-- `sleep` returns if there is a running task and `schedule` returns. -/
theorem sleep_cases {ms : Nat} (h : sleep ms k = .ok k') : schedule (sleepBody ms k) = .ok k' := by
  unfold sleep at h
  split at h
  · cases h
  · exact h

end DiyOS
