import DiyOS.Dead
import Mathlib.Data.List.Nodup

/-!
# Wait queues (`kernel/thread.c`)

`sleep_on` blocks the running task and adds it to a wait queue; `wake_up` removes the oldest entry and
marks it ready. A message and the timer mark a sleeping task ready too, and leave its entry; and a full
wait queue does not take the entry at all.

* **`WaitInv`** — the invariant while no message and no tick wakes a task that stands in a queue: the
  entries are sleeping tasks, each in the one queue it sleeps on.
* **`Recorded`** — moreover every sleeping task has its entry, while no queue overflows.
* **`waitQueues_sleepers_iff`** — over any run, the queues hold sleepers exactly as long as the first
  condition is met; and with the second one a wake-up wakes exactly one of them.
-/

namespace DiyOS

open Word

/-! ## Events

`sleepsOn` is the history: the queue that each task fell asleep on, if it has not been ready since. The kernel
does not keep it; the invariant compares it with the queues. -/

/-- The kernel, and the queue that each task sleeps on: from its call of `sleep_on` until it is ready
again. -/
structure Sleepers where
  kernel : Kernel
  sleepsOn : TaskPtr → Option Nat

inductive WaitEvent where
  | sleepOn (q : Nat) (timeout : Option Nat)
  | wakeUp (q : Nat)
  | messageTo (msg toPid data size : Nat)
  | timer

/-- A task that is ready does not sleep. -/
def stillAsleep (k : Kernel) (sleepsOn : TaskPtr → Option Nat) (t : TaskPtr) : Option Nat :=
  if (k.task t).status = .ready then none else sleepsOn t

/-- One event, with the call of `schedule` it ends in. -/
inductive WaitStep : Sleepers → WaitEvent → Sleepers → Prop where
  | sleepOn {s : Sleepers} {k : Kernel} {q : Nat} {timeout : Option Nat}
      (hrunning : s.kernel.runningTask ≠ null) (hcall : sleepOn q timeout s.kernel = .ok k) :
      WaitStep s (.sleepOn q timeout)
        ⟨k, stillAsleep k (Function.update s.sleepsOn s.kernel.runningTask (some q))⟩
  | wakeUp {s : Sleepers} (q : Nat) :
      WaitStep s (.wakeUp q) ⟨wakeUp q s.kernel, stillAsleep (wakeUp q s.kernel) s.sleepsOn⟩
  | messageTo {s : Sleepers} {k : Kernel} {msg toPid data size : Nat}
      (hcall : messageTo msg toPid data size s.kernel = .ok k) :
      WaitStep s (.messageTo msg toPid data size) ⟨k, stillAsleep k s.sleepsOn⟩
  | timer {s : Sleepers} {k : Kernel} (hcall : timerHandler s.kernel = .ok k) :
      WaitStep s .timer ⟨k, stillAsleep k s.sleepsOn⟩

/-- `t` stands in a wait queue. -/
def Kernel.InWaitQueue (k : Kernel) (t : TaskPtr) : Prop := ∃ q, t ∈ (k.waitQueue q).items

/-- Every entry of a wait queue is a blocked task that sleeps on that queue, and no task occurs twice
in it. -/
structure QueuesOfSleepers (s : Sleepers) : Prop where
  sleeping : ∀ q, ∀ t ∈ (s.kernel.waitQueue q).items,
    (s.kernel.task t).status = .blocked ∧ s.sleepsOn t = some q
  nodup : ∀ q, (s.kernel.waitQueue q).items.Nodup

/-- The event is no message to a task in a wait queue, and no tick that takes the timeout of such a
task from 10 to 0. -/
def SparesQueued (τ : Transition Sleepers WaitEvent) : Prop :=
  let k := τ.pre.kernel
  match τ.event with
  | .sleepOn _ _ | .wakeUp _ => True
  | .messageTo _ toPid _ _ => ∀ t, taskFromPid toPid k = some t → ¬ k.InWaitQueue t
  | .timer => ∀ t ∈ k.tasks, u32 (k.task t).timeout = 10 → ¬ k.InWaitQueue t

/-- The event is no `sleep_on` a full wait queue. -/
def HasRoom (τ : Transition Sleepers WaitEvent) : Prop :=
  match τ.event with
  | .sleepOn q _ => queueSize (τ.pre.kernel.waitQueue q) < (τ.pre.kernel.waitQueue q).size
  | .wakeUp _ | .messageTo _ _ _ _ | .timer => True

/-- Exactly one of the tasks that sleep on `q` is marked ready, and no other task changes. -/
def WakesOne (q : Nat) (τ : Transition Sleepers WaitEvent) : Prop :=
  ∃ t, τ.pre.sleepsOn t = some q ∧ (τ.pre.kernel.task t).status = .blocked
    ∧ (τ.post.kernel.task t).status = .ready
    ∧ ∀ u, u ≠ t → τ.post.kernel.task u = τ.pre.kernel.task u

/-! ## The invariant

`held q` are the entries of the queue `q`. Each is a task that sleeps on `q`, and stands there once. -/

/-- The queues hold the tasks `held`, which sleep on them; and the running task does not sleep. -/
structure WaitInv (held : Nat → List TaskPtr) (s : Sleepers) : Prop where
  holds : ∀ q, (s.kernel.waitQueue q).Holds (held q)
  sleeping : ∀ q, ∀ t ∈ held q, s.sleepsOn t = some q
  nodup : ∀ q, (held q).Nodup
  ne_null : ∀ q, null ∉ held q
  blocked : ∀ t q, s.sleepsOn t = some q → (s.kernel.task t).status = .blocked
  running : s.sleepsOn s.kernel.runningTask = none
  tasks : s.kernel.tasks.Nodup

/-- Every sleeping task stands in its queue. -/
def Recorded (held : Nat → List TaskPtr) (s : Sleepers) : Prop :=
  ∀ t q, s.sleepsOn t = some q → t ∈ held q

section

variable {held : Nat → List TaskPtr} {s s' : Sleepers} {k k' : Kernel}

theorem WaitInv.mem_items (h : WaitInv held s) {q : Nat} {t : TaskPtr} :
    t ∈ (s.kernel.waitQueue q).items ↔ t ∈ held q := by
  rw [(h.holds q).items_eq]

theorem WaitInv.queuesOfSleepers (h : WaitInv held s) : QueuesOfSleepers s := by
  refine ⟨?_, ?_⟩
  · intro q t ht
    have hsleeps := h.sleeping q t (h.mem_items.mp ht)
    exact ⟨h.blocked t q hsleeps, hsleeps⟩
  · intro q
    rw [(h.holds q).items_eq]
    exact h.nodup q

theorem stillAsleep_some {sleepsOn : TaskPtr → Option Nat} {t : TaskPtr} {q : Nat} :
    stillAsleep k sleepsOn t = some q ↔ (k.task t).status ≠ .ready ∧ sleepsOn t = some q := by
  unfold stillAsleep
  split
  · next hready => simp [hready]
  · next hready => simp [hready]

theorem stillAsleep_ready {sleepsOn : TaskPtr → Option Nat} {t : TaskPtr}
    (h : (k.task t).status = .ready) : stillAsleep k sleepsOn t = none := if_pos h

/-- An event that leaves the queues, marks no entry ready, and otherwise only marks tasks ready. -/
theorem WaitInv.of_woken (h : WaitInv held s) (hqueue : k.waitQueue = s.kernel.waitQueue)
    (htasks : k.tasks = s.kernel.tasks)
    (hstatus : ∀ t, (k.task t).status = .ready ∨ (k.task t).status = (s.kernel.task t).status)
    (hkept : ∀ q, ∀ t ∈ held q, (k.task t).status = (s.kernel.task t).status)
    (hrunning : stillAsleep k s.sleepsOn k.runningTask = none) :
    WaitInv held ⟨k, stillAsleep k s.sleepsOn⟩ where
  holds q := by
    rw [hqueue]
    exact h.holds q
  sleeping q t ht := by
    refine stillAsleep_some.mpr ⟨?_, h.sleeping q t ht⟩
    -- an entry was blocked, and its status is as before
    rw [hkept q t ht, h.blocked t q (h.sleeping q t ht)]
    exact fun hready => by cases hready
  nodup := h.nodup
  ne_null := h.ne_null
  blocked t q ht := by
    rcases stillAsleep_some.mp ht with ⟨hnot, hsleeps⟩
    rw [(hstatus t).resolve_left hnot]
    exact h.blocked t q hsleeps
  running := hrunning
  tasks := by
    rw [htasks]
    exact h.tasks

/-! ## Messages and ticks

Both make a task ready without looking at the queues. The condition is that no task made ready has an entry; then
the entries are untouched. -/

theorem messageTo_status {msg toPid data size : Nat} (hcall : messageTo msg toPid data size k = .ok k')
    (t : TaskPtr) : (k'.task t).status = .ready ∨ (k'.task t).status = (k.task t).status := by
  rcases messageTo_cases hcall with ⟨_, rfl⟩ | ⟨u, _, _, rfl⟩
  · exact Or.inr rfl
  · by_cases heq : t = u
    · subst heq
      exact Or.inl (congrArg Task.status (Kernel.setTask_task_self k t _))
    · exact Or.inr (congrArg Task.status (Kernel.setTask_task_of_ne k _ heq))

/-- A message to a task that stands in no queue. -/
theorem WaitInv.messageTo (h : WaitInv held s) {msg toPid data size : Nat}
    (hcall : messageTo msg toPid data size s.kernel = .ok k)
    (hspare : ∀ t, taskFromPid toPid s.kernel = some t → ¬ s.kernel.InWaitQueue t) :
    WaitInv held ⟨k, stillAsleep k s.sleepsOn⟩ := by
  have hstatus := messageTo_status hcall
  have hsame : k.waitQueue = s.kernel.waitQueue ∧ k.tasks = s.kernel.tasks
      ∧ k.runningTask = s.kernel.runningTask := by
    rcases messageTo_cases hcall with ⟨_, rfl⟩ | ⟨u, _, _, rfl⟩
    · exact ⟨rfl, rfl, rfl⟩
    · exact ⟨rfl, rfl, rfl⟩
  refine h.of_woken hsame.1 hsame.2.1 hstatus ?_ ?_
  · intro q t ht
    rcases messageTo_cases hcall with ⟨_, rfl⟩ | ⟨u, hu, _, rfl⟩
    · rfl
    · -- the task that gets the message stands in no queue
      have hne : t ≠ u := fun heq => hspare u hu ⟨q, h.mem_items.mpr (heq ▸ ht)⟩
      exact congrArg Task.status (Kernel.setTask_task_of_ne s.kernel _ hne)
  · rw [hsame.2.2]
    unfold stillAsleep
    rw [h.running]
    exact ite_self none

theorem timerBody_waitQueue (hcall : timerBody k = .ok k') : k'.waitQueue = k.waitQueue := by
  rw [timerBody_eq hcall]
  refine @List.foldlRecOn _ _ (fun k' : Kernel => k'.waitQueue = k.waitQueue) k.tasks _ k rfl ?_
  intro k₁ hk₁ t _
  rw [updateTimeout_eq]
  exact hk₁

/-- A tick that makes no task ready which stands in one. -/
theorem WaitInv.timer (h : WaitInv held s) (hcall : timerHandler s.kernel = .ok k)
    (hspare : ∀ t ∈ s.kernel.tasks, u32 (s.kernel.task t).timeout = 10
      → ¬ s.kernel.InWaitQueue t) : WaitInv held ⟨k, stillAsleep k s.sleepsOn⟩ := by
  rcases timerHandler_cases hcall with ⟨k₁, hbody, hschedule⟩
  rcases schedule_cases hschedule with ⟨t, hchoice, rfl⟩
  rcases timerBody_cases h.tasks hbody with ⟨htasks, htask⟩
  -- a tick marks ready the tasks whose timeout was 10, and leaves the status of the others
  have hcases : ∀ u, (k₁.task u).status = .ready ∧ u32 (s.kernel.task u).timeout = 10 ∧ u ∈ s.kernel.tasks
      ∨ (k₁.task u).status = (s.kernel.task u).status := by
    intro u
    rw [htask u]
    by_cases hmem : u ∈ s.kernel.tasks
    · rw [if_pos hmem]
      by_cases hten : u32 (s.kernel.task u).timeout = 10
      · exact Or.inl ⟨expired_ready hten, hten, hmem⟩
      · exact Or.inr (expired_status hten)
    · rw [if_neg hmem]
      exact Or.inr rfl
  have hqueue : k₁.waitQueue = s.kernel.waitQueue := timerBody_waitQueue hbody
  refine h.of_woken hqueue htasks ?_ ?_ (stillAsleep_ready (scheduleTask_ready hchoice))
  · intro u
    rcases hcases u with ⟨hready, _⟩ | hsame
    · exact Or.inl hready
    · exact Or.inr hsame
  · intro q u hu
    rcases hcases u with ⟨_, hten, hmem⟩ | hsame
    · -- an entry is none of those that the tick marks ready
      exact absurd ⟨q, h.mem_items.mpr hu⟩ (hspare u hmem hten)
    · exact hsame

/-! ## Falling asleep

The running task is added behind the others, unless the queue is full: then nobody will find it there. -/

/-- The running task is in no queue before it falls asleep. -/
theorem WaitInv.running_not_mem (h : WaitInv held s) (q : Nat) : s.kernel.runningTask ∉ held q := by
  intro hmem
  have hsleeps := h.sleeping q _ hmem
  rw [h.running] at hsleeps
  cases hsleeps

/-- The lists of entries after `sleep_on` of the queue `q` of the given size. -/
def heldAfterSleep (held : Nat → List TaskPtr) (q size : Nat) (t : TaskPtr) : Nat → List TaskPtr :=
  Function.update held q (Fifo.push size (held q) t)

theorem mem_heldAfterSleep {q size q' : Nat} {t u : TaskPtr}
    (h : u ∈ heldAfterSleep held q size t q') : u ∈ held q' ∨ q' = q ∧ u = t := by
  unfold heldAfterSleep Fifo.push at h
  by_cases hq : q' = q
  · subst hq
    rw [Function.update_self] at h
    split at h
    · rcases List.mem_append.mp h with hin | hlast
      · exact Or.inl hin
      · exact Or.inr ⟨rfl, List.mem_singleton.mp hlast⟩
    · exact Or.inl h
  · rw [Function.update_of_ne hq] at h
    exact Or.inl h

/-- The running task falls asleep. -/
theorem WaitInv.sleepOn (h : WaitInv held s) {q : Nat} {timeout : Option Nat}
    (hrunning : s.kernel.runningTask ≠ null) (hcall : sleepOn q timeout s.kernel = .ok k) :
    WaitInv (heldAfterSleep held q (s.kernel.waitQueue q).size s.kernel.runningTask)
      ⟨k, stillAsleep k (Function.update s.sleepsOn s.kernel.runningTask (some q))⟩ := by
  rcases schedule_cases hcall with ⟨next, hchoice, rfl⟩
  rw [sleepOnBody_eq] at hchoice ⊢
  have hself : ∀ r : Task, ((s.kernel.setTask s.kernel.runningTask r).task s.kernel.runningTask) = r :=
    fun r => Kernel.setTask_task_self _ _ _
  refine ⟨?_, ?_, ?_, ?_, ?_, stillAsleep_ready (scheduleTask_ready hchoice), h.tasks⟩
  · intro q'
    by_cases hq : q' = q
    · subst hq
      show (Function.update s.kernel.waitQueue q' _ q').Holds _
      rw [Function.update_self, heldAfterSleep, Function.update_self]
      exact queueAdd_holds (h.holds q') _
    · show (Function.update s.kernel.waitQueue q _ q').Holds _
      rw [Function.update_of_ne hq, heldAfterSleep, Function.update_of_ne hq]
      exact h.holds q'
  · intro q' u hu
    refine stillAsleep_some.mpr ?_
    rcases mem_heldAfterSleep hu with hold | ⟨rfl, rfl⟩
    · have hne : u ≠ s.kernel.runningTask := fun heq => h.running_not_mem q' (heq ▸ hold)
      -- an older entry, which is not the running task, keeps its record
      have hsleeps := h.sleeping q' u hold
      have hblocked := h.blocked u q' hsleeps
      rw [Function.update_of_ne hne]
      refine ⟨?_, hsleeps⟩
      show ((s.kernel.setTask _ _).task u).status ≠ .ready
      rw [Kernel.setTask_task_of_ne _ _ hne, hblocked]
      exact fun hready => by cases hready
    · rw [Function.update_self]
      refine ⟨?_, rfl⟩
      show ((s.kernel.setTask _ _).task _).status ≠ .ready
      rw [hself]
      exact fun hready => by cases hready
  · intro q'
    unfold heldAfterSleep Fifo.push
    by_cases hq : q' = q
    · subst hq
      rw [Function.update_self]
      split
      · rw [List.nodup_append]
        refine ⟨h.nodup q', List.nodup_singleton _, ?_⟩
        intro u hu v hv heq
        rw [List.mem_singleton.mp hv] at heq
        -- the running task stood in no queue before
        exact h.running_not_mem q' (heq ▸ hu)
      · exact h.nodup q'
    · rw [Function.update_of_ne hq]
      exact h.nodup q'
  · intro q' hnull
    rcases mem_heldAfterSleep hnull with hold | ⟨_, heq⟩
    · exact h.ne_null q' hold
    · exact hrunning heq.symm
  · intro u q' hu
    have hsleeps := (stillAsleep_some.mp hu).2
    show ((s.kernel.setTask _ _).task u).status = .blocked
    by_cases heq : u = s.kernel.runningTask
    · rw [heq, hself]
    · rw [Function.update_of_ne heq] at hsleeps
      rw [Kernel.setTask_task_of_ne _ _ heq]
      exact h.blocked u q' hsleeps

/-! ## Waking up

The oldest entry is removed, and its task is ready. No other entry is of this task. -/

/-- A wake-up of a queue without entries changes no task; of another one, it wakes the oldest entry. -/
theorem WaitInv.wakeUp_cases (h : WaitInv held s) (q : Nat) :
    held q = [] ∧ wakeUp q s.kernel = { s.kernel with
        waitQueue := Function.update s.kernel.waitQueue q (queueRemove (s.kernel.waitQueue q)).2 }
      ∨ ∃ t rest, held q = t :: rest
        ∧ wakeUp q s.kernel = { s.kernel.setTask t { s.kernel.task t with status := .ready } with
          waitQueue := Function.update s.kernel.waitQueue q (queueRemove (s.kernel.waitQueue q)).2 } := by
  have hfst := queueRemove_fst (h.holds q)
  cases hheld : held q with
  | nil =>
    rw [hheld, List.headD_nil] at hfst
    rcases DiyOS.wakeUp_cases q s.kernel with ⟨_, heq⟩ | ⟨t, ht, hne, _⟩
    · exact Or.inl ⟨rfl, heq⟩
    · exact absurd (ht.symm.trans hfst) hne
  | cons t rest =>
    rw [hheld, List.headD_cons] at hfst
    -- what `queue_remove` returns is the oldest entry, not the null pointer of an empty queue
    have hnull : t ≠ null := fun heq => h.ne_null q (by rw [hheld, heq]; exact List.mem_cons_self)
    rcases DiyOS.wakeUp_cases q s.kernel with ⟨hempty, _⟩ | ⟨u, hu, _, heq⟩
    · exact absurd (hfst.symm.trans hempty) hnull
    · obtain rfl := hu.symm.trans hfst
      exact Or.inr ⟨u, rest, rfl, heq⟩

/-- The queue after a wake-up, and the other ones. -/
theorem holds_after_remove (h : ∀ q, (s.kernel.waitQueue q).Holds (held q)) (q q' : Nat) :
    (Function.update s.kernel.waitQueue q (queueRemove (s.kernel.waitQueue q)).2 q').Holds
      (Function.update held q (Fifo.pop (held q)) q') := by
  by_cases hq : q' = q
  · subst hq
    rw [Function.update_self, Function.update_self]
    exact queueRemove_holds (h q')
  · rw [Function.update_of_ne hq, Function.update_of_ne hq]
    exact h q'

theorem mem_after_pop {q q' : Nat} {u : TaskPtr}
    (h : u ∈ Function.update held q (Fifo.pop (held q)) q') : u ∈ held q' := by
  by_cases hq : q' = q
  · subst hq
    rw [Function.update_self] at h
    exact List.mem_of_mem_tail h
  · rwa [Function.update_of_ne hq] at h

/-- The oldest sleeper of a queue is woken. -/
theorem WaitInv.wakeUp (h : WaitInv held s) (q : Nat) :
    WaitInv (Function.update held q (Fifo.pop (held q)))
      ⟨wakeUp q s.kernel, stillAsleep (wakeUp q s.kernel) s.sleepsOn⟩ := by
  have hnodup : ∀ q', (Function.update held q (Fifo.pop (held q)) q').Nodup := by
    intro q'
    by_cases hq : q' = q
    · subst hq
      rw [Function.update_self]
      exact (h.nodup q').tail
    · rw [Function.update_of_ne hq]
      exact h.nodup q'
  have hnull : ∀ q', null ∉ Function.update held q (Fifo.pop (held q)) q' :=
    fun q' hin => h.ne_null q' (mem_after_pop hin)
  have hrunning : ∀ k', stillAsleep k' s.sleepsOn s.kernel.runningTask = none := by
    intro k'
    unfold stillAsleep
    rw [h.running]
    exact ite_self none
  rcases h.wakeUp_cases q with ⟨_, heq⟩ | ⟨t, rest, hheld, heq⟩
  · rw [heq]
    refine ⟨holds_after_remove h.holds q, ?_, hnodup, hnull, ?_, hrunning _, h.tasks⟩
    · intro q' u hu
      have hsleeps := h.sleeping q' u (mem_after_pop hu)
      refine stillAsleep_some.mpr ⟨?_, hsleeps⟩
      show (s.kernel.task u).status ≠ .ready
      rw [h.blocked u q' hsleeps]
      exact fun hready => by cases hready
    · intro u q' hu
      exact h.blocked u q' (stillAsleep_some.mp hu).2
  · rw [heq]
    refine ⟨holds_after_remove h.holds q, ?_, hnodup, hnull, ?_, hrunning _, h.tasks⟩
    · intro q' u hu
      have hsleeps := h.sleeping q' u (mem_after_pop hu)
      -- the task that was woken stood in this queue alone, and once
      have hne : u ≠ t := by
        intro hut
        have ht := h.sleeping q t (by rw [hheld]; exact List.mem_cons_self)
        rw [hut, ht] at hsleeps
        obtain rfl := Option.some.inj hsleeps
        rw [Function.update_self, hheld, hut] at hu
        have honce := h.nodup q
        rw [hheld] at honce
        exact (List.nodup_cons.mp honce).1 hu
      refine stillAsleep_some.mpr ⟨?_, hsleeps⟩
      show ((s.kernel.setTask t _).task u).status ≠ .ready
      rw [Kernel.setTask_task_of_ne _ _ hne, h.blocked u q' hsleeps]
      exact fun hready => by cases hready
    · intro u q' hu
      rcases stillAsleep_some.mp hu with ⟨hnot, hsleeps⟩
      have hne : u ≠ t := by
        intro hut
        refine hnot ?_
        rw [hut]
        exact congrArg Task.status (Kernel.setTask_task_self s.kernel t _)
      show ((s.kernel.setTask t _).task u).status = .blocked
      rw [Kernel.setTask_task_of_ne _ _ hne]
      exact h.blocked u q' hsleeps

/-! ## Tasks without an entry

The other direction: a task that sleeps on a queue stands in it. A full queue breaks this for good, so it is a
condition on every `sleep_on`. -/

/-- It has its entry, if there is room. -/
theorem Recorded.sleepOn (hrec : Recorded held s) {q size : Nat} (hroom : (held q).length < size) :
    Recorded (heldAfterSleep held q size s.kernel.runningTask)
      ⟨k, stillAsleep k (Function.update s.sleepsOn s.kernel.runningTask (some q))⟩ := by
  intro t q' ht
  have hsleeps := (stillAsleep_some.mp ht).2
  unfold heldAfterSleep Fifo.push
  rw [if_pos hroom]
  -- the task that falls asleep has just been added; the others keep their entries
  by_cases heq : t = s.kernel.runningTask
  · rw [heq, Function.update_self] at hsleeps
    obtain rfl := Option.some.inj hsleeps
    rw [heq, Function.update_self]
    exact List.mem_append_right _ List.mem_cons_self
  · rw [Function.update_of_ne heq] at hsleeps
    have hin := hrec t q' hsleeps
    by_cases hq : q' = q
    · subst hq
      rw [Function.update_self]
      exact List.mem_append_left _ hin
    · rw [Function.update_of_ne hq]
      exact hin

/-- The task that loses its entry is awake. -/
theorem Recorded.wakeUp (hrec : Recorded held s) (h : WaitInv held s) (q : Nat) :
    Recorded (Function.update held q (Fifo.pop (held q)))
      ⟨wakeUp q s.kernel, stillAsleep (wakeUp q s.kernel) s.sleepsOn⟩ := by
  intro u q' hu
  rcases stillAsleep_some.mp hu with ⟨hnot, hsleeps⟩
  have hin := hrec u q' hsleeps
  by_cases hq : q' = q
  · subst hq
    rw [Function.update_self]
    rcases h.wakeUp_cases q' with ⟨hnil, _⟩ | ⟨t, rest, hheld, heq⟩
    · rw [hnil] at hin
      cases hin
    · rw [hheld] at hin ⊢
      rcases List.mem_cons.mp hin with rfl | htail
      · -- the task that was woken sleeps no more
        refine absurd ?_ hnot
        rw [heq]
        exact congrArg Task.status (Kernel.setTask_task_self s.kernel u _)
      · exact htail
  · rw [Function.update_of_ne hq]
    exact hin

/-- A wake-up of a queue that a task sleeps on. -/
theorem WaitInv.wakesOne (h : WaitInv held s) (hrec : Recorded held s) {q : Nat} {u : TaskPtr}
    (hu : s.sleepsOn u = some q) (hstep : WaitStep s (.wakeUp q) s') :
    WakesOne q ⟨s, .wakeUp q, s'⟩ := by
  cases hstep
  have hin := hrec u q hu
  rcases h.wakeUp_cases q with ⟨hnil, _⟩ | ⟨t, rest, hheld, heq⟩
  · rw [hnil] at hin
    cases hin
  · have ht := h.sleeping q t (by rw [hheld]; exact List.mem_cons_self)
    unfold WakesOne
    rw [heq]
    refine ⟨t, ht, h.blocked t q ht, ?_, ?_⟩
    · exact congrArg Task.status (Kernel.setTask_task_self s.kernel t _)
    · exact fun v hv => Kernel.setTask_task_of_ne s.kernel _ hv

/-! ## Runs

Both invariants, over all events; what is false after a step that does not meet the condition is seen from that
step. -/

/-- **An event that wakes no entry keeps the invariant**; and every sleeping task keeps its entry, if
no queue overflows. -/
theorem WaitInv.step (h : WaitInv held s) {e : WaitEvent} (hstep : WaitStep s e s')
    (hspare : SparesQueued ⟨s, e, s'⟩) :
    ∃ held', WaitInv held' s' ∧ (HasRoom ⟨s, e, s'⟩ → Recorded held s → Recorded held' s') := by
  cases hstep with
  | @sleepOn k q timeout hrunning hcall =>
    refine ⟨_, h.sleepOn hrunning hcall, ?_⟩
    intro hroom hrec
    refine hrec.sleepOn ?_
    rw [← (h.holds q).count_eq]
    exact hroom
  | wakeUp q => exact ⟨_, h.wakeUp q, fun _ hrec => hrec.wakeUp h q⟩
  | messageTo hcall =>
    exact ⟨_, h.messageTo hcall hspare, fun _ hrec t q ht => hrec t q (stillAsleep_some.mp ht).2⟩
  | timer hcall =>
    exact ⟨_, h.timer hcall hspare, fun _ hrec t q ht => hrec t q (stillAsleep_some.mp ht).2⟩

/-- **After an event that wakes an entry** it still stands in its queue. -/
theorem WaitInv.spares (h : WaitInv held s) {e : WaitEvent} (hstep : WaitStep s e s')
    (hgood : QueuesOfSleepers s') : SparesQueued ⟨s, e, s'⟩ := by
  have hnot : ∀ t, (s'.kernel.task t).status = .ready → ¬ s'.kernel.InWaitQueue t := by
    rintro t hready ⟨q, ht⟩
    have hblocked := (hgood.sleeping q t ht).1
    rw [hready] at hblocked
    cases hblocked
  cases hstep with
  | sleepOn hrunning hcall => trivial
  | wakeUp q => trivial
  | @messageTo k msg toPid data size hcall =>
    intro t ht hin
    rcases messageTo_cases hcall with ⟨hnone, _⟩ | ⟨u, hu, _, rfl⟩
    · rw [ht] at hnone
      cases hnone
    · obtain rfl := Option.some.inj (hu.symm.trans ht)
      exact hnot u (congrArg Task.status (Kernel.setTask_task_self s.kernel u _)) hin
  | @timer k hcall =>
    rintro t hmem hten ⟨q, hin⟩
    rcases timerHandler_cases hcall with ⟨k₁, hbody, hschedule⟩
    rcases schedule_cases hschedule with ⟨_, _, rfl⟩
    -- the tick leaves the queues, so that the task is ready and stands in one
    refine hnot t ?_ ⟨q, ?_⟩
    · show (k₁.task t).status = .ready
      rw [(timerBody_cases h.tasks hbody).2 t, if_pos hmem]
      exact expired_ready hten
    · show t ∈ (k₁.waitQueue q).items
      rw [timerBody_waitQueue hbody]
      exact hin

/-- **Wait queues.** Start with empty wait queues, each task listed once, and let tasks sleep, wake each
other and send messages, and the timer tick, in any order. After every event the queues hold sleeping
tasks, each once, if and only if no message and no tick marks a task ready that stands in a queue. If
moreover no task sleeps on a full queue, every wake-up of a queue that a task sleeps on marks exactly
one of the tasks sleeping on it ready. -/
theorem waitQueues_sleepers_iff {k₀ : Kernel} (hqueues : ∀ q, (k₀.waitQueue q).Holds [])
    (hnodup : k₀.tasks.Nodup) {tr : List (Transition Sleepers WaitEvent)}
    (hrun : Run WaitStep ⟨k₀, fun _ => none⟩ tr s) :
    ((∀ τ ∈ tr, QueuesOfSleepers τ.post) ↔ ∀ τ ∈ tr, SparesQueued τ)
      ∧ ((∀ τ ∈ tr, SparesQueued τ ∧ HasRoom τ) → ∀ τ ∈ tr, ∀ q u, τ.event = .wakeUp q →
        τ.pre.sleepsOn u = some q → WakesOne q τ) := by
  have hinit : WaitInv (fun _ => []) ⟨k₀, fun _ => none⟩ :=
    ⟨hqueues, fun _ _ ht => absurd ht List.not_mem_nil, fun _ => List.nodup_nil,
      fun _ => List.not_mem_nil, fun _ _ ht => by (cases ht), rfl, hnodup⟩
  refine ⟨?_, ?_⟩
  · refine @Run.all_iff_while _ _ _ _ (fun s => ∃ held, WaitInv held s) _ _ ⟨_, hinit⟩ ?_ ?_ tr s hrun
    · rintro s e s' ⟨held, hpre⟩ hstep
      refine ⟨hpre.spares hstep, ?_⟩
      intro hspare
      rcases hpre.step hstep hspare with ⟨held', hpost, _⟩
      exact hpost.queuesOfSleepers
    · rintro s e s' ⟨held, hpre⟩ hstep hspare
      rcases hpre.step hstep hspare with ⟨held', hpost, _⟩
      exact ⟨held', hpost⟩
  · intro hall τ hτ q u hevent hu
    -- the invariant holds where the wake-up starts, at the end of the run before it
    rcases hrun.reaches_of_mem hτ with ⟨before, after, heq, hpre, hstep⟩
    have hstart : ∃ held, WaitInv held (⟨k₀, fun _ => none⟩ : Sleepers)
        ∧ Recorded held ⟨k₀, fun _ => none⟩ := ⟨_, hinit, fun _ _ ht => by cases ht⟩
    obtain ⟨held, hinv, hrec⟩ := @Run.invariant_of_all _ _ _ _
      (fun s => ∃ held, WaitInv held s ∧ Recorded held s) (fun τ => SparesQueued τ ∧ HasRoom τ) hstart
      (by
        rintro s e s' ⟨held, hs, hr⟩ hst ⟨hspare, hroom⟩
        rcases hs.step hst hspare with ⟨held', hs', hr'⟩
        exact ⟨held', hs', hr' hroom hr⟩) before τ.pre hpre
      fun τ' hτ' => hall τ' (by rw [heq]; exact List.mem_append_left _ hτ')
    rcases τ with ⟨pre, e, post⟩
    obtain rfl : e = .wakeUp q := hevent
    exact hinv.wakesOne hrec hu hstep

end

/-! ## A task that sleeps

The state in which one task has fallen asleep on the queue 0. -/

/-- The idle task, and task 2, which runs; the wait queues are empty. -/
def waitTasks : Kernel := { twoTasks with waitQueue := fun _ => queueInit (fun _ => 0) 8 }

/-- The same two tasks after task 2 has called `sleep_on(q, NULL)` for the queue at 0. -/
def waitTasksAsleep : Kernel := switchTo 1 (sleepOnBody 0 none waitTasks)

theorem waitTasks_sleep : WaitStep ⟨waitTasks, fun _ => none⟩ (.sleepOn 0 none)
    ⟨waitTasksAsleep, stillAsleep waitTasksAsleep (Function.update (fun _ => none) 2 (some 0))⟩ :=
  WaitStep.sleepOn (by decide) rfl

/-- Task 2 sleeps, and is woken. -/
theorem waitQueues_sleepers_two :
    ∃ (tr : List (Transition Sleepers WaitEvent)) (s : Sleepers),
      Run WaitStep ⟨waitTasks, fun _ => none⟩ tr s ∧ tr.length = 2
        ∧ (∀ τ ∈ tr, QueuesOfSleepers τ.post)
        ∧ ∃ τ ∈ tr, WakesOne 0 τ := by
  have hwake := @WaitStep.wakeUp ⟨waitTasksAsleep,
    stillAsleep waitTasksAsleep (Function.update (fun _ => none) 2 (some 0))⟩ 0
  have hrun := (Run.nil.snoc waitTasks_sleep).snoc hwake
  obtain ⟨hiff, hone⟩ := waitQueues_sleepers_iff
    (fun _ => queueInit_holds (fun _ => 0) (by decide) (by decide)) (by decide) hrun
  refine ⟨_, _, hrun, rfl, hiff.mpr ?_, _, List.mem_append_right _ List.mem_cons_self, ?_⟩
  · rw [List.forall_mem_append, List.nil_append, List.forall_mem_singleton, List.forall_mem_singleton]
    exact ⟨trivial, trivial⟩
  · refine hone ?_ _ (List.mem_append_right _ List.mem_cons_self) 0 2 rfl rfl
    rw [List.forall_mem_append, List.nil_append, List.forall_mem_singleton, List.forall_mem_singleton]
    exact ⟨⟨trivial, show 0 < 8 by decide⟩, trivial, trivial⟩

/-- Task 2 sleeps, and the idle task sends it a message: it is ready, and still stands in the queue. -/
theorem sleeper_left_in_queue :
    ∃ (tr : List (Transition Sleepers WaitEvent)) (s : Sleepers),
      Run WaitStep ⟨waitTasks, fun _ => none⟩ tr s ∧ tr.length = 2
        ∧ s.kernel.Ready 2 ∧ 2 ∈ (s.kernel.waitQueue 0).items ∧ ¬ QueuesOfSleepers s := by
  have hsend := @WaitStep.messageTo ⟨waitTasksAsleep,
    stillAsleep waitTasksAsleep (Function.update (fun _ => none) 2 (some 0))⟩ _ 100 1002 7 4 rfl
  refine ⟨_, _, (Run.nil.snoc waitTasks_sleep).snoc hsend, rfl, rfl, by decide, ?_⟩
  intro hgood
  have hblocked := (hgood.sleeping 0 2 (by decide)).1
  cases hblocked

end DiyOS
