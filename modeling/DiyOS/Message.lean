import DiyOS.Task
import DiyOS.Lib.Run
import Mathlib.Data.List.Nodup

/-!
# Message delivery (`kernel/message.c`)

Any number of tasks send and receive, in any order. A send finds the first listed task with the pid
it is given, allocates a message, and appends it to that task's queue of 32 pointers, which drops it
when it is full. A receive removes the oldest pointer of the caller's own queue.

* **`Mailbox`** — what the queue of a task holds, as messages.
* **`MessageStep.mailbox`** — one send or receive by any task: what is received followed by what is
  pending after it is what was pending before it followed by what is accepted.
* **`message_delivery`** — so over a run the messages received followed by the pending ones are the
  accepted ones.
-/

namespace DiyOS

open Word

/-! ## Sends and receives -/

/-- A send by `caller`, or a receive by `caller` with the pointer it got. -/
inductive MessageEvent where
  | send (caller : TaskPtr) (toPid data size : Nat)
  | receive (caller : TaskPtr) (msg : Nat)

/-- One call by a running task. The memory that `malloc` gives a send holds no message yet. -/
inductive MessageStep : Kernel → MessageEvent → Kernel → Prop where
  | send {k k' : Kernel} {caller : TaskPtr} {msg toPid data size : Nat} (hmsg : msg ≠ null)
      (hfresh : k.message msg = none)
      (hcall : messageTo msg toPid data size (switchTo caller k) = .ok k') :
      MessageStep k (.send caller toPid data size) k'
  | receive {k : Kernel} {caller : TaskPtr} (hcaller : caller ≠ null) :
      MessageStep k (.receive caller (message (switchTo caller k)).1) (message (switchTo caller k)).2

/-- The message, if any, that a call adds to those sent to `t` while fewer than 32 were pending. -/
def acceptedBy (t : TaskPtr) (τ : Transition Kernel MessageEvent) : Option Message :=
  match τ.event with
  | .send caller toPid data size =>
    if toPid = (τ.pre.task t).pid ∧ queueSize (τ.pre.task t).messageQueue < 32 then
      some ⟨(τ.pre.task caller).pid, toPid, data, size⟩
    else none
  | .receive _ _ => none

/-- The message, if any, that a call gives to `t`. -/
def receivedBy (t : TaskPtr) (τ : Transition Kernel MessageEvent) : Option Message :=
  match τ.event with
  | .send _ _ _ _ => none
  | .receive caller msg => if caller = t ∧ msg ≠ null then τ.post.message msg else none

def accepted (t : TaskPtr) (tr : List (Transition Kernel MessageEvent)) : List Message :=
  tr.filterMap (acceptedBy t)

def received (t : TaskPtr) (tr : List (Transition Kernel MessageEvent)) : List Message :=
  tr.filterMap (receivedBy t)

/-! ## Finding a task by its pid -/

theorem taskFromPid_eq (toPid : Nat) (k : Kernel) :
    taskFromPid toPid k = k.tasks.find? fun t => (k.task t).pid = toPid := by
  unfold taskFromPid
  rw [listForeach_eq_find]
  congr 1
  funext t
  unfold taskGetPid
  by_cases hpid : (k.task t).pid = toPid
  · rw [if_pos hpid, decide_eq_true hpid]
    rfl
  · rw [if_neg hpid, decide_eq_false hpid]
    rfl

theorem taskFromPid_some {toPid : Nat} {k : Kernel} {t : TaskPtr}
    (h : taskFromPid toPid k = some t) : t ∈ k.tasks ∧ (k.task t).pid = toPid := by
  rw [taskFromPid_eq] at h
  have hpid := List.find?_some h
  exact ⟨List.mem_of_find?_eq_some h, of_decide_eq_true hpid⟩

theorem taskFromPid_none {toPid : Nat} {k : Kernel} (h : taskFromPid toPid k = none) {t : TaskPtr}
    (ht : t ∈ k.tasks) : (k.task t).pid ≠ toPid := by
  rw [taskFromPid_eq] at h
  exact of_decide_eq_false (Bool.eq_false_iff.mpr (List.find?_eq_none.mp h t ht))

/-- No two listed tasks have the same pid. -/
def DistinctPids (k : Kernel) : Prop := (k.tasks.map fun t => (k.task t).pid).Nodup

/-- With distinct pids, a listed task is the one its pid leads to. -/
theorem DistinctPids.taskFromPid {k : Kernel} (h : DistinctPids k) {t : TaskPtr} (ht : t ∈ k.tasks) :
    DiyOS.taskFromPid (k.task t).pid k = some t := by
  cases hfind : DiyOS.taskFromPid (k.task t).pid k with
  | none => exact absurd rfl (taskFromPid_none hfind ht)
  | some t' =>
    rcases taskFromPid_some hfind with ⟨ht', hpid⟩
    -- the task that was found has the same pid, so it is `t`
    rw [List.inj_on_of_nodup_map h ht' ht hpid]

/-! ## What a call leaves alone -/

/-- The list of tasks and their pids. -/
structure SamePids (k k' : Kernel) : Prop where
  tasks : k'.tasks = k.tasks
  pid : ∀ t, (k'.task t).pid = (k.task t).pid

theorem SamePids.distinctPids {k k' : Kernel} (h : SamePids k k') (hpids : DistinctPids k) :
    DistinctPids k' := by
  unfold DistinctPids
  simp only [h.tasks, h.pid]
  exact hpids

/-- A new record with the old pid. -/
theorem Kernel.setTask_pid (k : Kernel) (p : TaskPtr) {r : Task} (hr : r.pid = (k.task p).pid)
    (t : TaskPtr) : ((k.setTask p r).task t).pid = (k.task t).pid := by
  by_cases heq : t = p
  · rw [heq, Kernel.setTask_task_self, hr]
  · rw [Kernel.setTask_task_of_ne _ _ heq]

theorem MessageStep.samePids {k k' : Kernel} {e : MessageEvent} (hstep : MessageStep k e k') :
    SamePids k k' := by
  cases hstep with
  | send hmsg hfresh hcall =>
    rcases messageTo_cases hcall with ⟨_, rfl⟩ | ⟨t, _, _, rfl⟩
    · exact ⟨rfl, fun _ => rfl⟩
    · exact ⟨rfl, Kernel.setTask_pid (switchTo _ k) t rfl⟩
  | @receive caller hcaller =>
    rw [message_eq (show (switchTo caller k).runningTask ≠ null from hcaller)]
    exact ⟨rfl, Kernel.setTask_pid (switchTo caller k) caller rfl⟩

/-! ## The mailbox of a task -/

/-- The queue of `t` holds the pointers `held`, which point to the messages `pending`. -/
structure Mailbox (k : Kernel) (t : TaskPtr) (held : List Nat) (pending : List Message) : Prop where
  holds : (k.task t).messageQueue.Holds held
  size_eq : (k.task t).messageQueue.size = 32
  messages : held.map k.message = pending.map some
  ne_null : null ∉ held

theorem Mailbox.length_eq {k : Kernel} {t : TaskPtr} {held : List Nat} {pending : List Message}
    (h : Mailbox k t held pending) : pending.length = queueSize (k.task t).messageQueue := by
  have hlength := congrArg List.length h.messages
  rw [List.length_map, List.length_map] at hlength
  rw [queueSize, h.holds.count_eq, hlength]

/-- A pointer in the queue points to a message. -/
theorem Mailbox.message_ne_none {k : Kernel} {t : TaskPtr} {held : List Nat} {pending : List Message}
    (h : Mailbox k t held pending) {p : Nat} (hp : p ∈ held) : k.message p ≠ none := by
  have hmem : k.message p ∈ pending.map some := by
    rw [← h.messages]
    exact List.mem_map_of_mem hp
  rcases List.mem_map.mp hmem with ⟨m, _, hm⟩
  rw [← hm]
  exact Option.some_ne_none m

/-- A message in fresh memory is none of those pending. -/
theorem Mailbox.messages_fresh {k : Kernel} {t : TaskPtr} {held : List Nat} {pending : List Message}
    (h : Mailbox k t held pending) {msg : Nat} (hfresh : k.message msg = none) (m : Option Message) :
    held.map (Function.update k.message msg m) = pending.map some := by
  rw [← h.messages]
  refine List.map_congr_left fun p hp => ?_
  have hne : p ≠ msg := fun heq => h.message_ne_none hp (heq ▸ hfresh)
  exact Function.update_of_ne hne _ _

/-! ## One call -/

section Calls

variable {k k' : Kernel} {t : TaskPtr} {held : List Nat} {pending : List Message}

/-- A call that leaves the record of `t` and the messages it holds leaves its mailbox. -/
theorem Mailbox.of_eq (h : Mailbox k t held pending) (htask : k'.task t = k.task t)
    (hmessages : held.map k'.message = pending.map some) : Mailbox k' t held pending := by
  refine ⟨?_, ?_, hmessages, h.ne_null⟩
  · rw [htask]
    exact h.holds
  · rw [htask]
    exact h.size_eq

/-- A send to `t`: appended if fewer than 32 messages are pending, and dropped otherwise. -/
theorem Mailbox.add (h : Mailbox k t held pending) {msg : Nat} {m : Message} (hmsg : msg ≠ null)
    (hfresh : k.message msg = none)
    (hqueue : (k'.task t).messageQueue = queueAdd (k.task t).messageQueue msg)
    (hmessage : k'.message = Function.update k.message msg (some m)) :
    ∃ held', Mailbox k' t held'
      (if queueSize (k.task t).messageQueue < 32 then pending ++ [m] else pending) := by
  have hholds := queueAdd_holds h.holds msg
  have hsize : (queueAdd (k.task t).messageQueue msg).size = 32 :=
    (queueAdd_size _ _).trans h.size_eq
  have hlength : held.length = queueSize (k.task t).messageQueue := h.holds.count_eq.symm
  have hkept := h.messages_fresh hfresh (some m)
  rw [h.size_eq, Fifo.push, hlength] at hholds
  -- `queue_add` drops a pointer for which there is no room
  by_cases hroom : queueSize (k.task t).messageQueue < 32
  · rw [if_pos hroom] at hholds ⊢
    refine ⟨held ++ [msg], ?_, ?_, ?_, ?_⟩
    · rw [hqueue]
      exact hholds
    · rw [hqueue]
      exact hsize
    · rw [hmessage, List.map_append, List.map_append, hkept, List.map_singleton,
        Function.update_self, List.map_singleton]
    · rw [List.mem_append, List.mem_singleton]
      exact fun hor => hor.elim h.ne_null fun heq => hmsg heq.symm
  · rw [if_neg hroom] at hholds ⊢
    refine ⟨held, ?_, ?_, ?_, h.ne_null⟩
    · rw [hqueue]
      exact hholds
    · rw [hqueue]
      exact hsize
    · rw [hmessage]
      exact hkept

/-- A receive by `t` takes the oldest message, and nothing from an empty queue. -/
theorem Mailbox.remove (h : Mailbox k t held pending)
    (hqueue : (k'.task t).messageQueue = (queueRemove (k.task t).messageQueue).2)
    (hmessage : k'.message = k.message) :
    ∃ held' pending', Mailbox k' t held' pending' ∧ pending =
      (if (queueRemove (k.task t).messageQueue).1 ≠ null
        then k'.message (queueRemove (k.task t).messageQueue).1 else none).toList ++ pending' := by
  have hholds := queueRemove_holds h.holds
  have hsize : (queueRemove (k.task t).messageQueue).2.size = 32 :=
    (queueRemove_size _).trans h.size_eq
  have hmessages := h.messages
  have hnull := h.ne_null
  rw [queueRemove_fst h.holds, hmessage]
  rw [← hqueue] at hholds hsize
  cases held with
  | nil =>
    cases pending with
    | nil =>
      refine ⟨[], [], ⟨hholds, hsize, rfl, List.not_mem_nil⟩, ?_⟩
      rw [List.headD_nil, if_neg (not_not.mpr rfl)]
      rfl
    | cons m pending => cases hmessages
  | cons p held =>
    cases pending with
    | nil => cases hmessages
    | cons m pending =>
      -- the pointer that is taken points to the oldest message
      rcases List.cons.inj hmessages with ⟨hfirst, hrest⟩
      have hp : p ≠ null := fun heq => hnull (heq ▸ List.mem_cons_self)
      refine ⟨held, pending, ⟨hholds, hsize, ?_, fun hin => hnull (List.mem_cons_of_mem _ hin)⟩, ?_⟩
      · rw [hmessage]
        exact hrest
      · rw [List.headD_cons, if_pos hp, hfirst]
        rfl

end Calls

/-- A send, for one task: the message is appended to its queue, or the queue stays as it is. -/
theorem mailbox_send {k k' : Kernel} (hpids : DistinctPids k) {t : TaskPtr} (ht : t ∈ k.tasks)
    {held : List Nat} {pending : List Message} (h : Mailbox k t held pending) {caller : TaskPtr}
    {msg toPid data size : Nat} (hmsg : msg ≠ null) (hfresh : k.message msg = none)
    (hcall : messageTo msg toPid data size (switchTo caller k) = .ok k') :
    ∃ held' pending', Mailbox k' t held' pending' ∧
      pending' = pending ++ (acceptedBy t ⟨k, .send caller toPid data size, k'⟩).toList := by
  unfold acceptedBy
  simp only
  rcases messageTo_cases hcall with ⟨hnone, rfl⟩ | ⟨t', ht', _, hk'⟩
  · -- no task has the pid
    have hother : toPid ≠ (k.task t).pid := (taskFromPid_none hnone ht).symm
    refine ⟨held, pending, h.of_eq rfl h.messages, ?_⟩
    rw [if_neg fun hboth => hother hboth.1, Option.toList_none, List.append_nil]
  · rcases taskFromPid_some ht' with ⟨hmem, hpid⟩
    have hmessage : k'.message = Function.update k.message msg
        (some ⟨(k.task caller).pid, toPid, data, size⟩) := by
      rw [hk']
      rfl
    by_cases heq : t' = t
    · -- the message is for `t`
      subst heq
      have hto : toPid = (k.task t').pid := hpid.symm
      have hqueue : (k'.task t').messageQueue = queueAdd (k.task t').messageQueue msg := by
        rw [hk']
        exact congrArg Task.messageQueue (Kernel.setTask_task_self (switchTo caller k) t' _)
      rcases h.add hmsg hfresh hqueue hmessage with ⟨held', hbox⟩
      refine ⟨held', _, hbox, ?_⟩
      by_cases hroom : queueSize (k.task t').messageQueue < 32
      · rw [if_pos hroom, if_pos ⟨hto, hroom⟩]
        rfl
      · rw [if_neg hroom, if_neg fun hboth => hroom hboth.2, Option.toList_none, List.append_nil]
    · -- the message is for another task, which has another pid
      have hother : toPid ≠ (k.task t).pid := by
        intro hto
        have hfound := hpids.taskFromPid ht
        rw [← hto] at hfound
        exact heq (Option.some.inj (ht'.symm.trans hfound))
      have hkept : k'.task t = k.task t := by
        rw [hk']
        exact Kernel.setTask_task_of_ne (switchTo caller k) _ fun hne => heq hne.symm
      refine ⟨held, pending, h.of_eq hkept ?_, ?_⟩
      · rw [hmessage]
        exact h.messages_fresh hfresh _
      · rw [if_neg fun hboth => hother hboth.1, Option.toList_none, List.append_nil]

/-- A receive, for one task: a task receives from its own queue. -/
theorem mailbox_receive {k : Kernel} {t : TaskPtr} {held : List Nat} {pending : List Message}
    (h : Mailbox k t held pending) {caller : TaskPtr} (hcaller : caller ≠ null) :
    ∃ held' pending', Mailbox (message (switchTo caller k)).2 t held' pending' ∧
      (receivedBy t ⟨k, .receive caller (message (switchTo caller k)).1,
        (message (switchTo caller k)).2⟩).toList ++ pending' = pending := by
  have hcall := message_eq (show (switchTo caller k).runningTask ≠ null from hcaller)
  unfold receivedBy
  rw [hcall]
  simp only
  by_cases heq : caller = t
  · subst heq
    have hqueue : (((switchTo caller k).setTask caller { k.task caller with
        messageQueue := (queueRemove (k.task caller).messageQueue).2 }).task caller).messageQueue
          = (queueRemove (k.task caller).messageQueue).2 :=
      congrArg Task.messageQueue (Kernel.setTask_task_self (switchTo caller k) caller _)
    rcases h.remove hqueue rfl with ⟨held', pending', hbox, hpending⟩
    refine ⟨held', pending', hbox, ?_⟩
    simp only [true_and]
    exact hpending.symm
  · have hkept : ((switchTo caller k).setTask caller { k.task caller with
        messageQueue := (queueRemove (k.task caller).messageQueue).2 }).task t = k.task t :=
      Kernel.setTask_task_of_ne (switchTo caller k) _ fun hne => heq hne.symm
    refine ⟨held, pending, h.of_eq hkept h.messages, ?_⟩
    rw [if_neg fun hboth => heq hboth.1]
    rfl

/-- **One call.** For every listed task `t`: what the call gives to `t`, followed by what is pending
after it, is what was pending before, followed by what the call adds. -/
theorem MessageStep.mailbox {k k' : Kernel} {e : MessageEvent} (hstep : MessageStep k e k')
    (hpids : DistinctPids k) {t : TaskPtr} (ht : t ∈ k.tasks) {held : List Nat}
    {pending : List Message} (h : Mailbox k t held pending) :
    ∃ held' pending', Mailbox k' t held' pending' ∧
      (receivedBy t ⟨k, e, k'⟩).toList ++ pending' = pending ++ (acceptedBy t ⟨k, e, k'⟩).toList := by
  cases hstep with
  | send hmsg hfresh hcall => exact mailbox_send hpids ht h hmsg hfresh hcall
  | receive hcaller =>
    obtain ⟨held', pending', hbox, hpending⟩ := mailbox_receive h hcaller
    exact ⟨held', pending', hbox, hpending.trans (List.append_nil pending).symm⟩

/-! ## Runs -/

/-- The ledger of `t` balances: its mailbox holds what was accepted and not yet received. -/
def Balanced (t : TaskPtr) (tr : List (Transition Kernel MessageEvent)) (k : Kernel) : Prop :=
  ∃ held pending, Mailbox k t held pending ∧ received t tr ++ pending = accepted t tr

theorem Balanced.snoc {t : TaskPtr} {tr : List (Transition Kernel MessageEvent)} {k k' : Kernel}
    {e : MessageEvent} (h : Balanced t tr k) (hpids : DistinctPids k) (ht : t ∈ k.tasks)
    (hstep : MessageStep k e k') : Balanced t (tr ++ [⟨k, e, k'⟩]) k' := by
  rcases h with ⟨held, pending, hbox, hledger⟩
  rcases hstep.mailbox hpids ht hbox with ⟨held', pending', hbox', hcall⟩
  refine ⟨held', pending', hbox', ?_⟩
  unfold received accepted at hledger ⊢
  rw [List.filterMap_snoc, List.filterMap_snoc, List.append_assoc, hcall, ← List.append_assoc, hledger]

/-- A send leaves the task it reaches ready, and without such a task it leaves every record. -/
theorem MessageStep.send_status {k k' : Kernel} {caller toPid data size : Nat}
    (hstep : MessageStep k (.send caller toPid data size) k') (hpids : DistinctPids k) :
    (∀ t ∈ k.tasks, (k.task t).pid = toPid → (k'.task t).status = .ready)
      ∧ ((∀ t ∈ k.tasks, (k.task t).pid ≠ toPid) → k'.task = k.task) := by
  cases hstep with
  | send hmsg hfresh hcall =>
    rcases messageTo_cases hcall with ⟨hnone, rfl⟩ | ⟨t', ht', _, rfl⟩
    · exact ⟨fun t ht hpid => absurd hpid (taskFromPid_none hnone ht), fun _ => rfl⟩
    · rcases taskFromPid_some ht' with ⟨hmem, hpid⟩
      refine ⟨?_, fun hunknown => absurd hpid (hunknown t' hmem)⟩
      intro t ht hto
      -- with distinct pids, the task that was found is the one with this pid
      have hfound := hpids.taskFromPid ht
      rw [hto] at hfound
      obtain rfl := Option.some.inj (ht'.symm.trans hfound)
      exact congrArg Task.status (Kernel.setTask_task_self (switchTo caller k) t' _)

/-- **Message delivery.** Start from any task list with pairwise distinct pids and empty queues of 32
messages, and let any tasks send and receive in any order. For each task `t` the messages it has
received, followed by those still in its queue, are the messages sent to its pid at moments when fewer
than 32 were pending, in order, each with the sender's pid, the pid, data and size of its send. A send
to a listed task leaves it ready; a send to an unknown pid changes no task. -/
theorem message_delivery {k₀ : Kernel} (hpids : DistinctPids k₀)
    (hqueues : ∀ t ∈ k₀.tasks, ∃ data, (k₀.task t).messageQueue = queueInit data 32)
    {tr : List (Transition Kernel MessageEvent)} {k : Kernel} (hrun : Run MessageStep k₀ tr k) :
    (∀ t ∈ k₀.tasks, ∃ held pending, (k.task t).messageQueue.Holds held
        ∧ held.map k.message = pending.map some
        ∧ pending.length = queueSize (k.task t).messageQueue
        ∧ received t tr ++ pending = accepted t tr)
      ∧ ∀ τ ∈ tr, ∀ caller toPid data size, τ.event = .send caller toPid data size →
        (∀ t ∈ k₀.tasks, (τ.pre.task t).pid = toPid → (τ.post.task t).status = .ready)
          ∧ ((∀ t ∈ k₀.tasks, (τ.pre.task t).pid ≠ toPid) → τ.post.task = τ.pre.task) := by
  have hsame : ∀ s e s', SamePids k₀ s → MessageStep s e s' → SamePids k₀ s' := by
    intro s e s' hpre hstep
    have hnext := hstep.samePids
    exact ⟨hnext.tasks.trans hpre.tasks, fun t => (hnext.pid t).trans (hpre.pid t)⟩
  have hstart : SamePids k₀ k₀ := ⟨rfl, fun _ => rfl⟩
  refine ⟨?_, ?_⟩
  · intro t ht
    have hbalanced : Balanced t tr k := by
      induction hrun with
      | nil =>
        rcases hqueues t ht with ⟨data, hqueue⟩
        refine ⟨[], [], ⟨?_, ?_, rfl, List.not_mem_nil⟩, rfl⟩
        · rw [hqueue]
          exact queueInit_holds data (by decide) (by decide)
        · rw [hqueue]
          rfl
      | snoc hinit hstep ih =>
        -- no call changes a pid, so that they are still distinct
        have hpre := hinit.invariant hstart hsame
        exact ih.snoc (hpre.distinctPids hpids) (by rw [hpre.tasks]; exact ht) hstep
    rcases hbalanced with ⟨held, pending, hbox, hledger⟩
    exact ⟨held, pending, hbox.holds, hbox.messages, hbox.length_eq, hledger⟩
  · rintro ⟨pre, e, post⟩ hτ caller toPid data size rfl
    rcases hrun.pre_invariant hstart hsame hτ with ⟨hpre, hstep⟩
    have hstatus := hstep.send_status (hpre.distinctPids hpids)
    rw [hpre.tasks] at hstatus
    exact hstatus

/-- Task 2 sends a message to task 1, which receives it. -/
theorem message_delivery_two :
    ∃ (tr : List (Transition Kernel MessageEvent)) (k : Kernel),
      Run MessageStep (taskAdd 2 (threadCreate 2 1 100 (tasking 1 bootKernel))) tr k
        ∧ tr.length = 2
        ∧ ∃ pending, received 1 tr ++ pending = [⟨1002, 1001, 7, 4⟩] := by
  let k₀ := taskAdd 2 (threadCreate 2 1 100 (tasking 1 bootKernel))
  have hpids : DistinctPids k₀ := by
    unfold DistinctPids
    decide
  have hqueues : ∀ t ∈ k₀.tasks, ∃ data, (k₀.task t).messageQueue = queueInit data 32 := by
    intro t ht
    have hmem : t ∈ [1, 2] := ht
    obtain rfl | rfl : t = 1 ∨ t = 2 := by simpa using hmem
    · exact ⟨_, rfl⟩
    · exact ⟨_, rfl⟩
  have hsend := @MessageStep.send k₀ _ 2 100 1001 7 4 (by decide) rfl rfl
  have hrun := (Run.nil.snoc hsend).snoc (@MessageStep.receive _ 1 (by decide))
  rcases (message_delivery hpids hqueues hrun).1 1 (by decide) with ⟨_, pending, _, _, _, hledger⟩
  exact ⟨_, _, hrun, rfl, pending, hledger⟩

end DiyOS
