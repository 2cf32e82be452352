import DiyOS.KeyPipeline
import DiyOS.Mouse

/-!
# Listeners (`drivers/kb.c`, `drivers/mouse.c`)

A key or a mouse packet goes to the tasks whose mask `listen` asks for it. `keyboard_listen` and
`mouse_listen` write `&&` where the bit of the mask was meant, so that each sends to every task that
listens to anything.

* **`deviceListen`** — both functions; `broadcast` passes one to `task_foreach`.
* **`broadcast_logged`** — the messages it sends, with the task that each was for and got.
* **`events_reach_iff`** — they are those asked for exactly if every mask that is not zero has both bits,
  and the task is the first one with its pid.
-/

namespace DiyOS

/-! ## The source's functions

`keyboard_listen` and `mouse_listen` differ in the constant and in the packet. `task_foreach` calls them for each
task, with the packet as their data. -/

/-- `TIMER`, a bit of `listen`. -/
def timer : Nat := 2

/-- `MOUSE`, a bit of `listen`. -/
def mouse : Nat := 8

/-- `sizeof(struct mouse_packet)`. -/
def mousePacketSize : Nat := 4

/-- `task_listen`, on the masks of all tasks. -/
def taskListen (l : Nat) (k : Kernel) (listen : TaskPtr → Nat) : Except Halt (TaskPtr → Nat) :=
  if k.runningTask = null then .error (.panic "running_task != NULL")
  else .ok (Function.update listen k.runningTask (listen k.runningTask ||| l))

/-- `mouse_listen`; `malloc t` is the memory for a message to `t`. -/
def mouseListen (g : KbGlobals) (malloc : TaskPtr → Nat) (data : Nat) (t : TaskPtr)
    (k : Except Halt Kernel) : Bool × Except Halt Kernel :=
  match k with
  | .error e => (false, .error e)
  | .ok k =>
    if g.listen t ≠ 0 ∧ mouse ≠ 0 then
      (false, messageTo (malloc t) (k.task t).pid data mousePacketSize k)
    else (false, .ok k)

/-- `task_foreach(mouse_listen, packet)`. -/
def sendMousePacket (g : KbGlobals) (malloc : TaskPtr → Nat) (packet : Nat) (k : Kernel) :
    Except Halt Kernel :=
  match taskForeach k.tasks (mouseListen g malloc packet) (.ok k) with
  | .error e => .error e
  | .ok (_, k) => k

/-! ## Broadcasts

The iterators never return true, so that the pass goes through the whole list of tasks, and each task gets its
turn. -/

section

variable {σ τ : Type}

/-- The iterator for the bit `device` of the masks; `send` is its call of `message_to`. -/
def deviceListen (device : Nat) (g : KbGlobals) (send : TaskPtr → σ → Except Halt σ) (t : TaskPtr)
    (s : Except Halt σ) : Bool × Except Halt σ :=
  match s with
  | .error e => (false, .error e)
  | .ok s => if g.listen t ≠ 0 ∧ device ≠ 0 then (false, send t s) else (false, .ok s)

def broadcast (device : Nat) (g : KbGlobals) (send : TaskPtr → σ → Except Halt σ)
    (tasks : List TaskPtr) (s : σ) : Except Halt σ :=
  match taskForeach tasks (deviceListen device g send) (.ok s) with
  | .error e => .error e
  | .ok (_, s) => s

/-- The call of `message_to` for the task `t`. -/
def sendTo (malloc : TaskPtr → Nat) (data size : Nat) (t : TaskPtr) (k : Kernel) : Except Halt Kernel :=
  messageTo (malloc t) (k.task t).pid data size k

/-- The keyboard's bit, and a packet without a size. -/
theorem keyboardListen_eq (g : KbGlobals) (malloc : TaskPtr → Nat) (data : Nat) :
    keyboardListen g malloc data = deviceListen keyboard g (sendTo malloc data 0) := by
  funext t k
  cases k with
  | error e => rfl
  | ok k => rfl

/-- The mouse's bit, and the size of a packet. -/
theorem mouseListen_eq (g : KbGlobals) (malloc : TaskPtr → Nat) (data : Nat) :
    mouseListen g malloc data = deviceListen mouse g (sendTo malloc data mousePacketSize) := by
  funext t k
  cases k with
  | error e => rfl
  | ok k => rfl

variable {device : Nat} {g : KbGlobals} {send : TaskPtr → σ → Except Halt σ} {tasks : List TaskPtr}

theorem deviceListen_fst (t : TaskPtr) (s : Except Halt σ) : (deviceListen device g send t s).1 = false := by
  unfold deviceListen
  split
  · rfl
  · split <;> rfl

theorem deviceListen_sends {t : TaskPtr} (hdevice : device ≠ 0) (ht : g.listen t ≠ 0) (s : σ) :
    (deviceListen device g send t (.ok s)).2 = send t s :=
  congrArg Prod.snd (if_pos ⟨ht, hdevice⟩)

theorem deviceListen_silent {t : TaskPtr} (ht : ¬ g.listen t ≠ 0) (s : σ) :
    (deviceListen device g send t (.ok s)).2 = .ok s :=
  congrArg Prod.snd (if_neg fun hboth => ht hboth.1)

/-- The iterator never ends the walk, so that it sees every task. -/
theorem broadcast_eq (htasks : tasks ≠ []) (s : σ) :
    broadcast device g send tasks s
      = tasks.foldl (fun s t => (deviceListen device g send t s).2) (.ok s) := by
  have hiter : deviceListen device g send = fun t s => (false, (deviceListen device g send t s).2) := by
    funext t s
    rw [← deviceListen_fst t s]
  have hpass := taskIterate_all (fun t s => (deviceListen device g send t s).2) tasks (.ok s)
  rw [← hiter] at hpass
  unfold broadcast taskForeach
  rw [if_neg htasks, hpass]

/-- A broadcast over states with a log and one over the states alone, step by step. -/
theorem broadcast_simulates {send' : TaskPtr → τ → Except Halt τ} {f : σ → τ}
    (hsend : ∀ t s, send' t (f s) = (send t s).map f) (s : σ) :
    broadcast device g send' tasks (f s) = (broadcast device g send tasks s).map f := by
  have hstep : ∀ t (r : Except Halt σ), (deviceListen device g send' t (r.map f)).2
      = (deviceListen device g send t r).2.map f := by
    intro t r
    cases r with
    | error e => rfl
    | ok s =>
      by_cases hboth : g.listen t ≠ 0 ∧ device ≠ 0
      · rw [deviceListen_sends hboth.2 hboth.1]
        exact (deviceListen_sends hboth.2 hboth.1 (f s)).trans (hsend t s)
      · unfold deviceListen
        simp only [Except.map, if_neg hboth]
  by_cases htasks : tasks = []
  · unfold broadcast taskForeach
    rw [if_pos htasks, if_pos htasks]
    rfl
  · rw [broadcast_eq htasks, broadcast_eq htasks]
    show tasks.foldl _ ((Except.ok s : Except Halt σ).map f) = _
    generalize (Except.ok s : Except Halt σ) = r
    clear htasks
    induction tasks generalizing r with
    | nil => rfl
    | cons t ts ih => rw [List.foldl_cons, List.foldl_cons, hstep, ih]

end

/-! ## The log

What is sent is a message to a pid: `message_to` looks for the task itself, and finds the first with this pid. So
the log has both, the task that a message was for and the one that it went to. -/

/-- A message that `message_to` has sent to `task`: it hands it to `queue_add`, which drops it if the queue is full. -/
structure Delivery where
  task : TaskPtr
  msg : Nat
  message : Message
  deriving DecidableEq

/-- `sendTo`, with the deliveries so far. -/
def sendToLogged (malloc : TaskPtr → Nat) (data size : Nat) (t : TaskPtr) (s : Kernel × List Delivery) :
    Except Halt (Kernel × List Delivery) :=
  match sendTo malloc data size t s.1, taskFromPid (s.1.task t).pid s.1 with
  | .error e, _ => .error e
  | .ok k, none => .ok (k, s.2)
  | .ok k, some t' => .ok (k, s.2 ++
      [⟨t', malloc t, ⟨(s.1.task s.1.runningTask).pid, (s.1.task t).pid, data, size⟩⟩])

/-- The broadcast of a packet, with its deliveries. -/
def broadcastLogged (device : Nat) (g : KbGlobals) (malloc : TaskPtr → Nat) (data size : Nat)
    (k : Kernel) : Except Halt (Kernel × List Delivery) :=
  broadcast device g (sendToLogged malloc data size) k.tasks (k, [])

section

variable {g : KbGlobals} {malloc : TaskPtr → Nat} {packet data size : Nat} {k : Kernel}

/-- The log changes nothing. -/
theorem sendToLogged_fst (t : TaskPtr) (s : Kernel × List Delivery) :
    sendTo malloc data size t s.1 = (sendToLogged malloc data size t s).map Prod.fst := by
  unfold sendToLogged
  cases sendTo malloc data size t s.1 with
  | error e => rfl
  | ok k =>
    cases taskFromPid (s.1.task t).pid s.1 with
    | none => rfl
    | some t' => rfl

/-- Without its log, the broadcast is the one of `keyboad_task`. -/
theorem sendPacket_logged : sendPacket g malloc packet k
    = (broadcastLogged keyboard g malloc packet 0 k).map Prod.fst := by
  rw [broadcastLogged, ← broadcast_simulates sendToLogged_fst]
  unfold sendPacket broadcast
  rw [keyboardListen_eq]
  split
  · next hpass => rw [hpass]
  · next hpass => rw [hpass]

/-- Without its log, the broadcast is the one of `mouse_task`. -/
theorem sendMousePacket_logged : sendMousePacket g malloc packet k
    = (broadcastLogged mouse g malloc packet mousePacketSize k).map Prod.fst := by
  rw [broadcastLogged, ← broadcast_simulates sendToLogged_fst]
  unfold sendMousePacket broadcast
  rw [mouseListen_eq]
  split
  · next hpass => rw [hpass]
  · next hpass => rw [hpass]

end

/-! ## What a broadcast delivers

Sending changes neither pids nor the list nor the running task (`SameSender`), so the deliveries of a whole pass
can be read off the state before it. -/

section

variable {g : KbGlobals} {malloc : TaskPtr → Nat} {device data size : Nat} {k : Kernel}

/-- The first listed task with the pid of `t`. -/
def firstWithPid (k : Kernel) (t : TaskPtr) : TaskPtr := (taskFromPid (k.task t).pid k).getD t

/-- The search for the pid of a listed task finds the first that has it. -/
theorem taskFromPid_firstWithPid {t : TaskPtr} (ht : t ∈ k.tasks) :
    taskFromPid (k.task t).pid k = some (firstWithPid k t) := by
  unfold firstWithPid
  cases hfind : taskFromPid (k.task t).pid k with
  | none => exact absurd rfl (taskFromPid_none hfind ht)
  | some t' => rfl

/-- The message of the running task to the pid of `t`, in the queue of `t'`. -/
def deliveryTo (malloc : TaskPtr → Nat) (data size : Nat) (k : Kernel) (t t' : TaskPtr) : Delivery :=
  ⟨t', malloc t, ⟨(k.task k.runningTask).pid, (k.task t).pid, data, size⟩⟩

/-- The list of tasks, their pids and the running task. -/
structure SameSender (k k' : Kernel) : Prop extends SamePids k k' where
  runningTask : k'.runningTask = k.runningTask

/-- `d` is sent: its task is ready, and its queue has the message unless it was full. -/
def Kernel.post (k : Kernel) (d : Delivery) : Kernel :=
  { k.setTask d.task { k.task d.task with
      status := .ready, messageQueue := queueAdd (k.task d.task).messageQueue d.msg } with
    message := Function.update k.message d.msg (some d.message) }

theorem Kernel.post_sameSender (k : Kernel) (d : Delivery) : SameSender k (k.post d) :=
  ⟨⟨rfl, Kernel.setTask_pid k d.task rfl⟩, rfl⟩

theorem SameSender.taskFromPid {k' : Kernel} (h : SameSender k k') (toPid : Nat) :
    DiyOS.taskFromPid toPid k' = DiyOS.taskFromPid toPid k := by
  rw [taskFromPid_eq, taskFromPid_eq, h.tasks]
  congr 1
  funext t
  rw [h.pid t]

theorem SameSender.firstWithPid {k' : Kernel} (h : SameSender k k') (t : TaskPtr) :
    DiyOS.firstWithPid k' t = DiyOS.firstWithPid k t := by
  unfold DiyOS.firstWithPid
  rw [h.pid, h.taskFromPid]

theorem SameSender.deliveryTo {k' : Kernel} (h : SameSender k k') (t t' : TaskPtr) :
    DiyOS.deliveryTo malloc data size k' t t' = DiyOS.deliveryTo malloc data size k t t' := by
  unfold DiyOS.deliveryTo
  rw [h.pid, h.pid, h.runningTask]

/-- A message to the pid of a listed task goes to the first task that has it. -/
theorem sendToLogged_listed (hrunning : k.runningTask ≠ null) {t : TaskPtr} (ht : t ∈ k.tasks)
    (log : List Delivery) :
    sendToLogged malloc data size t (k, log)
      = .ok (k.post (deliveryTo malloc data size k t (firstWithPid k t)),
          log ++ [deliveryTo malloc data size k t (firstWithPid k t)]) := by
  have hfound := taskFromPid_firstWithPid ht
  have hcall : ∃ k', sendTo malloc data size t k = .ok k' := by
    unfold sendTo messageTo
    rw [hfound]
    simp only [pid, if_neg hrunning]
    exact ⟨_, rfl⟩
  obtain ⟨k', hcall⟩ := hcall
  unfold sendToLogged
  simp only [hcall, hfound]
  rcases messageTo_cases hcall with ⟨hnone, _⟩ | ⟨t', ht', _, rfl⟩
  · rw [hfound] at hnone
    cases hnone
  · obtain rfl := Option.some.inj (hfound.symm.trans ht')
    rfl

/-- The deliveries for the tasks of `ts` that listen to anything. -/
def deliveriesOf (g : KbGlobals) (malloc : TaskPtr → Nat) (data size : Nat) (k : Kernel)
    (ts : List TaskPtr) : List Delivery :=
  (ts.filter fun t => g.listen t ≠ 0).map fun t => deliveryTo malloc data size k t (firstWithPid k t)

theorem SameSender.deliveriesOf {k' : Kernel} (h : SameSender k k') (ts : List TaskPtr) :
    DiyOS.deliveriesOf g malloc data size k' ts = DiyOS.deliveriesOf g malloc data size k ts := by
  unfold DiyOS.deliveriesOf
  simp only [h.firstWithPid, h.deliveryTo]

/-- A pass over listed tasks sends a message for each that listens to anything. -/
theorem deviceListen_pass (hdevice : device ≠ 0) (hrunning : k.runningTask ≠ null) {ts : List TaskPtr}
    (hts : ∀ t ∈ ts, t ∈ k.tasks) (log : List Delivery) :
    ts.foldl (fun s t => (deviceListen device g (sendToLogged malloc data size) t s).2) (.ok (k, log))
      = .ok ((deliveriesOf g malloc data size k ts).foldl Kernel.post k,
          log ++ deliveriesOf g malloc data size k ts) := by
  induction ts generalizing k log with
  | nil => simp [deliveriesOf]
  | cons t ts ih =>
    obtain ⟨ht, hrest⟩ := List.forall_mem_cons.mp hts
    rw [List.foldl_cons]
    by_cases hlisten : g.listen t ≠ 0
    · have hsame := k.post_sameSender (deliveryTo malloc data size k t (firstWithPid k t))
      have hcons : deliveriesOf g malloc data size k (t :: ts)
          = deliveryTo malloc data size k t (firstWithPid k t) :: deliveriesOf g malloc data size k ts := by
        unfold deliveriesOf
        rw [List.filter_cons_of_pos (by simpa using hlisten), List.map_cons]
      -- what is sent changes no pid, so that the rest of the pass sends what it would have sent
      rw [deviceListen_sends hdevice hlisten, sendToLogged_listed hrunning ht,
        ih (by rw [hsame.runningTask]; exact hrunning) (by rw [hsame.tasks]; exact hrest),
        hsame.deliveriesOf, hcons, List.foldl_cons, List.append_assoc, List.singleton_append]
    · have hskip : deliveriesOf g malloc data size k (t :: ts) = deliveriesOf g malloc data size k ts := by
        unfold deliveriesOf
        rw [List.filter_cons_of_neg (by simpa using hlisten)]
      rw [deviceListen_silent hlisten, hskip]
      exact ih hrunning hrest log

/-- **A broadcast** sends a message for each task that listens to anything, in the order of the list. -/
theorem broadcast_logged (hdevice : device ≠ 0) (hrunning : k.runningTask ≠ null)
    (hlisted : k.runningTask ∈ k.tasks) :
    broadcastLogged device g malloc data size k
      = .ok ((deliveriesOf g malloc data size k k.tasks).foldl Kernel.post k,
          deliveriesOf g malloc data size k k.tasks) := by
  unfold broadcastLogged
  rw [broadcast_eq (List.ne_nil_of_mem hlisted), deviceListen_pass hdevice hrunning fun _ ht => ht,
    List.nil_append]

/-- What the broadcast for `device` should deliver: one message to each task with that bit. -/
def deliveriesFor (device : Nat) (g : KbGlobals) (malloc : TaskPtr → Nat) (data size : Nat)
    (k : Kernel) : List Delivery :=
  (k.tasks.filter fun t => g.listen t &&& device ≠ 0).map fun t => deliveryTo malloc data size k t t

/-- The broadcast delivers this if every task that listens to anything has the bit and can be found. -/
theorem deliveriesOf_eq_iff :
    deliveriesOf g malloc data size k k.tasks = deliveriesFor device g malloc data size k
      ↔ ∀ t ∈ k.tasks, g.listen t ≠ 0 → g.listen t &&& device ≠ 0 ∧ firstWithPid k t = t := by
  -- a task with the bit listens to something
  have hsub : (k.tasks.filter fun t => g.listen t &&& device ≠ 0).Sublist
      (k.tasks.filter fun t => g.listen t ≠ 0) := by
    refine List.monotone_filter_right _ fun t ht => ?_
    simp only [ne_eq, decide_eq_true_eq] at ht ⊢
    exact fun hzero => ht (by rw [hzero, Nat.zero_and])
  constructor
  · intro heq t ht hlisten
    have hlength : (k.tasks.filter fun t => g.listen t &&& device ≠ 0)
        = k.tasks.filter fun t => g.listen t ≠ 0 := by
      refine hsub.eq_of_length ?_
      have hlength := congrArg List.length heq
      rw [deliveriesOf, deliveriesFor, List.length_map, List.length_map] at hlength
      exact hlength.symm
    have hmem : t ∈ k.tasks.filter fun t => g.listen t ≠ 0 :=
      List.mem_filter.mpr ⟨ht, by simpa using hlisten⟩
    have hbit := hmem
    rw [← hlength] at hbit
    rw [deliveriesOf, deliveriesFor, hlength] at heq
    refine ⟨by simpa using (List.mem_filter.mp hbit).2, ?_⟩
    exact congrArg Delivery.task (List.map_inj_left.mp heq t hmem)
  · intro hcond
    have hfilter : (k.tasks.filter fun t => g.listen t ≠ 0)
        = k.tasks.filter fun t => g.listen t &&& device ≠ 0 := by
      refine List.filter_congr fun t ht => ?_
      by_cases hlisten : g.listen t ≠ 0
      · simp [hlisten, (hcond t ht hlisten).1]
      · rw [not_not] at hlisten
        simp [hlisten]
    rw [deliveriesOf, deliveriesFor, ← hfilter]
    refine List.map_congr_left fun t ht => ?_
    obtain ⟨hmem, hlisten⟩ := List.mem_filter.mp ht
    rw [(hcond t hmem (by simpa using hlisten)).2]

end

/-- **Events and listeners.** A task that is running broadcasts a key or a mouse packet. Each task with
`KEYBOARD` in its mask is sent one message of the key and no other task is sent one, and each with `MOUSE`
one of the packet and no other, in the order of the list, if and only if every listed task whose mask is not
zero has both bits in it and is the first task with its pid. A queue that is full drops what is sent. -/
theorem events_reach_iff (g : KbGlobals) (malloc : TaskPtr → Nat) {k : Kernel}
    (hrunning : k.runningTask ≠ null) (hlisted : k.runningTask ∈ k.tasks) (key packet : Nat) :
    ∃ keys packets,
      broadcastLogged keyboard g malloc key 0 k = .ok (keys.foldl Kernel.post k, keys)
        ∧ sendPacket g malloc key k = .ok (keys.foldl Kernel.post k)
        ∧ broadcastLogged mouse g malloc packet mousePacketSize k
          = .ok (packets.foldl Kernel.post k, packets)
        ∧ sendMousePacket g malloc packet k = .ok (packets.foldl Kernel.post k)
        ∧ (keys = deliveriesFor keyboard g malloc key 0 k
            ∧ packets = deliveriesFor mouse g malloc packet mousePacketSize k
          ↔ ∀ t ∈ k.tasks, g.listen t ≠ 0 → g.listen t &&& keyboard ≠ 0 ∧ g.listen t &&& mouse ≠ 0
              ∧ taskFromPid (k.task t).pid k = some t) := by
  have hkeys := @broadcast_logged g malloc keyboard key 0 k (by decide) hrunning hlisted
  have hpackets := @broadcast_logged g malloc mouse packet mousePacketSize k (by decide) hrunning hlisted
  refine ⟨_, _, hkeys, ?_, hpackets, ?_, ?_⟩
  · rw [sendPacket_logged, hkeys]
    rfl
  · rw [sendMousePacket_logged, hpackets]
    rfl
  · rw [deliveriesOf_eq_iff, deliveriesOf_eq_iff]
    have hfound : ∀ t ∈ k.tasks, taskFromPid (k.task t).pid k = some t ↔ firstWithPid k t = t := by
      intro t ht
      rw [taskFromPid_firstWithPid ht, Option.some_inj]
    -- a mask with one bit only is sent the other packets, too
    constructor
    · rintro ⟨hkey, hmouse⟩ t ht hlisten
      exact ⟨(hkey t ht hlisten).1, (hmouse t ht hlisten).1, (hfound t ht).mpr (hkey t ht hlisten).2⟩
    · intro hcond
      refine ⟨fun t ht hlisten => ?_, fun t ht hlisten => ?_⟩
      · obtain ⟨hbit, _, hfirst⟩ := hcond t ht hlisten
        exact ⟨hbit, (hfound t ht).mp hfirst⟩
      · obtain ⟨_, hbit, hfirst⟩ := hcond t ht hlisten
        exact ⟨hbit, (hfound t ht).mp hfirst⟩

/-- The keyboard task 2 runs; task 1 has called `task_listen`. -/
def listenerKernel : Kernel :=
  switchTo 2 (taskAdd 2 (threadCreate 2 1 100 (tasking 1 bootKernel)))

/-- Task 1 listens as the GUI does. -/
theorem events_reach_gui :
    ∃ listen keys, taskListen (keyboard ||| mouse) (switchTo 1 listenerKernel) (fun _ => 0) = .ok listen
      ∧ broadcastLogged keyboard ⟨2, 3, listen⟩ id 0x141 0 listenerKernel
        = .ok (keys.foldl Kernel.post listenerKernel, keys)
      ∧ keys = [⟨1, 1, ⟨1002, 1001, 0x141, 0⟩⟩] := by
  obtain ⟨keys, packets, hkeys, _, _, _, hiff⟩ := events_reach_iff
    ⟨2, 3, Function.update (fun _ => 0) 1 12⟩ id (show listenerKernel.runningTask ≠ null by decide)
    (by decide) 0x141 5
  exact ⟨_, keys, rfl, hkeys, (hiff.mpr (by decide)).1⟩

/-- Task 1 has asked for the timer, and gets the key. -/
theorem key_reaches_timer_listener :
    ∃ listen k keys, taskListen timer (switchTo 1 listenerKernel) (fun _ => 0) = .ok listen
      ∧ broadcastLogged keyboard ⟨2, 3, listen⟩ id 0x141 0 listenerKernel = .ok (k, keys)
      ∧ keys = [⟨1, 1, ⟨1002, 1001, 0x141, 0⟩⟩]
      ∧ deliveriesFor keyboard ⟨2, 3, listen⟩ id 0x141 0 listenerKernel = [] :=
  ⟨_, _, _, rfl, rfl, rfl, rfl⟩

end DiyOS
