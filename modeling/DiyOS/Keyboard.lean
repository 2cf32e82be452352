import DiyOS.Message
import DiyOS.QueueShared

/-!
# The keyboard driver (`drivers/kb.c`)

The interrupt handler appends scancodes to `kb_queue` and wakes the keyboard task, which removes them,
converts each to a key and sends a packet to every listening task.

The keyboard task runs with interrupts enabled, so that a keyboard interrupt can come anywhere in it,
and the timer can switch to a task that reads its messages and back. What two of them work on are the
queues, so each statement of `queue_add` and `queue_remove` is a step of its own, and so are the load
and the store of `q->count++` and `q->count--`; of `sleep_on`, every statement is one. The handler runs
with interrupts disabled and is one step.

* **`convert`** — a scancode to a key, with the modifiers and lock keys seen so far.
* **`kbStep`, `readStep`** — a statement of `keyboad_task`, and one of `message` in some task.
* **`KbStep`** — one of these, or an interrupt.
* **`sendPacket`** — the broadcast as a whole; `sendPacket_statements` is what its statements do when
  nothing comes in between.
-/

namespace DiyOS

open Word

/-! ## The keymap

As the compiler sees it: rows of two characters, and the codes of the keys that have none. -/

def keyReleased : Nat := 0x80
def esc : Nat := 0x1B
def lshift : Nat := 0x2A
def rshift : Nat := 0x36
def ctrl : Nat := 0x1D
def alt : Nat := 0x38
def keyNumLock : Nat := 0x45
def keyScrollLock : Nat := 0x46
def keyCapsLock : Nat := 0x3A

/-- `KEY_F1` to `KEY_F12`. -/
def keyF (n : Nat) : Nat := 0x80 + (n - 1)

def keyIns : Nat := 0x90
def keyDel : Nat := keyIns + 1
def keyHome : Nat := keyDel + 1
def keyEnd : Nat := keyHome + 1
def keyPgup : Nat := keyEnd + 1
def keyPgdn : Nat := keyPgup + 1
def keyLeft : Nat := keyPgdn + 1
def keyUp : Nat := keyLeft + 1
def keyDown : Nat := keyUp + 1
def keyRight : Nat := keyDown + 1
def sysrq : Nat := 0x70
def pscreen : Nat := sysrq + 1
def keyWin : Nat := pscreen + 1
def keyMenu : Nat := keyWin + 1

/-- The key of each scancode, without and with shift. -/
def keymap : List (Nat × Nat) :=
  -- the character constants at 26 and 39 have three bytes, EF BF BD
  [(0, 0), (esc, 0), (49, 33), (50, 64),
   (51, 35), (52, 36), (53, 37), (54, 94),
   (55, 38), (56, 42), (57, 40), (48, 41),
   (45, 95), (61, 43), (8, 8), (9, 0),
   (113, 81), (119, 87), (101, 69), (114, 82),
   (116, 84), (121, 89), (117, 85), (105, 73),
   (111, 79), (112, 80), (0xEFBFBD, 96), (91, 123),
   (10, 0), (47, 63), (97, 65), (115, 83),
   (100, 68), (102, 70), (103, 71), (104, 72),
   (106, 74), (107, 75), (108, 76), (0xEFBFBD, 0xEFBFBD),
   (126, 94), (39, 34), (lshift, 0), (93, 125),
   (122, 90), (120, 88), (99, 67), (118, 86),
   (98, 66), (110, 78), (109, 77), (44, 60),
   (46, 62), (59, 58), (rshift, 0), (0, 0),
   (alt, 0), (32, 32), (0, 0), (keyF 1, keyF 1),
   (keyF 2, keyF 2), (keyF 3, keyF 3), (keyF 4, keyF 4), (keyF 5, keyF 5),
   (keyF 6, keyF 6), (keyF 7, keyF 7), (keyF 8, keyF 8), (keyF 9, keyF 9),
   (keyF 10, keyF 10), (0, 0), (0, 0), (keyHome, 55),
   (keyUp, 56), (keyPgup, 57), (45, 0), (keyLeft, 52),
   (53, 0), (keyRight, 54), (43, 0), (keyEnd, 49),
   (keyDown, 50), (keyPgdn, 51), (keyIns, 48), (keyDel, keyDel),
   (keyF 11, keyF 11), (keyF 12, keyF 12), (92, 124), (10, 10),
   (ctrl, 0), (47, 0), (sysrq, pscreen), (alt, 0),
   (keyHome, 0), (keyUp, 0), (keyPgup, 0), (keyLeft, 0),
   (keyRight, 0), (keyEnd, 0), (keyDown, 0), (keyPgdn, 0),
   (keyIns, 0), (keyDel, 0), (keyWin, 0), (keyWin, 0),
   (keyMenu, 0)]

/-- The number of `int`s in `keymap`, which is twice that of its rows. -/
def keymapSize : Nat := 210

/-! ## `convert`

Modifiers are held, locks are toggled. Both are bits of static variables, so that a scancode is converted by what
came before it. -/

/-- The static variables of `convert`. -/
structure Converter where
  shift : Bool
  alt : Bool
  ctrl : Bool
  num : Bool
  caps : Bool
  scroll : Bool
  deriving DecidableEq

def bootConverter : Converter := ⟨false, false, false, false, false, false⟩

/-- A key, the static variables, and the bytes written to port 0x60. -/
structure Converted where
  key : Nat
  statics : Converter
  written : List Nat

/-- The bytes that set the LEDs. -/
def setLeds (s : Converter) : List Nat :=
  let i := 0
  let i := if s.scroll then i ||| 1 else i
  let i := if s.num then i ||| 2 else i
  let i := if s.caps then i ||| 4 else i
  [0xED, i]

/-- `keymap[code][1]` with shift, and `keymap[code][0]` without. -/
def keymapKey (code : Nat) (s : Converter) : Except Halt Nat :=
  match keymap[code]? with
  | none => .error .undefined
  | some (plain, shifted) => .ok (if s.shift then shifted else plain)

/-- The second `switch` of `convert`. -/
def convertKey (code : Nat) (s : Converter) : Except Halt Converted :=
  if code = keyNumLock then
    let s := { s with num := !s.num }
    .ok ⟨0, s, setLeds s⟩
  else if code = keyScrollLock then
    let s := { s with scroll := !s.scroll }
    .ok ⟨0, s, setLeds s⟩
  else if code = keyCapsLock then
    let s := { s with caps := !s.caps }
    .ok ⟨0, s, setLeds s⟩
  else if code = lshift ∨ code = rshift then .ok ⟨0, { s with shift := true }, []⟩
  else if code = alt then .ok ⟨0, { s with alt := true }, []⟩
  else
    -- the case of `CTRL` falls through
    let s := if code = ctrl then { s with ctrl := true } else s
    match keymapKey code s with
    | .error e => .error e
    | .ok key => .ok ⟨key, s, []⟩

def convert (code : Nat) (s : Converter) : Except Halt Converted :=
  if code ≥ keymapSize then .ok ⟨0, s, []⟩
  else if code &&& keyReleased ≠ 0 then
    let code := code &&& 0x7F
    if code = lshift ∨ code = rshift then .ok ⟨0, { s with shift := false }, []⟩
    else if code = alt then .ok ⟨0, { s with alt := false }, []⟩
    else
      let s := if code = ctrl then { s with ctrl := false } else s
      -- the key of this lookup is replaced in the second `switch`
      match keymapKey code s with
      | .error e => .error e
      | .ok _ => convertKey code s
  else convertKey code s

/-! ## `keyboad_task` and `keyboard_handler`

The program counter stands in front of the next statement. The locals that are used later are its arguments. -/

/-- `KEYBOARD`: a bit of `listen`, and the pid of the keyboard task. -/
def keyboard : Nat := 4

/-- The keyboard task, the address of `kb_wait`, and the field `listen` of each task. -/
structure KbGlobals where
  kbTask : TaskPtr
  kbWait : Nat
  listen : TaskPtr → Nat

/-- The statement of `keyboad_task` that comes next: in `queue_remove(&kb_queue)`, in `task_foreach` with
the tasks that it has still to visit, in `message_to` for a task that listens, or in `sleep_on`. -/
inductive KbPc where
  | remove (pc : RemovePc)
  | convert (scode : Nat)
  | send (packet : Nat)
  | visit (packet : Nat) (tasks : List TaskPtr)
  | add (packet : Nat) (t : TaskPtr) (msg : Nat) (pc : AddPc) (tasks : List TaskPtr)
  | wake (packet : Nat) (t : TaskPtr) (tasks : List TaskPtr)
  | block
  | register
  | timeout
  | schedule
  deriving DecidableEq

/-- The next statement visits a task, which may be given a message. -/
def KbPc.visits : KbPc → Bool
  | .visit _ (_ :: _) => true
  | _ => false

/-- The statement behind one of `queue_remove(&kb_queue)`. -/
def KbPc.afterRemove : RemovePc ⊕ Nat → KbPc
  | .inl pc => .remove pc
  -- `scode` is compared with `NULL`
  | .inr ptr => if u8 ptr = 0 then .block else .convert (u8 ptr)

/-- The statement behind one of `queue_add(&t->message_queue, msg)`. -/
def KbPc.afterAdd (packet : Nat) (t : TaskPtr) (msg : Nat) (tasks : List TaskPtr) : Option AddPc → KbPc
  | some pc => .add packet t msg pc tasks
  | none => .wake packet t tasks

structure Keyboard where
  kernel : Kernel
  kbQueue : Queue
  statics : Converter
  pc : KbPc
  /-- Where each task stands in the `queue_remove` of `message`; before a call, at its test. -/
  reader : TaskPtr → RemovePc

/-- `keyboard_listen`; `malloc t` is the memory for a message to `t`. -/
def keyboardListen (g : KbGlobals) (malloc : TaskPtr → Nat) (data : Nat) (t : TaskPtr)
    (k : Except Halt Kernel) : Bool × Except Halt Kernel :=
  match k with
  | .error e => (false, .error e)
  | .ok k =>
    if g.listen t ≠ 0 ∧ keyboard ≠ 0 then (false, messageTo (malloc t) (k.task t).pid data 0 k)
    else (false, .ok k)

/-- The packet of a scancode with a key. -/
def keyPacket (scode code : Nat) : Nat :=
  let packet := if scode &&& keyReleased ≠ 0 then 0 else 1
  u32 (packet <<< 8) ||| code

/-- `task_foreach(keyboard_listen, packet)`. -/
def sendPacket (g : KbGlobals) (malloc : TaskPtr → Nat) (packet : Nat) (k : Kernel) :
    Except Halt Kernel :=
  match taskForeach k.tasks (keyboardListen g malloc packet) (.ok k) with
  | .error e => .error e
  | .ok (_, k) => k

/-- The statements of `message_to` before `queue_add`: the task with the pid, if there is one, and the
message filled in. -/
def messageFill (msg toPid data size : Nat) (k : Kernel) : Except Halt (Option TaskPtr × Kernel) :=
  match taskFromPid toPid k with
  | none => .ok (none, k)
  | some t =>
    match pid k with
    | .error e => .error e
    | .ok fromPid =>
      .ok (some t, { k with
        message := Function.update k.message msg (some ⟨fromPid, toPid, data, size⟩) })

/-- `k` with the queue `q` in the task at `t`. -/
def Kernel.setMessageQueue (k : Kernel) (t : TaskPtr) (q : Queue) : Kernel :=
  k.setTask t { k.task t with messageQueue := q }

/-- `t->status = TS_READY`. -/
def Kernel.setReady (k : Kernel) (t : TaskPtr) : Kernel := k.setTask t { k.task t with status := .ready }

/-- One statement of `keyboad_task`; `msg` is the memory that `malloc` gives a message. -/
def kbStep (g : KbGlobals) (msg : Nat) (s : Keyboard) : Except Halt Keyboard :=
  let k := switchTo g.kbTask s.kernel
  match s.pc with
  | .remove pc =>
    let r := queueRemoveStep s.kbQueue pc
    .ok { s with
      kbQueue := r.1
      pc := KbPc.afterRemove r.2 }
  | .convert scode =>
    match convert scode s.statics with
    | .error e => .error e
    | .ok c =>
      let code := u8 c.key
      .ok { s with
        statics := c.statics
        pc := if code ≠ 0 then .send (keyPacket scode code) else .remove .test }
  | .send packet =>
    if k.tasks = [] then .error (.panic "tasks != NULL")
    else .ok { s with kernel := k, pc := .visit packet k.tasks }
  | .visit _ [] => .ok { s with pc := .remove .test }
  | .visit packet (t :: ts) =>
    if g.listen t ≠ 0 ∧ keyboard ≠ 0 then
      match messageFill msg (k.task t).pid packet 0 k with
      | .error e => .error e
      | .ok (none, k) => .ok { s with kernel := k, pc := .visit packet ts }
      | .ok (some t', k) => .ok { s with kernel := k, pc := .add packet t' msg .test ts }
    else .ok { s with kernel := k, pc := .visit packet ts }
  | .add packet t msg pc ts =>
    let r := queueAddStep (k.task t).messageQueue msg pc
    .ok { s with
      kernel := k.setMessageQueue t r.1
      pc := KbPc.afterAdd packet t msg ts r.2 }
  | .wake packet t ts => .ok { s with kernel := k.setReady t, pc := .visit packet ts }
  | .block =>
    .ok { s with kernel := k.setTask g.kbTask { k.task g.kbTask with status := .blocked }, pc := .register }
  | .register =>
    .ok { s with
      kernel := { k with
        waitQueue := Function.update k.waitQueue g.kbWait (queueAdd (k.waitQueue g.kbWait) g.kbTask) }
      pc := .timeout }
  | .timeout =>
    .ok { s with kernel := k.setTask g.kbTask { k.task g.kbTask with timeout := 0 }, pc := .schedule }
  -- `schedule` returns
  | .schedule => .ok { s with pc := .remove .test }

/-- One statement of `message` in the task `caller`, with the pointer if it returns. -/
def readStep (caller : TaskPtr) (s : Keyboard) : Option Nat × Keyboard :=
  let k := switchTo caller s.kernel
  let r := queueRemoveStep (k.task caller).messageQueue (s.reader caller)
  (r.2.getRight?, { s with
    kernel := k.setMessageQueue caller r.1
    reader := Function.update s.reader caller (r.2.getLeft?.getD .test) })

/-- The interrupt handler, with the byte it reads. -/
def keyboardHandler (g : KbGlobals) (code : Nat) (s : Keyboard) : Keyboard :=
  { s with kbQueue := queueAdd s.kbQueue code, kernel := wakeUp g.kbWait s.kernel }

/-- `kb`; the arrays of its two queues are what `malloc` left in `data` and `data'`. -/
def kb (g : KbGlobals) (data data' : Nat → Nat) (k : Kernel) : Keyboard :=
  let k := threadCreate g.kbTask 1 100 k
  let k := { k with waitQueue := Function.update k.waitQueue g.kbWait (queueInit data' 8) }
  -- the pid is forced
  let k := taskAdd g.kbTask (k.setTask g.kbTask { k.task g.kbTask with pid := keyboard })
  ⟨k, queueInit data 16, bootConverter, .remove .test, fun _ => .test⟩

/-! ## Steps

The keyboard task takes a step, another task reads its messages, or the keyboard interrupts. Nothing is asked of
an interrupt, since the task runs with interrupts enabled. -/

/-- A read comes with what `message` returns, if the statement is the last one. -/
inductive KbEvent where
  | task
  | interrupt (code : Nat)
  | read (caller : TaskPtr) (ret : Option Nat)

/-- Each address is memory for one message. -/
structure FreshMessages (malloc : TaskPtr → Nat) (k : Kernel) : Prop where
  ne_null : ∀ t, malloc t ≠ null
  fresh : ∀ t, k.message (malloc t) = none
  injective : Function.Injective malloc

/-- A statement of the keyboard task (`schedule` returns to a task that is ready, and `malloc` gives
memory that holds no message), an interrupt with any byte, or a statement of `message` in some task. -/
inductive KbStep (g : KbGlobals) : Keyboard → KbEvent → Keyboard → Prop where
  | task {s s' : Keyboard} {msg : Nat}
      (hready : s.pc = .schedule → (s.kernel.task g.kbTask).status = .ready)
      (hmalloc : s.pc.visits = true → msg ≠ null ∧ s.kernel.message msg = none)
      (hcall : kbStep g msg s = .ok s') :
      KbStep g s .task s'
  | interrupt {s : Keyboard} {code : Nat} (hbyte : code < 256) :
      KbStep g s (.interrupt code) (keyboardHandler g code s)
  | read {s : Keyboard} {caller : TaskPtr} (hcaller : caller ≠ null) :
      KbStep g s (.read caller (readStep caller s).1) (readStep caller s).2

/-- A statement that neither returns from `schedule` nor allocates a message. -/
theorem KbStep.plain {g : KbGlobals} {s s' : Keyboard} (hpc : s.pc ≠ .schedule)
    (hvisits : s.pc.visits = false) (hcall : kbStep g null s = .ok s') : KbStep g s .task s' :=
  KbStep.task (fun heq => absurd heq hpc) (by simp [hvisits]) hcall

/-! ## The broadcast as a whole

Where nothing comes in between, the statements of the broadcast can be run one after the other. The lemmas go
from the inside out: `queue_add`, `message_to`, one task, all tasks. -/

/-- `message_to` fills a message in, puts it into the queue and wakes the task. -/
theorem messageTo_eq (msg toPid data size : Nat) (k : Kernel) :
    messageTo msg toPid data size k =
      match messageFill msg toPid data size k with
      | .error e => .error e
      | .ok (none, k) => .ok k
      | .ok (some t, k) =>
        .ok ((k.setMessageQueue t (queueAdd (k.task t).messageQueue msg)).setReady t) := by
  unfold messageTo messageFill
  cases taskFromPid toPid k with
  | none => rfl
  | some t =>
    cases pid k with
    | error e => rfl
    | ok fromPid => rfl

section

variable {g : KbGlobals} {malloc : TaskPtr → Nat} {s₀ s : Keyboard} {k k' : Kernel}
  {tr : List (Transition Keyboard KbEvent)}

/-- The run `tr` goes on with statements of the keyboard task only. -/
def GoesOn (g : KbGlobals) (s₀ : Keyboard) (tr : List (Transition Keyboard KbEvent)) (s : Keyboard) : Prop :=
  ∃ tr', Run (KbStep g) s₀ (tr ++ tr') s ∧ ∀ τ ∈ tr', τ.event = .task

theorem GoesOn.refl (hrun : Run (KbStep g) s₀ tr s) : GoesOn g s₀ tr s :=
  ⟨[], by rwa [List.append_nil], List.forall_mem_nil _⟩

theorem GoesOn.snoc {s' : Keyboard} (h : GoesOn g s₀ tr s) (hstep : KbStep g s .task s') : GoesOn g s₀ tr s' := by
  obtain ⟨tr', hrun, hall⟩ := h
  refine ⟨tr' ++ [⟨s, .task, s'⟩], ?_, ?_⟩
  · rw [← List.append_assoc]
    exact hrun.snoc hstep
  · rw [List.forall_mem_append, List.forall_mem_singleton]
    exact ⟨hall, rfl⟩

@[simp] theorem Kernel.setMessageQueue_task (k : Kernel) (t : TaskPtr) (q : Queue) :
    (k.setMessageQueue t q).task t = { k.task t with messageQueue := q } := by
  simp [Kernel.setMessageQueue]

@[simp] theorem Kernel.setMessageQueue_twice (k : Kernel) (t : TaskPtr) (q q' : Queue) :
    (k.setMessageQueue t q).setMessageQueue t q' = k.setMessageQueue t q' := by
  simp [Kernel.setMessageQueue, Kernel.setTask]

section

variable {q q' kbQueue : Queue} {statics : Converter} {reader : TaskPtr → RemovePc} {packet msg m : Nat}
  {t : TaskPtr} {ts : List TaskPtr}

/-- One statement of `queue_remove(&kb_queue)`. -/
theorem kbStep_remove {r : RemovePc} {next : RemovePc ⊕ Nat} (hstep : queueRemoveStep q r = (q', next)) :
    kbStep g m ⟨k, q, statics, .remove r, reader⟩ = .ok ⟨k, q', statics, KbPc.afterRemove next, reader⟩ := by
  simp only [kbStep, hstep]

/-- One statement of `queue_add` on the message queue of `t`. -/
theorem kbStep_add {pc : AddPc} {next : Option AddPc}
    (hstep : queueAddStep (k.task t).messageQueue msg pc = (q', next)) :
    kbStep g m ⟨k, kbQueue, statics, .add packet t msg pc ts, reader⟩
      = .ok ⟨(switchTo g.kbTask k).setMessageQueue t q', kbQueue, statics, KbPc.afterAdd packet t msg ts next,
        reader⟩ := by
  simp only [kbStep, switchTo, hstep]

theorem switchTo_self (h : k.runningTask = g.kbTask) : switchTo g.kbTask k = k := by
  rw [← h]
  rfl

end

/-- What `message_to` has done before `queue_add`. -/
theorem messageFill_cases {msg toPid data size : Nat} {r : Option TaskPtr}
    (h : messageFill msg toPid data size k = .ok (r, k')) :
    taskFromPid toPid k = none ∧ r = none ∧ k' = k
      ∨ ∃ t, taskFromPid toPid k = some t ∧ r = some t ∧ k' = { k with
        message := Function.update k.message msg (some ⟨(k.task k.runningTask).pid, toPid, data, size⟩) } := by
  unfold messageFill pid at h
  split at h
  · next hnone =>
    obtain ⟨rfl, rfl⟩ := Prod.mk.inj (Except.ok.inj h)
    exact Or.inl ⟨hnone, rfl, rfl⟩
  · next t ht =>
    split at h
    · cases h
    · next hpid =>
      split at hpid
      · cases hpid
      · obtain rfl := Except.ok.inj hpid
        obtain ⟨rfl, rfl⟩ := Prod.mk.inj (Except.ok.inj h)
        exact Or.inr ⟨t, ht, rfl, rfl⟩

section

variable {kbQueue : Queue} {statics : Converter} {reader : TaskPtr → RemovePc} {packet msg : Nat}
  {t : TaskPtr} {ts : List TaskPtr}

theorem GoesOn.addStep {q q' : Queue} {pc : AddPc} {next : Option AddPc}
    (h : GoesOn g s₀ tr ⟨k.setMessageQueue t q, kbQueue, statics, .add packet t msg pc ts, reader⟩)
    (hrunning : k.runningTask = g.kbTask) (hstep : queueAddStep q msg pc = (q', next)) :
    GoesOn g s₀ tr ⟨k.setMessageQueue t q', kbQueue, statics, KbPc.afterAdd packet t msg ts next, reader⟩ := by
  refine h.snoc (KbStep.plain (by simp) rfl ?_)
  rw [@kbStep_add g (k.setMessageQueue t q) q' _ _ _ _ _ _ _ _ pc next (by simpa using hstep),
    @switchTo_self g (k.setMessageQueue t q) hrunning, Kernel.setMessageQueue_twice]

/-- The statements of `queue_add` and the one behind it, for a message that is filled in. -/
theorem GoesOn.add (h : GoesOn g s₀ tr ⟨k, kbQueue, statics, .add packet t msg .test ts, reader⟩)
    (hrunning : k.runningTask = g.kbTask) :
    GoesOn g s₀ tr ⟨(k.setMessageQueue t (queueAdd (k.task t).messageQueue msg)).setReady t, kbQueue, statics,
      .visit packet ts, reader⟩ := by
  have hsame : k = k.setMessageQueue t (k.task t).messageQueue := by
    simp [Kernel.setMessageQueue, Kernel.setTask]
  have hwake : ∀ q : Queue, KbStep g ⟨k.setMessageQueue t q, kbQueue, statics, .wake packet t ts, reader⟩ .task
      ⟨(k.setMessageQueue t q).setReady t, kbQueue, statics, .visit packet ts, reader⟩ := by
    intro q
    refine KbStep.plain (by simp) rfl ?_
    have hself := @switchTo_self g (k.setMessageQueue t q) hrunning
    simp only [kbStep, hself]
  rw [hsame] at h
  by_cases hroom : queueSize (k.task t).messageQueue < (k.task t).messageQueue.size
  · have htest := h.addStep hrunning (queueAddStep_of_room hroom msg)
    have hreset := GoesOn.addStep htest hrunning rfl
    have hwrite := GoesOn.addStep hreset hrunning rfl
    have hload := GoesOn.addStep hwrite hrunning rfl
    have hstore := GoesOn.addStep hload hrunning rfl
    rw [queueAdd_statements hroom]
    exact hstore.snoc (hwake _)
  · have htest := h.addStep hrunning (queueAddStep_of_full hroom msg)
    rw [queueAdd, if_neg hroom]
    exact htest.snoc (hwake _)

/-- A pass over the tasks by statements is a pass as a whole, while each task that listens is given
memory of its own. -/
theorem GoesOn.visit (h : GoesOn g s₀ tr ⟨k, kbQueue, statics, .visit packet ts, reader⟩)
    (hrunning : k.runningTask = g.kbTask) (hnodup : ts.Nodup) (hinjective : Function.Injective malloc)
    (hmalloc : ∀ t ∈ ts, malloc t ≠ null ∧ k.message (malloc t) = none)
    (hcall : ts.foldl (fun r t => (keyboardListen g malloc packet t r).2) (.ok k) = .ok k') :
    GoesOn g s₀ tr ⟨k', kbQueue, statics, .remove .test, reader⟩ := by
  induction ts generalizing k with
  | nil =>
    obtain rfl := Except.ok.inj hcall
    exact h.snoc (KbStep.plain (by simp) rfl rfl)
  | cons t ts ih =>
    obtain ⟨hnotin, hnodup⟩ := List.nodup_cons.mp hnodup
    obtain ⟨hnull, hfresh⟩ := hmalloc t List.mem_cons_self
    have hrest : ∀ t' ∈ ts, malloc t' ≠ null ∧ k.message (malloc t') = none :=
      fun t' ht' => hmalloc t' (List.mem_cons_of_mem _ ht')
    have hself := switchTo_self hrunning
    have hstep : ∀ {s'}, kbStep g (malloc t) ⟨k, kbQueue, statics, .visit packet (t :: ts), reader⟩ = .ok s' →
        GoesOn g s₀ tr s' :=
      fun hcall => h.snoc (KbStep.task (by simp) (fun _ => ⟨hnull, hfresh⟩) hcall)
    rw [List.foldl_cons] at hcall
    by_cases hlisten : g.listen t ≠ 0 ∧ keyboard ≠ 0
    · have hto : (keyboardListen g malloc packet t (.ok k)).2 = messageTo (malloc t) (k.task t).pid packet 0 k := by
        simp [keyboardListen, hlisten]
      rw [hto, messageTo_eq] at hcall
      cases hfill : messageFill (malloc t) (k.task t).pid packet 0 k with
      | error e =>
        -- a call that does not return ends the pass
        have herror : ∀ ts, List.foldl (fun r t => (keyboardListen g malloc packet t r).2) (.error e) ts
            = .error e := by
          intro ts
          induction ts with
          | nil => rfl
          | cons t ts ih => exact ih
        rw [hfill] at hcall
        exact absurd (hcall.symm.trans (herror ts)) (by simp)
      | ok r =>
        obtain ⟨r, k₁⟩ := r
        rw [hfill] at hcall
        rcases messageFill_cases hfill with ⟨_, rfl, rfl⟩ | ⟨t', _, rfl, hk₁⟩
        · refine ih (hstep ?_) hrunning hnodup hrest hcall
          simp only [kbStep, hself, if_pos hlisten, hfill]
        · have hrunning₁ : k₁.runningTask = g.kbTask := by
            rw [hk₁]
            exact hrunning
          refine ih (GoesOn.add (hstep ?_) hrunning₁) hrunning₁ hnodup ?_ hcall
          · simp only [kbStep, hself, if_pos hlisten, hfill]
          · -- the memory of the tasks behind `t` holds no message yet
            rw [hk₁]
            intro t₂ ht₂
            have hne : malloc t₂ ≠ malloc t := fun heq => hnotin (hinjective heq ▸ ht₂)
            exact ⟨(hrest t₂ ht₂).1, (Function.update_of_ne hne _ _).trans (hrest t₂ ht₂).2⟩
    · have hskip : (keyboardListen g malloc packet t (.ok k)).2 = .ok k := by
        simp [keyboardListen, hlisten]
      rw [hskip] at hcall
      refine ih (hstep ?_) hrunning hnodup hrest hcall
      simp only [kbStep, hself, if_neg hlisten]

/-- **The broadcast.** With nothing in between, the statements of `task_foreach` for a packet lead where
`sendPacket` leads. -/
theorem sendPacket_statements (hmalloc : FreshMessages malloc k) (hnodup : k.tasks.Nodup)
    (hrun : Run (KbStep g) s₀ tr ⟨k, kbQueue, statics, .send packet, reader⟩)
    (hcall : sendPacket g malloc packet (switchTo g.kbTask k) = .ok k') :
    ∃ tr', Run (KbStep g) s₀ (tr ++ tr') ⟨k', kbQueue, statics, .remove .test, reader⟩
      ∧ ∀ τ ∈ tr', τ.event = .task := by
  -- the iterator never returns true, so that the pass is a fold over the tasks
  have hiter : keyboardListen g malloc packet = fun t r => (false, (keyboardListen g malloc packet t r).2) := by
    funext t r
    unfold keyboardListen
    split
    · rfl
    · split <;> rfl
  have hpass := taskIterate_all (fun t r => (keyboardListen g malloc packet t r).2) k.tasks
    (.ok (switchTo g.kbTask k))
  rw [← hiter] at hpass
  unfold sendPacket at hcall
  split at hcall
  · cases hcall
  · next r hr =>
    have hne : k.tasks ≠ [] := by
      rintro heq
      unfold taskForeach at hr
      rw [show (switchTo g.kbTask k).tasks = [] from heq, if_pos rfl] at hr
      cases hr
    have heq := (taskForeach_ok hr).trans hpass
    obtain ⟨rfl, rfl⟩ := Prod.mk.inj heq
    have hsend : kbStep g null ⟨k, kbQueue, statics, .send packet, reader⟩
        = .ok ⟨switchTo g.kbTask k, kbQueue, statics, .visit packet k.tasks, reader⟩ := by
      unfold kbStep
      exact if_neg hne
    have hvisit := (GoesOn.refl hrun).snoc (KbStep.plain (by simp) rfl hsend)
    exact hvisit.visit rfl hnodup hmalloc.injective (fun t _ => ⟨hmalloc.ne_null t, hmalloc.fresh t⟩) hcall

end

end

/-! ## Runs that are computed

A run of many statements is too long to be written down. `KeyMove` says which program moves, and `keyRun`
computes the run and the state that it ends in. -/

/-- What comes next: a statement of the keyboard task, with the memory that `malloc` gives, an interrupt,
or a statement of `message`. -/
inductive KeyMove where
  | task (msg : Nat)
  | interrupt (code : Nat)
  | read (caller : TaskPtr)

/-- The step of a move, if it is one. -/
def KeyMove.step (g : KbGlobals) (s : Keyboard) : KeyMove → Option (KbEvent × Keyboard)
  | .task msg =>
    if (s.pc = .schedule → (s.kernel.task g.kbTask).status = .ready)
        ∧ (s.pc.visits = true → msg ≠ null ∧ s.kernel.message msg = none) then
      match kbStep g msg s with
      | .error _ => none
      | .ok s' => some (.task, s')
    else none
  | .interrupt code => if code < 256 then some (.interrupt code, keyboardHandler g code s) else none
  | .read caller => if caller ≠ null then some (.read caller (readStep caller s).1, (readStep caller s).2) else none

/-- What is computed is a step. -/
theorem KeyMove.step_sound {g : KbGlobals} {s s' : Keyboard} {m : KeyMove} {e : KbEvent}
    (h : m.step g s = some (e, s')) : KbStep g s e s' := by
  cases m with
  | task msg =>
    simp only [KeyMove.step] at h
    split at h
    · next hlegal =>
      cases hcall : kbStep g msg s with
      | error e => simp [hcall] at h
      | ok s₁ =>
        simp only [hcall, Option.some.injEq, Prod.mk.injEq] at h
        obtain ⟨rfl, rfl⟩ := h
        exact KbStep.task hlegal.1 hlegal.2 hcall
    · cases h
  | interrupt code =>
    simp only [KeyMove.step, Option.ite_none_right_eq_some, Option.some.injEq, Prod.mk.injEq] at h
    obtain ⟨hbyte, rfl, rfl⟩ := h
    exact KbStep.interrupt hbyte
  | read caller =>
    simp only [KeyMove.step, Option.ite_none_right_eq_some, Option.some.injEq, Prod.mk.injEq] at h
    obtain ⟨hcaller, rfl, rfl⟩ := h
    exact KbStep.read hcaller

/-- The run of the moves behind `tr`, if each is a step. -/
def keyRun (g : KbGlobals) : List KeyMove → List (Transition Keyboard KbEvent) → Keyboard →
    Option (List (Transition Keyboard KbEvent) × Keyboard)
  | [], tr, s => some (tr, s)
  | m :: ms, tr, s =>
    match m.step g s with
    | none => none
    | some (e, s') => keyRun g ms (tr ++ [⟨s, e, s'⟩]) s'

/-- **The run.** What is computed is a run. -/
theorem keyRun_sound {g : KbGlobals} {s₀ s : Keyboard} {tr : List (Transition Keyboard KbEvent)} (ms : List KeyMove)
    (hrun : Run (KbStep g) s₀ tr s) (h : (keyRun g ms tr s).isSome) :
    Run (KbStep g) s₀ ((keyRun g ms tr s).get h).1 ((keyRun g ms tr s).get h).2 := by
  induction ms generalizing tr s with
  | nil => exact hrun
  | cons m ms ih =>
    cases hstep : m.step g s with
    | none =>
      unfold keyRun at h
      rw [hstep] at h
      cases h
    | some r =>
      obtain ⟨e, s'⟩ := r
      have hnext : keyRun g (m :: ms) tr s = keyRun g ms (tr ++ [⟨s, e, s'⟩]) s' := by
        rw [keyRun, hstep]
      simp only [hnext]
      exact ih (hrun.snoc (KeyMove.step_sound hstep)) (hnext ▸ h)

/-! ## Three tasks

The state that the runs begin in. -/

/-- The keyboard task is task 2, and task 3 listens. -/
def keyGlobals : KbGlobals := ⟨2, 0, fun t => if t = 3 then keyboard else 0⟩

/-- The idle task, the keyboard task before its loop, and task 3. -/
def keyBoot : Keyboard :=
  let s := kb keyGlobals (fun _ => 0) (fun _ => 0) (tasking 1 bootKernel)
  { s with kernel := taskAdd 3 (threadCreate 3 1 100 s.kernel) }

end DiyOS
