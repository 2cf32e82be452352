import DiyOS.Keyboard

/-!
# The mouse driver and the 8042 controller (`drivers/mouse.c`)

The keyboard and the mouse share one output buffer, which both interrupt handlers read from port 0x60.
Bit 5 of the status at port 0x64 tells whether the byte at its head comes from the mouse. The handlers
run with interrupts disabled, one at a time; bytes can arrive between any two of their statements.

* **`mouseDecode`** — the `switch` of `mouse_handler`, which assembles packets of three bytes.
* **`portStep`** — a statement of a handler.
* **`PortStep`** — the arrival of a byte, the start of a handler, one of its statements, or a step of
  a task.
-/

namespace DiyOS

open Word

/-! ## Packets

A packet is three bytes; `cicle` counts them. It is a variable of the call, so that a packet which arrives in two
interrupts is lost. -/

/-- `struct mouse_packet`, as bytes. -/
structure MousePacket where
  flags : Nat
  dx : Nat
  dy : Nat
  dz : Nat
  deriving DecidableEq

/-- The packet that `pkt` points to, the packets that have been allocated, and `mouse_queue`. -/
structure Mouse where
  pkt : MousePacket
  packet : Nat → Option MousePacket
  mouseQueue : Queue

/-- The `switch` of `mouse_handler`, with memory for a packet. The second component is the new value of
`cicle`, and `none` where the handler returns. -/
def mouseDecode (malloc cicle mouseIn : Nat) (m : Mouse) : Mouse × Option Nat :=
  match cicle with
  | 0 =>
    let m := { m with pkt := { m.pkt with flags := mouseIn } }
    if mouseIn &&& 0x08 = 0 then (m, none) else (m, some 1)
  | 1 => ({ m with pkt := { m.pkt with dx := mouseIn } }, some 2)
  | 2 =>
    let m := { m with pkt := { m.pkt with dy := mouseIn } }
    -- on an overflow `goto read_next` skips the assignment to `cicle`
    if m.pkt.flags &&& 0x80 ≠ 0 ∨ m.pkt.flags &&& 0x40 ≠ 0 then (m, some 2)
    else
      ({ m with
        packet := Function.update m.packet malloc (some m.pkt)
        mouseQueue := queueAdd m.mouseQueue malloc }, some 0)
  | _ => (m, some cicle)

/-! ## The controller

The ports are the only place where keyboard and mouse meet. -/

inductive Device where
  | keyboard
  | mouse
  deriving DecidableEq

/-- The output buffer, oldest byte first, and the byte read last. -/
structure Controller where
  buffer : List (Device × Nat)
  last : Nat

/-- Bit 0 for a byte that waits, and bit 5 for one from the mouse. -/
def Device.status : Device → Nat
  | .keyboard => 0x01
  | .mouse => 0x21

/-- `inportb(0x64)`. -/
def Controller.status (c : Controller) : Nat :=
  match c.buffer with
  | [] => 0
  | (d, _) :: _ => d.status

/-- `inportb(0x60)`. With no byte in the buffer the port gives the byte read last. -/
def Controller.data (c : Controller) : Nat × Controller :=
  match c.buffer with
  | [] => (c.last, c)
  | (_, b) :: rest => (b, ⟨rest, b⟩)

/-! ## The handlers

What each statement does to the ports and the queues. A byte that arrives meanwhile is a step of its own. -/

/-- The statement that comes next: of `keyboard_handler` the read of port 0x60, `queue_add` and
`wake_up`, and of `mouse_handler` the read of the status, the test of the loop with the read of port
0x60, the `switch`, and `wake_up`. -/
inductive HandlerPc where
  | idle
  | kbRead
  | kbAdd (code : Nat)
  | kbWake
  | status (cicle : Nat)
  | test (status cicle : Nat)
  | decode (cicle mouseIn : Nat)
  | mouseWake
  deriving DecidableEq

structure Ports where
  controller : Controller
  keyboard : Keyboard
  mouse : Mouse
  pc : HandlerPc

/-- One statement of the handler that runs; `mouseWait` is the address of `mouse_wait`, and `malloc`
the memory for a packet. -/
def portStep (g : KbGlobals) (mouseWait malloc : Nat) (s : Ports) : Ports :=
  match s.pc with
  | .idle => s
  | .kbRead => { s with controller := s.controller.data.2, pc := .kbAdd s.controller.data.1 }
  | .kbAdd code =>
    { s with keyboard := { s.keyboard with kbQueue := queueAdd s.keyboard.kbQueue code }, pc := .kbWake }
  | .kbWake =>
    { s with keyboard := { s.keyboard with kernel := wakeUp g.kbWait s.keyboard.kernel }, pc := .idle }
  | .status cicle => { s with pc := .test s.controller.status cicle }
  | .test status cicle =>
    if status &&& 0x01 ≠ 0 then
      { s with
        controller := s.controller.data.2
        pc := if status &&& 0x20 ≠ 0 then .decode cicle s.controller.data.1 else .status cicle }
    else { s with pc := .mouseWake }
  | .decode cicle mouseIn =>
    { s with
      mouse := (mouseDecode malloc cicle mouseIn s.mouse).1
      pc := match (mouseDecode malloc cicle mouseIn s.mouse).2 with
        | none => .idle
        | some cicle => .status cicle }
  | .mouseWake =>
    { s with keyboard := { s.keyboard with kernel := wakeUp mouseWait s.keyboard.kernel }, pc := .idle }

inductive PortEvent where
  | arrive (d : Device) (b : Nat)
  | keyboardHandler
  | mouseHandler
  | statement
  | tasks

/-- A byte arrives at any time; a handler starts where none runs; and only there do the tasks run,
which can leave anything in their queues and records. -/
inductive PortStep (g : KbGlobals) (mouseWait : Nat) : Ports → PortEvent → Ports → Prop where
  | arrive {s : Ports} (d : Device) {b : Nat} (hbyte : b < 256) :
      PortStep g mouseWait s (.arrive d b)
        { s with controller := { s.controller with buffer := s.controller.buffer ++ [(d, b)] } }
  | keyboardHandler {s : Ports} (hidle : s.pc = .idle) :
      PortStep g mouseWait s .keyboardHandler { s with pc := .kbRead }
  | mouseHandler {s : Ports} (hidle : s.pc = .idle) :
      PortStep g mouseWait s .mouseHandler { s with pc := .status 0 }
  | statement {s : Ports} {malloc : Nat} (hmalloc : malloc ≠ null) :
      PortStep g mouseWait s .statement (portStep g mouseWait malloc s)
  | tasks {s : Ports} (hidle : s.pc = .idle) (keyboard : Keyboard) (mouse : Mouse) :
      PortStep g mouseWait s .tasks { s with keyboard := keyboard, mouse := mouse }

end DiyOS
