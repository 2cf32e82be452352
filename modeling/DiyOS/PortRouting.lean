import DiyOS.Mouse
import DiyOS.Lib.Run

/-!
# The two devices at one port

Neither handler looks at bit 5 of the status before it reads port 0x60: `keyboard_handler` does not
read the status, and `mouse_handler` drops a byte that is not from the mouse.

* **`Routed`** — a byte that leaves the buffer goes to `kb_queue` or to the packet decoder, as its
  device demands.
* **`bytes_routed_iff`** — over any run, every byte is routed if and only if each read finds a byte of
  the handler's own device at the head of the buffer.
-/

namespace DiyOS

open Word

/-- The byte that leaves the buffer. -/
def taken (τ : Transition Ports PortEvent) : Option (Device × Nat) :=
  if τ.post.controller.buffer.length < τ.pre.controller.buffer.length then τ.pre.controller.buffer.head?
  else none

/-- A byte of the keyboard that leaves the buffer is added to `kb_queue` next, and one of the mouse goes
into the `switch` of the decoder. -/
def Routed (τ : Transition Ports PortEvent) : Prop :=
  ∀ d b, taken τ = some (d, b) →
    match d with
    | .keyboard => τ.post.pc = .kbAdd b
    | .mouse => ∃ cicle, τ.post.pc = .decode cicle b

/-- A read of port 0x60 finds a byte of the device whose handler reads it, or no byte. -/
def ReadsOwn (τ : Transition Ports PortEvent) : Prop :=
  τ.event = .statement → ∀ d b, τ.pre.controller.buffer.head? = some (d, b) →
    match τ.pre.pc with
    | .kbRead => d = .keyboard
    | .test status _ => status &&& 0x01 ≠ 0 → d = .mouse
    | .idle | .kbAdd _ | .kbWake | .status _ | .decode _ _ | .mouseWake => True

/-- The statements of `mouse_handler` before its `wake_up`. -/
def HandlerPc.mouseLoop : HandlerPc → Bool
  | .status _ | .test _ _ | .decode _ _ => true
  | .idle | .kbRead | .kbAdd _ | .kbWake | .mouseWake => false

/-- `keyboard_handler` starts with a byte of the keyboard at the head, `mouse_handler` starts with none
in the buffer, and none arrives while it reads. -/
def OwnInterrupts (τ : Transition Ports PortEvent) : Prop :=
  match τ.event with
  | .arrive d _ => τ.pre.pc.mouseLoop = true → d = .mouse
  | .keyboardHandler => ∃ b, τ.pre.controller.buffer.head? = some (.keyboard, b)
  | .mouseHandler => ∀ x ∈ τ.pre.controller.buffer, x.1 = .mouse
  | .statement | .tasks => True

/-! ## The status

`StatusInv` says that a handler which has read a status still sees the same byte: bytes arrive behind the others. -/

/-- The status that `mouse_handler` has read, if it shows a byte, is that of the byte at the head. -/
def StatusInv (s : Ports) : Prop :=
  ∀ status cicle, s.pc = .test status cicle → status &&& 0x01 ≠ 0 →
    s.controller.buffer ≠ [] ∧ status = s.controller.status

section

variable {g : KbGlobals} {mouseWait : Nat} {s s' : Ports} {e : PortEvent}

/-- A byte that arrives leaves the head. -/
theorem Controller.status_append {c : Controller} (h : c.buffer ≠ []) (x : Device × Nat) :
    Controller.status { c with buffer := c.buffer ++ [x] } = c.status := by
  rcases c with ⟨buffer, last⟩
  cases buffer with
  | nil => exact absurd rfl h
  | cons y rest => rfl

theorem Controller.status_cons {c : Controller} {d : Device} {b : Nat} {rest : List (Device × Nat)}
    (h : c.buffer = (d, b) :: rest) : c.status = d.status := by
  unfold Controller.status
  rw [h]

theorem Controller.data_cons {c : Controller} {d : Device} {b : Nat} {rest : List (Device × Nat)}
    (h : c.buffer = (d, b) :: rest) : c.data = (b, ⟨rest, b⟩) := by
  unfold Controller.data
  rw [h]

theorem StatusInv.step (h : StatusInv s) (hstep : PortStep g mouseWait s e s') : StatusInv s' := by
  cases hstep with
  | arrive d hbyte =>
    intro status cicle hpc hbit
    rcases h status cicle hpc hbit with ⟨hne, heq⟩
    refine ⟨List.append_ne_nil_of_left_ne_nil hne _, ?_⟩
    rw [heq]
    exact (Controller.status_append hne _).symm
  | keyboardHandler hidle => exact fun _ _ hpc => by cases hpc
  | mouseHandler hidle => exact fun _ _ hpc => by cases hpc
  | tasks hidle keyboard mouse => exact h
  | @statement malloc hmalloc =>
    rcases s with ⟨c, keyboard, mouse, pc⟩
    cases pc with
    | status cicle =>
      -- the status has just been read
      intro status cicle' hpc hbit
      rcases HandlerPc.test.inj hpc with ⟨rfl, rfl⟩
      refine ⟨?_, rfl⟩
      intro hempty
      refine hbit ?_
      show c.status &&& 1 = 0
      unfold Controller.status
      rw [show c.buffer = [] from hempty]
      rfl
    | test status cicle =>
      unfold portStep
      intro status' cicle' hpc
      simp only at hpc
      split at hpc
      · split at hpc
        · cases hpc
        · cases hpc
      · cases hpc
    | decode cicle mouseIn =>
      unfold portStep
      intro status' cicle' hpc
      simp only at hpc
      split at hpc
      · cases hpc
      · cases hpc
    | idle => exact h
    | kbRead | kbAdd | kbWake | mouseWake => exact fun _ _ hpc => by cases hpc

/-! ## One step

A byte is routed to the wrong queue where a handler reads the port without looking at the status, or does not
find what it has seen. -/

/-- A statement that leaves the buffer takes no byte. -/
theorem routed_of_keeps {malloc : Nat} (h : (portStep g mouseWait malloc s).controller = s.controller) :
    Routed ⟨s, .statement, portStep g mouseWait malloc s⟩ := by
  intro d b htaken
  unfold taken at htaken
  rw [h, if_neg (Nat.lt_irrefl _)] at htaken
  cases htaken

/-- `kb_handler` queues whatever it reads. -/
theorem routed_kbRead (hpc : s.pc = .kbRead) (malloc : Nat) :
    Routed ⟨s, .statement, portStep g mouseWait malloc s⟩
      ↔ ReadsOwn ⟨s, .statement, portStep g mouseWait malloc s⟩ := by
  rcases s with ⟨c, keyboard, mouse, pc⟩
  obtain rfl : pc = .kbRead := hpc
  -- without a byte the port gives the one read last, and nothing is taken out
  cases hbuffer : c.buffer with
  | nil =>
    refine iff_of_true (routed_of_keeps ?_) ?_
    · show c.data.2 = c
      unfold Controller.data
      rw [hbuffer]
    · intro _ d b hhead
      have hnone : c.buffer.head? = some (d, b) := hhead
      rw [hbuffer] at hnone
      cases hnone
  | cons x rest =>
    rcases x with ⟨d, b⟩
    have hdata := Controller.data_cons hbuffer
    unfold Routed ReadsOwn taken portStep
    simp only [hdata, hbuffer, List.length_cons, Nat.lt_succ_self, if_true, List.head?_cons,
      Option.some.injEq, Prod.mk.injEq]
    refine ⟨?_, ?_⟩
    · rintro hrouted _ _ _ ⟨rfl, rfl⟩
      cases d with
      | keyboard => rfl
      | mouse =>
        rcases hrouted .mouse b ⟨rfl, rfl⟩ with ⟨_, hpc⟩
        cases hpc
    · rintro hown _ _ ⟨rfl, rfl⟩
      obtain rfl := hown trivial d b ⟨rfl, rfl⟩
      rfl

/-- `mouse_handler` reads a byte after it has seen the status of that byte. -/
theorem StatusInv.routed_test (h : StatusInv s) {status cicle : Nat} (hpc : s.pc = .test status cicle)
    (malloc : Nat) :
    Routed ⟨s, .statement, portStep g mouseWait malloc s⟩
      ↔ ReadsOwn ⟨s, .statement, portStep g mouseWait malloc s⟩ := by
  rcases s with ⟨c, keyboard, mouse, pc⟩
  obtain rfl : pc = .test status cicle := hpc
  by_cases hbit : status &&& 0x01 ≠ 0
  · rcases h status cicle rfl hbit with ⟨hne, hstatus⟩
    cases hbuffer : c.buffer with
    | nil => exact absurd hbuffer hne
    | cons x rest =>
      rcases x with ⟨d, b⟩
      have hdata := Controller.data_cons hbuffer
      have hstatus' : status = d.status := hstatus.trans (Controller.status_cons hbuffer)
      unfold Routed ReadsOwn taken portStep
      simp only [if_pos hbit, hdata, hbuffer, List.length_cons, Nat.lt_succ_self, if_true,
        List.head?_cons, Option.some.injEq, Prod.mk.injEq]
      cases d with
      | mouse =>
        -- bit 5 is set, and the byte goes into the `switch`
        refine iff_of_true ?_ ?_
        · rintro _ _ ⟨rfl, rfl⟩
          exact ⟨cicle, if_pos (by rw [hstatus']; decide)⟩
        · rintro _ _ _ ⟨rfl, rfl⟩ _
          rfl
      | keyboard =>
        refine iff_of_false ?_ ?_
        · intro hrouted
          have hpc := hrouted .keyboard b ⟨rfl, rfl⟩
          rw [if_neg (by rw [hstatus']; decide)] at hpc
          cases hpc
        · intro hown
          cases hown trivial .keyboard b ⟨rfl, rfl⟩ hbit
  · refine iff_of_true (routed_of_keeps ?_) fun _ _ _ _ hne => absurd hne hbit
    unfold portStep
    simp only [if_neg hbit]

/-- **A statement** routes the byte that leaves the buffer exactly if it reads one of its own device. -/
theorem StatusInv.routed_statement (h : StatusInv s) (malloc : Nat) :
    Routed ⟨s, .statement, portStep g mouseWait malloc s⟩
      ↔ ReadsOwn ⟨s, .statement, portStep g mouseWait malloc s⟩ := by
  cases hpc : s.pc with
  | kbRead => exact routed_kbRead hpc malloc
  | test status cicle => exact h.routed_test hpc malloc
  | idle | kbAdd | kbWake | status | decode | mouseWake =>
    rcases s with ⟨c, keyboard, mouse, pc⟩
    cases hpc
    exact iff_of_true (routed_of_keeps rfl) fun _ _ _ _ => trivial

theorem StatusInv.routed_iff (h : StatusInv s) (hstep : PortStep g mouseWait s e s') :
    Routed ⟨s, e, s'⟩ ↔ ReadsOwn ⟨s, e, s'⟩ := by
  -- no other step takes a byte from the buffer
  have hother : e ≠ .statement → ¬ s'.controller.buffer.length < s.controller.buffer.length →
      (Routed ⟨s, e, s'⟩ ↔ ReadsOwn ⟨s, e, s'⟩) := by
    intro hne hlength
    refine iff_of_true ?_ fun heq => absurd heq hne
    intro d b htaken
    unfold taken at htaken
    rw [if_neg hlength] at htaken
    cases htaken
  cases hstep with
  | statement hmalloc => exact h.routed_statement _
  | arrive d hbyte =>
    refine hother (fun heq => by cases heq) ?_
    show ¬ (s.controller.buffer ++ [_]).length < s.controller.buffer.length
    rw [List.length_append]
    omega
  | keyboardHandler | mouseHandler | tasks =>
    exact hother (fun heq => by cases heq) (Nat.lt_irrefl _)

/-! ## Interrupts of their own device

The condition on runs: each handler is started for a byte of its own device, which is at the head of the buffer. -/

/-- While a handler of one device runs, what it will read is of that device. -/
structure OwnInv (s : Ports) : Prop where
  keyboard : s.pc = .kbRead → ∃ b, s.controller.buffer.head? = some (.keyboard, b)
  mouse : s.pc.mouseLoop = true → ∀ x ∈ s.controller.buffer, x.1 = .mouse

theorem OwnInv.readsOwn (h : OwnInv s) : ReadsOwn ⟨s, e, s'⟩ := by
  intro _ d b hhead
  have hhead' : s.controller.buffer.head? = some (d, b) := hhead
  cases hpc : s.pc with
  | kbRead =>
    rcases h.keyboard hpc with ⟨b', hkeyboard⟩
    rw [hkeyboard] at hhead'
    exact (Prod.mk.inj (Option.some.inj hhead')).1.symm
  | test status cicle =>
    have hmouse := h.mouse (by rw [hpc]; rfl) (d, b) (List.mem_of_head? hhead')
    exact fun _ => hmouse
  | idle | kbAdd | kbWake | status | decode | mouseWake => trivial

/-- A read leaves what was behind the byte at the head. -/
theorem Controller.mem_data {c : Controller} {x : Device × Nat} (h : x ∈ c.data.2.buffer) :
    x ∈ c.buffer := by
  unfold Controller.data at h
  split at h
  · exact h
  · next heq =>
    rw [heq]
    exact List.mem_cons_of_mem _ h

/-- **A statement**: the loop of `mouse_handler` is entered by none from outside. -/
theorem OwnInv.statement (h : OwnInv s) (malloc : Nat) : OwnInv (portStep g mouseWait malloc s) := by
  rcases s with ⟨c, keyboard, mouse, pc⟩
  cases pc with
  | idle => exact h
  | kbRead | kbAdd | kbWake | mouseWake =>
    exact ⟨fun hpc => (by cases hpc), fun hpc => by cases hpc⟩
  | status cicle => exact ⟨fun hpc => (by cases hpc), fun _ => h.mouse rfl⟩
  | test status cicle =>
    unfold portStep
    by_cases hbit : status &&& 0x01 ≠ 0
    · simp only [if_pos hbit]
      refine ⟨?_, fun _ x hx => h.mouse rfl x (Controller.mem_data hx)⟩
      intro hpc
      simp only at hpc
      split at hpc
      · cases hpc
      · cases hpc
    · simp only [if_neg hbit]
      exact ⟨fun hpc => (by cases hpc), fun hpc => by cases hpc⟩
  | decode cicle mouseIn =>
    refine ⟨?_, fun _ => h.mouse rfl⟩
    unfold portStep
    intro hpc
    simp only at hpc
    split at hpc
    · cases hpc
    · cases hpc

theorem OwnInv.step (h : OwnInv s) (hstep : PortStep g mouseWait s e s')
    (hown : OwnInterrupts ⟨s, e, s'⟩) : OwnInv s' := by
  cases hstep with
  -- a byte comes in at the back: the head stays
  | @arrive d b hbyte =>
    refine ⟨?_, ?_⟩
    · intro hpc
      rcases h.keyboard hpc with ⟨b', hhead⟩
      refine ⟨b', ?_⟩
      rw [List.head?_append, hhead]
      rfl
    · intro hpc x hx
      rcases List.mem_append.mp hx with hold | hnew
      · exact h.mouse hpc x hold
      · rw [List.mem_singleton.mp hnew]
        exact hown hpc
  | keyboardHandler hidle => exact ⟨fun _ => hown, fun hpc => by cases hpc⟩
  | mouseHandler hidle => exact ⟨fun hpc => (by cases hpc), fun _ => hown⟩
  | statement hmalloc => exact h.statement _
  | tasks hidle keyboard mouse => exact ⟨h.keyboard, h.mouse⟩

/-! ## Runs

By induction, with the other direction from the step that does not meet it. -/

/-- **The bytes of the 8042.** Start with no handler running, and let bytes of both devices arrive and
the two handlers run in any order. Every byte that leaves the buffer is added to `kb_queue` or goes
into the packet decoder, as its device demands, if and only if each read of port 0x60 finds a byte of
the handler's own device; and it does if `keyboard_handler` starts with a byte of the keyboard at the
head, and no byte of the keyboard stands in the buffer while `mouse_handler` reads. -/
theorem bytes_routed_iff {s₀ : Ports} (hidle : s₀.pc = .idle)
    {tr : List (Transition Ports PortEvent)} (hrun : Run (PortStep g mouseWait) s₀ tr s) :
    ((∀ τ ∈ tr, Routed τ) ↔ ∀ τ ∈ tr, ReadsOwn τ)
      ∧ ((∀ τ ∈ tr, OwnInterrupts τ) → ∀ τ ∈ tr, ReadsOwn τ) := by
  refine ⟨?_, ?_⟩
  · refine hrun.all_iff (I := StatusInv) ?_ (fun _ _ _ hs hstep => hs.step hstep)
      fun _ _ _ hs hstep => hs.routed_iff hstep
    intro status cicle hpc
    rw [hidle] at hpc
    cases hpc
  · intro hall τ hτ
    rcases hrun.reaches_of_mem hτ with ⟨before, after, heq, hpre, _⟩
    have hstart : OwnInv s₀ := by
      refine ⟨?_, ?_⟩
      · intro hpc
        rw [hidle] at hpc
        cases hpc
      · rw [hidle]
        exact fun hpc => by cases hpc
    -- the handlers have started well in the run so far
    have hinv := @Run.invariant_of_all _ _ _ _ OwnInv OwnInterrupts hstart
      (fun _ _ _ hs hst hown => hs.step hst hown) before τ.pre hpre
      fun τ' hτ' => hall τ' (by rw [heq]; exact List.mem_append_left _ hτ')
    exact hinv.readsOwn

end

/-! ## A key during a mouse interrupt

The keyboard's byte is read by the handler of the mouse. -/

/-- No byte waits and no handler runs. -/
def portBoot : Ports :=
  ⟨⟨[], 0⟩, keyBoot, ⟨⟨0, 0, 0, 0⟩, fun _ => none, queueInit (fun _ => 0) 32⟩, .idle⟩

/-- A byte of the mouse arrives, and `mouse_handler` decodes it. -/
theorem bytes_routed_mouse :
    ∃ (tr : List (Transition Ports PortEvent)) (s : Ports),
      Run (PortStep keyGlobals 1) portBoot tr s ∧ tr.length = 4 ∧ s.pc = .decode 0 0x09
        ∧ ∀ τ ∈ tr, Routed τ := by
  have harrive := Run.nil.snoc (@PortStep.arrive keyGlobals 1 portBoot .mouse 0x09 (by decide))
  have hstart := harrive.snoc (PortStep.mouseHandler rfl)
  have hstatus := hstart.snoc (PortStep.statement (show 100 ≠ null by decide))
  have hrun := hstatus.snoc (PortStep.statement (show 100 ≠ null by decide))
  refine ⟨_, _, hrun, rfl, rfl, ?_⟩
  rcases bytes_routed_iff rfl hrun with ⟨hiff, hown⟩
  refine hiff.mpr (hown ?_)
  simp only [List.forall_mem_append, List.forall_mem_singleton]
  refine ⟨⟨⟨⟨List.forall_mem_nil _, fun _ => rfl⟩, ?_⟩, trivial⟩, trivial⟩
  intro x hx
  rw [List.mem_singleton.mp hx]

/-- A scancode arrives while `mouse_handler` runs: it leaves the buffer and reaches no queue. -/
theorem key_lost_in_mouseHandler :
    ∃ (tr : List (Transition Ports PortEvent)) (s : Ports),
      Run (PortStep keyGlobals 1) portBoot tr s ∧ tr.length = 4
        ∧ s.controller.buffer = [] ∧ s.pc = .status 0 ∧ queueSize s.keyboard.kbQueue = 0
        ∧ ¬ ∀ τ ∈ tr, Routed τ := by
  have hstart := Run.nil.snoc (@PortStep.mouseHandler keyGlobals 1 portBoot rfl)
  have harrive := hstart.snoc (@PortStep.arrive keyGlobals 1 _ .keyboard 0x1E (by decide))
  have hstatus := harrive.snoc (PortStep.statement (show 100 ≠ null by decide))
  have hrun := hstatus.snoc (PortStep.statement (show 100 ≠ null by decide))
  refine ⟨_, _, hrun, rfl, rfl, rfl, rfl, ?_⟩
  intro hrouted
  have hread := hrouted _ (List.mem_append_right _ List.mem_cons_self) .keyboard 0x1E rfl
  cases hread

end DiyOS
