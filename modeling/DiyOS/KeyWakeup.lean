import DiyOS.Keyboard

/-!
# The sleep of the keyboard task

When `kb_queue` is empty the keyboard task blocks itself and then adds itself to `kb_wait`. A handler
that runs before it has done so finds nobody to wake.

* **`Keyboard.Lost`** — the task sleeps in `kb_wait` while a code waits in `kb_queue`.
* **`WakeInv`** — who stands in `kb_wait`, by the next statement of the task.
* **`keyboard_lost_iff`** — over any run, no wake-up is lost if and only if the task always registers
  with `kb_queue` empty.
-/

namespace DiyOS

open Word

/-- The keyboard task is blocked and recorded in `kb_wait`, and a code waits in `kb_queue`. -/
def Keyboard.Lost (g : KbGlobals) (s : Keyboard) : Prop :=
  (s.kernel.task g.kbTask).status = .blocked ∧ g.kbTask ∈ (s.kernel.waitQueue g.kbWait).items
    ∧ queueSize s.kbQueue ≠ 0

/-- The statement that adds the task to `kb_wait` finds `kb_queue` empty. -/
def RegistersEmpty (τ : Transition Keyboard KbEvent) : Prop :=
  τ.event = .task → τ.pre.pc = .register → queueSize τ.pre.kbQueue = 0

/-- No interrupt comes after the test that ends the loop and before the task is in `kb_wait`; and a
code 0, which ends the loop too, is the last one in `kb_queue`. -/
def DrainsBeforeSleep (τ : Transition Keyboard KbEvent) : Prop :=
  match τ.event with
  | .interrupt _ => τ.pre.pc ≠ .block ∧ τ.pre.pc ≠ .register
  | .task => ∀ ptr count, τ.pre.pc = .remove (.store ptr count) → u8 ptr = 0 → count = 1
  | .read _ _ => True

/-! ## Who stands in `kb_wait` -/

/-- The tasks in `kb_wait` and the status of the keyboard task `t`, where `pc` is its next statement. -/
def KbPc.Recorded (pc : KbPc) (t : TaskPtr) (held : List TaskPtr) (status : TaskStatus) : Prop :=
  match pc with
  | .register => held = [] ∧ status = .blocked
  -- until a handler wakes it
  | .timeout | .schedule => held = [t] ∧ status = .blocked ∨ held = [] ∧ status = .ready
  | .remove _ | .convert _ | .send _ | .visit _ _ | .add _ _ _ _ _ | .wake _ _ _ | .block =>
    held = [] ∧ status = .ready

structure WakeInv (g : KbGlobals) (held : List TaskPtr) (s : Keyboard) : Prop where
  holds : (s.kernel.waitQueue g.kbWait).Holds held
  recorded : s.pc.Recorded g.kbTask held (s.kernel.task g.kbTask).status

section

variable {g : KbGlobals} {msg : Nat} {held : List TaskPtr} {s s' : Keyboard} {k k' : Kernel}

theorem WakeInv.not_lost_of_nil (h : WakeInv g [] s) : ¬ s.Lost g := by
  rintro ⟨_, hin, _⟩
  rw [h.holds.items_eq] at hin
  cases hin

/-- The invariant looks at `kb_wait`, the status of the task and its next statement. -/
theorem WakeInv.of_eq (h : WakeInv g held s)
    (hwait : s'.kernel.waitQueue g.kbWait = s.kernel.waitQueue g.kbWait)
    (hrecorded : s'.pc.Recorded g.kbTask held (s'.kernel.task g.kbTask).status) : WakeInv g held s' := by
  refine ⟨?_, hrecorded⟩
  rw [hwait]
  exact h.holds

/-- A handler leaves `kb_wait` empty, and a task that stood there ready. -/
theorem WakeInv.interrupt (h : WakeInv g held s) (hnull : g.kbTask ≠ null) (code : Nat) :
    WakeInv g [] (keyboardHandler g code s) := by
  have hholds : ∀ t : Kernel, (Function.update t.waitQueue g.kbWait
      (queueRemove (s.kernel.waitQueue g.kbWait)).2 g.kbWait).Holds (Fifo.pop held) := by
    intro t
    rw [Function.update_self]
    exact queueRemove_holds h.holds
  have hfst := queueRemove_fst h.holds
  -- the task stands in `kb_wait` only between its registration and the end of its sleep
  have hcases : held = [] ∨ held = [g.kbTask] ∧ (s.pc = .timeout ∨ s.pc = .schedule) := by
    have hrecorded := h.recorded
    cases hpc : s.pc with
    | timeout =>
      rw [hpc] at hrecorded
      exact hrecorded.elim (fun hb => Or.inr ⟨hb.1, Or.inl rfl⟩) fun hr => Or.inl hr.1
    | schedule =>
      rw [hpc] at hrecorded
      exact hrecorded.elim (fun hb => Or.inr ⟨hb.1, Or.inr rfl⟩) fun hr => Or.inl hr.1
    | _ =>
      rw [hpc] at hrecorded
      exact Or.inl hrecorded.1
  unfold keyboardHandler
  rcases hcases with rfl | ⟨rfl, hpc⟩
  · -- nobody stands in `kb_wait`
    rcases wakeUp_cases g.kbWait s.kernel with ⟨_, heq⟩ | ⟨t, ht, hne, _⟩
    · rw [heq]
      exact ⟨hholds s.kernel, h.recorded⟩
    · exact absurd (hfst.symm.trans ht).symm hne
  · rcases wakeUp_cases g.kbWait s.kernel with ⟨hempty, _⟩ | ⟨t, ht, _, heq⟩
    · exact absurd (hfst.symm.trans hempty) hnull
    · obtain rfl : g.kbTask = t := hfst.symm.trans ht
      have hready : ((s.kernel.setTask g.kbTask
          { s.kernel.task g.kbTask with status := .ready }).task g.kbTask).status = .ready :=
        congrArg Task.status (Kernel.setTask_task_self s.kernel g.kbTask _)
      rw [heq]
      refine ⟨hholds s.kernel, ?_⟩
      rcases hpc with hpc | hpc
      · show s.pc.Recorded g.kbTask [] _
        rw [hpc]
        exact Or.inr ⟨rfl, hready⟩
      · show s.pc.Recorded g.kbTask [] _
        rw [hpc]
        exact Or.inr ⟨rfl, hready⟩

/-! ## Statements that leave `kb_wait`

Only `sleep_on` puts the task into `kb_wait`. From one code to the next the task is ready, and nobody stands
there. -/

/-- What `message_to` does before `queue_add` leaves the records of the tasks. -/
theorem messageFill_task {toPid data size : Nat} {r : Option TaskPtr}
    (h : messageFill msg toPid data size k = .ok (r, k')) : k'.task = k.task ∧ k'.waitQueue = k.waitQueue := by
  rcases messageFill_cases h with ⟨_, _, rfl⟩ | ⟨_, _, _, rfl⟩
  · exact ⟨rfl, rfl⟩
  · exact ⟨rfl, rfl⟩

/-- A new message queue leaves every status. -/
theorem Kernel.setMessageQueue_status (k : Kernel) (t t' : TaskPtr) (q : Queue) :
    ((k.setMessageQueue t q).task t').status = (k.task t').status := by
  by_cases heq : t' = t
  · rw [heq, Kernel.setMessageQueue_task]
  · exact congrArg Task.status (Kernel.setTask_task_of_ne k _ heq)

/-- A task that is ready stays so. -/
theorem Kernel.setReady_status {t' : TaskPtr} (h : (k.task t').status = .ready) (t : TaskPtr) :
    ((k.setReady t).task t').status = .ready := by
  by_cases heq : t' = t
  · rw [heq]
    exact congrArg Task.status (Kernel.setTask_task_self k t _)
  · rw [Kernel.setReady, Kernel.setTask_task_of_ne _ _ heq]
    exact h

/-- From the conversion of a code to the end of its broadcast. -/
def KbPc.broadcasting : KbPc → Bool
  | .convert _ | .send _ | .visit _ _ | .add _ _ _ _ _ | .wake _ _ _ => true
  | .remove _ | .block | .register | .timeout | .schedule => false

/-- Where the task goes on in its loop, in the broadcast or behind it. -/
theorem KbPc.recorded_iff {pc : KbPc} (h : pc.broadcasting = true ∨ pc = .remove .test) (t : TaskPtr)
    (held : List TaskPtr) (status : TaskStatus) : pc.Recorded t held status ↔ held = [] ∧ status = .ready := by
  cases pc with
  | remove | convert | send | visit | add | wake => exact Iff.rfl
  | block | register | timeout | schedule => exact absurd h (by simp [KbPc.broadcasting])

/-- **The broadcast** touches neither queue of the driver: each of its statements leaves `kb_queue` and
`kb_wait`, and the task ready, and is followed by another one or by the test of the loop. -/
theorem kbStep_broadcasting (hpc : s.pc.broadcasting = true) (hcall : kbStep g msg s = .ok s') :
    s'.kbQueue = s.kbQueue ∧ s'.kernel.waitQueue = s.kernel.waitQueue
      ∧ ((s.kernel.task g.kbTask).status = .ready → (s'.kernel.task g.kbTask).status = .ready)
      ∧ (s'.pc.broadcasting = true ∨ s'.pc = .remove .test) := by
  rcases s with ⟨k, q, statics, pc, reader⟩
  cases pc with
  | remove | block | register | timeout | schedule => cases hpc
  | convert scode =>
    unfold kbStep at hcall
    simp only at hcall
    split at hcall
    · cases hcall
    · obtain rfl := Except.ok.inj hcall
      refine ⟨rfl, rfl, id, ?_⟩
      simp only
      split
      · exact Or.inl rfl
      · exact Or.inr rfl
  | send packet =>
    unfold kbStep at hcall
    simp only at hcall
    split at hcall
    · cases hcall
    · obtain rfl := Except.ok.inj hcall
      exact ⟨rfl, rfl, id, Or.inl rfl⟩
  | visit packet ts =>
    cases ts with
    | nil =>
      obtain rfl := Except.ok.inj hcall
      exact ⟨rfl, rfl, id, Or.inr rfl⟩
    | cons t ts =>
      -- filling a message in changes no record
      unfold kbStep at hcall
      simp only at hcall
      split at hcall
      · split at hcall
        · cases hcall
        all_goals
          next hfill =>
          obtain rfl := Except.ok.inj hcall
          obtain ⟨htask, hwait⟩ := messageFill_task hfill
          refine ⟨rfl, hwait, fun hready => ?_, Or.inl rfl⟩
          rw [htask]
          exact hready
      · obtain rfl := Except.ok.inj hcall
        exact ⟨rfl, rfl, id, Or.inl rfl⟩
  | add packet t m pc ts =>
    obtain rfl := Except.ok.inj hcall
    refine ⟨rfl, rfl, fun hready => ?_, Or.inl ?_⟩
    · rw [Kernel.setMessageQueue_status]
      exact hready
    · show (KbPc.afterAdd packet t m ts _).broadcasting = true
      cases (queueAddStep _ m pc).2 with
      | none => rfl
      | some pc' => rfl
  | wake packet t ts =>
    obtain rfl := Except.ok.inj hcall
    exact ⟨rfl, rfl, fun hready => Kernel.setReady_status hready t, Or.inl rfl⟩

/-! ## One step

The one that registers the task is a lemma of its own, since it alone can lose a wake-up. -/

/-- Wherever the task goes on in its loop, it stands alike to `kb_wait`. -/
theorem KbPc.recorded_afterRemove {t : TaskPtr} (h : held = [] ∧ (k.task t).status = .ready)
    (next : RemovePc ⊕ Nat) : (KbPc.afterRemove next).Recorded t held (k.task t).status := by
  unfold KbPc.afterRemove
  cases next with
  | inl pc => exact h
  | inr ptr =>
    by_cases hzero : u8 ptr = 0
    · simp only [if_pos hzero]
      exact h
    · simp only [if_neg hzero]
      exact h

/-- The statement that adds the task to `kb_wait`, which is empty. -/
theorem WakeInv.register (h : WakeInv g held s) (hpc : s.pc = .register)
    (hcall : kbStep g msg s = .ok s') :
    WakeInv g [g.kbTask] s' ∧ (¬ s'.Lost g ↔ queueSize s.kbQueue = 0) := by
  have hrecorded := h.recorded
  rcases s with ⟨k, q, statics, pc, reader⟩
  obtain rfl : pc = .register := hpc
  obtain rfl := Except.ok.inj hcall
  rcases hrecorded with ⟨rfl, hstatus⟩
  -- the task finds room
  have hroom : queueSize (k.waitQueue g.kbWait) < (k.waitQueue g.kbWait).size := by
    rw [queueSize, h.holds.count_eq]
    exact h.holds.size_pos
  have hadd := h.holds.add_of_room hroom g.kbTask
  have hwait : (Function.update k.waitQueue g.kbWait
      (queueAdd (k.waitQueue g.kbWait) g.kbTask) g.kbWait).Holds [g.kbTask] := by
    rw [Function.update_self]
    exact hadd
  refine ⟨⟨hwait, Or.inl ⟨rfl, hstatus⟩⟩, ?_, ?_⟩
  · intro hpost
    by_contra hne
    refine hpost ⟨hstatus, ?_, hne⟩
    exact hwait.items_eq ▸ List.mem_cons_self
  · exact fun hempty hlost => hlost.2.2 hempty

/-- **One statement** of the task keeps the invariant; and the one that adds it to `kb_wait` loses a
wake-up exactly if a code waits. -/
theorem WakeInv.task (h : WakeInv g held s) (hcall : kbStep g msg s = .ok s')
    (hready : s.pc = .schedule → (s.kernel.task g.kbTask).status = .ready) (hnot : ¬ s.Lost g) :
    ∃ held', WakeInv g held' s' ∧ (¬ s'.Lost g ↔ RegistersEmpty ⟨s, .task, s'⟩) := by
  have hrecorded := h.recorded
  -- a statement that leaves `kb_wait` empty, and is not the one that registers
  have hnil : s.pc ≠ .register → WakeInv g [] s' →
      ∃ held', WakeInv g held' s' ∧ (¬ s'.Lost g ↔ RegistersEmpty ⟨s, .task, s'⟩) := by
    intro hpc hpost
    exact ⟨[], hpost, iff_of_true hpost.not_lost_of_nil fun _ heq => absurd heq hpc⟩
  by_cases hloop : s.pc.broadcasting = true
  · obtain ⟨rfl, hstatus⟩ := (KbPc.recorded_iff (Or.inl hloop) _ _ _).mp hrecorded
    obtain ⟨-, hwait, hready', hnext⟩ := kbStep_broadcasting hloop hcall
    refine hnil (fun heq => by simp [heq, KbPc.broadcasting] at hloop) (h.of_eq (congrFun hwait g.kbWait) ?_)
    exact (KbPc.recorded_iff hnext _ _ _).mpr ⟨rfl, hready' hstatus⟩
  rcases s with ⟨k, q, statics, pc, reader⟩
  cases pc with
  | convert | send | visit | add | wake => exact absurd rfl hloop
  | remove r =>
    obtain rfl := Except.ok.inj hcall
    rcases hrecorded with ⟨rfl, hstatus⟩
    have hafter := KbPc.recorded_afterRemove ⟨rfl, hstatus⟩ (queueRemoveStep q r).2
    exact hnil (fun heq => by cases heq) (h.of_eq rfl hafter)
  | block =>
    obtain rfl := Except.ok.inj hcall
    rcases hrecorded with ⟨rfl, hstatus⟩
    refine hnil (fun heq => by cases heq) (h.of_eq rfl ⟨rfl, ?_⟩)
    exact congrArg Task.status (Kernel.setTask_task_self (switchTo g.kbTask k) g.kbTask _)
  | register =>
    obtain ⟨hpost, hlost⟩ := h.register rfl hcall
    exact ⟨[g.kbTask], hpost, hlost.trans ⟨fun hempty _ _ => hempty, fun hempty => hempty rfl rfl⟩⟩
  | timeout =>
    obtain rfl := Except.ok.inj hcall
    have htask : ((switchTo g.kbTask k).setTask g.kbTask
        { (switchTo g.kbTask k).task g.kbTask with timeout := 0 }).task g.kbTask
          = { k.task g.kbTask with timeout := 0 } :=
      Kernel.setTask_task_self (switchTo g.kbTask k) g.kbTask _
    refine ⟨held, h.of_eq rfl ?_, iff_of_true ?_ fun _ heq => by cases heq⟩
    · simp only [htask]
      exact hrecorded
    · rintro ⟨hblocked, hlost⟩
      rw [htask] at hblocked
      exact hnot ⟨hblocked, hlost⟩
  | schedule =>
    obtain rfl := Except.ok.inj hcall
    have hstatus := hready rfl
    rcases hrecorded with ⟨_, hblocked⟩ | ⟨rfl, _⟩
    · rw [hblocked] at hstatus
      cases hstatus
    · exact hnil (fun heq => by cases heq) (h.of_eq rfl ⟨rfl, hstatus⟩)

theorem WakeInv.step (h : WakeInv g held s) (hnull : g.kbTask ≠ null) {e : KbEvent}
    (hstep : KbStep g s e s') (hnot : ¬ s.Lost g) :
    ∃ held', WakeInv g held' s' ∧ (¬ s'.Lost g ↔ RegistersEmpty ⟨s, e, s'⟩) := by
  cases hstep with
  | task hready hmalloc hcall => exact h.task hcall hready hnot
  | @interrupt code hbyte =>
    have hpost := h.interrupt hnull code
    exact ⟨[], hpost, iff_of_true hpost.not_lost_of_nil fun heq => by cases heq⟩
  | @read caller hcaller =>
    have hstatus : ((readStep caller s).2.kernel.task g.kbTask).status = (s.kernel.task g.kbTask).status :=
      Kernel.setMessageQueue_status (switchTo caller s.kernel) caller g.kbTask _
    refine ⟨held, h.of_eq rfl ?_, iff_of_true ?_ fun heq => by cases heq⟩
    · rw [hstatus]
      exact h.recorded
    · rintro ⟨hblocked, hlost⟩
      rw [hstatus] at hblocked
      exact hnot ⟨hblocked, hlost⟩

/-! ## The window

The loop ends with `kb_queue` empty, unless a code is 0. An interrupt that comes before the task is in `kb_wait`
fills the queue again, and finds nobody to wake. -/

/-- From the test that ends the loop to the registration. -/
def KbPc.sleeping : KbPc → Bool
  | .block | .register => true
  | .remove _ | .convert _ | .send _ | .visit _ _ | .add _ _ _ _ _ | .wake _ _ _ | .timeout | .schedule => false

/-- **One step** outside the window leaves `kb_queue` empty where the task goes to sleep. -/
theorem KbStep.drained {e : KbEvent} (hstep : KbStep g s e s')
    (h : s.pc.sleeping = true → queueSize s.kbQueue = 0) (hdrains : DrainsBeforeSleep ⟨s, e, s'⟩) :
    s'.pc.sleeping = true → queueSize s'.kbQueue = 0 := by
  cases hstep with
  | task hready hmalloc hcall =>
    by_cases hloop : s.pc.broadcasting = true
    · obtain ⟨-, -, -, hnext⟩ := kbStep_broadcasting hloop hcall
      intro hpost
      cases hpc : s'.pc with
      | block | register => exact absurd (hpc ▸ hnext) (by simp [KbPc.broadcasting])
      | _ =>
        rw [hpc] at hpost
        cases hpost
    rcases s with ⟨k, q, statics, pc, reader⟩
    cases pc with
    | convert | send | visit | add | wake => exact absurd rfl hloop
    | remove r =>
      obtain rfl := Except.ok.inj hcall
      cases r with
      | test =>
        by_cases hzero : q.count = 0
        · exact fun _ => hzero
        · simp only [queueRemoveStep, if_neg hzero]
          exact fun hpost => by cases hpost
      | take | wrap ptr | load ptr => exact fun hpost => by cases hpost
      | store ptr count =>
        by_cases hzero : u8 ptr = 0
        · -- the code that ends the loop was the last one
          obtain rfl := hdrains ptr count rfl hzero
          exact fun _ => rfl
        · simp only [queueRemoveStep, KbPc.afterRemove, if_neg hzero]
          exact fun hpost => by cases hpost
    | block =>
      obtain rfl := Except.ok.inj hcall
      exact fun _ => h rfl
    | register | timeout | schedule =>
      obtain rfl := Except.ok.inj hcall
      exact fun hpost => by cases hpost
  | interrupt hbyte =>
    rcases hdrains with ⟨hblock, hregister⟩
    intro hpost
    -- the handler does not move the task: it would have to stand in the window
    have hpre : s.pc.sleeping = true := hpost
    cases hpc : s.pc with
    | block => exact absurd hpc hblock
    | register => exact absurd hpc hregister
    | _ =>
      rw [hpc] at hpre
      cases hpre
  | read hcaller => exact h

/-! ## Runs -/

/-- **The wake-up of the keyboard task.** Start before its loop, with nobody in `kb_wait`, and let
interrupts with any bytes and the statements of the task come in any order. The task never sleeps in
`kb_wait` while a code waits in `kb_queue` if and only if it always adds itself to `kb_wait` with
`kb_queue` empty; and it does if no interrupt comes between the test that ends the loop and the
registration, and no code 0 is removed with others behind it. -/
theorem keyboard_lost_iff {s₀ : Keyboard} (hnull : g.kbTask ≠ null) (hpc : s₀.pc = .remove .test)
    (hready : (s₀.kernel.task g.kbTask).status = .ready)
    (hwait : ∃ data, s₀.kernel.waitQueue g.kbWait = queueInit data 8)
    {tr : List (Transition Keyboard KbEvent)} (hrun : Run (KbStep g) s₀ tr s) :
    ((∀ τ ∈ tr, ¬ τ.post.Lost g) ↔ ∀ τ ∈ tr, RegistersEmpty τ)
      ∧ ((∀ τ ∈ tr, DrainsBeforeSleep τ) → ∀ τ ∈ tr, RegistersEmpty τ) := by
  have hstart : WakeInv g [] s₀ := by
    rcases hwait with ⟨data, hdata⟩
    refine ⟨?_, ?_⟩
    · rw [hdata]
      exact queueInit_holds data (by decide) (by decide)
    · rw [hpc]
      exact ⟨rfl, hready⟩
  refine ⟨?_, ?_⟩
  · refine @Run.all_iff_while _ _ _ _ (fun s => (∃ held, WakeInv g held s) ∧ ¬ s.Lost g) _ _
      ⟨⟨_, hstart⟩, hstart.not_lost_of_nil⟩ ?_ ?_ tr s hrun
    · rintro s e s' ⟨⟨held, hpre⟩, hnot⟩ hstep
      rcases hpre.step hnull hstep hnot with ⟨_, _, hiff⟩
      exact hiff
    · rintro s e s' ⟨⟨held, hpre⟩, hnot⟩ hstep hempty
      rcases hpre.step hnull hstep hnot with ⟨held', hpost, hiff⟩
      exact ⟨⟨held', hpost⟩, hiff.mpr hempty⟩
  · -- up to the registration the run has kept its interrupts out of the window
    intro hall τ hτ hevent hregister
    rcases hrun.reaches_of_mem hτ with ⟨before, after, heq, hpre, _⟩
    refine @Run.invariant_of_all _ _ _ _ (fun s => s.pc.sleeping = true → queueSize s.kbQueue = 0)
      DrainsBeforeSleep ?_ (fun _ _ _ hs hstep hdrains => hstep.drained hs hdrains) before τ.pre hpre
      (fun τ' hτ' => hall τ' (by rw [heq]; exact List.mem_append_left _ hτ')) (by rw [hregister]; rfl)
    rw [hpc]
    exact fun hsleeping => by cases hsleeping

end

/-! ## An interrupt in the window -/

/-- The task goes to sleep with `kb_queue` empty, and the handler wakes it. -/
theorem keyboard_lost_never :
    ∃ (tr : List (Transition Keyboard KbEvent)) (s : Keyboard),
      Run (KbStep keyGlobals) keyBoot tr s ∧ tr.length = 4
        ∧ (s.kernel.task 2).status = .ready ∧ ∀ τ ∈ tr, ¬ τ.post.Lost keyGlobals := by
  have htest := Run.nil.snoc (@KbStep.plain keyGlobals keyBoot _ (by decide) rfl rfl)
  have hblock := htest.snoc (KbStep.plain (by decide) rfl rfl)
  have hregister := hblock.snoc (KbStep.plain (by decide) rfl rfl)
  have hrun := hregister.snoc (@KbStep.interrupt keyGlobals _ 0x1E (by decide))
  refine ⟨_, _, hrun, rfl, rfl, ?_⟩
  obtain ⟨hiff, hempty⟩ := keyboard_lost_iff (show keyGlobals.kbTask ≠ null by decide) rfl rfl ⟨_, rfl⟩ hrun
  refine hiff.mpr (hempty ?_)
  simp only [List.forall_mem_append, List.forall_mem_singleton]
  refine ⟨⟨⟨⟨List.forall_mem_nil _, ?_⟩, ?_⟩, ?_⟩, by decide, by decide⟩
  · intro ptr count (heq : KbPc.remove .test = _)
    cases heq
  · intro ptr count (heq : KbPc.block = _)
    cases heq
  · intro ptr count (heq : KbPc.register = _)
    cases heq

/-- An interrupt comes between the statement that blocks the task and the one that adds it to
`kb_wait`. -/
theorem key_lost_in_window :
    ∃ (tr : List (Transition Keyboard KbEvent)) (s : Keyboard),
      Run (KbStep keyGlobals) keyBoot tr s ∧ tr.length = 4 ∧ s.Lost keyGlobals := by
  have htest := Run.nil.snoc (@KbStep.plain keyGlobals keyBoot _ (by decide) rfl rfl)
  have hblock := htest.snoc (KbStep.plain (by decide) rfl rfl)
  have hinterrupt := hblock.snoc (@KbStep.interrupt keyGlobals _ 0x1E (by decide))
  have hrun := hinterrupt.snoc (KbStep.plain (by decide) rfl rfl)
  exact ⟨_, _, hrun, rfl, rfl, by decide, by decide⟩

end DiyOS
