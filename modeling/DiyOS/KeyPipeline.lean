import DiyOS.Keyboard
import Mathlib.Data.Nat.Bitwise

/-!
# From scancodes to messages

A scancode passes through `kb_queue`, the converter and the message queue of the task that listens,
while interrupts append further codes and the listener reads.

Both queues are shared, and nothing protects their counts. A handler that comes between the load and the
store of `q->count--` has its own `q->count++` undone, and the code that it has put into `kb_queue` is
not found; between a load and a store on the message queue a switch to the other task does the same to a
message.

* **`convertAll`** — the packets of a sequence of scancodes.
* **`KeyInv`** — the invariant: what has been received, what is pending, what is being sent and what
  the queued codes will give, in this order, are the packets of all codes delivered.
* **`keyboard_pipeline`** — so it is in every run in which no queue overflows and every count that is
  stored was loaded from the count that is there.
* **`key_lost_in_count`** — a run in which one is not.
-/

namespace DiyOS

open Word

/-! ## The packets of scancodes

What a scancode becomes depends on those before it, so the packets are a function of the codes. -/

/-- The key, with bit 8 set for a code with bit 7 clear. -/
def packetOf (scode key : Nat) : Nat := (if scode < 128 then 256 else 0) + key

/-- The packets of the codes in order, and the converter they leave. A code that gives no key gives no
packet. -/
def convertAll (s : Converter) : List Nat → Except Halt (List Nat × Converter)
  | [] => .ok ([], s)
  | code :: codes =>
    match convert code s with
    | .error e => .error e
    | .ok c =>
      match convertAll c.statics codes with
      | .error e => .error e
      | .ok (packets, s') =>
        .ok (if u8 c.key ≠ 0 then packetOf code (u8 c.key) :: packets else packets, s')

/-- A byte that is not zero, with its lower seven bits in the keymap. -/
structure ScanCode (code : Nat) : Prop where
  ne_zero : code ≠ 0
  byte : code < 256
  row : code &&& 0x7F < keymap.length

instance (code : Nat) : Decidable (ScanCode code) :=
  decidable_of_iff (code ≠ 0 ∧ code < 256 ∧ code &&& 0x7F < keymap.length)
    ⟨fun h => ⟨h.1, h.2.1, h.2.2⟩, fun h => ⟨h.ne_zero, h.byte, h.row⟩⟩

theorem released_iff {code : Nat} (h : code < 256) : code &&& keyReleased ≠ 0 ↔ ¬ code < 128 := by
  have hbit : code &&& keyReleased = (code.testBit 7).toNat * 2 ^ 7 := Nat.and_two_pow code 7
  rw [hbit, Nat.testBit_eq_decide_div_mod_eq]
  by_cases hlt : code < 128
  · have hdiv : code / 2 ^ 7 % 2 = 0 := by omega
    rw [hdiv]
    simp [hlt]
  · have hdiv : code / 2 ^ 7 % 2 = 1 := by omega
    rw [hdiv]
    simp [hlt]

theorem keyPacket_eq {scode code : Nat} (hscode : scode < 256) (hcode : code < 256) :
    keyPacket scode code = packetOf scode code := by
  have hreleased := released_iff hscode
  unfold keyPacket packetOf
  by_cases hlt : scode < 128
  · rw [if_neg fun hne => hreleased.mp hne hlt, if_pos hlt]
    exact (Nat.shiftLeft_add_eq_or_of_lt (show code < 2 ^ 8 from hcode) 1).symm
  · rw [if_pos (hreleased.mpr hlt), if_neg hlt]
    exact (Nat.zero_or code).trans (Nat.zero_add code).symm

theorem keymapKey_ok {code : Nat} (h : code < keymap.length) (s : Converter) :
    ∃ key, keymapKey code s = .ok key := by
  unfold keymapKey
  rw [List.getElem?_eq_getElem h]
  exact ⟨_, rfl⟩

theorem convertKey_ok {code : Nat} (h : code < keymap.length) (s : Converter) :
    ∃ c, convertKey code s = .ok c := by
  unfold convertKey
  rcases keymapKey_ok h (if code = ctrl then { s with ctrl := true } else s) with ⟨key, hkey⟩
  simp only [hkey]
  split_ifs <;> exact ⟨_, rfl⟩

/-- A code of the keymap, pressed or released, reads no entry outside it. -/
theorem convert_ok {code : Nat} (h : ScanCode code) (s : Converter) : ∃ c, convert code s = .ok c := by
  have hreleased := released_iff h.byte
  unfold convert
  by_cases hsize : code ≥ keymapSize
  · exact ⟨_, if_pos hsize⟩
  · rw [if_neg hsize]
    by_cases hpressed : code < 128
    · -- the code has no other bits than the lower seven
      have hrow : code &&& 0x7F = code :=
        (Nat.and_two_pow_sub_one_eq_mod code 7).trans (Nat.mod_eq_of_lt hpressed)
      rw [if_neg fun hne => hreleased.mp hne hpressed]
      exact convertKey_ok (hrow ▸ h.row) s
    · rw [if_pos (hreleased.mpr hpressed)]
      obtain ⟨key, hkey⟩ := keymapKey_ok h.row
        (if code &&& 0x7F = ctrl then { s with ctrl := false } else s)
      simp only [hkey]
      split_ifs
      · exact ⟨_, rfl⟩
      · exact ⟨_, rfl⟩
      all_goals exact convertKey_ok h.row _

/-- The converter goes through one sequence of codes and then through the other. -/
theorem convertAll_append {s s' : Converter} {codes packets : List Nat}
    (h : convertAll s codes = .ok (packets, s')) (more : List Nat) :
    convertAll s (codes ++ more) = match convertAll s' more with
      | .error e => .error e
      | .ok (packets', s'') => .ok (packets ++ packets', s'') := by
  induction codes generalizing s packets with
  | nil =>
    rcases Prod.mk.inj (Except.ok.inj h) with ⟨rfl, rfl⟩
    show convertAll s more = _
    cases convertAll s more with
    | error e => rfl
    | ok r => rfl
  | cons code codes ih =>
    rw [convertAll] at h
    rw [List.cons_append, convertAll]
    cases hcode : convert code s with
    | error e =>
      rw [hcode] at h
      cases h
    | ok c =>
      rw [hcode] at h
      simp only at h ⊢
      cases hcodes : convertAll c.statics codes with
      | error e =>
        rw [hcodes] at h
        cases h
      | ok r =>
        rcases r with ⟨packets₁, s₁⟩
        rw [hcodes] at h
        rcases Prod.mk.inj (Except.ok.inj h) with ⟨rfl, rfl⟩
        -- the second sequence starts from what the first has left in the statics
        rw [ih hcodes]
        cases convertAll s₁ more with
        | error e => rfl
        | ok r' =>
          by_cases hkey : u8 c.key ≠ 0
          · simp [hkey]
          · simp [hkey]

/-! ## The codes in `kb_queue`

The codes that the task has not converted, with the one that it has removed from the queue and not counted yet. -/

/-- The codes that wait where `pc` is the next statement, the one that is being removed among them. -/
def KbPc.Queued (pc : KbPc) (q : Queue) (codes : List Nat) : Prop :=
  match pc with
  | .remove r => q.Shared null .test r codes
  | .convert scode => ∃ rest, codes = scode :: rest ∧ q.Holds rest
  | _ => q.Holds codes

/-- Between the statement that takes a code from the queue and the one that stores the count of the
listener's queue. -/
def KbPc.dequeued (listener : TaskPtr) : KbPc → Bool
  | .remove .test | .remove .take => false
  | .remove _ | .convert _ | .send _ | .add _ _ _ _ _ => true
  | .visit _ ts => listener ∈ ts
  | .wake _ _ _ | .block | .register | .timeout | .schedule => false

theorem KbPc.Queued.holds {pc : KbPc} {q : Queue} {codes : List Nat} {listener : TaskPtr}
    (h : pc.Queued q codes) (hpc : pc.dequeued listener = false) : q.Holds codes := by
  cases pc with
  | remove r =>
    cases r with
    | test => exact Queue.Shared.holds h
    | take =>
      obtain ⟨q₀, hholds, rfl⟩ := Queue.Shared.parts h
      exact hholds
    | wrap | load | store => cases hpc
  | convert | send | add => cases hpc
  | visit | wake | block | register | timeout | schedule => exact h

/-- **An interrupt**, wherever the task stands, appends its code. -/
theorem KbPc.Queued.interrupt {pc : KbPc} {q : Queue} {codes : List Nat} (h : pc.Queued q codes)
    (hroom : queueSize q < q.size) (code : Nat) : pc.Queued (queueAdd q code) (codes ++ [code]) := by
  cases pc with
  | remove r => exact Queue.Shared.add h hroom code
  | convert scode =>
    rcases h with ⟨rest, rfl, hholds⟩
    exact ⟨rest ++ [code], rfl, hholds.add_of_room hroom code⟩
  | send | visit | add | wake | block | register | timeout | schedule =>
    exact Queue.Holds.add_of_room h hroom code

/-! ## Who is sent to

One task listens, and no other has its pid; so `message_to` finds it. -/

section

variable {g : KbGlobals} {listener : TaskPtr} {k k' : Kernel}

/-- `listener` is the one listed task that listens. -/
structure SingleListener (g : KbGlobals) (listener : TaskPtr) (k : Kernel) : Prop where
  listed : listener ∈ k.tasks
  listens : ∀ t ∈ k.tasks, g.listen t ≠ 0 ↔ t = listener
  pids : DistinctPids k

theorem SingleListener.of_samePids (h : SingleListener g listener k) (hsame : SamePids k k') :
    SingleListener g listener k' := by
  refine ⟨?_, ?_, hsame.distinctPids h.pids⟩
  · rw [hsame.tasks]
    exact h.listed
  · rw [hsame.tasks]
    exact h.listens

/-! ## Steps that send nothing

Most steps leave the tasks and their messages alone. -/

/-- The lists and pids, the messages, and the message queue of each task. -/
structure SameMessages (k k' : Kernel) : Prop where
  pids : SamePids k k'
  queue : ∀ t, (k'.task t).messageQueue = (k.task t).messageQueue
  message : k'.message = k.message

/-- The same records of tasks. -/
theorem SameMessages.of_task {k k' : Kernel} (htask : k'.task = k.task) (htasks : k'.tasks = k.tasks)
    (hmessage : k'.message = k.message) : SameMessages k k' := by
  refine ⟨⟨htasks, fun t => ?_⟩, fun t => ?_, hmessage⟩
  · rw [htask]
  · rw [htask]

/-- A new record with the old pid and message queue. -/
theorem Kernel.setTask_sameMessages (k : Kernel) (p : TaskPtr) {r : Task}
    (hpid : r.pid = (k.task p).pid) (hqueue : r.messageQueue = (k.task p).messageQueue) :
    SameMessages k (k.setTask p r) := by
  refine ⟨⟨rfl, Kernel.setTask_pid k p hpid⟩, ?_, rfl⟩
  intro t
  by_cases heq : t = p
  · rw [heq, Kernel.setTask_task_self, hqueue]
  · rw [Kernel.setTask_task_of_ne _ _ heq]

theorem wakeUp_sameMessages (q : Nat) (k : Kernel) : SameMessages k (wakeUp q k) := by
  rcases wakeUp_cases q k with ⟨_, heq⟩ | ⟨t, _, _, heq⟩
  · rw [heq]
    exact .of_task rfl rfl rfl
  · have hset := Kernel.setTask_sameMessages k t (r := { k.task t with status := .ready }) rfl rfl
    rw [heq]
    exact ⟨⟨rfl, hset.pids.pid⟩, hset.queue, rfl⟩

end

/-! ## The invariant

Every code is in one of four places: the queue, the task that converts it, the listener's queue, or what the
listener has read. -/

/-- The packet that is on its way to the listener. -/
def KbPc.sending (listener : TaskPtr) : KbPc → List Nat
  | .send packet | .add packet _ _ _ _ => [packet]
  | .visit packet ts => if listener ∈ ts then [packet] else []
  | .remove _ | .convert _ | .wake _ _ _ | .block | .register | .timeout | .schedule => []

/-- The call of `queue_add` on the listener's queue: its pointer and its next statement. -/
def KbPc.adding : KbPc → Nat × AddPc
  | .add _ _ msg pc _ => (msg, pc)
  | _ => (null, .test)

/-- The code that an interrupt delivers. -/
def deliveredBy (τ : Transition Keyboard KbEvent) : Option Nat :=
  match τ.event with
  | .interrupt code => some code
  | .task | .read _ _ => none

/-- The packet, if any, that a return of `message` gives to the listener. -/
def packetBy (listener : TaskPtr) (τ : Transition Keyboard KbEvent) : Option Nat :=
  match τ.event with
  | .read caller (some msg) =>
    if caller = listener ∧ msg ≠ null then (τ.pre.kernel.message msg).map Message.data else none
  | .task | .interrupt _ | .read _ none => none

def delivered (tr : List (Transition Keyboard KbEvent)) : List Nat := tr.filterMap deliveredBy

def packetsReceived (listener : TaskPtr) (tr : List (Transition Keyboard KbEvent)) : List Nat :=
  tr.filterMap (packetBy listener)

/-- The queue that the transition adds to, if it has room. -/
def addedTo (τ : Transition Keyboard KbEvent) : Option Queue :=
  match τ.event, τ.pre.pc with
  | .interrupt _, _ => some τ.pre.kbQueue
  | .task, .add _ t _ .test _ => some (τ.pre.kernel.task t).messageQueue
  | _, _ => none

/-- The queue of which the transition stores a count, with the one that was loaded. -/
def countStored (τ : Transition Keyboard KbEvent) : Option (Queue × Nat) :=
  match τ.event, τ.pre.pc with
  | .task, .remove (.store _ count) => some (τ.pre.kbQueue, count)
  | .task, .add _ t _ (.store count) _ => some ((τ.pre.kernel.task t).messageQueue, count)
  | .read caller _, _ =>
    match τ.pre.reader caller with
    | .store _ count => some ((τ.pre.kernel.task caller).messageQueue, count)
    | _ => none
  | _, _ => none

/-- A byte that is delivered is a scancode of the keymap, and no queue overflows. -/
def NoOverflow (τ : Transition Keyboard KbEvent) : Prop :=
  (∀ code ∈ deliveredBy τ, ScanCode code) ∧ ∀ q ∈ addedTo τ, queueSize q < q.size

/-- The count that the transition stores was loaded from the count that is there: since the load no
handler has added a code, and no other task has stored the count of the message queue. -/
def CountsKept (τ : Transition Keyboard KbEvent) : Prop := ∀ c ∈ countStored τ, c.1.count = c.2

instance (τ : Transition Keyboard KbEvent) : Decidable (NoOverflow τ) :=
  inferInstanceAs (Decidable (_ ∧ _))

instance (τ : Transition Keyboard KbEvent) : Decidable (CountsKept τ) :=
  inferInstanceAs (Decidable (∀ c ∈ countStored τ, c.1.count = c.2))

/-- The listener's queue holds the pointers `held`, one that the listener is removing still among them;
they point to the messages `pending`. -/
structure Keyboard.Mail (s : Keyboard) (listener : TaskPtr) (held : List Nat) (pending : List Message) :
    Prop where
  shared : (s.kernel.task listener).messageQueue.Shared s.pc.adding.1 s.pc.adding.2 (s.reader listener) held
  messages : held.map s.kernel.message = pending.map some
  ne_null : null ∉ held

/-- The tasks that are still to be visited, and the message for the listener. -/
def KbPc.Visits (listener : TaskPtr) (k : Kernel) : KbPc → Prop
  | .visit _ ts => ts.Nodup ∧ ∀ t ∈ ts, t ∈ k.tasks
  | .add packet t msg _ ts => (ts.Nodup ∧ ∀ t ∈ ts, t ∈ k.tasks) ∧ t = listener ∧ listener ∉ ts ∧ msg ≠ null
    ∧ ∃ m, k.message msg = some m ∧ m.data = packet
  | .wake _ _ ts => (ts.Nodup ∧ ∀ t ∈ ts, t ∈ k.tasks) ∧ listener ∉ ts
  | .remove _ | .convert _ | .send _ | .block | .register | .timeout | .schedule => True

/-- The packets received, then `out`, then the `packets` of the queued `codes`, are those of all codes
delivered; `statics` is the converter that the queued codes will meet. -/
def Balance (listener : TaskPtr) (tr : List (Transition Keyboard KbEvent)) (statics : Converter)
    (codes out packets : List Nat) : Prop :=
  ∃ statics', convertAll statics codes = .ok (packets, statics')
    ∧ convertAll bootConverter (delivered tr) = .ok (packetsReceived listener tr ++ out ++ packets, statics')

/-- The codes `codes` are queued and will give `packets`; the listener's queue holds `pending`. -/
structure KeyInv (g : KbGlobals) (listener : TaskPtr) (tr : List (Transition Keyboard KbEvent))
    (s : Keyboard) (codes packets held : List Nat) (pending : List Message) : Prop where
  single : SingleListener g listener s.kernel
  queued : s.pc.Queued s.kbQueue codes
  scanCodes : ∀ code ∈ codes, ScanCode code
  mail : s.Mail listener held pending
  visits : s.pc.Visits listener s.kernel
  ledger : Balance listener tr s.statics codes (pending.map Message.data ++ s.pc.sending listener) packets

section

variable {g : KbGlobals} {msg : Nat} {listener : TaskPtr}
  {tr : List (Transition Keyboard KbEvent)} {s s' : Keyboard} {codes packets held : List Nat}
  {pending : List Message}

/-- The mail depends on the listener's queue, on the messages and on both calls that work on the queue. -/
theorem Keyboard.Mail.of_eq (h : s.Mail listener held pending)
    (hqueue : (s'.kernel.task listener).messageQueue = (s.kernel.task listener).messageQueue)
    (hmessage : ∀ p ∈ held, s'.kernel.message p = s.kernel.message p) (hadding : s'.pc.adding = s.pc.adding)
    (hreader : s'.reader listener = s.reader listener) : s'.Mail listener held pending := by
  refine ⟨?_, ?_, h.ne_null⟩
  · rw [hqueue, hadding, hreader]
    exact h.shared
  · rw [← h.messages]
    exact List.map_congr_left hmessage

/-- Which tasks are still to be visited depends on the list of tasks and on the messages. -/
theorem KbPc.Visits.of_sameMessages {pc : KbPc} {k k' : Kernel} (h : pc.Visits listener k)
    (htasks : k'.tasks = k.tasks) (hmessage : k'.message = k.message) : pc.Visits listener k' := by
  unfold KbPc.Visits at h ⊢
  rw [htasks, hmessage]
  exact h

/-! ## The ledger

What has come in is what has gone out, and what is still on the way, in this order. -/

section

variable {statics : Converter} {out : List Nat} {e : KbEvent}

/-- A transition that delivers and receives nothing. -/
theorem Balance.silent (h : Balance listener tr statics codes out packets)
    (hdelivered : deliveredBy ⟨s, e, s'⟩ = none) (hpacket : packetBy listener ⟨s, e, s'⟩ = none) :
    Balance listener (tr ++ [⟨s, e, s'⟩]) statics codes out packets := by
  obtain ⟨statics', hcodes, hall⟩ := h
  refine ⟨statics', hcodes, ?_⟩
  unfold delivered packetsReceived at hall ⊢
  rw [List.filterMap_snoc, List.filterMap_snoc, hdelivered, hpacket]
  simpa using hall

/-- The packet, if there is one, of the code that is converted goes out behind the others. -/
theorem Balance.convert {scode : Nat} {c : Converted} (h : Balance listener tr statics (scode :: codes) out packets)
    (hc : convert scode statics = .ok c) :
    ∃ packets', Balance listener tr c.statics codes
      (out ++ if u8 c.key ≠ 0 then [packetOf scode (u8 c.key)] else []) packets' := by
  obtain ⟨statics', hcodes, hall⟩ := h
  rw [convertAll, hc] at hcodes
  cases hrest : convertAll c.statics codes with
  | error e => simp [hrest] at hcodes
  | ok r =>
    obtain ⟨packets', statics''⟩ := r
    simp only [hrest, Except.ok.injEq, Prod.mk.injEq] at hcodes
    obtain ⟨rfl, rfl⟩ := hcodes
    refine ⟨packets', statics'', hrest, hall.trans ?_⟩
    by_cases hkey : u8 c.key ≠ 0
    · simp [hkey]
    · simp [hkey]

/-- A code that is delivered will give its packet behind those of the codes before it. -/
theorem Balance.deliver {code : Nat} (h : Balance listener tr statics codes out packets) (hcode : ScanCode code) :
    ∃ packets', Balance listener (tr ++ [⟨s, .interrupt code, s'⟩]) statics (codes ++ [code]) out packets' := by
  obtain ⟨statics', hcodes, hall⟩ := h
  obtain ⟨c, hc⟩ := convert_ok hcode statics'
  -- the queued codes leave `statics'`, from which the new one will be converted
  have hone : convertAll statics' [code]
      = .ok (if u8 c.key ≠ 0 then [packetOf code (u8 c.key)] else [], c.statics) := by
    unfold convertAll
    rw [hc]
    rfl
  refine ⟨packets ++ (if u8 c.key ≠ 0 then [packetOf code (u8 c.key)] else []), c.statics, ?_, ?_⟩
  · rw [convertAll_append hcodes, hone]
  · unfold delivered packetsReceived at hall ⊢
    rw [List.filterMap_snoc, List.filterMap_snoc]
    show convertAll bootConverter (_ ++ [code]) = .ok (_ ++ [] ++ _ ++ _, _)
    rw [convertAll_append hall, hone]
    simp

/-- A packet that is received was the first to go out. -/
theorem Balance.receive {packet : Nat} (h : Balance listener tr statics codes (packet :: out) packets)
    (hdelivered : deliveredBy ⟨s, e, s'⟩ = none) (hpacket : packetBy listener ⟨s, e, s'⟩ = some packet) :
    Balance listener (tr ++ [⟨s, e, s'⟩]) statics codes out packets := by
  obtain ⟨statics', hcodes, hall⟩ := h
  refine ⟨statics', hcodes, ?_⟩
  unfold delivered packetsReceived at hall ⊢
  rw [List.filterMap_snoc, List.filterMap_snoc, hdelivered, hpacket]
  simpa using hall

end

/-! ## Statements of the keyboard task

One lemma for each group of statements. The two where `count` is stored need that no interrupt, or read, has come
since it was loaded. -/

/-- A statement that leaves the codes, the converter and all messages. -/
theorem KeyInv.quiet (h : KeyInv g listener tr s codes packets held pending)
    (hsame : SameMessages s.kernel s'.kernel) (hqueued : s'.pc.Queued s'.kbQueue codes)
    (hadding : s'.pc.adding = s.pc.adding) (hvisits : s'.pc.Visits listener s'.kernel)
    (hsending : s'.pc.sending listener = s.pc.sending listener) (hstatics : s'.statics = s.statics)
    (hreader : s'.reader = s.reader) :
    KeyInv g listener (tr ++ [⟨s, .task, s'⟩]) s' codes packets held pending := by
  refine ⟨h.single.of_samePids hsame.pids, hqueued, h.scanCodes, ?_, hvisits, ?_⟩
  · refine h.mail.of_eq (hsame.queue listener) (fun p _ => ?_) hadding ?_
    · rw [hsame.message]
    · rw [hreader]
  · rw [hsending, hstatics]
    exact h.ledger.silent rfl rfl

/-- **A statement of `queue_remove(&kb_queue)`.** The code is off the queue once the count is stored. -/
theorem KeyInv.remove (h : KeyInv g listener tr s codes packets held pending) {r : RemovePc}
    (hpc : s.pc = .remove r) (hcount : ∀ ptr count, s.pc = .remove (.store ptr count) → s.kbQueue.count = count)
    (hcall : kbStep g msg s = .ok s') :
    KeyInv g listener (tr ++ [⟨s, .task, s'⟩]) s' codes packets held pending := by
  obtain ⟨k, q, statics, pc, reader⟩ := s
  obtain rfl : pc = _ := hpc
  have hqueued : q.Shared null .test r codes := h.queued
  have hnext := hqueued.remove_step fun x count heq => hcount x count (by rw [heq])
  cases hstep : queueRemoveStep q r with
  | mk q' next =>
    rw [hstep] at hnext
    rw [kbStep_remove hstep] at hcall
    obtain rfl := Except.ok.inj hcall
    cases next with
    | inl r' =>
      exact h.quiet (.of_task rfl rfl rfl) hnext rfl trivial rfl rfl rfl
    | inr ptr =>
      obtain ⟨hshared, rfl⟩ := hnext
      cases codes with
      | nil =>
        -- `queue_remove` has returned a null pointer
        refine h.quiet (.of_task rfl rfl rfl) ?_ ?_ ?_ ?_ rfl rfl
        all_goals simp only [KbPc.afterRemove, List.headD_nil]
        · exact hshared.holds
        · rfl
        · trivial
        · rfl
      | cons code rest =>
        -- the code is not zero, so the loop goes on
        have hcode := h.scanCodes code List.mem_cons_self
        have hafter : KbPc.afterRemove (.inr code) = .convert code := by
          unfold KbPc.afterRemove
          simp only [u8_of_lt hcode.byte, if_neg hcode.ne_zero]
        refine h.quiet (.of_task rfl rfl rfl) ?_ ?_ ?_ ?_ rfl rfl
        all_goals simp only [List.headD_cons, hafter]
        · exact ⟨rest, rfl, hshared.holds⟩
        · rfl
        · trivial
        · rfl

/-- **The conversion** of the code that was removed. -/
theorem KeyInv.convert (h : KeyInv g listener tr s codes packets held pending) {scode : Nat}
    (hpc : s.pc = .convert scode) (hcall : kbStep g msg s = .ok s') :
    ∃ codes' packets', KeyInv g listener (tr ++ [⟨s, .task, s'⟩]) s' codes' packets' held pending := by
  have hqueued := h.queued
  rw [hpc] at hqueued
  obtain ⟨rest, rfl, hholds⟩ := hqueued
  have hscode := h.scanCodes scode List.mem_cons_self
  obtain ⟨c, hc⟩ := convert_ok hscode s.statics
  have hs' : s' = { s with
      statics := c.statics
      pc := if u8 c.key ≠ 0 then .send (keyPacket scode (u8 c.key)) else .remove .test } := by
    unfold kbStep at hcall
    rw [hpc] at hcall
    simp only [hc] at hcall
    exact (Except.ok.inj hcall).symm
  obtain ⟨packets', hledger⟩ := h.ledger.convert hc
  have hsending : s.pc.sending listener = [] := by
    rw [hpc]
    rfl
  have hadding : s.pc.adding = (null, .test) := by
    rw [hpc]
    rfl
  rw [hsending, List.append_nil] at hledger
  refine ⟨rest, packets', ?_⟩
  rw [hs']
  by_cases hkey : u8 c.key ≠ 0
  · -- the packet moves from those to come to the one being sent
    simp only [if_pos hkey] at hledger ⊢
    refine ⟨h.single, hholds, fun code hin => h.scanCodes code (List.mem_cons_of_mem _ hin),
      h.mail.of_eq rfl (fun _ _ => rfl) hadding.symm rfl, trivial, ?_⟩
    rw [KbPc.sending, keyPacket_eq hscode.byte (u8_lt _)]
    exact hledger.silent rfl rfl
  · simp only [if_neg hkey] at hledger ⊢
    refine ⟨h.single, Queue.Shared.of_holds hholds null, fun code hin => h.scanCodes code (List.mem_cons_of_mem _ hin),
      h.mail.of_eq rfl (fun _ _ => rfl) hadding.symm rfl, trivial, ?_⟩
    exact hledger.silent rfl rfl

/-- **A visit** to a task: the one that listens is given a message that holds the packet. -/
theorem KeyInv.visit (h : KeyInv g listener tr s codes packets held pending) {packet : Nat} {t : TaskPtr}
    {ts : List TaskPtr} (hpc : s.pc = .visit packet (t :: ts)) (hmsg : msg ≠ null)
    (hfresh : s.kernel.message msg = none) (hcall : kbStep g msg s = .ok s') :
    KeyInv g listener (tr ++ [⟨s, .task, s'⟩]) s' codes packets held pending := by
  obtain ⟨k, q, statics, pc, reader⟩ := s
  obtain rfl : pc = _ := hpc
  obtain ⟨hnodup, hlisted⟩ := h.visits
  obtain ⟨hnotin, hnodup⟩ := List.nodup_cons.mp hnodup
  obtain ⟨ht, hlisted⟩ := List.forall_mem_cons.mp hlisted
  unfold kbStep at hcall
  by_cases heq : t = listener
  · subst heq
    have hlistens : g.listen t ≠ 0 ∧ keyboard ≠ 0 := ⟨(h.single.listens t ht).mpr rfl, by decide⟩
    simp only [if_pos hlistens] at hcall
    split at hcall
    · cases hcall
    · -- the pid of the listener leads to it
      next hfill =>
      rcases messageFill_cases hfill with ⟨hnone, _, _⟩ | ⟨t', _, hsome, _⟩
      · exact absurd (hnone.symm.trans (h.single.pids.taskFromPid ht)) (by simp)
      · cases hsome
    · next t' k' hfill =>
      rcases messageFill_cases hfill with ⟨_, hsome, _⟩ | ⟨t₁, hfound, hsome, hk'⟩
      · cases hsome
      · obtain rfl := Option.some.inj hsome
        obtain rfl := Option.some.inj ((h.single.pids.taskFromPid ht).symm.trans hfound)
        obtain rfl := Except.ok.inj hcall
        rw [hk']
        refine ⟨h.single.of_samePids ⟨rfl, fun _ => rfl⟩, h.queued, h.scanCodes, ⟨h.mail.shared.of_test msg, ?_, h.mail.ne_null⟩,
          ⟨⟨hnodup, hlisted⟩, rfl, hnotin, hmsg, _, Function.update_self _ _ _, rfl⟩, ?_⟩
        · -- no pointer in the queue points to memory without a message
          rw [← h.mail.messages]
          refine List.map_congr_left fun p hp => Function.update_of_ne ?_ _ _
          rintro rfl
          have hin : k.message p ∈ pending.map some := h.mail.messages ▸ List.mem_map_of_mem hp
          rw [hfresh] at hin
          simp at hin
        · have hledger := h.ledger
          simp only [KbPc.sending, List.mem_cons_self, if_true] at hledger
          exact hledger.silent rfl rfl
  · have hsilent : ¬ (g.listen t ≠ 0 ∧ keyboard ≠ 0) := fun hboth => heq ((h.single.listens t ht).mp hboth.1)
    simp only [if_neg hsilent] at hcall
    obtain rfl := Except.ok.inj hcall
    refine h.quiet (.of_task rfl rfl rfl) h.queued rfl ⟨hnodup, hlisted⟩ ?_ rfl rfl
    simp [KbPc.sending, Ne.symm heq]

/-- **A statement of `queue_add`** on the listener's queue. The packet is pending once the count is
stored. -/
theorem KeyInv.add (h : KeyInv g listener tr s codes packets held pending) {packet m : Nat} {t : TaskPtr}
    {pc : AddPc} {ts : List TaskPtr} (hpc : s.pc = .add packet t m pc ts)
    (hroom : pc = .test → queueSize (s.kernel.task t).messageQueue < (s.kernel.task t).messageQueue.size)
    (hcount : ∀ count, pc = .store count → (s.kernel.task t).messageQueue.count = count)
    (hcall : kbStep g msg s = .ok s') :
    ∃ held' pending', KeyInv g listener (tr ++ [⟨s, .task, s'⟩]) s' codes packets held' pending' := by
  obtain ⟨k, q, statics, pc', reader⟩ := s
  obtain rfl : pc' = _ := hpc
  obtain ⟨hlisted, rfl, hnotin, hnull, message, hmessage, hdata⟩ := h.visits
  have hnext := h.mail.shared.add_step hroom hcount
  have hledger := h.ledger
  cases hstep : queueAddStep (k.task t).messageQueue m pc with
  | mk q' next =>
    simp only [KbPc.adding, hstep] at hnext
    rw [kbStep_add hstep] at hcall
    obtain rfl := Except.ok.inj hcall
    have hpids : SamePids k ((switchTo g.kbTask k).setMessageQueue t q') :=
      ⟨rfl, Kernel.setTask_pid (switchTo g.kbTask k) t rfl⟩
    have hqueue : (((switchTo g.kbTask k).setMessageQueue t q').task t).messageQueue = q' := by
      rw [Kernel.setMessageQueue_task]
    cases next with
    | some pc' =>
      refine ⟨held, pending, h.single.of_samePids hpids, h.queued, h.scanCodes,
        ⟨?_, h.mail.messages, h.mail.ne_null⟩, ⟨hlisted, rfl, hnotin, hnull, message, hmessage, hdata⟩,
        hledger.silent rfl rfl⟩
      rw [hqueue]
      exact hnext
    | none =>
      refine ⟨held ++ [m], pending ++ [message], h.single.of_samePids hpids, h.queued, h.scanCodes, ⟨?_, ?_, ?_⟩,
        ⟨hlisted, hnotin⟩, ?_⟩
      · rw [hqueue]
        exact hnext.of_test null
      · show (held ++ [m]).map k.message = _
        rw [List.map_append, h.mail.messages, List.map_singleton, hmessage, List.map_append, List.map_singleton]
      · rw [List.mem_append, List.mem_singleton]
        exact fun hor => hor.elim h.mail.ne_null fun heq => hnull heq.symm
      · -- the packet moves from those being sent to those pending
        have hout : (pending ++ [message]).map Message.data ++ KbPc.sending t (.wake packet t ts)
            = pending.map Message.data ++ KbPc.sending t (.add packet t m pc ts) := by
          simp [KbPc.sending, hdata]
        rw [show KbPc.afterAdd packet t m ts none = .wake packet t ts from rfl, hout]
        exact hledger.silent rfl rfl

/-- **One statement** of the keyboard task. -/
theorem KeyInv.task (h : KeyInv g listener tr s codes packets held pending)
    (hmalloc : s.pc.visits = true → msg ≠ null ∧ s.kernel.message msg = none)
    (hcall : kbStep g msg s = .ok s') (hroom : NoOverflow ⟨s, .task, s'⟩) (hcounts : CountsKept ⟨s, .task, s'⟩) :
    ∃ codes' packets' held' pending',
      KeyInv g listener (tr ++ [⟨s, .task, s'⟩]) s' codes' packets' held' pending' := by
  -- what the task does to a record leaves pids and queues of messages, so that nothing is sent
  have hset : ∀ (t : TaskPtr) (r : Task), r.pid = (s.kernel.task t).pid →
      r.messageQueue = (s.kernel.task t).messageQueue →
      SameMessages s.kernel ((switchTo g.kbTask s.kernel).setTask t r) := by
    intro t r hpid hqueue
    have hsame := Kernel.setTask_sameMessages (switchTo g.kbTask s.kernel) t hpid hqueue
    exact ⟨⟨rfl, hsame.pids.pid⟩, hsame.queue, rfl⟩
  cases hpc : s.pc with
  -- the two statements that store a count need that it is the one that was loaded
  | remove r =>
    refine ⟨_, _, _, _, h.remove hpc (fun ptr count heq => ?_) hcall⟩
    exact hcounts (s.kbQueue, count) (by simp [countStored, heq])
  | convert scode =>
    obtain ⟨codes', packets', hinv⟩ := h.convert hpc hcall
    exact ⟨_, _, _, _, hinv⟩
  | add packet t m pc ts =>
    obtain ⟨held', pending', hinv⟩ := h.add hpc
      (fun heq => hroom.2 (s.kernel.task t).messageQueue (by simp [addedTo, hpc, heq]))
      (fun count heq => hcounts ((s.kernel.task t).messageQueue, count) (by simp [countStored, hpc, heq])) hcall
    exact ⟨_, _, _, _, hinv⟩
  -- the listener is among the tasks that are still to be visited
  | send packet =>
    obtain ⟨k, q, statics, pc, reader⟩ := s
    obtain rfl : pc = _ := hpc
    unfold kbStep at hcall
    simp only at hcall
    split at hcall
    · cases hcall
    · obtain rfl := Except.ok.inj hcall
      have hnodup : k.tasks.Nodup := List.Nodup.of_map _ h.single.pids
      refine ⟨_, _, _, _, h.quiet (.of_task rfl rfl rfl) h.queued rfl ⟨hnodup, fun _ ht => ht⟩ ?_ rfl rfl⟩
      exact if_pos h.single.listed
  | visit packet ts =>
    cases ts with
    | nil =>
      obtain ⟨k, q, statics, pc, reader⟩ := s
      obtain rfl : pc = _ := hpc
      obtain rfl := Except.ok.inj hcall
      refine ⟨_, _, _, _, h.quiet (.of_task rfl rfl rfl) (Queue.Shared.of_holds h.queued null) rfl trivial ?_ rfl rfl⟩
      simp [KbPc.sending]
    | cons t ts =>
      obtain ⟨hmsg, hfresh⟩ := hmalloc (by rw [hpc]; rfl)
      exact ⟨_, _, _, _, h.visit hpc hmsg hfresh hcall⟩
  -- the packet has gone to `t`, and the listener is visited once
  | wake packet t ts =>
    obtain ⟨k, q, statics, pc, reader⟩ := s
    obtain rfl : pc = _ := hpc
    obtain rfl := Except.ok.inj hcall
    obtain ⟨hlisted, hnotin⟩ := h.visits
    refine ⟨_, _, _, _, h.quiet (hset t _ rfl rfl) h.queued rfl hlisted ?_ rfl rfl⟩
    exact if_neg hnotin
  | block | timeout =>
    obtain ⟨k, q, statics, pc, reader⟩ := s
    obtain rfl : pc = _ := hpc
    obtain rfl := Except.ok.inj hcall
    exact ⟨_, _, _, _, h.quiet (hset g.kbTask _ rfl rfl) h.queued rfl trivial rfl rfl rfl⟩
  | register =>
    obtain ⟨k, q, statics, pc, reader⟩ := s
    obtain rfl : pc = _ := hpc
    obtain rfl := Except.ok.inj hcall
    exact ⟨_, _, _, _, h.quiet (.of_task rfl rfl rfl) h.queued rfl trivial rfl rfl rfl⟩
  | schedule =>
    obtain ⟨k, q, statics, pc, reader⟩ := s
    obtain rfl : pc = _ := hpc
    obtain rfl := Except.ok.inj hcall
    exact ⟨_, _, _, _, h.quiet (.of_task rfl rfl rfl) (Queue.Shared.of_holds h.queued null) rfl trivial rfl rfl rfl⟩

/-! ## Interrupts and reads

An interrupt adds a code, if there is room; a read takes a packet. -/

/-- **An interrupt** appends its code to those queued, and what the code will give to the packets. -/
theorem KeyInv.interrupt (h : KeyInv g listener tr s codes packets held pending) {code : Nat}
    (hcode : ScanCode code) (hroom : queueSize s.kbQueue < s.kbQueue.size) :
    ∃ packets', KeyInv g listener (tr ++ [⟨s, .interrupt code, keyboardHandler g code s⟩])
      (keyboardHandler g code s) (codes ++ [code]) packets' held pending := by
  have hsame := wakeUp_sameMessages g.kbWait s.kernel
  obtain ⟨packets', hledger⟩ := @Balance.deliver listener tr s (keyboardHandler g code s) codes packets _ _ code
    h.ledger hcode
  refine ⟨packets', h.single.of_samePids hsame.pids, h.queued.interrupt hroom code, ?_,
    h.mail.of_eq (hsame.queue listener) (fun p _ => ?_) rfl rfl, ?_, hledger⟩
  · rw [List.forall_mem_append, List.forall_mem_singleton]
    exact ⟨h.scanCodes, hcode⟩
  · exact congrFun hsame.message p
  · exact h.visits.of_sameMessages hsame.pids.tasks hsame.message

/-- The listener's own read: when it stores the count of its queue, the packet of the oldest pending message
is received. -/
theorem Keyboard.Mail.read (h : s.Mail listener held pending)
    (hcount : ∀ ptr count, s.reader listener = .store ptr count →
      (s.kernel.task listener).messageQueue.count = count) :
    match packetBy listener ⟨s, .read listener (readStep listener s).1, (readStep listener s).2⟩ with
    | none => (readStep listener s).2.Mail listener held pending
    | some packet => ∃ m held' pending', pending = m :: pending' ∧ m.data = packet
      ∧ (readStep listener s).2.Mail listener held' pending' := by
  have hnext := h.shared.remove_step hcount
  have hmessages := h.messages
  have hnull := h.ne_null
  -- the statement changes the listener's queue and its place in `message`, and nothing else
  have hmail : ∀ {held' pending' q' next},
      queueRemoveStep (s.kernel.task listener).messageQueue (s.reader listener) = (q', next) →
      q'.Shared s.pc.adding.1 s.pc.adding.2 (next.getLeft?.getD .test) held' →
      held'.map s.kernel.message = pending'.map some → null ∉ held' →
      (readStep listener s).2.Mail listener held' pending' := by
    intro held' pending' q' next hstep hshared hmessages' hnull'
    refine ⟨?_, hmessages', hnull'⟩
    simpa [readStep, switchTo, hstep] using hshared
  have hret : (readStep listener s).1
      = (queueRemoveStep (s.kernel.task listener).messageQueue (s.reader listener)).2.getRight? := rfl
  cases hstep : queueRemoveStep (s.kernel.task listener).messageQueue (s.reader listener) with
  | mk q' next =>
    rw [hstep] at hnext hret
    cases next with
    | inl r' =>
      have hpacket : packetBy listener ⟨s, .read listener (readStep listener s).1, (readStep listener s).2⟩ = none := by
        rw [hret]
        rfl
      rw [hpacket]
      exact hmail hstep hnext hmessages hnull
    | inr p =>
      obtain ⟨hshared, hp⟩ := hnext
      cases held with
      | nil =>
        -- there is no message, and `message` returns a null pointer
        have hpacket : packetBy listener ⟨s, .read listener (readStep listener s).1, (readStep listener s).2⟩
            = none := by
          rw [hret, hp]
          exact if_neg fun hboth => hboth.2 rfl
        rw [hpacket]
        exact hmail hstep hshared hmessages hnull
      | cons p' held =>
        obtain rfl : p = p' := hp
        cases pending with
        | nil => cases hmessages
        | cons m pending =>
          obtain ⟨hfirst, hrest⟩ := List.cons.inj hmessages
          have hne : p ≠ null := fun heq => hnull (heq ▸ List.mem_cons_self)
          have hpacket : packetBy listener ⟨s, .read listener (readStep listener s).1, (readStep listener s).2⟩
              = some m.data := by
            rw [hret]
            show (if listener = listener ∧ p ≠ null then (s.kernel.message p).map Message.data else none) = _
            rw [if_pos ⟨rfl, hne⟩, hfirst]
            rfl
          rw [hpacket]
          exact ⟨m, held, pending, rfl, rfl, hmail hstep hshared hrest fun hin => hnull (List.mem_cons_of_mem _ hin)⟩

/-- **A statement of `message`** in some task. The oldest pending packet is received when the listener
stores the count of its queue. -/
theorem KeyInv.read (h : KeyInv g listener tr s codes packets held pending) {caller : TaskPtr}
    (hcount : ∀ ptr count, s.reader caller = .store ptr count → (s.kernel.task caller).messageQueue.count = count) :
    ∃ held' pending', KeyInv g listener (tr ++ [⟨s, .read caller (readStep caller s).1, (readStep caller s).2⟩])
      (readStep caller s).2 codes packets held' pending' := by
  have hpids : SamePids s.kernel (readStep caller s).2.kernel :=
    ⟨rfl, Kernel.setTask_pid (switchTo caller s.kernel) caller rfl⟩
  have hvisits : (readStep caller s).2.pc.Visits listener (readStep caller s).2.kernel :=
    h.visits.of_sameMessages rfl rfl
  have hledger := h.ledger
  by_cases heq : caller = listener
  · subst heq
    have hnext := h.mail.read hcount
    cases hpacket : packetBy caller ⟨s, .read caller (readStep caller s).1, (readStep caller s).2⟩ with
    | none =>
      rw [hpacket] at hnext
      exact ⟨held, pending, h.single.of_samePids hpids, h.queued, h.scanCodes, hnext, hvisits,
        hledger.silent rfl hpacket⟩
    | some packet =>
      rw [hpacket] at hnext
      obtain ⟨m, held', pending', rfl, rfl, hmail⟩ := hnext
      exact ⟨held', pending', h.single.of_samePids hpids, h.queued, h.scanCodes, hmail, hvisits,
        Balance.receive hledger rfl hpacket⟩
  · -- another task removes a message from its own queue
    have hsilent : packetBy listener ⟨s, .read caller (readStep caller s).1, (readStep caller s).2⟩ = none := by
      unfold packetBy
      cases (readStep caller s).1 with
      | none => rfl
      | some p => exact if_neg fun hboth => heq hboth.1
    refine ⟨held, pending, h.single.of_samePids hpids, h.queued, h.scanCodes, h.mail.of_eq ?_ (fun _ _ => rfl) rfl ?_,
      hvisits, hledger.silent rfl hsilent⟩
    · exact congrArg Task.messageQueue (Kernel.setTask_task_of_ne (switchTo caller s.kernel) _ (Ne.symm heq))
    · exact Function.update_of_ne (Ne.symm heq) _ _

theorem KeyInv.step (h : KeyInv g listener tr s codes packets held pending) {e : KbEvent}
    (hstep : KbStep g s e s') (hroom : NoOverflow ⟨s, e, s'⟩) (hcounts : CountsKept ⟨s, e, s'⟩) :
    ∃ codes' packets' held' pending',
      KeyInv g listener (tr ++ [⟨s, e, s'⟩]) s' codes' packets' held' pending' := by
  cases hstep with
  | task hready hmalloc hcall => exact h.task hmalloc hcall hroom hcounts
  | interrupt hbyte =>
    obtain ⟨packets', hinv⟩ := h.interrupt (hroom.1 _ rfl) (hroom.2 _ rfl)
    exact ⟨_, _, _, _, hinv⟩
  | @read caller hcaller =>
    obtain ⟨held', pending', hinv⟩ := @KeyInv.read _ _ _ _ _ _ _ _ h caller fun ptr count heq =>
      hcounts ((s.kernel.task caller).messageQueue, count) (by simp [countStored, heq])
    exact ⟨_, _, _, _, hinv⟩

/-! ## Runs

The invariant over runs, and what it says when the task is between two packets. -/

/-- The keyboard task stands before its loop and the listener is not in `message`; `kb_queue` and the
listener's queue are empty. -/
structure KeyStart (g : KbGlobals) (listener : TaskPtr) (s : Keyboard) : Prop where
  pc : s.pc = .remove .test
  reader : s.reader listener = .test
  statics : s.statics = bootConverter
  kbQueue : ∃ data, s.kbQueue = queueInit data 16
  messageQueue : ∃ data, (s.kernel.task listener).messageQueue = queueInit data 32
  single : SingleListener g listener s.kernel

/-- **The beginning.** -/
theorem KeyStart.inv (h : KeyStart g listener s) : KeyInv g listener [] s [] [] [] [] := by
  obtain ⟨data, hkb⟩ := h.kbQueue
  obtain ⟨data', hqueue⟩ := h.messageQueue
  have hempty : ∀ data size, 0 < size → size < 65536 → (queueInit data size).Shared null .test .test [] :=
    fun data size hpos hlt => Queue.Shared.of_holds (queueInit_holds data hpos hlt) null
  refine ⟨h.single, ?_, List.forall_mem_nil _, ⟨?_, rfl, List.not_mem_nil⟩, ?_, bootConverter, ?_, ?_⟩
  · rw [h.pc, hkb]
    exact hempty data 16 (by decide) (by decide)
  · rw [hqueue, h.pc, h.reader]
    exact hempty data' 32 (by decide) (by decide)
  · rw [h.pc]
    trivial
  · rw [h.statics]
    rfl
  · rw [h.pc]
    rfl

/-- The packets received by the listener, those pending in its queue (one that it is removing among them)
and those that the codes in `kb_queue` will give are, in this order, the packets of all codes delivered. -/
def Accounted (listener : TaskPtr) (tr : List (Transition Keyboard KbEvent)) (s : Keyboard) : Prop :=
  ∃ (codes packets held : List Nat) (pending : List Message) (statics : Converter), s.kbQueue.Holds codes
    ∧ (s.kernel.task listener).messageQueue.Shared null .test (s.reader listener) held
    ∧ held.map s.kernel.message = pending.map some
    ∧ convertAll s.statics codes = .ok (packets, statics)
    ∧ convertAll bootConverter (delivered tr)
      = .ok (packetsReceived listener tr ++ pending.map Message.data ++ packets, statics)

theorem KeyInv.accounted (h : KeyInv g listener tr s codes packets held pending)
    (hpc : s.pc.dequeued listener = false) : Accounted listener tr s := by
  -- no packet is between the two queues
  have hbetween : s.pc.sending listener = [] ∧ s.pc.adding = (null, .test) := by
    cases hs : s.pc with
    | visit packet ts =>
      rw [hs] at hpc
      exact ⟨if_neg (of_decide_eq_false hpc), rfl⟩
    | send | add =>
      rw [hs] at hpc
      cases hpc
    | remove | convert | wake | block | register | timeout | schedule => exact ⟨rfl, rfl⟩
  obtain ⟨statics, hcodes, hledger⟩ := h.ledger
  have hshared := h.mail.shared
  rw [hbetween.1, List.append_nil] at hledger
  rw [hbetween.2] at hshared
  refine ⟨codes, packets, held, pending, statics, h.queued.holds hpc, hshared, h.mail.messages, hcodes, hledger⟩

/-- **The keyboard pipeline.** Start with empty queues and one task that listens, and let interrupts,
the statements of the keyboard task and those of `message` come in any order, with scancodes of the
keymap and no overflow. While each count that is stored was loaded from the count that is there, the
packets received, those pending and those that the queued codes will give are the packets of all codes
delivered, wherever the keyboard task does not stand between the removal of a code and the sending of its
packet. -/
theorem keyboard_pipeline {s₀ : Keyboard} (hstart : KeyStart g listener s₀)
    (hrun : Run (KbStep g) s₀ tr s) (hroom : ∀ τ ∈ tr, NoOverflow τ) (hcounts : ∀ τ ∈ tr, CountsKept τ)
    (hpc : s.pc.dequeued listener = false) : Accounted listener tr s := by
  have hinv : ∃ codes packets held pending, KeyInv g listener tr s codes packets held pending := by
    clear hpc
    induction hrun with
    | nil => exact ⟨_, _, _, _, hstart.inv⟩
    | snoc _ hstep ih =>
      rw [List.forall_mem_append, List.forall_mem_singleton] at hroom hcounts
      obtain ⟨codes, packets, held, pending, hpre⟩ := ih hroom.1 hcounts.1
      exact hpre.step hstep hroom.2 hcounts.2
  obtain ⟨codes, packets, held, pending, h⟩ := hinv
  exact h.accounted hpc

end

/-! ## Two keys

Two runs. In both the second key is pressed before the first one has been sent; what matters is whether it comes
between the load and the store of `q->count--`. -/

theorem keyBoot_start : KeyStart keyGlobals 3 keyBoot :=
  ⟨rfl, rfl, rfl, ⟨_, rfl⟩, ⟨_, rfl⟩, by decide, by decide, by unfold DistinctPids; decide⟩

/-- The statements from the conversion of a code to the next `queue_remove`, with one task of three that
listens. -/
def keySent : List KeyMove := List.replicate 12 (.task 100)

/-- Two keys are pressed, the second while the first is converted; the listener reads while the keyboard
task goes on. -/
def twoKeys : List KeyMove :=
  .interrupt 0x1E :: List.replicate 5 (.task 100) ++ .interrupt 0x30 :: keySent ++ List.replicate 3 (.read 3)
    ++ [.task 100] ++ List.replicate 2 (.read 3)

/-- The second key is pressed between the load and the store of `q->count--`. -/
def keyInWindow : List KeyMove :=
  .interrupt 0x1E :: List.replicate 4 (.task 100) ++ .interrupt 0x30 :: .task 100 :: keySent

theorem twoKeys_isSome : (keyRun keyGlobals twoKeys [] keyBoot).isSome := by
  decide +kernel

theorem keyInWindow_isSome : (keyRun keyGlobals keyInWindow [] keyBoot).isSome := by
  decide +kernel

/-- The first key is received, and the second waits in `kb_queue`. -/
theorem keyboard_pipeline_keys :
    ∃ (tr : List (Transition Keyboard KbEvent)) (s : Keyboard),
      Run (KbStep keyGlobals) keyBoot tr s ∧ delivered tr = [0x1E, 0x30] ∧ packetsReceived 3 tr = [0x161]
        ∧ s.kbQueue.items = [0x30] ∧ Accounted 3 tr s := by
  have hrun := keyRun_sound twoKeys Run.nil twoKeys_isSome
  refine ⟨_, _, hrun, by decide +kernel, by decide +kernel, by decide +kernel, ?_⟩
  exact keyboard_pipeline keyBoot_start hrun (by decide +kernel) (by decide +kernel) (by decide +kernel)

/-- The second code is in the array, but `kb_queue` is empty by its count. -/
theorem key_lost_in_count :
    ∃ (tr : List (Transition Keyboard KbEvent)) (s : Keyboard),
      Run (KbStep keyGlobals) keyBoot tr s ∧ (∀ τ ∈ tr, NoOverflow τ) ∧ s.pc.dequeued 3 = false
        ∧ delivered tr = [0x1E, 0x30] ∧ packetsReceived 3 tr = [] ∧ s.kbQueue.items = [] ∧ ¬ Accounted 3 tr s := by
  have hrun := keyRun_sound keyInWindow Run.nil keyInWindow_isSome
  have hconverted : convertAll bootConverter [0x1E, 0x30] = .ok ([0x161, 0x162], bootConverter) := by rfl
  have hdelivered : delivered ((keyRun keyGlobals keyInWindow [] keyBoot).get keyInWindow_isSome).1 = [0x1E, 0x30] := by
    decide +kernel
  have hreceived : packetsReceived 3 ((keyRun keyGlobals keyInWindow [] keyBoot).get keyInWindow_isSome).1 = [] := by
    decide +kernel
  have hcount : ((keyRun keyGlobals keyInWindow [] keyBoot).get keyInWindow_isSome).2.kbQueue.count = 0 := by
    decide +kernel
  have hmail : (((keyRun keyGlobals keyInWindow [] keyBoot).get keyInWindow_isSome).2.kernel.task 3).messageQueue.count = 1 := by
    decide +kernel
  refine ⟨_, _, hrun, by decide +kernel, by decide +kernel, hdelivered, hreceived, by decide +kernel, ?_⟩
  rintro ⟨codes, packets, held, pending, statics, hholds, hshared, hmessages, hcodes, hall⟩
  -- one packet is pending and none is to come
  have hcodesNil : codes = [] := List.length_eq_zero_iff.mp (hholds.count_eq.symm.trans hcount)
  rw [hcodesNil] at hcodes
  obtain ⟨rfl, -⟩ := Prod.mk.inj (Except.ok.inj hcodes)
  have hlength : pending.length = 1 := by
    have hheld : held.length = 1 := hshared.count_eq.symm.trans hmail
    have hmap := congrArg List.length hmessages
    rw [List.length_map, List.length_map] at hmap
    omega
  rw [hdelivered, hconverted, hreceived] at hall
  have hpackets := congrArg List.length (Prod.mk.inj (Except.ok.inj hall)).1
  simp [hlength] at hpackets

end DiyOS
