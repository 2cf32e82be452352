import DiyOS.Lib.Journal
import DiyOS.Lib.CString
import DiyOS.Lib.Run
import DiyOS.Lib.Word

/-!
# The edit field (`gui/widgets/edit.c`)

The text of an edit field, byte by byte: the memory from the pointer `text` on, with the writes through it.
The widget, the mask and the callback of the user do not touch it.

* **`Shows`** — the string in memory and the cursor are those of a reference buffer.
* **`edit_shows_iff`** — they are after each call, as long as no key is put before a stale character.
* **`edit_bounds_iff`** — cursor and writes stay in bounds, as long as no text is longer than the field.
-/

namespace DiyOS

open Word CString

/-- `edit_t`, without its widget and its mask. -/
structure EditField where
  text : Journal
  length : Nat
  cursorPosition : Nat

namespace EditField

/-! ## The source -/

/-- `edt->text[edt->cursor_position] = c`. -/
def store (edt : EditField) (c : UInt8) : EditField := { edt with text := edt.text.byte edt.cursorPosition c }

/-- `edt->text[edt->cursor_position++] = c`. -/
def put (edt : EditField) (c : UInt8) : EditField :=
  { edt.store c with cursorPosition := u8 (edt.cursorPosition + 1) }

/-- `edit_create`, where `malloc` returned the memory `m`. -/
def editCreate (m : Mem) : EditField := ⟨(Journal.mk m []).byte 0 0, 32, 0⟩

def editKeydown (edt : EditField) (key : Nat) : EditField :=
  if u8 key = 8 then
    if 0 < edt.cursorPosition then store { edt with cursorPosition := edt.cursorPosition - 1 } 0 else edt
  else if edt.length ≤ edt.cursorPosition then edt
  else edt.put (UInt8.ofNat key)

/-- The loop of `edit_set_text`, where `text + cursor_position` points to the argument. -/
def editSetTextLoop (edt : EditField) : CString → EditField
  | [] => edt.store 0
  | c :: text =>
    let edt := edt.put c
    if edt.length < edt.cursorPosition then edt.store 0 else editSetTextLoop edt text

def editSetText (edt : EditField) (text : CString) : EditField :=
  editSetTextLoop { edt with cursorPosition := 0 } text

/-- A call that changes the field. -/
inductive Call where
  | setText (text : CString)
  | keydown (key : Nat)

def call (edt : EditField) : Call → EditField
  | .setText text => edt.editSetText text
  | .keydown key => edt.editKeydown key

/-! ## What the field should hold

The characters typed, without those that were deleted, and no more than fit. -/

/-- The reference buffer: a string of at most `length` characters. -/
def reference (length : Nat) (s : CString) : Call → CString
  | .setText text => text
  | .keydown key =>
    if u8 key = 8 then s.dropLast
    else if s.length < length then s ++ [UInt8.ofNat key] else s

/-- The field holds the buffer `s`. -/
structure Shows (edt : EditField) (s : CString) : Prop where
  string : ∀ n, s.length < n → edt.text.mem.cString 0 n = s
  cursor : edt.cursorPosition = s.length
  terminator : edt.text.mem edt.cursorPosition = 0

/-! ## One call

Each call is a few stores. What it does to the contents, and where it stores, are separate questions; both are
read off these lemmas. -/

section

variable {edt edt' : EditField} {s text : CString} {c : UInt8} {key : Nat}

/-- The bytes up to the one that is stored. -/
theorem store_bytes (edt : EditField) (c : UInt8) :
    (edt.store c).text.mem.bytes 0 (edt.cursorPosition + 1)
      = edt.text.mem.bytes 0 edt.cursorPosition ++ [c] := by
  have h := edt.text.mem.bytes_writeByte 0 edt.cursorPosition c
  rw [Nat.zero_add] at h
  exact h

theorem store_extends (edt : EditField) (c : UInt8) (h : edt.cursorPosition ≤ edt.length) :
    Journal.Extends ⟨0, edt.length + 1⟩ edt.text (edt.store c).text := by
  refine Journal.extends_byte _ c ⟨Nat.zero_le _, ?_⟩
  show edt.cursorPosition + 1 ≤ 0 + (edt.length + 1)
  omega

/-- `edt'` has the characters `text` behind the cursor of `edt`, with a NUL. -/
structure Puts (edt : EditField) (text : CString) (edt' : EditField) : Prop where
  length : edt'.length = edt.length
  cursor : edt'.cursorPosition = edt.cursorPosition + text.length
  bytes : edt'.text.mem.bytes 0 (edt'.cursorPosition + 1)
    = edt.text.mem.bytes 0 edt.cursorPosition ++ text ++ [0]
  writes : Journal.Extends ⟨0, edt.length + 1⟩ edt.text edt'.text

theorem put_cursor (edt : EditField) (c : UInt8) (hlength : edt.length < 255)
    (h : edt.cursorPosition ≤ edt.length) :
    (edt.put c).cursorPosition = edt.cursorPosition + 1 := u8_of_lt (by omega)

/-- The loop of `edit_set_text` on a text that fits behind the cursor. -/
theorem editSetTextLoop_puts (edt : EditField) (hlength : edt.length < 255)
    (hfits : edt.cursorPosition + text.length ≤ edt.length) : Puts edt text (editSetTextLoop edt text) := by
  induction text generalizing edt with
  | nil =>
    refine ⟨rfl, rfl, ?_, store_extends edt 0 hfits⟩
    rw [List.append_nil]
    exact store_bytes edt 0
  | cons c text ih =>
    rw [List.length_cons] at hfits
    have hcursor := put_cursor edt c hlength (by omega)
    have hnext : ¬ (edt.put c).length < (edt.put c).cursorPosition := by
      rw [hcursor]
      show ¬ edt.length < edt.cursorPosition + 1
      omega
    have h := ih (edt.put c) hlength (by rw [hcursor]; show _ ≤ edt.length; omega)
    rw [editSetTextLoop]
    simp only [if_neg hnext]
    refine ⟨h.length, ?_, ?_, (store_extends edt c (by omega)).trans h.writes⟩
    · rw [h.cursor, hcursor, List.length_cons]
      omega
    · rw [h.bytes, hcursor]
      show (edt.store c).text.mem.bytes 0 _ ++ text ++ [0] = _
      rw [store_bytes]
      simp

/-- A longer text leaves the cursor behind the last byte. -/
theorem editSetTextLoop_long (edt : EditField) (hlength : edt.length < 255)
    (hcursor : edt.cursorPosition ≤ edt.length) (hlong : edt.length < edt.cursorPosition + text.length) :
    (editSetTextLoop edt text).cursorPosition = edt.length + 1
      ∧ (editSetTextLoop edt text).length = edt.length := by
  induction text generalizing edt with
  | nil => exact absurd hlong (Nat.not_lt.mpr hcursor)
  | cons c text ih =>
    rw [List.length_cons] at hlong
    have hput := put_cursor edt c hlength hcursor
    rw [editSetTextLoop]
    -- the test comes after the store, so that the cursor ends one behind the length
    by_cases hend : edt.length < edt.cursorPosition + 1
    · have hstop : (edt.put c).length < (edt.put c).cursorPosition := by
        rw [hput]
        exact hend
      simp only [if_pos hstop]
      refine ⟨?_, rfl⟩
      show (edt.put c).cursorPosition = _
      rw [hput]
      omega
    · have hnext : ¬ (edt.put c).length < (edt.put c).cursorPosition := by
        rw [hput]
        exact hend
      simp only [if_neg hnext]
      refine ih (edt.put c) hlength ?_ ?_
      · rw [hput]
        show _ ≤ edt.length
        omega
      · rw [hput]
        show edt.length < _
        omega

/-- The field of `edit_create` holds the buffer `s`. -/
structure Holds (edt : EditField) (s : CString) : Prop where
  length : edt.length = 32
  cursor : edt.cursorPosition = s.length
  fits : s.length ≤ edt.length
  nul : 0 ∉ s
  text : edt.text.mem.bytes 0 s.length = s
  terminator : edt.text.mem s.length = 0

theorem Holds.shows (h : Holds edt s) : Shows edt s := by
  have hbytes : edt.text.mem.bytes 0 (s.length + 1) = s ++ [0] := by
    rw [Mem.bytes_add, h.text, Mem.bytes_succ, Nat.zero_add, h.terminator]
    rfl
  refine ⟨fun n hn => Mem.cString_eq h.nul hn hbytes, h.cursor, ?_⟩
  rw [h.cursor]
  exact h.terminator

/-- A field whose bytes up to the cursor are the buffer and a NUL. -/
theorem Holds.of_bytes (hlength : edt.length = 32) (hcursor : edt.cursorPosition = s.length)
    (hfits : s.length ≤ edt.length) (hnul : 0 ∉ s)
    (hbytes : edt.text.mem.bytes 0 (edt.cursorPosition + 1) = s ++ [0]) : Holds edt s := by
  rw [hcursor, Mem.bytes_add, Mem.bytes_succ, Nat.zero_add] at hbytes
  obtain ⟨htext, hlast⟩ := List.append_inj hbytes (Mem.length_bytes _ _ _)
  exact ⟨hlength, hcursor, hfits, hnul, htext, (List.cons.inj hlast).1⟩

theorem holds_create (m : Mem) : Holds (editCreate m) [] :=
  ⟨rfl, rfl, Nat.zero_le _, nofun, rfl, Mem.writeByte_self m 0 0⟩

theorem Holds.setText (h : Holds edt s) (hnul : 0 ∉ text) (hfits : text.length ≤ edt.length) :
    Holds (edt.editSetText text) text := by
  have hlt : edt.length < 255 := by
    rw [h.length]
    decide
  have hputs := editSetTextLoop_puts { edt with cursorPosition := 0 } hlt
    (show 0 + text.length ≤ edt.length by omega)
  have hcursor := hputs.cursor.trans (Nat.zero_add _)
  refine Holds.of_bytes (hputs.length.trans h.length) hcursor ?_ hnul hputs.bytes
  rw [show (edt.editSetText text).length = edt.length from hputs.length]
  exact hfits

/-- The last character is deleted. -/
theorem Holds.backspace (h : Holds edt s) (hkey : u8 key = 8) : Holds (edt.editKeydown key) s.dropLast := by
  unfold editKeydown
  rw [if_pos hkey]
  rcases List.eq_nil_or_concat' s with rfl | ⟨s, c, rfl⟩
  · rw [if_neg (by rw [h.cursor]; decide)]
    exact h
  · have hcursor : edt.cursorPosition = s.length + 1 := by
      rw [h.cursor, List.length_append, List.length_singleton]
    have htext := h.text
    rw [List.length_append, List.length_singleton, Mem.bytes_add] at htext
    obtain ⟨hs, _⟩ := List.append_inj htext (Mem.length_bytes _ _ _)
    rw [if_pos (by omega), List.dropLast_concat]
    refine Holds.of_bytes h.length (by simp [store, hcursor]) ?_ ?_ ?_
    · exact Nat.le_trans (by simp) h.fits
    · exact fun hin => h.nul (List.mem_append_left _ hin)
    · rw [show edt.cursorPosition - 1 = s.length by omega]
      refine (store_bytes _ 0).trans ?_
      rw [hs]

/-- A key that is appended: the buffer is that of the reference as soon as the byte behind is NUL. -/
theorem Holds.put (h : Holds edt s) (hlt : s.length < edt.length) (hc : c ≠ 0)
    (hclean : edt.text.mem (edt.cursorPosition + 1) = 0) : Holds (edt.put c) (s ++ [c]) := by
  have hcursor := put_cursor edt c (by rw [h.length]; decide) (by rw [h.cursor]; exact h.fits)
  have hbytes := store_bytes edt c
  rw [h.cursor, h.text] at hbytes
  refine ⟨h.length, ?_, ?_, ?_, ?_, ?_⟩
  · rw [hcursor, h.cursor, List.length_append, List.length_singleton]
  · rw [List.length_append, List.length_singleton]
    exact hlt
  · rw [List.mem_append, List.mem_singleton, not_or]
    exact ⟨h.nul, hc.symm⟩
  · rw [List.length_append, List.length_singleton]
    exact hbytes
  · rw [List.length_append, List.length_singleton, ← h.cursor]
    refine (Mem.writeByte_of_ne _ c ?_).trans hclean
    omega

end

/-! ## Contents

`edit_set_text` ends its text with a NUL, a key does not. So after a key the field shows what was behind the
cursor before. -/

/-- What the calls promise: C strings that fit, and keys that are not zero. -/
def Call.Allowed (length : Nat) : Call → Prop
  | .setText text => 0 ∉ text ∧ text.length ≤ length
  | .keydown key => u8 key ≠ 0

/-- A key that is appended finds a NUL behind its place already. -/
def EndsClean (edt : EditField) : Call → Prop
  | .setText _ => True
  | .keydown key =>
    u8 key ≠ 8 → edt.cursorPosition < edt.length → edt.text.mem (edt.cursorPosition + 1) = 0

instance (length : Nat) : (c : Call) → Decidable (c.Allowed length)
  | .setText text => inferInstanceAs (Decidable (0 ∉ text ∧ text.length ≤ length))
  | .keydown key => inferInstanceAs (Decidable (u8 key ≠ 0))

instance (edt : EditField) : (c : Call) → Decidable (edt.EndsClean c)
  | .setText _ => isTrue trivial
  | .keydown key => inferInstanceAs (Decidable (u8 key ≠ 8 → edt.cursorPosition < edt.length →
      edt.text.mem (edt.cursorPosition + 1) = 0))

/-- One call, on the field and on the reference buffer. -/
def Edits (p : EditField × CString) (c : Call) (p' : EditField × CString) : Prop :=
  c.Allowed p.1.length ∧ p' = (p.1.call c, reference p.1.length p.2 c)

section

variable {edt : EditField} {s : CString}

theorem ofNat_ne_zero {key : Nat} (hkey : u8 key ≠ 0) : UInt8.ofNat key ≠ 0 := by
  intro heq
  have hnat := congrArg UInt8.toNat heq
  rw [UInt8.toNat_ofNat'] at hnat
  exact hkey hnat

/-- **One call** from a field that holds the reference buffer. -/
theorem Holds.call (h : Holds edt s) {c : Call} (hc : c.Allowed edt.length) (hclean : edt.EndsClean c) :
    Holds (edt.call c) (reference edt.length s c) := by
  cases c with
  | setText text => exact h.setText hc.1 hc.2
  | keydown key =>
    show Holds (edt.editKeydown key) (if u8 key = 8 then _ else _)
    by_cases hkey : u8 key = 8
    · rw [if_pos hkey]
      exact h.backspace hkey
    · rw [if_neg hkey]
      unfold editKeydown
      rw [if_neg hkey, h.cursor]
      by_cases hlt : s.length < edt.length
      · rw [if_pos hlt, if_neg (Nat.not_le.mpr hlt)]
        exact h.put hlt (ofNat_ne_zero hc) (hclean hkey (by rw [h.cursor]; exact hlt))
      · rw [if_neg hlt, if_pos (Nat.not_lt.mp hlt)]
        exact h

/-- If the field shows the reference buffer after the call, there was a NUL behind an appended key. -/
theorem Holds.endsClean (h : Holds edt s) {c : Call}
    (hshows : (edt.call c).Shows (reference edt.length s c)) : edt.EndsClean c := by
  cases c with
  | setText text => trivial
  | keydown key =>
    intro hkey hlt
    have hterminator := hshows.terminator
    have hcall : edt.call (.keydown key) = edt.put (UInt8.ofNat key) := by
      show edt.editKeydown key = _
      unfold editKeydown
      rw [if_neg hkey, if_neg (Nat.not_le.mpr hlt)]
    rw [hcall, put_cursor _ _ (by rw [h.length]; decide) (Nat.le_of_lt hlt)] at hterminator
    -- the key itself is written before this byte
    rw [← hterminator]
    exact (Mem.writeByte_of_ne _ _ (Nat.succ_ne_self _)).symm

/-- **Contents.** For any memory that `malloc` returns and any calls, the field holds the reference buffer
after each of them exactly if each key that is appended finds a NUL behind its place. -/
theorem edit_shows_iff (m : Mem) {tr : List (Transition (EditField × CString) Call)}
    {p : EditField × CString} (hrun : Run Edits (editCreate m, []) tr p) :
    (editCreate m).Shows []
      ∧ ((∀ τ ∈ tr, τ.post.1.Shows τ.post.2) ↔ ∀ τ ∈ tr, τ.pre.1.EndsClean τ.event) := by
  refine ⟨(holds_create m).shows, ?_⟩
  refine hrun.all_iff_while (I := fun p => Holds p.1 p.2) (P := fun τ => τ.post.1.Shows τ.post.2)
    (Q := fun τ => τ.pre.1.EndsClean τ.event) (holds_create m) ?_ ?_
  · rintro p c p' hp ⟨hc, rfl⟩
    exact ⟨fun hshows => hp.endsClean hshows, fun hclean => (hp.call hc hclean).shows⟩
  · rintro p c p' hp ⟨hc, rfl⟩ hclean
    exact hp.call hc hclean

/-- In memory that holds zero, a key and the backspace. -/
theorem edit_shows_backspace : ∃ tr p, Run Edits (editCreate fun _ => 0, []) tr p
    ∧ tr.map Transition.event = [.keydown 97, .keydown 8] ∧ ∀ τ ∈ tr, τ.post.1.Shows τ.post.2 := by
  have hcall : ∀ p c, c.Allowed p.1.length → Edits p c (p.1.call c, reference p.1.length p.2 c) :=
    fun _ _ hc => ⟨hc, rfl⟩
  have hrun := (Run.nil.snoc (hcall (editCreate fun _ => 0, []) (.keydown 97) (by decide))).snoc
    (hcall _ (.keydown 8) (by decide))
  refine ⟨_, _, hrun, rfl, (edit_shows_iff _ hrun).2.mpr ?_⟩
  simp only [List.nil_append, List.cons_append, List.forall_mem_cons]
  exact ⟨by decide, by decide, List.forall_mem_nil _⟩

/-- `abc` is set, and then the empty text. The key `x` is put before the `b` that is left of the first text:
the field holds `xbc`. -/
theorem edit_stale : ∃ tr p, Run Edits (editCreate fun _ => 0, []) tr p
    ∧ tr.map Transition.event = [.setText [97, 98, 99], .setText [], .keydown 120]
    ∧ p.2 = [120] ∧ p.1.text.mem.cString 0 33 = [120, 98, 99] ∧ ¬ p.1.Shows p.2 := by
  have hcall : ∀ p c, c.Allowed p.1.length → Edits p c (p.1.call c, reference p.1.length p.2 c) :=
    fun _ _ hc => ⟨hc, rfl⟩
  have hset := (Run.nil.snoc (hcall (editCreate fun _ => 0, []) (.setText [97, 98, 99]) (by decide))).snoc
    (hcall _ (.setText []) (by decide))
  refine ⟨_, _, hset.snoc (hcall _ (.keydown 120) (by decide)), rfl, rfl, by decide, ?_⟩
  intro hshows
  exact absurd hshows.terminator (by decide)

/-! ## Bounds

The buffer has `length + 1` bytes, and `length` is 32. A key stops at the end; `edit_set_text` tests the index
after it has been increased. -/

/-- One call, with any C string or any key. -/
def Calls (edt : EditField) (c : Call) (edt' : EditField) : Prop :=
  (∀ text, c = .setText text → 0 ∉ text) ∧ edt' = edt.call c

/-- The cursor is at most `length`, and so is each index that was written. -/
structure InBounds (edt : EditField) : Prop where
  cursor : edt.cursorPosition ≤ edt.length
  writes : ∀ w ∈ edt.text.writes, w.Inside ⟨0, edt.length + 1⟩

theorem InBounds.extends {edt' : EditField} (h : InBounds edt) (hlength : edt'.length = edt.length)
    (hcursor : edt'.cursorPosition ≤ edt.length)
    (hwrites : Journal.Extends ⟨0, edt.length + 1⟩ edt.text edt'.text) : InBounds edt' := by
  obtain ⟨ws, heq, hws⟩ := hwrites.writes
  refine ⟨by rw [hlength]; exact hcursor, fun w hw => ?_⟩
  rw [heq] at hw
  rw [hlength]
  exact (List.mem_append.mp hw).elim (h.writes w) (hws w)

theorem InBounds.keydown (h : InBounds edt) (hlength : edt.length = 32) (key : Nat) :
    InBounds (edt.editKeydown key) ∧ (edt.editKeydown key).length = edt.length := by
  have hcursor := h.cursor
  unfold editKeydown
  split
  · split
    · refine ⟨h.extends rfl ?_ ?_, rfl⟩
      · show edt.cursorPosition - 1 ≤ edt.length
        omega
      · exact store_extends { edt with cursorPosition := edt.cursorPosition - 1 } 0
          (show edt.cursorPosition - 1 ≤ edt.length by omega)
    · exact ⟨h, rfl⟩
  · split
    case isTrue => exact ⟨h, rfl⟩
    case isFalse hlt =>
      refine ⟨h.extends rfl ?_ (store_extends edt _ hcursor), rfl⟩
      rw [put_cursor edt _ (by omega) hcursor]
      omega

/-- A text does exactly if it fits. -/
theorem setText_bounds_iff (h : InBounds edt) (hlength : edt.length = 32) (text : CString) :
    (edt.editSetText text).length = edt.length
      ∧ (InBounds (edt.editSetText text) ↔ text.length ≤ edt.length) := by
  have hlt : edt.length < 255 := by omega
  by_cases hfits : text.length ≤ edt.length
  · have hputs := editSetTextLoop_puts { edt with cursorPosition := 0 } hlt
      (show 0 + text.length ≤ edt.length by omega)
    have hcursor : (edt.editSetText text).cursorPosition = text.length :=
      hputs.cursor.trans (Nat.zero_add _)
    rw [← hcursor] at hfits
    exact ⟨hputs.length, iff_of_true (h.extends hputs.length hfits hputs.writes) (hcursor ▸ hfits)⟩
  · have hlong := editSetTextLoop_long { edt with cursorPosition := 0 } hlt (Nat.zero_le _)
      (show edt.length < 0 + text.length by omega)
    refine ⟨hlong.2, iff_of_false ?_ hfits⟩
    intro hin
    have hcursor := hin.cursor
    rw [show (edt.editSetText text).cursorPosition = edt.length + 1 from hlong.1,
      show (edt.editSetText text).length = edt.length from hlong.2] at hcursor
    omega

/-- **Bounds.** For any texts and keys, the cursor and all writes stay in the field exactly if no text is
longer than the field. -/
theorem edit_bounds_iff (m : Mem) {tr : List (Transition EditField Call)}
    (hrun : Run Calls (editCreate m) tr edt) :
    (∀ τ ∈ tr, InBounds τ.post)
      ↔ ∀ τ ∈ tr, ∀ text, τ.event = .setText text → text.length ≤ τ.pre.length := by
  have hstep : ∀ edt c edt', edt.length = 32 ∧ InBounds edt → Calls edt c edt' →
      edt'.length = edt.length
        ∧ (InBounds edt' ↔ ∀ text, c = .setText text → text.length ≤ edt.length) := by
    rintro edt c edt' ⟨hlength, hin⟩ ⟨_, rfl⟩
    cases c with
    | setText text =>
      obtain ⟨hsame, hiff⟩ := setText_bounds_iff hin hlength text
      refine ⟨hsame, hiff.trans ⟨?_, fun hfits => hfits text rfl⟩⟩
      rintro hfits _ ⟨⟩
      exact hfits
    | keydown key =>
      obtain ⟨hbounds, hsame⟩ := hin.keydown hlength key
      exact ⟨hsame, iff_of_true hbounds nofun⟩
  have hcreate : InBounds (editCreate m) := by
    refine ⟨Nat.zero_le _, ?_⟩
    show ∀ w ∈ [(⟨0, 1⟩ : Extent)], _
    rw [List.forall_mem_singleton]
    exact (by decide : Extent.Inside ⟨0, 1⟩ ⟨0, 33⟩)
  refine hrun.all_iff_while (I := fun edt => edt.length = 32 ∧ InBounds edt)
    (P := fun τ => InBounds τ.post)
    (Q := fun τ => ∀ text, τ.event = .setText text → text.length ≤ τ.pre.length) ⟨rfl, hcreate⟩ ?_ ?_
  · exact fun edt c edt' hedt hcall => (hstep edt c edt' hedt hcall).2
  · intro edt c edt' hedt hcall hfits
    obtain ⟨hsame, hiff⟩ := hstep edt c edt' hedt hcall
    exact ⟨hsame.trans hedt.1, hiff.mpr hfits⟩

/-- A path of 32 characters fills the field; then a key is refused, a backspace deletes a character, and the
next key takes its place. -/
theorem edit_bounds_full : ∃ tr edt, Run Calls (editCreate fun _ => 0) tr edt
    ∧ tr.map Transition.event = [.setText (List.replicate 32 97), .keydown 98, .keydown 8, .keydown 99]
    ∧ edt.cursorPosition = 32 ∧ ∀ τ ∈ tr, InBounds τ.post := by
  have hset : Calls (editCreate fun _ => 0) (.setText (List.replicate 32 97)) _ :=
    ⟨by rintro _ ⟨⟩; decide, rfl⟩
  have hrun := ((((Run.nil.snoc hset).snoc (e := .keydown 98) ⟨nofun, rfl⟩).snoc (e := .keydown 8)
    ⟨nofun, rfl⟩).snoc (e := .keydown 99) ⟨nofun, rfl⟩)
  refine ⟨_, _, hrun, rfl, rfl, (edit_bounds_iff _ hrun).mpr ?_⟩
  simp only [List.nil_append, List.cons_append, List.forall_mem_cons]
  refine ⟨?_, nofun, nofun, nofun, nofun⟩
  rintro _ ⟨⟩
  decide

/-- A path of 33 characters: the cursor is 33, and NUL is written behind the last byte of the text. -/
theorem edit_overflow : ∃ edt, Run Calls (editCreate fun _ => 0)
      [⟨editCreate fun _ => 0, .setText (List.replicate 33 97), edt⟩] edt
    ∧ edt.length = 32 ∧ edt.cursorPosition = 33 ∧ ⟨33, 1⟩ ∈ edt.text.writes ∧ ¬ InBounds edt := by
  have hcall : Calls (editCreate fun _ => 0) (.setText (List.replicate 33 97)) _ :=
    ⟨by rintro _ ⟨⟩; decide, rfl⟩
  refine ⟨_, Run.nil.snoc hcall, rfl, rfl, ?_, ?_⟩
  · exact List.mem_append_right _ List.mem_cons_self
  · intro hin
    exact absurd hin.cursor (by decide)

end

end EditField

end DiyOS
