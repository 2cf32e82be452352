import DiyOS.KeyPipeline
import DiyOS.Lib.Events

/-!
# The state of the keyboard (`convert` in `drivers/kb.c`)

`convert` keeps a flag for each kind of modifier and for each lock key. One flag stands for both shift
keys, and the release of CTRL or of a lock key falls through into the `switch` of the keys that are
pressed.

* **`Converter.next`** — what a scancode does to the flags.
* **`convertCalls_eq`** — what a sequence of scancodes does, if none lies behind the keymap.
* **`modifiers_follow_iff`** — the modifiers follow the keys that are held exactly if the last codes of
  the shift keys and of CTRL are right.
* **`lock_keys_iff`** — the lock keys toggle with each press exactly if their releases cancel.
-/

namespace DiyOS

/-! ## Sequences of scancodes

`convert` is called for one code after the other, with the static variables as they are. -/

/-- `convert` called for one scancode after the other: what the calls return, and the statics behind
them. -/
def convertCalls : List Nat → Converter → Except Halt (List Converted × Converter)
  | [], s => .ok ([], s)
  | code :: codes, s => do
    let r ← convert code s
    let (rs, s) ← convertCalls codes r.statics
    return (r :: rs, s)

/-- `keymap` has a row for the scancode, or `convert` ignores it, or it is a release. -/
def InKeymap (code : Nat) : Prop := code < 105 ∨ 128 ≤ code

instance (code : Nat) : Decidable (InKeymap code) := inferInstanceAs (Decidable (_ ∨ _))

/-- Whether the scancode presses or releases the key `k`. -/
def keyEvent (k code : Nat) : Option Bool :=
  if code = k then some true else if code = k + keyReleased then some false else none

/-- The last code of the key `k` was a press. -/
def Held (k : Nat) (codes : List Nat) : Prop := lastEvent (keyEvent k) codes = some true

instance (k : Nat) (codes : List Nat) : Decidable (Held k codes) := inferInstanceAs (Decidable (_ = _))

/-- A press or a release of the key `k`. -/
def IsKey (k code : Nat) : Bool := (keyEvent k code).isSome

/-- What a scancode does to the flags. -/
def Converter.next (s : Converter) (code : Nat) : Converter where
  shift := ((keyEvent lshift code).or (keyEvent rshift code)).getD s.shift
  alt := (keyEvent DiyOS.alt code).getD s.alt
  -- the release of CTRL falls through to the press
  ctrl := ((keyEvent DiyOS.ctrl code).map fun _ => true).getD s.ctrl
  num := if IsKey keyNumLock code then !s.num else s.num
  caps := if IsKey keyCapsLock code then !s.caps else s.caps
  scroll := if IsKey keyScrollLock code then !s.scroll else s.scroll

/-! ## One scancode

A release goes through a `switch` of its own and, unless that returns, through the other one too, with the
highest bit taken off. Each case is a few assignments. -/

section

variable {code : Nat} {s : Converter}

theorem keymapKey_undefined (h : 105 ≤ code) (s : Converter) : keymapKey code s = .error .undefined := by
  have hlength : keymap.length = 105 := rfl
  unfold keymapKey
  rw [List.getElem?_eq_none (by omega)]

/-- Codes of other keys. -/
theorem keyEvent_none {k : Nat} (hpress : code ≠ k) (hrelease : code ≠ k + keyReleased) :
    keyEvent k code = none := by
  unfold keyEvent
  rw [if_neg hpress, if_neg hrelease]

/-- Lock keys and CTRL are the same whether they are pressed or released. -/
theorem isKey_release {k : Nat} (hk : k < 105) (h : code < 105) :
    IsKey k (code + keyReleased) = IsKey k code := by
  unfold IsKey keyEvent keyReleased
  by_cases heq : code = k
  · rw [if_neg (by omega), if_pos (by omega), if_pos heq]
    rfl
  · rw [if_neg (by omega), if_neg (by omega), if_neg heq, if_neg (by omega)]

/-- The second `switch`. -/
theorem convertKey_next (h : code < 105) (s : Converter) :
    ∃ key written, convertKey code s = .ok ⟨key, s.next code, written⟩
      ∧ (written = [] ∨ written = setLeds (s.next code)) := by
  unfold convertKey
  by_cases hnum : code = keyNumLock
  · subst hnum
    exact ⟨_, _, rfl, Or.inr rfl⟩
  by_cases hscroll : code = keyScrollLock
  · subst hscroll
    exact ⟨_, _, rfl, Or.inr rfl⟩
  by_cases hcaps : code = keyCapsLock
  · subst hcaps
    exact ⟨_, _, rfl, Or.inr rfl⟩
  by_cases hshift : code = lshift ∨ code = rshift
  · rcases hshift with rfl | rfl
    · exact ⟨_, _, rfl, Or.inl rfl⟩
    · exact ⟨_, _, rfl, Or.inl rfl⟩
  by_cases halt : code = alt
  · subst halt
    exact ⟨_, _, rfl, Or.inl rfl⟩
  rw [if_neg hnum, if_neg hscroll, if_neg hcaps, if_neg hshift, if_neg halt]
  obtain ⟨hleft, hright⟩ := not_or.mp hshift
  -- no release lies below 105
  have hnone : ∀ k, code ≠ k → keyEvent k code = none := fun k hne =>
    keyEvent_none hne (by unfold keyReleased; omega)
  have hnext : s.next code = if code = ctrl then { s with ctrl := true } else s := by
    by_cases hctrl : code = ctrl
    · rw [if_pos hctrl, hctrl]
      rfl
    · unfold Converter.next IsKey
      rw [if_neg hctrl, hnone _ hleft, hnone _ hright, hnone _ halt, hnone _ hctrl, hnone _ hnum,
        hnone _ hscroll, hnone _ hcaps]
      rfl
  rw [hnext]
  obtain ⟨key, hkey⟩ := keymapKey_ok h (if code = ctrl then { s with ctrl := true } else s)
  simp only [hkey]
  exact ⟨key, [], rfl, Or.inl rfl⟩

/-- A release, if the keymap has a row for its key. -/
theorem convert_release (h : code < 82) (s : Converter) :
    ∃ key written, convert (code + keyReleased) s = .ok ⟨key, s.next (code + keyReleased), written⟩
      ∧ (written = [] ∨ written = setLeds (s.next (code + keyReleased))) := by
  have hbit : (code + keyReleased) &&& keyReleased ≠ 0 :=
    (released_iff (by unfold keyReleased; omega)).mpr (by unfold keyReleased; omega)
  have hcode : (code + keyReleased) &&& 0x7F = code :=
    (Nat.and_two_pow_sub_one_eq_mod _ 7).trans (by unfold keyReleased; omega)
  unfold convert
  rw [if_neg (by unfold keyReleased keymapSize; omega), if_pos hbit]
  simp only [hcode]
  by_cases hshift : code = lshift ∨ code = rshift
  · rcases hshift with rfl | rfl
    · exact ⟨_, _, rfl, Or.inl rfl⟩
    · exact ⟨_, _, rfl, Or.inl rfl⟩
  by_cases halt : code = alt
  · subst halt
    exact ⟨_, _, rfl, Or.inl rfl⟩
  rw [if_neg hshift, if_neg halt]
  obtain ⟨hleft, hright⟩ := not_or.mp hshift
  generalize hs₁ : (if code = ctrl then { s with ctrl := false } else s) = s₁
  -- the second `switch` treats the release as a press
  have hnext : s₁.next code = s.next (code + keyReleased) := by
    by_cases hctrl : code = ctrl
    · subst hctrl hs₁
      rfl
    · rw [if_neg hctrl] at hs₁
      subst hs₁
      have hnone : ∀ k, k < 105 → code ≠ k →
          keyEvent k code = none ∧ keyEvent k (code + keyReleased) = none := by
        intro k hk hne
        exact ⟨keyEvent_none hne (by unfold keyReleased; omega),
          keyEvent_none (by unfold keyReleased; omega) (by omega)⟩
      unfold Converter.next
      rw [isKey_release (by decide) (by omega), isKey_release (by decide) (by omega),
        isKey_release (by decide) (by omega), (hnone lshift (by decide) hleft).1,
        (hnone lshift (by decide) hleft).2, (hnone rshift (by decide) hright).1,
        (hnone rshift (by decide) hright).2, (hnone DiyOS.alt (by decide) halt).1,
        (hnone DiyOS.alt (by decide) halt).2, (hnone DiyOS.ctrl (by decide) hctrl).1,
        (hnone DiyOS.ctrl (by decide) hctrl).2]
  obtain ⟨_, hfirst⟩ := keymapKey_ok (show code < keymap.length from Nat.lt_trans h (by decide)) s₁
  simp only [hfirst]
  rw [← hnext]
  exact convertKey_next (by omega) s₁

/-- **One scancode**: the flags, and the bytes for the LEDs. -/
theorem convert_next (h : InKeymap code) (s : Converter) :
    ∃ key written, convert code s = .ok ⟨key, s.next code, written⟩
      ∧ (written = [] ∨ written = setLeds (s.next code)) := by
  by_cases hlarge : 210 ≤ code
  · -- no key of the flags has such a release
    have hnone : ∀ k, k < 82 → keyEvent k code = none := fun k hk =>
      keyEvent_none (by omega) (by unfold keyReleased; omega)
    have hsame : s.next code = s := by
      unfold Converter.next IsKey
      rw [hnone lshift (by decide), hnone rshift (by decide), hnone DiyOS.alt (by decide),
        hnone DiyOS.ctrl (by decide), hnone keyNumLock (by decide), hnone keyCapsLock (by decide),
        hnone keyScrollLock (by decide)]
      rfl
    unfold convert
    rw [if_pos (show code ≥ keymapSize from hlarge), hsame]
    exact ⟨_, _, rfl, Or.inl rfl⟩
  · rcases h with hpress | hrelease
    · unfold convert
      rw [if_neg (show ¬ code ≥ keymapSize from hlarge), if_neg fun hbit =>
        (released_iff (by omega)).mp hbit (by omega)]
      exact convertKey_next hpress s
    · obtain ⟨c, rfl⟩ : ∃ c, code = c + keyReleased := ⟨code - 128, by unfold keyReleased; omega⟩
      exact convert_release (by unfold keyReleased at hlarge; omega) s

/-- Behind the keymap `convert` reads what is not there. -/
theorem convert_undefined (h : ¬ InKeymap code) (s : Converter) : convert code s = .error .undefined := by
  unfold InKeymap at h
  have hkey : ∀ k, k < 105 → code ≠ k := fun k hk => by omega
  unfold convert convertKey
  rw [if_neg (by unfold keymapSize; omega), if_neg fun hbit => (released_iff (by omega)).mp hbit (by omega),
    if_neg (hkey keyNumLock (by decide)), if_neg (hkey keyScrollLock (by decide)),
    if_neg (hkey keyCapsLock (by decide)),
    if_neg (fun hor => hor.elim (hkey lshift (by decide)) (hkey rshift (by decide))),
    if_neg (hkey DiyOS.alt (by decide))]
  simp only [keymapKey_undefined (show 105 ≤ code by omega)]

end

/-! ## Sequences

By induction over the codes; a code behind the keymap ends the sequence. -/

/-- **A sequence of scancodes**: each call leaves the flags that the codes up to its own give, and writes
those to the LEDs or nothing. -/
theorem convertCalls_eq {codes : List Nat} (h : ∀ code ∈ codes, InKeymap code) (s : Converter) :
    ∃ rs, convertCalls codes s = .ok (rs, codes.foldl Converter.next s)
      ∧ ∀ r ∈ rs, r.written = [] ∨ r.written = setLeds r.statics := by
  induction codes generalizing s with
  | nil => exact ⟨[], rfl, fun _ hr => absurd hr List.not_mem_nil⟩
  | cons code codes ih =>
    obtain ⟨hcode, hcodes⟩ := List.forall_mem_cons.mp h
    obtain ⟨key, written, hcall, hwritten⟩ := convert_next hcode s
    obtain ⟨rs, hrest, hall⟩ := ih hcodes (s.next code)
    refine ⟨⟨key, s.next code, written⟩ :: rs, ?_, ?_⟩
    · rw [convertCalls, bind_eq_ok]
      refine ⟨_, hcall, ?_⟩
      rw [bind_eq_ok]
      exact ⟨_, hrest, rfl⟩
    · intro r hr
      rcases List.mem_cons.mp hr with rfl | hr
      · exact hwritten
      · exact hall r hr

/-- A sequence that is converted has only codes of the keymap. -/
theorem inKeymap_of_convertCalls {codes : List Nat} {s s' : Converter} {rs : List Converted}
    (h : convertCalls codes s = .ok (rs, s')) : ∀ code ∈ codes, InKeymap code := by
  induction codes generalizing s rs with
  | nil => exact fun _ hcode => absurd hcode List.not_mem_nil
  | cons code codes ih =>
    rw [convertCalls, bind_eq_ok] at h
    obtain ⟨r, hcall, hrest⟩ := h
    obtain ⟨⟨rs', s₁⟩, hcalls, hpure⟩ := bind_eq_ok.mp hrest
    have hcode : InKeymap code := by
      by_contra hnot
      rw [convert_undefined hnot] at hcall
      cases hcall
    have hlast : s₁ = s' := congrArg Prod.snd (Except.ok.inj hpure)
    exact List.forall_mem_cons.mpr ⟨hcode, ih (hlast ▸ hcalls)⟩

/-- A property of the flags behind a sequence, and of all that is written to the LEDs. -/
theorem convertCalls_iff {codes : List Nat} {s : Converter} {P : Converter → Prop} :
    (∃ rs s', convertCalls codes s = .ok (rs, s') ∧ P s')
      ↔ (∀ code ∈ codes, InKeymap code) ∧ P (codes.foldl Converter.next s) := by
  constructor
  · rintro ⟨rs, s', hcalls, hs'⟩
    have hkeymap := inKeymap_of_convertCalls hcalls
    obtain ⟨rs', hcalls', _⟩ := convertCalls_eq hkeymap s
    have heq := Except.ok.inj (hcalls.symm.trans hcalls')
    have hlast : s' = codes.foldl Converter.next s := congrArg Prod.snd heq
    exact ⟨hkeymap, hlast ▸ hs'⟩
  · rintro ⟨hkeymap, hP⟩
    obtain ⟨rs, hcalls, _⟩ := convertCalls_eq hkeymap s
    exact ⟨rs, _, hcalls, hP⟩

/-! ## Modifiers

A modifier is held if its last press has not been followed by its release. The release of one shift key is taken
for the release of both, and that of `CTRL` goes on to the case of a press. -/

/-- Which keys `codes` leave held is what the modifiers say, and so is the column of the keymap. -/
structure ModifiersFollow (codes : List Nat) (s : Converter) : Prop where
  shift : s.shift = true ↔ Held lshift codes ∨ Held rshift codes
  ctrl : s.ctrl = true ↔ Held DiyOS.ctrl codes
  alt : s.alt = true ↔ Held DiyOS.alt codes
  column : ∀ code plain shifted, keymap[code]? = some (plain, shifted) →
    keymapKey code s = .ok (if Held lshift codes ∨ Held rshift codes then shifted else plain)

def IsShift (code : Nat) : Bool := IsKey lshift code || IsKey rshift code

/-- Presses and releases of the shift keys, as the flag has them. -/
def shiftEvent (code : Nat) : Option Bool := (keyEvent lshift code).or (keyEvent rshift code)

/-- The last code of the shift keys is not the release of one while the other is held. -/
structure ShiftsApart (codes : List Nat) : Prop where
  left : (codes.filter IsShift).getLast? = some (lshift + keyReleased) → ¬ Held rshift codes
  right : (codes.filter IsShift).getLast? = some (rshift + keyReleased) → ¬ Held lshift codes

section

variable {codes : List Nat}

theorem foldl_next_shift (codes : List Nat) (s : Converter) : (codes.foldl Converter.next s).shift
    = (lastEvent shiftEvent codes).getD s.shift := by
  rw [← foldl_getD]
  exact (List.foldl_hom Converter.shift fun _ _ => rfl).symm

theorem foldl_next_alt (codes : List Nat) (s : Converter) :
    (codes.foldl Converter.next s).alt = (lastEvent (keyEvent alt) codes).getD s.alt := by
  rw [← foldl_getD]
  exact (List.foldl_hom Converter.alt fun _ _ => rfl).symm

theorem foldl_next_ctrl (codes : List Nat) (s : Converter) : (codes.foldl Converter.next s).ctrl
    = (lastEvent (fun code => (keyEvent ctrl code).map fun _ => true) codes).getD s.ctrl := by
  rw [← foldl_getD]
  exact (List.foldl_hom Converter.ctrl fun _ _ => rfl).symm

/-- The four codes of shift keys. -/
theorem isShift_cases {code : Nat} (h : IsShift code = true) : code = lshift ∨ code = lshift + keyReleased
    ∨ code = rshift ∨ code = rshift + keyReleased := by
  have hkey : ∀ k, IsKey k code = true → code = k ∨ code = k + keyReleased := by
    intro k hk
    by_contra hnot
    obtain ⟨hpress, hrelease⟩ := not_or.mp hnot
    rw [IsKey, keyEvent_none hpress hrelease] at hk
    cases hk
  rcases Bool.or_eq_true_iff.mp h with hleft | hright
  · exact (hkey _ hleft).imp id Or.inl
  · exact Or.inr (Or.inr (hkey _ hright))

theorem isShift_of_shiftEvent {code : Nat} (h : (shiftEvent code).isSome) : IsShift code = true := by
  rw [shiftEvent, Option.isSome_or] at h
  exact h

theorem isShift_of_keyEvent {k code : Nat} (hk : k = lshift ∨ k = rshift) (h : (keyEvent k code).isSome) :
    IsShift code = true := by
  rcases hk with rfl | rfl
  · exact Bool.or_eq_true_iff.mpr (Or.inl h)
  · exact Bool.or_eq_true_iff.mpr (Or.inr h)

/-- The last code of the shift keys is the press of `k`. -/
theorem shift_pressed {k : Nat} (hk : k = lshift ∨ k = rshift)
    (hlast : (codes.filter IsShift).getLast? = some k) :
    lastEvent shiftEvent codes = some true ∧ Held k codes := by
  refine ⟨lastEvent_of_last (fun _ => isShift_of_shiftEvent) hlast ?_,
    lastEvent_of_last (fun _ => isShift_of_keyEvent hk) hlast (if_pos rfl)⟩
  rcases hk with rfl | rfl
  · rfl
  · rfl

/-- It is the release of `k`. -/
theorem shift_released {k : Nat} (hk : k = lshift ∨ k = rshift)
    (hlast : (codes.filter IsShift).getLast? = some (k + keyReleased)) :
    lastEvent shiftEvent codes = some false ∧ ¬ Held k codes := by
  have hrelease : keyEvent k (k + keyReleased) = some false ∧ shiftEvent (k + keyReleased) = some false := by
    rcases hk with rfl | rfl
    · exact ⟨rfl, rfl⟩
    · exact ⟨rfl, rfl⟩
  refine ⟨lastEvent_of_last (fun _ => isShift_of_shiftEvent) hlast hrelease.2, ?_⟩
  unfold Held
  rw [lastEvent_of_last (fun _ => isShift_of_keyEvent hk) hlast hrelease.1]
  decide

theorem shiftsApart_of_ne {last : Option Nat} (hlast : (codes.filter IsShift).getLast? = last)
    (hleft : last ≠ some (lshift + keyReleased)) (hright : last ≠ some (rshift + keyReleased)) :
    ShiftsApart codes :=
  ⟨fun h => absurd (hlast.symm.trans h) hleft, fun h => absurd (hlast.symm.trans h) hright⟩

/-- The one flag for both shift keys. -/
theorem shift_iff : ((lastEvent shiftEvent codes).getD false = true ↔ Held lshift codes ∨ Held rshift codes)
    ↔ ShiftsApart codes := by
  cases hlast : (codes.filter IsShift).getLast? with
  | none =>
    -- no shift key has been touched
    have hnil := List.getLast?_eq_none_iff.mp hlast
    have hnone : ∀ k, k = lshift ∨ k = rshift → ¬ Held k codes := by
      intro k hk
      unfold Held
      rw [lastEvent_of_filter_eq_nil (fun _ => isShift_of_keyEvent hk) hnil]
      decide
    rw [lastEvent_of_filter_eq_nil (fun _ => isShift_of_shiftEvent) hnil]
    refine iff_of_true (iff_of_false Bool.false_ne_true ?_) (shiftsApart_of_ne hlast nofun nofun)
    exact not_or.mpr ⟨hnone _ (Or.inl rfl), hnone _ (Or.inr rfl)⟩
  | some code =>
    have hmem := List.mem_of_getLast? hlast
    rcases isShift_cases (List.mem_filter.mp hmem).2 with rfl | rfl | rfl | rfl
    · obtain ⟨hflag, hheld⟩ := shift_pressed (Or.inl rfl) hlast
      rw [hflag]
      exact iff_of_true (iff_of_true rfl (Or.inl hheld)) (shiftsApart_of_ne hlast (by decide) (by decide))
    · obtain ⟨hflag, hheld⟩ := shift_released (Or.inl rfl) hlast
      rw [hflag]
      constructor
      · intro hiff
        exact ⟨fun _ hother => Bool.false_ne_true (hiff.mpr (Or.inr hother)),
          fun h => absurd (hlast.symm.trans h) (by decide)⟩
      · exact fun hapart => iff_of_false Bool.false_ne_true (not_or.mpr ⟨hheld, hapart.left hlast⟩)
    · obtain ⟨hflag, hheld⟩ := shift_pressed (Or.inr rfl) hlast
      rw [hflag]
      exact iff_of_true (iff_of_true rfl (Or.inr hheld)) (shiftsApart_of_ne hlast (by decide) (by decide))
    · obtain ⟨hflag, hheld⟩ := shift_released (Or.inr rfl) hlast
      rw [hflag]
      constructor
      · intro hiff
        exact ⟨fun h => absurd (hlast.symm.trans h) (by decide),
          fun _ hother => Bool.false_ne_true (hiff.mpr (Or.inl hother))⟩
      · exact fun hapart => iff_of_false Bool.false_ne_true (not_or.mpr ⟨hapart.right hlast, hheld⟩)

/-- The flag of CTRL, which its release sets too. -/
theorem ctrl_iff : ((lastEvent (fun code => (keyEvent ctrl code).map fun _ => true) codes).getD false = true
    ↔ Held ctrl codes) ↔ lastEvent (keyEvent ctrl) codes ≠ some false := by
  have hmap : lastEvent (fun code => (keyEvent ctrl code).map fun _ => true) codes
      = (lastEvent (keyEvent ctrl) codes).map fun _ => true := by
    unfold lastEvent
    rw [← List.getLast?_map, List.map_filterMap]
  rw [hmap, Held]
  cases lastEvent (keyEvent ctrl) codes with
  | none => simp
  | some pressed => cases pressed <;> simp

/-- **Modifiers.** Behind a sequence of scancodes the flags of the modifiers, and the column in which a
key is looked up, follow the keys that are held if and only if no code lies behind the keymap, the last
code of the shift keys is not the release of one while the other is held, and the last code of CTRL is
not its release. -/
theorem modifiers_follow_iff (codes : List Nat) :
    (∃ rs s, convertCalls codes bootConverter = .ok (rs, s) ∧ ModifiersFollow codes s)
      ↔ (∀ code ∈ codes, InKeymap code) ∧ ShiftsApart codes
        ∧ lastEvent (keyEvent ctrl) codes ≠ some false := by
  rw [convertCalls_iff]
  refine and_congr_right fun _ => ?_
  have hshift := foldl_next_shift codes bootConverter
  have halt := foldl_next_alt codes bootConverter
  have hctrl := foldl_next_ctrl codes bootConverter
  generalize codes.foldl Converter.next bootConverter = s at hshift halt hctrl
  constructor
  · intro h
    exact ⟨shift_iff.mp (hshift ▸ h.shift), ctrl_iff.mp (hctrl ▸ h.ctrl)⟩
  · rintro ⟨hapart, hreleased⟩
    have hflag : s.shift = true ↔ Held lshift codes ∨ Held rshift codes := by
      rw [hshift]
      exact shift_iff.mpr hapart
    refine ⟨hflag, ?_, ?_, ?_⟩
    · rw [hctrl]
      exact ctrl_iff.mpr hreleased
    · rw [halt, Held]
      cases lastEvent (keyEvent alt) codes with
      | none => simp [bootConverter]
      | some pressed => simp
    · intro code plain shifted hrow
      unfold keymapKey
      simp only [hrow, hflag]

end

/-- Both shift keys are pressed and one of them is released. -/
theorem modifiers_lost :
    ∃ rs s, convertCalls [0x2A, 0x36, 0xAA] bootConverter = .ok (rs, s) ∧ s.shift = false
      ∧ Held rshift [0x2A, 0x36, 0xAA] ∧ ¬ ModifiersFollow [0x2A, 0x36, 0xAA] s := by
  refine ⟨_, _, rfl, rfl, by decide, fun h => ?_⟩
  exact absurd (h.shift.mpr (by decide)) (by decide)

/-! ## Lock keys

A press toggles a lock. The release of the key comes to the same case. -/

/-- The number of press codes of the key `k` is odd. -/
def OddPresses (k : Nat) (codes : List Nat) : Bool := codes.count k % 2 = 1

/-- The byte `i` shows the lock keys as the LEDs do. -/
structure ShowsLeds (i : Nat) (s : Converter) : Prop where
  lt : i < 8
  scroll : i.testBit 0 = s.scroll
  num : i.testBit 1 = s.num
  caps : i.testBit 2 = s.caps

/-- Behind `codes` each lock key is in the state that its presses give, and whenever a call has written to
the LEDs, it wrote the states it left. -/
structure LocksFollow (codes : List Nat) (rs : List Converted) (s : Converter) : Prop where
  num : s.num = OddPresses keyNumLock codes
  caps : s.caps = OddPresses keyCapsLock codes
  scroll : s.scroll = OddPresses keyScrollLock codes
  leds : ∀ r ∈ rs, r.written ≠ [] → ∃ i, r.written = [0xED, i] ∧ ShowsLeds i r.statics

theorem setLeds_shows (s : Converter) : ∃ i, setLeds s = [0xED, i] ∧ ShowsLeds i s := by
  have hall : ∀ scroll num caps : Bool,
      let i := if scroll then 0 ||| 1 else 0
      let i := if num then i ||| 2 else i
      let i := if caps then i ||| 4 else i
      i < 8 ∧ i.testBit 0 = scroll ∧ i.testBit 1 = num ∧ i.testBit 2 = caps := by decide
  obtain ⟨hlt, hscroll, hnum, hcaps⟩ := hall s.scroll s.num s.caps
  exact ⟨_, rfl, hlt, hscroll, hnum, hcaps⟩

/-- The release codes of the key `k` are even in number. -/
def EvenReleases (k : Nat) (codes : List Nat) : Prop := codes.count (k + keyReleased) % 2 = 0

section

variable {codes : List Nat}

/-- A flag that presses and releases toggle. -/
theorem toggled_iff {k : Nat} : codes.foldl (fun v code => if IsKey k code then !v else v) false
      = OddPresses k codes ↔ EvenReleases k codes := by
  have hcount : codes.countP (IsKey k) = codes.count k + codes.count (k + keyReleased) := by
    induction codes with
    | nil => rfl
    | cons code codes ih =>
      have hbit : keyReleased = 128 := rfl
      rw [List.countP_cons, List.count_cons, List.count_cons, ih]
      by_cases hpress : code = k
      · simp [IsKey, keyEvent, hpress, hbit]
        omega
      · by_cases hrelease : code = k + keyReleased
        · simp [IsKey, keyEvent, hrelease, hbit]
          omega
        · simp [IsKey, keyEvent, hpress, hrelease]
  rw [foldl_toggle, hcount, Bool.false_xor, OddPresses, decide_eq_decide, EvenReleases]
  omega

theorem foldl_next_num (codes : List Nat) (s : Converter) : (codes.foldl Converter.next s).num
    = codes.foldl (fun v code => if IsKey keyNumLock code then !v else v) s.num :=
  (List.foldl_hom Converter.num fun _ _ => rfl).symm

theorem foldl_next_caps (codes : List Nat) (s : Converter) : (codes.foldl Converter.next s).caps
    = codes.foldl (fun v code => if IsKey keyCapsLock code then !v else v) s.caps :=
  (List.foldl_hom Converter.caps fun _ _ => rfl).symm

theorem foldl_next_scroll (codes : List Nat) (s : Converter) : (codes.foldl Converter.next s).scroll
    = codes.foldl (fun v code => if IsKey keyScrollLock code then !v else v) s.scroll :=
  (List.foldl_hom Converter.scroll fun _ _ => rfl).symm

/-- The states behind a sequence. -/
theorem locksFollow_iff : (∃ rs s, convertCalls codes bootConverter = .ok (rs, s) ∧ LocksFollow codes rs s)
    ↔ (∀ code ∈ codes, InKeymap code) ∧ EvenReleases keyNumLock codes ∧ EvenReleases keyCapsLock codes
      ∧ EvenReleases keyScrollLock codes := by
  have hnum := foldl_next_num codes bootConverter
  have hcaps := foldl_next_caps codes bootConverter
  have hscroll := foldl_next_scroll codes bootConverter
  rw [← @toggled_iff codes keyNumLock, ← @toggled_iff codes keyCapsLock, ← @toggled_iff codes keyScrollLock]
  constructor
  · rintro ⟨rs, s, hcalls, h⟩
    have hkeymap := inKeymap_of_convertCalls hcalls
    obtain ⟨rs', hcalls', _⟩ := convertCalls_eq hkeymap bootConverter
    have hlast : s = codes.foldl Converter.next bootConverter :=
      congrArg Prod.snd (Except.ok.inj (hcalls.symm.trans hcalls'))
    rw [← hlast] at hnum hcaps hscroll
    exact ⟨hkeymap, hnum.symm.trans h.num, hcaps.symm.trans h.caps, hscroll.symm.trans h.scroll⟩
  · rintro ⟨hkeymap, hn, hc, hs⟩
    obtain ⟨rs, hcalls, hwritten⟩ := convertCalls_eq hkeymap bootConverter
    refine ⟨rs, _, hcalls, hnum.trans hn, hcaps.trans hc, hscroll.trans hs, ?_⟩
    intro r hr hne
    rw [(hwritten r hr).resolve_left hne]
    exact setLeds_shows r.statics

/-- A code whose number is even up to every place does not occur. -/
theorem even_prefixes_iff {c : Nat} :
    (∀ before, before <+: codes → before.count c % 2 = 0) ↔ c ∉ codes := by
  constructor
  · intro heven hmem
    obtain ⟨before, after, hsplit, hfirst⟩ := List.eq_append_cons_of_mem hmem
    have hinit : before ++ [c] <+: codes := ⟨after, by rw [hsplit, List.append_assoc]; rfl⟩
    have hcount := heven _ hinit
    rw [List.count_append, List.count_eq_zero_of_not_mem hfirst, List.count_singleton_self] at hcount
    cases hcount
  · intro hnot before hinit
    rw [List.count_eq_zero_of_not_mem fun hmem => hnot (hinit.subset hmem)]

/-- **Lock keys.** Behind a sequence of scancodes each lock key is in the state that its presses give, and
the LEDs have been written as the states were, if and only if no code lies behind the keymap and the
releases of each lock key are even in number; and so it is behind every code of the sequence if and only if
no lock key is released at all. -/
theorem lock_keys_iff (codes : List Nat) :
    ((∃ rs s, convertCalls codes bootConverter = .ok (rs, s) ∧ LocksFollow codes rs s)
        ↔ (∀ code ∈ codes, InKeymap code) ∧ EvenReleases keyNumLock codes ∧ EvenReleases keyCapsLock codes
          ∧ EvenReleases keyScrollLock codes)
      ∧ ((∀ before, before <+: codes →
          ∃ rs s, convertCalls before bootConverter = .ok (rs, s) ∧ LocksFollow before rs s)
        ↔ (∀ code ∈ codes, InKeymap code) ∧ keyNumLock + keyReleased ∉ codes
          ∧ keyCapsLock + keyReleased ∉ codes ∧ keyScrollLock + keyReleased ∉ codes) := by
  refine ⟨locksFollow_iff, ?_⟩
  rw [← even_prefixes_iff, ← even_prefixes_iff, ← even_prefixes_iff]
  constructor
  · intro h
    refine ⟨(locksFollow_iff.mp (h codes (List.prefix_refl codes))).1, ?_, ?_, ?_⟩
    · exact fun before hinit => (locksFollow_iff.mp (h before hinit)).2.1
    · exact fun before hinit => (locksFollow_iff.mp (h before hinit)).2.2.1
    · exact fun before hinit => (locksFollow_iff.mp (h before hinit)).2.2.2
  · rintro ⟨hkeymap, hnum, hcaps, hscroll⟩ before hinit
    exact locksFollow_iff.mpr ⟨fun code hcode => hkeymap code (hinit.subset hcode), hnum before hinit,
      hcaps before hinit, hscroll before hinit⟩

end

/-- CAPS LOCK is pressed and released: the state is the one before. -/
theorem caps_lock_toggled_back :
    ∃ rs s, convertCalls [0x3A, 0xBA] bootConverter = .ok (rs, s) ∧ s.caps = false
      ∧ OddPresses keyCapsLock [0x3A, 0xBA] = true ∧ ¬ LocksFollow [0x3A, 0xBA] rs s := by
  refine ⟨_, _, rfl, rfl, by decide, fun h => ?_⟩
  exact absurd h.caps (by decide)

end DiyOS
