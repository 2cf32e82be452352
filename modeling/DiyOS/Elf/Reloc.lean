import DiyOS.Elf.Symbols

/-!
# Relocation (`elf32_reloc_apply` in `kernel/elf.c`)

A relocation adds the address that its symbol stands for to a word of its target section, the other operand
of the sum being the word itself. Some calls jump past the assignment of the local variables `symbol` and
`sect2`, so what these hold at the start is part of the input.

* **`elf32RelocApply_of_patches`**, **`elf32RelocApply_of_not_patches`** — a call patches one word, or it
  leaves the memory as it is.
* **`reloc_section_symbol`** — what is added for a symbol in a section.
* **`reloc_depends_on_locals`** — the outcome for the index 0 and for an absolute symbol.
* **`failed_reloc_unchanged_iff`** — when a call that fails leaves the memory as it is.
-/

namespace DiyOS

open Word

def SHN_ABS : Nat := 0xFFF1
def SHN_COMMON : Nat := 0xFFF2
def SHN_SOMBRA : Nat := 0xABCD

def RELOC_OK : Nat := 0
def RELOC_UNDEF_SYMBOL : Nat := 1
def RELOC_ERROR_SYMTAB : Nat := 2
def RELOC_ERROR_TARGET : Nat := 3
def RELOC_ERROR_SYMBOL : Nat := 4
def RELOC_ERROR : Nat := 6
def RELOC_COMMON : Nat := 7

/-- `elf_reloc_t`, the fields that are read. -/
structure ElfReloc where
  adr : Nat
  type : Nat
  symtabIndex : Nat

def readElfReloc (m : Mem) (p : Nat) : ElfReloc where
  adr := m.readWord (u32 p)
  type := (m (u32 (p + 4))).toNat
  -- the three bytes behind the type
  symtabIndex := m.readWord (u32 (p + 4)) / 256

/-! ## The source's function -/

/-- What the local variables hold at the start that a path of the function reads before it assigns them. -/
structure RelocLocals where
  symbol : Nat
  sect2 : Nat

/-- What the local variables hold at the label `ignore_symbol`. -/
structure RelocPatch where
  sect : Nat
  symbol : Nat
  sect2 : Nat
  symVal : Nat

/-- `rel_val`. -/
def relVal (m : Mem) (image rel sect : Nat) : Nat :=
  u32 (image + (readElfSect m sect).offset + (readElfReloc m rel).adr)

/-- What is added to the word at `rel_val`. -/
def relocAdded (m : Mem) (image : Nat) (p : RelocPatch) : Nat :=
  if (readElfSym m p.symbol).sect = SHN_SOMBRA then p.symVal
  else u32 (image + p.symVal + (readElfSect m p.sect2).offset)

/-- The memory after the first write to `rel_val`. -/
def relocWritten (m : Mem) (image rel : Nat) (p : RelocPatch) : Mem :=
  m.writeWord (relVal m image rel p.sect)
    (u32 (relocAdded m image p + m.readWord (relVal m image rel p.sect)))

/-- The code from the label `ignore_symbol` on; the type is read after the word has been written. -/
def relocPatch (m : Mem) (image rel : Nat) (p : RelocPatch) : Nat × Mem :=
  let relVal := relVal m image rel p.sect
  let m := relocWritten m image rel p
  if (readElfReloc m rel).type = 1 then (RELOC_OK, m)
  else if (readElfReloc m rel).type = 2 then
    (RELOC_OK, m.writeWord relVal (sub32 (m.readWord relVal) relVal))
  else (RELOC_ERROR, m)

/-- The `if` that the label stands in. -/
def relocDefined (m : Mem) (image rel : Nat) (p : RelocPatch) : Nat × Mem :=
  if (readElfSym m p.symbol).sect ≠ 0 then relocPatch m image rel p else (RELOC_UNDEF_SYMBOL, m)

/-- The code from the `switch` on the section of the symbol on; `sect2` is what the local variable holds. -/
def relocSymbol (m : Mem) (image rel sect symbol sect2 : Nat) : Nat × Mem :=
  let sym := readElfSym m symbol
  if sym.sect = SHN_COMMON then (RELOC_COMMON, m)
  else if sym.sect = SHN_ABS ∨ sym.sect = SHN_SOMBRA then
    relocDefined m image rel ⟨sect, symbol, sect2, sym.value⟩
  else
    (elf32GetSectionI m image sym.sect).elim (RELOC_ERROR_SYMBOL, m) fun sect2 =>
      relocDefined m image rel ⟨sect, symbol, sect2, sym.value⟩

def elf32RelocApply (m : Mem) (image rel symtabIdx tSectIdx : Nat) (locals : RelocLocals) :
    Except Halt (Nat × Mem) :=
  if (readElfReloc m rel).type = 0 then .ok (RELOC_OK, m)
  else
    (elf32GetSectionI m image symtabIdx).elim (.ok (RELOC_ERROR_SYMTAB, m)) fun symtab =>
      (elf32GetSectionI m image tSectIdx).elim (.ok (RELOC_ERROR_TARGET, m)) fun sect =>
        -- the local variable `symbol` is not assigned before the jump
        if (readElfReloc m rel).symtabIndex = 0 then
          .ok (relocPatch m image rel ⟨sect, locals.symbol, locals.sect2, 0⟩)
        else
          match elf32GetSymbolI m image (readElfReloc m rel).symtabIndex symtab with
          | .error e => .error e
          | .ok none => .ok (RELOC_ERROR_SYMBOL, m)
          | .ok (some symbol) => .ok (relocSymbol m image rel sect symbol locals.sect2)

/-! ## Which calls patch -/

/-- The relocation has a type, and the symbol table and the target section are found. -/
structure RelocEntry (m : Mem) (image rel symtabIdx tSectIdx symtab sect : Nat) : Prop where
  type : (readElfReloc m rel).type ≠ 0
  symtab : elf32GetSectionI m image symtabIdx = some symtab
  target : elf32GetSectionI m image tSectIdx = some sect

/-- The call reaches the label `ignore_symbol` with these local variables: by the jump, for a symbol that has
no section, or for one that has. -/
inductive RelocPatches (m : Mem) (image rel symtabIdx tSectIdx : Nat) (locals : RelocLocals) :
    RelocPatch → Prop
  | undefIndex {symtab sect : Nat} (entry : RelocEntry m image rel symtabIdx tSectIdx symtab sect)
      (index : (readElfReloc m rel).symtabIndex = 0) :
      RelocPatches m image rel symtabIdx tSectIdx locals ⟨sect, locals.symbol, locals.sect2, 0⟩
  | noSection {symtab sect symbol : Nat} (entry : RelocEntry m image rel symtabIdx tSectIdx symtab sect)
      (index : (readElfReloc m rel).symtabIndex ≠ 0)
      (found : elf32GetSymbolI m image (readElfReloc m rel).symtabIndex symtab = .ok (some symbol))
      (special : (readElfSym m symbol).sect = SHN_ABS ∨ (readElfSym m symbol).sect = SHN_SOMBRA) :
      RelocPatches m image rel symtabIdx tSectIdx locals
        ⟨sect, symbol, locals.sect2, (readElfSym m symbol).value⟩
  | inSection {symtab sect symbol sect2 : Nat}
      (entry : RelocEntry m image rel symtabIdx tSectIdx symtab sect)
      (index : (readElfReloc m rel).symtabIndex ≠ 0)
      (found : elf32GetSymbolI m image (readElfReloc m rel).symtabIndex symtab = .ok (some symbol))
      (common : (readElfSym m symbol).sect ≠ SHN_COMMON)
      (special : ¬ ((readElfSym m symbol).sect = SHN_ABS ∨ (readElfSym m symbol).sect = SHN_SOMBRA))
      (section2 : elf32GetSectionI m image (readElfSym m symbol).sect = some sect2)
      (defined : (readElfSym m symbol).sect ≠ 0) :
      RelocPatches m image rel symtabIdx tSectIdx locals
        ⟨sect, symbol, sect2, (readElfSym m symbol).value⟩

section

variable {m : Mem} {image rel symtabIdx tSectIdx : Nat} {locals : RelocLocals}

/-- The call once the two sections are found. -/
theorem RelocEntry.apply {symtab sect : Nat} (h : RelocEntry m image rel symtabIdx tSectIdx symtab sect) :
    elf32RelocApply m image rel symtabIdx tSectIdx locals
      = if (readElfReloc m rel).symtabIndex = 0 then
          .ok (relocPatch m image rel ⟨sect, locals.symbol, locals.sect2, 0⟩)
        else
          match elf32GetSymbolI m image (readElfReloc m rel).symtabIndex symtab with
          | .error e => .error e
          | .ok none => .ok (RELOC_ERROR_SYMBOL, m)
          | .ok (some symbol) => .ok (relocSymbol m image rel sect symbol locals.sect2) := by
  unfold elf32RelocApply
  rw [if_neg h.type, h.symtab, Option.elim_some, h.target, Option.elim_some]

/-- The call once the symbol is found. -/
theorem RelocEntry.apply_symbol {symtab sect symbol : Nat}
    (h : RelocEntry m image rel symtabIdx tSectIdx symtab sect)
    (hindex : (readElfReloc m rel).symtabIndex ≠ 0)
    (hfound : elf32GetSymbolI m image (readElfReloc m rel).symtabIndex symtab = .ok (some symbol)) :
    elf32RelocApply m image rel symtabIdx tSectIdx locals
      = .ok (relocSymbol m image rel sect symbol locals.sect2) := by
  rw [h.apply, if_neg hindex, hfound]

theorem elf32RelocApply_of_patches {p : RelocPatch}
    (h : RelocPatches m image rel symtabIdx tSectIdx locals p) :
    elf32RelocApply m image rel symtabIdx tSectIdx locals = .ok (relocPatch m image rel p) := by
  cases h with
  | undefIndex entry index => rw [entry.apply, if_pos index]
  | @noSection symtab sect symbol entry index found special =>
    have hcommon : (readElfSym m symbol).sect ≠ SHN_COMMON := by
      rcases special with h | h <;> rw [h] <;> decide
    have hdefined : (readElfSym m symbol).sect ≠ 0 := by
      rcases special with h | h <;> rw [h] <;> decide
    rw [entry.apply_symbol index found]
    unfold relocSymbol relocDefined
    dsimp only
    rw [if_neg hcommon, if_pos special, if_pos hdefined]
  | inSection entry index found common special section2 defined =>
    rw [entry.apply_symbol index found]
    unfold relocSymbol relocDefined
    dsimp only
    rw [if_neg common, if_neg special, section2, Option.elim_some, if_pos defined]

/-- The code for a symbol that was found, where it does not patch. -/
theorem relocSymbol_of_not_patches {symtab sect symbol : Nat}
    (h : ∀ p, ¬ RelocPatches m image rel symtabIdx tSectIdx locals p)
    (entry : RelocEntry m image rel symtabIdx tSectIdx symtab sect)
    (hindex : (readElfReloc m rel).symtabIndex ≠ 0)
    (hfound : elf32GetSymbolI m image (readElfReloc m rel).symtabIndex symtab = .ok (some symbol)) :
    (relocSymbol m image rel sect symbol locals.sect2).2 = m := by
  unfold relocSymbol relocDefined
  dsimp only
  by_cases hcommon : (readElfSym m symbol).sect = SHN_COMMON
  · rw [if_pos hcommon]
  · have hspecial : ¬ ((readElfSym m symbol).sect = SHN_ABS ∨ (readElfSym m symbol).sect = SHN_SOMBRA) :=
      fun special => h _ (.noSection entry hindex hfound special)
    rw [if_neg hcommon, if_neg hspecial]
    cases hsect2 : elf32GetSectionI m image (readElfSym m symbol).sect with
    | none => rfl
    | some sect2 =>
      have hundef : ¬ (readElfSym m symbol).sect ≠ 0 :=
        fun defined => h _ (.inSection entry hindex hfound hcommon hspecial hsect2 defined)
      rw [Option.elim_some, if_neg hundef]

/-- A call that does not patch leaves the memory as it is. -/
theorem elf32RelocApply_of_not_patches
    (h : ∀ p, ¬ RelocPatches m image rel symtabIdx tSectIdx locals p) {code : Nat} {m' : Mem}
    (hcall : elf32RelocApply m image rel symtabIdx tSectIdx locals = .ok (code, m')) : m' = m := by
  have hmem : ∀ {r : Nat × Mem}, r.2 = m → Except.ok r = (.ok (code, m') : Except Halt (Nat × Mem)) →
      m' = m := fun hr heq => (congrArg Prod.snd (Except.ok.inj heq)).symm.trans hr
  -- each way out before the store leaves the memory
  by_cases htype : (readElfReloc m rel).type = 0
  · unfold elf32RelocApply at hcall
    rw [if_pos htype] at hcall
    exact hmem rfl hcall
  cases hsymtab : elf32GetSectionI m image symtabIdx with
  | none =>
    unfold elf32RelocApply at hcall
    rw [if_neg htype, hsymtab, Option.elim_none] at hcall
    exact hmem rfl hcall
  | some symtab =>
    cases htarget : elf32GetSectionI m image tSectIdx with
    | none =>
      unfold elf32RelocApply at hcall
      rw [if_neg htype, hsymtab, Option.elim_some, htarget, Option.elim_none] at hcall
      exact hmem rfl hcall
    | some sect =>
      have entry : RelocEntry m image rel symtabIdx tSectIdx symtab sect := ⟨htype, hsymtab, htarget⟩
      have hindex : (readElfReloc m rel).symtabIndex ≠ 0 := fun index => h _ (.undefIndex entry index)
      rw [entry.apply, if_neg hindex] at hcall
      cases hfound : elf32GetSymbolI m image (readElfReloc m rel).symtabIndex symtab with
      | error e =>
        rw [hfound] at hcall
        cases hcall
      | ok found =>
        rw [hfound] at hcall
        cases found with
        | none => exact hmem rfl hcall
        | some symbol => exact hmem (relocSymbol_of_not_patches h entry hindex hfound) hcall

/-! ## What a patch writes -/

/-- A patch leaves every byte outside its word. -/
theorem relocPatch_of_outside {p : RelocPatch} {a : Nat}
    (h : a < relVal m image rel p.sect ∨ relVal m image rel p.sect + 4 ≤ a) :
    (relocPatch m image rel p).2 a = m a := by
  have hfirst : relocWritten m image rel p a = m a := Mem.writeWord_of_outside m _ h
  unfold relocPatch
  dsimp only
  split
  · exact hfirst
  · split
    · exact (Mem.writeWord_of_outside _ _ h).trans hfirst
    · exact hfirst

theorem relocWritten_word (p : RelocPatch) :
    (relocWritten m image rel p).readWord (relVal m image rel p.sect)
      = u32 (relocAdded m image p + m.readWord (relVal m image rel p.sect)) :=
  Mem.readWord_writeWord _ _ (u32_lt _)

/-- The word that a patch leaves; the type is the one that stands in the entry after the first write. -/
theorem relocPatch_word (p : RelocPatch) :
    (relocPatch m image rel p).2.readWord (relVal m image rel p.sect)
      = if (readElfReloc (relocWritten m image rel p) rel).type = 2 then
          sub32 (relocAdded m image p + m.readWord (relVal m image rel p.sect)) (relVal m image rel p.sect)
        else u32 (relocAdded m image p + m.readWord (relVal m image rel p.sect)) := by
  unfold relocPatch
  dsimp only
  rw [relocWritten_word, sub32_u32]
  split
  · next hone => rw [if_neg (by rw [hone]; decide), relocWritten_word]
  · split
    · next htwo => exact Mem.readWord_writeWord _ _ (u32_lt _)
    · next htwo => rw [relocWritten_word]

/-- The type is still the one of the entry if the word does not cover it. -/
theorem relocWritten_type {p : RelocPatch}
    (h : u32 (rel + 4) < relVal m image rel p.sect ∨ relVal m image rel p.sect + 4 ≤ u32 (rel + 4)) :
    (readElfReloc (relocWritten m image rel p) rel).type = (readElfReloc m rel).type :=
  congrArg UInt8.toNat (Mem.writeWord_of_outside m _ h)

/-! ## Symbols in sections -/

/-- The word that a relocation asks for: the old one and the value `s` of the symbol, relative to the place of
the word if the type is 2. -/
def relocExpected (m : Mem) (image rel sect s : Nat) : Nat :=
  if (readElfReloc m rel).type = 1 then u32 (m.readWord (relVal m image rel sect) + s)
  else sub32 (m.readWord (relVal m image rel sect) + s) (relVal m image rel sect)

/-- The relocation is of the type 1 or 2, its table is a symbol table and its index, which is not zero, lies
inside the table; both sections are in the image. -/
structure SymbolReloc (m : Mem) (image rel symtabIdx tSectIdx : Nat) : Prop where
  type : (readElfReloc m rel).type = 1 ∨ (readElfReloc m rel).type = 2
  tableIn : symtabIdx < (readElfShtab m image).numSects
  targetIn : tSectIdx < (readElfShtab m image).numSects
  symtab : (readElfSect m (elfSectAt m image symtabIdx)).type = SHT_SYMTAB
  entSize : 0 < (readElfSect m (elfSectAt m image symtabIdx)).entSize
  index : 0 < (readElfReloc m rel).symtabIndex
  inside : (readElfReloc m rel).symtabIndex < symCount m (elfSectAt m image symtabIdx)

/-- The symbol that a relocation refers to. -/
def relocSym (m : Mem) (image rel symtabIdx : Nat) : Nat :=
  elfSymAt m image (elfSectAt m image symtabIdx) (readElfReloc m rel).symtabIndex

theorem elf32GetSectionI_of_lt {i : Nat} (h : i < (readElfShtab m image).numSects) :
    elf32GetSectionI m image i = some (elfSectAt m image i) := by
  unfold elf32GetSectionI
  rw [if_neg (by omega)]

theorem SymbolReloc.entry (h : SymbolReloc m image rel symtabIdx tSectIdx) :
    RelocEntry m image rel symtabIdx tSectIdx (elfSectAt m image symtabIdx) (elfSectAt m image tSectIdx) where
  type := by
    rcases h.type with htype | htype
    · rw [htype]
      decide
    · rw [htype]
      decide
  symtab := elf32GetSectionI_of_lt h.tableIn
  target := elf32GetSectionI_of_lt h.targetIn

theorem SymbolReloc.found (h : SymbolReloc m image rel symtabIdx tSectIdx) :
    elf32GetSymbolI m image (readElfReloc m rel).symtabIndex (elfSectAt m image symtabIdx)
      = .ok (some (relocSym m image rel symtabIdx)) := by
  have hinside := h.inside
  unfold elf32GetSymbolI
  rw [if_neg (not_not_intro h.symtab), if_neg (Nat.ne_of_gt h.entSize), if_neg (by omega)]
  rfl

theorem SymbolReloc.apply_undef (h : SymbolReloc m image rel symtabIdx tSectIdx)
    (hzero : (readElfSym m (relocSym m image rel symtabIdx)).sect = 0) :
    elf32RelocApply m image rel symtabIdx tSectIdx locals = .ok (RELOC_UNDEF_SYMBOL, m) := by
  have hcommon : (readElfSym m (relocSym m image rel symtabIdx)).sect ≠ SHN_COMMON := by
    rw [hzero]
    decide
  have hspecial : ¬ ((readElfSym m (relocSym m image rel symtabIdx)).sect = SHN_ABS
      ∨ (readElfSym m (relocSym m image rel symtabIdx)).sect = SHN_SOMBRA) := by
    rw [hzero]
    decide
  have hnull : elf32GetSectionI m image (readElfSym m (relocSym m image rel symtabIdx)).sect
      = some (elfSectAt m image 0) := by
    rw [hzero]
    exact elf32GetSectionI_of_lt (Nat.zero_lt_of_lt h.targetIn)
  rw [h.entry.apply_symbol (Nat.ne_of_gt h.index) h.found]
  unfold relocSymbol relocDefined
  dsimp only
  rw [if_neg hcommon, if_neg hspecial, hnull, Option.elim_some, if_neg (not_not_intro hzero)]

/-- The expected word depends on the value modulo `2 ^ 32` only. -/
theorem relocExpected_u32 (sect s : Nat) :
    relocExpected m image rel sect (u32 s) = relocExpected m image rel sect s := by
  have hsum : ∀ old, u32 (old + u32 s) = u32 (old + s) := fun old => by
    rw [Nat.add_comm, u32_u32_add, Nat.add_comm]
  unfold relocExpected
  rw [hsum, ← sub32_u32, hsum, sub32_u32]

/-- A patch that leaves a type that is known leaves the expected word. -/
theorem relocPatch_expected {p : RelocPatch}
    (hkept : (readElfReloc (relocWritten m image rel p) rel).type = (readElfReloc m rel).type)
    (htype : (readElfReloc m rel).type = 1 ∨ (readElfReloc m rel).type = 2) :
    (relocPatch m image rel p).1 = RELOC_OK
      ∧ (relocPatch m image rel p).2.readWord (relVal m image rel p.sect)
        = relocExpected m image rel p.sect (relocAdded m image p) := by
  rw [relocPatch_word]
  unfold relocPatch relocExpected
  dsimp only
  rw [hkept, Nat.add_comm (m.readWord _)]
  rcases htype with hone | htwo
  · rw [if_pos hone, if_neg (by rw [hone]; decide), if_pos hone]
    exact ⟨rfl, rfl⟩
  · have hone : (readElfReloc m rel).type ≠ 1 := by
      rw [htwo]
      decide
    rw [if_neg hone, if_pos htwo, if_pos htwo, if_neg hone]
    exact ⟨rfl, rfl⟩

/-- **Symbols in sections.** A relocation by a symbol without a section changes nothing. By a symbol in a
section of the image that is none of the special ones it adds the address of the symbol, and changes the bytes
of the word only. -/
theorem reloc_section_symbol (h : SymbolReloc m image rel symtabIdx tSectIdx) (locals : RelocLocals) :
    ((readElfSym m (relocSym m image rel symtabIdx)).sect = 0 →
        elf32RelocApply m image rel symtabIdx tSectIdx locals = .ok (RELOC_UNDEF_SYMBOL, m))
      ∧ (0 < (readElfSym m (relocSym m image rel symtabIdx)).sect →
        (readElfSym m (relocSym m image rel symtabIdx)).sect < (readElfShtab m image).numSects →
        (readElfSym m (relocSym m image rel symtabIdx)).sect ∉ [SHN_ABS, SHN_COMMON, SHN_SOMBRA] →
        (∀ k < 12, ∀ j < 4, u32 (rel + k) ≠ relVal m image rel (elfSectAt m image tSectIdx) + j) →
        ∃ m', elf32RelocApply m image rel symtabIdx tSectIdx locals = .ok (RELOC_OK, m')
          ∧ m'.readWord (relVal m image rel (elfSectAt m image tSectIdx))
            = relocExpected m image rel (elfSectAt m image tSectIdx)
              (image + (readElfSect m (elfSectAt m image
                (readElfSym m (relocSym m image rel symtabIdx)).sect)).offset
                + (readElfSym m (relocSym m image rel symtabIdx)).value)
          ∧ ∀ a, a < relVal m image rel (elfSectAt m image tSectIdx)
            ∨ relVal m image rel (elfSectAt m image tSectIdx) + 4 ≤ a → m' a = m a) := by
  refine ⟨h.apply_undef, fun hpos hlt hspecial hapart => ?_⟩
  simp only [List.mem_cons, List.not_mem_nil, or_false, not_or] at hspecial
  have hpatches : RelocPatches m image rel symtabIdx tSectIdx locals
      ⟨elfSectAt m image tSectIdx, relocSym m image rel symtabIdx,
        elfSectAt m image (readElfSym m (relocSym m image rel symtabIdx)).sect,
        (readElfSym m (relocSym m image rel symtabIdx)).value⟩ :=
    .inSection h.entry (Nat.ne_of_gt h.index) h.found hspecial.2.1
      (fun hor => hor.elim hspecial.1 hspecial.2.2) (elf32GetSectionI_of_lt hlt) (Nat.ne_of_gt hpos)
  generalize hp : (⟨elfSectAt m image tSectIdx, relocSym m image rel symtabIdx,
    elfSectAt m image (readElfSym m (relocSym m image rel symtabIdx)).sect,
    (readElfSym m (relocSym m image rel symtabIdx)).value⟩ : RelocPatch) = p at hpatches
  have hsect : p.sect = elfSectAt m image tSectIdx := by rw [← hp]
  rw [← hsect] at hapart ⊢
  -- the entry keeps its type, since the word lies apart from it
  have hkept := @relocWritten_type m image rel p (by
    have hbyte := hapart 4 (by decide)
    rcases Nat.lt_or_ge (u32 (rel + 4)) (relVal m image rel p.sect) with hless | hge
    · exact Or.inl hless
    · refine Or.inr (Nat.le_of_not_lt fun hin => ?_)
      exact hbyte (u32 (rel + 4) - relVal m image rel p.sect) (by omega) (by omega))
  have hadded : relocAdded m image p = u32 (image
      + (readElfSect m (elfSectAt m image (readElfSym m (relocSym m image rel symtabIdx)).sect)).offset
      + (readElfSym m (relocSym m image rel symtabIdx)).value) := by
    unfold relocAdded
    rw [← hp]
    dsimp only
    rw [if_neg hspecial.2.2, Nat.add_right_comm]
  obtain ⟨hcode, hword⟩ := relocPatch_expected hkept h.type
  rw [hadded, relocExpected_u32] at hword
  refine ⟨(relocPatch m image rel p).2, ?_, hword, fun a ha => relocPatch_of_outside ha⟩
  rw [elf32RelocApply_of_patches hpatches, ← hcode]

end

/-- The word of code that the first relocation of the object file is for. -/
theorem reloc_section_symbol_elfObj :
    ∃ m', elf32RelocApply elfObj 4096 4440 2 1 ⟨0, 0⟩ = .ok (RELOC_OK, m')
      ∧ m'.readWord 4348 = 0x11 + (4096 + 252 + 4)
      ∧ ∀ a, a < 4348 ∨ 4352 ≤ a → m' a = elfObj a := by
  have hreloc : SymbolReloc elfObj 4096 4440 2 1 := by constructor <;> decide +kernel
  have hval : relVal elfObj 4096 4440 (elfSectAt elfObj 4096 1) = 4348 := by decide +kernel
  have hapart : ∀ k < 12, ∀ j < 4,
      u32 (4440 + k) ≠ relVal elfObj 4096 4440 (elfSectAt elfObj 4096 1) + j := by
    rw [hval]
    decide
  obtain ⟨m', hcall, hword, hframe⟩ := (reloc_section_symbol hreloc ⟨0, 0⟩).2
    (by decide +kernel) (by decide +kernel) (by decide +kernel) hapart
  rw [hval] at hword hframe
  refine ⟨m', hcall, hword.trans ?_, hframe⟩
  decide +kernel

/-! ## Calls that do not assign every local variable -/

section

variable {m : Mem} {image rel symtabIdx tSectIdx symtab sect s : Nat} {locals : RelocLocals}

/-- The relocation has the index 0, or refers to an absolute symbol; `s` is the value that it should use. -/
inductive FixedValue (m : Mem) (image rel symtab : Nat) : Nat → Prop
  | undefIndex (index : (readElfReloc m rel).symtabIndex = 0) : FixedValue m image rel symtab 0
  | absolute {symbol : Nat} (index : (readElfReloc m rel).symtabIndex ≠ 0)
      (found : elf32GetSymbolI m image (readElfReloc m rel).symtabIndex symtab = .ok (some symbol))
      (special : (readElfSym m symbol).sect = SHN_ABS) :
      FixedValue m image rel symtab (readElfSym m symbol).value

/-- The pointer whose field at offset `k` is at `b`. -/
theorem u32_sub32_field {b : Nat} (hb : b < 4294967296) (k : Nat) : u32 (sub32 b k + k) = b :=
  (u32_sub32_add b k).trans (u32_of_lt hb)

/-- The index of an entry is zero, so that the three bytes behind its type are. -/
theorem bytes_of_index_zero (hindex : (readElfReloc m rel).symtabIndex = 0) {k : Nat} (hk : 0 < k) (hk4 : k < 4) :
    m (u32 (rel + 4) + k) = 0 := by
  have hword : m.readWord (u32 (rel + 4)) = (m (u32 (rel + 4))).toNat := by
    have hsmall : m.readWord (u32 (rel + 4)) / 256 = 0 := hindex
    have hlow := (m (u32 (rel + 4))).toNat_lt
    unfold Mem.readWord at hsmall ⊢
    omega
  have hzero : ∀ j, 0 < j → j < 4 → (m (u32 (rel + 4) + j)).toNat = 0 := by
    unfold Mem.readWord at hword
    intro j hj hj4
    obtain rfl | rfl | rfl : j = 1 ∨ j = 2 ∨ j = 3 := by omega
    all_goals omega
  exact UInt8.toNat_inj.mp (hzero k hk hk4)

/-- Any word of the memory may be what is added, up to a constant. -/
theorem FixedValue.patches (h : FixedValue m image rel symtab s)
    (entry : RelocEntry m image rel symtabIdx tSectIdx symtab sect)
    (htype : (readElfReloc m rel).type = 1 ∨ (readElfReloc m rel).type = 2) :
    ∃ c, ∀ b < 4294967296, ∃ locals p, RelocPatches m image rel symtabIdx tSectIdx locals p
      ∧ p.sect = sect ∧ relocAdded m image p = u32 (c + m.readWord b) := by
  have hoffset : ∀ b < 4294967296, (readElfSect m (sub32 b 16)).offset = m.readWord b :=
    fun b hb => congrArg m.readWord (u32_sub32_field hb 16)
  cases h with
  | undefIndex index =>
    refine ⟨image, fun b hb => ⟨⟨sub32 (u32 (rel + 4)) 14, sub32 b 16⟩, _, .undefIndex entry index, rfl, ?_⟩⟩
    -- the halfword at the type of the entry is the type, which is no section index that is special
    have hsect : (readElfSym m (sub32 (u32 (rel + 4)) 14)).sect ≠ SHN_SOMBRA := by
      have hhalf : (readElfSym m (sub32 (u32 (rel + 4)) 14)).sect = m.readHalf (u32 (rel + 4)) :=
        congrArg m.readHalf (u32_sub32_field (u32_lt _) 14)
      have hnext := bytes_of_index_zero index (show 0 < 1 by decide) (by decide)
      have hfirst : (m (u32 (rel + 4))).toNat = 1 ∨ (m (u32 (rel + 4))).toNat = 2 := htype
      rw [hhalf]
      unfold Mem.readHalf SHN_SOMBRA
      rw [hnext]
      rcases hfirst with hone | htwo
      · rw [hone]
        decide
      · rw [htwo]
        decide
    unfold relocAdded
    dsimp only
    rw [if_neg hsect, hoffset b hb, Nat.add_zero]
  | @absolute symbol index found special =>
    refine ⟨image + (readElfSym m symbol).value, fun b hb =>
      ⟨⟨0, sub32 b 16⟩, _, .noSection entry index found (Or.inl special), rfl, ?_⟩⟩
    unfold relocAdded
    dsimp only
    rw [if_neg (by rw [special]; decide), hoffset b hb]

theorem readWord_ne {a a' k : Nat} (hk : k < 4) (h : m (a + k) ≠ m (a' + k)) : m.readWord a ≠ m.readWord a' :=
  fun heq => h (Mem.readWord_inj heq hk)

/-- The memory holds different words at the addresses `x` and `y`. -/
def TwoWords (m : Mem) (x y : Nat) : Prop :=
  x < 4294967296 ∧ y < 4294967296 ∧ m.readWord x ≠ m.readWord y

/-- The memory holds three words, unless `a` is the first address of all; then it holds two. -/
def EnoughWords (m : Mem) (a : Nat) : Prop :=
  (a = 0 → ∃ x y, TwoWords m x y)
    ∧ (0 < a → ∃ x y z, TwoWords m x y ∧ TwoWords m y z ∧ TwoWords m x z)

/-- A byte and two zeros behind it. -/
theorem enoughWords_of_zeros {a : Nat} (hlt : a < 4294967296) (hne : m a ≠ 0) (h1 : m (a + 1) = 0)
    (h2 : m (a + 2) = 0) : EnoughWords m a := by
  constructor
  · rintro rfl
    refine ⟨0, 1, by decide, by decide, readWord_ne (show 0 < 4 by decide) ?_⟩
    exact fun heq => hne (heq.trans h1)
  · intro hpos
    rcases Nat.lt_or_ge a 2 with hlow | hhigh
    · obtain rfl : a = 1 := by omega
      refine ⟨1, 0, 2, ⟨by decide, by decide, readWord_ne (show 1 < 4 by decide) ?_⟩,
        ⟨by decide, by decide, readWord_ne (show 1 < 4 by decide) ?_⟩,
        ⟨by decide, by decide, readWord_ne (show 0 < 4 by decide) ?_⟩⟩
      · exact fun heq => hne (heq.symm.trans h1)
      · exact fun heq => hne (heq.trans h2)
      · exact fun heq => hne (heq.trans h1)
    · -- the byte is the first one of a word, the second of another and the third of a last one
      obtain ⟨b, rfl⟩ := Nat.exists_eq_add_of_le' hhigh
      refine ⟨b + 2, b + 1, b, ⟨hlt, by omega, readWord_ne (show 1 < 4 by decide) ?_⟩,
        ⟨by omega, by omega, readWord_ne (show 2 < 4 by decide) ?_⟩,
        ⟨hlt, by omega, readWord_ne (show 2 < 4 by decide) ?_⟩⟩
      · exact fun heq => hne (heq.symm.trans h1)
      · exact fun heq => hne (heq.symm.trans h1)
      · exact fun heq => hne (heq.symm.trans h2)

/-- Two bytes in a row that differ from each other and from a third one. -/
theorem enoughWords_of_bytes {a b : Nat} (hlt : a < 4294967296) (hblt : b < 4294967296) (hab : m a ≠ m b)
    (hbb : m b ≠ m (b + 1)) (hab1 : m a ≠ m (b + 1)) : EnoughWords m a := by
  rcases Nat.lt_or_ge (b + 1) 4294967296 with hin | hlast
  · -- the bytes are the first ones of three words
    have hwords : TwoWords m a b ∧ TwoWords m b (b + 1) ∧ TwoWords m a (b + 1) :=
      ⟨⟨hlt, hblt, readWord_ne (show 0 < 4 by decide) hab⟩,
        ⟨hblt, hin, readWord_ne (show 0 < 4 by decide) hbb⟩,
        ⟨hlt, hin, readWord_ne (show 0 < 4 by decide) hab1⟩⟩
    exact ⟨fun _ => ⟨a, b, hwords.1⟩, fun _ => ⟨a, b, b + 1, hwords⟩⟩
  · -- they are the second ones of the words before
    obtain ⟨c, rfl⟩ := Nat.exists_eq_add_of_le' (show 1 ≤ b by omega)
    have hwords : TwoWords m c (c + 1) := ⟨by omega, hblt, readWord_ne (show 1 < 4 by decide) hbb⟩
    refine ⟨fun _ => ⟨c, c + 1, hwords⟩, fun hpos => ?_⟩
    obtain ⟨d, rfl⟩ := Nat.exists_eq_add_of_le' (show 1 ≤ a by omega)
    exact ⟨d, c, c + 1, ⟨by omega, by omega, readWord_ne (show 1 < 4 by decide) hab⟩, hwords,
      ⟨by omega, hblt, readWord_ne (show 1 < 4 by decide) hab1⟩⟩

theorem FixedValue.words (h : FixedValue m image rel symtab s)
    (htype : (readElfReloc m rel).type = 1 ∨ (readElfReloc m rel).type = 2) :
    EnoughWords m (u32 (rel + 4)) := by
  have hfirst : (m (u32 (rel + 4))).toNat = 1 ∨ (m (u32 (rel + 4))).toNat = 2 := htype
  cases h with
  | undefIndex index =>
    refine enoughWords_of_zeros (u32_lt _) (fun hzero => ?_) (bytes_of_index_zero index (by decide) (by decide))
      (bytes_of_index_zero index (by decide) (by decide))
    rw [hzero] at hfirst
    exact absurd hfirst (by decide)
  | @absolute symbol index found special =>
    have hhalf : m.readHalf (u32 (symbol + 14)) = 0xFFF1 := special
    have hbytes : (m (u32 (symbol + 14))).toNat = 0xF1 ∧ (m (u32 (symbol + 14) + 1)).toNat = 0xFF := by
      have hlow := (m (u32 (symbol + 14))).toNat_lt
      unfold Mem.readHalf at hhalf
      omega
    refine enoughWords_of_bytes (u32_lt _) (u32_lt (symbol + 14)) (fun heq => ?_) (fun heq => ?_) fun heq => ?_
    · rw [heq, hbytes.1] at hfirst
      exact absurd hfirst (by decide)
    · rw [heq, hbytes.2] at hbytes
      exact absurd hbytes.1 (by decide)
    · rw [heq, hbytes.2] at hfirst
      exact absurd hfirst (by decide)

/-- The words that a patch can leave where the sum is `c + x`. -/
def Fits (e c place x : Nat) : Prop := e = sub32 (c + x) place ∨ e = u32 (c + x)

theorem add_word_inj {c x y : Nat} (hx : x < 4294967296) (hy : y < 4294967296)
    (h : u32 (c + x) = u32 (c + y)) : x = y := by
  have hcancel := u32_add_left_cancel h
  rwa [u32_of_lt hx, u32_of_lt hy] at hcancel

/-- Of three different words at most two fit. -/
theorem not_fits_three {e c place x y z : Nat} (hxy : TwoWords m x y) (hyz : TwoWords m y z)
    (hxz : TwoWords m x z) (hx : Fits e c place (m.readWord x)) (hy : Fits e c place (m.readWord y))
    (hz : Fits e c place (m.readWord z)) : False := by
  have hsame : ∀ {u v}, TwoWords m u v → ¬ u32 (c + m.readWord u) = u32 (c + m.readWord v) :=
    fun huv heq => huv.2.2 (add_word_inj (m.readWord_lt _) (m.readWord_lt _) heq)
  have hsub : ∀ {u v}, TwoWords m u v →
      ¬ sub32 (c + m.readWord u) place = sub32 (c + m.readWord v) place :=
    fun huv heq => hsame huv (sub32_left_cancel heq)
  rcases hx with hx | hx <;> rcases hy with hy | hy <;> rcases hz with hz | hz
  · exact hsub hxy (hx.symm.trans hy)
  · exact hsub hxy (hx.symm.trans hy)
  · exact hsub hxz (hx.symm.trans hz)
  · exact hsame hyz (hy.symm.trans hz)
  · exact hsub hyz (hy.symm.trans hz)
  · exact hsame hxz (hx.symm.trans hz)
  · exact hsame hxy (hx.symm.trans hy)
  · exact hsame hxy (hx.symm.trans hy)

/-- If every call leaves the word `e`, it is a sum with each word of the memory. -/
theorem FixedValue.sums (h : FixedValue m image rel symtab s)
    (entry : RelocEntry m image rel symtabIdx tSectIdx symtab sect)
    (htype : (readElfReloc m rel).type = 1 ∨ (readElfReloc m rel).type = 2) {e : Nat}
    (hword : ∀ locals p, RelocPatches m image rel symtabIdx tSectIdx locals p →
      (relocPatch m image rel p).2.readWord (relVal m image rel sect) = e) :
    ∃ c, ∀ b < 4294967296, ∃ p : RelocPatch, p.sect = sect
      ∧ e = if (readElfReloc (relocWritten m image rel p) rel).type = 2 then
          sub32 (c + m.readWord b) (relVal m image rel sect) else u32 (c + m.readWord b) := by
  obtain ⟨c, hpatches⟩ := h.patches entry htype
  refine ⟨m.readWord (relVal m image rel sect) + c, fun b hb => ?_⟩
  obtain ⟨locals, p, hp, hsect, hadded⟩ := hpatches b hb
  have hleft := @relocPatch_word m image rel p
  rw [hadded, hsect, hword locals p hp] at hleft
  have hsum : u32 (u32 (c + m.readWord b) + m.readWord (relVal m image rel sect))
      = u32 (m.readWord (relVal m image rel sect) + c + m.readWord b) := by
    rw [u32_u32_add, Nat.add_comm, Nat.add_assoc]
  refine ⟨p, hsect, hleft.trans ?_⟩
  rw [← sub32_u32, hsum, sub32_u32]

/-- Whatever word is asked for, some contents of the local variables lead to another one. -/
theorem FixedValue.word_varies (h : FixedValue m image rel symtab s)
    (entry : RelocEntry m image rel symtabIdx tSectIdx symtab sect)
    (htype : (readElfReloc m rel).type = 1 ∨ (readElfReloc m rel).type = 2) (e : Nat) :
    ∃ locals code m', elf32RelocApply m image rel symtabIdx tSectIdx locals = .ok (code, m')
      ∧ m'.readWord (relVal m image rel sect) ≠ e := by
  by_contra hall
  obtain ⟨c, hsums⟩ := h.sums entry htype fun locals p hp =>
    by_contra fun hne => hall ⟨locals, _, _, elf32RelocApply_of_patches hp, hne⟩
  obtain ⟨htwo, hthree⟩ := h.words htype
  rcases Nat.eq_zero_or_pos (u32 (rel + 4)) with hzero | hpos
  · obtain ⟨x, y, hx, hy, hne⟩ := htwo hzero
    obtain ⟨p, hp, hxe⟩ := hsums x hx
    obtain ⟨q, hq, hye⟩ := hsums y hy
    have hsame : u32 (c + m.readWord x) = u32 (c + m.readWord y) := by
      rcases Nat.eq_zero_or_pos (relVal m image rel sect) with hplace | hplace
      · -- relative to the place 0 the word is the sum itself
        rw [hplace, sub32_zero, ite_self] at hxe hye
        exact hxe.symm.trans hye
      · -- the word does not cover the type
        have hkept : ∀ p : RelocPatch, p.sect = sect →
            (readElfReloc (relocWritten m image rel p) rel).type = (readElfReloc m rel).type :=
          fun p hp => relocWritten_type (Or.inl (by rw [hzero, hp]; exact hplace))
        rw [hkept p hp] at hxe
        rw [hkept q hq] at hye
        split at hxe
        · next h2 =>
          rw [if_pos h2] at hye
          exact sub32_left_cancel (hxe.symm.trans hye)
        · next h2 =>
          rw [if_neg h2] at hye
          exact hxe.symm.trans hye
    exact hne (add_word_inj (m.readWord_lt _) (m.readWord_lt _) hsame)
  · have hfits : ∀ b < 4294967296, Fits e c (relVal m image rel sect) (m.readWord b) := by
      intro b hb
      obtain ⟨p, -, heq⟩ := hsums b hb
      split at heq
      · exact Or.inl heq
      · exact Or.inr heq
    obtain ⟨x, y, z, hxy, hyz, hxz⟩ := hthree hpos
    exact not_fits_three hxy hyz hxz (hfits x hxy.1) (hfits y hyz.1) (hfits z hyz.2.1)

/-- **Index 0 and absolute symbols.** The outcome depends on what the local variables hold at the start, and
for some of it the word is not the one that the relocation asks for: the address of a section that was never
looked up is added to the value. -/
theorem reloc_depends_on_locals (entry : RelocEntry m image rel symtabIdx tSectIdx symtab sect)
    (htype : (readElfReloc m rel).type = 1 ∨ (readElfReloc m rel).type = 2)
    (hvalue : FixedValue m image rel symtab s) :
    (¬ ∃ outcome, ∀ locals, elf32RelocApply m image rel symtabIdx tSectIdx locals = .ok outcome)
      ∧ ¬ ∀ locals code m', elf32RelocApply m image rel symtabIdx tSectIdx locals = .ok (code, m') →
        m'.readWord (relVal m image rel sect) = relocExpected m image rel sect s := by
  constructor
  · rintro ⟨⟨code, m'⟩, hsame⟩
    obtain ⟨locals, code', m'', hcall, hne⟩ :=
      hvalue.word_varies entry htype (m'.readWord (relVal m image rel sect))
    have heq := hcall.symm.trans (hsame locals)
    rw [(Prod.mk.inj (Except.ok.inj heq)).2] at hne
    exact hne rfl
  · intro hall
    obtain ⟨locals, code, m', hcall, hne⟩ :=
      hvalue.word_varies entry htype (relocExpected m image rel sect s)
    exact hne (hall locals code m' hcall)

end

/-- The second relocation of the object file has the index 0. -/
theorem reloc_depends_on_locals_elfObj :
    (¬ ∃ outcome, ∀ locals, elf32RelocApply elfObj 4096 4452 2 1 locals = .ok outcome)
      ∧ ¬ ∀ locals code m', elf32RelocApply elfObj 4096 4452 2 1 locals = .ok (code, m') →
        m'.readWord (relVal elfObj 4096 4452 4188) = relocExpected elfObj 4096 4452 4188 0 :=
  @reloc_depends_on_locals elfObj 4096 4452 2 1 4228 4188 0
    ⟨by decide +kernel, by decide +kernel, by decide +kernel⟩ (by decide +kernel)
    (.undefIndex (by decide +kernel))

/-- With a pointer to the section 1 in `sect2`, and with a pointer to zeros, it leaves different bytes in the
word of code. -/
theorem reloc_index_zero_differs :
    ¬ ∃ outcome, (∀ locals, elf32RelocApply elfObj 4096 4452 2 1 locals = .ok outcome)
      ∧ outcome.2.readWord 4348 = 0x11 := by
  rintro ⟨outcome, hall, -⟩
  have hbyte : ∀ locals, (elf32RelocApply elfObj 4096 4452 2 1 locals).map (fun r => r.2 4348)
      = .ok (outcome.2 4348) := fun locals => by rw [hall locals]; rfl
  have hsection : (elf32RelocApply elfObj 4096 4452 2 1 ⟨0, 4188⟩).map (fun r => r.2 4348) = .ok 0x0D := by
    decide +kernel
  have hzeros : (elf32RelocApply elfObj 4096 4452 2 1 ⟨0, 0⟩).map (fun r => r.2 4348) = .ok 0x11 := by
    decide +kernel
  have heq := Except.ok.inj ((hsection.symm.trans (hbyte _)).trans ((hbyte _).symm.trans hzeros))
  exact absurd heq (by decide)

/-! ## Calls that fail -/

/-- The type that the entry has when it is read after the write: the byte of the sum, if the word covers the
type. -/
def patchedType (m : Mem) (image rel : Nat) (p : RelocPatch) : Nat :=
  let place := relVal m image rel p.sect
  if place ≤ u32 (rel + 4) ∧ u32 (rel + 4) < place + 4 then
    ((relocAdded m image p + m.readWord place) >>> (8 * (u32 (rel + 4) - place))) % 256
  else (readElfReloc m rel).type

section

variable {m : Mem} {image rel : Nat}

/-- A byte of a sum does not change when the sum is truncated. -/
theorem byte_u32 (n : Nat) {k : Nat} (hk : k < 4) :
    (u32 n >>> (8 * k)) % 256 = (n >>> (8 * k)) % 256 := by
  unfold u32
  obtain rfl | rfl | rfl | rfl : k = 0 ∨ k = 1 ∨ k = 2 ∨ k = 3 := by omega
  all_goals omega

theorem relocWritten_patchedType (p : RelocPatch) :
    (readElfReloc (relocWritten m image rel p) rel).type = patchedType m image rel p := by
  unfold patchedType
  dsimp only
  split
  · next hin =>
    obtain ⟨k, hk⟩ := Nat.exists_eq_add_of_le hin.1
    have hlt : k < 4 := by omega
    have hbyte := Mem.writeWord_byte m (relVal m image rel p.sect)
      (u32 (relocAdded m image p + m.readWord (relVal m image rel p.sect))) hlt
    rw [byte_u32 _ hlt, ← hk] at hbyte
    rw [show u32 (rel + 4) - relVal m image rel p.sect = k by omega]
    exact hbyte
  · next hout => exact relocWritten_type (by omega)

/-- The first write changes nothing exactly if nothing is added. -/
theorem relocWritten_eq_iff (p : RelocPatch) :
    relocWritten m image rel p = m ↔ u32 (relocAdded m image p) = 0 := by
  have hword := @relocWritten_word m image rel p
  constructor
  · intro hsame
    rw [hsame] at hword
    have hcancel : u32 (m.readWord (relVal m image rel p.sect) + relocAdded m image p)
        = u32 (m.readWord (relVal m image rel p.sect) + 0) := by
      rw [Nat.add_comm, ← hword, Nat.add_zero, u32_of_lt (m.readWord_lt _)]
    exact u32_add_left_cancel hcancel
  · intro hzero
    unfold relocWritten
    rw [← u32_u32_add, hzero, Nat.zero_add, u32_of_lt (m.readWord_lt _), Mem.writeWord_readWord]

/-- **Calls that fail.** A call that does not return `RELOC_OK` leaves the memory as it is if and only if it does
not patch, or nothing is added, or the type is one of the two that are known: an unknown type is noticed only
after the word has been written. -/
theorem failed_reloc_unchanged_iff (m : Mem) (image rel symtabIdx tSectIdx : Nat) (locals : RelocLocals) :
    (∀ code m', elf32RelocApply m image rel symtabIdx tSectIdx locals = .ok (code, m') → code ≠ RELOC_OK →
        m' = m)
      ↔ ∀ p, RelocPatches m image rel symtabIdx tSectIdx locals p →
        u32 (relocAdded m image p) = 0 ∨ patchedType m image rel p = 1 ∨ patchedType m image rel p = 2 := by
  constructor
  · intro hall p hp
    by_contra hcond
    obtain ⟨hadded, htype⟩ := not_or.mp hcond
    obtain ⟨hone, htwo⟩ := not_or.mp htype
    have hcall := elf32RelocApply_of_patches hp
    unfold relocPatch at hcall
    dsimp only at hcall
    rw [relocWritten_patchedType, if_neg hone, if_neg htwo] at hcall
    exact hadded ((relocWritten_eq_iff p).mp (hall _ _ hcall (by decide)))
  · intro hcond code m' hcall hcode
    -- the word is stored before the type is looked at
    by_cases hpatch : ∃ p, RelocPatches m image rel symtabIdx tSectIdx locals p
    · obtain ⟨p, hp⟩ := hpatch
      have heq := Except.ok.inj ((elf32RelocApply_of_patches hp).symm.trans hcall)
      unfold relocPatch at heq
      dsimp only at heq
      rw [relocWritten_patchedType] at heq
      split at heq
      · exact absurd (Prod.mk.inj heq).1.symm hcode
      · next hone =>
        split at heq
        · exact absurd (Prod.mk.inj heq).1.symm hcode
        · next htwo =>
          rw [← (Prod.mk.inj heq).2]
          exact (relocWritten_eq_iff p).mpr ((hcond p hp).resolve_right fun h => h.elim hone htwo)
    · exact elf32RelocApply_of_not_patches (fun p hp => hpatch ⟨p, hp⟩) hcall

end

/-- The third relocation of the object file has the type 3; the call returns `RELOC_ERROR`, with the word of
code changed. -/
theorem reloc_unknown_type_patched :
    ¬ ∀ code m', elf32RelocApply elfObj 4096 4464 2 1 ⟨0, 0⟩ = .ok (code, m') → code ≠ RELOC_OK →
      m' = elfObj := by
  intro hall
  have hrun : (elf32RelocApply elfObj 4096 4464 2 1 ⟨0, 0⟩).map (fun r => (r.1, r.2 4349))
      = .ok (RELOC_ERROR, 0x11) := by decide +kernel
  cases hcall : elf32RelocApply elfObj 4096 4464 2 1 ⟨0, 0⟩ with
  | error e =>
    rw [hcall] at hrun
    cases hrun
  | ok outcome =>
    rw [hcall] at hrun
    obtain ⟨hcode, hbyte⟩ := Prod.mk.inj (Except.ok.inj hrun)
    have hsame := hall outcome.1 outcome.2 hcall (by rw [hcode]; decide)
    rw [hsame] at hbyte
    exact absurd hbyte (by decide +kernel)

end DiyOS
