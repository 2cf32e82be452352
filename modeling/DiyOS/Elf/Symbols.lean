import DiyOS.Basic
import DiyOS.Elf.Sections
import DiyOS.Lib.CString
import DiyOS.Lib.FirstHit

/-!
# Symbols of an image (`kernel/elf.c`)

A symbol table is a section of entries with one size, and the section that it links to holds the names. A
symbol is looked up by its index, by its name in one table, or by its name in all of them.

* **`strcmp_eq_zero_iff`** — `strcmp` returns 0 exactly on equal strings.
* **`search_symbol_first`** — the search over all tables finds the first symbol with the name.
* **`typed_symbol_iff`** — when the lookup of a name and a type is right.
* **`accessors_in_bounds_iff`** — when an index that is accepted lies inside its table.
-/

namespace DiyOS

open Word

/-! ## Symbols and strings

An entry of the symbol table has sixteen bytes, and its name is an offset into the string table. `strcmp` is
compared with 0 only, so that all that matters is when it is 0. -/

/-- `elf_sym_t`, the fields that are read; the last is `section`. -/
structure ElfSym where
  name : Nat
  value : Nat
  type : Nat
  sect : Nat
  deriving DecidableEq

def readElfSym (m : Mem) (p : Nat) : ElfSym where
  name := m.readWord p
  value := m.readWord (u32 (p + 4))
  -- the low half of the byte; the other is `binding`
  type := (m (u32 (p + 12))).toNat % 16
  sect := m.readHalf (u32 (p + 14))

/-- The address of the symbol `i` of the table whose header is at `symtab`. -/
def elfSymAt (m : Mem) (image symtab i : Nat) : Nat :=
  u32 (image + (readElfSect m symtab).offset + (readElfSect m symtab).entSize * i)

/-- `symtab->size / symtab->ent_size`. -/
def symCount (m : Mem) (symtab : Nat) : Nat := (readElfSect m symtab).size / (readElfSect m symtab).entSize

/-- The address of the strings in the section whose header is at `strtab`. -/
def elfStrings (m : Mem) (image strtab : Nat) : Nat := u32 (image + (readElfSect m strtab).offset)

/-- `strcmp` of the string at an address and one whose bytes are given; `char` is signed. -/
def strcmp (m : Mem) : Nat → CString → Int
  | c1, [] => if m c1 ≠ 0 then (m c1).toInt8.toInt else 0
  | c1, c2 :: s2 =>
    if m c1 ≠ 0 then
      let i := (m c1).toInt8.toInt - c2.toInt8.toInt
      if i ≠ 0 then i else strcmp m (c1 + 1) s2
    else -c2.toInt8.toInt

/-- The string at `a` is `s`. -/
def StringIs (m : Mem) (a : Nat) (s : CString) : Prop := m.bytes a (s.length + 1) = s ++ [0]

instance (m : Mem) (a : Nat) (s : CString) : Decidable (StringIs m a s) :=
  inferInstanceAs (Decidable (_ = _))

theorem toInt8_toInt_inj {b c : UInt8} : b.toInt8.toInt = c.toInt8.toInt ↔ b = c := by
  rw [Int8.toInt_inj]
  exact ⟨fun h => congrArg Int8.toUInt8 h, fun h => congrArg _ h⟩

/-- `strcmp` returns 0 on equal strings, and on no others. -/
theorem strcmp_eq_zero_iff {m : Mem} {a : Nat} {s : CString} (hzero : 0 ∉ s) :
    strcmp m a s = 0 ↔ StringIs m a s := by
  unfold StringIs
  induction s generalizing a with
  | nil =>
    rw [strcmp, List.length_nil, Mem.bytes_succ, List.nil_append]
    -- the string in memory ends first, or has another character, or goes on with the same
    by_cases hend : m a = 0
    · rw [if_neg (not_not_intro hend), hend]
      exact iff_of_true rfl rfl
    · rw [if_pos hend]
      refine iff_of_false (fun h => hend ?_) fun h => hend (List.cons.inj h).1
      exact toInt8_toInt_inj.mp (h.trans (show (0 : Int) = (0 : UInt8).toInt8.toInt by decide))
  | cons c s ih =>
    obtain ⟨hc, hs⟩ := not_or.mp (fun h => hzero (List.mem_cons.mpr h))
    rw [strcmp, List.length_cons, Mem.bytes_succ, List.cons_append]
    by_cases hend : m a = 0
    · rw [if_neg (not_not_intro hend), hend]
      refine iff_of_false (fun h => hc ?_) fun h => hc (List.cons.inj h).1
      exact (toInt8_toInt_inj.mp ((Int.neg_eq_zero.mp h).trans
        (show (0 : Int) = (0 : UInt8).toInt8.toInt by decide))).symm
    · rw [if_pos hend]
      by_cases hsame : m a = c
      · have hdiff : (m a).toInt8.toInt - c.toInt8.toInt = 0 := by rw [hsame, Int.sub_self]
        dsimp only
        rw [if_neg (not_not_intro hdiff), ih hs, hsame]
        exact ⟨fun h => congrArg _ h, fun h => (List.cons.inj h).2⟩
      · have hdiff : (m a).toInt8.toInt - c.toInt8.toInt ≠ 0 :=
          fun h => hsame (toInt8_toInt_inj.mp (Int.sub_eq_zero.mp h))
        dsimp only
        rw [if_pos hdiff]
        exact iff_of_false hdiff fun h => hsame (List.cons.inj h).1

/-! ## The source's functions

As they are called by the loader and the relocations: a section pointer is the address of its header, and a null
pointer is `none`. -/

/-- `elf32_get_symbol_i`; the symbol that it stores where it returns 1. -/
def elf32GetSymbolI (m : Mem) (image symIdx symtab : Nat) : Except Halt (Option Nat) :=
  if (readElfSect m symtab).type ≠ SHT_SYMTAB then .ok none
  -- the division of `size` by `ent_size`
  else if (readElfSect m symtab).entSize = 0 then .error .undefined
  else if symIdx > symCount m symtab then .ok none
  else .ok (some (elfSymAt m image symtab symIdx))

/-- The loop of `elf32_get_symbol_by_name` over the symbols that are left. -/
def elf32GetSymbolByNameLoop (m : Mem) (image : Nat) (symName : CString) (type : Int)
    (symtab strings : Nat) : List Nat → Option Nat
  | [] => none
  | i :: is =>
    let sym := elfSymAt m image symtab i
    if strcmp m (u32 (strings + (readElfSym m sym).name)) symName = 0 then
      if type > 0 ∧ ((readElfSym m sym).type : Int) ≠ type then none else some sym
    else elf32GetSymbolByNameLoop m image symName type symtab strings is

/-- `elf32_get_symbol_by_name`; the symbol that it stores where it returns 1. -/
def elf32GetSymbolByName (m : Mem) (image : Nat) (symName : CString) (type : Int) (symtab strtab : Nat) :
    Except Halt (Option Nat) :=
  if (readElfSect m symtab).type ≠ SHT_SYMTAB ∨ (readElfSect m strtab).type ≠ SHT_STRTAB then .ok none
  else if (readElfSect m symtab).entSize = 0 then .error .undefined
  else .ok (elf32GetSymbolByNameLoop m image symName type symtab (elfStrings m image strtab)
    (List.range (symCount m symtab)))

/-- One turn of the loop of `elf32_search_symbol`. -/
def elf32SearchSymbolTurn (m : Mem) (image : Nat) (name : CString) (type i : Nat) :
    Except Halt (Option Nat) :=
  (elf32GetSectionsI m image i SHT_SYMTAB (-1)).elim (.ok none) fun sect =>
    (elf32GetSectionI m image (readElfSect m sect).link).elim (.ok none) fun strtab =>
      elf32GetSymbolByName m image name (int32 type) sect strtab

/-- The loop of `elf32_search_symbol` over the symbol tables that are left. -/
def elf32SearchSymbolLoop (m : Mem) (image : Nat) (name : CString) (type : Nat) :
    List Nat → Except Halt (Option Nat)
  | [] => .ok none
  | i :: is =>
    match elf32SearchSymbolTurn m image name type i with
    | .error e => .error e
    | .ok none => elf32SearchSymbolLoop m image name type is
    | .ok (some sym) => .ok (some sym)

/-- `elf32_search_symbol`; the symbol that it stores where it returns 1. -/
def elf32SearchSymbol (m : Mem) (image : Nat) (name : CString) (type : Nat) : Except Halt (Option Nat) :=
  elf32SearchSymbolLoop m image name type (List.range (elf32GetSections m image SHT_SYMTAB (-1)))

/-- `elf32_get_name`; the name that it stores where it returns 1. -/
def elf32GetName (m : Mem) (image index strtab : Nat) : Option Nat :=
  if (readElfSect m strtab).type ≠ SHT_STRTAB then none
  else if index > (readElfSect m strtab).size then none
  else some (u32 (elfStrings m image strtab + index))

/-! ## Lookup in one table

The loop stops at the first entry with the name. If that has another type the function returns 0, though an entry
further on may have both. -/

/-- The symbol `j` of the table has the name. -/
def SymNamed (m : Mem) (image : Nat) (name : CString) (symtab strtab j : Nat) : Prop :=
  StringIs m (u32 (elfStrings m image strtab + (readElfSym m (elfSymAt m image symtab j)).name)) name

instance (m : Mem) (image : Nat) (name : CString) (symtab strtab : Nat) :
    DecidablePred (SymNamed m image name symtab strtab) :=
  fun _ => inferInstanceAs (Decidable (StringIs _ _ _))

/-- The symbol `j` of the table has the type, if one is asked for. -/
def SymTyped (m : Mem) (image : Nat) (type : Int) (symtab j : Nat) : Prop :=
  type > 0 → ((readElfSym m (elfSymAt m image symtab j)).type : Int) = type

instance (m : Mem) (image : Nat) (type : Int) (symtab : Nat) : DecidablePred (SymTyped m image type symtab) :=
  fun _ => inferInstanceAs (Decidable (_ → _))

section

variable {m : Mem} {image symtab strtab : Nat} {name : CString} {type : Int}

theorem strcmp_symNamed (hname : 0 ∉ name) (j : Nat) :
    strcmp m (u32 (elfStrings m image strtab + (readElfSym m (elfSymAt m image symtab j)).name)) name = 0
      ↔ SymNamed m image name symtab strtab j :=
  strcmp_eq_zero_iff hname

/-- The loop gives up at the first symbol with the name if its type is another one. -/
theorem elf32GetSymbolByNameLoop_eq (hname : 0 ∉ name) (is : List Nat) :
    elf32GetSymbolByNameLoop m image name type symtab (elfStrings m image strtab) is
      = ((is.find? (SymNamed m image name symtab strtab)).filter (SymTyped m image type symtab)).map
          (elfSymAt m image symtab) := by
  induction is with
  | nil => rfl
  | cons i is ih =>
    rw [elf32GetSymbolByNameLoop]
    simp only [strcmp_symNamed hname]
    by_cases hnamed : SymNamed m image name symtab strtab i
    · rw [if_pos hnamed, List.find?_cons_of_pos (by simpa using hnamed)]
      by_cases htyped : SymTyped m image type symtab i
      · rw [if_neg fun h => h.2 (htyped h.1), Option.filter_some_pos (by simpa using htyped), Option.map_some]
      · rw [if_pos (Classical.not_imp.mp htyped), Option.filter_some_neg (by simpa using htyped), Option.map_none]
    · rw [if_neg hnamed, List.find?_cons_of_neg (by simpa using hnamed), ih]

/-- In sound tables the lookup tests the type of the first symbol with the name. -/
theorem elf32GetSymbolByName_of_tables (hname : 0 ∉ name) (hsymtab : (readElfSect m symtab).type = SHT_SYMTAB)
    (hstrtab : (readElfSect m strtab).type = SHT_STRTAB) (hent : 0 < (readElfSect m symtab).entSize) :
    elf32GetSymbolByName m image name type symtab strtab
      = .ok ((((List.range (symCount m symtab)).find? (SymNamed m image name symtab strtab)).filter
          (SymTyped m image type symtab)).map (elfSymAt m image symtab)) := by
  unfold elf32GetSymbolByName
  rw [if_neg fun h => h.elim (· hsymtab) (· hstrtab), if_neg (Nat.ne_of_gt hent),
    elf32GetSymbolByNameLoop_eq hname]

end

/-- The first symbol of the table that has both the name and the type. -/
def typedSymbol (m : Mem) (image : Nat) (name : CString) (type : Int) (symtab strtab : Nat) : Option Nat :=
  ((List.range (symCount m symtab)).find? fun j =>
      SymNamed m image name symtab strtab j && SymTyped m image type symtab j).map (elfSymAt m image symtab)

section

variable {m : Mem} {image symtab strtab : Nat} {name : CString} {type : Int}

theorem symTyped_of_pos (htype : 0 < type) {j : Nat} :
    SymTyped m image type symtab j ↔ ((readElfSym m (elfSymAt m image symtab j)).type : Int) = type :=
  ⟨fun h => h htype, fun h _ => h⟩

/-- **Lookup of a name and a type.** It finds the first symbol that has both if and only if no symbol does, or
the first one with the name has the type. -/
theorem typed_symbol_iff (hname : 0 ∉ name) (hsymtab : (readElfSect m symtab).type = SHT_SYMTAB)
    (hstrtab : (readElfSect m strtab).type = SHT_STRTAB) (hent : 0 < (readElfSect m symtab).entSize)
    (htype : 0 < type) :
    elf32GetSymbolByName m image name type symtab strtab
        = .ok (typedSymbol m image name type symtab strtab)
      ↔ (∀ j < symCount m symtab, SymNamed m image name symtab strtab j →
            ((readElfSym m (elfSymAt m image symtab j)).type : Int) ≠ type)
        ∨ ∃ j < symCount m symtab, SymNamed m image name symtab strtab j
          ∧ (∀ k < j, ¬ SymNamed m image name symtab strtab k)
          ∧ ((readElfSym m (elfSymAt m image symtab j)).type : Int) = type := by
  rw [elf32GetSymbolByName_of_tables hname hsymtab hstrtab hent]
  unfold typedSymbol
  rw [Except.ok.injEq, FirstHit.map_find?_filter_eq_iff]
  simp only [List.mem_range, decide_eq_true_eq, symTyped_of_pos htype, List.find?_range_eq_some,
    Bool.not_eq_true', decide_eq_false_iff_not]
  refine or_congr_right ⟨?_, ?_⟩
  · rintro ⟨j, ⟨hnamed, hj, hbefore⟩, htyped⟩
    exact ⟨j, hj, hnamed, hbefore, htyped⟩
  · rintro ⟨j, hj, hnamed, hbefore, htyped⟩
    exact ⟨j, ⟨hnamed, hj, hbefore⟩, htyped⟩

end

/-- In the object file no symbol before the first one has the name "a", and that one has the type 1. -/
theorem typed_symbol_iff_elfObj :
    elf32GetSymbolByName elfObj 4096 [0x61] 1 4228 4268 = .ok (typedSymbol elfObj 4096 [0x61] 1 4228 4268)
      ↔ (∀ j < symCount elfObj 4228, SymNamed elfObj 4096 [0x61] 4228 4268 j →
            ((readElfSym elfObj (elfSymAt elfObj 4096 4228 j)).type : Int) ≠ 1)
        ∨ ∃ j < symCount elfObj 4228, SymNamed elfObj 4096 [0x61] 4228 4268 j
          ∧ (∀ k < j, ¬ SymNamed elfObj 4096 [0x61] 4228 4268 k)
          ∧ ((readElfSym elfObj (elfSymAt elfObj 4096 4228 j)).type : Int) = 1 :=
  typed_symbol_iff (by decide) (by decide +kernel) (by decide +kernel) (by decide +kernel) (by decide)

/-- The second symbol "a" is a function; the first one, which is an object, hides it. -/
theorem typed_symbol_hidden :
    ¬ elf32GetSymbolByName elfObj 4096 [0x61] 2 4228 4268
      = .ok (typedSymbol elfObj 4096 [0x61] 2 4228 4268) := by
  decide +kernel

/-! ## Search in all tables

The sections are numbered among those of type `SHT_SYMTAB`, as `elf32_get_section` numbers them. The outer loop
asks for one after the other, and stops at the first symbol. -/

/-- The header of the section that the table links to. -/
def linkedStrtab (m : Mem) (image symtab : Nat) : Nat := elfSectAt m image (readElfSect m symtab).link

/-- The section `i` is a symbol table that links to a string table, and its symbol `j` has the name. -/
def NamesAt (m : Mem) (image : Nat) (name : CString) (i j : Nat) : Prop :=
  (readElfSect m (elfSectAt m image i)).type = SHT_SYMTAB
    ∧ (readElfSect m (linkedStrtab m image (elfSectAt m image i))).type = SHT_STRTAB
    ∧ SymNamed m image name (elfSectAt m image i) (linkedStrtab m image (elfSectAt m image i)) j

instance (m : Mem) (image : Nat) (name : CString) (i : Nat) : DecidablePred (NamesAt m image name i) :=
  fun _ => inferInstanceAs (Decidable (_ ∧ _))

/-- Among the symbols of the sections of the image, the symbol `j` of the section `i` has the name. -/
def NamedSym (m : Mem) (image : Nat) (name : CString) : Nat → Nat → Prop :=
  FirstHit.Hits (readElfShtab m image).numSects (fun i => symCount m (elfSectAt m image i))
    (NamesAt m image name)

/-- It is the first one, in the order of the section table and, within a section, of its symbols. -/
def FirstNamedSym (m : Mem) (image : Nat) (name : CString) : Nat → Nat → Prop :=
  FirstHit.IsFirst (readElfShtab m image).numSects (fun i => symCount m (elfSectAt m image i))
    (NamesAt m image name)

/-- Every symbol table has an entry size and links to a section of the image. -/
def SymtabsOk (m : Mem) (image : Nat) : Prop :=
  ∀ i < (readElfShtab m image).numSects, (readElfSect m (elfSectAt m image i)).type = SHT_SYMTAB →
    0 < (readElfSect m (elfSectAt m image i)).entSize
      ∧ (readElfSect m (elfSectAt m image i)).link < (readElfShtab m image).numSects

/-- The lookup in the table whose header is at `symtab`. -/
def tableSymbol (m : Mem) (image : Nat) (name : CString) (symtab : Nat) : Option Nat :=
  if (readElfSect m (linkedStrtab m image symtab)).type = SHT_STRTAB then
    ((List.range (symCount m symtab)).find? (SymNamed m image name symtab (linkedStrtab m image symtab))).map
      (elfSymAt m image symtab)
  else none

section

variable {m : Mem} {image : Nat} {name : CString}

theorem matchesAt_neg {type : Nat} {i : Nat} :
    MatchesAt m image type (-1) i ↔ (readElfSect m (elfSectAt m image i)).type = type :=
  ⟨fun h => h.1, fun h => ⟨h, fun hflags => absurd hflags (by decide)⟩⟩

theorem allMatch_neg {type : Nat} (is : List Nat) : AllMatch m image type (-1) is :=
  fun _ _ htype => matchesAt_neg.mpr htype

/-- The lookup of the search in one table. -/
theorem elf32GetSymbolByName_linked (hname : 0 ∉ name) (hwell : SymtabsOk m image) {symtab : Nat}
    (hmem : symtab ∈ matchingSections m image SHT_SYMTAB (-1)) :
    elf32GetSectionI m image (readElfSect m symtab).link = some (linkedStrtab m image symtab)
      ∧ elf32GetSymbolByName m image name (-1) symtab (linkedStrtab m image symtab)
        = .ok (tableSymbol m image name symtab) := by
  obtain ⟨i, hi, rfl⟩ := List.mem_map.mp hmem
  obtain ⟨hrange, hmatch⟩ := List.mem_filter.mp hi
  have htype := matchesAt_neg.mp (of_decide_eq_true hmatch)
  obtain ⟨hent, hlink⟩ := hwell i (List.mem_range.mp hrange) htype
  refine ⟨?_, ?_⟩
  · unfold elf32GetSectionI
    rw [if_neg (by omega)]
    rfl
  · unfold tableSymbol
    split
    · next hstrtab =>
      rw [elf32GetSymbolByName_of_tables hname htype hstrtab hent]
      -- the type is -1, so that no symbol is refused for its type
      have htyped : ∀ found : Option Nat,
          found.filter (SymTyped m image (-1) (elfSectAt m image i)) = found := by
        intro found
        cases found with
        | none => rfl
        | some j => exact Option.filter_some_pos (decide_eq_true fun hpos => absurd hpos (by decide))
      rw [htyped]
    · next hstrtab =>
      unfold elf32GetSymbolByName
      rw [if_pos (Or.inr hstrtab)]

theorem elf32SearchSymbolTurn_eq (hname : 0 ∉ name) (hwell : SymtabsOk m image) (i : Nat) :
    elf32SearchSymbolTurn m image name 0xFFFFFFFF i
      = .ok ((matchingSections m image SHT_SYMTAB (-1))[i]?.bind (tableSymbol m image name)) := by
  have hget : elf32GetSectionsI m image i SHT_SYMTAB (-1)
      = (matchingSections m image SHT_SYMTAB (-1))[i]? := (scans_of_allMatch (allMatch_neg _) 0 i).2
  have hminus : int32 0xFFFFFFFF = -1 := by decide
  unfold elf32SearchSymbolTurn
  rw [hget, hminus]
  cases hsect : (matchingSections m image SHT_SYMTAB (-1))[i]? with
  | none => rfl
  | some symtab =>
    obtain ⟨hlink, hlookup⟩ := elf32GetSymbolByName_linked hname hwell (List.mem_of_getElem? hsect)
    rw [Option.elim_some, hlink, Option.elim_some, hlookup, Option.bind_some]

theorem elf32SearchSymbolLoop_eq (hname : 0 ∉ name) (hwell : SymtabsOk m image) (is : List Nat) :
    elf32SearchSymbolLoop m image name 0xFFFFFFFF is
      = .ok (is.findSome? fun i =>
          (matchingSections m image SHT_SYMTAB (-1))[i]?.bind (tableSymbol m image name)) := by
  induction is with
  | nil => rfl
  | cons i is ih =>
    rw [elf32SearchSymbolLoop, elf32SearchSymbolTurn_eq hname hwell, List.findSome?_cons, ih]
    cases (matchingSections m image SHT_SYMTAB (-1))[i]?.bind (tableSymbol m image name) with
    | none => rfl
    | some sym => rfl

/-- The search is the scan of the tables. -/
theorem elf32SearchSymbol_eq (hname : 0 ∉ name) (hwell : SymtabsOk m image) :
    elf32SearchSymbol m image name 0xFFFFFFFF
      = .ok ((FirstHit.scan (readElfShtab m image).numSects (fun i => symCount m (elfSectAt m image i))
          (NamesAt m image name)).map fun ij => elfSymAt m image (elfSectAt m image ij.1) ij.2) := by
  have hcount : elf32GetSections m image SHT_SYMTAB (-1)
      = (matchingSections m image SHT_SYMTAB (-1)).length := by
    unfold elf32GetSections matchingSections
    rw [(scans_of_allMatch (allMatch_neg _) 0 0).1, List.length_map, Nat.zero_add]
  unfold elf32SearchSymbol
  rw [elf32SearchSymbolLoop_eq hname hwell, hcount, FirstHit.findSome?_getElem?_range]
  unfold matchingSections FirstHit.scan
  rw [List.findSome?_map, FirstHit.findSome?_filter, List.map_findSome?]
  refine congrArg _ (congrArg (List.findSome? · _) (funext fun i => ?_))
  rw [Function.comp_apply, Function.comp_apply, Option.map_map]
  -- a section that is no symbol table, or whose names are in no string table, has no symbols to find
  by_cases htype : (readElfSect m (elfSectAt m image i)).type = SHT_SYMTAB
  · rw [if_pos (decide_eq_true (matchesAt_neg.mpr htype))]
    unfold tableSymbol
    by_cases hstrtab : (readElfSect m (linkedStrtab m image (elfSectAt m image i))).type = SHT_STRTAB
    · rw [if_pos hstrtab]
      have hsame : ∀ j, decide (NamesAt m image name i j) = decide (SymNamed m image name
          (elfSectAt m image i) (linkedStrtab m image (elfSectAt m image i)) j) :=
        fun j => decide_eq_decide.mpr ⟨fun h => h.2.2, fun h => ⟨htype, hstrtab, h⟩⟩
      simp only [hsame]
      rfl
    · have hnone : ∀ j, decide (NamesAt m image name i j) = false :=
        fun j => decide_eq_false fun h => hstrtab h.2.1
      rw [if_neg hstrtab]
      simp [hnone]
  · have hnone : ∀ j, decide (NamesAt m image name i j) = false :=
      fun j => decide_eq_false fun h => htype h.1
    rw [if_neg fun h => htype (matchesAt_neg.mp (of_decide_eq_true h))]
    simp [hnone]

/-- **Symbol search.** The search over all symbol tables succeeds exactly if some symbol has the name, and it
finds the first one. -/
theorem search_symbol_first (hname : 0 ∉ name) (hwell : SymtabsOk m image) :
    ∃ found, elf32SearchSymbol m image name 0xFFFFFFFF = .ok found
      ∧ (found.isSome ↔ ∃ i j, NamedSym m image name i j)
      ∧ ∀ sym, found = some sym →
        ∃ i j, FirstNamedSym m image name i j ∧ sym = elfSymAt m image (elfSectAt m image i) j := by
  refine ⟨_, elf32SearchSymbol_eq hname hwell, ?_, ?_⟩
  · rw [Option.isSome_map]
    exact FirstHit.scan_isSome_iff
  · intro sym hsym
    obtain ⟨⟨i, j⟩, hscan, heq⟩ := Option.map_eq_some_iff.mp hsym
    exact ⟨i, j, FirstHit.scan_isFirst hscan, heq.symm⟩

end

/-- In the object file the name "a" is found at the symbol 1 of the section 2. -/
theorem search_symbol_first_elfObj :
    ∃ found, elf32SearchSymbol elfObj 4096 [0x61] 0xFFFFFFFF = .ok found
      ∧ (found.isSome ↔ ∃ i j, NamedSym elfObj 4096 [0x61] i j)
      ∧ ∀ sym, found = some sym →
        ∃ i j, FirstNamedSym elfObj 4096 [0x61] i j ∧ sym = elfSymAt elfObj 4096 (elfSectAt elfObj 4096 i) j :=
  search_symbol_first (by decide) (by unfold SymtabsOk; decide +kernel)

/-! ## Bounds

An index is compared with the number of entries by `>`, so that the number itself is accepted. -/

section

variable {m : Mem} {image symtab strtab : Nat}

theorem elf32GetSectionI_inside_iff {index : Nat} :
    (∀ sect, elf32GetSectionI m image index = some sect → index < (readElfShtab m image).numSects)
      ↔ index ≠ (readElfShtab m image).numSects := by
  unfold elf32GetSectionI
  split
  · next hout => exact iff_of_true (fun _ h => nomatch h) (by omega)
  · next hin => exact ⟨fun h => Nat.ne_of_lt (h _ rfl), fun hne _ _ => by omega⟩

/-- A section of another type gives no symbol; entries of size 0 are divided by. -/
theorem elf32GetSymbolI_inside_iff {symIdx : Nat} :
    (∃ found, elf32GetSymbolI m image symIdx symtab = .ok found
        ∧ ∀ sym, found = some sym → symIdx < symCount m symtab)
      ↔ (readElfSect m symtab).type ≠ SHT_SYMTAB
        ∨ (readElfSect m symtab).entSize ≠ 0 ∧ symIdx ≠ symCount m symtab := by
  unfold elf32GetSymbolI
  split
  · next htype => exact iff_of_true ⟨none, rfl, fun _ h => nomatch h⟩ (Or.inl htype)
  · next htype =>
    rw [or_iff_right htype]
    split
    · next hent => exact iff_of_false (fun ⟨_, h, _⟩ => nomatch h) fun h => h.1 hent
    · next hent =>
      rw [and_iff_right hent]
      split
      · next hout => exact iff_of_true ⟨none, rfl, fun _ h => nomatch h⟩ (by omega)
      · next hin =>
        constructor
        · rintro ⟨found, hfound, hlt⟩
          exact Nat.ne_of_lt (hlt _ (Except.ok.inj hfound).symm)
        · exact fun hne => ⟨_, rfl, fun _ _ => by omega⟩

/-- The lookup by name returns, but for entries of size 0. -/
theorem elf32GetSymbolByName_returns_iff {name : CString} {type : Int} :
    (∃ found, elf32GetSymbolByName m image name type symtab strtab = .ok found)
      ↔ (readElfSect m symtab).type ≠ SHT_SYMTAB ∨ (readElfSect m strtab).type ≠ SHT_STRTAB
        ∨ (readElfSect m symtab).entSize ≠ 0 := by
  unfold elf32GetSymbolByName
  rw [← or_assoc]
  split
  · next htypes => exact iff_of_true ⟨none, rfl⟩ (Or.inl htypes)
  · next htypes =>
    rw [or_iff_right htypes]
    split
    · next hent => exact iff_of_false (fun ⟨_, h⟩ => nomatch h) fun h => h hent
    · next hent => exact iff_of_true ⟨_, rfl⟩ hent

/-- A name begins in the string table, but for the offset behind it. -/
theorem elf32GetName_inside_iff {index : Nat} :
    (∀ s, elf32GetName m image index strtab = some s → index < (readElfSect m strtab).size)
      ↔ (readElfSect m strtab).type ≠ SHT_STRTAB ∨ index ≠ (readElfSect m strtab).size := by
  unfold elf32GetName
  split
  · next htype => exact iff_of_true (fun _ h => nomatch h) (Or.inl htype)
  · next htype =>
    rw [or_iff_right htype]
    split
    · next hout => exact iff_of_true (fun _ h => nomatch h) (by omega)
    · next hin => exact ⟨fun h => Nat.ne_of_lt (h _ rfl), fun hne _ _ => by omega⟩

end

/-- **Bounds.** When an accessor that succeeds was given an index inside its table, and when there is no
division by zero: the comparisons let the index through that equals the number of entries, or the size of the
string table, and no entry size is checked. -/
theorem accessors_in_bounds_iff (m : Mem) (image symtab strtab sectIdx symIdx offset : Nat) (name : CString)
    (type : Int) :
    ((∀ sect, elf32GetSectionI m image sectIdx = some sect → sectIdx < (readElfShtab m image).numSects)
        ↔ sectIdx ≠ (readElfShtab m image).numSects)
      ∧ ((∃ found, elf32GetSymbolI m image symIdx symtab = .ok found
          ∧ ∀ sym, found = some sym → symIdx < symCount m symtab)
        ↔ (readElfSect m symtab).type ≠ SHT_SYMTAB
          ∨ (readElfSect m symtab).entSize ≠ 0 ∧ symIdx ≠ symCount m symtab)
      ∧ ((∃ found, elf32GetSymbolByName m image name type symtab strtab = .ok found)
        ↔ (readElfSect m symtab).type ≠ SHT_SYMTAB ∨ (readElfSect m strtab).type ≠ SHT_STRTAB
          ∨ (readElfSect m symtab).entSize ≠ 0)
      ∧ ((∀ s, elf32GetName m image offset strtab = some s → offset < (readElfSect m strtab).size)
        ↔ (readElfSect m strtab).type ≠ SHT_STRTAB ∨ offset ≠ (readElfSect m strtab).size) :=
  ⟨elf32GetSectionI_inside_iff, elf32GetSymbolI_inside_iff, elf32GetSymbolByName_returns_iff,
    elf32GetName_inside_iff⟩

/-- The object file has five sections, and the section 5 is handed out. -/
theorem section_out_of_bounds :
    ¬ ∀ sect, elf32GetSectionI elfObj 4096 5 = some sect → 5 < (readElfShtab elfObj 4096).numSects := by
  intro h
  have hnum : (readElfShtab elfObj 4096).numSects = 5 := by decide +kernel
  have hfound : elf32GetSectionI elfObj 4096 5 = some 4348 := by decide +kernel
  have hlt := h 4348 hfound
  rw [hnum] at hlt
  exact absurd hlt (Nat.lt_irrefl 5)

end DiyOS
