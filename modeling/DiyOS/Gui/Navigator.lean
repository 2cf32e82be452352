import DiyOS.Fs.Below
import DiyOS.Gui.Forest
import DiyOS.Keyboard

/-!
# The file navigator (`gui/widgets/filenavigator.c`)

What the navigator does with its own fields, and the directories that it lists. Choosing the entry `..`
goes through the directory string by an index that can leave it. Reading there gives any byte. A NUL that is
written there is recorded in `Up` and goes no further: the memory below a string holds the header that the
heap keeps for it, or another block, and what becomes of these is not followed here. So what is shown of a
navigator after such a choice is shown of the fields as the choice computes them.

`OnChoose` is `file_navigator_choose`, and the callback of the user, which only reads the directory, is left
out. `malloc` does not fail and `free` does nothing here; what does not fit into the address space is
undefined. The widgets of `gui/widgets` have records of navigators, too; there the answers of `readdir` are
given. `fileNavigatorSet_widgets` relates the two.
-/

namespace DiyOS

open Word CString

/-- `file_navigator_t`, without its widget. -/
structure Navigator where
  directory : Option CString
  files : List Vfs.Dirent
  count : Nat
  selected : Nat
  /-- The strings that were passed to `text_view`. -/
  viewed : List CString

/-- What a call finds in memory: in the record that `malloc` returns for the entry `..`, and at the index
`i` of the directory string, where `i` is not in the string. -/
structure Garbage where
  dirent : Vfs.Dirent
  byte : Nat → UInt8

namespace Navigator

/-! ## Strings

`strcat` allocates, and the lengths are words: a string that is too long for its size is undefined here. All
strings of the navigator are made this way. -/

/-- The name `..`. -/
def dotDotName : CString := [46, 46]

/-- `strcat`, which returns a new string. -/
def strcat (str1 str2 : CString) : Except Halt CString :=
  if str1.length + str2.length + 1 < 4294967296 then .ok (str1 ++ str2) else .error .undefined

/-- `directory[i]`. -/
def byteAt (directory : CString) (outside : Nat → UInt8) (i : Nat) : UInt8 :=
  ((directory ++ [0])[i]?).getD (outside i)

/-- The loop `while( directory[i] != '/' && i > 0) i--`: the indices that it reads, and the last `i`. -/
def scanBack (directory : Nat → UInt8) : Nat → List Nat × Nat
  | 0 => ([0], 0)
  | i + 1 =>
    if directory (i + 1) ≠ slash then ((i + 1) :: (scanBack directory i).1, (scanBack directory i).2)
    else ([i + 1], i + 1)

/-- What choosing `..` does to the directory string: the indices it reads, the index it writes NUL to, and
the string it leaves. -/
structure Up where
  reads : List Nat
  write : Nat
  directory : CString

/-- The assignment `directory[i+1] = 0` behind the loop. -/
def Up.ofScan (directory : CString) (scan : List Nat × Nat) : Up :=
  ⟨scan.1, u32 (scan.2 + 1), directory.take (u32 (scan.2 + 1))⟩

def goUp (directory : CString) (outside : Nat → UInt8) : Up :=
  Up.ofScan directory (scanBack (byteAt directory outside) (sub32 directory.length 2))

/-- The path of a directory that is chosen. -/
def childPath (directory : CString) (outside : Nat → UInt8) (name : CString) : Except Halt CString :=
  if byteAt directory outside (sub32 directory.length 1) ≠ slash then do
    strcat (← strcat directory [slash]) name
  else strcat directory name

/-- The path of a file that is chosen. -/
def filePath (directory name : CString) : Except Halt CString := do
  strcat (← strcat directory [slash]) name

/-! ## `file_navigator_set` and `file_navigator_choose`

The two call each other: to list a directory is to choose what is selected, and to choose a directory is to list
it. The recursion ends because nothing is selected in the list that has just been read. -/

/-- `fn->files = list_add(fn->files, d)` and `fn->count++`. -/
def add (fn : Navigator) (d : Vfs.Dirent) : Navigator :=
  { fn with files := listAdd fn.files d, count := u32 (fn.count + 1) }

/-- The loop of `file_navigator_set`, behind the entry `d`; `lookups` is the fuel of `readdir`. -/
def listEntries (v : Vfs) (lookups : Nat) (directory : CString) :
    Nat → Vfs.Dirent → Navigator → Except Halt Navigator
  | 0, _, _ => .error .loops
  | fuel + 1, d, fn =>
    match readdir v lookups directory (some d) with
    | .error e => .error e
    | .ok none => .ok fn
    | .ok (some d) => listEntries v lookups directory fuel d (fn.add d)

/-- The entry `..`, in the record that `malloc` returned. -/
def dotDotEntry (g : Garbage) : Vfs.Dirent := { g.dirent with name := dotDotName, flags := FS_DIRECTORY }

/-- `file_navigator_set`, with the `OnChoose` that it calls. -/
def fileNavigatorSetWith (v : Vfs) (fuel : Nat) (g : Garbage)
    (onChoose : Navigator → Except Halt Navigator) (fn : Navigator) (directory : Option CString) :
    Except Halt Navigator :=
  let fn := if fn.directory.isSome then { fn with files := [], count := 0, selected := 0xFFFFFFFF } else fn
  match directory with
  | none => .ok fn
  | some directory => do
    let d := dotDotEntry g
    let fn ← listEntries v fuel directory fuel d (fn.add d)
    let fn ← onChoose { fn with directory := some directory }
    .ok (if fn.count ≠ 0 then { fn with selected := 0 } else fn)

/-- `file_navigator_choose`, with the `file_navigator_set` that it calls. -/
def fileNavigatorChooseWith (g : Garbage) (set : Navigator → Option CString → Except Halt Navigator)
    (fn : Navigator) : Except Halt Navigator :=
  -- `list_get` reads the magic number of the first entry
  if fn.files.isEmpty then .error .undefined
  else
    match listGet fn.files fn.selected, fn.directory with
    | none, _ => .ok fn
    | some _, none => .error .undefined
    | some l, some directory =>
      if l.flags &&& FS_DIRECTORY ≠ 0 then
        if l.name = dotDotName then
          let up := goUp directory g.byte
          set { fn with directory := some up.directory } (some up.directory)
        else do
          set fn (some (← childPath directory g.byte l.name))
      else do
        let file ← filePath directory l.name
        .ok { fn with viewed := fn.viewed ++ [file] }

/-- `file_navigator_choose`. -/
def fileNavigatorChoose (v : Vfs) (g : Garbage) : Nat → Navigator → Except Halt Navigator
  | 0, _ => .error .loops
  | fuel + 1, fn =>
    fileNavigatorChooseWith g (fileNavigatorSetWith v fuel g (fileNavigatorChoose v g fuel)) fn

def fileNavigatorSet (v : Vfs) (fuel : Nat) (g : Garbage) (fn : Navigator) (directory : Option CString) :
    Except Halt Navigator :=
  fileNavigatorSetWith v fuel g (fileNavigatorChoose v g fuel) fn directory

/-- The fields that `file_navigator_create` assigns before it lists the directory. -/
def empty : Navigator := ⟨none, [], 0, 0xFFFFFFFF, []⟩

def fileNavigatorCreate (v : Vfs) (fuel : Nat) (g : Garbage) (directory : Option CString) :
    Except Halt Navigator :=
  if directory.isSome then fileNavigatorSet v fuel g empty directory else .ok empty

def fileNavigatorKeydown (v : Vfs) (fuel : Nat) (g : Garbage) (fn : Navigator) (key : Nat) :
    Except Halt Navigator :=
  if key = 10 then
    if 0 ≤ int32 fn.selected then fileNavigatorChoose v g fuel fn else .ok fn
  else if key = keyDown ∨ key = keyRight then
    let selected := u32 (fn.selected + 1)
    -- `count` is unsigned, and so is the comparison
    .ok { fn with selected := if fn.count ≤ selected then sub32 selected 1 else selected }
  else if key = keyUp ∨ key = keyLeft then
    let selected := sub32 fn.selected 1
    .ok { fn with selected := if int32 selected < 0 then 0 else selected }
  else .ok fn

/-! ## Listing a directory

`Enumerates` says that `readdir` gives the entries `ds` and then none, `Fails` that it stops before. Lookups need
fuel 2 at most, so the fuel of the loop does not matter to them. -/

section

variable {v : Vfs} {g : Garbage} {fn : Navigator} {directory : CString} {ds : List Vfs.Dirent}

/-- The entries are added one behind the other, and counted. -/
theorem foldl_add (fn : Navigator) (ds : List Vfs.Dirent) (hcount : fn.count + ds.length < 4294967296) :
    ds.foldl add fn = { fn with files := fn.files ++ ds, count := fn.count + ds.length } := by
  induction ds generalizing fn with
  | nil => simp
  | cons d ds ih =>
    rw [List.length_cons] at hcount
    have hsucc : u32 (fn.count + 1) = fn.count + 1 := u32_of_lt (by omega)
    rw [List.foldl_cons, ih (fn.add d) (by unfold add; simp only [hsucc]; omega)]
    simp only [add, listAdd, hsucc, List.append_assoc, List.singleton_append, List.length_cons]
    rw [show fn.count + 1 + ds.length = fn.count + (ds.length + 1) by omega]

theorem listEntries_lookups {lookups : Nat} (h : 2 ≤ lookups) (fuel : Nat) (d : Vfs.Dirent)
    (fn : Navigator) :
    listEntries v lookups directory fuel d fn = listEntries v 2 directory fuel d fn := by
  induction fuel generalizing d fn with
  | zero => rfl
  | succ fuel ih =>
    rw [listEntries, listEntries, readdir_fuel v h]
    simp only [ih]

/-- The loop adds the entries that `readdir` gives. -/
theorem listEntries_of_enumerates {fuel : Nat} {d : Vfs.Dirent}
    (h : Enumerates (readdir v 2 directory) (some d) ds) (hfuel : ds.length < fuel) (fn : Navigator) :
    listEntries v 2 directory fuel d fn = .ok (ds.foldl add fn) := by
  generalize hd : some d = dir at h
  induction h generalizing fuel fn d with
  | nil hend =>
    subst hd
    obtain ⟨fuel, rfl⟩ := Nat.exists_eq_succ_of_ne_zero (Nat.ne_of_gt hfuel)
    rw [listEntries, hend]
    rfl
  | cons hnext _ ih =>
    subst hd
    obtain ⟨fuel, rfl⟩ := Nat.exists_eq_succ_of_ne_zero (Nat.ne_of_gt (Nat.zero_lt_of_lt hfuel))
    rw [listEntries, hnext, List.foldl_cons]
    exact ih (Nat.lt_of_succ_lt_succ hfuel) _ rfl

theorem listEntries_of_fails {d : Vfs.Dirent} {e : Halt}
    (h : Fails (readdir v 2 directory) e (some d)) (fn : Navigator) :
    Settles (fun fuel => listEntries v 2 directory fuel d fn) (.error e) := by
  generalize hd : some d = dir at h
  induction h generalizing fn d with
  | here hcall =>
    subst hd
    exact settles_const fun fuel => by rw [listEntries, hcall]
  | later hnext _ ih =>
    subst hd
    exact (ih (fn.add _) rfl).succ fun fuel => by rw [listEntries, hnext]

/-- A choice with no entry selected does nothing. -/
theorem choose_none {fuel : Nat} (hfiles : fn.files ≠ []) (hselected : listGet fn.files fn.selected = none) :
    fileNavigatorChoose v g (fuel + 1) fn = .ok fn := by
  have hne : ¬ fn.files.isEmpty = true := fun h => hfiles (List.isEmpty_iff.mp h)
  rw [fileNavigatorChoose, fileNavigatorChooseWith, if_neg hne, hselected]

/-- The navigators that `file_navigator_set` is called on: those that list a directory, and the new one. -/
def Loadable (fn : Navigator) : Prop :=
  fn.directory.isSome ∨ fn.files = [] ∧ fn.count = 0 ∧ fn.selected = 0xFFFFFFFF

/-- `fn` with a directory and its entries behind `..`. -/
def showing (fn : Navigator) (directory : CString) (g : Garbage) (ds : List Vfs.Dirent) : Navigator :=
  { fn with
    directory := some directory, files := dotDotEntry g :: ds, count := ds.length + 1, selected := 0 }

/-- `file_navigator_set` lists, and then selects the first entry. -/
theorem set_eq (hfn : fn.Loadable) (fuel : Nat) :
    fileNavigatorSet v fuel g fn (some directory) = (do
      let fn ← listEntries v fuel directory fuel (dotDotEntry g)
        { fn with files := [dotDotEntry g], count := 1, selected := 0xFFFFFFFF }
      let fn ← fileNavigatorChoose v g fuel { fn with directory := some directory }
      .ok (if fn.count ≠ 0 then { fn with selected := 0 } else fn)) := by
  rcases hfn with hdirectory | ⟨hfiles, hcount, hselected⟩
  · unfold fileNavigatorSet fileNavigatorSetWith
    rw [if_pos hdirectory]
    rfl
  · obtain ⟨d, files, count, selected, viewed⟩ := fn
    simp only at hfiles hcount hselected
    subst hfiles hcount hselected
    unfold fileNavigatorSet fileNavigatorSetWith
    cases d <;> rfl

/-- The entries are listed, and the call of `OnChoose` finds none of them selected. -/
theorem set_of_enumerates (hfn : fn.Loadable)
    (h : Enumerates (readdir v 2 directory) (some (dotDotEntry g)) ds)
    (hlength : 12 * (ds.length + 1) < 4294967296) :
    Settles (fun fuel => fileNavigatorSet v fuel g fn (some directory)) (.ok (fn.showing directory g ds)) := by
  refine ⟨ds.length + 2, fun fuel hfuel => ?_⟩
  have hcount : 1 + ds.length < 4294967296 := by omega
  -- the selected index, -1, is behind the last entry
  have hnone : listGet (dotDotEntry g :: ds) 0xFFFFFFFF = none := by
    rw [listGet_eq_getElem]
    exact List.getElem?_eq_none (by rw [List.length_cons]; omega)
  obtain ⟨fuel, rfl⟩ : ∃ k, fuel = k + 1 := ⟨fuel - 1, by omega⟩
  show fileNavigatorSet v (fuel + 1) g fn (some directory) = _
  rw [set_eq hfn, listEntries_lookups (by omega), listEntries_of_enumerates h (by omega),
    foldl_add _ _ hcount]
  simp only [bind, Except.bind, List.singleton_append]
  rw [choose_none (List.cons_ne_nil _ _) hnone]
  simp only [Nat.add_comm 1, ne_eq, Nat.add_one_ne_zero, not_false_eq_true, if_true]
  rfl

/-- It does not return if the directory cannot be listed. -/
theorem set_of_fails (hfn : fn.Loadable)
    (h : Fails (readdir v 2 directory) .undefined (some (dotDotEntry g))) :
    Settles (fun fuel => fileNavigatorSet v fuel g fn (some directory)) (.error .undefined) := by
  obtain ⟨enough, hlist⟩ := listEntries_of_fails h
    { fn with files := [dotDotEntry g], count := 1, selected := 0xFFFFFFFF }
  refine ⟨enough + 2, fun fuel hfuel => ?_⟩
  have hloop : listEntries v 2 directory fuel (dotDotEntry g)
      { fn with files := [dotDotEntry g], count := 1, selected := 0xFFFFFFFF } = .error .undefined :=
    hlist fuel (by omega)
  show fileNavigatorSet v fuel g fn (some directory) = _
  rw [set_eq hfn, listEntries_lookups (by omega), hloop]
  rfl

/-- Each list of nodes, at twelve bytes an entry, lies in memory. -/
def ListsFit (v : Vfs) : Prop := ∀ n, 12 * ((v.listed n).length + 1) < 4294967296

/-- `file_navigator_set` lists the directory, or it comes to a call of `readdir` that is undefined. -/
theorem set_settles (hfits : ListsFit v) (hfn : fn.Loadable) (g : Garbage) (directory : CString) :
    (∃ ds, Enumerates (readdir v 2 directory) (some (dotDotEntry g)) ds
      ∧ 12 * (ds.length + 1) < 4294967296
      ∧ Settles (fun fuel => fileNavigatorSet v fuel g fn (some directory))
        (.ok (fn.showing directory g ds)))
    ∨ Settles (fun fuel => fileNavigatorSet v fuel g fn (some directory)) (.error .undefined) := by
  rcases @readdir_ends v directory (some (dotDotEntry g)) with ⟨ds, hds, n, hle⟩ | hfails
  · have hlength : 12 * (ds.length + 1) < 4294967296 := by
      have := hfits n
      omega
    exact Or.inl ⟨ds, hds, hlength, set_of_enumerates hfn hds hlength⟩
  · exact Or.inr (set_of_fails hfn hfails)

/-! ## The record among the widgets

`Gui/Widget` has a record of each navigator, with the answers of `readdir` given. The two functions are compared
field by field: what the one does to a navigator, the other does to its record. -/

/-- What `gui/widgets` reads of an entry. -/
def widgetEntry (d : Vfs.Dirent) : Dirent := ⟨d.name, d.flags⟩

/-- The record of the navigator among the widgets. -/
def record (fn : Navigator) : FileNavigator where
  onChoose := some .fileNavigatorChoose
  directory := fn.directory
  files := fn.files.map widgetEntry
  count := fn.count
  selected := fn.selected

/-- `file_navigator_choose` looks at the same entry in both. -/
theorem fileNavigatorChoose_widgets (chosen : Dirent → Nat → Widgets → Except Halt Widgets) {s : Widgets} {a : Nat}
    (hrecord : s.fileNavigator a = fn.record) :
    DiyOS.fileNavigatorChoose chosen s a = match listGet fn.files fn.selected with
      | none => .ok s
      | some l => chosen (widgetEntry l) a s := by
  have hentry : listGet (s.fileNavigator a).files (s.fileNavigator a).selected
      = (listGet fn.files fn.selected).map widgetEntry := by
    rw [hrecord, listGet_eq_getElem, listGet_eq_getElem]
    exact List.getElem?_map
  unfold DiyOS.fileNavigatorChoose
  rw [hentry]
  cases listGet fn.files fn.selected <;> rfl

/-- **`file_navigator_set`** leaves the same record in both, where the entries that `gui/widgets` is given are
those that `readdir` answers. -/
theorem fileNavigatorSet_widgets (chosen : Dirent → Nat → Widgets → Except Halt Widgets) {s : Widgets} {a : Nat}
    (hrecord : s.fileNavigator a = fn.record) (hfn : fn.Loadable)
    (hds : Enumerates (readdir v 2 directory) (some (dotDotEntry g)) ds) {listing : Listing}
    (hlisting : listing.entries = ds.map widgetEntry) :
    ∃ fn', Settles (fun fuel => fileNavigatorSet v fuel g fn (some directory)) (.ok fn')
      ∧ DiyOS.fileNavigatorSet chosen s a directory listing
        = .ok { s with fileNavigator := Function.update s.fileNavigator a fn'.record } := by
  have hfits := listing.fits
  rw [hlisting, List.length_map] at hfits
  have hload : (s.fileNavigator a).Loadable := by
    rw [hrecord]
    refine hfn.imp_right fun ⟨hfiles, hcount, hselected⟩ => ⟨?_, hcount, hselected⟩
    exact congrArg (List.map widgetEntry) hfiles
  have hshown : (s.fileNavigator a).listing directory listing.entries = (fn.showing directory g ds).record := by
    rw [hrecord, hlisting]
    unfold FileNavigator.listing record showing
    simp only [List.map_cons, List.length_map]
    rfl
  refine ⟨_, set_of_enumerates hfn hds hfits, ?_⟩
  rw [fileNavigatorSet_eq chosen hload, hshown]

/-! ## Choosing an entry

Three kinds of entries: `..`, another directory, a file. Each case is a lemma that says how the choice ends, if
what it calls ends. -/

theorem strcat_cases (str1 str2 : CString) :
    str1.length + str2.length + 1 < 4294967296 ∧ strcat str1 str2 = .ok (str1 ++ str2)
      ∨ strcat str1 str2 = .error .undefined := by
  unfold strcat
  split
  case isTrue h => exact Or.inl ⟨h, rfl⟩
  case isFalse => exact Or.inr rfl

/-- The path of a file is the directory, a slash and the name, where that fits. -/
theorem filePath_cases (directory name : CString) :
    (directory ++ slash :: name).length < 4294967296
        ∧ filePath directory name = .ok (directory ++ slash :: name)
      ∨ filePath directory name = .error .undefined := by
  unfold filePath
  rcases strcat_cases directory [slash] with ⟨_, hfirst⟩ | hfirst
  · rw [hfirst]
    rcases strcat_cases (directory ++ [slash]) name with ⟨hlt, hsecond⟩ | hsecond
    · refine Or.inl ⟨?_, hsecond.trans (by rw [List.append_assoc]; rfl)⟩
      simp only [List.length_append, List.length_cons, List.length_nil] at hlt ⊢
      omega
    · exact Or.inr hsecond
  · rw [hfirst]
    exact Or.inr rfl

/-- The path of a chosen directory: with a `/` between, unless the directory string ends with one. -/
theorem childPath_cases (directory : CString) (outside : Nat → UInt8) (name : CString) :
    (∃ p, p.length < 4294967296 ∧ childPath directory outside name = .ok p
      ∧ p = if byteAt directory outside (sub32 directory.length 1) ≠ slash then directory ++ slash :: name
        else directory ++ name)
      ∨ childPath directory outside name = .error .undefined := by
  unfold childPath
  split
  case isTrue h =>
    rcases filePath_cases directory name with ⟨hlt, heq⟩ | heq
    · exact Or.inl ⟨_, hlt, heq, rfl⟩
    · exact Or.inr heq
  case isFalse h =>
    rcases strcat_cases directory name with ⟨hlt, heq⟩ | heq
    · refine Or.inl ⟨_, ?_, heq, rfl⟩
      rw [List.length_append]
      omega
    · exact Or.inr heq

variable (v g) in
/-- What the choice of the selected entry leads to. -/
inductive Chosen (fn : Navigator) : Navigator → Prop where
  | up {l : Vfs.Dirent} {directory : CString} {ds : List Vfs.Dirent}
      (hentry : listGet fn.files fn.selected = some l) (hdirectory : fn.directory = some directory)
      (hflags : l.flags &&& FS_DIRECTORY ≠ 0) (hname : l.name = dotDotName)
      (hds : Enumerates (readdir v 2 (goUp directory g.byte).directory) (some (dotDotEntry g)) ds)
      (hlength : 12 * (ds.length + 1) < 4294967296) :
      Chosen fn (fn.showing (goUp directory g.byte).directory g ds)
  | down {l : Vfs.Dirent} {directory p : CString} {ds : List Vfs.Dirent}
      (hentry : listGet fn.files fn.selected = some l) (hdirectory : fn.directory = some directory)
      (hflags : l.flags &&& FS_DIRECTORY ≠ 0) (hname : l.name ≠ dotDotName)
      (hp : p = if byteAt directory g.byte (sub32 directory.length 1) ≠ slash
        then directory ++ slash :: l.name else directory ++ l.name)
      (hlt : p.length < 4294967296)
      (hds : Enumerates (readdir v 2 p) (some (dotDotEntry g)) ds)
      (hlength : 12 * (ds.length + 1) < 4294967296) : Chosen fn (fn.showing p g ds)
  | view {l : Vfs.Dirent} {directory : CString}
      (hentry : listGet fn.files fn.selected = some l) (hdirectory : fn.directory = some directory)
      (hflags : l.flags &&& FS_DIRECTORY = 0) :
      Chosen fn { fn with viewed := fn.viewed ++ [directory ++ slash :: l.name] }

/-- `file_navigator_choose` on an entry, in a navigator that lists a directory. -/
theorem choose_succ {l : Vfs.Dirent} (hentry : listGet fn.files fn.selected = some l)
    (hdirectory : fn.directory = some directory) (fuel : Nat) :
    fileNavigatorChoose v g (fuel + 1) fn =
      if l.flags &&& FS_DIRECTORY ≠ 0 then
        if l.name = dotDotName then
          fileNavigatorSet v fuel g { fn with directory := some (goUp directory g.byte).directory }
            (some (goUp directory g.byte).directory)
        else childPath directory g.byte l.name >>= fun p => fileNavigatorSet v fuel g fn (some p)
      else filePath directory l.name >>= fun file => .ok { fn with viewed := fn.viewed ++ [file] } := by
  have hne : ¬ fn.files.isEmpty = true := by
    intro hnil
    rw [List.isEmpty_iff.mp hnil] at hentry
    cases hentry
  rw [fileNavigatorChoose, fileNavigatorChooseWith, if_neg hne, hentry, hdirectory]
  rfl

variable {l : Vfs.Dirent} {answer : Except Halt Navigator}

theorem choose_up (hentry : listGet fn.files fn.selected = some l) (hdirectory : fn.directory = some directory)
    (hflags : l.flags &&& FS_DIRECTORY ≠ 0) (hname : l.name = dotDotName)
    (hset : Settles (fun fuel => fileNavigatorSet v fuel g
      { fn with directory := some (goUp directory g.byte).directory }
      (some (goUp directory g.byte).directory)) answer) :
    Settles (fun fuel => fileNavigatorChoose v g fuel fn) answer :=
  hset.succ fun fuel => by rw [choose_succ hentry hdirectory, if_pos hflags, if_pos hname]

theorem choose_down (hentry : listGet fn.files fn.selected = some l)
    (hdirectory : fn.directory = some directory) (hflags : l.flags &&& FS_DIRECTORY ≠ 0)
    (hname : l.name ≠ dotDotName) {p : CString} (hp : childPath directory g.byte l.name = .ok p)
    (hset : Settles (fun fuel => fileNavigatorSet v fuel g fn (some p)) answer) :
    Settles (fun fuel => fileNavigatorChoose v g fuel fn) answer := by
  refine hset.succ fun fuel => ?_
  rw [choose_succ hentry hdirectory, if_pos hflags, if_neg hname, hp]
  rfl

theorem choose_view (hentry : listGet fn.files fn.selected = some l)
    (hdirectory : fn.directory = some directory) (hflags : l.flags &&& FS_DIRECTORY = 0) {file : CString}
    (hfile : filePath directory l.name = .ok file) :
    Settles (fun fuel => fileNavigatorChoose v g fuel fn) (.ok { fn with viewed := fn.viewed ++ [file] }) := by
  refine settles_const fun fuel => ?_
  rw [choose_succ hentry hdirectory, if_neg (not_not_intro hflags), hfile]
  rfl

/-- **Choosing.** Any selected entry has been chosen, or the choice is undefined. -/
theorem choose_settles (hfits : ListsFit v) (hentry : listGet fn.files fn.selected = some l)
    (hdirectory : fn.directory = some directory) :
    (∃ fn', Settles (fun fuel => fileNavigatorChoose v g fuel fn) (.ok fn') ∧ Chosen v g fn fn')
      ∨ Settles (fun fuel => fileNavigatorChoose v g fuel fn) (.error .undefined) := by
  by_cases hflags : l.flags &&& FS_DIRECTORY ≠ 0
  · by_cases hname : l.name = dotDotName
    · have hload : ({ fn with directory := some (goUp directory g.byte).directory } : Navigator).Loadable :=
        Or.inl rfl
      rcases set_settles hfits hload g (goUp directory g.byte).directory with
        ⟨ds, hds, hlength, hset⟩ | hset
      · exact Or.inl ⟨_, choose_up hentry hdirectory hflags hname hset,
          Chosen.up hentry hdirectory hflags hname hds hlength⟩
      · exact Or.inr (choose_up hentry hdirectory hflags hname hset)
    · have hload : fn.Loadable := Or.inl (by rw [hdirectory]; rfl)
      rcases childPath_cases directory g.byte l.name with ⟨p, hlt, hpath, hp⟩ | hpath
      · rcases set_settles hfits hload g p with ⟨ds, hds, hlength, hset⟩ | hset
        · exact Or.inl ⟨_, choose_down hentry hdirectory hflags hname hpath hset,
            Chosen.down hentry hdirectory hflags hname hp hlt hds hlength⟩
        · exact Or.inr (choose_down hentry hdirectory hflags hname hpath hset)
      · refine Or.inr (settles_const fun fuel => ?_)
        rw [choose_succ hentry hdirectory, if_pos hflags, if_neg hname, hpath]
        rfl
  · have hfile : l.flags &&& FS_DIRECTORY = 0 := Decidable.not_not.mp hflags
    rcases filePath_cases directory l.name with ⟨_, hpath⟩ | hpath
    · exact Or.inl ⟨_, choose_view hentry hdirectory hfile hpath, Chosen.view hentry hdirectory hfile⟩
    · refine Or.inr (settles_const fun fuel => ?_)
      rw [choose_succ hentry hdirectory, if_neg hflags, hpath]
      rfl

/-! ## Keys

A press of a key moves the selection, or chooses. The selection stays in the list, since both ends are tested. -/

/-- What holds of a navigator that was created with a directory. -/
structure Inv (fn : Navigator) : Prop where
  directory : fn.directory.isSome
  count : fn.count = fn.files.length
  selected : fn.selected < fn.count
  fits : 12 * fn.files.length < 4294967296

theorem Inv.showing (fn : Navigator) (directory : CString) (g : Garbage)
    (hlength : 12 * (ds.length + 1) < 4294967296) : (fn.showing directory g ds).Inv where
  directory := rfl
  count := rfl
  selected := Nat.succ_pos _
  fits := hlength

theorem Inv.chosen {fn' : Navigator} (h : fn.Inv) (hchosen : Chosen v g fn fn') : fn'.Inv := by
  cases hchosen with
  | up _ _ _ _ _ hlength => exact Inv.showing fn _ g hlength
  | down _ _ _ _ _ _ _ hlength => exact Inv.showing fn _ g hlength
  | view => exact ⟨h.directory, h.count, h.selected, h.fits⟩

/-- The selected entry. -/
theorem Inv.entry (h : fn.Inv) : ∃ l, listGet fn.files fn.selected = some l := by
  have hlt : fn.selected < fn.files.length := by
    rw [← h.count]
    exact h.selected
  exact ⟨_, (listGet_eq_getElem _ _).trans (List.getElem?_eq_getElem hlt)⟩

/-- A key, and what the call finds in memory. -/
structure Press where
  key : Nat
  garbage : Garbage

/-- What a key leads to: the choice of the entry, or another entry that is selected. -/
inductive Pressed (v : Vfs) (fn : Navigator) (e : Press) : Navigator → Prop where
  | choose {fn' : Navigator} (hkey : e.key = 10) (hchosen : Chosen v e.garbage fn fn') : Pressed v fn e fn'
  | select {i : Nat} (hkey : e.key ≠ 10) (hi : i < fn.count) : Pressed v fn e { fn with selected := i }

theorem Inv.pressed {e : Press} {fn' : Navigator} (h : fn.Inv) (hpressed : Pressed v fn e fn') :
    fn'.Inv := by
  cases hpressed with
  | choose _ hchosen => exact h.chosen hchosen
  | select _ hi => exact ⟨h.directory, h.count, hi, h.fits⟩

/-- **The step.** A key has been pressed, or its choice is undefined. -/
theorem Inv.keydown (hfits : ListsFit v) (h : fn.Inv) (e : Press) :
    (∃ fn', Settles (fun fuel => fileNavigatorKeydown v fuel e.garbage fn e.key) (.ok fn')
      ∧ Pressed v fn e fn')
    ∨ Settles (fun fuel => fileNavigatorKeydown v fuel e.garbage fn e.key) (.error .undefined) := by
  have hselected := h.selected
  have hbound : 12 * fn.count < 4294967296 := by
    rw [h.count]
    exact h.fits
  -- Enter chooses, the other keys move the selection or do nothing
  by_cases henter : e.key = 10
  · obtain ⟨l, hl⟩ := h.entry
    obtain ⟨directory, hdirectory⟩ := Option.isSome_iff_exists.mp h.directory
    have hcall : ∀ fuel, fileNavigatorKeydown v fuel e.garbage fn e.key
        = fileNavigatorChoose v e.garbage fuel fn := by
      intro fuel
      unfold fileNavigatorKeydown
      rw [if_pos henter, if_pos]
      rw [int32_of_lt (by omega)]
      omega
    simp only [hcall]
    rcases choose_settles hfits hl hdirectory with ⟨fn', hchoose, hchosen⟩ | hundefined
    · exact Or.inl ⟨fn', hchoose, Pressed.choose henter hchosen⟩
    · exact Or.inr hundefined
  · have hmove : ∃ i, i < fn.count
        ∧ ∀ fuel, fileNavigatorKeydown v fuel e.garbage fn e.key = .ok { fn with selected := i } := by
      unfold fileNavigatorKeydown
      simp only [if_neg henter]
      by_cases hdown : e.key = keyDown ∨ e.key = keyRight
      · have hsucc : u32 (fn.selected + 1) = fn.selected + 1 := u32_of_lt (by omega)
        simp only [if_pos hdown, hsucc]
        by_cases hlast : fn.count ≤ fn.selected + 1
        · have hback : sub32 (fn.selected + 1) 1 = fn.selected := sub32_of_le (by omega) (by omega)
          simp only [if_pos hlast, hback]
          exact ⟨fn.selected, hselected, fun _ => rfl⟩
        · simp only [if_neg hlast]
          exact ⟨_, by omega, fun _ => rfl⟩
      · simp only [if_neg hdown]
        by_cases hup : e.key = keyUp ∨ e.key = keyLeft
        · simp only [if_pos hup]
          refine ⟨_, ?_, fun _ => rfl⟩
          split
          case isTrue => omega
          -- the comparison is of signed numbers
          case isFalse hsigned =>
            have hpos : fn.selected ≠ 0 := by
              intro hzero
              rw [hzero] at hsigned
              exact hsigned (by decide)
            rw [sub32_of_le (by omega) (by omega)]
            omega
        · simp only [if_neg hup]
          exact ⟨fn.selected, hselected, fun _ => rfl⟩
    obtain ⟨i, hi, hcall⟩ := hmove
    exact Or.inl ⟨_, ⟨0, fun fuel _ => hcall fuel⟩, Pressed.select henter hi⟩

/-- A key is handled. -/
def KeyStep (v : Vfs) (fn : Navigator) (e : Press) (fn' : Navigator) : Prop :=
  Settles (fun fuel => fileNavigatorKeydown v fuel e.garbage fn e.key) (.ok fn')

theorem Inv.keyStep {e : Press} {fn' : Navigator} (hfits : ListsFit v) (h : fn.Inv)
    (hstep : KeyStep v fn e fn') : Pressed v fn e fn' := by
  rcases h.keydown hfits e with ⟨fn'', hcall, hpressed⟩ | hundefined
  · cases hstep.unique hcall
    exact hpressed
  · cases hstep.unique hundefined

/-- Creating a navigator ends as well. -/
theorem create_settles (hfits : ListsFit v) (g : Garbage) (directory : CString) :
    (∃ fn, Settles (fun fuel => fileNavigatorCreate v fuel g (some directory)) (.ok fn) ∧ fn.Inv)
    ∨ Settles (fun fuel => fileNavigatorCreate v fuel g (some directory)) (.error .undefined) := by
  rcases set_settles hfits (Or.inr ⟨rfl, rfl, rfl⟩ : empty.Loadable) g directory with
    ⟨ds, _, hlength, hset⟩ | hset
  · exact Or.inl ⟨_, hset, Inv.showing empty directory g hlength⟩
  · exact Or.inr hset

/-- **The beginning.** A new navigator shows its directory. -/
theorem Inv.created (hfits : ListsFit v) {fn₀ : Navigator}
    (hcreate : Settles (fun fuel => fileNavigatorCreate v fuel g (some directory)) (.ok fn₀)) : fn₀.Inv := by
  rcases create_settles hfits g directory with ⟨fn, hcall, hinv⟩ | hundefined
  · cases hcreate.unique hcall
    exact hinv
  · cases hcreate.unique hundefined

/-- **Selection and recursion.** A navigator is created with a directory, and keys are sent to it. After
each, `count` is the length of the list and the selected index is that of an entry. The call of `OnChoose`
in `file_navigator_set`, which selects no entry, returns at once: the creation and each key end. -/
theorem navigator_selection (hfits : ListsFit v) (g : Garbage) (directory : CString) :
    ((∃ fn, Settles (fun fuel => fileNavigatorCreate v fuel g (some directory)) (.ok fn))
      ∨ Settles (fun fuel => fileNavigatorCreate v fuel g (some directory)) (.error .undefined))
    ∧ ∀ fn₀, Settles (fun fuel => fileNavigatorCreate v fuel g (some directory)) (.ok fn₀) →
      ∀ tr fn, Run (KeyStep v) fn₀ tr fn →
        fn.count = fn.files.length ∧ 0 ≤ int32 fn.selected ∧ int32 fn.selected < fn.count
        ∧ (∃ l, listGet fn.files fn.selected = some l)
        ∧ (∀ g fuel, fileNavigatorChoose v g (fuel + 1) { fn with selected := 0xFFFFFFFF }
          = .ok { fn with selected := 0xFFFFFFFF })
        ∧ ∀ e : Press, (∃ fn', KeyStep v fn e fn')
          ∨ Settles (fun fuel => fileNavigatorKeydown v fuel e.garbage fn e.key) (.error .undefined) := by
  refine ⟨(create_settles hfits g directory).imp_left fun ⟨fn, hcall, _⟩ => ⟨fn, hcall⟩, ?_⟩
  intro fn₀ hcreate tr fn hrun
  have h : fn.Inv := hrun.invariant (Inv.created hfits hcreate)
    fun _ _ _ hinv hstep => hinv.pressed (hinv.keyStep hfits hstep)
  have hselected := h.selected
  have hbound := h.fits
  rw [← h.count] at hbound
  have hint : int32 fn.selected = fn.selected := int32_of_lt (by omega)
  have hnone : listGet fn.files 0xFFFFFFFF = none := by
    rw [listGet_eq_getElem]
    exact List.getElem?_eq_none (by rw [← h.count]; omega)
  have hfiles : fn.files ≠ [] := by
    intro hnil
    rw [h.count, hnil] at hselected
    exact Nat.not_lt_zero _ hselected
  refine ⟨h.count, by omega, by omega, h.entry, fun g fuel => choose_none hfiles hnone, fun e => ?_⟩
  exact (h.keydown hfits e).imp_left fun ⟨fn', hcall, _⟩ => ⟨fn', hcall⟩

/-- Memory that holds zero, but for the position in the record of the entry `..`. -/
def zeroed (offset : Nat) : Garbage := ⟨⟨[], .index 0, offset, 0⟩, fun _ => 0⟩

/-- The lists of the first directories fit into memory. -/
theorem listsFit_boot : ListsFit (fsRoot bootVfs) := by
  have hlist : ∀ n, ((fsRoot bootVfs).node n).inode.list = [] := by
    intro n
    simp only [fsRoot, devfs, devRand, devZero, devOne, devNode, fsRegister, devfsRegister,
      Vfs.mallocNode, Vfs.setNode, Function.update_apply, bootVfs]
    split_ifs <;> rfl
  have hle : ∀ n, ((fsRoot bootVfs).listed n).length ≤ 3 := by
    intro n
    unfold Vfs.listed
    cases ((fsRoot bootVfs).node n).readdir with
    | null => exact Nat.zero_le _
    | rootFsReaddir => exact (by decide : (fsRoot bootVfs).rootNodes.length ≤ 3)
    | devfsReaddir => exact (by decide : (fsRoot bootVfs).devNodes.length ≤ 3)
    | ramfsReaddir =>
      simp only [hlist]
      exact Nat.zero_le _
  intro n
  have := hle n
  omega

/-- The root after `fs_root`: the entry `..`, and `dev`. -/
def bootRoot : Navigator :=
  empty.showing [slash] (zeroed 0) [⟨[100, 101, 118], .index 2, 1, FS_DIRECTORY⟩]

theorem bootRoot_created :
    Settles (fun fuel => fileNavigatorCreate (fsRoot bootVfs) fuel (zeroed 0) (some [slash]))
      (.ok bootRoot) :=
  set_of_enumerates (Or.inr ⟨rfl, rfl, rfl⟩) (Enumerates.cons rfl (Enumerates.nil rfl)) (by decide)

/-- The key down, in the root. -/
theorem navigator_selection_boot : ∃ fn, Run (KeyStep (fsRoot bootVfs)) bootRoot
      [⟨bootRoot, ⟨keyDown, zeroed 0⟩, fn⟩] fn
    ∧ fn.count = fn.files.length ∧ 0 ≤ int32 fn.selected ∧ int32 fn.selected < fn.count := by
  have hstep : KeyStep (fsRoot bootVfs) bootRoot ⟨keyDown, zeroed 0⟩ { bootRoot with selected := 1 } :=
    ⟨0, fun _ _ => rfl⟩
  have hrun := Run.snoc Run.nil hstep
  have h := (navigator_selection listsFit_boot (zeroed 0) [slash]).2 bootRoot bootRoot_created _ _ hrun
  exact ⟨_, hrun, h.1, h.2.1, h.2.2.1⟩

/-! ## The entries of a directory

Where `readdir` is given an entry, it goes on behind it; so the list that the navigator gets is the list of the
children, from the cursor of the first record on. -/

theorem finddirFs_of_settles {r : Option NodePtr}
    (h : Settles (fun fuel => finddirFs v fuel v.rootNode directory) (.ok r)) :
    finddirFs v 2 v.rootNode directory = .ok r := by
  obtain ⟨r', hr'⟩ := finddirFs_path_returns v 0 v.rootNode directory
  have hsettles : Settles (fun fuel => finddirFs v fuel v.rootNode directory) (.ok r') :=
    ⟨2, fun _ hfuel => finddirFs_mono hr' hfuel⟩
  rw [hr']
  exact hsettles.unique h

/-- The entries from any position on are those of the children from there on. -/
theorem entries_from {lo n : NodePtr} (hm : Mounted lo v) (hn : v.Listable lo n)
    (hfind : finddirFs v 2 v.rootNode directory = .ok (some n)) (hne : v.children n ≠ [])
    (dir : Option Vfs.Dirent) :
    ∃ ds, Enumerates (readdir v 2 directory) dir ds
      ∧ List.Forall₂ v.EntryOf ds ((v.children n).drop (direntOffset dir)) := by
  refine enumerates_of_index ?_ ?_ dir
  · intro d c hget
    obtain ⟨e, hcall, he⟩ := hm.readdirFs_some hn hget
    refine ⟨{ e with offset := direntOffset d + 1 }, ?_, rfl, he⟩
    unfold readdir
    simp only [hfind, hcall]
  · intro d hget
    unfold readdir
    simp only [hfind, hm.readdirFs_none hn hne hget]

/-- In an empty directory of the RAM disk, the first call reads through a null list. -/
theorem readdir_empty {n : NodePtr} {name : CString} {lo : NodePtr} (hm : Mounted lo v)
    (hn : DirNode lo v n name .ramfsFinddir) (hfind : finddirFs v 2 v.rootNode directory = .ok (some n))
    (hempty : v.children n = []) (dir : Option Vfs.Dirent) :
    readdir v 2 directory dir = .error .undefined := by
  have hnull : n ≠ null := ne_null_of_ge hm.lo_pos hn.ge
  have hflags : (v.node n).flags &&& FS_DIRECTORY ≠ 0 := by
    rw [hn.flags]
    decide
  rw [hn.children_ramfs] at hempty
  have hcall : readdirFs v n (direntOffset dir) = .error .undefined := by
    rw [hm.readdirFs_eq hn]
    show ramfsReaddir v n _ = _
    unfold ramfsReaddir
    rw [if_neg hnull, if_pos hflags]
    cases hinode : (v.node n).inode with
    | index i =>
      rw [Inode.asList]
      by_cases hi : i = 0
      · rw [if_pos hi]
        rfl
      · rw [if_neg hi]
    | nodes l =>
      rw [hinode] at hempty
      rw [Inode.asList]
      exact if_pos hempty
  unfold readdir
  simp only [hfind, hcall]

/-- **Listing.** For a path of an existing directory, `file_navigator_set` lists `..` and then each entry
of the directory, in the order of `readdir`, exactly if the record of the entry `..` happens to hold the
position 0, which nothing has written there, and the directory is not empty. -/
theorem set_lists_iff {v₀ : Vfs} (h₀ : Unlisted v₀) {tr : List (Transition Vfs Registration)}
    (hrun : Run Registers (fsRoot v₀) tr v) (hfits : ListsFit v) {n : NodePtr}
    (hpath : Settles (fun fuel => finddirFs v fuel v.rootNode directory) (.ok (some n)))
    (hdir : v.IsDirectory n) (hfn : fn.Loadable) (g : Garbage) :
    (∃ fn' ds, Settles (fun fuel => fileNavigatorSet v fuel g fn (some directory)) (.ok fn')
      ∧ Enumerates (readdir v 2 directory) none ds ∧ List.Forall₂ v.EntryOf ds (v.children n)
      ∧ fn'.files = dotDotEntry g :: ds ∧ fn'.count = fn'.files.length)
    ↔ g.dirent.offset = 0 ∧ v.children n ≠ [] := by
  have hm := mounted_registers h₀ hrun
  have hgrown := grown_registers h₀ hrun
  have hfind := finddirFs_of_settles hpath
  have hwithin := hgrown.resolved hm hfind
  have hn := hgrown.listable hm hwithin hdir
  by_cases hne : v.children n = []
  · -- only directories of the RAM disk can be empty
    have hram : ∃ name, DirNode v₀.nextNode v n name .ramfsFinddir := by
      rcases hn with rfl | rfl | hram
      · rw [hm.children_rootNode] at hne
        exact absurd hne (List.ne_nil_of_mem hgrown.dev_mem)
      · rw [hm.dev.children_dev] at hne
        exact absurd hne hgrown.dev_ne
      · exact hram
    obtain ⟨name, hram⟩ := hram
    have hundefined := set_of_fails hfn (Fails.here (readdir_empty hm hram hfind hne (some (dotDotEntry g))))
    refine iff_of_false ?_ fun hcond => hcond.2 hne
    rintro ⟨fn', ds, hset, _⟩
    cases hset.unique hundefined
  · obtain ⟨ds, hds, hentries⟩ := entries_from hm hn hfind hne (some (dotDotEntry g))
    have hlength : 12 * (ds.length + 1) < 4294967296 := by
      have hle : ds.length ≤ (v.children n).length := by
        rw [hentries.length_eq, List.length_drop]
        exact Nat.sub_le _ _
      have hbound := hfits n
      rw [hgrown.listed_eq hm hwithin] at hbound
      omega
    have hset := set_of_enumerates hfn hds hlength
    refine ⟨?_, ?_⟩
    · rintro ⟨fn', ds', hset', _, hentries', hfiles, _⟩
      cases hset'.unique hset
      -- the same entries stand for all children and for those from the position on
      cases (List.cons.inj hfiles).2
      have heq := hentries.length_eq.symm.trans hentries'.length_eq
      have hpos := List.length_pos_iff.mpr hne
      rw [List.length_drop] at heq
      refine ⟨?_, hne⟩
      show direntOffset (some (dotDotEntry g)) = 0
      omega
    · rintro ⟨hoffset, _⟩
      have hzero : direntOffset (some (dotDotEntry g)) = direntOffset none := hoffset
      -- the call with a record at position 0 is the first call
      have hfirst : readdir v 2 directory (some (dotDotEntry g)) = readdir v 2 directory none := by
        unfold readdir
        rw [hzero]
      refine ⟨_, ds, hset, hds.of_eq hfirst, ?_, rfl, rfl⟩
      rw [hzero] at hentries
      exact hentries

/-- The entries of `/dev` after `fs_root`. -/
def devEntries : List Vfs.Dirent :=
  [⟨[111, 110, 101], .index 3, 1, FS_FILE⟩, ⟨[122, 101, 114, 111], .index 4, 2, FS_FILE⟩,
    ⟨[114, 97, 110, 100, 111, 109], .index 5, 3, FS_FILE⟩]

theorem devEntries_from_one : Enumerates (readdir (fsRoot bootVfs) 2 [100, 101, 118])
    (some (dotDotEntry (zeroed 1))) devEntries.tail :=
  Enumerates.cons rfl (Enumerates.cons rfl (Enumerates.nil rfl))

/-- `dev`, in a record that holds 0. -/
theorem set_lists_dev : ∃ fn' ds,
    Settles (fun fuel => fileNavigatorSet (fsRoot bootVfs) fuel (zeroed 0) empty (some [100, 101, 118]))
      (.ok fn')
    ∧ Enumerates (readdir (fsRoot bootVfs) 2 [100, 101, 118]) none ds
    ∧ List.Forall₂ (fsRoot bootVfs).EntryOf ds [3, 4, 5]
    ∧ fn'.files = dotDotEntry (zeroed 0) :: ds ∧ fn'.count = fn'.files.length := by
  have hpath : Settles (fun fuel => finddirFs (fsRoot bootVfs) fuel (fsRoot bootVfs).rootNode [100, 101, 118])
      (.ok (some 2)) := ⟨2, fun _ hfuel => finddirFs_mono (show finddirFs _ 2 _ _ = _ from rfl) hfuel⟩
  exact (set_lists_iff bootVfs_unlisted Run.nil listsFit_boot hpath rfl (Or.inr ⟨rfl, rfl, rfl⟩)
    (zeroed 0)).mpr ⟨rfl, List.cons_ne_nil _ _⟩

/-- `dev`, in a record that holds 1: the entry `one` is not listed. -/
theorem set_misses_one : ∃ fn',
    Settles (fun fuel => fileNavigatorSet (fsRoot bootVfs) fuel (zeroed 1) empty (some [100, 101, 118]))
      (.ok fn')
    ∧ Enumerates (readdir (fsRoot bootVfs) 2 [100, 101, 118]) none devEntries
    ∧ fn'.files ≠ dotDotEntry (zeroed 1) :: devEntries := by
  refine ⟨_, set_of_enumerates (Or.inr ⟨rfl, rfl, rfl⟩) devEntries_from_one (by decide), ?_, ?_⟩
  · exact Enumerates.cons rfl (Enumerates.cons rfl (Enumerates.cons rfl (Enumerates.nil rfl)))
  · intro heq
    exact absurd (congrArg List.length heq) (by decide)

end

end Navigator

end DiyOS
