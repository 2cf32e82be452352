import DiyOS.Basic
import DiyOS.Fs.Path
import DiyOS.Lib.Memory

/-!
# The archive of the RAM disk (`kernel/filesystem/ramfs.c`)

A `ustar` archive is a sequence of 512-byte blocks: a header, the blocks of the entry's data, the next
header, and so on up to a zero block. `tar_parse` walks it and collects the addresses of the headers;
`tar_getsize` reads the eleven octal digits of a size.

* **`Layout`** — entries one behind the other in memory; **`UstarImage`** and **`ImageAt`** are archives of
  entries with any names, and of entries whose names are paths.
* **`tarGetsize_octal`** — a size written as eleven octal digits is read back.
* **`tarParse_ustar`** — the walk over an archive collects its headers, in order.
-/

namespace DiyOS

open Word

/-! ## `tar_getsize` and `tar_parse` -/

def REGTYPE : UInt8 := 48
def AREGTYPE : UInt8 := 0
def DIRTYPE : UInt8 := 53

/-- A `char` in 32-bit arithmetic: it is signed. -/
def ofChar (c : UInt8) : Nat := if c.toNat < 128 then c.toNat else 4294967040 + c.toNat

/-- `count` and `size` after `k` turns of the loop of `tar_getsize`, which goes from the last digit of
the field to the first. -/
def getsizeLoop (m : Mem) (field : Nat) : Nat → Nat × Nat
  | 0 => (1, 0)
  | k + 1 =>
    let (count, size) := getsizeLoop m field k
    (u32 (count * 8), u32 (size + sub32 (ofChar (m (field + (10 - k)))) 48 * count))

def tarGetsize (m : Mem) (field : Nat) : Nat := (getsizeLoop m field 11).2

/-- The loop of `tar_parse`, after `files` headers: the addresses of the further headers it counts.
`headers` has 64 slots. -/
def tarParse (m : Mem) : Nat → Nat → Nat → Nat → Except Halt (List Nat)
  | 0, _, _, _ => .error .loops
  | fuel + 1, files, address, limit =>
    if m address = 0 then .ok []
    else if 64 ≤ files then .error .undefined
    else
      let size := tarGetsize m (address + 124)
      let next := u32 (address + (size / 512 + 1) * 512)
      let next := if size % 512 ≠ 0 then u32 (next + 512) else next
      if next > limit then .ok []
      else
        match tarParse m fuel (files + 1) next limit with
        | .error e => .error e
        | .ok headers => .ok (address :: headers)

/-! ## Archives in general -/

section

variable {α β : Type}

/-- Entries one behind the other from `a` on, and after them a zero block that ends at or below `limit`:
`stands` says what it is for an entry to stand at an address, and `extent` how many bytes it takes there. -/
def Layout (m : Mem) (stands : Nat → α → Prop) (extent : α → Nat) : Nat → List α → Nat → Prop
  | a, [], limit => (∀ i < 512, m (a + i) = 0) ∧ a + 512 ≤ limit
  | a, e :: es, limit => stands a e ∧ Layout m stands extent (a + extent e) es limit

/-- Where the entries of a layout stand. -/
def addresses (extent : α → Nat) : Nat → List α → List Nat
  | _, [] => []
  | a, e :: es => a :: addresses extent (a + extent e) es

variable {m : Mem} {stands : Nat → α → Prop} {stands' : Nat → β → Prop} {extent : α → Nat} {extent' : β → Nat}
  {a limit : Nat} {es : List α} {f : α → β}

/-- The zero block lies below `limit`, and so does all that is before it. -/
theorem Layout.bound (h : Layout m stands extent a es limit) : a + 512 ≤ limit := by
  induction es generalizing a with
  | nil => exact h.2
  | cons e es ih =>
    have hrest := ih h.2
    omega

/-- The `i`-th entry stands behind those before it, and its bytes lie below `limit`. -/
theorem Layout.getElem {e : α} {i : Nat} (h : Layout m stands extent a es limit) (hi : es[i]? = some e) :
    (addresses extent a es)[i]? = some (a + ((es.take i).map extent).sum)
      ∧ stands (a + ((es.take i).map extent).sum) e ∧ extent e + 512 ≤ limit := by
  induction es generalizing a i with
  | nil => simp at hi
  | cons d es ih =>
    rcases h with ⟨hstands, hrest⟩
    cases i with
    | zero =>
      rw [List.getElem?_cons_zero] at hi
      obtain rfl := Option.some.inj hi
      have hbound := hrest.bound
      exact ⟨rfl, hstands, by omega⟩
    | succ i =>
      rw [List.getElem?_cons_succ] at hi
      rw [List.take_succ_cons, List.map_cons, List.sum_cons, ← Nat.add_assoc]
      exact ih hrest hi

/-- A layout of entries is one of what they contain. -/
theorem Layout.map (hstands : ∀ a e, stands a e → stands' a (f e)) (hextent : ∀ e, extent' (f e) = extent e)
    (h : Layout m stands extent a es limit) : Layout m stands' extent' a (es.map f) limit := by
  induction es generalizing a with
  | nil => exact h
  | cons e es ih =>
    refine ⟨hstands a e h.1, ?_⟩
    rw [hextent]
    exact ih h.2

theorem addresses_map (hextent : ∀ e, extent' (f e) = extent e) (a : Nat) (es : List α) :
    addresses extent' a (es.map f) = addresses extent a es := by
  induction es generalizing a with
  | nil => rfl
  | cons e es ih => rw [List.map_cons, addresses, hextent, ih, addresses]

theorem length_addresses (extent : α → Nat) (a : Nat) (es : List α) :
    (addresses extent a es).length = es.length := by
  induction es generalizing a with
  | nil => rfl
  | cons e es ih => rw [addresses, List.length_cons, ih, List.length_cons]

end

/-- An entry of any type: its name and its data. -/
structure UstarEntry where
  name : CString
  data : List UInt8

/-- The bytes of the entry's blocks: the header and the data, rounded up. -/
def UstarEntry.extent (e : UstarEntry) : Nat := 512 + (e.data.length + 511) / 512 * 512

/-- The header of `e`, with its size in eleven octal digits, and the data stand at the address `a`. -/
structure UstarAt (m : Mem) (a : Nat) (e : UstarEntry) : Prop where
  name : m.bytes a e.name.length = e.name
  size_lt : e.data.length < 8 ^ 11
  size : ∀ j < 11, m (a + 124 + j) = UInt8.ofNat (48 + e.data.length / 8 ^ (10 - j) % 8)
  data : m.bytes (a + 512) e.data.length = e.data

/-- The entries from `a` on, and after them a zero block that ends at or below `limit`. -/
def UstarImage (m : Mem) : Nat → List UstarEntry → Nat → Prop := Layout m (UstarAt m) UstarEntry.extent

/-- Where the headers of the entries stand. -/
def ustarHeaders : Nat → List UstarEntry → List Nat := addresses UstarEntry.extent

/-! ## Archives of files and directories -/

/-- An entry of an archive. -/
structure TarEntry where
  segs : List CString
  typeflag : UInt8
  /-- The name ends in `/`. -/
  trailing : Bool
  data : List UInt8

namespace TarEntry

def name (e : TarEntry) : CString := spelled false e.trailing e.segs

def isDir (e : TarEntry) : Bool := e.typeflag = DIRTYPE

/-- The name and the data of an entry. -/
def toUstar (e : TarEntry) : UstarEntry := ⟨e.name, e.data⟩

def extent (e : TarEntry) : Nat := e.toUstar.extent

/-- The entries considered: regular files and directories, named by non-empty segments, a directory
perhaps with a `/` at the end of its name. -/
structure Valid (e : TarEntry) : Prop where
  ne_nil : e.segs ≠ []
  segments : ∀ s ∈ e.segs, IsSegment s
  name_lt : e.name.length < 100
  type : e.typeflag = REGTYPE ∨ e.typeflag = AREGTYPE ∨ e.typeflag = DIRTYPE
  trailing : e.trailing = true → e.typeflag = DIRTYPE

/-- What is asked of the name of an entry of any type. -/
structure Named (e : TarEntry) : Prop where
  ne_nil : e.segs ≠ []
  segments : ∀ s ∈ e.segs, IsSegment s
  name_lt : e.name.length < 100

theorem Valid.named {e : TarEntry} (he : e.Valid) : e.Named := ⟨he.ne_nil, he.segments, he.name_lt⟩

/-- The types for which `ramfs` makes a node. -/
def Supported (e : TarEntry) : Prop :=
  e.typeflag = REGTYPE ∨ e.typeflag = AREGTYPE ∨ e.typeflag = DIRTYPE

instance (e : TarEntry) : Decidable e.Supported := inferInstanceAs (Decidable (_ ∨ _))

end TarEntry

/-- The header and the data of `e` stand at the address `a`, with a NUL behind the name and with the type. -/
structure HeaderAt (m : Mem) (a : Nat) (e : TarEntry) : Prop extends UstarAt m a e.toUstar where
  terminator : m (a + e.name.length) = 0
  typeflag : m (a + 156) = e.typeflag

/-- The entries from `a` on, and after them a zero block that ends at or below `limit`. -/
def ImageAt (m : Mem) : Nat → List TarEntry → Nat → Prop := Layout m (HeaderAt m) TarEntry.extent

/-- Where the headers of the entries stand. -/
def headerAddresses : Nat → List TarEntry → List Nat := addresses TarEntry.extent

/-! ## Reading a size -/

/-- A digit, as `tar_getsize` reads it. -/
theorem ofChar_digit {d : Nat} (h : d < 8) : sub32 (ofChar (UInt8.ofNat (48 + d))) 48 = d := by
  have hnat : (UInt8.ofNat (48 + d)).toNat = 48 + d := by
    rw [UInt8.toNat_ofNat']
    exact Nat.mod_eq_of_lt (by omega)
  unfold ofChar sub32 u32
  rw [hnat, if_pos (by omega)]
  omega

/-- After `k` turns the loop has the weight of the next digit, and the value of the last `k` ones. -/
theorem getsizeLoop_octal {m : Mem} {field n : Nat}
    (hdigits : ∀ j < 11, m (field + j) = UInt8.ofNat (48 + n / 8 ^ (10 - j) % 8)) {k : Nat}
    (hk : k ≤ 11) : getsizeLoop m field k = (u32 (8 ^ k), u32 (n % 8 ^ k)) := by
  induction k with
  | zero =>
    rw [pow_zero, Nat.mod_one]
    rfl
  | succ k ih =>
    have hdigit := hdigits (10 - k) (by omega)
    rw [show 10 - (10 - k) = k by omega] at hdigit
    have hweight : u32 (u32 (8 ^ k) * 8) = u32 (8 ^ (k + 1)) := by
      unfold u32
      rw [Nat.mod_mul_mod, pow_succ]
    have hvalue : n % 8 ^ k + n / 8 ^ k % 8 * 8 ^ k = n % 8 ^ (k + 1) := by
      rw [Nat.mod_pow_succ, Nat.mul_comm (8 ^ k)]
    rw [getsizeLoop, ih (by omega)]
    simp only
    rw [hdigit, ofChar_digit (Nat.mod_lt _ (by decide)), u32_add_mul, hvalue, hweight]

/-- **A size is read back** from its eleven octal digits. -/
theorem tarGetsize_octal {m : Mem} {field n : Nat} (hn : n < 8 ^ 11) (hlt : n < 4294967296)
    (hdigits : ∀ j < 11, m (field + j) = UInt8.ofNat (48 + n / 8 ^ (10 - j) % 8)) :
    tarGetsize m field = n := by
  unfold tarGetsize
  rw [getsizeLoop_octal hdigits (Nat.le_refl 11)]
  simp only
  rw [Nat.mod_eq_of_lt hn, u32_of_lt hlt]

/-! ## Walking an archive -/

/-- What an entry's header says, in an archive below `2 ^ 32`. -/
theorem UstarAt.getsize {m : Mem} {a : Nat} {e : UstarEntry} (h : UstarAt m a e)
    (hlt : e.data.length < 4294967296) : tarGetsize m (a + 124) = e.data.length :=
  tarGetsize_octal h.size_lt hlt h.size

/-- The name of an entry is not empty, so that its header does not end the archive. -/
theorem UstarAt.first_ne_zero {m : Mem} {a : Nat} {e : UstarEntry} (h : UstarAt m a e)
    (hne : e.name ≠ []) (hzero : 0 ∉ e.name) : m a ≠ 0 := by
  have hname := h.name
  cases he : e.name with
  | nil => exact absurd he hne
  | cons c rest =>
    rw [he, List.length_cons, Mem.bytes_succ] at hname
    rw [(List.cons.inj hname).1]
    intro heq
    exact hzero (by simp [he, heq])

/-- The next header stands after the entry's blocks. -/
theorem next_address {a n limit : Nat} (h : a + (512 + (n + 511) / 512 * 512) ≤ limit)
    (hlimit : limit < 4294967296) :
    (if n % 512 ≠ 0 then u32 (u32 (a + (n / 512 + 1) * 512) + 512)
      else u32 (a + (n / 512 + 1) * 512)) = a + (512 + (n + 511) / 512 * 512) := by
  unfold u32
  split <;> omega

/-- **One turn of the walk**: the size in the header of an entry leads to the next one. -/
theorem tarParse_turn {m : Mem} {limit : Nat} (hlimit : limit < 4294967296) {e : UstarEntry}
    {es : List UstarEntry} (hname : e.name ≠ [] ∧ 0 ∉ e.name) {a files fuel : Nat}
    (himage : UstarImage m a (e :: es) limit) (hfiles : files < 64) :
    tarParse m (fuel + 1) files a limit
      = match tarParse m fuel (files + 1) (a + e.extent) limit with
        | .error err => .error err
        | .ok headers => .ok (a :: headers) := by
  rcases himage with ⟨hheader, himage⟩
  have hbound := himage.bound
  have hextent : e.extent = 512 + (e.data.length + 511) / 512 * 512 := rfl
  have hne := hheader.first_ne_zero hname.1 hname.2
  have hsize := hheader.getsize (by omega)
  have hnext := @next_address a e.data.length limit (by omega) hlimit
  rw [tarParse, if_neg hne, if_neg (by omega)]
  simp only [hsize, hnext]
  rw [← hextent, if_neg (by omega)]

/-- The walk over the entries that are left, after `files` of them. -/
theorem tarParse_entries {m : Mem} {limit : Nat} (hlimit : limit < 4294967296) {es : List UstarEntry}
    (hname : ∀ e ∈ es, e.name ≠ [] ∧ 0 ∉ e.name) {a files fuel : Nat} (himage : UstarImage m a es limit)
    (hfiles : files + es.length ≤ 64) (hfuel : es.length < fuel) :
    tarParse m fuel files a limit = .ok (ustarHeaders a es) := by
  induction es generalizing a files fuel with
  | nil =>
    rcases Nat.exists_eq_succ_of_ne_zero (Nat.ne_of_gt hfuel) with ⟨fuel, rfl⟩
    -- a block of zeros ends the archive
    have hzero : m a = 0 := himage.1 0 (by decide)
    rw [tarParse, if_pos hzero]
    rfl
  | cons e es ih =>
    rcases Nat.exists_eq_succ_of_ne_zero (Nat.ne_of_gt (Nat.zero_lt_of_lt hfuel)) with ⟨fuel, rfl⟩
    rw [List.length_cons] at hfiles hfuel
    have hrest := ih (fun d hd => hname d (List.mem_cons_of_mem _ hd)) himage.2
      (show files + 1 + es.length ≤ 64 by omega) (show es.length < fuel by omega)
    rw [tarParse_turn hlimit (hname e List.mem_cons_self) himage (by omega), hrest]
    rfl

/-- With more than 64 entries the walk stores beyond `headers`. -/
theorem tarParse_overfull {m : Mem} {limit : Nat} (hlimit : limit < 4294967296) {es : List UstarEntry}
    (hname : ∀ e ∈ es, e.name ≠ [] ∧ 0 ∉ e.name) {a files fuel : Nat} (himage : UstarImage m a es limit)
    (hfiles : files ≤ 64) (hmany : 64 < files + es.length) (hfuel : 64 < files + fuel) :
    tarParse m fuel files a limit = .error .undefined := by
  induction es generalizing a files fuel with
  | nil => exact absurd hmany (by simp; omega)
  | cons e es ih =>
    rcases Nat.exists_eq_succ_of_ne_zero (show fuel ≠ 0 by omega) with ⟨fuel, rfl⟩
    rw [List.length_cons] at hmany
    have hfirst := hname e List.mem_cons_self
    by_cases hfull : 64 ≤ files
    · rw [tarParse, if_neg (himage.1.first_ne_zero hfirst.1 hfirst.2), if_pos hfull]
    · have hrest := ih (fun d hd => hname d (List.mem_cons_of_mem _ hd)) himage.2
        (show files + 1 ≤ 64 by omega) (show 64 < files + 1 + es.length by omega)
        (show 64 < files + 1 + fuel by omega)
      rw [tarParse_turn hlimit hfirst himage (by omega), hrest]

/-- An entry of an archive is shorter than the archive. -/
theorem UstarEntry.data_lt {e : UstarEntry} {limit : Nat} (h : e.extent + 512 ≤ limit) : e.data.length < limit := by
  unfold UstarEntry.extent at h
  omega

/-- **The walk inverts the layout.** For every archive of at most 64 entries with non-empty names, inside
`[a, limit)`: `tar_parse` counts the entries, `headers[i]` is the address of the `i`-th header, the size
that `tar_getsize` reads there is that of the entry, and the data stand 512 bytes behind it. -/
theorem tarParse_ustar {m : Mem} {a limit : Nat} {es : List UstarEntry} (himage : UstarImage m a es limit)
    (hlimit : limit < 4294967296) (hcount : es.length ≤ 64)
    (hname : ∀ e ∈ es, e.name ≠ [] ∧ 0 ∉ e.name) :
    ∃ headers, (∀ fuel > es.length, tarParse m fuel 0 a limit = .ok headers)
      ∧ headers.length = es.length
      ∧ ∀ i e, es[i]? = some e → ∃ header, headers[i]? = some header
        ∧ header = a + ((es.take i).map UstarEntry.extent).sum
        ∧ tarGetsize m (header + 124) = e.data.length
        ∧ m.bytes (header + 512) e.data.length = e.data := by
  refine ⟨ustarHeaders a es, ?_, length_addresses _ a es, ?_⟩
  · intro fuel hfuel
    exact tarParse_entries hlimit hname himage (by omega) hfuel
  · intro i e hi
    obtain ⟨hget, hheader, hfits⟩ := Layout.getElem himage hi
    exact ⟨_, hget, rfl, hheader.getsize (Nat.lt_trans (UstarEntry.data_lt hfits) hlimit), hheader.data⟩

/-- An archive with one file `f` of one byte, at 512. -/
def oneFile : Mem := fun x =>
  if 636 ≤ x ∧ x < 646 then 48 else ([(512, 102), (646, 49), (1024, 7)].lookup x).getD 0

theorem oneFile_image : UstarImage oneFile 512 [⟨[102], [7]⟩] 2048 :=
  ⟨⟨by decide, by decide, by decide, by decide⟩, by decide +kernel, by decide⟩

theorem tarParse_ustar_one :
    ∃ headers, tarParse oneFile 2 0 512 2048 = .ok headers ∧ headers.length = 1
      ∧ headers[0]? = some 512 ∧ tarGetsize oneFile 636 = 1 := by
  rcases tarParse_ustar oneFile_image (by decide) (by decide) (by decide) with ⟨headers, hcall, hlength, hget⟩
  rcases hget 0 _ rfl with ⟨header, hheader, hat, hsize, _⟩
  have haddress : header = 512 := hat
  rw [haddress] at hheader hsize
  exact ⟨headers, hcall 2 (by decide), hlength, hheader, hsize⟩

/-! ## Walking an archive of named entries -/

/-- The bytes of the name, with the NUL behind them. -/
theorem HeaderAt.name_bytes {m : Mem} {a : Nat} {e : TarEntry} (h : HeaderAt m a e) :
    m.bytes a (e.name.length + 1) = e.name ++ [0] := by
  have hname : m.bytes a e.name.length = e.name := h.name
  rw [Mem.bytes_add, hname, Mem.bytes_succ, h.terminator]
  rfl

/-- An archive of entries named by paths is one of entries with names. -/
theorem ImageAt.toUstar {m : Mem} {a limit : Nat} {es : List TarEntry} (h : ImageAt m a es limit) :
    UstarImage m a (es.map TarEntry.toUstar) limit :=
  Layout.map (fun _ _ hheader => hheader.toUstarAt) (fun _ => rfl) h

theorem ustarHeaders_map (a : Nat) (es : List TarEntry) :
    ustarHeaders a (es.map TarEntry.toUstar) = headerAddresses a es :=
  addresses_map (fun _ => rfl) a es

/-- The names of such entries are as `tar_parse` needs them. -/
theorem TarEntry.Named.zero_not_mem {e : TarEntry} (he : e.Named) : 0 ∉ e.name := by
  have hjoin : ∀ segs : List CString, (∀ s ∈ segs, IsSegment s) → 0 ∉ joinPath segs := by
    intro segs hsegs
    induction segs with
    | nil => exact List.not_mem_nil
    | cons s segs ih =>
      have hs := (hsegs s List.mem_cons_self).zero_not_mem
      have hrest := ih fun u hu => hsegs u (List.mem_cons_of_mem _ hu)
      by_cases hlast : segs = []
      · subst hlast
        rw [show joinPath [s] = s from List.intercalate_singleton]
        exact hs
      · rw [joinPath_cons hlast, List.mem_append, List.mem_cons]
        rintro (hin | hslash | hin)
        · exact hs hin
        · cases hslash
        · exact hrest hin
  have hsegs := hjoin e.segs he.segments
  unfold TarEntry.name spelled
  cases e.trailing with
  | true =>
    simp only [Bool.false_eq_true, if_false, if_true, List.nil_append, List.mem_append,
      List.mem_singleton]
    rintro (hin | hslash)
    · exact hsegs hin
    · cases hslash
  | false =>
    simpa using hsegs

theorem TarEntry.Named.name_ne_nil {e : TarEntry} (he : e.Named) : e.name ≠ [] := by
  rcases joinPath_head he.ne_nil he.segments with ⟨c, rest, hjoin, _, _⟩
  unfold TarEntry.name spelled
  rw [hjoin]
  simp

theorem TarEntry.Named.toUstar {es : List TarEntry} (hnamed : ∀ e ∈ es, e.Named) :
    ∀ e ∈ es.map TarEntry.toUstar, e.name ≠ [] ∧ 0 ∉ e.name := by
  intro e he
  rcases List.mem_map.mp he with ⟨d, hd, rfl⟩
  exact ⟨(hnamed d hd).name_ne_nil, (hnamed d hd).zero_not_mem⟩

/-- The walk over an archive of at most 64 entries collects its headers. -/
theorem tarParse_image {m : Mem} {limit : Nat} (hlimit : limit < 4294967296) {es : List TarEntry}
    (hnamed : ∀ e ∈ es, e.Named) {a fuel : Nat} (himage : ImageAt m a es limit)
    (hcount : es.length ≤ 64) (hfuel : es.length < fuel) :
    tarParse m fuel 0 a limit = .ok (headerAddresses a es) := by
  rw [← ustarHeaders_map]
  apply tarParse_entries hlimit (TarEntry.Named.toUstar hnamed) himage.toUstar
  · simpa using hcount
  · simpa using hfuel

/-- A larger archive does not fit. -/
theorem tarParse_image_overfull {m : Mem} {limit : Nat} (hlimit : limit < 4294967296)
    {es : List TarEntry} (hnamed : ∀ e ∈ es, e.Named) {a fuel : Nat} (himage : ImageAt m a es limit)
    (hcount : 64 < es.length) (hfuel : 64 < fuel) :
    tarParse m fuel 0 a limit = .error .undefined := by
  apply tarParse_overfull hlimit (TarEntry.Named.toUstar hnamed) himage.toUstar (Nat.zero_le _)
  · simpa using hcount
  · simpa using hfuel

end DiyOS
