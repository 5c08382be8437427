/-
LinuxBasedOs/Dentries.lean

The two lookups of filesys.c and the dentries they fill in.

`read_dentry_by_index` writes everything to the dentry it is given.
`read_dentry_by_name` does so with the padding, the type and the inode number, but the
characters of the name go to the global `open_dentry`.  For its callers in filesys.c
that is the same dentry; for `sys_open_c` and `sys_execute_c`, which pass one of their
own, it is not.  To say so, `DentryMem` has all dentries side by side, the two globals
among them, and a lookup may be given any of them.

Two things are compared with what a lookup should do.

* Looking up by index and then by name leads to the same dentry, and no other is
  touched, exactly if the second destination is `open_dentry` itself or the name
  happens to be everywhere already (`lookups_agree_iff`).
* The lookups take the length of a name from `strlen`, which does not know where the
  field ends.  A name that fills it is copied together with the type behind it, and so
  past the ends of three arrays (`names_within_iff`).
-/
import LinuxBasedOs.Directory

namespace LinuxBasedOs

open Bytes

variable {α : Type*} [DecidableEq α] {img : Image}

/-! ### Lookups into any dentry -/

/-- The dentries a lookup can be given: the globals of filesys.c, and those of its
callers. -/
inductive Dentry (α : Type*) where
  | openDentry
  | readDentry
  | own (a : α)
  deriving DecidableEq

/-- All dentries, and `filename_buf`. -/
structure DentryMem (α : Type*) where
  filenameBuf : Mem
  dentry : Dentry α → Mem

/-- The globals among them. -/
def DentryMem.fs (m : DentryMem α) : FsGlobals :=
  ⟨m.filenameBuf, m.dentry .openDentry, m.dentry .readDentry⟩

/-- `read_dentry_by_index(index, &d)`. -/
def readDentryByIndexInto (img : Image) (index : Nat) (d : Dentry α) (m : DentryMem α) :
    Option (Int × DentryMem α) :=
  if img.nDirEntries ≤ index then some (-1, m)
  else
    (strlen (img.dentryName (index + 1))).map fun len =>
      let named := strncpy (m.dentry d) (img.dentryName (index + 1)) len
      (0, { m with dentry := Function.update m.dentry d (fillDentry img (index + 1) len named) })

/-- `read_dentry_by_name(fname, &d)`: the name goes to `open_dentry`, all the rest to
`d`. -/
def readDentryByNameInto (img : Image) (fname : CString) (d : Dentry α) (m : DentryMem α) :
    Option (Int × DentryMem α) :=
  (readDentryByName img fname m.fs).map fun r =>
    let m' : DentryMem α :=
      ⟨r.2.filenameBuf, Function.update m.dentry .openDentry r.2.openDentry⟩
    match r.1 with
    | none => (-1, m')
    | some (e, len) =>
        (0, { m' with dentry := Function.update m'.dentry d (fillDentry img e len (m'.dentry d)) })

/-- The call in `dir_read` is the one with `read_dentry`. -/
theorem readDentryByIndexInto_readDentry (img : Image) (index : Nat) (m : DentryMem α) :
    (readDentryByIndexInto img index .readDentry m).map (fun r => (r.1, r.2.fs)) =
      readDentryByIndex img index m.fs := by
  rw [readDentryByIndexInto, readDentryByIndex]
  split_ifs with hend
  · rfl
  · rw [Option.map_map]
    refine Option.map_congr fun len _ => ?_
    simp [DentryMem.fs]

/-- A lookup into a dentry of the caller's own is the one of `Directory`. -/
theorem readDentryByNameInto_own (img : Image) (fname : CString) (a : α) (m : DentryMem α) :
    (readDentryByNameInto img fname (.own a) m).map (fun r => (r.1, r.2.dentry (.own a))) =
      (readDentryByNameTo img fname (m.dentry (.own a)) m.fs).map fun r => (r.1, r.2.1) := by
  rw [readDentryByNameInto, readDentryByNameTo, Option.map_map, Option.map_map]
  refine Option.map_congr fun r _ => ?_
  rcases r with ⟨- | ⟨e, len⟩, fs⟩
  · simp
  · simp

/-! ### What the lookups leave behind -/

/-- The name of entry `d` goes on at least to place `j`, in its field or behind it. -/
def Image.NameReaches (img : Image) (d j : Nat) : Prop :=
  ∀ i ≤ j, img.dentryName d i ≠ 0

theorem nameReaches_iff {d len : Nat} (hlen : strlen (img.dentryName d) = some len) (j : Nat) :
    img.NameReaches d j ↔ j < len := by
  obtain ⟨hz, hne⟩ := strlen_eq_some hlen
  constructor
  · intro h
    by_contra hle
    exact h len (not_lt.mp hle) hz
  · intro hlt i hi
    exact hne i (by omega)

/-- The entry a search has found, and the buffer: it holds the name, as far as `strlen`
says. -/
theorem searchFrom_found {fname buf buf' : Mem} {left d e len : Nat}
    (h : searchFrom img fname left d buf = some (some (e, len), buf')) :
    strlen (img.dentryName e) = some len ∧ ∀ j < len, buf' j = img.dentryName e j := by
  induction left generalizing d buf with
  | zero => cases h
  | succ left ih =>
      simp only [searchFrom] at h
      rcases hl : strlen (img.dentryName d) with - | l
      · rw [hl] at h
        cases h
      rw [hl, Option.bind_some] at h
      split_ifs at h with hcmp
      · obtain ⟨hfound, rfl⟩ := Prod.mk.inj (Option.some.inj h)
        obtain ⟨rfl, rfl⟩ := Prod.mk.inj (Option.some.inj hfound)
        refine ⟨hl, fun j hj => ?_⟩
        have hcopy : strncpy buf (img.dentryName d) l j = img.dentryName d j := by
          rw [strncpy_apply buf (strlen_eq_some hl).2, if_pos hj]
        rw [bufferName]
        split_ifs with hshort
        · rw [Function.update_of_ne hj.ne, hcopy]
        · exact hcopy
      · exact ih h

/-- What `read_dentry_by_name` does to the globals when it finds entry `e`. -/
theorem readDentryByName_found {fname : CString} {fs fs' : FsGlobals} {e len : Nat}
    (h : readDentryByName img fname fs = some (some (e, len), fs')) :
    strlen (img.dentryName e) = some len ∧
      ∀ j, fs'.openDentry j = if j < len then img.dentryName e j else fs.openDentry j := by
  unfold readDentryByName at h
  split_ifs at h with hlong
  · cases h
  obtain ⟨⟨found, buf⟩, hs, hr⟩ := Option.map_eq_some_iff.mp h
  rcases found with - | ⟨e', len'⟩
  · cases hr
  obtain ⟨hfound, rfl⟩ := Prod.mk.inj hr
  obtain ⟨rfl, rfl⟩ := Prod.mk.inj (Option.some.inj hfound)
  obtain ⟨hlen, hbuf⟩ := searchFrom_found hs
  refine ⟨hlen, fun j => ?_⟩
  have hne : ∀ j < len', buf j ≠ 0 := by
    intro j hj
    rw [hbuf j hj]
    exact (strlen_eq_some hlen).2 j hj
  show strncpy fs.openDentry buf len' j = _
  rw [strncpy_apply _ hne]
  split_ifs with hj
  · exact hbuf j hj
  · rfl

/-- The bytes of the type in a dentry that has been filled in. -/
theorem fillDentry_type (img : Image) (d len : Nat) (dentry : Mem) {j : Nat} (h₁ : 32 ≤ j)
    (h₂ : j < 36) : fillDentry img d len dentry j = img.dentryName d j := by
  have hplace : dentryOff d + 32 + (j - 32) = dentryOff d + j := by omega
  rw [fillDentry, setWord, if_neg (by omega), setWord, if_pos (by omega), Image.dentryType,
    Image.load32, byteOf_word _ _ (by omega), hplace]
  rfl

/-- A name that goes on behind the type leaves no place for a regular file's inode
number. -/
theorem fillDentry_inode {d : Nat} (h : img.NameReaches d 36) (len : Nat) (dentry : Mem) :
    fillDentry img d len dentry 36 = 0 := by
  have hbyte : byteOf (img.dentryType d) 1 ≠ 0 := by
    rw [Image.dentryType, Image.load32, byteOf_word _ _ (by decide)]
    exact h 33 (by decide)
  have hreg : img.dentryType d ≠ regFile := by
    intro htype
    rw [htype] at hbyte
    exact hbyte (by decide)
  rw [fillDentry, setWord, if_pos (by omega), Image.reportedInode, if_neg hreg]
  rfl

/-- A dentry that has been filled in by index holds the name, and what is behind it, up
to the inode number. -/
theorem fillDentry_agrees_iff {d len : Nat} (hlen : strlen (img.dentryName d) = some len)
    (dentry : Mem) :
    (∀ j < len, fillDentry img d len (strncpy dentry (img.dentryName d) len) j =
      img.dentryName d j) ↔ ¬ img.NameReaches d 36 := by
  constructor
  · intro h hlong
    have hlt := (nameReaches_iff hlen 36).mp hlong
    have heq := h 36 hlt
    rw [fillDentry_inode hlong] at heq
    exact hlong 36 le_rfl heq.symm
  · intro h j hj
    have hle : len ≤ 36 := by
      by_contra hlt
      exact h ((nameReaches_iff hlen 36).mpr (not_le.mp hlt))
    by_cases hfield : j < nameLen
    · rw [fillDentry_strncpy hlen dentry hfield, if_neg (not_le.mpr hj)]
    · simp only [nameLen] at hfield
      exact fillDentry_type img d len _ (by omega) (by omega)

/-! ### By index, then by name -/

/-- The name in a dentry. -/
def dentryString (dentry : Mem) : CString where
  bytes := string dentry nameLen
  nonzero := fun _ hb => ne_zero_of_mem_stringFrom hb

/-- Looking up the name that was found by index gives the same dentry once more: the
name with its padding, the type and the inode number; and no other dentry changes. -/
def LookupsAgree (img : Image) (i : Nat) (d₁ d₂ : Dentry α) (m : DentryMem α) : Prop :=
  ∀ m₁, readDentryByIndexInto img i d₁ m = some (0, m₁) →
    ∃ m₂, readDentryByNameInto img (dentryString (m₁.dentry d₁)) d₂ m₁ = some (0, m₂) ∧
      (∀ j < nameLen, m₁.dentry d₁ j = (img.name (i + 1)).getD j 0) ∧
      (∀ j < nameLen, m₂.dentry d₂ j = m₁.dentry d₁ j) ∧
      dentryFileType (m₂.dentry d₂) = dentryFileType (m₁.dentry d₁) ∧
      dentryInodeNum (m₂.dentry d₂) = dentryInodeNum (m₁.dentry d₁) ∧
      (∀ x, x ≠ d₁ → m₁.dentry x = m.dentry x) ∧ ∀ x, x ≠ d₂ → m₂.dentry x = m₁.dentry x

/-- What the first lookup does. -/
theorem readDentryByIndexInto_found {i len : Nat} (hi : i < img.nDirEntries)
    (hlen : strlen (img.dentryName (i + 1)) = some len) (d : Dentry α) (m : DentryMem α) :
    ∃ m₁, readDentryByIndexInto img i d m = some (0, m₁) ∧ (∀ x, x ≠ d → m₁.dentry x = m.dentry x) ∧
      m₁.dentry d =
        fillDentry img (i + 1) len (strncpy (m.dentry d) (img.dentryName (i + 1)) len) := by
  let filled := fillDentry img (i + 1) len (strncpy (m.dentry d) (img.dentryName (i + 1)) len)
  refine ⟨{ m with dentry := Function.update m.dentry d filled }, ?_, fun x hx => ?_, ?_⟩
  · rw [readDentryByIndexInto, if_neg (not_le.mpr hi), hlen]
    rfl
  · exact Function.update_of_ne hx ..
  · exact Function.update_self ..

/-- What the second lookup does, in a directory without a second entry of that name. -/
theorem readDentryByNameInto_named (hn : img.nDirEntries ≤ 63) {d len : Nat}
    (hrange : 1 ≤ d ∧ d ≤ img.nDirEntries)
    (hfirst : ∀ e, 1 ≤ e → e < d → img.name e ≠ img.name d)
    (hlen : strlen (img.dentryName d) = some len) {fname : CString} (hname : fname.bytes = img.name d)
    (d₂ : Dentry α) (m : DentryMem α) :
    ∃ m₂, readDentryByNameInto img fname d₂ m = some (0, m₂) ∧
      (∀ x, x ≠ d₂ → x ≠ .openDentry → m₂.dentry x = m.dentry x) ∧
      ∃ named : Mem, (∀ j, named j = if j < len then img.dentryName d j
          else m.dentry .openDentry j) ∧
        m₂.dentry d₂ = fillDentry img d len (if d₂ = .openDentry then named else m.dentry d₂) ∧
        (d₂ ≠ .openDentry → m₂.dentry .openDentry = named) := by
  have hentry : img.entryOf fname.bytes = some d := by
    rw [hname, Image.entryOf_eq_some_iff]
    exact ⟨hrange, rfl, hfirst⟩
  have hlookup := lookup_eq hn fname
  rw [hentry] at hlookup
  obtain ⟨found, fs, hread, hfound⟩ := readDentryByName_isSome hlookup m.fs
  rcases found with - | ⟨e, len'⟩
  · cases hfound
  obtain rfl : e = d := Option.some.inj hfound
  obtain ⟨hlen', hopen⟩ := readDentryByName_found hread
  obtain rfl : len' = len := Option.some.inj (hlen'.symm.trans hlen)
  -- `open_dentry` is written first, and it may be the destination itself
  let opened := Function.update m.dentry .openDentry fs.openDentry
  refine ⟨⟨fs.filenameBuf, Function.update opened d₂ (fillDentry img e len' (opened d₂))⟩, ?_,
    fun x hx hxo => ?_, fs.openDentry, hopen, ?_, fun hne => ?_⟩
  · rw [readDentryByNameInto, hread]
    rfl
  · show Function.update opened d₂ _ x = _
    rw [Function.update_of_ne hx]
    exact Function.update_of_ne hxo ..
  · show Function.update opened d₂ _ d₂ = _
    rw [Function.update_self]
    refine congrArg (fillDentry img e len') ?_
    split_ifs with hd
    · rw [hd]
      exact Function.update_self ..
    · exact Function.update_of_ne hd ..
  · show Function.update opened d₂ _ .openDentry = _
    rw [Function.update_of_ne (Ne.symm hne)]
    exact Function.update_self ..

/-- The padded name. -/
theorem name_getD {d len : Nat} (hlen : strlen (img.dentryName d) = some len) {j : Nat}
    (hj : j < nameLen) : (img.name d).getD j 0 = if len ≤ j then 0 else img.dentryName d j := by
  obtain ⟨hz, hne⟩ := strlen_eq_some hlen
  rw [← Nat.zero_add len] at hz
  have hpad := getD_stringFrom hz (fun m hm => by rw [Nat.zero_add]; exact hne m hm) hj
  rwa [Nat.zero_add] at hpad

/-- The second lookup leaves all other dentries as they are exactly if `open_dentry`, when
it is another one, holds the name already. -/
theorem others_kept_iff {d₂ : Dentry α} (hd : d₂ ≠ .openDentry) {m₁ m₂ : DentryMem α}
    {entry named : Mem} {len : Nat}
    (hkeep : ∀ x, x ≠ d₂ → x ≠ .openDentry → m₂.dentry x = m₁.dentry x)
    (hnamed : ∀ j, named j = if j < len then entry j else m₁.dentry .openDentry j)
    (hopen : m₂.dentry .openDentry = named) :
    (∀ x, x ≠ d₂ → m₂.dentry x = m₁.dentry x) ↔ ∀ j < len, m₁.dentry .openDentry j = entry j := by
  constructor
  · intro h j hj
    rw [← h .openDentry (Ne.symm hd), hopen, hnamed, if_pos hj]
  · intro h x hx
    by_cases hxo : x = .openDentry
    · rw [hxo, hopen]
      funext j
      rw [hnamed]
      split_ifs with hj
      · exact (h j hj).symm
      · rfl
    · exact hkeep x hx hxo

/-- **The two lookups agree** exactly if the second is into `open_dentry`, or the name is
already in its destination and in `open_dentry`.  In `open_dentry` it is if the first
lookup was into that, unless the name is so long that it covers the inode number.  For
every directory of at most 63 entries with different names, every entry, every pair of
dentries and whatever they hold. -/
theorem lookups_agree_iff {img : Image} (hn : img.nDirEntries ≤ 63)
    (hdistinct : ∀ d e, (1 ≤ d ∧ d ≤ img.nDirEntries) → (1 ≤ e ∧ e ≤ img.nDirEntries) →
      img.name d = img.name e → d = e)
    {i : Nat} (hi : i < img.nDirEntries) {d₁ d₂ : Dentry α} (hne : d₂ ≠ d₁) (m : DentryMem α) :
    let entry := img.dentryName (i + 1)
    LookupsAgree img i d₁ d₂ m ↔
      d₂ = .openDentry ∨
        (∀ j < nameLen, img.NameReaches (i + 1) j → m.dentry d₂ j = entry j) ∧
          (if d₁ = .openDentry then ¬ img.NameReaches (i + 1) 36
            else ∀ j, img.NameReaches (i + 1) j → m.dentry .openDentry j = entry j) := by
  intro entry
  obtain ⟨len, hlen⟩ := strlen_dentryName hn (i + 1)
  have hrange : 1 ≤ i + 1 ∧ i + 1 ≤ img.nDirEntries := ⟨Nat.le_add_left 1 i, hi⟩
  have hfirst : ∀ e, 1 ≤ e → e < i + 1 → img.name e ≠ img.name (i + 1) := by
    intro e h1 hlt heq
    have hsame := hdistinct e (i + 1) ⟨h1, by omega⟩ hrange heq
    omega
  -- the first lookup
  obtain ⟨m₁, hm₁, hother, hd₁⟩ := readDentryByIndexInto_found hi hlen d₁ m
  have hfilled : ∀ j < nameLen, m₁.dentry d₁ j = if len ≤ j then 0 else entry j := by
    intro j hj
    rw [hd₁]
    exact fillDentry_strncpy hlen _ hj
  have hname : (dentryString (m₁.dentry d₁)).bytes = img.name (i + 1) := by
    show string (m₁.dentry d₁) nameLen = _
    rw [hd₁]
    exact string_fillDentry hlen _
  -- the second
  obtain ⟨m₂, hm₂, hkeep, named, hnamed, hd₂, hopen⟩ :=
    readDentryByNameInto_named hn hrange hfirst hlen hname d₂ m₁
  have htype : dentryFileType (m₂.dentry d₂) = dentryFileType (m₁.dentry d₁) := by
    rw [hd₁, hd₂, dentryFileType_fillDentry, dentryFileType_fillDentry]
  have hinode : dentryInodeNum (m₂.dentry d₂) = dentryInodeNum (m₁.dentry d₁) := by
    rw [hd₁, hd₂, dentryInodeNum_fillDentry, dentryInodeNum_fillDentry]
  have hpad : ∀ j < nameLen, m₁.dentry d₁ j = (img.name (i + 1)).getD j 0 := by
    intro j hj
    rw [hfilled j hj, name_getD hlen hj]
  -- so what is left are the name in `d₂`, and `open_dentry`
  have hagree : LookupsAgree img i d₁ d₂ m ↔
      (∀ j < nameLen, m₂.dentry d₂ j = m₁.dentry d₁ j) ∧
        ∀ x, x ≠ d₂ → m₂.dentry x = m₁.dentry x := by
    constructor
    · intro h
      obtain ⟨m₂', hm₂', -, hsame, -, -, -, hkeep'⟩ := h m₁ hm₁
      obtain rfl : m₂' = m₂ := (Prod.mk.inj (Option.some.inj (hm₂'.symm.trans hm₂))).2
      exact ⟨hsame, hkeep'⟩
    · rintro ⟨hsame, hkeep'⟩ m₁' hm₁'
      obtain rfl : m₁' = m₁ := (Prod.mk.inj (Option.some.inj (hm₁'.symm.trans hm₁))).2
      exact ⟨m₂, hm₂, hpad, hsame, htype, hinode, hother, hkeep'⟩
  simp only [nameReaches_iff hlen]
  rw [hagree]
  by_cases hd : d₂ = .openDentry
  · refine iff_of_true ⟨fun j hj => ?_, fun x hx => hkeep x hx (hd ▸ hx)⟩ (.inl hd)
    rw [hd₂, if_pos hd, hfilled j hj, fillDentry_name _ _ _ _ hj, hnamed]
    split_ifs with hle hlt
    · rfl
    · rfl
    · exact absurd (not_le.mp hle) hlt
  · have hsame : (∀ j < nameLen, m₂.dentry d₂ j = m₁.dentry d₁ j) ↔
        ∀ j < nameLen, j < len → m.dentry d₂ j = entry j := by
      refine forall₂_congr fun j hj => ?_
      rw [hd₂, if_neg hd, hother d₂ hne, hfilled j hj, fillDentry_name _ _ _ _ hj]
      split_ifs with hle
      · exact iff_of_true rfl fun hlt => absurd hlt (not_lt.mpr hle)
      · exact ⟨fun h _ => h, fun h => h (not_le.mp hle)⟩
    rw [hsame, others_kept_iff hd hkeep hnamed (hopen hd), or_iff_right hd]
    refine and_congr_right fun _ => ?_
    split_ifs with hd₁o
    · rw [← hd₁o, hd₁, ← nameReaches_iff hlen]
      exact fillDentry_agrees_iff hlen _
    · rw [hother _ (Ne.symm hd₁o)]

/-- Memory in which all dentries are zero. -/
def zeroDentries : DentryMem Unit := ⟨fun _ => 0, fun _ => fun _ => 0⟩

/-- `a` by index into a dentry of the caller's own, and by name into `open_dentry`. -/
theorem lookups_agree_tiny :
    0 < tinyImage.nDirEntries ∧ LookupsAgree tinyImage 0 (.own ()) .openDentry zeroDentries := by
  have hone : tinyImage.nDirEntries = 1 := by decide +kernel
  have hi : 0 < tinyImage.nDirEntries := by omega
  refine ⟨hi, (lookups_agree_iff (by omega) (fun d e hd he _ => ?_) hi ?_ zeroDentries).mpr (.inl rfl)⟩
  · omega
  · intro h
    cases h

/-- Both lookups of `a` return 0, but the second leaves the name of its destination empty
and writes it to `open_dentry`. -/
theorem lookup_by_name_leaves_name :
    ((readDentryByIndexInto tinyImage 0 .readDentry zeroDentries).bind fun r =>
      (readDentryByNameInto tinyImage (dentryString (r.2.dentry .readDentry)) (.own ()) r.2).map
        fun q => (r.1, q.1, r.2.dentry .readDentry 0, q.2.dentry (.own ()) 0,
          r.2.dentry .openDentry 0, q.2.dentry .openDentry 0)) =
      some (0, 0, 0x61, 0, 0, 0x61) := by
  decide +kernel

/-! ### Where the characters go -/

/-- The stores of a lookup to the three arrays that receive names: `filename_buf`,
`open_dentry.filename` and `dentry->filename`. -/
structure LookupStores where
  filenameBuf : List (Nat × UInt8)
  openDentry : List (Nat × UInt8)
  dentry : List (Nat × UInt8)

/-- All of them are inside the arrays. -/
structure LookupStores.Within (s : LookupStores) : Prop where
  filenameBuf : ∀ p ∈ s.filenameBuf, p.1 < nameLen
  openDentry : ∀ p ∈ s.openDentry, p.1 < nameLen
  dentry : ∀ p ∈ s.dentry, p.1 < nameLen

/-- The stores to `filename_buf` while the search looks at one entry. -/
def bufferStores (entry : Mem) (len : Nat) : List (Nat × UInt8) :=
  strncpyStores entry len ++ if len < nameLen then [(len, 0)] else []

/-- The stores to `filename_buf` in the search loop. -/
def searchStores (img : Image) (fname : Mem) : (left dirIt : Nat) → Mem → List (Nat × UInt8)
  | 0, _, _ => []
  | left + 1, dirIt, buf =>
      match strlen (img.dentryName dirIt) with
      | none => []
      | some len =>
          let buf' := bufferName (img.dentryName dirIt) len buf
          bufferStores (img.dentryName dirIt) len ++
            if strncmp fname buf' nameLen = 0 then [] else searchStores img fname left (dirIt + 1) buf'

/-- The stores of the padding loop. -/
def padStores (len : Nat) : List (Nat × UInt8) := storesAt len (List.replicate (nameLen - len) 0)

/-- The stores of `read_dentry_by_name`, for a name that is not too long. -/
def readDentryByNameStores (img : Image) (fname : CString) (fs : FsGlobals) : LookupStores :=
  if nameLen < fname.bytes.length then ⟨[], [], []⟩
  else
    let stores := searchStores img fname.mem img.nDirEntries 1 fs.filenameBuf
    match searchFrom img fname.mem img.nDirEntries 1 fs.filenameBuf with
    | some (some (_, len), buf) => ⟨stores, strncpyStores buf len, padStores len⟩
    | _ => ⟨stores, [], []⟩

/-- The stores of `read_dentry_by_index`; entry 0 of the directory has the name at place 1. -/
def readDentryByIndexStores (img : Image) (index : Nat) : LookupStores :=
  if img.nDirEntries ≤ index then ⟨[], [], []⟩
  else
    match strlen (img.dentryName (index + 1)) with
    | none => ⟨[], [], []⟩
    | some len => ⟨[], [], strncpyStores (img.dentryName (index + 1)) len ++ padStores len⟩

theorem storeAll_bufferStores (entry : Mem) (len : Nat) (buf : Mem) :
    storeAll buf (bufferStores entry len) = bufferName entry len buf := by
  rw [bufferStores, storeAll_append, storeAll_strncpyStores, bufferName]
  split_ifs
  · rfl
  · rfl

/-- These are the stores of the search. -/
theorem storeAll_searchStores {fname : Mem} {left d : Nat} {buf buf' : Mem}
    {found : Option (Nat × Nat)} (h : searchFrom img fname left d buf = some (found, buf')) :
    storeAll buf (searchStores img fname left d buf) = buf' := by
  induction left generalizing d buf with
  | zero =>
      obtain ⟨-, rfl⟩ := Prod.mk.inj (Option.some.inj h)
      rfl
  | succ left ih =>
      simp only [searchFrom] at h
      rw [searchStores]
      rcases hl : strlen (img.dentryName d) with - | len
      · rw [hl] at h
        cases h
      rw [hl, Option.bind_some] at h
      simp only [storeAll_append, storeAll_bufferStores]
      split_ifs at h ⊢ with hcmp
      · obtain ⟨-, rfl⟩ := Prod.mk.inj (Option.some.inj h)
        rfl
      · exact ih h

/-- The name that is found is the last one that is copied. -/
theorem bufferStores_subset {fname : Mem} {left d e len : Nat} {buf buf' : Mem}
    (h : searchFrom img fname left d buf = some (some (e, len), buf')) :
    bufferStores (img.dentryName e) len ⊆ searchStores img fname left d buf := by
  induction left generalizing d buf with
  | zero => cases h
  | succ left ih =>
      simp only [searchFrom] at h
      rw [searchStores]
      rcases hl : strlen (img.dentryName d) with - | l
      · rw [hl] at h
        cases h
      rw [hl, Option.bind_some] at h
      simp only
      split_ifs at h ⊢ with hcmp
      · obtain ⟨hfound, -⟩ := Prod.mk.inj (Option.some.inj h)
        obtain ⟨rfl, rfl⟩ := Prod.mk.inj (Option.some.inj hfound)
        exact List.subset_append_left _ _
      · exact List.Subset.trans (ih h) (List.subset_append_right _ _)

/-- And these are the stores of the two lookups. -/
theorem storeAll_readDentryByNameStores {fname : CString} {fs fs' : FsGlobals}
    {found : Option (Nat × Nat)} (h : readDentryByName img fname fs = some (found, fs')) :
    storeAll fs.filenameBuf (readDentryByNameStores img fname fs).filenameBuf = fs'.filenameBuf ∧
      storeAll fs.openDentry (readDentryByNameStores img fname fs).openDentry = fs'.openDentry := by
  unfold readDentryByName at h
  unfold readDentryByNameStores
  split_ifs at h ⊢ with hlong
  · obtain ⟨-, rfl⟩ := Prod.mk.inj (Option.some.inj h)
    exact ⟨rfl, rfl⟩
  obtain ⟨⟨found', buf⟩, hs, hr⟩ := Option.map_eq_some_iff.mp h
  have hbuf := storeAll_searchStores hs
  rcases found' with - | ⟨e, len⟩
  · obtain ⟨-, rfl⟩ := Prod.mk.inj hr
    simp only [hs]
    exact ⟨hbuf, rfl⟩
  · obtain ⟨-, rfl⟩ := Prod.mk.inj hr
    simp only [hs]
    exact ⟨hbuf, storeAll_strncpyStores _ _ _⟩

theorem storeAll_readDentryByIndexStores {index : Nat} {d : Dentry α} {m m' : DentryMem α} {ret : Int}
    (h : readDentryByIndexInto img index d m = some (ret, m')) {j : Nat} (hj : j < nameLen) :
    storeAll (m.dentry d) (readDentryByIndexStores img index).dentry j = m'.dentry d j := by
  unfold readDentryByIndexInto at h
  unfold readDentryByIndexStores
  split_ifs at h ⊢ with hend
  · obtain ⟨-, rfl⟩ := Prod.mk.inj (Option.some.inj h)
    rfl
  obtain ⟨len, hlen, hr⟩ := Option.map_eq_some_iff.mp h
  obtain ⟨-, rfl⟩ := Prod.mk.inj hr
  simp only [hlen, padStores]
  rw [storeAll_append, storeAll_strncpyStores, storeAll_replicate, Function.update_self, fillDentry]
  simp only [nameLen] at hj
  rw [setWord, if_neg (by omega), setWord, if_neg (by omega)]

/-! ### Names that run on -/

theorem not_nameReaches_iff {d len : Nat} (hlen : strlen (img.dentryName d) = some len) :
    ¬ img.NameReaches d nameLen ↔ len ≤ nameLen := by
  rw [nameReaches_iff hlen, not_lt]

theorem padStores_lt (len : Nat) : ∀ p ∈ padStores len, p.1 < nameLen := by
  intro p hp
  have hrange := le_of_mem_storesAt hp
  rw [List.length_replicate] at hrange
  omega

theorem bufferStores_lt_iff (entry : Mem) (len : Nat) :
    (∀ p ∈ bufferStores entry len, p.1 < nameLen) ↔ len ≤ nameLen := by
  rw [bufferStores, List.forall_mem_append, strncpyStores_lt_iff]
  refine and_iff_left_of_imp fun _ p hp => ?_
  split_ifs at hp with hshort
  · rw [List.mem_singleton.mp hp]
    exact hshort
  · cases hp

/-- The search stays in `filename_buf` exactly if no name that it looks at runs on. -/
theorem searchStores_lt_iff (hn : img.nDirEntries ≤ 63) (fname : Mem) (left d : Nat) (buf : Mem) :
    (∀ p ∈ searchStores img fname left d buf, p.1 < nameLen) ↔
      ∀ e, d ≤ e → e < d + left →
        (∀ e', d ≤ e' → e' < e → img.name e' ≠ string fname nameLen) →
          ¬ img.NameReaches e nameLen := by
  induction left generalizing d buf with
  | zero => exact iff_of_true (List.forall_mem_nil _) fun e h₁ h₂ => by omega
  | succ left ih =>
      obtain ⟨len, hlen⟩ := strlen_dentryName hn d
      rw [searchStores, hlen]
      simp only [strncmp_bufferName hlen]
      rw [List.forall_mem_append, bufferStores_lt_iff, ← not_nameReaches_iff hlen]
      split_ifs with hfound
      · -- the search ends here
        constructor
        · rintro ⟨hhere, -⟩ e hde hlt hbefore
          rcases Nat.eq_or_lt_of_le hde with rfl | hgt
          · exact hhere
          · exact absurd hfound.symm (hbefore d le_rfl hgt)
        · intro h
          exact ⟨h d le_rfl (by omega) fun e' h₁ h₂ => absurd h₂ (by omega),
            List.forall_mem_nil _⟩
      · rw [ih]
        constructor
        · rintro ⟨hhere, hrest⟩ e hde hlt hbefore
          rcases Nat.eq_or_lt_of_le hde with rfl | hgt
          · exact hhere
          · exact hrest e hgt (by omega) fun e' h₁ h₂ => hbefore e' (by omega) h₂
        · intro h
          refine ⟨h d le_rfl (by omega) fun e' h₁ h₂ => absurd h₂ (by omega), ?_⟩
          intro e hde hlt hbefore
          refine h e (by omega) (by omega) fun e' h₁ h₂ => ?_
          rcases Nat.eq_or_lt_of_le h₁ with rfl | hgt
          · exact fun heq => hfound heq.symm
          · exact hbefore e' hgt h₂

/-- A lookup that stores nothing stays in its arrays. -/
theorem LookupStores.within_nil : LookupStores.Within ⟨[], [], []⟩ :=
  ⟨List.forall_mem_nil _, List.forall_mem_nil _,
    List.forall_mem_nil _⟩

theorem readDentryByNameStores_within_iff (hn : img.nDirEntries ≤ 63) (fname : CString)
    (fs : FsGlobals) :
    (readDentryByNameStores img fname fs).Within ↔
      (fname.bytes.length ≤ nameLen → ∀ d, 1 ≤ d → d ≤ img.nDirEntries →
        (∀ e, 1 ≤ e → e < d → img.name e ≠ fname.bytes) → ¬ img.NameReaches d nameLen) := by
  unfold readDentryByNameStores
  split_ifs with hlong
  · exact iff_of_true LookupStores.within_nil fun h => absurd h (not_le.mpr hlong)
  have hle : fname.bytes.length ≤ nameLen := not_lt.mp hlong
  have hbytes : string fname.mem nameLen = fname.bytes := by
    rw [CString.string_mem, List.take_of_length_le hle]
  have hsearch := searchStores_lt_iff hn fname.mem img.nDirEntries 1 fs.filenameBuf
  rw [hbytes] at hsearch
  have hcond : (fname.bytes.length ≤ nameLen → ∀ d, 1 ≤ d → d ≤ img.nDirEntries →
      (∀ e, 1 ≤ e → e < d → img.name e ≠ fname.bytes) → ¬ img.NameReaches d nameLen) ↔
      ∀ p ∈ searchStores img fname.mem img.nDirEntries 1 fs.filenameBuf, p.1 < nameLen := by
    rw [hsearch]
    constructor
    · intro h e h1 hlt
      exact h hle e h1 (by omega)
    · intro h _ d h1 hn'
      exact h d h1 (by omega)
  rw [hcond]
  constructor
  · intro h
    split at h
    · exact h.filenameBuf
    · exact h.filenameBuf
  · intro h
    split
    · next e len buf hs =>
        -- the name that is found has been looked at
        have hlen : len ≤ nameLen := (bufferStores_lt_iff (img.dentryName e) len).mp
          fun p hp => h p (bufferStores_subset hs hp)
        exact ⟨h, (strncpyStores_lt_iff buf len nameLen).mpr hlen, padStores_lt len⟩
    · exact ⟨h, List.forall_mem_nil _, List.forall_mem_nil _⟩

theorem readDentryByIndexStores_within_iff (hn : img.nDirEntries ≤ 63) (index : Nat) :
    (readDentryByIndexStores img index).Within ↔
      (index < img.nDirEntries → ¬ img.NameReaches (index + 1) nameLen) := by
  obtain ⟨len, hlen⟩ := strlen_dentryName hn (index + 1)
  unfold readDentryByIndexStores
  split_ifs with hend
  · exact iff_of_true LookupStores.within_nil fun h => absurd h (not_lt.mpr hend)
  rw [hlen, not_nameReaches_iff hlen, ← strncpyStores_lt_iff (img.dentryName (index + 1)) len]
  constructor
  · intro h _ p hp
    exact h.dentry p (List.mem_append_left _ hp)
  · intro h
    refine ⟨List.forall_mem_nil _, List.forall_mem_nil _, ?_⟩
    exact List.forall_mem_append.mpr ⟨h (not_le.mp hend), padStores_lt len⟩

/-- **Names stay in their arrays** exactly if no name that the lookup copies fills its
field and goes on with a type that is not 0 in its low byte.  The lookup by name copies
the names of all entries up to the one it finds, the lookup by index only one. -/
theorem names_within_iff {img : Image} (hn : img.nDirEntries ≤ 63) (fname : CString) (fs : FsGlobals)
    (index : Nat) :
    ((readDentryByNameStores img fname fs).Within ↔
      (fname.bytes.length ≤ nameLen → ∀ d, 1 ≤ d → d ≤ img.nDirEntries →
        (∀ e, 1 ≤ e → e < d → img.name e ≠ fname.bytes) → ¬ img.NameReaches d nameLen)) ∧
    ((readDentryByIndexStores img index).Within ↔
      (index < img.nDirEntries → ¬ img.NameReaches (index + 1) nameLen)) :=
  ⟨readDentryByNameStores_within_iff hn fname fs, readDentryByIndexStores_within_iff hn index⟩

/-- The name `a` is short. -/
theorem names_within_tiny :
    (readDentryByNameStores tinyImage ⟨[0x61], by simp⟩ ⟨fun _ => 0, fun _ => 0, fun _ => 0⟩).Within ∧
      (readDentryByIndexStores tinyImage 0).Within := by
  have hone : tinyImage.nDirEntries = 1 := by decide +kernel
  have hshort : ¬ tinyImage.NameReaches 1 nameLen := fun h => h 1 (by decide) (by decide +kernel)
  obtain ⟨hname, hindex⟩ := names_within_iff (show tinyImage.nDirEntries ≤ 63 by omega)
    ⟨[0x61], by simp⟩ ⟨fun _ => 0, fun _ => 0, fun _ => 0⟩ 0
  refine ⟨hname.mpr fun _ d h1 hn _ => ?_, hindex.mpr fun _ => hshort⟩
  obtain rfl : d = 1 := by omega
  exact hshort

/-- A name of 32 characters, followed by type 1: the type is stored behind all three
arrays. -/
theorem long_name_stores_behind :
    let s := readDentryByNameStores longNameImage longName ⟨fun _ => 0, fun _ => 0, fun _ => 0⟩
    (32, 1) ∈ s.filenameBuf ∧ (32, 1) ∈ s.openDentry ∧
      (32, 1) ∈ (readDentryByIndexStores longNameImage 0).dentry := by
  decide +kernel

end LinuxBasedOs
