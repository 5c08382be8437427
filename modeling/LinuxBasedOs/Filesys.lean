/-
LinuxBasedOs/Filesys.lean

The file system driver (filesys.c): the directory lookup, `read_data` with the
block index of a descriptor, and the operations of regular files and of
directories.

The lookup copies each name to `filename_buf` before it compares, without
clearing what an earlier and longer name has left there; `found_congr` shows
that this leaves no trace in the result, which is therefore a function
`Image.lookup` of the image and the name.

A read does three things: it returns a value, it stores bytes through the
caller's pointer, and afterwards it updates the descriptor.  `ReadEffect` keeps
them apart, since the stores go through the page tables.

A name that fills its 32 bytes runs on into the type of the entry, and its copies
run past the ends of the arrays they are made to.  Each of these is taken to be
followed by enough memory of its own.
-/
import LinuxBasedOs.Kernel

namespace LinuxBasedOs

open Bytes

/-! ### Directory lookup -/

/-- `NAME_LEN`. -/
def nameLen : Nat := 32

/-- A string argument: the bytes before its NUL. -/
structure CString where
  bytes : List UInt8
  nonzero : ∀ b ∈ bytes, b ≠ 0

/-- The string in memory. -/
def CString.mem (s : CString) : Mem := fun i => s.bytes.getD i 0

/-- The memory at directory entry `d`, where its name starts. -/
def Image.dentryName (img : Image) (d : Nat) : Mem := fun i => img.load8 (dentryOff d + i)

/-- `filename_buf` after the name at `entry`, of length `len`, has been copied
to it. -/
def bufferName (entry : Mem) (len : Nat) (buf : Mem) : Mem :=
  let buf' := strncpy buf entry len
  if len < nameLen then Function.update buf' len 0 else buf'

/-- The search loop of `read_dentry_by_name`, with `left` entries to go: the
entry found and the length of its name, and `filename_buf` afterwards.  `none`
if a name has no end. -/
def searchFrom (img : Image) (fname : Mem) :
    (left dirIt : Nat) → Mem → Option (Option (Nat × Nat) × Mem)
  | 0, _, buf => some (none, buf)
  | left + 1, dirIt, buf =>
      (strlen (img.dentryName dirIt)).bind fun len =>
        let buf' := bufferName (img.dentryName dirIt) len buf
        if strncmp fname buf' nameLen = 0 then some (some (dirIt, len), buf')
        else searchFrom img fname left (dirIt + 1) buf'

/-- `read_dentry_by_name` up to the point where it fills in the caller's
`dentry`: the name is copied to the global `open_dentry` whatever the
destination is. -/
def readDentryByName (img : Image) (fname : CString) (fs : FsGlobals) :
    Option (Option (Nat × Nat) × FsGlobals) :=
  if nameLen < fname.bytes.length then some (none, fs)
  else
    (searchFrom img fname.mem img.nDirEntries 1 fs.filenameBuf).map fun r =>
      let fs' := { fs with filenameBuf := r.2 }
      match r.1 with
      | none => (none, fs')
      | some (d, len) =>
          (some (d, len), { fs' with openDentry := strncpy fs'.openDentry fs'.filenameBuf len })

/-- The type and the inode number that a lookup reports for entry `d`: inode
numbers of other files than regular ones are ignored. -/
def Image.reportedInode (img : Image) (d : Nat) : Nat :=
  if img.dentryType d = regFile then img.dentryInode d else 0

/-- The rest of `read_dentry_by_name` and `read_dentry_by_index`: pad the name
in the destination, and copy the type and the inode number. -/
def fillDentry (img : Image) (d len : Nat) (dentry : Mem) : Mem :=
  setWord (setWord (padFrom (nameLen - len) len dentry) 32 (img.dentryType d)) 36
    (img.reportedInode d)

/-- `read_dentry_by_index(index, &read_dentry)`. -/
def readDentryByIndex (img : Image) (index : Nat) (fs : FsGlobals) : Option (Int × FsGlobals) :=
  if img.nDirEntries ≤ index then some (-1, fs)
  else
    (strlen (img.dentryName (index + 1))).map fun len =>
      let named := strncpy fs.readDentry (img.dentryName (index + 1)) len
      (0, { fs with readDentry := fillDentry img (index + 1) len named })

/-- The fields of a dentry, as the drivers read them back. -/
def dentryFileType (dentry : Mem) : Nat := word dentry 32

/-- `dentry.inode_num`. -/
def dentryInodeNum (dentry : Mem) : Nat := word dentry 36

theorem dentryFileType_fillDentry (img : Image) (d len : Nat) (dentry : Mem) :
    dentryFileType (fillDentry img d len dentry) = img.dentryType d := by
  rw [dentryFileType, fillDentry, word_setWord_of_disjoint _ _ (.inl (by omega)), word_setWord]
  exact Nat.mod_eq_of_lt (img.load32_lt _)

theorem fillDentry_name (img : Image) (d len : Nat) (dentry : Mem) {j : Nat} (hj : j < nameLen) :
    fillDentry img d len dentry j = if len ≤ j then 0 else dentry j := by
  simp only [nameLen] at hj
  rw [fillDentry, setWord, if_neg (by omega), setWord, if_neg (by omega), padFrom_eq]
  by_cases hlen : len ≤ j
  · rw [cover, if_pos ⟨hlen, by simp only [nameLen]; omega⟩, if_pos hlen]
  · rw [cover_outside _ _ (.inl (Nat.not_le.mp hlen)), if_neg hlen]

theorem dentryInodeNum_fillDentry (img : Image) (d len : Nat) (dentry : Mem) :
    dentryInodeNum (fillDentry img d len dentry) = img.reportedInode d := by
  rw [dentryInodeNum, fillDentry, word_setWord]
  refine Nat.mod_eq_of_lt ?_
  unfold Image.reportedInode
  split_ifs
  · exact img.load32_lt _
  · decide

/-! ### The lookup as a function of the image -/

/-- The name of entry `d`: its 32-byte field up to the first NUL. -/
def Image.name (img : Image) (d : Nat) : List UInt8 := string (img.dentryName d) nameLen

/-- The name in a dentry that has been filled in for entry `d`, byte by byte. -/
theorem fillDentry_strncpy {img : Image} {d len : Nat} (hlen : strlen (img.dentryName d) = some len)
    (dentry : Mem) {j : Nat} (hj : j < nameLen) :
    fillDentry img d len (strncpy dentry (img.dentryName d) len) j =
      if len ≤ j then 0 else img.dentryName d j := by
  rw [fillDentry_name img _ _ _ hj]
  split_ifs with hle
  · rfl
  · rw [strncpy_apply _ (strlen_eq_some hlen).2, if_pos (not_le.mp hle)]

/-- It holds the name of the entry, whatever it held before. -/
theorem string_fillDentry {img : Image} {d len : Nat} (hlen : strlen (img.dentryName d) = some len)
    (dentry : Mem) :
    string (fillDentry img d len (strncpy dentry (img.dentryName d) len)) nameLen = img.name d := by
  refine string_congr fun j hj hnz => ?_
  have hz := (strlen_eq_some hlen).1
  have hle : j ≤ len := by
    by_contra hlt
    exact hnz len (by omega) hz
  rw [fillDentry_strncpy hlen dentry hj]
  rcases Nat.lt_or_eq_of_le hle with hlt | rfl
  · rw [if_neg (not_le.mpr hlt)]
  · rw [if_pos le_rfl, hz]

theorem readDentryByIndex_some {img : Image} {pos : Nat} {fs : FsGlobals} {r : Int × FsGlobals}
    (hpos : pos < img.nDirEntries) (h : readDentryByIndex img pos fs = some r) :
    r.1 = 0 ∧ string r.2.readDentry nameLen = img.name (pos + 1) := by
  rw [readDentryByIndex, if_neg (by omega)] at h
  obtain ⟨len, hlen, rfl⟩ := Option.map_eq_some_iff.mp h
  exact ⟨rfl, string_fillDentry hlen fs.readDentry⟩

/-- The buffer holds the name, whatever it held before. -/
theorem string_bufferName {entry : Mem} {len : Nat} (hlen : strlen entry = some len) (buf : Mem) :
    string (bufferName entry len buf) nameLen = string entry nameLen := by
  obtain ⟨hz, hne⟩ := strlen_eq_some hlen
  apply string_congr
  intro j hj hnz
  have hle : j ≤ len := by
    by_contra hlt
    exact hnz len (by omega) hz
  rw [bufferName]
  split_ifs with hlt
  · rcases Nat.lt_or_eq_of_le hle with hjl | rfl
    · rw [Function.update_of_ne hjl.ne, strncpy_apply buf hne, if_pos hjl]
    · rw [Function.update_self, hz]
  · -- a name that fills the field, so that `j` is inside it
    rw [strncpy_apply buf hne, if_pos (by omega)]

/-- The lookup compares names. -/
theorem strncmp_bufferName {img : Image} {d len : Nat} (hlen : strlen (img.dentryName d) = some len)
    (fname buf : Mem) :
    strncmp fname (bufferName (img.dentryName d) len buf) nameLen = 0 ↔
      string fname nameLen = img.name d := by
  rw [strncmp_eq_zero_iff, string_bufferName hlen, Image.name]

theorem found_congr (img : Image) (fname : Mem) (left d : Nat) (buf buf' : Mem) :
    (searchFrom img fname left d buf).map Prod.fst =
      (searchFrom img fname left d buf').map Prod.fst := by
  induction left generalizing d buf buf' with
  | zero => rfl
  | succ left ih =>
      simp only [searchFrom]
      cases hlen : strlen (img.dentryName d) with
      | none => rfl
      | some len =>
          simp only [Option.bind_some, strncmp_bufferName hlen]
          split_ifs with hcmp
          · rfl
          · exact ih ..

/-- The entry that a search finds is one of those it looked at. -/
theorem searchFrom_range {img : Image} {fname buf buf' : Mem} {left d e len : Nat}
    (h : searchFrom img fname left d buf = some (some (e, len), buf')) : d ≤ e ∧ e < d + left := by
  induction left generalizing d buf with
  | zero => cases h
  | succ left ih =>
      simp only [searchFrom] at h
      cases hlen : strlen (img.dentryName d) with
      | none => simp [hlen] at h
      | some l =>
          simp only [hlen, Option.bind_some] at h
          split_ifs at h with hcmp
          · simp only [Option.some.injEq, Prod.mk.injEq] at h
            omega
          · have := ih h
            omega

/-- The entry that a name leads to; `none` if the search does not end. -/
def Image.lookup (img : Image) (fname : CString) : Option (Option Nat) :=
  if nameLen < fname.bytes.length then some none
  else (searchFrom img fname.mem img.nDirEntries 1 fun _ => 0).map fun r => r.1.map Prod.fst

/-- What a lookup can do: it reports the entry of `Image.lookup`, and changes the
buffers only. -/
theorem readDentryByName_lookup {img : Image} {fname : CString} {fs fs' : FsGlobals}
    {found : Option (Nat × Nat)} (h : readDentryByName img fname fs = some (found, fs')) :
    img.lookup fname = some (found.map Prod.fst) := by
  unfold readDentryByName at h
  unfold Image.lookup
  split_ifs at h ⊢ with hlong
  · obtain ⟨rfl, -⟩ := Prod.mk.inj (Option.some.inj h)
    rfl
  · have hc := found_congr img fname.mem img.nDirEntries 1 fs.filenameBuf fun _ => 0
    rcases hs : searchFrom img fname.mem img.nDirEntries 1 fs.filenameBuf with - | ⟨found', buf⟩
    · simp [hs] at h
    · have hfound : found' = found := by
        rw [hs, Option.map_some] at h
        rcases found' with - | ⟨d, len⟩
        · exact (Prod.mk.inj (Option.some.inj h)).1
        · exact (Prod.mk.inj (Option.some.inj h)).1
      rw [hs, Option.map_some] at hc
      rcases hs' : searchFrom img fname.mem img.nDirEntries 1 fun _ => 0 with - | ⟨found'', buf''⟩
      · simp [hs'] at hc
      · rw [hs', Option.map_some] at hc
        have hfst : found' = found'' := Option.some.inj hc
        rw [Option.map_some, ← hfound, hfst]

/-- A lookup that ends once always ends. -/
theorem readDentryByName_isSome {img : Image} {fname : CString} {e : Option Nat}
    (h : img.lookup fname = some e) (fs : FsGlobals) :
    ∃ found fs', readDentryByName img fname fs = some (found, fs') ∧ found.map Prod.fst = e := by
  rcases hr : readDentryByName img fname fs with - | ⟨found, fs'⟩
  · exfalso
    unfold readDentryByName at hr
    unfold Image.lookup at h
    split_ifs at h hr with hlong
    have hc := found_congr img fname.mem img.nDirEntries 1 fs.filenameBuf fun _ => 0
    rcases hs : searchFrom img fname.mem img.nDirEntries 1 fs.filenameBuf with - | r
    · rw [hs] at hc
      rcases hs' : searchFrom img fname.mem img.nDirEntries 1 fun _ => 0 with - | r'
      · simp [hs'] at h
      · simp [hs'] at hc
    · simp [hs] at hr
  · refine ⟨found, fs', rfl, ?_⟩
    have := readDentryByName_lookup hr
    rw [h] at this
    exact (Option.some.inj this).symm

theorem lookup_range {img : Image} {fname : CString} {d : Nat}
    (h : img.lookup fname = some (some d)) : 1 ≤ d ∧ d ≤ img.nDirEntries := by
  unfold Image.lookup at h
  split_ifs at h with hlong
  · cases h
  · rcases hs : searchFrom img fname.mem img.nDirEntries 1 fun _ => 0 with - | ⟨found, buf⟩
    · simp [hs] at h
    · rw [hs, Option.map_some] at h
      rcases found with - | ⟨e, len⟩
      · cases h
      · have hrange := searchFrom_range hs
        have hd : e = d := Option.some.inj (Option.some.inj h)
        omega

/-! ### read_data -/

/-- `read_data`: the block index to start from is that of the descriptor's
flags, or 0 if the descriptor is given as -1. -/
def readData (img : Image) (inode offset buf length : Nat) (flags : Option Flags) : ReadResult :=
  readDataAt img inode offset buf length (match flags with | some f => f.inodeIdx | none => 0)

/-- A store of `read_data`: a byte of the buffer, or the flags word of the descriptor. -/
inductive ReadStore where
  | buffer (index : Nat) (b : UInt8)
  | flags (word : Flags)
  deriving DecidableEq

/-- All stores of a call: those to the buffer and, if the loop has run to its bound and there
is a descriptor, the flags with the block index that was reached. -/
def ReadResult.writes (r : ReadResult) (flags : Option Flags) : List ReadStore :=
  r.stores.map (fun p => .buffer p.1 p.2) ++
    (flags.bind fun f => r.saved.map fun idx => ReadStore.flags (f.saveIdx idx)).toList

theorem ReadResult.mem_writes {r : ReadResult} {flags : Option Flags} {w : ReadStore} :
    w ∈ r.writes flags ↔ (∃ p ∈ r.stores, w = .buffer p.1 p.2) ∨
      ∃ f idx, flags = some f ∧ r.saved = some idx ∧ w = .flags (f.saveIdx idx) := by
  rw [ReadResult.writes, List.mem_append, List.mem_map, Option.mem_toList,
    Option.bind_eq_some_iff]
  refine or_congr (exists_congr fun p => and_congr_right fun _ => eq_comm) ?_
  refine exists_congr fun f => ?_
  rw [Option.map_eq_some_iff, ← exists_and_left]
  exact exists_congr fun idx => and_congr_right fun _ => and_congr_right fun _ => eq_comm

/-- **`read_data` is memory safe on every image.**  Whatever the image holds, as
long as it has room for its `N` inodes and `D` data blocks: for every inode,
offset, length and flags word the call ends after at most `length + 1025` loads,
every inode word it loads lies in the inode region, every data byte in the data
region, and it stores to `buf[0 .. length)` and to the block index in the
descriptor's flags, and nowhere else. -/
theorem readData_safe (img : Image) (size : Nat)
    (hroom : fourKB * (1 + img.nInodes + img.nDataBlocks) ≤ size) (hsize : size < 2 ^ 32)
    (inode offset buf length : Nat) (flags : Option Flags) :
    let r := readData img inode offset buf length flags
    (∀ l ∈ r.loads, l.InRegion img) ∧ r.loads.length ≤ length + 1025 ∧
      ∀ w ∈ r.writes flags, (∃ i b, w = .buffer i b ∧ i < length) ∨
        ∃ f f', flags = some f ∧ w = .flags f' ∧ f'.inodeIdx < 1024 ∧
          ∀ i, i < 8 ∨ 20 ≤ i → f'.getLsbD i = f.getLsbD i := by
  intro r
  have hok : ReadOk img inode length _ r := readDataAt_ok img inode offset buf length
    (match flags with | some f => f.inodeIdx | none => 0)
  refine ⟨fun l hl => ?_, hok.loads_le, fun w hw => ?_⟩
  · obtain ⟨hinode, hallowed⟩ := hok.loads l hl
    exact hallowed.inRegion hinode (by omega)
  · rcases ReadResult.mem_writes.mp hw with ⟨p, hp, rfl⟩ | ⟨f, idx, rfl, hsaved, rfl⟩
    · exact .inl ⟨p.1, p.2, rfl, (hok.stores p hp).1⟩
    · have hidx := (hok.saved idx hsaved).2
      refine .inr ⟨f, _, rfl, rfl, ?_, fun i hi => Flags.getLsbD_saveIdx f (by omega) hi⟩
      rw [Flags.inodeIdx_saveIdx f (by omega)]
      exact hidx

/-- Three blocks are enough for one inode and one data block. -/
theorem readData_safe_tiny :
    fourKB * (1 + tinyImage.nInodes + tinyImage.nDataBlocks) ≤ 12288 ∧
      ∀ l ∈ (readData tinyImage 0 0 1 32 none).loads, l.InRegion tinyImage :=
  have hroom : fourKB * (1 + tinyImage.nInodes + tinyImage.nDataBlocks) ≤ 12288 := by
    decide +kernel
  ⟨hroom, (readData_safe tinyImage 12288 hroom (by decide) 0 0 1 32 none).1⟩

/-- Four bytes are read through a descriptor whose block index is 0.  Entry 0 of the inode is
no block number, so the index goes to 1, and the flags from 5 to 0x105. -/
theorem readData_saves_index :
    .flags 0x105 ∈ (readData tinyImage 0 0 1 4 (some 0x5)).writes (some 0x5) := by
  decide +kernel

/-! ### Descriptors of the current process -/

/-- The first free descriptor of 2 to 7, or 8; every open routine searches for
it again. -/
def firstFree (fa : Nat → FileDesc) : Nat :=
  ((List.range' 2 6).find? fun i => ¬ (fa i).InUse).getD 8

theorem firstFree_spec {fa : Nat → FileDesc} (h : firstFree fa < 8) :
    2 ≤ firstFree fa ∧ ¬ (fa (firstFree fa)).InUse := by
  unfold firstFree at *
  rcases hf : (List.range' 2 6).find? (fun i => ¬ (fa i).InUse) with - | i
  · rw [hf] at h
    exact absurd h (by decide)
  · have hmem := List.mem_of_find?_eq_some hf
    have hfree := List.find?_some hf
    rw [List.mem_range'_1] at hmem
    exact ⟨hmem.1, of_decide_eq_true hfree⟩

/-- Which descriptor is first free depends on the in-use bits only. -/
theorem firstFree_congr {fa fb : Nat → FileDesc} (h : ∀ i, (fa i).InUse ↔ (fb i).InUse) :
    firstFree fa = firstFree fb := by
  have hp : (fun i => decide (¬ (fa i).InUse)) = fun i => decide (¬ (fb i).InUse) := by
    funext i
    exact decide_eq_decide.mpr (not_congr (h i))
  unfold firstFree
  rw [hp]

/-- `file_open` and `dir_open`: find a free descriptor, look the name up in
`open_dentry`, and check the type. -/
def openEntry (img : Image) (type : Nat) (flags : Flags) (filename : CString) (k : Kernel) :
    Option (Int × Kernel) :=
  let i := firstFree k.cur.fileArray
  if 8 ≤ i then some (-1, k)
  else
    (readDentryByName img filename k.fs).map fun r =>
      match r.1 with
      | none => (-1, { k with fs := r.2 })
      | some (d, len) =>
          let dentry := fillDentry img d len r.2.openDentry
          let k' := { k with fs := { r.2 with openDentry := dentry } }
          if dentryFileType dentry ≠ type then (-1, k')
          else
            (0, k'.setFd i { k'.fd i with
              inode := dentryInodeNum dentry, filePos := 0, flags := flags })

/-- `file_open`. -/
def fileOpen (img : Image) (filename : CString) (k : Kernel) : Option (Int × Kernel) :=
  openEntry img regFile fileFlags filename k

/-- `dir_open`. -/
def dirOpen (img : Image) (filename : CString) (k : Kernel) : Option (Int × Kernel) :=
  openEntry img dirFile dirFlags filename k

/-- The close routines: the descriptor must be one of 2 to 7, of the routine's
type, and in use. -/
def closeFd (type : Nat) (fd : Int) (k : Kernel) : Int × Kernel :=
  if fd ≤ 1 ∨ fd ≥ 8 then (-1, k)
  else if (k.fd fd.toNat).flags.fileType ≠ type then (-1, k)
  else if ¬ (k.fd fd.toNat).InUse then (-1, k)
  else (0, k.setFd fd.toNat { k.fd fd.toNat with flags := 0 })

/-- `dir_close`. -/
def dirClose (fd : Int) (k : Kernel) : Int × Kernel := closeFd dirFile fd k

/-- `file_close` also clears the names in `open_dentry` and `read_dentry`. -/
def fileClose (fd : Int) (k : Kernel) : Int × Kernel :=
  let r := closeFd regFile fd k
  if r.1 = 0 then
    (0, { r.2 with fs := { r.2.fs with
      openDentry := padFrom nameLen 0 r.2.fs.openDentry
      readDentry := padFrom nameLen 0 r.2.fs.readDentry } })
  else r

/-! ### Reading -/

/-- What a read does: the value it returns, the bytes it stores, by address, and
the update of the kernel's state that follows. -/
structure ReadEffect where
  ret : Int
  stores : List (Nat × UInt8)
  after : Kernel → Kernel

/-- A read that is refused. -/
def ReadEffect.refused : ReadEffect := ⟨-1, [], id⟩

/-- Stores given by their index in a buffer, with 32-bit addresses. -/
def storesTo (buf : Nat) (ps : List (Nat × UInt8)) : List (Nat × UInt8) :=
  ps.map fun p => ((buf + p.1) % 2 ^ 32, p.2)

/-- What `file_read` does to a descriptor after `read_data` has returned. -/
def FileDesc.advance (d : FileDesc) (saved : Option Nat) (ret : Int) : FileDesc :=
  { d with
    flags := match saved with | some idx => d.flags.saveIdx idx | none => d.flags
    filePos := ((d.filePos + ret) % 2 ^ 32).toNat }

/-- `file_read`: the position moves on by what `read_data` returns. -/
def fileRead (img : Image) (fd : Nat) (buf nbytes : Nat) (k : Kernel) : ReadEffect :=
  if buf = 0 then .refused
  else if ¬ (k.fd fd).InUse ∨ (k.fd fd).flags.fileType ≠ regFile then .refused
  else
    let r := readData img (k.fd fd).inode (k.fd fd).filePos buf nbytes (some (k.fd fd).flags)
    { ret := r.ret
      stores := storesTo buf r.stores
      after := fun k => k.setFd fd ((k.fd fd).advance r.saved r.ret) }

/-- The copy loop of `dir_read`, from index `i`: the bytes it copies. -/
def copyName (name : Mem) : (left i : Nat) → List UInt8
  | 0, _ => []
  | left + 1, i => if name i = 0 then [] else name i :: copyName name left (i + 1)

/-- The bytes `dir_read` stores for a name: the copied characters, and a NUL
after them if the name has ended or is 32 characters long. -/
def dirBytes (name : Mem) (nbytes : Nat) : List UInt8 :=
  let cs := copyName name (min nbytes nameLen) 0
  if nameLen ≤ cs.length ∨ name cs.length = 0 then cs ++ [0] else cs

/-- `dir_read`: the name of the entry at the position; `none` if a string in the image does not
end. -/
def dirRead (img : Image) (fd : Int) (buf nbytes : Nat) (k : Kernel) : Option ReadEffect :=
  if buf = 0 then some .refused
  else if fd ≤ 1 ∨ fd ≥ 8 then some .refused
  else
    let d := k.fd fd.toNat
    -- the test looks at bit 1 of the flags, not at the whole type field
    if ¬ d.InUse ∨ (d.flags >>> 1) &&& 1 = 0 then some .refused
    else if img.nDirEntries ≤ d.filePos then some ⟨0, [], id⟩
    else
      (readDentryByIndex img d.filePos k.fs).map fun r =>
        if r.1 = -1 then .refused
        else
          { ret := (copyName r.2.readDentry (min nbytes nameLen) 0).length
            stores := storesTo buf (storesAt 0 (dirBytes r.2.readDentry nbytes))
            after := fun k =>
              let k' := { k with fs := r.2 }
              k'.setFd fd.toNat
                { k'.fd fd.toNat with filePos := ((k'.fd fd.toNat).filePos + 1) % 2 ^ 32 } }

/-! ### What the routines can do -/

/-- What `file_open` and `dir_open` can do: nothing but a change of the buffers,
or set up the first free descriptor for the entry found. -/
theorem openEntry_cases {img : Image} {type : Nat} {flags : Flags} {filename : CString}
    {k k' : Kernel} {ret : Int} (h : openEntry img type flags filename k = some (ret, k')) :
    ∃ fs, (ret = -1 ∧ k' = { k with fs := fs }) ∨
      (ret = 0 ∧ ∃ d, img.lookup filename = some (some d) ∧ img.dentryType d = type ∧
        firstFree k.cur.fileArray < 8 ∧
        k' = ({ k with fs := fs } : Kernel).setFd (firstFree k.cur.fileArray)
          { k.fd (firstFree k.cur.fileArray) with
            inode := img.reportedInode d, filePos := 0, flags := flags }) := by
  unfold openEntry at h
  simp only at h
  -- no descriptor is free
  split_ifs at h with hfull
  · obtain ⟨rfl, rfl⟩ := Prod.mk.inj (Option.some.inj h)
    exact ⟨k.fs, .inl ⟨rfl, rfl⟩⟩
  rcases hr : readDentryByName img filename k.fs with - | ⟨found, fs⟩
  · simp [hr] at h
  rw [hr, Option.map_some] at h
  rcases found with - | ⟨d, len⟩
  · obtain ⟨rfl, rfl⟩ := Prod.mk.inj (Option.some.inj h)
    exact ⟨fs, .inl ⟨rfl, rfl⟩⟩
  have hlookup := readDentryByName_lookup hr
  simp only [dentryFileType_fillDentry, dentryInodeNum_fillDentry] at h
  refine ⟨{ fs with openDentry := fillDentry img d len fs.openDentry }, ?_⟩
  -- the entry is of another type
  split_ifs at h with htype
  · obtain ⟨rfl, rfl⟩ := Prod.mk.inj (Option.some.inj h)
    exact .inl ⟨rfl, rfl⟩
  · obtain ⟨rfl, rfl⟩ := Prod.mk.inj (Option.some.inj h)
    exact .inr ⟨rfl, d, hlookup, not_not.mp htype, not_le.mp hfull, rfl⟩

/-- When the name leads to an entry of the right type and a descriptor is free,
the routine sets it up. -/
theorem openEntry_found {img : Image} {type : Nat} (flags : Flags) {filename : CString}
    {k : Kernel} {d : Nat} (hd : img.lookup filename = some (some d))
    (htype : img.dentryType d = type) (hfree : firstFree k.cur.fileArray < 8) :
    ∃ fs, openEntry img type flags filename k =
      some (0, ({ k with fs := fs } : Kernel).setFd (firstFree k.cur.fileArray)
        { k.fd (firstFree k.cur.fileArray) with
          inode := img.reportedInode d, filePos := 0, flags := flags }) := by
  obtain ⟨found, fs, hr, hfound⟩ := readDentryByName_isSome hd k.fs
  rcases found with - | ⟨e, len⟩
  · cases hfound
  obtain rfl : e = d := Option.some.inj hfound
  refine ⟨{ fs with openDentry := fillDentry img e len fs.openDentry }, ?_⟩
  unfold openEntry
  simp only [dentryFileType_fillDentry, dentryInodeNum_fillDentry, hr, Option.map_some]
  rw [if_neg (not_le.mpr hfree), if_neg (not_not.mpr htype)]
  rfl

/-- A descriptor set up by an open routine is as it should be, if `sys_open_c`
has put in the routine's table. -/
theorem openEntry_keeps {img : Image} {type : Nat} {flags : Flags} {filename : CString}
    {k k' : Kernel} {ret : Int} (h : openEntry img type flags filename k = some (ret, k'))
    (hnew : ∀ inode, (FileDesc.mk (k.fd (firstFree k.cur.fileArray)).fileOpPtr inode 0 flags).Ok) :
    Keeps k k' := by
  obtain ⟨fs, ⟨-, rfl⟩ | ⟨-, d, -, -, hfree, rfl⟩⟩ := openEntry_cases h
  · exact .globals k fs k.rtc
  · refine (Keeps.globals k fs k.rtc).trans (.setFd _ (firstFree_spec hfree).1 fun _ _ => ?_)
    exact hnew _

/-- What a close routine can do. -/
theorem closeFd_cases (type : Nat) (fd : Int) (k : Kernel) :
    closeFd type fd k = (-1, k) ∨
      (2 ≤ fd ∧ fd < 8 ∧ (k.fd fd.toNat).flags.fileType = type ∧ (k.fd fd.toNat).InUse ∧
        closeFd type fd k = (0, k.setFd fd.toNat { k.fd fd.toNat with flags := 0 })) := by
  unfold closeFd
  split_ifs with hfd htype huse
  · exact .inl rfl
  · exact .inl rfl
  · exact .inr ⟨by omega, by omega, not_not.mp htype, huse, rfl⟩
  · exact .inl rfl

theorem closeFd_keeps (type : Nat) (fd : Int) (k : Kernel) : Keeps k (closeFd type fd k).2 := by
  rcases closeFd_cases type fd k with h | ⟨h2, -, -, -, h⟩
  · rw [h]
    exact .refl k
  · rw [h]
    exact .setFd k (by omega) fun _ huse => absurd huse (by decide : ¬ Flags.InUse 0)

theorem fileClose_keeps (fd : Int) (k : Kernel) : Keeps k (fileClose fd k).2 := by
  have hclose := closeFd_keeps regFile fd k
  unfold fileClose
  simp only
  split_ifs
  · exact hclose.trans (.globals _ _ _)
  · exact hclose

/-- Reading on keeps a descriptor as it should be: the block index that
`read_data` saves is in range, and its place in the flags is its own. -/
theorem FileDesc.Ok.advance {d : FileDesc} (h : d.Ok) {saved : Option Nat} (ret : Int)
    (hsaved : ∀ i, saved = some i → d.flags.inodeIdx ≤ i ∧ i < 1024) : (d.advance saved ret).Ok := by
  cases saved with
  | none => exact ⟨h.type_le, h.table, h.index⟩
  | some i =>
      have hi := hsaved i rfl
      have htype := Flags.fileType_saveIdx d.flags (show i < 4096 by omega)
      have hidx := Flags.inodeIdx_saveIdx d.flags (show i < 4096 by omega)
      refine ⟨?_, ?_, fun hreg => ?_⟩
      · show (d.flags.saveIdx i).fileType ≤ 2
        rw [htype]
        exact h.type_le
      · show d.fileOpPtr = tableOfType (d.flags.saveIdx i).fileType
        rw [htype]
        exact h.table
      · have hreg' : d.flags.fileType = regFile := htype.symm.trans hreg
        have hold := h.index hreg'
        show 1 ≤ (d.flags.saveIdx i).inodeIdx ∧ (d.flags.saveIdx i).inodeIdx ≤ 1023
        rw [hidx]
        omega

theorem fileRead_eq (img : Image) {fd buf : Nat} (nbytes : Nat) {k : Kernel} (hbuf : buf ≠ 0)
    (huse : (k.fd fd).InUse) (htype : (k.fd fd).flags.fileType = regFile) :
    fileRead img fd buf nbytes k =
      let r := readData img (k.fd fd).inode (k.fd fd).filePos buf nbytes (some (k.fd fd).flags)
      { ret := r.ret
        stores := storesTo buf r.stores
        after := fun k => k.setFd fd ((k.fd fd).advance r.saved r.ret) } := by
  rw [fileRead, if_neg hbuf, if_neg (not_or.mpr ⟨not_not.mpr huse, not_not.mpr htype⟩)]

/-- What `file_read` can do: refuse, or read from a descriptor in use. -/
theorem fileRead_cases (img : Image) (fd buf nbytes : Nat) (k : Kernel) :
    fileRead img fd buf nbytes k = .refused ∨
      ((k.fd fd).InUse ∧ fileRead img fd buf nbytes k =
        let r := readData img (k.fd fd).inode (k.fd fd).filePos buf nbytes (some (k.fd fd).flags)
        { ret := r.ret
          stores := storesTo buf r.stores
          after := fun k => k.setFd fd ((k.fd fd).advance r.saved r.ret) }) := by
  by_cases hbuf : buf = 0
  · exact .inl (by rw [fileRead, if_pos hbuf])
  by_cases hrefuse : ¬ (k.fd fd).InUse ∨ (k.fd fd).flags.fileType ≠ regFile
  · exact .inl (by rw [fileRead, if_neg hbuf, if_pos hrefuse])
  · obtain ⟨huse, htype⟩ := not_or.mp hrefuse
    exact .inr ⟨not_not.mp huse, fileRead_eq img nbytes hbuf (not_not.mp huse) (not_not.mp htype)⟩

theorem fileRead_keeps (img : Image) {fd : Nat} (h2 : 2 ≤ fd) (h8 : fd < 8) (buf nbytes : Nat)
    (k : Kernel) : Keeps k ((fileRead img fd buf nbytes k).after k) := by
  obtain h | ⟨huse, h⟩ := fileRead_cases img fd buf nbytes k
  · rw [h]
    exact .refl k
  · have hok := readDataAt_ok img (k.fd fd).inode (k.fd fd).filePos buf nbytes
      (k.fd fd).flags.inodeIdx
    rw [h]
    exact .setFd k h2 fun hfiles _ => (hfiles.used fd h2 h8 huse).advance _ hok.saved

/-- A new position leaves the kind of a descriptor alone. -/
theorem FileDesc.Ok.withPos {d : FileDesc} (h : d.Ok) (pos : Nat) :
    ({ d with filePos := pos } : FileDesc).Ok :=
  ⟨h.type_le, h.table, h.index⟩

/-- What `dir_read` can do: nothing but return a value, or store the name of the
entry that the descriptor stands at and move on to the next one. -/
theorem dirRead_cases {img : Image} {fd : Int} {buf nbytes : Nat} {k : Kernel} {e : ReadEffect}
    (h : dirRead img fd buf nbytes k = some e) :
    (e.stores = [] ∧ e.after = id) ∨
      (2 ≤ fd ∧ fd < 8 ∧ (k.fd fd.toNat).InUse ∧ ∃ fs : FsGlobals,
        e.stores = storesTo buf (storesAt 0 (dirBytes fs.readDentry nbytes)) ∧
        e.after = fun k =>
          let k' := { k with fs := fs }
          k'.setFd fd.toNat
            { k'.fd fd.toNat with filePos := ((k'.fd fd.toNat).filePos + 1) % 2 ^ 32 }) := by
  unfold dirRead at h
  simp only at h
  -- four ways to return before the entry is read
  split_ifs at h with hbuf hfd huse hend
  · obtain rfl := Option.some.inj h
    exact .inl ⟨rfl, rfl⟩
  · obtain rfl := Option.some.inj h
    exact .inl ⟨rfl, rfl⟩
  · obtain rfl := Option.some.inj h
    exact .inl ⟨rfl, rfl⟩
  · obtain rfl := Option.some.inj h
    exact .inl ⟨rfl, rfl⟩
  · obtain ⟨⟨ret, fs⟩, -, hr⟩ := Option.map_eq_some_iff.mp h
    simp only at hr
    split_ifs at hr with hret
    · rw [← hr]
      exact .inl ⟨rfl, rfl⟩
    · rw [← hr]
      exact .inr ⟨by omega, by omega, not_not.mp (not_or.mp huse).1, fs, rfl, rfl⟩

theorem dirRead_keeps {img : Image} {fd : Int} {buf nbytes : Nat} {k : Kernel} {e : ReadEffect}
    (h : dirRead img fd buf nbytes k = some e) : Keeps k (e.after k) := by
  obtain ⟨-, hafter⟩ | ⟨h2, h8, huse, fs, -, hafter⟩ := dirRead_cases h
  · rw [hafter]
    exact .refl k
  · rw [hafter]
    refine (Keeps.globals k fs k.rtc).trans (.setFd _ (by omega) fun hfiles _ => ?_)
    exact (hfiles.used fd.toNat (by omega) (by omega) huse).withPos _

/-! ### How far a read stores -/

/-- The loop copies the string in the field. -/
theorem copyName_eq (name : Mem) (left i : Nat) : copyName name left i = stringFrom name left i := by
  induction left generalizing i with
  | zero => rfl
  | succ left ih =>
      rw [copyName, stringFrom, ih]

theorem length_copyName_le (name : Mem) (left i : Nat) : (copyName name left i).length ≤ left := by
  rw [copyName_eq]
  exact length_stringFrom_le name left i

/-- `dir_read` stores up to one byte more than it is asked for. -/
theorem length_dirBytes_le (name : Mem) (nbytes : Nat) :
    (dirBytes name nbytes).length ≤ min nbytes nameLen + 1 := by
  have hle := length_copyName_le name (min nbytes nameLen) 0
  unfold dirBytes
  simp only
  split_ifs
  · rw [List.length_append, List.length_singleton]
    omega
  · omega

/-- The copied characters are the name, as far as it fits. -/
theorem copyName_name (name : Mem) (nbytes : Nat) :
    copyName name (min nbytes nameLen) 0 = (string name nameLen).take nbytes := by
  rw [copyName_eq, stringFrom_take _ (Nat.min_le_right nbytes nameLen), ← List.take_take]
  rw [List.take_of_length_le (length_stringFrom_le name nameLen 0)]
  rfl

/-- What is stored is followed by a NUL if all of the name fits. -/
theorem dirBytes_eq (name : Mem) (nbytes : Nat) :
    dirBytes name nbytes = (string name nameLen).take nbytes ++
      if (string name nameLen).length ≤ nbytes then [0] else [] := by
  have hle : (string name nameLen).length ≤ nameLen := length_stringFrom_le _ _ _
  have hend : nameLen ≤ ((string name nameLen).take nbytes).length ∨
      name ((string name nameLen).take nbytes).length = 0 ↔
      (string name nameLen).length ≤ nbytes := by
    rw [List.length_take]
    constructor
    · rintro (hfull | hzero)
      · omega
      · -- a NUL is not inside the name
        by_contra hlt
        rw [min_eq_left (by omega)] at hzero
        have hinside : nbytes < (stringFrom name nameLen 0).length := not_le.mp hlt
        have hne := stringFrom_ne_zero hinside
        rw [Nat.zero_add] at hne
        exact hne hzero
    · intro hall
      rw [min_eq_right hall]
      rcases stringFrom_end name nameLen 0 with h | h
      · exact .inl h.ge
      · rw [Nat.zero_add] at h
        exact .inr h
  rw [dirBytes]
  simp only [copyName_name]
  by_cases hall : (string name nameLen).length ≤ nbytes
  · rw [if_pos (hend.mpr hall), if_pos hall]
  · rw [if_neg fun h => hall (hend.mp h), if_neg hall, List.append_nil]

/-- The bytes that `dir_read` stores at position `pos`: the name of the next entry,
as far as it fits, and a NUL if all of it does. -/
def Image.listBytes (img : Image) (pos nbytes : Nat) : List UInt8 :=
  (img.name (pos + 1)).take nbytes ++ if (img.name (pos + 1)).length ≤ nbytes then [0] else []

/-- **`dir_read` on a directory descriptor**: at the end of the directory it returns
0; before, it stores the name of the entry and moves on. -/
theorem dirRead_eq (img : Image) {fd : Int} (h2 : 2 ≤ fd) (h8 : fd < 8) {buf : Nat} (hbuf : buf ≠ 0)
    (nbytes : Nat) {k : Kernel} (huse : (k.fd fd.toNat).InUse)
    (htype : (k.fd fd.toNat).flags.fileType = dirFile) :
    dirRead img fd buf nbytes k =
      if img.nDirEntries ≤ (k.fd fd.toNat).filePos then some ⟨0, [], id⟩
      else
        (readDentryByIndex img (k.fd fd.toNat).filePos k.fs).map fun r =>
          { ret := ((img.name ((k.fd fd.toNat).filePos + 1)).take nbytes).length
            stores := storesTo buf (storesAt 0 (img.listBytes (k.fd fd.toNat).filePos nbytes))
            after := fun k =>
              let k' := { k with fs := r.2 }
              k'.setFd fd.toNat
                { k'.fd fd.toNat with filePos := ((k'.fd fd.toNat).filePos + 1) % 2 ^ 32 } } := by
  rw [dirRead, if_neg hbuf, if_neg (by omega)]
  simp only
  rw [if_neg (not_or.mpr ⟨not_not.mpr huse, Flags.bit_of_dir htype⟩)]
  split_ifs with hend
  · rfl
  · refine Option.map_congr fun r hr => ?_
    obtain ⟨hret, hname⟩ := readDentryByIndex_some (not_le.mp hend) hr
    rw [if_neg (by rw [hret]; decide), copyName_name, dirBytes_eq, hname]
    rfl

theorem mem_storesTo {buf : Nat} {ps : List (Nat × UInt8)} {q : Nat × UInt8} :
    q ∈ storesTo buf ps ↔ ∃ p ∈ ps, ((buf + p.1) % 2 ^ 32, p.2) = q :=
  List.mem_map

/-- The stores are to `buf[0 .. n)`. -/
def StoresWithin (buf n : Nat) (ps : List (Nat × UInt8)) : Prop :=
  ∀ q ∈ ps, ∃ i < n, q.1 = (buf + i) % 2 ^ 32

/-- Bytes stored one after the other stay in a buffer exactly if they are no more than
it has. -/
theorem storesWithin_iff (buf n : Nat) {bs : List UInt8} (hlen : bs.length ≤ 2 ^ 32) :
    StoresWithin buf n (storesTo buf (storesAt 0 bs)) ↔ bs.length ≤ n := by
  constructor
  · intro h
    by_contra hlong
    -- the store behind the buffer is at no place inside it
    have hmem := mem_storesAt 0 (not_le.mp hlong)
    obtain ⟨i, hi, heq⟩ := h _ (mem_storesTo.mpr ⟨_, hmem, rfl⟩)
    have heq' : (buf + (0 + n)) % 2 ^ 32 = (buf + i) % 2 ^ 32 := heq
    omega
  · intro hle q hq
    obtain ⟨p, hp, rfl⟩ := mem_storesTo.mp hq
    have hrange := le_of_mem_storesAt hp
    exact ⟨p.1, by omega, rfl⟩

/-- A buffer holds what was stored to it, also if it wraps around the address
space. -/
theorem storeAll_storesTo (m : Mem) (buf a : Nat) {bs : List UInt8} (hlen : bs.length ≤ 2 ^ 32)
    {i : Nat} (h : i < bs.length) :
    storeAll m (storesTo buf (storesAt a bs)) ((buf + (a + i)) % 2 ^ 32) = bs[i] := by
  induction bs generalizing m a i with
  | nil => cases h
  | cons b bs ih =>
      rw [List.length_cons] at hlen
      rw [storesAt, storesTo, List.map_cons, storeAll]
      cases i with
      | zero =>
          -- the later stores are less than the whole address space further on
          rw [storeAll_of_not_mem, Nat.add_zero, Function.update_self]
          · rfl
          · intro q hq
            obtain ⟨p, hp, rfl⟩ := mem_storesTo.mp hq
            have hrange := le_of_mem_storesAt hp
            show (buf + p.1) % 2 ^ 32 ≠ (buf + (a + 0)) % 2 ^ 32
            omega
      | succ i =>
          have hi : i < bs.length := Nat.lt_of_succ_lt_succ h
          have htail := ih (Function.update m ((buf + a) % 2 ^ 32) b) (a + 1) (by omega) hi
          rw [show a + 1 + i = a + (i + 1) by omega] at htail
          exact htail

end LinuxBasedOs
