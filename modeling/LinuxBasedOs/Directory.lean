/-
LinuxBasedOs/Directory.lean

The directory as a list of names.

`Image.entryOf` is what a directory is for: the first entry that has a given name,
where the name of an entry is its 32-byte field up to the first NUL.  A directory
of at most 63 entries fits the boot block, its names all end, and the lookup of
filesys.c is exactly that function (`lookup_eq`), in spite of the lengths that run
on into the type field and of the buffer that keeps what earlier names have left.
-/
import LinuxBasedOs.Filesys

namespace LinuxBasedOs

open Bytes

variable {img : Image}

/-! ### Names -/

/-- With at most 63 entries the boot block has a zero byte, so that no name goes on
for ever. -/
theorem strlen_dentryName (hn : img.nDirEntries ≤ 63) (d : Nat) :
    ∃ len, strlen (img.dentryName d) = some len := by
  have hzero : img.load8 1 = 0 := by
    rw [← UInt8.toNat_inj]
    show (img.load8 1).toNat = 0
    simp only [Image.nDirEntries, Image.load32, word, Nat.zero_add] at hn
    omega
  have hlt : (2 ^ 32 + 1 - dentryOff d % 2 ^ 32) % 2 ^ 32 < 2 ^ 32 := Nat.mod_lt _ (by decide)
  refine strlen_isSome hlt ?_
  rw [← hzero]
  show img.byte ((dentryOff d + (2 ^ 32 + 1 - dentryOff d % 2 ^ 32) % 2 ^ 32) % 2 ^ 32) =
    img.byte (1 % 2 ^ 32)
  congr 1
  omega

theorem Image.length_name_le (img : Image) (d : Nat) : (img.name d).length ≤ nameLen :=
  length_stringFrom_le _ _ _

theorem CString.string_mem (fname : CString) (n : Nat) : string fname.mem n = fname.bytes.take n :=
  stringFrom_getD fname.nonzero n 0

/-! ### The lookup -/

/-- The first entry with this name. -/
def Image.entryOf (img : Image) (name : List UInt8) : Option Nat :=
  (List.range' 1 img.nDirEntries).find? fun d => img.name d = name

theorem Image.entryOf_eq_some_iff {name : List UInt8} {d : Nat} :
    img.entryOf name = some d ↔
      (1 ≤ d ∧ d ≤ img.nDirEntries) ∧ img.name d = name ∧
        ∀ e, 1 ≤ e → e < d → img.name e ≠ name := by
  rw [Image.entryOf, List.find?_range'_eq_some, List.mem_range'_1]
  constructor
  · rintro ⟨hname, hrange, hfirst⟩
    refine ⟨by omega, of_decide_eq_true hname, fun e h1 hlt hne => ?_⟩
    have hno := hfirst e h1 hlt
    rw [decide_eq_true hne] at hno
    cases hno
  · rintro ⟨hrange, hname, hfirst⟩
    refine ⟨decide_eq_true hname, by omega, fun e h1 hlt => ?_⟩
    rw [decide_eq_false (hfirst e h1 hlt)]
    rfl

theorem Image.entryOf_eq_none_iff {name : List UInt8} :
    img.entryOf name = none ↔ ∀ d, 1 ≤ d → d ≤ img.nDirEntries → img.name d ≠ name := by
  rw [Image.entryOf, List.find?_eq_none]
  constructor
  · intro h d h1 hle hname
    exact h d (List.mem_range'_1.mpr (by omega)) (decide_eq_true hname)
  · intro h d hmem hname
    rw [List.mem_range'_1] at hmem
    exact h d (by omega) (by omega) (of_decide_eq_true hname)

/-- The search loop finds the first entry with the name. -/
theorem searchFrom_find (hn : img.nDirEntries ≤ 63) (fname : Mem) (left d : Nat) (buf : Mem) :
    ∃ found buf', searchFrom img fname left d buf = some (found, buf') ∧
      found.map Prod.fst =
        (List.range' d left).find? fun e => img.name e = string fname nameLen := by
  induction left generalizing d buf with
  | zero => exact ⟨none, buf, rfl, rfl⟩
  | succ left ih =>
      obtain ⟨len, hlen⟩ := strlen_dentryName hn d
      simp only [searchFrom, hlen, Option.bind_some, strncmp_bufferName hlen, List.range'_succ,
        List.find?_cons]
      by_cases hname : string fname nameLen = img.name d
      · rw [if_pos hname, decide_eq_true hname.symm]
        exact ⟨_, _, rfl, rfl⟩
      · rw [if_neg hname, decide_eq_false fun h => hname h.symm]
        exact ih (d + 1) _

/-- **The lookup is a search by name.** -/
theorem lookup_eq (hn : img.nDirEntries ≤ 63) (fname : CString) :
    img.lookup fname = some (img.entryOf fname.bytes) := by
  unfold Image.lookup
  split_ifs with hlong
  · -- no entry has a name of that length
    have hnone : img.entryOf fname.bytes = none := by
      rw [Image.entryOf_eq_none_iff]
      intro d _ _ hname
      have hle := img.length_name_le d
      rw [hname] at hle
      omega
    rw [hnone]
  · obtain ⟨found, buf, hsearch, hfound⟩ := searchFrom_find hn fname.mem img.nDirEntries 1 fun _ => 0
    have hbytes : string fname.mem nameLen = fname.bytes := by
      rw [CString.string_mem, List.take_of_length_le (not_lt.mp hlong)]
    rw [hbytes] at hfound
    rw [hsearch, Option.map_some, hfound]
    rfl

/-- `read_dentry_by_name(fname, &d)` for a `d` of the caller's own: what it returns,
and `d` afterwards. -/
def readDentryByNameTo (img : Image) (fname : CString) (dentry : Mem) (fs : FsGlobals) :
    Option (Int × Mem × FsGlobals) :=
  (readDentryByName img fname fs).map fun r =>
    match r.1 with
    | none => (-1, dentry, r.2)
    | some (d, len) => (0, fillDentry img d len dentry, r.2)

/-- **Looking up a name.**  In a directory of at most 63 entries, for every name and
whatever the buffers hold: the call returns 0 exactly if the name has at most 32
characters and some entry has it; the type and the inode number it then reports
are those of the first such entry; otherwise it returns -1 and leaves the
destination alone. -/
theorem readDentryByName_finds (img : Image) (hn : img.nDirEntries ≤ 63) (fname : CString)
    (dentry : Mem) (fs : FsGlobals) :
    ∃ ret dentry' fs', readDentryByNameTo img fname dentry fs = some (ret, dentry', fs') ∧
      (ret = 0 ↔ fname.bytes.length ≤ nameLen ∧
        ∃ d, (1 ≤ d ∧ d ≤ img.nDirEntries) ∧ img.name d = fname.bytes) ∧
      (ret = 0 → ∃ d, (1 ≤ d ∧ d ≤ img.nDirEntries) ∧ img.name d = fname.bytes ∧
        (∀ e, 1 ≤ e → e < d → img.name e ≠ fname.bytes) ∧
        dentryFileType dentry' = img.dentryType d ∧
        dentryInodeNum dentry' = if img.dentryType d = regFile then img.dentryInode d else 0) ∧
      (ret ≠ 0 → ret = -1 ∧ dentry' = dentry) := by
  obtain ⟨found, fs', hread, hfound⟩ := readDentryByName_isSome (lookup_eq hn fname) fs
  rw [readDentryByNameTo, hread, Option.map_some]
  -- found or not, the answer is that of the first entry with the name
  rcases found with - | ⟨d, len⟩
  · have hnone := Image.entryOf_eq_none_iff.mp hfound.symm
    refine ⟨-1, dentry, fs', rfl, iff_of_false (by decide) ?_, fun h => absurd h (by decide),
      fun _ => ⟨rfl, rfl⟩⟩
    rintro ⟨-, d, hrange, hname⟩
    exact hnone d hrange.1 hrange.2 hname
  · obtain ⟨hrange, hname, hfirst⟩ := Image.entryOf_eq_some_iff.mp hfound.symm
    refine ⟨0, fillDentry img d len dentry, fs', rfl, iff_of_true rfl ⟨?_, d, hrange, hname⟩,
      fun _ => ⟨d, hrange, hname, hfirst, dentryFileType_fillDentry img d len dentry,
        dentryInodeNum_fillDentry img d len dentry⟩, fun h => absurd rfl h⟩
    rw [← hname]
    exact img.length_name_le d

/-- The directory with the one file `a`. -/
theorem readDentryByName_finds_a :
    tinyImage.nDirEntries ≤ 63 ∧
      ∃ ret dentry fs, readDentryByNameTo tinyImage ⟨[0x61], by simp⟩ (fun _ => 0)
          ⟨fun _ => 0, fun _ => 0, fun _ => 0⟩ = some (ret, dentry, fs) ∧ ret = 0 := by
  have hn : tinyImage.nDirEntries ≤ 63 := by decide +kernel
  obtain ⟨ret, dentry, fs, hread, hfound, -⟩ := readDentryByName_finds tinyImage hn ⟨[0x61], by simp⟩
    (fun _ => 0) ⟨fun _ => 0, fun _ => 0, fun _ => 0⟩
  refine ⟨hn, ret, dentry, fs, hread, hfound.mpr ⟨by decide, 1, by decide +kernel, ?_⟩⟩
  decide +kernel

/-- A file system with a directory whose name has 32 characters, all `b`, and the
program `a`. -/
def longNameImage : Image where
  byte i :=
    if 64 ≤ i ∧ i < 96 then 0x62
    else ([(0, 2), (4, 1), (8, 1), (96, 1), (128, 0x61), (160, 2), (4096, 40), (8192, 0x7F),
      (8193, 0x45), (8194, 0x4C), (8195, 0x46)].lookup i).getD 0

/-- A name of 32 characters, which has no NUL in its field. -/
def longName : CString where
  bytes := List.replicate 32 0x62
  nonzero := fun b hb => by
    rw [List.eq_of_mem_replicate hb]
    decide

end LinuxBasedOs
