/-
LinuxBasedOs/Loader.lean

What `sys_execute_c` gets from `read_data`, which it calls without a descriptor, once
for the header and once for the program.

Such a call starts at entry 0 of the inode.  That entry is the length of the file; the
block numbers start at entry 1.  If the length is no block number of the image, the
loop over invalid block numbers passes over it and all is well.  If it is one, the call
reads that block first and all others 4096 bytes too late:

    byte p of the program = byte p % 4096 of the block in entry p / 4096.

Three results follow.  The call agrees with a read through a fresh descriptor exactly
if the length is not a block number, or the bytes happen to agree (`load_agrees_iff`).
The executable check looks at the file exactly if the file is not empty and these two
blocks agree on the magic number (`execute_check_iff`); of an empty file nothing is
read, and the check looks at what was on the stack.  And as the size of a file is not
looked at, the program stays in its page exactly if it is short enough, the NUL behind
it included (`program_load_iff`).
-/
import LinuxBasedOs.Descriptors
import LinuxBasedOs.ProcessRuns

namespace LinuxBasedOs

open Bytes Transition

variable {img : Image} {inode : Nat}

/-! ### The first block -/

/-- The first entry of the inode, from `idx` on, that holds a block number. -/
def Image.validFrom (img : Image) (inode idx : Nat) : Option Nat :=
  (List.range' idx (1024 - idx)).find? fun j => img.inodeWord inode j < img.nDataBlocks

theorem skipInvalid_find (img : Image) (inode left idx : Nat) :
    (skipInvalid img inode left (enterBlock img inode idx)).2 =
      ((List.range' idx (left + 1)).find? fun j => img.inodeWord inode j < img.nDataBlocks).map
        (enterBlock img inode) := by
  have hdnode : (enterBlock img inode idx).dnodeNum = img.inodeWord inode idx := rfl
  induction left generalizing idx with
  | zero =>
      rw [skipInvalid, hdnode, List.range'_one, List.find?_singleton]
      by_cases hvalid : img.inodeWord inode idx < img.nDataBlocks
      · rw [if_neg (not_le.mpr hvalid), if_pos (decide_eq_true hvalid), Option.map_some]
      · rw [if_pos (not_lt.mp hvalid), if_neg (by simpa using hvalid), Option.map_none]
  | succ left ih =>
      rw [skipInvalid, hdnode, List.range'_succ]
      by_cases hvalid : img.inodeWord inode idx < img.nDataBlocks
      · have hfind : (idx :: List.range' (idx + 1) (left + 1)).find?
            (fun j => decide (img.inodeWord inode j < img.nDataBlocks)) = some idx :=
          List.find?_cons_of_pos (by simpa using hvalid)
        rw [if_neg (not_le.mpr hvalid), hfind, Option.map_some]
      · rw [if_pos (not_lt.mp hvalid), List.find?_cons_of_neg (by simpa using hvalid)]
        exact ih (idx + 1) rfl

/-- The loop over invalid block numbers stops at the first valid one. -/
theorem skip_enterBlock {idx : Nat} (h : idx < 1024) :
    (skip img inode (enterBlock img inode idx)).2 =
      (img.validFrom inode idx).map (enterBlock img inode) := by
  rw [skip, Image.validFrom]
  show (skipInvalid img inode (1023 - idx) _).2 = _
  rw [skipInvalid_find, show 1023 - idx + 1 = 1024 - idx by omega]

theorem startScan_zero (img : Image) (inode idx : Nat) :
    startScan img inode idx 0 = enterBlock img inode idx := by
  refine Scan.ext rfl rfl ?_
  show img.blockOff (img.inodeWord inode idx) + 0 % fourKB = img.blockOff (img.inodeWord inode idx)
  rw [Nat.zero_mod, Nat.add_zero]

theorem skip_of_invalid (idx : Nat) (h : img.nDataBlocks ≤ img.inodeWord inode idx)
    (hidx : idx + 1 < 1024) :
    (skip img inode (enterBlock img inode idx)).2 =
      (skip img inode (enterBlock img inode (idx + 1))).2 := by
  have hsnd : ∀ (l : List Load) (c : Option Scan), (l, c).2 = c := fun _ _ => rfl
  have h' : img.nDataBlocks ≤ (enterBlock img inode idx).dnodeNum := h
  have hidx' : ¬ 1024 ≤ (enterBlock img inode idx).inodeIdx + 1 := not_le.mpr hidx
  rw [skip_eq, if_pos h', if_neg hidx', hsnd]
  rfl

/-- Where a call without a descriptor starts. -/
theorem seek_startScan (img : Image) (inode : Nat) :
    (seek img inode 0 (startScan img inode 0 0)).2 =
      (img.validFrom inode 0).map (enterBlock img inode) := by
  rw [← skip_enterBlock (by decide), seek, if_neg (by decide), startScan_zero]

/-! ### What is loaded -/

/-- Byte `p` of a program that is read one entry too early. -/
def Image.earlyByte (img : Image) (inode p : Nat) : UInt8 :=
  img.load8 (img.blockOff (img.inodeWord inode (p / fourKB)) + p % fourKB)

/-- Byte `p` of what a call without a descriptor reads: of the file, if its length is
not a block number. -/
def Image.loadedByte (img : Image) (inode p : Nat) : UInt8 :=
  if img.nDataBlocks ≤ img.fileLength inode then img.fileByte inode p else img.earlyByte inode p

/-- The scan one entry too early. -/
def earlyAt (img : Image) (inode offset : Nat) : Scan where
  inodeIdx := offset / fourKB
  dnodeNum := img.inodeWord inode (offset / fourKB)
  bytePtr := img.blockOff (img.inodeWord inode (offset / fourKB)) + offset % fourKB

/-- Inside the file, the entries up to the one before its last are block numbers. -/
theorem early_valid (hf : img.FileOk inode) (hearly : img.fileLength inode < img.nDataBlocks)
    {offset : Nat} (hoff : offset < img.fileLength inode) :
    img.inodeWord inode (offset / fourKB) < img.nDataBlocks := by
  rcases Nat.eq_zero_or_pos (offset / fourKB) with h0 | hpos
  · rw [h0]
    exact hearly
  · obtain ⟨b, hb⟩ : ∃ b, offset / fourKB = b + 1 := ⟨offset / fourKB - 1, by omega⟩
    rw [hb]
    refine hf.block_lt b ?_
    simp only [fourKB] at *
    omega

theorem enterBlock_eq_earlyAt {offset : Nat} (h : offset % fourKB = 0) :
    enterBlock img inode (offset / fourKB) = earlyAt img inode offset := by
  refine Scan.ext rfl rfl ?_
  show img.blockOff _ = img.blockOff _ + offset % fourKB
  rw [h, Nat.add_zero]

/-- One byte on, the scan is still one entry early. -/
theorem seek_early (hf : img.FileOk inode) (hearly : img.fileLength inode < img.nDataBlocks)
    {p : Nat} (hoff : p + 1 < img.fileLength inode) :
    (seek img inode (p + 1)
      { earlyAt img inode p with bytePtr := (earlyAt img inode p).bytePtr + 1 }).2 =
        some (earlyAt img inode (p + 1)) := by
  have hvalid := early_valid hf hearly hoff
  have hlen := hf.length_le
  -- at a block boundary the next block is entered, one early like the one before
  by_cases hb : p + 1 ≠ 0 ∧ (p + 1) % fourKB = 0
  · have hidx : p / fourKB + 1 = (p + 1) / fourKB := by
      simp only [fourKB] at *
      omega
    have hroom : ¬ 1024 ≤ p / fourKB + 1 := by
      simp only [fourKB] at *
      omega
    rw [seek, if_pos hb]
    show (if 1024 ≤ p / fourKB + 1 then _ else _ : List Load × Option Scan).2 = _
    rw [if_neg hroom]
    show (skip img inode (enterBlock img inode (p / fourKB + 1))).2 = _
    rw [hidx, skip_of_valid hvalid, enterBlock_eq_earlyAt hb.2]
  · have hidx : (p + 1) / fourKB = p / fourKB := by
      simp only [fourKB] at *
      omega
    have hmod : (p + 1) % fourKB = p % fourKB + 1 := by
      simp only [fourKB] at *
      omega
    rw [hidx] at hvalid
    rw [seek, if_neg hb, skip_of_valid hvalid, earlyAt, earlyAt, hidx, hmod]
    rfl

/-- The places from which the bytes are taken, on time or one entry early. -/
theorem exists_loadScans (hf : img.FileOk inode) (hpos : 0 < img.fileLength inode) :
    ∃ pos : Nat → Scan, (∀ p, img.load8 (pos p).bytePtr = img.loadedByte inode p) ∧
      (seek img inode 0 (startScan img inode 0 0)).2 = some (pos 0) ∧
      ∀ p, p + 1 < img.fileLength inode →
        (seek img inode (p + 1) { pos p with bytePtr := (pos p).bytePtr + 1 }).2 =
          some (pos (p + 1)) := by
  have hseek : (seek img inode 0 (startScan img inode 0 0)).2 =
      (skip img inode (enterBlock img inode 0)).2 := by
    rw [seek, if_neg (by decide), startScan_zero]
  by_cases hlate : img.nDataBlocks ≤ img.fileLength inode
  · -- the length is passed over
    have hblock0 : img.dataBlock inode 0 < img.nDataBlocks := hf.block_lt 0 (by omega)
    refine ⟨scanAt img inode, fun p => ?_, ?_, fun p hlt => seek_of_sync hf hlt (sync_next img inode p)⟩
    · rw [Image.loadedByte, if_pos hlate]
      rfl
    · rw [hseek, skip_of_invalid 0 hlate (by decide), skip_of_valid hblock0]
      exact congrArg some (enterBlock_eq_scanAt (Nat.zero_mod fourKB))
  · have hearly : img.fileLength inode < img.nDataBlocks := not_le.mp hlate
    refine ⟨earlyAt img inode, fun p => ?_, ?_, fun p hlt => seek_early hf hearly hlt⟩
    · rw [Image.loadedByte, if_neg hlate]
      rfl
    · rw [hseek, skip_of_valid hearly]
      exact congrArg some (enterBlock_eq_earlyAt (Nat.zero_mod fourKB))

/-- **What a call without a descriptor reads** of a well-formed file. -/
theorem readData_load (hf : img.FileOk inode) {buf : Nat} (hbuf : buf ≠ 0) (length : Nat) :
    (readData img inode 0 buf length none).ret = (min length (img.fileLength inode) : Nat) ∧
    (readData img inode 0 buf length none).stores = storesAt 0
      ((List.range (min length (img.fileLength inode))).map (img.loadedByte inode) ++
        if 0 < img.fileLength inode ∧ img.fileLength inode < length then [0] else []) := by
  rw [readData]
  -- an empty file is at its end at once
  rcases Nat.eq_zero_or_pos (img.fileLength inode) with h0 | hpos
  · rw [readDataAt_end hf.inode_lt hbuf h0.le, h0, Nat.min_zero]
    exact ⟨rfl, by rw [if_neg (by omega)]; rfl⟩
  have hlen := hf.length_le
  simp only [fourKB] at hlen
  obtain ⟨pos, hbyte, hfirst, hnext⟩ := exists_loadScans hf hpos
  obtain ⟨hit, hstores, -, -⟩ := copyLoop_of_seek pos length 0 hpos.le (fun _ _ => hfirst)
    (fun p _ hlt _ => hnext p hlt)
  rw [readDataAt, if_neg hbuf, if_neg (not_le.mpr hf.inode_lt), if_neg (by omega), if_neg (by decide)]
  refine ⟨?_, ?_⟩
  · show int32 (copyLoop img inode (img.fileLength inode) length 0 0
      (startScan img inode 0 0)).it = _
    rw [hit, Nat.sub_zero, Nat.zero_add, int32_of_lt (by omega)]
  · show (copyLoop img inode (img.fileLength inode) length 0 0 (startScan img inode 0 0)).stores = _
    rw [hstores, Nat.sub_zero]
    simp only [Nat.zero_add, hbyte]
    -- beyond the end of the file a NUL is stored
    by_cases hfit : length ≤ img.fileLength inode
    · rw [if_pos hfit, if_neg (by omega)]
    · rw [if_neg hfit, if_pos (by omega)]

/-! ### Loading and reading -/

/-- What a fresh descriptor reads. -/
theorem fileRead_fresh (hf : img.FileOk inode) {k : Kernel} {fd : Nat}
    (hfd : k.fd fd = ⟨.fileTable, inode, 0, fileFlags⟩) {buf : Nat} (hbuf : buf ≠ 0) (length : Nat) :
    (fileRead img fd buf length k).ret = (min length (img.fileLength inode) : Nat) ∧
    (fileRead img fd buf length k).stores = storesTo buf (storesAt 0
      ((List.range (min length (img.fileLength inode))).map (img.fileByte inode) ++
        if 0 < img.fileLength inode ∧ img.fileLength inode < length then [0] else [])) := by
  have huse : (k.fd fd).InUse := by
    rw [hfd]
    show Flags.InUse fileFlags
    decide
  have htype : (k.fd fd).flags.fileType = regFile := by
    rw [hfd]
    show Flags.fileType fileFlags = regFile
    decide
  have hidx : Flags.inodeIdx fileFlags = blockIndex 0 := by decide
  obtain ⟨hret, hstores, -, -⟩ := readDataAt_file hf length hbuf (Nat.zero_le (img.fileLength inode))
  rw [fileRead_eq img _ hbuf huse htype, hfd]
  simp only [readData, hidx]
  rw [Nat.sub_zero] at hret hstores
  refine ⟨hret, congrArg (storesTo buf) ?_⟩
  rw [hstores, Image.slice]
  simp only [Nat.zero_add]

/-- A byte of a buffer after it has been filled. -/
theorem storeAll_storesTo_range (m : Mem) (buf : Nat) (f : Nat → UInt8) {n : Nat} {tail : List UInt8}
    (hlen : n + tail.length ≤ 2 ^ 32) {p : Nat} (hp : p < n) :
    storeAll m (storesTo buf (storesAt 0 ((List.range n).map f ++ tail))) ((buf + p) % 2 ^ 32) =
      f p := by
  have hlen' : ((List.range n).map f ++ tail).length = n + tail.length := by simp
  have hbyte := storeAll_storesTo m buf 0 (show ((List.range n).map f ++ tail).length ≤ 2 ^ 32 by omega)
    (i := p) (by omega)
  rw [Nat.zero_add] at hbyte
  rw [hbyte, List.getElem_append_left (by simpa using hp), List.getElem_map, List.getElem_range]

/-- Two buffers end up equal exactly if what is stored to them is. -/
theorem storesTo_agree_iff {f g : Nat → UInt8} {n : Nat} {tail : List UInt8}
    (hlen : n + tail.length ≤ 2 ^ 32) (buf : Nat) :
    (∀ m, storeAll m (storesTo buf (storesAt 0 ((List.range n).map f ++ tail))) =
        storeAll m (storesTo buf (storesAt 0 ((List.range n).map g ++ tail)))) ↔
      ∀ p < n, f p = g p := by
  constructor
  · intro h p hp
    rw [← storeAll_storesTo_range (fun _ => 0) buf f hlen hp,
      ← storeAll_storesTo_range (fun _ => 0) buf g hlen hp, h]
  · intro h m
    rw [List.map_congr_left fun p hp => h p (List.mem_range.mp hp)]

/-- **Loading is reading** through a fresh descriptor exactly if the length of the file
is not a block number, or the bytes that are read too early happen to be those of the
file.  The count is always the same.  For every regular file of a well-formed image,
every buffer and every length. -/
theorem load_agrees_iff {img : Image} (hwf : img.WellFormed) {e : Nat} (h1 : 1 ≤ e)
    (hn : e ≤ img.nDirEntries) (htype : img.dentryType e = regFile) {k : Kernel} {fd : Nat}
    (hfd : k.fd fd = img.opened e) {buf : Nat} (hbuf : buf ≠ 0) (length : Nat) :
    let inode := img.dentryInode e
    let count := min length (img.fileLength inode)
    let loaded := readData img inode 0 buf length none
    let read := fileRead img fd buf length k
    read.ret = count ∧ loaded.ret = count ∧
    (∀ m, ∀ p < count, storeAll m read.stores ((buf + p) % 2 ^ 32) = img.fileByte inode p) ∧
    ((∀ m, storeAll m (storesTo buf loaded.stores) = storeAll m read.stores) ↔
      img.nDataBlocks ≤ img.fileLength inode ∨
        ∀ p < count, img.earlyByte inode p = img.fileByte inode p) := by
  intro inode count loaded read
  have hf : img.FileOk inode := hwf.fileOk (hwf.dentry_inode e h1 hn)
  have hlen := hf.length_le
  simp only [fourKB] at hlen
  obtain ⟨hret, hstores⟩ := readData_load hf hbuf length
  obtain ⟨hret', hstores'⟩ := fileRead_fresh hf (hfd.trans (Image.opened_file htype)) hbuf length
  have htail : (if 0 < img.fileLength inode ∧ img.fileLength inode < length then [(0 : UInt8)]
      else []).length ≤ 1 := by
    split_ifs
    · exact le_rfl
    · exact Nat.zero_le 1
  have hcount : count ≤ img.fileLength inode := Nat.min_le_right _ _
  refine ⟨hret', hret, fun m p hp => ?_, ?_⟩
  · rw [hstores']
    exact storeAll_storesTo_range m buf (img.fileByte inode) (by omega) hp
  · -- the two store the same bytes except where the load is early
    rw [hstores, hstores', storesTo_agree_iff (by omega)]
    constructor
    · intro hagree
      by_cases hlate : img.nDataBlocks ≤ img.fileLength inode
      · exact .inl hlate
      · refine .inr fun p hp => ?_
        rw [← hagree p hp, Image.loadedByte, if_neg hlate]
    · intro hcond p hp
      rw [Image.loadedByte]
      split_ifs with hlate
      · rfl
      · exact hcond.resolve_left hlate p hp

/-- All 40 bytes of `a`, through descriptor 2 and without one. -/
theorem load_agrees_tiny :
    let k := final (step tinyImage) tinyBoot [tinyExecute, .open (some tinyName)]
    k.fd 2 = tinyImage.opened 1 ∧
      ∀ m, storeAll m (storesTo 0x8050000 (readData tinyImage 0 0 0x8050000 40 none).stores) =
        storeAll m (fileRead tinyImage 2 0x8050000 40 k).stores := by
  intro k
  have hinode : tinyImage.dentryInode 1 = 0 := by decide +kernel
  have hopened : k.fd 2 = tinyImage.opened 1 :=
    FileDesc.ext (by decide +kernel) (by decide +kernel) (by decide +kernel) (by decide +kernel)
  have hagree := (load_agrees_iff tinyImage_wellFormed (e := 1) (by decide) (by decide +kernel)
    (by decide +kernel) hopened (show 0x8050000 ≠ 0 by decide) 40).2.2.2
  rw [hinode] at hagree
  exact ⟨hopened, hagree.mpr (.inl (by decide +kernel))⟩

/-- As `tinyImage`, but with 50 data blocks, so that the length of `a` is the number of
a block, which holds zeros. -/
def earlyImage : Image where
  byte i := ([(0, 1), (4, 1), (8, 50), (64, 0x61), (96, 2), (4096, 40), (8192, 0x7F), (8193, 0x45),
    (8194, 0x4C), (8195, 0x46)].lookup i).getD 0

theorem earlyImage_wellFormed : earlyImage.WellFormed := by
  have hdir : earlyImage.nDirEntries = 1 := by decide +kernel
  have hinodes : earlyImage.nInodes = 1 := by decide +kernel
  have hlen : earlyImage.fileLength 0 = 40 := by decide +kernel
  refine ⟨fun d h1 h2 => ?_, fun i hi => ?_, fun i hi b hb => ?_⟩
  · obtain rfl : d = 1 := by omega
    decide +kernel
  · obtain rfl : i = 0 := by omega
    decide +kernel
  · obtain rfl : i = 0 := by omega
    obtain rfl : b = 0 := by
      simp only [fourKB] at hb
      omega
    decide +kernel

/-- Without a descriptor the first four bytes of `a` are 0, through a fresh one they are
7F 45 4C 46. -/
theorem load_reads_length_block :
    earlyImage.WellFormed ∧
      (readData earlyImage 0 0 0x8050000 4 none).stores = storesAt 0 [0, 0, 0, 0] ∧
      (readData earlyImage 0 0 0x8050000 4 (some fileFlags)).stores =
        storesAt 0 [0x7F, 0x45, 0x4C, 0x46] :=
  ⟨earlyImage_wellFormed, by decide +kernel, by decide +kernel⟩

/-! ### The executable check -/

/-- A data block begins with the magic number. -/
def Image.BeginsElf (img : Image) (dnode : Nat) : Prop :=
  ∀ p < 4, img.load8 (img.blockOff dnode + p) = elfText p

theorem strncmp_elfText_eq_zero_iff (m : Mem) : strncmp elfText m 4 = 0 ↔ ∀ p < 4, m p = elfText p := by
  have hne : ∀ j, 0 ≤ j → j < 0 + 4 → elfText j ≠ 0 := by decide
  rw [strncmp_eq_zero_iff, string, string, stringFrom_eq_iff hne]
  constructor
  · intro h p hp
    exact (h p (Nat.zero_le p) (by omega)).symm
  · intro h p _ hp
    exact (h p (by omega)).symm

/-- Only a block number is found. -/
theorem validFrom_lt {idx j : Nat} (h : img.validFrom inode idx = some j) :
    img.inodeWord inode j < img.nDataBlocks := by
  have hfound := List.find?_some h
  exact of_decide_eq_true hfound

/-- Without a block, the copy loop stores a NUL and no more. -/
theorem copyLoop_of_seek_none {size offset left : Nat} {c : Scan} (hleft : 0 < left)
    (hlt : offset < size) (hseek : (seek img inode offset c).2 = none) (it : Nat) :
    (copyLoop img inode size left it offset c).it = it ∧
      (copyLoop img inode size left it offset c).stores = [(it, 0)] := by
  obtain ⟨left, rfl⟩ : ∃ n, left = n + 1 := ⟨left - 1, by omega⟩
  rw [copyLoop, if_neg (not_le.mpr hlt)]
  rcases hs : seek img inode offset c with ⟨l, - | c'⟩
  · exact ⟨rfl, rfl⟩
  · rw [hs] at hseek
    cases hseek

/-- The scan at place `p` of the block in entry `j`. -/
def blockAt (img : Image) (inode j p : Nat) : Scan where
  inodeIdx := j
  dnodeNum := img.inodeWord inode j
  bytePtr := img.blockOff (img.inodeWord inode j) + p

theorem seek_blockAt {j p : Nat} (hp : p + 1 < fourKB)
    (hvalid : img.inodeWord inode j < img.nDataBlocks) :
    (seek img inode (p + 1)
      { blockAt img inode j p with bytePtr := (blockAt img inode j p).bytePtr + 1 }).2 =
        some (blockAt img inode j (p + 1)) := by
  have hin : ¬ (p + 1 ≠ 0 ∧ (p + 1) % fourKB = 0) := by
    rw [Nat.mod_eq_of_lt hp]
    omega
  have hnext : Scan.mk (blockAt img inode j p).inodeIdx (blockAt img inode j p).dnodeNum
      ((blockAt img inode j p).bytePtr + 1) = blockAt img inode j (p + 1) :=
    Scan.ext rfl rfl (Nat.add_assoc _ p 1)
  have hvalid' : (blockAt img inode j (p + 1)).dnodeNum < img.nDataBlocks := hvalid
  rw [hnext, seek, if_neg hin, skip_of_valid hvalid']

/-- With a block, up to 4096 bytes are taken from it. -/
theorem copyLoop_block {size j left : Nat} {c : Scan} (hleft : left ≤ fourKB) (hpos : 0 < size)
    (hvalid : img.inodeWord inode j < img.nDataBlocks)
    (hseek : (seek img inode 0 c).2 = some (enterBlock img inode j)) :
    (copyLoop img inode size left 0 0 c).it = min left size ∧
      (copyLoop img inode size left 0 0 c).stores = storesAt 0 ((List.range (min left size)).map
        (fun p => img.load8 (img.blockOff (img.inodeWord inode j) + p)) ++
          if left ≤ size then [] else [0]) := by
  have hfirst : enterBlock img inode j = blockAt img inode j 0 :=
    Scan.ext rfl rfl (Nat.add_zero _).symm
  have hbyte : ∀ p, (blockAt img inode j p).bytePtr = img.blockOff (img.inodeWord inode j) + p :=
    fun _ => rfl
  rw [hfirst] at hseek
  obtain ⟨hit, hstores, -, -⟩ := copyLoop_of_seek (blockAt img inode j) left 0 hpos.le
    (fun _ _ => hseek) (fun p _ _ hlt => seek_blockAt (by omega) hvalid)
  simp only [Nat.sub_zero, Nat.zero_add, hbyte] at hit hstores
  exact ⟨hit, hstores⟩

/-- What a call for up to 4096 bytes reads of a file that is not empty: it takes them
from the first block of the inode, if there is one. -/
theorem readData_first (length : Nat) (hinode : inode < img.nInodes)
    (hpos : 0 < img.fileLength inode) (hlen : 0 < length) (hle : length ≤ fourKB) :
    (readData img inode 0 1 length none).ret ≠ -1 ∧
    (readData img inode 0 1 length none).stores =
      match img.validFrom inode 0 with
      | none => storesAt 0 [0]
      | some j => storesAt 0 ((List.range (min length (img.fileLength inode))).map
          (fun p => img.load8 (img.blockOff (img.inodeWord inode j) + p)) ++
            if length ≤ img.fileLength inode then [] else [0]) := by
  have hseek := seek_startScan img inode
  have hret : ∀ n ≤ fourKB, int32 n ≠ -1 := by
    intro n hn
    simp only [fourKB] at hn
    rw [int32_of_lt (by omega)]
    omega
  rw [readData, readDataAt, if_neg (by decide), if_neg (not_le.mpr hinode), if_neg (not_le.mpr hpos),
    if_neg (by decide)]
  show int32 (copyLoop img inode (img.fileLength inode) length 0 0 (startScan img inode 0 0)).it ≠
      -1 ∧
    (copyLoop img inode (img.fileLength inode) length 0 0 (startScan img inode 0 0)).stores = _
  rcases hj : img.validFrom inode 0 with - | j
  · -- no entry of the inode is a block number
    rw [hj, Option.map_none] at hseek
    obtain ⟨hit, hstores⟩ := copyLoop_of_seek_none hlen hpos hseek 0
    rw [hit, hstores]
    exact ⟨hret 0 (Nat.zero_le _), rfl⟩
  · rw [hj, Option.map_some] at hseek
    obtain ⟨hit, hstores⟩ := copyLoop_block hle hpos (validFrom_lt hj) hseek
    rw [hit, hstores]
    exact ⟨hret _ ((Nat.min_le_left _ _).trans hle), rfl⟩

/-- **The executable check** looks at the block of the first entry that is a block
number, if the file has four bytes, and at the stack, if it is empty. -/
theorem isElf_iff (hinode : inode < img.nInodes) (header : Mem) :
    isElf img inode header ↔
      if img.fileLength inode = 0 then ∀ p < 4, header p = elfText p
      else 4 ≤ img.fileLength inode ∧
        ∃ j, img.validFrom inode 0 = some j ∧ img.BeginsElf (img.inodeWord inode j) := by
  simp only [isElf, strncmp_elfText_eq_zero_iff]
  split_ifs with h0
  · rw [readData, readDataAt_end hinode (by decide) h0.le]
    exact and_iff_right (show (0 : Int) ≠ -1 by decide)
  have hpos : 0 < img.fileLength inode := Nat.pos_of_ne_zero h0
  obtain ⟨hret, hstores⟩ := readData_first 32 hinode hpos (by decide) (by decide)
  rw [and_iff_right hret, hstores]
  have hzero : ∀ p < 4, (0 : UInt8) ≠ elfText p := by decide
  rcases img.validFrom inode 0 with - | j
  · refine iff_of_false (fun h => hzero 0 (by decide) (h 0 (by decide))) ?_
    rintro ⟨-, j, hj, -⟩
    cases hj
  simp only [Option.some.injEq, exists_eq_left']
  generalize hbs : (List.range (min 32 (img.fileLength inode))).map
    (fun p => img.load8 (img.blockOff (img.inodeWord inode j) + p)) = bs
  have hlen : bs.length = min 32 (img.fileLength inode) := by simp [← hbs]
  by_cases h4 : 4 ≤ img.fileLength inode
  · rw [and_iff_right h4, Image.BeginsElf]
    refine forall₂_congr fun p hp => ?_
    have hbyte := storeAll_storesAt header 0
      (bs ++ if 32 ≤ img.fileLength inode then [] else [0]) (i := p)
      (by rw [List.length_append]; omega)
    rw [Nat.zero_add] at hbyte
    rw [hbyte, List.getElem_append_left (by omega)]
    simp only [← hbs, List.getElem_map, List.getElem_range]
  · -- the NUL behind a short file is one of the four bytes
    refine iff_of_false (fun h => ?_) fun h => h4 h.1
    have hbyte := storeAll_storesAt header 0 (bs ++ [0]) (i := img.fileLength inode)
      (by rw [List.length_append, List.length_singleton]; omega)
    rw [Nat.zero_add, List.getElem_append_right (by omega), List.getElem_singleton] at hbyte
    rw [if_neg (by omega)] at h
    exact hzero _ (not_le.mp h4) (hbyte.symm.trans (h _ (not_le.mp h4)))

/-- The file is one that begins with the magic number. -/
def Image.IsElfFile (img : Image) (inode : Nat) : Prop :=
  inode < img.nInodes ∧ img.dataBlock inode 0 < img.nDataBlocks ∧
    (img.content inode).take 4 = [0x7F, 0x45, 0x4C, 0x46]

theorem content_take_iff :
    (img.content inode).take 4 = [0x7F, 0x45, 0x4C, 0x46] ↔
      4 ≤ img.fileLength inode ∧ img.BeginsElf (img.dataBlock inode 0) := by
  have helf : [0x7F, 0x45, 0x4C, 0x46] = (List.range 4).map elfText := by decide
  rw [Image.content, ← List.map_take, List.take_range]
  by_cases h4 : 4 ≤ img.fileLength inode
  · rw [and_iff_right h4, Nat.min_eq_left h4, helf, List.map_inj_left]
    refine forall_congr' fun p => ?_
    rw [List.mem_range]
    refine imp_congr_right fun hp => ?_
    rw [Image.fileByte, Nat.div_eq_of_lt (by simp only [fourKB]; omega),
      Nat.mod_eq_of_lt (by simp only [fourKB]; omega)]
  · refine iff_of_false (fun h => ?_) fun h => h4 h.1
    have hlen := congrArg List.length h
    simp only [List.length_map, List.length_range, List.length_cons, List.length_nil] at hlen
    omega

/-- The check looks at the file: there is something to read, and the block of the first
entry that is a block number (the length counts as an entry) begins with the magic
number exactly if the first block of the file does. -/
def Image.CheckReliable (img : Image) (inode : Nat) : Prop :=
  inode < img.nInodes → 0 < img.fileLength inode ∧ (4 ≤ img.fileLength inode →
    ((∃ j, img.validFrom inode 0 = some j ∧ img.BeginsElf (img.inodeWord inode j)) ↔
      img.dataBlock inode 0 < img.nDataBlocks ∧ img.BeginsElf (img.dataBlock inode 0)))

theorem isElf_reliable_iff (img : Image) (inode : Nat) :
    (∀ header, isElf img inode header ↔ img.IsElfFile inode) ↔ img.CheckReliable inode := by
  unfold Image.IsElfFile Image.CheckReliable
  by_cases hinode : inode < img.nInodes
  · simp only [isElf_iff hinode, hinode, true_and, forall_const, content_take_iff]
    split_ifs with h0
    · -- an empty file passes with one stack and fails with another
      refine iff_of_false (fun h => ?_) fun h => h.1.ne' h0
      have hstale := (h elfText).mp fun _ _ => rfl
      omega
    · rw [and_iff_right (Nat.pos_of_ne_zero h0), and_left_comm, and_congr_right_iff]
      exact forall_const Mem
  · refine iff_of_true (fun header => iff_of_false (fun h => ?_) fun h => hinode h.1)
      fun h => absurd h hinode
    refine h.1 ?_
    rw [readData, readDataAt, if_neg (by decide), if_pos (not_lt.mp hinode)]

/-- The first word of the command is the name of a regular file, that of entry `d`. -/
def Image.NamesFile (img : Image) (command : CString) (d : Nat) : Prop :=
  img.lookup (commandWord command) = some (some d) ∧ img.dentryType d = regFile

instance (img : Image) (command : CString) (d : Nat) : Decidable (img.NamesFile command d) :=
  inferInstanceAs (Decidable (_ ∧ _))

/-- `sys_execute_c` gets past its executable check. -/
def GetsPast (img : Image) (command : CString) (env : ExecEnv) (k : Kernel) : Prop :=
  k.processNumber < 6 ∧
    ∃ d, img.NamesFile command d ∧ isElf img (img.dentryInode d) env.header

/-- Past the check, the program is loaded. -/
theorem sysExecuteC_of_isElf {command : CString} (env : ExecEnv) {k : Kernel} {d : Nat}
    (h6 : k.processNumber < 6) (hd : img.NamesFile command d)
    (helf : isElf img (img.dentryInode d) env.header) :
    ∃ fs, sysExecuteC img command env k =
      load command env (programStores img (img.dentryInode d)) { k with fs := fs } := by
  obtain ⟨found, fs, hread, hfound⟩ := readDentryByName_isSome hd.1 k.fs
  rcases found with - | ⟨e, len⟩
  · cases hfound
  obtain rfl : e = d := Option.some.inj hfound
  refine ⟨fs, ?_⟩
  rw [sysExecuteC, if_neg (not_le.mpr h6), hread, Option.bind_some]
  show (if img.dentryType e ≠ regFile then _ else _) = _
  rw [if_neg (not_not.mpr hd.2), if_neg (not_not.mpr helf)]

/-- Otherwise the call fails, if it returns. -/
theorem sysExecuteC_of_not_getsPast {command : CString} {env : ExecEnv} {k k' : Kernel} {o : Outcome}
    (hnot : ¬ GetsPast img command env k) (h : sysExecuteC img command env k = some (o, k')) :
    o = .ret (-1) := by
  unfold sysExecuteC at h
  split_ifs at h with h6
  · exact (congrArg Prod.fst (Option.some.inj h)).symm
  obtain ⟨⟨found, fs⟩, hread, hr⟩ := Option.bind_eq_some_iff.mp h
  rcases found with - | ⟨d, len⟩
  · exact (congrArg Prod.fst (Option.some.inj hr)).symm
  simp only at hr
  split_ifs at hr with htype helf
  · exact (congrArg Prod.fst (Option.some.inj hr)).symm
  · exact absurd ⟨not_le.mp h6, d, ⟨readDentryByName_lookup hread, not_not.mp htype⟩, helf⟩ hnot
  · exact (congrArg Prod.fst (Option.some.inj hr)).symm

/-- **The executable check** depends on the file alone, and lets no other file through
than one that begins with the magic number, exactly if it is reliable for the file that
the command names.  For every image, every command and whatever the stack holds. -/
theorem execute_check_iff (img : Image) (command : CString) (k : Kernel) :
    (∀ env, GetsPast img command env k → ∃ d fs, sysExecuteC img command env k =
      load command env (programStores img (img.dentryInode d)) { k with fs := fs }) ∧
    (∀ env, ¬ GetsPast img command env k → ∀ o k',
      sysExecuteC img command env k = some (o, k') → o = .ret (-1)) ∧
    ((∀ env, GetsPast img command env k ↔
        k.processNumber < 6 ∧ ∃ d, img.NamesFile command d ∧ img.IsElfFile (img.dentryInode d)) ↔
      (k.processNumber < 6 → ∀ d, img.NamesFile command d →
        img.CheckReliable (img.dentryInode d))) := by
  refine ⟨?_, fun env hnot o k' h => sysExecuteC_of_not_getsPast hnot h, ?_⟩
  · rintro env ⟨h6, d, hd, helf⟩
    exact ⟨d, sysExecuteC_of_isElf env h6 hd helf⟩
  · -- the command names at most one entry
    have hunique : ∀ d e, img.NamesFile command d → img.NamesFile command e → d = e :=
      fun d e hd he => Option.some.inj (Option.some.inj (hd.1.symm.trans he.1))
    constructor
    · intro h h6 d hd
      rw [← isElf_reliable_iff]
      intro header
      constructor
      · intro helf
        obtain ⟨-, e, he, hfile⟩ := (h ⟨header, fun _ => 0, 0⟩).mp ⟨h6, d, hd, helf⟩
        rwa [hunique d e hd he]
      · intro hfile
        obtain ⟨-, e, he, helf⟩ := (h ⟨header, fun _ => 0, 0⟩).mpr ⟨h6, d, hd, hfile⟩
        rwa [hunique d e hd he]
    · intro h env
      refine and_congr_right fun h6 => exists_congr fun d => and_congr_right fun hd => ?_
      exact (isElf_reliable_iff img (img.dentryInode d)).mpr (h h6 d hd) env.header

/-- A file system with one file, `a`, which is empty. -/
def emptyImage : Image where
  byte i := ([(0, 1), (4, 1), (8, 1), (64, 0x61), (96, 2)].lookup i).getD 0

/-- The empty file is run if an earlier header is still on the stack. -/
theorem empty_file_entered :
    emptyImage.content 0 = [] ∧
      (sysExecuteC emptyImage tinyName ⟨elfText, fun _ => 0, 0⟩ tinyBoot).map Prod.fst =
        some .entered ∧
      (sysExecuteC emptyImage tinyName ⟨fun _ => 0, fun _ => 0, 0⟩ tinyBoot).map Prod.fst =
        some (.ret (-1)) := by
  refine ⟨?_, by decide +kernel, by decide +kernel⟩
  decide +kernel

/-! ### The size of a program -/

/-- A buffer stays in the program page exactly if the last store does. -/
theorem storesTo_userProg_iff {bs : List UInt8} (hlen : bs.length ≤ 0x400000) :
    (∀ q ∈ storesTo userProg (storesAt 0 bs), userProg ≤ q.1 ∧ q.1 < 0x08400000) ↔
      bs.length ≤ 0x3B8000 := by
  constructor
  · intro h
    by_contra hlong
    have hmem := mem_storesAt 0 (not_le.mp hlong)
    have hlast := (h _ (mem_storesTo.mpr ⟨_, hmem, rfl⟩)).2
    simp only [userProg] at hlast
    omega
  · intro h q hq
    obtain ⟨p, hp, rfl⟩ := mem_storesTo.mp hq
    have hrange := le_of_mem_storesAt hp
    simp only [userProg]
    omega

/-- The stores of a program load stay in the page exactly if the NUL behind the program
does. -/
theorem programStores_iff (hf : img.FileOk inode) :
    (∀ q ∈ programStores img inode, userProg ≤ q.1 ∧ q.1 < 0x08400000) ↔
      img.fileLength inode < 0x3B8000 := by
  have hle := hf.length_le
  simp only [fourKB] at hle
  rw [programStores, (readData_load hf (show userProg ≠ 0 by decide) 0x400000).2]
  have hlength : ∀ n, n ≤ 1023 * 4096 → ((List.range (min 0x400000 n)).map (img.loadedByte inode) ++
      if 0 < n ∧ n < 0x400000 then [0] else []).length = if 0 < n then n + 1 else 0 := by
    intro n hn
    rw [List.length_append, List.length_map, List.length_range, Nat.min_eq_right (by omega)]
    split_ifs with h₁ h₂ h₂
    · rfl
    · exact absurd h₁.1 h₂
    · exact absurd ⟨h₂, by omega⟩ h₁
    · exact Nat.eq_zero_of_not_pos h₂
  have hbound : ∀ n, n ≤ 1023 * 4096 → (if 0 < n then n + 1 else 0) ≤ 0x400000 ∧
      ((if 0 < n then n + 1 else 0) ≤ 0x3B8000 ↔ n < 0x3B8000) := by
    intro n hn
    split_ifs
    all_goals omega
  rw [storesTo_userProg_iff ((hlength _ hle).le.trans (hbound _ hle).1), hlength _ hle,
    (hbound _ hle).2]

/-- Loading a program from a consistent state ends in a fault if some store is behind the
program page, which has been switched by then. -/
theorem load_faults {L : Layout} {k : Kernel} (h : k.Inv L) (h6 : k.processNumber < 6)
    {command : CString} (hcommand : command.bytes.length < 1024) (env : ExecEnv)
    {program : List (Nat × UInt8)}
    (hrange : ∀ q ∈ program, userProg ≤ q.1 ∧ q.1 < userProg + 0x400000)
    (hout : ¬ ∀ q ∈ program, q.1 < 0x08400000) :
    load command env program k = some (.fault, k.loading) := by
  obtain ⟨page, hpage⟩ : ∃ page, k.paging.getBigPage proAddr = some page := by
    rw [h.paging]
    exact getBigPage_paged L h.base_lt
  have hnone : k.loading.storeAll program = none := by
    rw [Option.eq_none_iff_forall_ne_some]
    intro k' hst
    exact hout (storeAll_program (h.loading_paging h6) (by omega) (by omega) hrange hst).2
  rw [load, if_neg (not_le.mpr hcommand), hpage]
  simp only [hnone]

/-- **The program load** stays in the program page, and is not begun for a program that
does not fit, exactly if the file is shorter than the room above `USER_PROG`.  For every
executable file of a well-formed image. -/
theorem program_load_iff {img : Image} (hwf : img.WellFormed) {command : CString} (env : ExecEnv)
    {k : Kernel} (h6 : k.processNumber < 6) {d : Nat} (hd : img.NamesFile command d)
    (helf : isElf img (img.dentryInode d) env.header) :
    let inode := img.dentryInode d
    (∃ fs, sysExecuteC img command env k =
      load command env (programStores img inode) { k with fs := fs }) ∧
    (((∀ q ∈ programStores img inode, userProg ≤ q.1 ∧ q.1 < 0x08400000) ∧
        (0x3B8000 < img.fileLength inode →
          ∃ fs, sysExecuteC img command env k = some (.ret (-1), { k with fs := fs }))) ↔
      img.fileLength inode < 0x3B8000) := by
  intro inode
  obtain ⟨h1, hn⟩ := lookup_range hd.1
  have hf : img.FileOk inode := hwf.fileOk (hwf.dentry_inode d h1 hn)
  refine ⟨sysExecuteC_of_isElf env h6 hd helf, ?_⟩
  rw [programStores_iff hf]
  constructor
  · intro h
    exact h.1
  · intro hsize
    exact ⟨hsize, fun hlong => absurd hlong (lt_asymm hsize)⟩

/-- The 40 bytes of `a` and their NUL. -/
theorem program_load_tiny :
    tinyImage.fileLength 0 = 40 ∧
      ∀ q ∈ programStores tinyImage 0, userProg ≤ q.1 ∧ q.1 < 0x08400000 := by
  have hd : tinyImage.NamesFile tinyName 1 := by decide +kernel
  have hinode : tinyImage.dentryInode 1 = 0 := by decide +kernel
  have hload := (program_load_iff tinyImage_wellFormed ⟨fun _ => 0, fun _ => 0, 0⟩
    (show tinyBoot.processNumber < 6 by decide) hd (by decide +kernel)).2
  rw [hinode] at hload
  exact ⟨by decide +kernel, (hload.mpr (by decide +kernel)).1⟩

/-- The bytes of `largeImage` that are not 0. -/
def largeBytes : List (Nat × UInt8) :=
  [(0, 2), (4, 2), (8, 1), (64, 0x61), (96, 2), (128, 0x62), (160, 2), (164, 1), (4096, 40),
    (8193, 0x90), (8194, 0x3B), (12288, 0x7F), (12289, 0x45), (12290, 0x4C), (12291, 0x46)]

/-- As `tinyImage`, with a second executable file, `b`, of 0x3B9000 bytes; its blocks are
all the same one. -/
def largeImage : Image where
  byte i := (largeBytes.lookup i).getD 0

theorem b_nonzero : ∀ c ∈ ([0x62] : List UInt8), c ≠ 0 :=
  List.forall_mem_singleton.mpr (by decide)

/-- A command that names no file. -/
def bName : CString where
  bytes := [0x62]
  nonzero := b_nonzero

theorem largeImage_byte {i : Nat} (h₁ : 8195 ≤ i) (h₂ : i < 12288) : largeImage.byte i = 0 := by
  have hkeys : ∀ p ∈ largeBytes, p.1 ≤ 8194 ∨ 12288 ≤ p.1 := by decide
  have hnone : largeBytes.lookup i = none := by
    rw [List.lookup_eq_none_iff]
    intro p hp
    rw [bne_iff_ne]
    have hkey := hkeys p hp
    omega
  show (largeBytes.lookup i).getD 0 = 0
  rw [hnone, Option.getD_none]

/-- The block numbers of `b` are all 0. -/
theorem largeImage_dataBlock {b : Nat} (hb : b < 1023) : largeImage.dataBlock 1 b = 0 := by
  have hload : ∀ i < 4, largeImage.load8 (8196 + 4 * b + i) = 0 := by
    intro i hi
    rw [Image.load8, Nat.mod_eq_of_lt (by omega)]
    exact largeImage_byte (by omega) (by omega)
  have hoff : inodeOff 1 (b + 1) = 8196 + 4 * b := by
    simp only [inodeOff, fourKB]
    omega
  rw [Image.dataBlock, Image.inodeWord, hoff, Image.load32, word, hload 1 (by decide),
    hload 2 (by decide), hload 3 (by decide), ← Nat.add_zero (8196 + 4 * b), hload 0 (by decide)]
  rfl

theorem largeImage_wellFormed : largeImage.WellFormed := by
  have hdir : largeImage.nDirEntries = 2 := by decide +kernel
  have hinodes : largeImage.nInodes = 2 := by decide +kernel
  refine ⟨fun d h1 h2 => ?_, fun i hi => ?_, fun i hi b hb => ?_⟩
  · obtain rfl | rfl : d = 1 ∨ d = 2 := by omega
    · decide +kernel
    · decide +kernel
  · obtain rfl | rfl : i = 0 ∨ i = 1 := by omega
    · decide +kernel
    · decide +kernel
  · obtain rfl | rfl : i = 0 ∨ i = 1 := by omega
    · have hlen : largeImage.fileLength 0 = 40 := by decide +kernel
      obtain rfl : b = 0 := by
        simp only [fourKB] at hb
        omega
      decide +kernel
    · have hlen : largeImage.fileLength 1 = 0x3B9000 := by decide +kernel
      rw [largeImage_dataBlock (by simp only [fourKB] at hb; omega)]
      decide +kernel

/-- While `a` runs, executing `b` faults, with the program page already switched to that
of the next process. -/
theorem long_program_faults :
    let k := final (step largeImage) tinyBoot [tinyExecute]
    largeImage.WellFormed ∧ largeImage.fileLength 1 = 0x3B9000 ∧ k.paging.base = 2 ∧
      ∃ k', sysExecuteC largeImage bName ⟨fun _ => 0, fun _ => 0, 0⟩ k = some (.fault, k') ∧
        k'.paging.base = 3 := by
  intro k
  have hd : largeImage.NamesFile bName 2 := by decide +kernel
  have hinode : largeImage.dentryInode 2 = 1 := by decide +kernel
  have hsize : largeImage.fileLength 1 = 0x3B9000 := by decide +kernel
  have h6 : k.processNumber < 6 := by decide +kernel
  have hinv : k.Inv tinyLayout := by
    obtain ⟨os, hrun⟩ := run_final (step largeImage) tinyBoot [tinyExecute] (by decide +kernel)
    exact run_boot_inv (by decide +kernel) hrun
  have hf : largeImage.FileOk 1 := largeImage_wellFormed.fileOk (by decide +kernel)
  obtain ⟨fs, hload⟩ := sysExecuteC_of_isElf ⟨fun _ => 0, fun _ => 0, 0⟩ h6 hd
    (by decide +kernel)
  rw [hinode] at hload
  -- the last bytes of the program lie behind its page
  have hout : ¬ ∀ q ∈ programStores largeImage 1, q.1 < 0x08400000 := by
    intro hin
    have hshort := (programStores_iff hf).mp fun q hq =>
      ⟨(programStores_range largeImage 1 q hq).1, hin q hq⟩
    omega
  have hinv' : ({ k with fs := fs } : Kernel).Inv tinyLayout := ⟨⟨hinv.le_six, hinv.curPcb,
    hinv.esp0, hinv.base_lt, hinv.paging, hinv.live, hinv.keyboard⟩, hinv.base⟩
  rw [load_faults hinv' h6 (by decide) _ (programStores_range largeImage 1) hout] at hload
  exact ⟨largeImage_wellFormed, hsize, by decide +kernel, _, hload, hinv'.loading_base h6⟩

end LinuxBasedOs
