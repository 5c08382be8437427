/-
LinuxBasedOs/ReadData.lean

`read_data` (filesys.c): the one routine that follows a file's blocks.

The loop keeps three things in step by hand: the byte offset in the file, the
index of the current block number in the inode, and a pointer into the data
block.  The offset is advanced every time round; the index is advanced when
the offset reaches a block boundary, and again, by a different piece of code,
over every block number that is out of range.

The model records what the call touches: the image words and bytes it loads
and the buffer places it stores to.  Two results are proved of it.

* `readDataAt_ok`: on any image, however malformed, every load is inside
  the inode region or the data region, and every store is inside the buffer.
  The invariant is `Tracks`: the pointer is never further into its block than
  the offset is.
* `readDataAt_file`: on a well-formed file whose index agrees with the
  position (`blockIndex`), the call delivers the next bytes of the file and
  leaves an index that agrees with the new position.
-/
import LinuxBasedOs.Image

namespace LinuxBasedOs

open Bytes

/-! ### The routine -/

/-- The value an `int32_t` takes from 32 bits. -/
def int32 (n : Nat) : Int :=
  if n % 2 ^ 32 < 2 ^ 31 then (n % 2 ^ 32 : Nat) else (n % 2 ^ 32 : Nat) - 2 ^ 32

theorem int32_of_lt {n : Nat} (h : n < 2 ^ 31) : int32 n = n := by
  have h₁ : n % 2 ^ 32 = n := Nat.mod_eq_of_lt (by omega)
  rw [int32, h₁, if_pos h]

/-- A load from the image, with the offset it is made at. -/
inductive Load where
  | inodeWord (off : Nat)
  | dataByte (off : Nat)
deriving DecidableEq

/-- The loop variables that follow the file's blocks. -/
@[ext] structure Scan where
  inodeIdx : Nat
  dnodeNum : Nat
  bytePtr : Nat

/-- The load of entry `idx` of an inode. -/
def inodeLoad (inode idx : Nat) : Load :=
  .inodeWord (inodeOff inode idx % 2 ^ 32)

/-- Go to entry `idx` of the inode: take its block number and point at the
start of that block. -/
def enterBlock (img : Image) (inode idx : Nat) : Scan where
  inodeIdx := idx
  dnodeNum := img.inodeWord inode idx
  bytePtr := img.blockOff (img.inodeWord inode idx)

/-- The `while` loop over block numbers that are out of range.  `left` is the
number of entries behind the current one, `FOUR_KB/4 - 1 - inode_idx`: it is 0
exactly when the incremented index fails the test `inode_idx < FOUR_KB/4`. -/
def skipInvalid (img : Image) (inode : Nat) : (left : Nat) → Scan → List Load × Option Scan
  | 0, c => if img.nDataBlocks ≤ c.dnodeNum then ([], none) else ([], some c)
  | left + 1, c =>
      if img.nDataBlocks ≤ c.dnodeNum then
        let r := skipInvalid img inode left (enterBlock img inode (c.inodeIdx + 1))
        (inodeLoad inode (c.inodeIdx + 1) :: r.1, r.2)
      else ([], some c)

/-- The whole of the `while` loop, from the current entry. -/
def skip (img : Image) (inode : Nat) (c : Scan) : List Load × Option Scan :=
  skipInvalid img inode (1023 - c.inodeIdx) c

/-- Where the byte at `offset` is to be taken from; `none` when the entries of
the inode are used up. -/
def seek (img : Image) (inode offset : Nat) (c : Scan) : List Load × Option Scan :=
  -- at a block boundary, other than the start of the file, move to the next entry
  if offset ≠ 0 ∧ offset % fourKB = 0 then
    if 1024 ≤ c.inodeIdx + 1 then ([], none)
    else
      let r := skip img inode (enterBlock img inode (c.inodeIdx + 1))
      (inodeLoad inode (c.inodeIdx + 1) :: r.1, r.2)
  else skip img inode c

/-- What the copy loop did: the value of `it` it ended with, whether it ran to
its bound, the index it had reached, and what it touched. -/
structure Copied where
  it : Nat
  full : Bool
  inodeIdx : Nat
  stores : List (Nat × UInt8)
  loads : List Load

/-- `for (it = 0; it < length; it++, offset++, byte_ptr++)`, with
`left = length - it`. -/
def copyLoop (img : Image) (inode fileSize : Nat) :
    (left it offset : Nat) → Scan → Copied
  | 0, it, _, c => ⟨it, true, c.inodeIdx, [], []⟩
  | left + 1, it, offset, c =>
      -- all bytes read: end the string in the buffer and stop
      if fileSize ≤ offset then ⟨it, false, c.inodeIdx, [(it, 0)], []⟩
      else
        match seek img inode offset c with
        | (l, none) => ⟨it, false, c.inodeIdx, [(it, 0)], l⟩
        | (l, some c') =>
            let r := copyLoop img inode fileSize left (it + 1) (offset + 1)
              { c' with bytePtr := c'.bytePtr + 1 }
            { r with
              stores := (it, img.load8 c'.bytePtr) :: r.stores
              loads := l ++ Load.dataByte (c'.bytePtr % 2 ^ 32) :: r.loads }

/-- The scan a call starts from: entry `idx` of the inode, at the offset's
place in its block. -/
def startScan (img : Image) (inode idx offset : Nat) : Scan :=
  { enterBlock img inode idx with
    bytePtr := img.blockOff (img.inodeWord inode idx) + offset % fourKB }

/-- What a call of `read_data` did.  `saved` is the block index it writes back
to the descriptor's flags, if it gets that far. -/
structure ReadResult where
  ret : Int
  saved : Option Nat
  stores : List (Nat × UInt8)
  loads : List Load

/-- `read_data`, given the buffer's address and the block index it starts from
(the one in the descriptor's flags, or 0 when `fd` is -1).  Stores are given by
their index in the buffer. -/
def readDataAt (img : Image) (inode offset buf length inodeIdx : Nat) : ReadResult :=
  if buf = 0 then ⟨-1, none, [], []⟩
  else if img.nInodes ≤ inode then ⟨-1, none, [], []⟩
  else if img.fileLength inode ≤ offset then ⟨0, none, [], [inodeLoad inode 0]⟩
  else if 1024 ≤ inodeIdx then ⟨0, none, [], [inodeLoad inode 0]⟩
  else
    let r := copyLoop img inode (img.fileLength inode) length 0 offset
      (startScan img inode inodeIdx offset)
    { ret := int32 r.it
      saved := if r.full then some r.inodeIdx else none
      stores := r.stores
      loads := inodeLoad inode 0 :: inodeLoad inode inodeIdx :: r.loads }

variable {img : Image} {inode : Nat}

/-- The `while` loop, as the source writes it. -/
theorem skip_eq (c : Scan) :
    skip img inode c
      = if img.nDataBlocks ≤ c.dnodeNum then
          if 1024 ≤ c.inodeIdx + 1 then ([], none)
          else
            (inodeLoad inode (c.inodeIdx + 1)
                :: (skip img inode (enterBlock img inode (c.inodeIdx + 1))).1,
              (skip img inode (enterBlock img inode (c.inodeIdx + 1))).2)
        else ([], some c) := by
  have hnext : ∀ left, 1023 - c.inodeIdx = left + 1 →
      skip img inode (enterBlock img inode (c.inodeIdx + 1))
        = skipInvalid img inode left (enterBlock img inode (c.inodeIdx + 1)) := by
    intro left hl
    have hsub : 1023 - (c.inodeIdx + 1) = left := by omega
    rw [skip]
    exact congrArg (fun n => skipInvalid img inode n (enterBlock img inode (c.inodeIdx + 1))) hsub
  by_cases hend : 1024 ≤ c.inodeIdx + 1
  · have h : 1023 - c.inodeIdx = 0 := by omega
    rw [if_pos hend, skip, h, skipInvalid]
  · obtain ⟨left, h⟩ : ∃ left, 1023 - c.inodeIdx = left + 1 := ⟨1022 - c.inodeIdx, by omega⟩
    rw [if_neg hend, hnext left h, skip, h, skipInvalid]

/-! ### Where the scan can be -/

/-- The scan stands in a block of the image, no further into it than `m`
bytes. -/
structure Placed (img : Image) (m : Nat) (c : Scan) : Prop where
  idx_lt : c.inodeIdx < 1024
  ptr : ∃ j, j ≤ m ∧ c.bytePtr = img.blockOff c.dnodeNum + j

/-- The loop invariant: unless the next byte starts a block, in which case the
pointer is about to be replaced, the pointer is no further into its block than
the offset is. -/
def Tracks (img : Image) (offset : Nat) (c : Scan) : Prop :=
  c.inodeIdx < 1024 ∧
    ((offset ≠ 0 ∧ offset % fourKB = 0) ∨ Placed img (offset % fourKB) c)

theorem placed_enterBlock {idx : Nat} (m : Nat) (h : idx < 1024) :
    Placed img m (enterBlock img inode idx) :=
  ⟨h, 0, Nat.zero_le m, (Nat.add_zero _).symm⟩

/-- What the `while` loop can do: it loads the entries it passes, one by one,
and stops at a valid block number, if at all. -/
theorem skipInvalid_spec (inode : Nat) {left m : Nat} {c : Scan} (hleft : c.inodeIdx + left < 1024)
    (hc : Placed img m c) :
    (∀ l ∈ (skipInvalid img inode left c).1, ∃ idx, idx < 1024 ∧ l = inodeLoad inode idx) ∧
    (skipInvalid img inode left c).1.length ≤ left ∧
    ∀ c', (skipInvalid img inode left c).2 = some c' →
      Placed img m c' ∧ c'.dnodeNum < img.nDataBlocks ∧
      c'.inodeIdx = c.inodeIdx + (skipInvalid img inode left c).1.length := by
  induction left generalizing c with
  | zero =>
      -- no entry is left to pass: the scan has ended or stands at a valid one
      by_cases hd : img.nDataBlocks ≤ c.dnodeNum
      · simp [skipInvalid, hd]
      · simp only [skipInvalid, if_neg hd, List.not_mem_nil, List.length_nil, Option.some.injEq]
        refine ⟨fun l hl => hl.elim, Nat.le_refl 0, ?_⟩
        rintro c' rfl
        exact ⟨hc, by omega, rfl⟩
  | succ left ih =>
      by_cases hd : img.nDataBlocks ≤ c.dnodeNum
      · have hnext : (enterBlock img inode (c.inodeIdx + 1)).inodeIdx + left < 1024 := by
          show c.inodeIdx + 1 + left < 1024
          omega
        obtain ⟨hl, hlen, hsome⟩ := ih hnext (placed_enterBlock m (by omega))
        simp only [skipInvalid, if_pos hd, List.mem_cons, List.length_cons]
        refine ⟨?_, by omega, fun c' hc' => ?_⟩
        · rintro l (rfl | hmem)
          · exact ⟨c.inodeIdx + 1, by omega, rfl⟩
          · exact hl l hmem
        · obtain ⟨h₁, h₂, h₃⟩ := hsome c' hc'
          refine ⟨h₁, h₂, ?_⟩
          rw [h₃]
          show c.inodeIdx + 1 + _ = _
          omega
      · simp only [skipInvalid, if_neg hd, List.not_mem_nil, List.length_nil, Option.some.injEq]
        refine ⟨fun l hl => hl.elim, Nat.zero_le _, ?_⟩
        rintro c' rfl
        exact ⟨hc, by omega, rfl⟩

/-- What finding the next byte can do. -/
theorem seek_spec (inode : Nat) {offset : Nat} {c : Scan} (hc : Tracks img offset c) :
    (∀ l ∈ (seek img inode offset c).1, ∃ idx, idx < 1024 ∧ l = inodeLoad inode idx) ∧
    (seek img inode offset c).1.length ≤ 1023 - c.inodeIdx ∧
    ∀ c', (seek img inode offset c).2 = some c' →
      Placed img (offset % fourKB) c' ∧ c'.dnodeNum < img.nDataBlocks ∧
      c'.inodeIdx = c.inodeIdx + (seek img inode offset c).1.length := by
  obtain ⟨hidx, hc⟩ := hc
  -- at a boundary the next entry is loaded first, unless it is the last
  by_cases hb : offset ≠ 0 ∧ offset % fourKB = 0
  · by_cases hend : 1024 ≤ c.inodeIdx + 1
    · simp [seek, hb, hend]
    · have hleft : (enterBlock img inode (c.inodeIdx + 1)).inodeIdx
          + (1023 - (enterBlock img inode (c.inodeIdx + 1)).inodeIdx) < 1024 := by
        show c.inodeIdx + 1 + (1023 - (c.inodeIdx + 1)) < 1024
        omega
      obtain ⟨hl, hlen, hsome⟩ := skipInvalid_spec inode hleft
        (placed_enterBlock (offset % fourKB) (by omega))
      simp only [seek, if_pos hb, if_neg hend, skip, List.mem_cons, List.length_cons]
      refine ⟨?_, ?_, fun c' hc' => ?_⟩
      · rintro l (rfl | hmem)
        · exact ⟨c.inodeIdx + 1, by omega, rfl⟩
        · exact hl l hmem
      · have : (enterBlock img inode (c.inodeIdx + 1)).inodeIdx = c.inodeIdx + 1 := rfl
        omega
      · obtain ⟨h₁, h₂, h₃⟩ := hsome c' hc'
        refine ⟨h₁, h₂, ?_⟩
        rw [h₃]
        show c.inodeIdx + 1 + _ = _
        omega
  · rcases hc with hc | hc
    · exact absurd hc hb
    · simp only [seek, if_neg hb, skip]
      exact skipInvalid_spec inode (by omega) hc

/-- One step further, the invariant holds again: either the next byte starts a
block, or pointer and offset have moved together. -/
theorem Placed.tracks_next {offset : Nat} {c : Scan} (hc : Placed img (offset % fourKB) c) :
    Tracks img (offset + 1) { c with bytePtr := c.bytePtr + 1 } := by
  obtain ⟨hidx, j, hj, hptr⟩ := hc
  refine ⟨hidx, ?_⟩
  by_cases hb : (offset + 1) % fourKB = 0
  · exact Or.inl ⟨by omega, hb⟩
  · have hm : (offset + 1) % fourKB = offset % fourKB + 1 := by
      simp only [fourKB] at hb ⊢
      omega
    refine Or.inr ⟨hidx, j + 1, by omega, ?_⟩
    show c.bytePtr + 1 = img.blockOff c.dnodeNum + (j + 1)
    rw [hptr, Nat.add_assoc]

/-! ### Safety on any image -/

/-- The loads a read of `inode` may make: entries of that inode, and bytes of
numbered data blocks. -/
def Load.Allowed (img : Image) (inode : Nat) (l : Load) : Prop :=
  (∃ idx, idx < 1024 ∧ l = inodeLoad inode idx) ∨
  ∃ d j, d < img.nDataBlocks ∧ j < fourKB ∧ l = .dataByte ((img.blockOff d + j) % 2 ^ 32)

/-- What the copy loop can do, from any scan that tracks the offset. -/
structure CopiedOk (img : Image) (inode fileSize left it offset : Nat) (c : Scan) (r : Copied) :
    Prop where
  loads : ∀ l ∈ r.loads, l.Allowed img inode
  stores : ∀ p ∈ r.stores, it ≤ p.1 ∧ p.1 < it + left ∧ p.1 + offset ≤ it + fileSize
  loads_le : r.loads.length ≤ left + (1023 - c.inodeIdx)
  le_idx : c.inodeIdx ≤ r.inodeIdx
  idx_lt : r.inodeIdx < 1024

theorem copyLoop_ok (inode fileSize left it : Nat) {offset : Nat} {c : Scan}
    (hc : Tracks img offset c) (hle : offset ≤ fileSize) :
    CopiedOk img inode fileSize left it offset c
      (copyLoop img inode fileSize left it offset c) := by
  induction left generalizing it offset c with
  | zero =>
      exact ⟨fun l hl => absurd hl List.not_mem_nil, fun p hp => absurd hp List.not_mem_nil,
        Nat.zero_le _, le_refl _, hc.1⟩
  | succ left ih =>
      obtain ⟨hl, hlen, hsome⟩ := seek_spec inode hc
      have hfirst : ∀ b : UInt8, it ≤ (it, b).1 ∧ (it, b).1 < it + (left + 1) ∧
          (it, b).1 + offset ≤ it + fileSize := fun _ =>
        ⟨le_refl it, Nat.lt_add_of_pos_right (Nat.succ_pos left), Nat.add_le_add_left hle it⟩
      rw [copyLoop]
      by_cases hend : fileSize ≤ offset
      · rw [if_pos hend]
        refine ⟨fun l hl => absurd hl List.not_mem_nil, ?_, Nat.zero_le _, le_refl _, hc.1⟩
        intro p hp
        rw [List.mem_singleton.mp hp]
        exact hfirst 0
      · rw [if_neg hend]
        rcases hseek : seek img inode offset c with ⟨l, - | c'⟩
        · -- the inode is used up
          simp only [hseek] at hl hlen
          refine ⟨fun l' hl' => Or.inl (hl l' hl'), ?_, ?_, le_refl _, hc.1⟩
          · intro p hp
            rw [List.mem_singleton.mp hp]
            exact hfirst 0
          · show l.length ≤ left + 1 + (1023 - c.inodeIdx)
            omega
        · -- a byte of block `c'.dnodeNum` is copied
          simp only [hseek] at hl hlen hsome
          obtain ⟨hplaced, hd, hidx⟩ := hsome c' rfl
          have hr := ih (it + 1) hplaced.tracks_next (by omega)
          have hidx' : c'.inodeIdx < 1024 := hplaced.idx_lt
          obtain ⟨-, j, hj, hptr⟩ := hplaced
          refine ⟨?_, ?_, ?_, ?_, hr.idx_lt⟩
          · intro l' hl'
            rcases List.mem_append.mp hl' with hl' | hl'
            · exact Or.inl (hl l' hl')
            · rcases List.mem_cons.mp hl' with rfl | hl'
              · have hlt : offset % fourKB < fourKB := Nat.mod_lt _ (by decide)
                exact Or.inr ⟨c'.dnodeNum, j, hd, by omega, by rw [hptr]⟩
              · exact hr.loads l' hl'
          · intro p hp
            rcases List.mem_cons.mp hp with rfl | hp
            · exact hfirst _
            · have := hr.stores p hp
              omega
          · have h := hr.loads_le
            simp only [List.length_append, List.length_cons] at h ⊢
            omega
          · have h : c'.inodeIdx ≤ _ := hr.le_idx
            exact le_trans (by omega) h

/-- The scan a call starts from tracks its offset. -/
theorem tracks_startScan (img : Image) (inode offset : Nat) {idx : Nat} (h : idx < 1024) :
    Tracks img offset (startScan img inode idx offset) :=
  ⟨h, Or.inr ⟨h, offset % fourKB, le_refl _, rfl⟩⟩

/-- Where a load may fall: inode words in the inode region, data bytes in the
data region. -/
def Load.InRegion (img : Image) : Load → Prop
  | .inodeWord off => fourKB ≤ off ∧ off + 4 ≤ fourKB * (1 + img.nInodes)
  | .dataByte off =>
      fourKB * (1 + img.nInodes) ≤ off ∧ off < fourKB * (1 + img.nInodes + img.nDataBlocks)

/-- On an image that fits the address space, no allowed load leaves its
region. -/
theorem Load.Allowed.inRegion {l : Load} (hl : l.Allowed img inode) (hi : inode < img.nInodes)
    (hsize : fourKB * (1 + img.nInodes + img.nDataBlocks) < 2 ^ 32) : l.InRegion img := by
  rcases hl with ⟨idx, hidx, rfl⟩ | ⟨d, j, hd, hj, rfl⟩
  · simp only [inodeLoad, Load.InRegion, inodeOff, fourKB] at *
    omega
  · simp only [Load.InRegion, Image.blockOff, fourKB] at *
    omega

/-- What a call of `read_data` can touch, and what it can save in the
descriptor, whatever the image holds. -/
structure ReadOk (img : Image) (inode length inodeIdx : Nat) (r : ReadResult) : Prop where
  loads : ∀ l ∈ r.loads, inode < img.nInodes ∧ l.Allowed img inode
  stores : ∀ p ∈ r.stores, p.1 < length ∧ p.1 ≤ img.fileLength inode
  loads_le : r.loads.length ≤ length + 1025
  saved : ∀ i, r.saved = some i → inodeIdx ≤ i ∧ i < 1024

/-- A call that stops at one of its checks touches at most the length word. -/
theorem ReadOk.early {length inodeIdx : Nat} {ret : Int} {loads : List Load}
    (h : loads = [] ∨ (inode < img.nInodes ∧ loads = [inodeLoad inode 0])) :
    ReadOk img inode length inodeIdx ⟨ret, none, [], loads⟩ := by
  refine ⟨?_, fun p hp => absurd hp List.not_mem_nil, ?_, fun i hi => absurd hi (by simp)⟩
  · rcases h with rfl | ⟨hi, rfl⟩
    · exact fun l hl => absurd hl List.not_mem_nil
    · intro l hl
      rw [List.mem_singleton.mp hl]
      exact ⟨hi, Or.inl ⟨0, by omega, rfl⟩⟩
  · rcases h with rfl | ⟨-, rfl⟩
    · exact Nat.zero_le _
    · show 1 ≤ length + 1025
      omega

theorem readDataAt_ok (img : Image) (inode offset buf length inodeIdx : Nat) :
    ReadOk img inode length inodeIdx (readDataAt img inode offset buf length inodeIdx) := by
  unfold readDataAt
  split_ifs with hbuf hinode hpos hidx
  · exact .early (Or.inl rfl)
  · exact .early (Or.inl rfl)
  · exact .early (Or.inr ⟨by omega, rfl⟩)
  · exact .early (Or.inr ⟨by omega, rfl⟩)
  -- the copy loop is reached
  have hlt : inode < img.nInodes := by omega
  have hidx' : inodeIdx < 1024 := by omega
  have hr := copyLoop_ok inode (img.fileLength inode) length 0
    (tracks_startScan img inode offset hidx') (by omega)
  refine ⟨?_, ?_, ?_, ?_⟩
  · intro l hl
    refine ⟨hlt, ?_⟩
    rcases List.mem_cons.mp hl with rfl | hl
    · exact Or.inl ⟨0, by omega, rfl⟩
    · rcases List.mem_cons.mp hl with rfl | hl
      · exact Or.inl ⟨inodeIdx, hidx', rfl⟩
      · exact hr.loads l hl
  · intro p hp
    have := hr.stores p hp
    omega
  · have h := hr.loads_le
    simp only [List.length_cons] at h ⊢
    omega
  · intro i hi
    simp only at hi
    split_ifs at hi with hfull
    obtain rfl := Option.some.inj hi
    exact ⟨hr.le_idx, hr.idx_lt⟩

theorem copyLoop_it_le (img : Image) (inode fileSize left it offset : Nat) (c : Scan) :
    (copyLoop img inode fileSize left it offset c).it ≤ it + left := by
  induction left generalizing it offset c with
  | zero => exact le_refl it
  | succ left ih =>
      rw [copyLoop]
      split_ifs with hend
      · exact Nat.le_add_right it _
      · rcases seek img inode offset c with ⟨l, - | c'⟩
        · exact Nat.le_add_right it _
        · have h := ih (it + 1) (offset + 1) { c' with bytePtr := c'.bytePtr + 1 }
          show (copyLoop img inode fileSize left (it + 1) (offset + 1)
            { c' with bytePtr := c'.bytePtr + 1 }).it ≤ it + (left + 1)
          omega

/-- Once past its first two checks, `read_data` does not fail. -/
theorem readDataAt_ret_nonneg {offset buf length inodeIdx : Nat} (hbuf : buf ≠ 0)
    (hinode : inode < img.nInodes) (hlength : length < 2 ^ 31) :
    0 ≤ (readDataAt img inode offset buf length inodeIdx).ret := by
  rw [readDataAt, if_neg hbuf, if_neg (by omega)]
  split_ifs
  · exact le_refl 0
  · exact le_refl 0
  · have hle := copyLoop_it_le img inode (img.fileLength inode) length 0 offset
      (startScan img inode inodeIdx offset)
    show 0 ≤ int32 (copyLoop img inode (img.fileLength inode) length 0 offset
      (startScan img inode inodeIdx offset)).it
    rw [int32_of_lt (by omega)]
    exact Int.natCast_nonneg _

/-! ### What a read of a well-formed file delivers -/

/-- An inode whose length fits it and whose blocks are all in range. -/
structure Image.FileOk (img : Image) (inode : Nat) : Prop where
  inode_lt : inode < img.nInodes
  length_le : img.fileLength inode ≤ 1023 * fourKB
  block_lt : ∀ b, b * fourKB < img.fileLength inode → img.dataBlock inode b < img.nDataBlocks

theorem Image.WellFormed.fileOk (h : img.WellFormed) (hi : inode < img.nInodes) :
    img.FileOk inode :=
  ⟨hi, h.length_le inode hi, h.block_lt inode hi⟩

/-- The index that goes with a position: that of the block which holds the
byte before it, or of the first block at the start of the file.  At a block
boundary it lags one behind, and the next read moves it on. -/
def blockIndex (pos : Nat) : Nat :=
  1 + (pos - 1) / fourKB

/-- The scan agrees with the position `offset`. -/
structure Sync (img : Image) (inode offset : Nat) (c : Scan) : Prop where
  idx : c.inodeIdx = blockIndex offset
  dnode : c.dnodeNum = img.inodeWord inode c.inodeIdx
  ptr : ¬ (offset ≠ 0 ∧ offset % fourKB = 0) →
    c.bytePtr = img.blockOff c.dnodeNum + offset % fourKB

/-- The scan that stands at the byte `offset` of the file. -/
def scanAt (img : Image) (inode offset : Nat) : Scan where
  inodeIdx := offset / fourKB + 1
  dnodeNum := img.dataBlock inode (offset / fourKB)
  bytePtr := img.blockOff (img.dataBlock inode (offset / fourKB)) + offset % fourKB

theorem skip_of_valid {c : Scan} (h : c.dnodeNum < img.nDataBlocks) :
    skip img inode c = ([], some c) := by
  rw [skip_eq, if_neg (by omega)]

theorem blockIndex_of_boundary {offset : Nat} (h : offset ≠ 0 ∧ offset % fourKB = 0) :
    blockIndex offset = offset / fourKB := by
  simp only [blockIndex, fourKB] at *
  omega

theorem blockIndex_of_inside {offset : Nat} (h : ¬ (offset ≠ 0 ∧ offset % fourKB = 0)) :
    blockIndex offset = offset / fourKB + 1 := by
  simp only [blockIndex, fourKB] at *
  omega

/-- The start of a block is the scan at its first byte. -/
theorem enterBlock_eq_scanAt {offset : Nat} (h : offset % fourKB = 0) :
    enterBlock img inode (offset / fourKB + 1) = scanAt img inode offset := by
  refine Scan.ext rfl rfl ?_
  show img.blockOff (img.dataBlock inode (offset / fourKB))
    = img.blockOff (img.dataBlock inode (offset / fourKB)) + offset % fourKB
  rw [h, Nat.add_zero]

/-- Inside the file, the next byte is found where the file has it. -/
theorem seek_of_sync {offset : Nat} {c : Scan} (hf : img.FileOk inode)
    (hoff : offset < img.fileLength inode) (hc : Sync img inode offset c) :
    (seek img inode offset c).2 = some (scanAt img inode offset) := by
  have hlen := hf.length_le
  have hvalid : img.dataBlock inode (offset / fourKB) < img.nDataBlocks := by
    refine hf.block_lt _ ?_
    simp only [fourKB] at *
    omega
  by_cases hb : offset ≠ 0 ∧ offset % fourKB = 0
  · -- a block boundary: the lagging index is moved on
    have hidx : c.inodeIdx = offset / fourKB := hc.idx.trans (blockIndex_of_boundary hb)
    have hroom : ¬ 1024 ≤ c.inodeIdx + 1 := by
      simp only [fourKB] at *
      omega
    have hnext : (enterBlock img inode (c.inodeIdx + 1)).dnodeNum < img.nDataBlocks := by
      rw [hidx]
      exact hvalid
    rw [seek, if_pos hb, if_neg hroom, skip_of_valid hnext, hidx, enterBlock_eq_scanAt hb.2]
  · have hidx : c.inodeIdx = offset / fourKB + 1 := hc.idx.trans (blockIndex_of_inside hb)
    have hdnode : c.dnodeNum = img.dataBlock inode (offset / fourKB) := by
      rw [hc.dnode, hidx]
      rfl
    rw [seek, if_neg hb, skip_of_valid (by rw [hdnode]; exact hvalid)]
    obtain ⟨idx, dnode, ptr⟩ := c
    have hptr := hc.ptr hb
    simp only at hidx hdnode hptr
    rw [scanAt, ← hdnode, hidx, hptr]

/-- One byte on, the scan agrees with the position again. -/
theorem sync_next (img : Image) (inode offset : Nat) :
    Sync img inode (offset + 1)
      { scanAt img inode offset with bytePtr := (scanAt img inode offset).bytePtr + 1 } := by
  refine ⟨?_, rfl, fun hb => ?_⟩
  · show offset / fourKB + 1 = blockIndex (offset + 1)
    simp only [blockIndex, Nat.add_sub_cancel]
    omega
  · have hm : (offset + 1) % fourKB = offset % fourKB + 1 := by
      simp only [fourKB] at *
      omega
    simp only [scanAt, hm, Nat.add_assoc]

theorem sync_startScan (img : Image) (inode offset : Nat) :
    Sync img inode offset (startScan img inode (blockIndex offset) offset) :=
  ⟨rfl, rfl, fun _ => rfl⟩

/-- The bytes of the file from `offset` on, `m` of them. -/
def Image.slice (img : Image) (inode offset m : Nat) : List UInt8 :=
  (List.range m).map fun i => img.fileByte inode (offset + i)

@[simp] theorem Image.length_slice (img : Image) (inode offset m : Nat) :
    (img.slice inode offset m).length = m := by
  simp [Image.slice]

theorem Image.slice_eq_content (img : Image) {inode offset m : Nat}
    (h : offset + m ≤ img.fileLength inode) :
    img.slice inode offset m = ((img.content inode).drop offset).take m := by
  refine List.ext_getElem ?_ fun i h₁ h₂ => ?_
  · simp only [Image.length_slice, List.length_take, List.length_drop, Image.length_content]
    omega
  · simp [Image.slice, Image.content]

/-- What the copy loop stores, from a scan that agrees with the position: the
next bytes of the file and, if the file ends first, a NUL after them. -/
structure CopiedFile (img : Image) (inode left it offset : Nat) (r : Copied) : Prop where
  it_eq : r.it = it + min left (img.fileLength inode - offset)
  stores : r.stores = storesAt it
    (img.slice inode offset (min left (img.fileLength inode - offset))
      ++ if left ≤ img.fileLength inode - offset then [] else [0])
  full : r.full = decide (left ≤ img.fileLength inode - offset)
  idx : r.full → r.inodeIdx = blockIndex (offset + left)

/-- **The copy loop follows its scans.**  If the byte at the first place is taken
from `pos offset`, and one byte on from `pos p` leads to `pos (p + 1)`, the loop stores
the bytes at these places, and a NUL after them if the file ends first. -/
theorem copyLoop_of_seek {size : Nat} (pos : Nat → Scan) (left it : Nat) {offset : Nat} {c : Scan}
    (hoff : offset ≤ size)
    (hfirst : offset < size → 0 < left → (seek img inode offset c).2 = some (pos offset))
    (hnext : ∀ p, offset ≤ p → p + 1 < size → p + 1 < offset + left →
      (seek img inode (p + 1) { pos p with bytePtr := (pos p).bytePtr + 1 }).2 =
        some (pos (p + 1))) :
    let r := copyLoop img inode size left it offset c
    r.it = it + min left (size - offset) ∧
    r.stores = storesAt it
      ((List.range (min left (size - offset))).map (fun i => img.load8 (pos (offset + i)).bytePtr)
        ++ if left ≤ size - offset then [] else [0]) ∧
    r.full = decide (left ≤ size - offset) ∧
    (r.full → r.inodeIdx = if left = 0 then c.inodeIdx else (pos (offset + left - 1)).inodeIdx) := by
  induction left generalizing it offset c with
  | zero => exact ⟨by simp [copyLoop], by simp [copyLoop, storesAt], by simp [copyLoop], fun _ => rfl⟩
  | succ left ih =>
      rw [copyLoop]
      by_cases hend : size ≤ offset
      · -- the file ended before the request did
        have h0 : size - offset = 0 := by omega
        rw [if_pos hend]
        exact ⟨by simp [h0], by simp [h0, storesAt], by simp [h0], fun h => absurd h (by simp)⟩
      · rw [if_neg hend]
        have hlt : offset < size := by omega
        have hseek := hfirst hlt (Nat.succ_pos left)
        rcases hs : seek img inode offset c with ⟨l, - | c'⟩
        · rw [hs] at hseek
          cases hseek
        · obtain rfl : c' = pos offset := by
            rw [hs] at hseek
            exact Option.some.inj hseek
          obtain ⟨hit, hstores, hfull, hidx⟩ := ih (it + 1)
            (c := { pos offset with bytePtr := (pos offset).bytePtr + 1 })
            (show offset + 1 ≤ size by omega)
            (fun hlt' hleft => hnext offset (le_refl _) hlt' (by omega))
            (fun p hp hlt' hleft => hnext p (by omega) hlt' (by omega))
          have hmin : min (left + 1) (size - offset) = min left (size - (offset + 1)) + 1 := by omega
          have hle : left + 1 ≤ size - offset ↔ left ≤ size - (offset + 1) := by omega
          have hbytes : (List.range (min left (size - (offset + 1)) + 1)).map
              (fun i => img.load8 (pos (offset + i)).bytePtr) = img.load8 (pos offset).bytePtr ::
                (List.range (min left (size - (offset + 1)))).map
                  (fun i => img.load8 (pos (offset + 1 + i)).bytePtr) := by
            rw [List.range_succ_eq_map, List.map_cons, List.map_map, Nat.add_zero]
            refine congrArg _ (List.map_congr_left fun i _ => ?_)
            show img.load8 (pos (offset + (i + 1))).bytePtr = _
            rw [Nat.add_right_comm, Nat.add_assoc]
          refine ⟨?_, ?_, ?_, fun h => ?_⟩
          · rw [hmin]
            show Copied.it _ = _
            rw [hit]
            omega
          · rw [hmin, hbytes, List.cons_append, storesAt]
            simp only [hle]
            exact congrArg _ hstores
          · show Copied.full _ = _
            rw [hfull]
            congr 1
            exact propext hle.symm
          · show Copied.inodeIdx _ = _
            rw [hidx h, if_neg (Nat.succ_ne_zero left)]
            split_ifs with h0
            · subst h0
              rfl
            · congr 2
              omega

theorem copyLoop_file (hf : img.FileOk inode) (left it : Nat) {offset : Nat} {c : Scan}
    (hoff : offset ≤ img.fileLength inode) (hc : Sync img inode offset c) :
    CopiedFile img inode left it offset
      (copyLoop img inode (img.fileLength inode) left it offset c) := by
  obtain ⟨hit, hstores, hfull, hidx⟩ := copyLoop_of_seek (scanAt img inode) left it hoff
    (fun hlt _ => seek_of_sync hf hlt hc)
    (fun p _ hlt _ => seek_of_sync hf hlt (sync_next img inode p))
  refine ⟨hit, hstores, hfull, fun h => ?_⟩
  rw [hidx h]
  split_ifs with h0
  · rw [h0, Nat.add_zero]
    exact hc.idx
  · show (offset + left - 1) / fourKB + 1 = blockIndex (offset + left)
    rw [blockIndex, Nat.add_comm]

/-- What `read_data` does at the end of the file, whatever the index. -/
theorem readDataAt_end {pos buf length idx : Nat} (hinode : inode < img.nInodes) (hbuf : buf ≠ 0)
    (hend : img.fileLength inode ≤ pos) :
    readDataAt img inode pos buf length idx = ⟨0, none, [], [inodeLoad inode 0]⟩ := by
  rw [readDataAt, if_neg hbuf, if_neg (by omega), if_pos hend]

/-- **A read of a well-formed file.**  From a position and the index that goes
with it, the call returns as many bytes as are asked for and are left, they
are the next bytes of the file, and a read that is not cut short saves the
index that goes with the new position. -/
theorem readDataAt_file (hf : img.FileOk inode) {pos buf : Nat} (length : Nat)
    (hbuf : buf ≠ 0) (hpos : pos ≤ img.fileLength inode) :
    let r := readDataAt img inode pos buf length (blockIndex pos)
    r.ret = min length (img.fileLength inode - pos) ∧
    r.stores = storesAt 0 (img.slice inode pos (min length (img.fileLength inode - pos))
      ++ if pos < img.fileLength inode ∧ img.fileLength inode - pos < length then [0] else []) ∧
    (pos < img.fileLength inode →
      r.saved = if length ≤ img.fileLength inode - pos then some (blockIndex (pos + length))
        else none) ∧
    (img.fileLength inode ≤ pos → r.saved = none) := by
  intro r
  have hlen := hf.length_le
  have hinode : ¬ img.nInodes ≤ inode := by have := hf.inode_lt; omega
  -- at the end of the file nothing is loaded but its length
  by_cases hend : img.fileLength inode ≤ pos
  · have h0 : img.fileLength inode - pos = 0 := by omega
    have hr : r = ⟨0, none, [], [inodeLoad inode 0]⟩ := readDataAt_end hf.inode_lt hbuf hend
    rw [hr]
    have hnot : ¬ (pos < img.fileLength inode ∧ 0 < length) := by omega
    exact ⟨by simp [h0], by simp [h0, hnot, Image.slice, storesAt], fun h => absurd h (by omega),
      fun _ => rfl⟩
  · have hidx : ¬ 1024 ≤ blockIndex pos := by
      simp only [blockIndex, fourKB] at *
      omega
    have hc := copyLoop_file hf length 0 hpos (sync_startScan img inode pos)
    generalize hcopy : copyLoop img inode (img.fileLength inode) length 0 pos
      (startScan img inode (blockIndex pos) pos) = q at hc
    have hr : r = ⟨int32 q.it, if q.full then some q.inodeIdx else none, q.stores,
        inodeLoad inode 0 :: inodeLoad inode (blockIndex pos) :: q.loads⟩ := by
      show readDataAt img inode pos buf length (blockIndex pos) = _
      rw [readDataAt, if_neg hbuf, if_neg hinode, if_neg hend, if_neg hidx, ← hcopy]
    rw [hr]
    have hit := hc.it_eq
    rw [Nat.zero_add] at hit
    refine ⟨?_, ?_, fun _ => ?_, fun h => absurd h hend⟩
    · show int32 q.it = _
      have hsmall : min length (img.fileLength inode - pos) < 2 ^ 31 := by
        simp only [fourKB] at hlen
        omega
      rw [hit, int32_of_lt hsmall]
    · have hstores := hc.stores
      have hlt : pos < img.fileLength inode := by omega
      -- cut short by the end of the file, the read stores a NUL behind it
      by_cases hfit : length ≤ img.fileLength inode - pos
      · have hfit' : ¬ img.fileLength inode - pos < length := by omega
        simpa [hfit, hfit'] using hstores
      · have hfit' : img.fileLength inode - pos < length := by omega
        simpa [hfit, hfit', hlt] using hstores
    · -- only a loop that runs to its bound saves the index
      show (if q.full then some q.inodeIdx else none) = _
      by_cases hfit : length ≤ img.fileLength inode - pos
      · have hfull := hc.full.trans (decide_eq_true hfit)
        rw [if_pos hfull, if_pos hfit, hc.idx hfull]
      · have hfull := hc.full.trans (decide_eq_false hfit)
        rw [hfull, if_neg hfit]
        rfl

end LinuxBasedOs
