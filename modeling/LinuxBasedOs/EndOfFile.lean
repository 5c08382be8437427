/-
LinuxBasedOs/EndOfFile.lean

Where a file ends for a reader who calls `file_read` again and again.

`read_data` stops early in two places.  At the length of the file it is the position
that tells the next call so.  When the entries of the inode are used up, the position
moves on as well, but the index is not written back to the descriptor: the next call
starts at the old entry, finds blocks behind it, and delivers them a second time.

`Image.available` counts the bytes that are left in the blocks.  It is what the loop
goes by (`copyLoop_delivers`): a call delivers as many bytes as are asked for, left in
the file, and available, and a call that delivers all that was asked for leaves so many
less.  The bytes of the blocks of an inode are numbered through (`copyPlaces`), and
between one call and the next stands a `frontier`: what has been delivered lies before
it, what is still to come behind it.

Main result: the end is the end, and no byte of a block is delivered twice, exactly if
the file is not longer than its blocks can fill, or no block lies behind the current
one (`end_of_file_iff`).
-/
import LinuxBasedOs.Loader

namespace LinuxBasedOs

open Bytes Transition

variable {img : Image} {inode : Nat}

/-! ### The blocks that are left -/

/-- The number of entries of the inode, from `idx` on, that hold a block number. -/
def Image.blocksFrom (img : Image) (inode idx : Nat) : Nat :=
  (List.range' idx (1024 - idx)).countP fun j => img.inodeWord inode j < img.nDataBlocks

theorem blocksFrom_of_le {idx : Nat} (h : 1024 ≤ idx) : img.blocksFrom inode idx = 0 := by
  rw [Image.blocksFrom, Nat.sub_eq_zero_of_le h]
  rfl

theorem blocksFrom_eq {idx : Nat} (h : idx < 1024) :
    img.blocksFrom inode idx = img.blocksFrom inode (idx + 1) +
      if img.inodeWord inode idx < img.nDataBlocks then 1 else 0 := by
  rw [Image.blocksFrom, show 1024 - idx = 1024 - (idx + 1) + 1 by omega, List.range'_succ,
    List.countP_cons, Image.blocksFrom]
  simp only [decide_eq_true_eq]

theorem validFrom_eq {idx : Nat} (h : idx < 1024) :
    img.validFrom inode idx = if img.inodeWord inode idx < img.nDataBlocks then some idx
      else img.validFrom inode (idx + 1) := by
  rw [Image.validFrom, show 1024 - idx = 1024 - (idx + 1) + 1 by omega, List.range'_succ]
  by_cases hvalid : img.inodeWord inode idx < img.nDataBlocks
  · rw [if_pos hvalid]
    exact List.find?_cons_of_pos (by simpa using hvalid)
  · rw [if_neg hvalid, Image.validFrom]
    exact List.find?_cons_of_neg (by simpa using hvalid)

theorem validFrom_of_le {idx : Nat} (h : 1024 ≤ idx) : img.validFrom inode idx = none := by
  rw [Image.validFrom, Nat.sub_eq_zero_of_le h]
  rfl

/-- The search for a block number and the count agree. -/
theorem validFrom_cases (img : Image) (inode idx : Nat) :
    (img.validFrom inode idx = none ∧ img.blocksFrom inode idx = 0) ∨
      ∃ j, img.validFrom inode idx = some j ∧ idx ≤ j ∧ j < 1024 ∧
        img.inodeWord inode j < img.nDataBlocks ∧
        img.blocksFrom inode idx = img.blocksFrom inode (j + 1) + 1 := by
  induction hleft : 1024 - idx generalizing idx with
  | zero =>
      have hend : 1024 ≤ idx := by omega
      exact .inl ⟨validFrom_of_le hend, blocksFrom_of_le hend⟩
  | succ left ih =>
      have hlt : idx < 1024 := by omega
      rw [validFrom_eq hlt, blocksFrom_eq hlt]
      by_cases hvalid : img.inodeWord inode idx < img.nDataBlocks
      · rw [if_pos hvalid, if_pos hvalid]
        exact .inr ⟨idx, rfl, le_rfl, hlt, hvalid, rfl⟩
      · rw [if_neg hvalid, if_neg hvalid, Nat.add_zero]
        rcases ih (idx + 1) (by omega) with hnone | ⟨j, hj, hle, hrest⟩
        · exact .inl hnone
        · exact .inr ⟨j, hj, by omega, hrest⟩

theorem blocksFrom_le (img : Image) (inode idx : Nat) : img.blocksFrom inode idx ≤ 1024 := by
  refine List.countP_le_length.trans ?_
  rw [List.length_range']
  omega

theorem blocksFrom_anti {idx idx' : Nat} (h : idx ≤ idx') :
    img.blocksFrom inode idx' ≤ img.blocksFrom inode idx := by
  induction idx', h using Nat.le_induction with
  | base => exact le_rfl
  | succ i _ ih =>
      refine le_trans ?_ ih
      rcases Nat.lt_or_ge i 1024 with hlt | hge
      · rw [blocksFrom_eq hlt]
        exact Nat.le_add_right _ _
      · rw [blocksFrom_of_le (hge.trans i.le_succ)]
        exact Nat.zero_le _

/-- The entry at which the byte at `offset` is looked for first. -/
def entryFor (offset idx : Nat) : Nat :=
  if offset ≠ 0 ∧ offset % fourKB = 0 then idx + 1 else idx

/-- The number of bytes that the blocks have left for a reader at `offset`, with index
`idx`. -/
def Image.available (img : Image) (inode offset idx : Nat) : Nat :=
  fourKB * img.blocksFrom inode (entryFor offset idx) - offset % fourKB

/-- To a reader at the start of the file all blocks are left. -/
theorem available_zero (img : Image) (inode idx : Nat) :
    img.available inode 0 idx = fourKB * img.blocksFrom inode idx := by
  rw [Image.available, entryFor, if_neg fun h => h.1 rfl, Nat.zero_mod, Nat.sub_zero]

/-- The number of the first byte that may still come, when the bytes of the blocks of an
inode are numbered through. -/
def frontier (offset idx : Nat) : Nat := fourKB * entryFor offset idx + offset % fourKB

/-- One byte further, a block has ended or the place in it is the next one. -/
theorem entryFor_next (offset j : Nat) :
    ((offset + 1) % fourKB = 0 ∧ offset % fourKB + 1 = fourKB ∧ entryFor (offset + 1) j = j + 1) ∨
      ((offset + 1) % fourKB = offset % fourKB + 1 ∧ entryFor (offset + 1) j = j) := by
  rw [entryFor]
  by_cases hend : (offset + 1) % fourKB = 0
  · rw [if_pos ⟨Nat.succ_ne_zero offset, hend⟩]
    refine .inl ⟨hend, ?_, rfl⟩
    simp only [fourKB] at hend ⊢
    omega
  · rw [if_neg fun h => hend h.2]
    refine .inr ⟨?_, rfl⟩
    simp only [fourKB] at hend ⊢
    omega

theorem frontier_next (offset j : Nat) : fourKB * j + offset % fourKB < frontier (offset + 1) j := by
  rcases entryFor_next offset j with ⟨hmod, hend, hentry⟩ | ⟨hmod, hentry⟩
  · rw [frontier, hentry, hmod, Nat.mul_succ]
    omega
  · rw [frontier, hentry, hmod]
    omega

/-! ### One byte further -/

/-- The scan is at the entry it has the block number of, and tracks its offset. -/
structure Follows (img : Image) (inode offset : Nat) (c : Scan) : Prop where
  tracks : Tracks img offset c
  dnode : c.dnodeNum = img.inodeWord inode c.inodeIdx

theorem follows_startScan (img : Image) (inode offset : Nat) {idx : Nat} (h : idx < 1024) :
    Follows img inode offset (startScan img inode idx offset) :=
  ⟨tracks_startScan img inode offset h, rfl⟩

/-- The number of the byte that the scan stands at. -/
def Scan.place (img : Image) (c : Scan) : Nat :=
  fourKB * c.inodeIdx + (c.bytePtr - img.blockOff c.dnodeNum)

/-- The first number that a scan may still come to. -/
def Scan.ahead (img : Image) (offset : Nat) (c : Scan) : Nat :=
  if offset ≠ 0 ∧ offset % fourKB = 0 then fourKB * (c.inodeIdx + 1) else c.place img

theorem ahead_startScan (img : Image) (inode idx offset : Nat) :
    (startScan img inode idx offset).ahead img offset = frontier offset idx := by
  have hplace : (startScan img inode idx offset).place img = fourKB * idx + offset % fourKB := by
    show fourKB * idx + (img.blockOff (img.inodeWord inode idx) + offset % fourKB -
      img.blockOff (img.inodeWord inode idx)) = _
    rw [Nat.add_sub_cancel_left]
  rw [Scan.ahead, hplace, frontier, entryFor]
  split_ifs with hb
  · rw [hb.2]
    rfl
  · rfl

theorem place_enterBlock (img : Image) (inode j : Nat) :
    (enterBlock img inode j).place img = fourKB * j := by
  show fourKB * j + (img.blockOff (img.inodeWord inode j) - img.blockOff (img.inodeWord inode j)) = _
  rw [Nat.sub_self, Nat.add_zero]

/-- A scan that stands in a block. -/
theorem Placed.place_le {offset : Nat} {c : Scan} (h : Placed img (offset % fourKB) c) :
    c.place img ≤ fourKB * c.inodeIdx + offset % fourKB := by
  obtain ⟨-, j, hj, hptr⟩ := h
  rw [Scan.place, hptr, Nat.add_sub_cancel_left]
  exact Nat.add_le_add_left hj _

/-- Where the next byte is found. -/
theorem seek_eq_validFrom {offset : Nat} {c : Scan} (h : Follows img inode offset c) :
    (seek img inode offset c).2 =
      (img.validFrom inode (entryFor offset c.inodeIdx)).map fun j =>
        if j = c.inodeIdx then c else enterBlock img inode j := by
  have hlt := h.tracks.1
  have hsnd : ∀ (l : List Load) (c : Option Scan), (l, c).2 = c := fun _ _ => rfl
  -- behind the current entry the scan is at the start of a block
  have hbehind : (img.validFrom inode (c.inodeIdx + 1)).map (enterBlock img inode) =
      (img.validFrom inode (c.inodeIdx + 1)).map fun j =>
        if j = c.inodeIdx then c else enterBlock img inode j := by
    rcases validFrom_cases img inode (c.inodeIdx + 1) with ⟨hnone, -⟩ | ⟨j, hj, hle, -⟩
    · rw [hnone]
      rfl
    · rw [hj, Option.map_some, Option.map_some, if_neg (by omega)]
  -- both a block boundary and an invalid entry make the scan go on to the next entry
  have hnext : (if 1024 ≤ c.inodeIdx + 1 then ([], none)
      else
        (inodeLoad inode (c.inodeIdx + 1) ::
            (skip img inode (enterBlock img inode (c.inodeIdx + 1))).1,
          (skip img inode (enterBlock img inode (c.inodeIdx + 1))).2) : List Load × Option Scan).2 =
      (img.validFrom inode (c.inodeIdx + 1)).map fun j =>
        if j = c.inodeIdx then c else enterBlock img inode j := by
    by_cases hend : 1024 ≤ c.inodeIdx + 1
    · rw [if_pos hend, validFrom_of_le hend]
      rfl
    · rw [if_neg hend, hsnd, skip_enterBlock (not_le.mp hend)]
      exact hbehind
  rw [seek, entryFor]
  by_cases hb : offset ≠ 0 ∧ offset % fourKB = 0
  · rw [if_pos hb, if_pos hb]
    exact hnext
  · rw [if_neg hb, if_neg hb, skip_eq, h.dnode, validFrom_eq hlt]
    by_cases hvalid : img.inodeWord inode c.inodeIdx < img.nDataBlocks
    · rw [if_neg (not_le.mpr hvalid), if_pos hvalid, Option.map_some, if_pos rfl]
    · rw [if_pos (not_lt.mp hvalid), if_neg hvalid]
      exact hnext

/-- What finding the next byte can do: stay in the current block, or go to the start of a
later one. -/
theorem seek_cases {offset : Nat} {c c' : Scan} (h : Follows img inode offset c)
    (hseek : (seek img inode offset c).2 = some c') :
    entryFor offset c.inodeIdx ≤ c'.inodeIdx ∧ c'.inodeIdx < 1024 ∧
      c'.dnodeNum = img.inodeWord inode c'.inodeIdx ∧
      img.blocksFrom inode (entryFor offset c.inodeIdx) =
        img.blocksFrom inode (c'.inodeIdx + 1) + 1 ∧
      (c' = c ∨ c'.inodeIdx ≠ c.inodeIdx ∧ c' = enterBlock img inode c'.inodeIdx) := by
  rw [seek_eq_validFrom h] at hseek
  obtain ⟨j, hj, hc'⟩ := Option.map_eq_some_iff.mp hseek
  rcases validFrom_cases img inode (entryFor offset c.inodeIdx) with
    ⟨hnone, -⟩ | ⟨j', hj', hentry, hlt, -, hcount⟩
  · rw [hnone] at hj
    cases hj
  obtain rfl : j' = j := Option.some.inj (hj'.symm.trans hj)
  split_ifs at hc' with heq
  · subst hc' heq
    exact ⟨hentry, hlt, h.dnode, hcount, .inl rfl⟩
  · subst hc'
    exact ⟨hentry, hlt, rfl, hcount, .inr ⟨heq, rfl⟩⟩

/-- What one round of the copy loop does to the count and to the place. -/
structure Advances (img : Image) (inode offset : Nat) (c c' : Scan) : Prop where
  placed : Placed img (offset % fourKB) c'
  follows : Follows img inode (offset + 1) { c' with bytePtr := c'.bytePtr + 1 }
  idx_le : c.inodeIdx ≤ c'.inodeIdx
  available : img.available inode offset c.inodeIdx =
    img.available inode (offset + 1) c'.inodeIdx + 1
  ahead_le : c.ahead img offset ≤ c'.place img
  place_lt : c'.place img < Scan.ahead img (offset + 1) { c' with bytePtr := c'.bytePtr + 1 }
  frontier_le : frontier offset c.inodeIdx ≤ fourKB * c'.inodeIdx + offset % fourKB

/-- A byte of block `j` is taken, and one less is available. -/
theorem available_next {offset idx j : Nat} (hj : j < 1024)
    (hvalid : img.inodeWord inode j < img.nDataBlocks)
    (hcount : img.blocksFrom inode (entryFor offset idx) = img.blocksFrom inode (j + 1) + 1) :
    img.available inode offset idx = img.available inode (offset + 1) j + 1 := by
  have hmod : offset % fourKB < fourKB := Nat.mod_lt _ (by decide)
  have hself : img.blocksFrom inode j = img.blocksFrom inode (j + 1) + 1 := by
    rw [blocksFrom_eq hj, if_pos hvalid]
  rw [Image.available, Image.available, hcount, Nat.mul_succ]
  rcases entryFor_next offset j with ⟨hmod', hend, hnew⟩ | ⟨hmod', hnew⟩
  · rw [hnew, hmod']
    omega
  · rw [hnew, hmod', hself, Nat.mul_succ]
    omega

/-- The place moves on with the pointer. -/
theorem Placed.place_next {m : Nat} {c : Scan} (h : Placed img m c) :
    Scan.place img { c with bytePtr := c.bytePtr + 1 } = c.place img + 1 := by
  obtain ⟨-, q, -, hptr⟩ := h
  show fourKB * c.inodeIdx + (c.bytePtr + 1 - img.blockOff c.dnodeNum) =
    fourKB * c.inodeIdx + (c.bytePtr - img.blockOff c.dnodeNum) + 1
  rw [hptr]
  omega

theorem seek_advances {offset : Nat} {c c' : Scan} (h : Follows img inode offset c)
    (hseek : (seek img inode offset c).2 = some c') : Advances img inode offset c c' := by
  obtain ⟨hplaced, hvalid, hidx⟩ := (seek_spec inode h.tracks).2.2 c' hseek
  obtain ⟨hentry, hlt, hdnode, hcount, hwhere⟩ := seek_cases h hseek
  have hle := hplaced.place_le
  have hmod : offset % fourKB < fourKB := Nat.mod_lt _ (by decide)
  refine ⟨hplaced, ⟨hplaced.tracks_next, hdnode⟩, by omega,
    available_next hlt (hdnode ▸ hvalid) hcount, ?_, ?_, ?_⟩
  · rcases hwhere with rfl | ⟨hne, hc'⟩
    · -- the same block, so the byte does not start one
      have hin : ¬ (offset ≠ 0 ∧ offset % fourKB = 0) := by
        intro hb
        rw [entryFor, if_pos hb] at hentry
        omega
      rw [Scan.ahead, if_neg hin]
    · have hlate : fourKB * (c.inodeIdx + 1) ≤ c'.place img := by
        rw [hc', place_enterBlock]
        exact Nat.mul_le_mul_left _ (by omega)
      rw [Scan.ahead]
      split_ifs with hb
      · exact hlate
      · have hin := (h.tracks.2.resolve_left hb).place_le
        rw [Nat.mul_succ] at hlate
        omega
  · rw [Scan.ahead]
    split_ifs with hb
    · show c'.place img < fourKB * (c'.inodeIdx + 1)
      rw [Nat.mul_succ]
      omega
    · rw [hplaced.place_next]
      exact Nat.lt_succ_self _
  · exact Nat.add_le_add_right (Nat.mul_le_mul_left _ hentry) _

/-- When there is no next byte, none is available. -/
theorem available_of_seek_none {offset : Nat} {c : Scan} (h : Follows img inode offset c)
    (hseek : (seek img inode offset c).2 = none) : img.available inode offset c.inodeIdx = 0 := by
  rw [seek_eq_validFrom h, Option.map_eq_none_iff] at hseek
  rcases validFrom_cases img inode (entryFor offset c.inodeIdx) with ⟨-, hcount⟩ | ⟨j, hj, -⟩
  · rw [Image.available, hcount, Nat.mul_zero, Nat.zero_sub]
  · rw [hseek] at hj
    cases hj

/-! ### One call -/

/-- Byte number `p` of the blocks of an inode. -/
def Image.blockByte (img : Image) (inode p : Nat) : UInt8 :=
  img.load8 (img.blockOff (img.inodeWord inode (p / fourKB)) + p % fourKB)

theorem Placed.blockByte_place {offset : Nat} {c : Scan} (h : Placed img (offset % fourKB) c)
    (hdnode : c.dnodeNum = img.inodeWord inode c.inodeIdx) :
    img.blockByte inode (c.place img) = img.load8 c.bytePtr := by
  obtain ⟨-, q, hq, hptr⟩ := h
  have hlt : q < fourKB := hq.trans_lt (Nat.mod_lt _ (by decide))
  rw [Image.blockByte, Scan.place, hptr, Nat.add_sub_cancel_left, Nat.mul_add_div (by decide),
    Nat.div_eq_of_lt hlt, Nat.add_zero, Nat.mul_add_mod, Nat.mod_eq_of_lt hlt, hdnode]

/-- The bytes that the copy loop delivers, by their numbers. -/
def copyPlaces (img : Image) (inode fileSize : Nat) : (left offset : Nat) → Scan → List Nat
  | 0, _, _ => []
  | left + 1, offset, c =>
      if fileSize ≤ offset then []
      else
        match (seek img inode offset c).2 with
        | none => []
        | some c' =>
            c'.place img ::
              copyPlaces img inode fileSize left (offset + 1) { c' with bytePtr := c'.bytePtr + 1 }

/-- What the copy loop does from any scan: it delivers as many bytes as are asked for,
left in the file, and available; if these are all that were asked for, so many less are
available then. -/
structure Delivers (img : Image) (inode fileSize left it offset : Nat) (c : Scan) (r : Copied)
    (ps : List Nat) : Prop where
  it_eq : r.it = it + ps.length
  length_eq : ps.length = min left (min (fileSize - offset) (img.available inode offset c.inodeIdx))
  full_iff : r.full = true ↔ ps.length = left
  stores : r.stores = storesAt it (ps.map (img.blockByte inode) ++ if r.full then [] else [0])
  ordered : ps.Pairwise (· < ·)
  ahead_le : ∀ p ∈ ps, c.ahead img offset ≤ p
  idx_le : c.inodeIdx ≤ r.inodeIdx
  available : r.full = true → img.available inode offset c.inodeIdx =
    img.available inode (offset + left) r.inodeIdx + left
  frontier_le : r.full = true → frontier offset c.inodeIdx ≤ frontier (offset + left) r.inodeIdx
  lt_frontier : r.full = true → ∀ p ∈ ps, p < frontier (offset + left) r.inodeIdx

/-- A round in which nothing is delivered is the last one. -/
theorem Delivers.stop {fileSize left it offset : Nat} {c : Scan} {loads : List Load}
    (h : min (fileSize - offset) (img.available inode offset c.inodeIdx) = 0) :
    Delivers img inode fileSize (left + 1) it offset c ⟨it, false, c.inodeIdx, [(it, 0)], loads⟩ [] where
  it_eq := rfl
  length_eq := by
    rw [h, Nat.min_zero]
    rfl
  full_iff := iff_of_false Bool.false_ne_true (Nat.succ_ne_zero left).symm
  stores := rfl
  ordered := .nil
  ahead_le := List.forall_mem_nil _
  idx_le := le_rfl
  available := fun hf => absurd hf Bool.false_ne_true
  frontier_le := fun hf => absurd hf Bool.false_ne_true
  lt_frontier := fun hf => absurd hf Bool.false_ne_true

theorem copyLoop_delivers (fileSize left it : Nat) {offset : Nat} {c : Scan}
    (h : Follows img inode offset c) :
    Delivers img inode fileSize left it offset c (copyLoop img inode fileSize left it offset c)
      (copyPlaces img inode fileSize left offset c) := by
  induction left generalizing it offset c with
  | zero =>
      refine ⟨rfl, (Nat.zero_min _).symm, iff_of_true rfl rfl, rfl, .nil, ?_, le_rfl,
        fun _ => rfl, fun _ => le_rfl, ?_⟩
      · exact List.forall_mem_nil _
      · exact fun _ p hp => absurd hp List.not_mem_nil
  | succ left ih =>
      rw [copyLoop, copyPlaces]
      by_cases hend : fileSize ≤ offset
      · rw [if_pos hend, if_pos hend]
        refine .stop ?_
        rw [Nat.sub_eq_zero_of_le hend, Nat.zero_min]
      rw [if_neg hend, if_neg hend]
      rcases hs : seek img inode offset c with ⟨l, - | c'⟩
      · -- the inode is used up
        refine .stop ?_
        rw [available_of_seek_none h (congrArg Prod.snd hs), Nat.min_zero]
      -- a byte is delivered
      have hadv := seek_advances h (congrArg Prod.snd hs)
      obtain ⟨hit, hlen, hfull, hstores, hord, hahead, hidx, havail, hfront, hlt⟩ :=
        ih (it + 1) hadv.follows
      have havail₁ := hadv.available
      have hplace := hadv.placed.place_le
      have hnext := frontier_next offset c'.inodeIdx
      have hshift : offset + 1 + left = offset + (left + 1) := by omega
      rw [hshift] at havail hfront hlt
      refine ⟨?_, ?_, ?_, ?_, ?_, ?_, hadv.idx_le.trans hidx, ?_, ?_, ?_⟩
      · rw [List.length_cons]
        show (copyLoop img inode fileSize left (it + 1) (offset + 1) _).it = _
        omega
      · rw [List.length_cons, hlen, havail₁]
        show min left (min (fileSize - (offset + 1)) (img.available inode (offset + 1) c'.inodeIdx)) + 1 = _
        omega
      · rw [List.length_cons, Nat.add_right_cancel_iff]
        exact hfull
      · rw [List.map_cons, hadv.placed.blockByte_place hadv.follows.dnode]
        exact congrArg _ hstores
      · exact List.pairwise_cons.mpr ⟨fun p hp => hadv.place_lt.trans_le (hahead p hp), hord⟩
      · intro p hp
        rcases List.mem_cons.mp hp with hp | hp
        · rw [hp]
          exact hadv.ahead_le
        · exact hadv.ahead_le.trans (hadv.place_lt.le.trans (hahead p hp))
      · intro hf
        have hrest := havail hf
        show img.available inode offset c.inodeIdx = _ + (left + 1)
        have hc' : img.available inode (offset + 1) c'.inodeIdx = _ := hrest
        rw [havail₁, hc', Nat.add_assoc]
      · intro hf
        exact (hadv.frontier_le.trans hnext.le).trans (hfront hf)
      · intro hf p hp
        rcases List.mem_cons.mp hp with hp | hp
        · rw [hp]
          exact (hplace.trans_lt hnext).trans_le (hfront hf)
        · exact hlt hf p hp

/-- A descriptor that `file_read` accepts; `file_pos` has 32 bits. -/
structure FileDesc.Regular (d : FileDesc) : Prop where
  inUse : d.InUse
  fileType : d.flags.fileType = regFile
  filePos_lt : d.filePos < 2 ^ 32

/-- What the blocks have left for the reader of a descriptor. -/
def FileDesc.available (img : Image) (d : FileDesc) : Nat :=
  img.available d.inode d.filePos d.flags.inodeIdx

/-- How far the reads through a descriptor have come. -/
def FileDesc.frontier (d : FileDesc) : Nat := LinuxBasedOs.frontier d.filePos d.flags.inodeIdx

/-- The bytes that a call of `file_read` delivers, by their numbers. -/
def FileDesc.places (img : Image) (d : FileDesc) (nbytes : Nat) : List Nat :=
  if d.inode < img.nInodes ∧ d.filePos < img.fileLength d.inode ∧ d.flags.inodeIdx < 1024 then
    copyPlaces img d.inode (img.fileLength d.inode) nbytes d.filePos
      (startScan img d.inode d.flags.inodeIdx d.filePos)
  else []

theorem available_of_le {offset idx : Nat} (h : 1024 ≤ idx) : img.available inode offset idx = 0 := by
  have hentry : 1024 ≤ entryFor offset idx := by
    rw [entryFor]
    split_ifs
    · omega
    · exact h
  rw [Image.available, blocksFrom_of_le hentry, Nat.mul_zero, Nat.zero_sub]

theorem fileLength_lt (img : Image) (inode : Nat) : img.fileLength inode < 2 ^ 32 := by
  rw [Image.fileLength, Image.inodeWord]
  exact img.load32_lt _

/-- What a call that delivers `ps` makes of descriptor `d`. -/
structure FileDesc.Advanced (img : Image) (d : FileDesc) (n : Nat) (ps : List Nat) (d' : FileDesc) :
    Prop where
  regular : d'.Regular
  inode_eq : d'.inode = d.inode
  length_eq : ps.length = min n (min (img.fileLength d.inode - d.filePos) (d.available img))
  filePos : d'.filePos = d.filePos + ps.length
  ordered : ps.Pairwise (· < ·)
  frontier_le : ∀ p ∈ ps, d.frontier ≤ p
  full_idx : ps.length = n → d.flags.inodeIdx ≤ d'.flags.inodeIdx
  full_available : ps.length = n → d.available img = d'.available img + n
  full_frontier : ps.length = n → d.frontier ≤ d'.frontier ∧ ∀ p ∈ ps, p < d'.frontier
  short_idx : ps.length < n → d'.flags.inodeIdx = d.flags.inodeIdx

theorem toNat_advance {pos n : Nat} (h : pos + n < 2 ^ 32) :
    (((pos : Int) + (n : Int)) % 2 ^ 32).toNat = pos + n := by
  omega

theorem FileDesc.advance_none {d : FileDesc} (h : d.Regular) : d.advance none 0 = d := by
  exact FileDesc.ext rfl rfl (toNat_advance (n := 0) h.filePos_lt) rfl

/-- A call that stops at one of its checks changes nothing. -/
theorem FileDesc.Advanced.refl {d : FileDesc} (h : d.Regular) {n : Nat} (hn : 0 < n)
    (hend : min (img.fileLength d.inode - d.filePos) (d.available img) = 0) :
    d.Advanced img n [] d where
  regular := h
  inode_eq := rfl
  length_eq := by
    rw [hend, Nat.min_zero]
    rfl
  filePos := rfl
  ordered := .nil
  frontier_le := List.forall_mem_nil _
  full_idx := fun _ => le_rfl
  full_available := fun hfull => absurd hfull hn.ne
  full_frontier := fun hfull => absurd hfull hn.ne
  short_idx := fun _ => rfl

/-- What the copy loop makes of a descriptor. -/
theorem Delivers.advanced {d : FileDesc} (h : d.Regular) {n : Nat} {c : Scan} {q : Copied}
    {ps : List Nat} (hpos : d.filePos ≤ img.fileLength d.inode)
    (hd : Delivers img d.inode (img.fileLength d.inode) n 0 d.filePos c q ps)
    (hc : c.inodeIdx = d.flags.inodeIdx) (hahead : c.ahead img d.filePos = d.frontier)
    (hidx : q.inodeIdx < 1024) :
    d.Advanced img n ps (d.advance (if q.full then some q.inodeIdx else none) ps.length) := by
  have hlen := hd.length_eq
  rw [hc] at hlen
  have hlt32 : d.filePos + ps.length < 2 ^ 32 := by
    have hrest : ps.length ≤ img.fileLength d.inode - d.filePos :=
      hlen ▸ (Nat.min_le_right _ _).trans (Nat.min_le_left _ _)
    exact (Nat.add_le_of_le_sub' hpos hrest).trans_lt (fileLength_lt img d.inode)
  have hnew := toNat_advance hlt32
  have hfront : ∀ p ∈ ps, d.frontier ≤ p := fun p hp => hahead ▸ hd.ahead_le p hp
  by_cases hfull : q.full = true
  · -- the index is saved
    have hall := hd.full_iff.mp hfull
    have hq : q.inodeIdx < 4096 := hidx.trans (by decide)
    have hqidx : (d.advance (some q.inodeIdx) ps.length).flags.inodeIdx = q.inodeIdx :=
      Flags.inodeIdx_saveIdx d.flags hq
    have hqpos : (d.advance (some q.inodeIdx) ps.length).filePos = d.filePos + n :=
      hnew.trans (congrArg _ hall)
    have hidx_le := hd.idx_le
    have havail := hd.available hfull
    have hfront_le := hd.frontier_le hfull
    rw [hc] at hidx_le havail hfront_le
    rw [if_pos hfull]
    refine ⟨⟨(Flags.inUse_saveIdx _ hq).mpr h.inUse, (Flags.fileType_saveIdx _ hq).trans h.fileType, ?_⟩,
      rfl, hlen, hnew, hd.ordered, hfront, fun _ => ?_, fun _ => ?_, fun _ => ⟨?_, ?_⟩, fun hlt => ?_⟩
    · rw [hqpos, ← hall]
      exact hlt32
    · rw [hqidx]
      exact hidx_le
    · rw [FileDesc.available, FileDesc.available, hqidx, hqpos]
      exact havail
    · rw [FileDesc.frontier, FileDesc.frontier, hqidx, hqpos]
      exact hfront_le
    · rw [FileDesc.frontier, hqidx, hqpos]
      exact hd.lt_frontier hfull
    · exact absurd hall hlt.ne
  · -- the index is lost
    have hshort : ps.length ≠ n := fun hall => hfull (hd.full_iff.mpr hall)
    rw [if_neg hfull]
    exact ⟨⟨h.inUse, h.fileType, hnew.trans_lt hlt32⟩, rfl, hlen, hnew, hd.ordered, hfront,
      fun hall => absurd hall hshort, fun hall => absurd hall hshort,
      fun hall => absurd hall hshort, fun _ => rfl⟩

/-- `read_data` on an inode, past its checks. -/
theorem readDataAt_loop {pos buf n idx : Nat} (hbuf : buf ≠ 0) (hinode : inode < img.nInodes)
    (hpos : pos < img.fileLength inode) (hidx : idx < 1024) :
    let q := copyLoop img inode (img.fileLength inode) n 0 pos (startScan img inode idx pos)
    (readDataAt img inode pos buf n idx).ret = int32 q.it ∧
      (readDataAt img inode pos buf n idx).saved = (if q.full then some q.inodeIdx else none) ∧
      (readDataAt img inode pos buf n idx).stores = q.stores := by
  rw [readDataAt, if_neg hbuf, if_neg (not_le.mpr hinode), if_neg (not_le.mpr hpos),
    if_neg (not_le.mpr hidx)]
  exact ⟨rfl, rfl, rfl⟩

/-- **One `read_data` on a descriptor**, for every image: it returns the number of bytes
it delivers, stores these bytes (and a NUL, if it stops early in the loop), and moves the
descriptor on. -/
theorem FileDesc.Regular.readData {d : FileDesc} (h : d.Regular) (hinode : d.inode < img.nInodes)
    {buf n : Nat} (hbuf : buf ≠ 0) (hn : 0 < n) (hlt : n < 2 ^ 31) :
    let r := readData img d.inode d.filePos buf n (some d.flags)
    r.ret = (d.places img n).length ∧
      (∃ tail : List UInt8, tail.length ≤ 1 ∧
        r.stores = storesAt 0 ((d.places img n).map (img.blockByte d.inode) ++ tail)) ∧
      d.Advanced img n (d.places img n) (d.advance r.saved r.ret) := by
  intro r
  by_cases hgo : d.inode < img.nInodes ∧ d.filePos < img.fileLength d.inode ∧ d.flags.inodeIdx < 1024
  · -- the copy loop is reached
    obtain ⟨-, hpos, hidx⟩ := hgo
    have hplaces : d.places img n = _ := if_pos ⟨hinode, hpos, hidx⟩
    have hd := copyLoop_delivers (img.fileLength d.inode) n 0
      (follows_startScan img d.inode d.filePos hidx)
    have hok := copyLoop_ok d.inode (img.fileLength d.inode) n 0
      (tracks_startScan img d.inode d.filePos hidx) hpos.le
    obtain ⟨hret, hsaved, hstores⟩ := readDataAt_loop (n := n) hbuf hinode hpos hidx
    have hadv := hd.advanced h hpos.le rfl (ahead_startScan img d.inode d.flags.inodeIdx d.filePos)
      hok.idx_lt
    have hle := hd.length_eq.trans_le (Nat.min_le_left _ _)
    rw [hd.it_eq, Nat.zero_add, int32_of_lt (hle.trans_lt hlt)] at hret
    rw [hd.stores] at hstores
    rw [← hsaved, ← hret] at hadv
    rw [hplaces]
    refine ⟨hret, ⟨_, ?_, hstores⟩, hadv⟩
    split_ifs
    · exact Nat.zero_le 1
    · exact le_rfl
  · -- nothing is read
    have hplaces : d.places img n = [] := if_neg hgo
    have hr : r.ret = 0 ∧ r.saved = none ∧ r.stores = [] := by
      show (readDataAt img d.inode d.filePos buf n d.flags.inodeIdx).ret = 0 ∧
        (readDataAt img d.inode d.filePos buf n d.flags.inodeIdx).saved = none ∧
        (readDataAt img d.inode d.filePos buf n d.flags.inodeIdx).stores = []
      rw [readDataAt, if_neg hbuf, if_neg (not_le.mpr hinode)]
      split_ifs with hpos hidx
      · exact ⟨rfl, rfl, rfl⟩
      · exact ⟨rfl, rfl, rfl⟩
      · exact absurd ⟨hinode, not_le.mp hpos, not_le.mp hidx⟩ hgo
    have hend : min (img.fileLength d.inode - d.filePos) (d.available img) = 0 := by
      by_cases hpos : d.filePos < img.fileLength d.inode
      · have hidx : 1024 ≤ d.flags.inodeIdx := not_lt.mp fun hidx => hgo ⟨hinode, hpos, hidx⟩
        rw [FileDesc.available, available_of_le hidx, Nat.min_zero]
      · rw [Nat.sub_eq_zero_of_le (not_lt.mp hpos), Nat.zero_min]
    rw [hplaces, hr.1, hr.2.1, hr.2.2, FileDesc.advance_none h]
    exact ⟨rfl, ⟨[], Nat.zero_le 1, rfl⟩, .refl h hn hend⟩

/-! ### Call after call -/

/-- What the reader sees of one call, and which bytes it was. -/
structure Portion where
  nbytes : Nat
  ret : Int
  places : List Nat

/-- Calls of `file_read` on descriptor `fd`, one after the other, each with its buffer
and its size. -/
def fileReads (img : Image) (fd : Nat) : Kernel → List (Nat × Nat) → List Portion
  | _, [] => []
  | k, (buf, nbytes) :: calls =>
      let e := fileRead img fd buf nbytes k
      ⟨nbytes, e.ret, (k.fd fd).places img nbytes⟩ :: fileReads img fd (e.after k) calls

/-- A call that asks for something, and says where to put it. -/
def Asks (c : Nat × Nat) : Prop := c.1 ≠ 0 ∧ 0 < c.2 ∧ c.2 < 2 ^ 31

/-- The first of several calls. -/
theorem fileReads_cons {fd : Nat} {k : Kernel} (h : (k.fd fd).Regular)
    (hinode : (k.fd fd).inode < img.nInodes) {c : Nat × Nat} (hc : Asks c) (calls : List (Nat × Nat)) :
    ∃ ps k', fileReads img fd k (c :: calls) = ⟨c.2, ps.length, ps⟩ :: fileReads img fd k' calls ∧
      (k.fd fd).Advanced img c.2 ps (k'.fd fd) := by
  obtain ⟨hret, -, hadv⟩ := h.readData hinode hc.1 hc.2.1 hc.2.2
  refine ⟨(k.fd fd).places img c.2, (fileRead img fd c.1 c.2 k).after k, ?_, ?_⟩
  · rw [fileReads, ← hret, fileRead_eq img c.2 hc.1 h.inUse h.fileType]
  · rw [fileRead_eq img c.2 hc.1 h.inUse h.fileType]
    show (k.fd fd).Advanced img c.2 _ ((k.setFd fd _).fd fd)
    rw [Kernel.fd_setFd]
    exact hadv

/-- There is nothing more to come. -/
structure FileDesc.Ended (img : Image) (d : FileDesc) : Prop where
  regular : d.Regular
  inode_lt : d.inode < img.nInodes
  nothing : min (img.fileLength d.inode - d.filePos) (d.available img) = 0

/-- The end of this file will be the end: the blocks have room for what is left of it,
or there is no block behind the current one. -/
structure FileDesc.Ends (img : Image) (d : FileDesc) : Prop where
  regular : d.Regular
  inode_lt : d.inode < img.nInodes
  fits : img.fileLength d.inode ≤ d.filePos + d.available img ∨
    img.blocksFrom d.inode (d.flags.inodeIdx + 1) = 0

theorem FileDesc.Ended.step {d d' : FileDesc} {n : Nat} {ps : List Nat} (h : d.Ended img)
    (hadv : d.Advanced img n ps d') (hn : 0 < n) : ps = [] ∧ d'.Ended img := by
  have hlen := hadv.length_eq
  have hpos := hadv.filePos
  rw [h.nothing, Nat.min_zero] at hlen
  rw [hlen, Nat.add_zero] at hpos
  have hidx := hadv.short_idx (by omega)
  refine ⟨List.length_eq_zero_iff.mp hlen, hadv.regular, hadv.inode_eq ▸ h.inode_lt, ?_⟩
  rw [FileDesc.available, hadv.inode_eq, hpos, hidx]
  exact h.nothing

/-- When the blocks run out before the file does, the position is at the end of a block,
and the blocks behind the old entry are what the next call finds. -/
theorem available_at_end {offset idx : Nat} (h : 0 < img.available inode offset idx) :
    img.available inode (offset + img.available inode offset idx) idx =
      fourKB * img.blocksFrom inode (idx + 1) := by
  have hmod : offset % fourKB < fourKB := Nat.mod_lt _ (by decide)
  have hdiv := Nat.div_add_mod offset fourKB
  generalize hB : img.blocksFrom inode (entryFor offset idx) = B
  have hT : img.available inode offset idx = fourKB * B - offset % fourKB := by
    rw [Image.available, hB]
  have hpos : offset + img.available inode offset idx = fourKB * (offset / fourKB + B) := by
    rw [Nat.mul_add]
    omega
  have hzero : (offset + img.available inode offset idx) % fourKB = 0 := by
    rw [hpos, Nat.mul_mod_right]
  rw [Image.available, hzero, entryFor, if_pos ⟨by omega, hzero⟩, Nat.sub_zero]

theorem FileDesc.Ends.step {d d' : FileDesc} {n : Nat} {ps : List Nat} (h : d.Ends img)
    (hadv : d.Advanced img n ps d') :
    (ps.length = n ∧ d'.Ends img) ∨ (ps.length < n ∧ d'.Ended img) := by
  have hlen := hadv.length_eq
  have hpos := hadv.filePos
  rcases Nat.lt_or_ge ps.length n with hshort | hfull
  · -- the call is short: at the end of the file, or of the blocks
    refine .inr ⟨hshort, hadv.regular, hadv.inode_eq ▸ h.inode_lt, ?_⟩
    rw [hadv.inode_eq]
    by_cases hend : img.fileLength d.inode - d.filePos ≤ d.available img
    · rw [Nat.sub_eq_zero_of_le (by omega), Nat.zero_min]
    · have hlast : img.blocksFrom d.inode (d.flags.inodeIdx + 1) = 0 := by
        rcases h.fits with hfits | hlast
        · omega
        · exact hlast
      have hall : ps.length = d.available img := by omega
      rw [hall] at hpos
      rw [FileDesc.available, hadv.inode_eq, hadv.short_idx hshort, hpos]
      rcases Nat.eq_zero_or_pos (d.available img) with h0 | hpos'
      · rw [h0, Nat.add_zero]
        exact (congrArg _ h0).trans (Nat.min_zero _)
      · rw [FileDesc.available, available_at_end hpos', hlast, Nat.mul_zero, Nat.min_zero]
  · have hall : ps.length = n := by omega
    refine .inl ⟨hall, hadv.regular, hadv.inode_eq ▸ h.inode_lt, ?_⟩
    have havail := hadv.full_available hall
    rw [hadv.inode_eq]
    rcases h.fits with hfits | hlast
    · exact .inl (by omega)
    · have hanti : img.blocksFrom d.inode (d'.flags.inodeIdx + 1) ≤
          img.blocksFrom d.inode (d.flags.inodeIdx + 1) :=
        blocksFrom_anti (Nat.succ_le_succ (hadv.full_idx hall))
      exact .inr (by omega)

/-- After the end, every call returns 0. -/
theorem fileReads_ended {fd : Nat} {calls : List (Nat × Nat)} (hcalls : ∀ c ∈ calls, Asks c)
    {k : Kernel} (h : (k.fd fd).Ended img) :
    ∀ o ∈ fileReads img fd k calls, o.ret = 0 ∧ o.places = [] := by
  induction calls generalizing k with
  | nil => exact List.forall_mem_nil _
  | cons c calls ih =>
      obtain ⟨hc, hcalls⟩ := List.forall_mem_cons.mp hcalls
      obtain ⟨ps, k', heq, hadv⟩ := fileReads_cons h.regular h.inode_lt hc calls
      obtain ⟨rfl, hnext⟩ := h.step hadv hc.2.1
      rw [heq, List.forall_mem_cons]
      exact ⟨⟨rfl, rfl⟩, ih hcalls hnext⟩

/-- Until then, what is delivered lies behind what was delivered before. -/
theorem fileReads_ends {fd : Nat} {calls : List (Nat × Nat)} (hcalls : ∀ c ∈ calls, Asks c)
    {k : Kernel} (h : (k.fd fd).Ends img) :
    (fileReads img fd k calls).Pairwise (fun a b => a.ret < a.nbytes → b.ret = 0) ∧
      ((fileReads img fd k calls).flatMap Portion.places).Pairwise (· < ·) ∧
      ∀ p ∈ (fileReads img fd k calls).flatMap Portion.places, (k.fd fd).frontier ≤ p := by
  induction calls generalizing k with
  | nil => exact ⟨.nil, .nil, List.forall_mem_nil _⟩
  | cons c calls ih =>
      obtain ⟨hc, hcalls⟩ := List.forall_mem_cons.mp hcalls
      obtain ⟨ps, k', heq, hadv⟩ := fileReads_cons h.regular h.inode_lt hc calls
      rw [heq, List.flatMap_cons, List.pairwise_cons, List.pairwise_append]
      -- a full read leaves things as they were; a short one is the end
      rcases h.step hadv with ⟨hfull, hnext⟩ | ⟨hshort, hnext⟩
      · obtain ⟨hzero, hord, hfront⟩ := ih hcalls hnext
        obtain ⟨hle, hlt⟩ := hadv.full_frontier hfull
        refine ⟨⟨fun o _ hret => ?_, hzero⟩, ⟨hadv.ordered, hord, fun p hp q hq => ?_⟩, fun p hp => ?_⟩
        · have hret' : (ps.length : Int) < c.2 := hret
          omega
        · exact (hlt p hp).trans_le (hfront q hq)
        · rcases List.mem_append.mp hp with hp | hp
          · exact hadv.frontier_le p hp
          · exact hle.trans (hfront p hp)
      · have hend := fileReads_ended hcalls hnext
        have hnil : (fileReads img fd k' calls).flatMap Portion.places = [] := by
          rw [List.flatMap_eq_nil_iff]
          exact fun o ho => (hend o ho).2
        rw [hnil]
        refine ⟨⟨fun o ho _ => (hend o ho).1, ?_⟩, ⟨hadv.ordered, .nil, fun p _ q hq => ?_⟩, fun p hp => ?_⟩
        · exact List.pairwise_of_forall_mem_list fun a _ b hb _ => (hend b hb).1
        · exact absurd hq List.not_mem_nil
        · rw [List.append_nil] at hp
          exact hadv.frontier_le p hp

/-- As long as a block lies behind the current one, something is available. -/
theorem available_pos (offset : Nat) {idx : Nat} (h : img.blocksFrom inode (idx + 1) ≠ 0) :
    0 < img.available inode offset idx := by
  have hmod : offset % fourKB < fourKB := Nat.mod_lt _ (by decide)
  have hentry : entryFor offset idx ≤ idx + 1 := by
    rw [entryFor]
    split_ifs
    · exact le_rfl
    · exact Nat.le_succ idx
  have hblocks := (Nat.pos_of_ne_zero h).trans_le (blocksFrom_anti hentry)
  have hle : fourKB * 1 ≤ fourKB * img.blocksFrom inode (entryFor offset idx) :=
    Nat.mul_le_mul_left _ hblocks
  rw [Image.available]
  omega

theorem available_lt (img : Image) (inode offset idx : Nat) :
    img.available inode offset idx < 2 ^ 31 - 1 := by
  have hle := Nat.mul_le_mul_left fourKB (blocksFrom_le img inode (entryFor offset idx))
  rw [Image.available]
  generalize fourKB * img.blocksFrom inode (entryFor offset idx) = b at hle
  simp only [fourKB] at hle ⊢
  omega

/-- A call that uses up the blocks before the end of the file, and the next one: that
starts again behind the old entry. -/
theorem fileReads_again {fd : Nat} {k : Kernel} (h : (k.fd fd).Regular)
    (hinode : (k.fd fd).inode < img.nInodes) {c₁ c₂ : Nat × Nat} (hc₁ : Asks c₁) (hc₂ : Asks c₂)
    (hshort : (k.fd fd).available img < c₁.2)
    (hlong : (k.fd fd).filePos + (k.fd fd).available img < img.fileLength (k.fd fd).inode)
    (hmore : img.blocksFrom (k.fd fd).inode ((k.fd fd).flags.inodeIdx + 1) ≠ 0) :
    ∃ ps qs, fileReads img fd k [c₁, c₂] = [⟨c₁.2, (k.fd fd).available img, ps⟩,
      ⟨c₂.2, (min c₂.2 (min (img.fileLength (k.fd fd).inode -
          ((k.fd fd).filePos + (k.fd fd).available img))
        (fourKB * img.blocksFrom (k.fd fd).inode ((k.fd fd).flags.inodeIdx + 1))) : Nat), qs⟩] := by
  obtain ⟨ps, k', heq, hadv⟩ := fileReads_cons h hinode hc₁ [c₂]
  obtain ⟨qs, k'', heq', hadv'⟩ := fileReads_cons hadv.regular (hadv.inode_eq ▸ hinode) hc₂ []
  have hps : ps.length = (k.fd fd).available img := by
    have hmin := hadv.length_eq
    omega
  -- the index is the old one, so the blocks behind it are there again
  have hagain : (k'.fd fd).available img =
      fourKB * img.blocksFrom (k.fd fd).inode ((k.fd fd).flags.inodeIdx + 1) := by
    rw [FileDesc.available, hadv.inode_eq, hadv.filePos, hadv.short_idx (by omega), hps]
    exact available_at_end (available_pos _ hmore)
  have hqs := hadv'.length_eq
  rw [hagain, hadv.inode_eq, hadv.filePos, hps] at hqs
  refine ⟨ps, qs, ?_⟩
  rw [heq, heq', hqs, hps]
  rfl

/-- Without an inode, every call fails. -/
theorem fileRead_no_inode (img : Image) {fd : Nat} {k : Kernel} (h : img.nInodes ≤ (k.fd fd).inode)
    (buf n : Nat) :
    (fileRead img fd buf n k).ret = -1 ∧
      (((fileRead img fd buf n k).after k).fd fd).inode = (k.fd fd).inode := by
  rcases fileRead_cases img fd buf n k with hr | ⟨-, hr⟩
  · rw [hr]
    exact ⟨rfl, rfl⟩
  · rw [hr]
    constructor
    · show (readDataAt img (k.fd fd).inode _ buf n _).ret = -1
      rw [readDataAt]
      split_ifs
      · rfl
      · rfl
    · show ((k.setFd fd _).fd fd).inode = _
      rw [Kernel.fd_setFd]
      rfl

/-- **The end of a file is the end**, for every image: whatever sizes a reader asks for,
once a call has returned less, all later ones return 0, and no byte of a block is
delivered twice, exactly if the inode exists and the blocks have room for what is left of
the file, or no block lies behind the current one. -/
theorem end_of_file_iff (img : Image) {fd : Nat} {k : Kernel} (h : (k.fd fd).Regular) :
    let d := k.fd fd
    (∀ calls : List (Nat × Nat), (∀ c ∈ calls, Asks c) →
      (fileReads img fd k calls).Pairwise (fun a b => a.ret < a.nbytes → b.ret = 0) ∧
        ((fileReads img fd k calls).flatMap Portion.places).Nodup) ↔
      d.inode < img.nInodes ∧
        (img.fileLength d.inode ≤ d.filePos + img.available d.inode d.filePos d.flags.inodeIdx ∨
          img.blocksFrom d.inode (d.flags.inodeIdx + 1) = 0) := by
  intro d
  have hone : Asks (1, 1) := ⟨one_ne_zero, one_pos, by decide⟩
  constructor
  · intro hall
    by_cases hinode : d.inode < img.nInodes
    · refine ⟨hinode, ?_⟩
      by_contra hnot
      rw [not_or, not_le] at hnot
      obtain ⟨hlong, hmore⟩ := hnot
      -- ask for one byte more than the blocks have, and then for one more
      have hasks : Asks (1, d.available img + 1) :=
        ⟨one_ne_zero, Nat.succ_pos _, Nat.add_lt_of_lt_sub (available_lt img _ _ _)⟩
      obtain ⟨ps, qs, heq⟩ := fileReads_again h hinode hasks hone (Nat.lt_succ_self _) hlong hmore
      obtain ⟨hzero, -⟩ := hall _ (List.forall_mem_cons.mpr
        ⟨hasks, List.forall_mem_singleton.mpr hone⟩)
      rw [heq] at hzero
      have hret := (List.pairwise_cons.mp hzero).1 _ List.mem_cons_self
        (Int.ofNat_lt.mpr (Nat.lt_succ_self _))
      have hblock : 0 < fourKB * img.blocksFrom d.inode (d.flags.inodeIdx + 1) :=
        Nat.mul_pos (by decide) (Nat.pos_of_ne_zero hmore)
      have hnext : min 1 (min (img.fileLength d.inode - (d.filePos + d.available img))
          (fourKB * img.blocksFrom d.inode (d.flags.inodeIdx + 1))) = 1 :=
        Nat.min_eq_left (le_min (Nat.sub_pos_of_lt hlong) hblock)
      exact absurd (hnext.symm.trans (Int.ofNat_eq_zero.mp hret)) one_ne_zero
    · -- every call fails
      obtain ⟨hzero, -⟩ := hall [(1, 1), (1, 1)] (List.forall_mem_cons.mpr
        ⟨hone, List.forall_mem_singleton.mpr hone⟩)
      obtain ⟨hret, hsame⟩ := fileRead_no_inode img (not_lt.mp hinode) 1 1
      obtain ⟨hret', -⟩ := fileRead_no_inode img (hsame ▸ not_lt.mp hinode) 1 1
      have hsecond := (List.pairwise_cons.mp hzero).1 _ List.mem_cons_self
      have hbad := hsecond (hret.trans_lt (show (-1 : Int) < (1 : Nat) by decide))
      rw [hret'] at hbad
      cases hbad
  · rintro ⟨hinode, hfits⟩ calls hcalls
    obtain ⟨hzero, hord, -⟩ := fileReads_ends hcalls ⟨h, hinode, hfits⟩
    exact ⟨hzero, hord.imp fun hlt => Nat.ne_of_lt hlt⟩

/-- The file `a`, just opened. -/
theorem end_of_file_tiny :
    let k := final (step tinyImage) tinyBoot [tinyExecute, .open (some tinyName)]
    (k.fd 2).Regular ∧ ∀ calls : List (Nat × Nat), (∀ c ∈ calls, Asks c) →
      (fileReads tinyImage 2 k calls).Pairwise (fun a b => a.ret < a.nbytes → b.ret = 0) ∧
        ((fileReads tinyImage 2 k calls).flatMap Portion.places).Nodup := by
  intro k
  have hreg : (k.fd 2).Regular := ⟨by decide +kernel, by decide +kernel, by decide +kernel⟩
  have hinode : (k.fd 2).inode = 0 := by decide +kernel
  have hpos : (k.fd 2).filePos = 0 := by decide +kernel
  have hidx : (k.fd 2).flags.inodeIdx = 1 := by decide +kernel
  refine ⟨hreg, (end_of_file_iff tinyImage hreg).mpr ?_⟩
  simp only [hinode, hpos, hidx]
  -- the first block alone is large enough
  have hblock : 1 ≤ tinyImage.blocksFrom 0 1 := by
    rw [blocksFrom_eq (by decide), if_pos (by decide +kernel)]
    exact Nat.le_add_left 1 _
  have hlength : tinyImage.fileLength 0 ≤ fourKB * 1 := by decide +kernel
  refine ⟨by decide +kernel, .inl ?_⟩
  rw [Nat.zero_add, available_zero]
  exact hlength.trans (Nat.mul_le_mul_left fourKB hblock)

/-- As `tinyImage`, with a second file, `b`, of 10000 bytes, but only two block numbers
for it that are in range. -/
def raggedImage : Image where
  byte i :=
    if 8204 ≤ i ∧ i < 12288 then 0xFF
    else ([(0, 2), (4, 2), (8, 1), (64, 0x61), (96, 2), (128, 0x62), (160, 2), (164, 1), (4096, 40),
      (8192, 0x10), (8193, 0x27), (12288, 0x7F), (12289, 0x45), (12290, 0x4C),
      (12291, 0x46)].lookup i).getD 0

/-- The first call for 10000 bytes of `b` returns 8192; the next one should return 0, and
delivers part of the second block again. -/
theorem second_block_again :
    (fileReads raggedImage 2 (final (step raggedImage) tinyBoot [tinyExecute, .open (some bName)])
      [(0x8050000, 10000), (0x8050000, 10000)]).map Portion.ret = [8192, 1808] := by
  generalize hk : final (step raggedImage) tinyBoot [tinyExecute, .open (some bName)] = k
  have hreg : (k.fd 2).Regular := by
    rw [← hk]
    exact ⟨by decide +kernel, by decide +kernel, by decide +kernel⟩
  have hinode : (k.fd 2).inode = 1 := by
    rw [← hk]
    decide +kernel
  have hpos : (k.fd 2).filePos = 0 := by
    rw [← hk]
    decide +kernel
  have hidx : (k.fd 2).flags.inodeIdx = 1 := by
    rw [← hk]
    decide +kernel
  have hlength : raggedImage.fileLength 1 = 10000 := by decide +kernel
  have hlt : (k.fd 2).inode < raggedImage.nInodes := by
    rw [hinode]
    decide +kernel
  have hbehind : raggedImage.blocksFrom 1 (1 + 1) = 1 := by decide +kernel
  -- two blocks are left from the one that the descriptor stands at
  have havail : raggedImage.available 1 0 1 = 8192 := by
    rw [available_zero, blocksFrom_eq (by decide), hbehind, if_pos (by decide +kernel)]
    rfl
  have hasks : Asks (0x8050000, 10000) := ⟨by decide, by decide, by decide⟩
  have hvalue : (k.fd 2).available raggedImage = 8192 := by
    rw [FileDesc.available, hinode, hpos, hidx, havail]
  obtain ⟨ps, qs, heq⟩ := fileReads_again hreg hlt hasks hasks (by rw [hvalue]; decide)
    (by rw [hvalue, hinode, hpos, hlength]; decide) (by rw [hinode, hidx, hbehind]; decide)
  rw [heq, hvalue, hinode, hpos, hidx, hlength, hbehind]
  rfl

end LinuxBasedOs
