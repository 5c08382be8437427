/-
LinuxBasedOs/Pcb.lean

Process control blocks (pcb.h): eight file descriptors, the link to the parent
process, the command line, and what has to be restored when the process ends.

A descriptor says twice what kind of file it is for: by its jump table, and by
bits [2:1] of its flags word.  The flags word also holds the in-use bit and, in
bits [19:8], the index of the current block number in the inode.  The masks and
shifts of the source are kept, and shown to be the bit fields they are meant to
be; everything else about flags is then the two laws of `BitField`.
-/
import LinuxBasedOs.BitField
import LinuxBasedOs.ReadData

namespace LinuxBasedOs

open Bytes

/-! ### Flags -/

/-- The word `flags` of a descriptor. -/
abbrev Flags := BitVec 32

/-- `USE_MASK`. -/
def useMask : Flags := 0x00000001

/-- `TYPE_MASK`. -/
def typeMask : Flags := 0x00000006

/-- `I_IDX_MASK`. -/
def iIdxMask : Flags := 0x000FFF00

/-- `I_IDX_CLEAR`. -/
def iIdxClear : Flags := 0xFFF000FF

/-- `flags % 2 != 0`, also written `(flags & USE_MASK) != 0`. -/
def Flags.InUse (f : Flags) : Prop := f &&& useMask ≠ 0

instance (f : Flags) : Decidable (Flags.InUse f) := inferInstanceAs (Decidable (_ ≠ _))

/-- `(flags & TYPE_MASK) >> TYPE_SHIFT`. -/
def Flags.fileType (f : Flags) : Nat := ((f &&& typeMask) >>> 1).toNat

/-- `(flags & I_IDX_MASK) >> I_IDX_SHIFT`. -/
def Flags.inodeIdx (f : Flags) : Nat := ((f &&& iIdxMask) >>> 8).toNat

/-- `flags &= I_IDX_CLEAR; flags |= inode_idx << I_IDX_SHIFT`. -/
def Flags.saveIdx (f : Flags) (idx : Nat) : Flags := (f &&& iIdxClear) ||| (BitVec.ofNat 32 idx <<< 8)

/-- The flags that `rtc_open` writes. -/
def rtcFlags : Flags := 0x1 ||| (0x0 <<< 1) ||| (0x1 <<< 8)

/-- Those of `dir_open`; the block index is 0. -/
def dirFlags : Flags := 0x1 ||| (0x1 <<< 1)

/-- Those of `file_open`. -/
def fileFlags : Flags := 0x1 ||| (0x2 <<< 1) ||| (0x1 <<< 8)

/-- `TERMINAL_FILE_FLAGS`: the type is 3, which is none. -/
def terminalFlags : Flags := 0x7

namespace Flags

theorem inUse_iff (f : Flags) : InUse f ↔ BitField.get f 0 1 = 1 := by
  have hget : BitField.get f 0 1 = (f &&& useMask).toNat := by
    rw [← BitField.get_eq_and_mask f 0 1 (by decide), BitVec.ushiftRight_zero]
    rfl
  have hlt := BitField.get_lt f 0 1
  rw [InUse, BitVec.toNat_ne, ← hget]
  show BitField.get f 0 1 ≠ 0 ↔ _
  omega

theorem fileType_eq (f : Flags) : fileType f = BitField.get f 1 2 :=
  BitField.get_eq_and_mask f 1 2 (by decide)

theorem inodeIdx_eq (f : Flags) : inodeIdx f = BitField.get f 8 12 :=
  BitField.get_eq_and_mask f 8 12 (by decide)

theorem saveIdx_eq (f : Flags) {idx : Nat} (h : idx < 4096) :
    saveIdx f idx = BitField.set f 8 12 idx := by
  have hmask : iIdxClear = ~~~ BitField.mask 32 8 12 := by decide
  have hidx : idx % 2 ^ 12 = idx := Nat.mod_eq_of_lt h
  rw [saveIdx, BitField.set, hmask, hidx]

/-- Saving a block index changes the block index … -/
theorem inodeIdx_saveIdx (f : Flags) {idx : Nat} (h : idx < 4096) :
    inodeIdx (saveIdx f idx) = idx := by
  rw [saveIdx_eq f h, inodeIdx_eq, BitField.get_set_same f 8 12 idx (by decide)]
  exact Nat.mod_eq_of_lt h

/-- … and neither the in-use bit nor the type. -/
theorem inUse_saveIdx (f : Flags) {idx : Nat} (h : idx < 4096) :
    InUse (saveIdx f idx) ↔ InUse f := by
  rw [inUse_iff, inUse_iff, saveIdx_eq f h, BitField.get_set_of_disjoint f idx (.inl (by decide))]

theorem fileType_saveIdx (f : Flags) {idx : Nat} (h : idx < 4096) :
    fileType (saveIdx f idx) = fileType f := by
  rw [fileType_eq, fileType_eq, saveIdx_eq f h,
    BitField.get_set_of_disjoint f idx (.inl (by decide))]

theorem getLsbD_saveIdx (f : Flags) {idx i : Nat} (h : idx < 4096) (hi : i < 8 ∨ 20 ≤ i) :
    (saveIdx f idx).getLsbD i = f.getLsbD i := by
  rw [saveIdx_eq f h, BitField.getLsbD_set, if_neg (by omega)]

/-- `dir_read` looks at the low bit of the type field only. -/
theorem bit_of_dir {f : Flags} (h : fileType f = dirFile) : (f >>> 1) &&& 1 ≠ 0 := by
  intro h0
  have hnat := congrArg BitVec.toNat h0
  rw [BitVec.toNat_and, BitVec.toNat_ushiftRight] at hnat
  rw [fileType_eq, BitField.get, dirFile] at h
  have hone : f.toNat >>> 1 &&& 1 = 0 := hnat
  rw [Nat.and_one_is_mod] at hone
  omega

end Flags

/-! ### Descriptors and PCBs -/

/-- What `file_op_ptr` points to: one of the four jump tables, nothing, or a
place that is no jump table. -/
inductive FdOps where
  | null
  | rtcTable
  | dirTable
  | fileTable
  | terminalTable
  | wild
  deriving DecidableEq

/-- `file_desc_t`. -/
@[ext] structure FileDesc where
  fileOpPtr : FdOps
  inode : Nat
  filePos : Nat
  flags : Flags

/-- `clear_fd`. -/
def clearFd : FileDesc := ⟨.null, 0, 0, 0⟩

/-- The descriptor is in use. -/
def FileDesc.InUse (d : FileDesc) : Prop := d.flags.InUse

instance (d : FileDesc) : Decidable d.InUse := inferInstanceAs (Decidable (Flags.InUse _))

/-- `pcb_t`.  The file array has entries 0 to 7, the input 1024 bytes. -/
@[ext] structure Pcb where
  fileArray : Nat → FileDesc
  oldPcbPtr : Nat
  input : Mem
  oldPhysAddr : Nat
  oldEsp0 : Nat
  oldEbp : Nat

/-- `file_array[fd] = d`. -/
def Pcb.setFile (p : Pcb) (fd : Nat) (d : FileDesc) : Pcb :=
  { p with fileArray := Function.update p.fileArray fd d }

/-- `sizeof(pcb_t)`. -/
def pcbSize : Nat := 1168

/-! ### A byte stored into a PCB

The offsets are those of the structures of `pcb.h` on the 32-bit target. -/

/-- A byte at offset `off` of a descriptor.  A pointer with a byte replaced
points to no jump table. -/
def FileDesc.poke (d : FileDesc) (off : Nat) (v : UInt8) : FileDesc :=
  if off < 4 then { d with fileOpPtr := .wild }
  else if off < 8 then { d with inode := pokeByte d.inode (off - 4) v }
  else if off < 12 then { d with filePos := pokeByte d.filePos (off - 8) v }
  else { d with flags := BitVec.ofNat 32 (pokeByte d.flags.toNat (off - 12) v) }

/-- A byte at offset `off` of a PCB. -/
def Pcb.poke (p : Pcb) (off : Nat) (v : UInt8) : Pcb :=
  if off < 128 then
    { p with fileArray :=
        Function.update p.fileArray (off / 16) ((p.fileArray (off / 16)).poke (off % 16) v) }
  else if off < 132 then { p with oldPcbPtr := pokeByte p.oldPcbPtr (off - 128) v }
  else if off < 1156 then { p with input := Function.update p.input (off - 132) v }
  else if off < 1160 then { p with oldPhysAddr := pokeByte p.oldPhysAddr (off - 1156) v }
  else if off < 1164 then { p with oldEsp0 := pokeByte p.oldEsp0 (off - 1160) v }
  else if off < 1168 then { p with oldEbp := pokeByte p.oldEbp (off - 1164) v }
  else p

/-! ### The descriptor invariant -/

/-- The jump table for a file type, as `sys_open_c` chooses it. -/
def tableOfType : Nat → FdOps
  | 0 => .rtcTable
  | 1 => .dirTable
  | 2 => .fileTable
  | _ => .terminalTable

/-- What holds of a descriptor 2 to 7 that is in use: its table matches its
type bits, its type is one of the three, and a regular file's block index is in
1 to 1023. -/
structure FileDesc.Ok (d : FileDesc) : Prop where
  type_le : d.flags.fileType ≤ 2
  table : d.fileOpPtr = tableOfType d.flags.fileType
  index : d.flags.fileType = regFile → 1 ≤ d.flags.inodeIdx ∧ d.flags.inodeIdx ≤ 1023

/-- For a new descriptor it is a matter of its flags and its table. -/
theorem FileDesc.ok_mk {ops : FdOps} {flags : Flags} (hops : ops = tableOfType flags.fileType)
    (hle : flags.fileType ≤ 2)
    (hidx : flags.fileType = regFile → 1 ≤ flags.inodeIdx ∧ flags.inodeIdx ≤ 1023)
    (inode pos : Nat) : (FileDesc.mk ops inode pos flags).Ok :=
  ⟨hle, hops, hidx⟩

/-- What holds of the file array of a live process. -/
structure FilesOk (fa : Nat → FileDesc) : Prop where
  stdin : (fa 0).fileOpPtr = .terminalTable ∧ (fa 0).InUse
  stdout : (fa 1).fileOpPtr = .terminalTable ∧ (fa 1).InUse
  used : ∀ fd, 2 ≤ fd → fd < 8 → (fa fd).InUse → (fa fd).Ok

/-- Replacing one of the descriptors 2 to 7 keeps the invariant, if the new one
is free or as it should be. -/
theorem FilesOk.update {fa : Nat → FileDesc} (h : FilesOk fa) {fd : Nat} (hfd : 2 ≤ fd)
    {d : FileDesc} (hd : d.InUse → d.Ok) : FilesOk (Function.update fa fd d) := by
  refine ⟨?_, ?_, fun fd' h2 h8 huse => ?_⟩
  · rw [Function.update_of_ne (by omega)]
    exact h.stdin
  · rw [Function.update_of_ne (by omega)]
    exact h.stdout
  · by_cases heq : fd' = fd
    · subst heq
      rw [Function.update_self] at huse ⊢
      exact hd huse
    · rw [Function.update_of_ne heq] at huse ⊢
      exact h.used fd' h2 h8 huse

/-- The file array of a new process. -/
def initialFiles : Nat → FileDesc := fun fd =>
  if fd ≤ 1 then ⟨.terminalTable, 0, 0, terminalFlags⟩ else clearFd

theorem initialFiles_ok : FilesOk initialFiles := by
  refine ⟨⟨rfl, by decide⟩, ⟨rfl, by decide⟩, fun fd h2 h8 huse => ?_⟩
  rw [initialFiles, if_neg (by omega)] at huse
  exact absurd huse (by decide)

end LinuxBasedOs
