/-
LinuxBasedOs/Image.lean

The file system image, as the kernel addresses it (filesys.c, filesys.h).

The image is the memory at `filesys_ptr`: one boot block, `N` inode blocks and
`D` data blocks of 4 kB each.  Offsets are taken modulo 2^32, since every
address the kernel computes is a 32-bit pointer; nothing here assumes that the
contents make sense.  `WellFormed` is the assumption under which reading a file
is expected to work, and `content` is what reading it should then deliver.
-/
import LinuxBasedOs.Bytes

namespace LinuxBasedOs

open Bytes

/-! ### The image and its boot block -/

/-- `FOUR_KB`, the size of a block. -/
def fourKB : Nat := 0x1000

/-- `RTC_FILE`, one of the types of a directory entry. -/
def rtcFile : Nat := 0

/-- `DIR_FILE`. -/
def dirFile : Nat := 1

/-- `REG_FILE`. -/
def regFile : Nat := 2

/-- The memory at `filesys_ptr`, byte by byte. -/
structure Image where
  byte : Mem

/-- The byte at an offset from `filesys_ptr`; pointers wrap at 32 bits. -/
def Image.load8 (img : Image) (a : Nat) : UInt8 :=
  img.byte (a % 2 ^ 32)

/-- The word at an offset from `filesys_ptr`. -/
def Image.load32 (img : Image) (a : Nat) : Nat :=
  word img.load8 a

/-- `n_dir_entries` of the boot block, as `init_filesys` reads it. -/
def Image.nDirEntries (img : Image) : Nat := img.load32 0

/-- `N`, the number of inodes. -/
def Image.nInodes (img : Image) : Nat := img.load32 4

/-- `D`, the number of data blocks. -/
def Image.nDataBlocks (img : Image) : Nat := img.load32 8

/-! ### Inodes and data blocks -/

/-- Offset of word `idx` of an inode block: word 0 is the file's length, words
1 to 1023 are its block numbers. -/
def inodeOff (inode idx : Nat) : Nat :=
  fourKB * (inode + 1) + 4 * idx

/-- `*(filesys_ptr + (FOUR_KB/4)*(inode + 1) + idx)`. -/
def Image.inodeWord (img : Image) (inode idx : Nat) : Nat :=
  img.load32 (inodeOff inode idx)

/-- Offset of data block `dnode`: `filesys_ptr + (FOUR_KB/4)*(bblock.N + dnode + 1)`. -/
def Image.blockOff (img : Image) (dnode : Nat) : Nat :=
  fourKB * (img.nInodes + dnode + 1)

/-- The length field of an inode. -/
def Image.fileLength (img : Image) (inode : Nat) : Nat :=
  img.inodeWord inode 0

/-- `data_block_arr[b]` of an inode. -/
def Image.dataBlock (img : Image) (inode b : Nat) : Nat :=
  img.inodeWord inode (b + 1)

theorem Image.load32_lt (img : Image) (a : Nat) : img.load32 a < 2 ^ 32 :=
  word_lt _ _

/-! ### What a file holds -/

/-- Byte `p` of a file: it lies in block `p / 4096` of the file, at place
`p % 4096`. -/
def Image.fileByte (img : Image) (inode p : Nat) : UInt8 :=
  img.load8 (img.blockOff (img.dataBlock inode (p / fourKB)) + p % fourKB)

/-- The bytes of a file, in order. -/
def Image.content (img : Image) (inode : Nat) : List UInt8 :=
  (List.range (img.fileLength inode)).map (img.fileByte inode)

@[simp] theorem Image.length_content (img : Image) (inode : Nat) :
    (img.content inode).length = img.fileLength inode := by
  simp [Image.content]

/-! ### Well-formed images -/

/-- Offset of directory entry `d` (counted from 1) in the boot block. -/
def dentryOff (d : Nat) : Nat := 64 * d

/-- The type word and the inode word of directory entry `d`. -/
def Image.dentryType (img : Image) (d : Nat) : Nat := img.load32 (dentryOff d + 32)

/-- The inode number of an entry. -/
def Image.dentryInode (img : Image) (d : Nat) : Nat := img.load32 (dentryOff d + 36)

/-- Directory entries name inodes below `N`; a file's length fits the inode;
the blocks that hold the file are below `D`. -/
structure Image.WellFormed (img : Image) : Prop where
  dentry_inode : ∀ d, 1 ≤ d → d ≤ img.nDirEntries → img.dentryInode d < img.nInodes
  length_le : ∀ i, i < img.nInodes → img.fileLength i ≤ 1023 * fourKB
  block_lt : ∀ i, i < img.nInodes → ∀ b, b * fourKB < img.fileLength i →
    img.dataBlock i b < img.nDataBlocks

/-- A file system with one file, `a`, which is executable and 40 bytes long. -/
def tinyImage : Image where
  byte i := ([(0, 1), (4, 1), (8, 1), (64, 0x61), (96, 2), (4096, 40), (8192, 0x7F), (8193, 0x45),
    (8194, 0x4C), (8195, 0x46)].lookup i).getD 0

theorem tinyImage_wellFormed : tinyImage.WellFormed := by
  have hdir : tinyImage.nDirEntries = 1 := by decide +kernel
  have hinodes : tinyImage.nInodes = 1 := by decide +kernel
  have hlen : tinyImage.fileLength 0 = 40 := by decide +kernel
  refine ⟨fun d h1 h2 => ?_, fun i hi => ?_, fun i hi b hb => ?_⟩
  · obtain rfl : d = 1 := by omega
    decide +kernel
  · obtain rfl : i = 0 := by omega
    decide +kernel
  · obtain rfl : i = 0 := by omega
    obtain rfl : b = 0 := by
      simp only [fourKB] at hb
      omega
    decide +kernel

end LinuxBasedOs
