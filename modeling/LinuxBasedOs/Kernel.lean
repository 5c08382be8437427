/-
LinuxBasedOs/Kernel.lean

The state of the kernel: the running processes, their PCBs, the paging state,
the console, and the globals of the drivers.

PCBs live at fixed places below 8 MB, one at the bottom of each process's 8 kB
kernel stack, and are reached through the pointer `cur_pcb`, so they are kept by
address.  Memory other than PCBs is not part of the state: what the kernel
stores elsewhere is recorded by the calls that store it.

`Kernel.store` is a store by the kernel to a virtual address.  It goes through
the page tables: an address that is not mapped faults (`none`), and a physical
address inside one of the PCBs changes that PCB.

`FilesOnly` is the frame condition of all descriptor calls: they change the file
array of the current process and nothing else about processes.
-/
import LinuxBasedOs.Paging
import LinuxBasedOs.Pcb
import LinuxBasedOs.TerminalRead

namespace LinuxBasedOs

open Bytes

/-! ### The state -/

/-- The buffers of filesys.c.  A `dentry_t` is kept as bytes: the name at 0, the
type at 32, the inode number at 36.  Each has memory of its own behind its end; see `Frames`. -/
structure FsGlobals where
  filenameBuf : Mem
  openDentry : Mem
  readDentry : Mem

/-- Register A of the RTC, and the flag `rtc_interrupt`. -/
structure Rtc where
  regA : UInt8
  rtcInterrupt : Nat

/-- The globals of the kernel that its calls read and write. -/
structure Kernel where
  processNumber : Nat
  curPcb : Nat
  esp0 : Nat
  pcbs : Nat → Pcb
  paging : Paging
  console : Console
  fs : FsGlobals
  rtc : Rtc

/-- `EIGHT_MB - n*EIGHT_KB`: the PCB of the `n`-th process, and the top of the
kernel stack of the next one. -/
def slot (n : Nat) : Nat := 0x800000 - n * 0x2000

theorem slot_inj {m n : Nat} (hm : m ≤ 6) (hn : n ≤ 6) (h : slot m = slot n) : m = n := by
  simp only [slot] at h
  omega

theorem slot_ne_zero {n : Nat} (h : n ≤ 6) : slot n ≠ 0 := by
  simp only [slot]
  omega

namespace Kernel

/-- The state after `init_paging` and `init_filesys`, with nothing running. -/
def boot (L : Layout) (pcbs : Nat → Pcb) (screen : Screen) (rtc : Rtc) : Kernel where
  processNumber := 0
  curPcb := 0
  esp0 := 0x800000
  pcbs := pcbs
  paging := initPaging L
  console := ⟨screen, Keyboard.boot⟩
  fs := ⟨fun _ => 0, fun _ => 0, fun _ => 0⟩
  rtc := rtc

/-- `*cur_pcb`. -/
def cur (k : Kernel) : Pcb := k.pcbs k.curPcb

/-- `(cur_pcb->file_array)[fd]`. -/
def fd (k : Kernel) (fd : Nat) : FileDesc := k.cur.fileArray fd

/-- `(cur_pcb->file_array)[fd] = d`. -/
def setFd (k : Kernel) (fd : Nat) (d : FileDesc) : Kernel :=
  { k with pcbs := Function.update k.pcbs k.curPcb (k.cur.setFile fd d) }

@[simp] theorem cur_setFd (k : Kernel) (fd : Nat) (d : FileDesc) :
    (k.setFd fd d).cur = k.cur.setFile fd d :=
  Function.update_self ..

@[simp] theorem fd_setFd (k : Kernel) (fd : Nat) (d : FileDesc) : (k.setFd fd d).fd fd = d := by
  rw [Kernel.fd, cur_setFd]
  exact Function.update_self ..

theorem fd_setFd_of_ne (k : Kernel) {fd fd' : Nat} (d : FileDesc) (h : fd' ≠ fd) :
    (k.setFd fd d).fd fd' = k.fd fd' := by
  rw [Kernel.fd, cur_setFd, Kernel.fd]
  exact Function.update_of_ne h ..

/-! ### Stores by the kernel -/

/-- A byte stored at a physical address, as far as PCBs are concerned.  The other memory of the
kernel is not in the state: a store there is dropped, even where something reads it later. -/
def pokePhys (k : Kernel) (p : Nat) (v : UInt8) : Kernel :=
  if slot 6 ≤ p ∧ p < slot 0 ∧ p % 0x2000 < pcbSize then
    let a := p - p % 0x2000
    { k with pcbs := Function.update k.pcbs a ((k.pcbs a).poke (p % 0x2000) v) }
  else k

/-- A byte stored at a virtual address; `none` is a page fault. -/
def store (k : Kernel) (a : Nat) (v : UInt8) : Option Kernel :=
  (k.paging.walk a).map fun t => k.pokePhys t.phys v

/-- A sequence of stores. -/
def storeAll (k : Kernel) : List (Nat × UInt8) → Option Kernel
  | [] => some k
  | p :: ps => (k.store p.1 p.2).bind fun k' => k'.storeAll ps

end Kernel

/-- The program page, `[0x08000000, 0x08400000)`. -/
def InProgramPage (a : Nat) : Prop := 0x08000000 ≤ a ∧ a < 0x08400000

instance (a : Nat) : Decidable (InProgramPage a) := inferInstanceAs (Decidable (_ ∧ _))

/-- A kernel that has just booted, for concrete runs. -/
def tinyLayout : Layout := ⟨0x500, 0x501, by decide, by decide, by decide⟩

/-- A machine that has just been started. -/
def tinyBoot : Kernel :=
  .boot tinyLayout (fun _ => ⟨fun _ => clearFd, 0, fun _ => 0, 0, 0, 0⟩)
    ⟨0, 0, fun _ => 0, 0, []⟩ ⟨0, 0⟩

namespace Kernel

/-- A store to the program page of a process does not reach any PCB. -/
theorem store_inProgramPage {k : Kernel} {L : Layout} {base : Nat} (hp : k.paging = paged L base)
    (hlo : 2 ≤ base) (hhi : base < 2 ^ 10) {a : Nat} (ha : InProgramPage a) (v : UInt8) :
    k.store a v = some k := by
  obtain ⟨h₁, h₂⟩ := ha
  have hdir : a / 2 ^ 22 = 32 := by omega
  have hphys : 8 * 2 ^ 20 ≤ base * 2 ^ 22 + a % 2 ^ 22 := by omega
  rw [store, hp, walk_paged L hhi, hdir]
  show some (k.pokePhys (base * 2 ^ 22 + a % 2 ^ 22) v) = some k
  rw [pokePhys, if_neg]
  rintro ⟨-, hlt, -⟩
  simp only [slot] at hlt
  omega

theorem storeAll_inProgramPage {k : Kernel} {L : Layout} {base : Nat} (hp : k.paging = paged L base)
    (hlo : 2 ≤ base) (hhi : base < 2 ^ 10) {ps : List (Nat × UInt8)}
    (hps : ∀ p ∈ ps, InProgramPage p.1) : k.storeAll ps = some k := by
  induction ps with
  | nil => rfl
  | cons p ps ih =>
      rw [storeAll, store_inProgramPage hp hlo hhi (hps p List.mem_cons_self)]
      exact ih fun q hq => hps q (List.mem_cons_of_mem p hq)

end Kernel

/-! ### What descriptor calls leave alone -/

/-- The parts of a PCB other than the file array. -/
def Pcb.SameLinks (p q : Pcb) : Prop := p = { q with fileArray := p.fileArray }

theorem Pcb.SameLinks.refl (p : Pcb) : p.SameLinks p := rfl

theorem Pcb.SameLinks.trans {p q r : Pcb} (h₁ : p.SameLinks q) (h₂ : q.SameLinks r) :
    p.SameLinks r := by
  rw [Pcb.SameLinks] at *
  rw [h₁, h₂]

/-- From `s` to `t` only the file array of the current process, the console and
the globals of the drivers have changed. -/
structure FilesOnly (s t : Kernel) : Prop where
  processNumber : t.processNumber = s.processNumber
  curPcb : t.curPcb = s.curPcb
  esp0 : t.esp0 = s.esp0
  paging : t.paging = s.paging
  others : ∀ a, a ≠ s.curPcb → t.pcbs a = s.pcbs a
  links : t.cur.SameLinks s.cur
  keyboard : s.console.kbd.Ok → t.console.kbd.Ok

namespace FilesOnly

theorem refl (k : Kernel) : FilesOnly k k :=
  ⟨rfl, rfl, rfl, rfl, fun _ _ => rfl, .refl _, id⟩

theorem trans {r s t : Kernel} (h₁ : FilesOnly r s) (h₂ : FilesOnly s t) : FilesOnly r t where
  processNumber := h₂.processNumber.trans h₁.processNumber
  curPcb := h₂.curPcb.trans h₁.curPcb
  esp0 := h₂.esp0.trans h₁.esp0
  paging := h₂.paging.trans h₁.paging
  others := fun a ha => (h₂.others a (by rw [h₁.curPcb]; exact ha)).trans (h₁.others a ha)
  links := h₂.links.trans h₁.links
  keyboard := fun h => h₂.keyboard (h₁.keyboard h)

theorem setFd (k : Kernel) (fd : Nat) (d : FileDesc) : FilesOnly k (k.setFd fd d) where
  processNumber := rfl
  curPcb := rfl
  esp0 := rfl
  paging := rfl
  others := fun _ ha => Function.update_of_ne ha _ k.pcbs
  links := by rw [Kernel.cur_setFd]; rfl
  keyboard := id

end FilesOnly

/-- Moreover the descriptor invariant is kept. -/
structure Keeps (s t : Kernel) : Prop extends FilesOnly s t where
  files : FilesOk s.cur.fileArray → FilesOk t.cur.fileArray

namespace Keeps

theorem refl (k : Kernel) : Keeps k k := ⟨.refl k, id⟩

theorem trans {r s t : Kernel} (h₁ : Keeps r s) (h₂ : Keeps s t) : Keeps r t :=
  ⟨h₁.toFilesOnly.trans h₂.toFilesOnly, fun h => h₂.files (h₁.files h)⟩

/-- Changing the globals of the drivers. -/
theorem globals (k : Kernel) (fs : FsGlobals) (rtc : Rtc) : Keeps k { k with fs := fs, rtc := rtc } :=
  ⟨⟨rfl, rfl, rfl, rfl, fun _ _ => rfl, .refl _, id⟩, id⟩

/-- Replacing a descriptor by one that is free or as it should be. -/
theorem setFd (k : Kernel) {fd : Nat} (hfd : 2 ≤ fd) {d : FileDesc}
    (hd : FilesOk k.cur.fileArray → d.InUse → d.Ok) : Keeps k (k.setFd fd d) := by
  refine ⟨.setFd k fd d, fun h => ?_⟩
  rw [Kernel.cur_setFd]
  exact h.update hfd (hd h)

end Keeps

end LinuxBasedOs
