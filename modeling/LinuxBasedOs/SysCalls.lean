/-
LinuxBasedOs/SysCalls.lean

The system calls (sys_calls.c) as functions on the kernel's state.

`none` means that the call does not return to its caller and leaves no state to
go on from: a lookup in a directory whose names do not end, a jump through a
pointer that is no table, an access through the null `cur_pcb`, a page fault in
a read, or a command line too long for `new_pcb.input`, whose copy overwrites
the kernel stack.

`sys_execute_c` has three outcomes: it returns, it enters the new program, or
loading the program faults because the file reaches beyond the program page.  In
the last case the page fault handler ends the current process.

`step` is one event in the life of the kernel: a call by the current process, or
an interrupt.
-/
import LinuxBasedOs.Drivers

namespace LinuxBasedOs

open Bytes

/-! ### Descriptor calls -/

/-- `FD_SIZE`. -/
def fdSize : Int := 7

/-- `(cur_pcb->file_array)[i].file_op_ptr = table`. -/
def Kernel.setTable (k : Kernel) (i : Nat) (table : FdOps) : Kernel :=
  k.setFd i { k.fd i with fileOpPtr := table }

/-- The part of `sys_open_c` after the lookup, for a file of type `type`. -/
def openAs (img : Image) (name : CString) (type : Nat) (k : Kernel) : Option (Int × Kernel) :=
  let i := firstFree k.cur.fileArray
  if k.curPcb = 0 then none
  else if 8 ≤ i then some (-1, k)
  else
    -- the result of the open routine is not looked at
    ((tableOfType type).openPtr img name (k.setTable i (tableOfType type))).map fun r =>
      ((i : Int), r.2)

/-- `sys_open_c`.  The type of the entry selects the table, and the driver opens the name.
`filename` is the string at the pointer, which is taken to be mapped, or `none` for NULL. -/
def sysOpenC (img : Image) (filename : Option CString) (k : Kernel) : Option (Int × Kernel) :=
  match filename with
  | none => some (-1, k)
  | some name =>
      (readDentryByName img name k.fs).bind fun r =>
        match r.1 with
        | none => some (-1, { k with fs := r.2 })
        | some (d, _) => openAs img name (img.dentryType d) { k with fs := r.2 }

/-- `sys_close_c`. -/
def sysCloseC (fd : Int) (k : Kernel) : Option (Int × Kernel) :=
  if fd < 2 ∨ fd > fdSize then some (-1, k)
  else if k.curPcb = 0 then none
  else if ¬ (k.fd fd.toNat).InUse then some (-1, k)
  else (k.fd fd.toNat).fileOpPtr.closePtr fd k

/-- What `sys_read_c` does before any byte is stored. -/
def sysReadEffect (img : Image) (fd : Int) (buf : Nat) (nbytes : Int) (env : ReadEnv)
    (k : Kernel) : Option ReadEffect :=
  if fd < 0 ∨ fd > fdSize then some .refused
  else if buf = 0 then some .refused
  else if nbytes < 0 then some .refused
  else if k.curPcb = 0 then none
  else if ¬ (k.fd fd.toNat).InUse then some .refused
  else (k.fd fd.toNat).fileOpPtr.readPtr img fd buf nbytes.toNat env k

/-- `sys_read_c`: the value returned and the bytes stored. -/
def sysReadC (img : Image) (fd : Int) (buf : Nat) (nbytes : Int) (env : ReadEnv) (k : Kernel) :
    Option ((Int × List (Nat × UInt8)) × Kernel) :=
  (sysReadEffect img fd buf nbytes env k).bind fun e =>
    (k.storeAll e.stores).map fun k' => ((e.ret, e.stores), e.after k')

/-- `sys_write_c`; `data` is the memory at `buf`, which is taken to be mapped. -/
def sysWriteC (fd : Int) (buf : Nat) (data : Mem) (nbytes : Int) (k : Kernel) :
    Option (Int × Kernel) :=
  if fd < 0 ∨ fd > fdSize then some (-1, k)
  else if buf = 0 then some (-1, k)
  else if nbytes < 0 then some (-1, k)
  else if k.curPcb = 0 then none
  else if ¬ (k.fd fd.toNat).InUse then some (-1, k)
  else (k.fd fd.toNat).fileOpPtr.writePtr fd data nbytes.toNat k

/-! ### Ending a process -/

/-- The loop of `sys_halt_c` that closes the descriptors in use; what the close
routines return is not looked at. -/
def closeAll : List Nat → Kernel → Option Kernel
  | [], k => some k
  | fd :: fds, k =>
      if (k.fd fd).InUse then
        ((k.fd fd).fileOpPtr.closePtr fd k).bind fun r => closeAll fds r.2
      else closeAll fds k

/-- What `sys_halt_c` takes back from the PCB of the process that ends. -/
def Kernel.restore (k : Kernel) : Kernel :=
  { k with
    esp0 := k.cur.oldEsp0
    paging := k.paging.setBase k.cur.oldPhysAddr
    curPcb := k.cur.oldPcbPtr }

/-- `sys_halt_c`; the counter is decremented before the page is checked.  EBP is reloaded, so
that it returns behind the parent's call of `sys_execute_c`; that this works is taken for
granted, here and in `Linkage`. -/
def sysHaltC (status : Nat) (k : Kernel) : Option (Int × Kernel) :=
  if k.processNumber = 0 then some (-1, k)
  else
    let k₁ := { k with processNumber := k.processNumber - 1 }
    match k₁.paging.getBigPage proAddr with
    | none => some (-1, k₁)
    | some _ =>
        if k₁.curPcb = 0 then none
        else (closeAll (List.range 8) k₁).map fun k₂ => (((status % 256 : Nat) : Int), k₂.restore)

/-! ### Starting a process -/

/-- What `sys_execute_c` finds on its stack: the memory of the arrays it does not
initialise, and the frame pointer. -/
structure ExecEnv where
  header : Mem
  input : Mem
  ebp : Nat

/-- What a call comes to. -/
inductive Outcome where
  | ret (v : Int)               -- the call returns
  | entered                     -- the new program runs
  | fault                       -- a page fault while the program is loaded
  deriving DecidableEq

/-- The characters that end the file name in a command: space, newline. -/
def IsNameEnd (b : UInt8) : Prop := b = 32 ∨ b = 10

instance (b : UInt8) : Decidable (IsNameEnd b) := inferInstanceAs (Decidable (_ ∨ _))

/-- `file_name`: the first word of the command, at most 33 characters of it.  The
array has 33 places, so that the NUL after 33 characters falls behind it. -/
def commandWord (command : CString) : CString where
  bytes := (command.bytes.takeWhile fun b => ¬ IsNameEnd b).take 33
  nonzero := fun b hb => command.nonzero b ((List.takeWhile_sublist _).mem (List.mem_of_mem_take hb))

/-- `elf_text`. -/
def elfText : Mem := fun i => [0x7F, 0x45, 0x4C, 0x46].getD i 0

/-- The executable check: the first 32 bytes of the file are read over the
uninitialised array, and the first four compared. -/
def isElf (img : Image) (inode : Nat) (header : Mem) : Prop :=
  -- any address but NULL stands for that of the array
  let r := readData img inode 0 1 32 none
  r.ret ≠ -1 ∧ strncmp elfText (storeAll header r.stores) 4 = 0

instance (img : Image) (inode : Nat) (header : Mem) : Decidable (isElf img inode header) :=
  inferInstanceAs (Decidable (_ ∧ _))

/-- `((EIGHT_MB + process_number*FOUR_MB) & EIGHT_MASK) >> EIGHT_S`. -/
def programBase (n : Nat) : Nat := ((0x800000 + n * 0x400000) &&& 0xFFC00000) >>> 22

/-- `USER_PROG`. -/
def userProg : Nat := 0x8048000

/-- The PCB of a new process, started from state `k`. -/
def newPcb (command : CString) (env : ExecEnv) (oldPhysAddr : Nat) (k : Kernel) : Pcb where
  fileArray := initialFiles
  oldPcbPtr := k.curPcb
  input := fun i => if i ≤ command.bytes.length then command.mem i else env.input i
  oldPhysAddr := oldPhysAddr
  oldEsp0 := k.esp0
  oldEbp := env.ebp

/-- The part of `sys_execute_c` after the program has been loaded. -/
def enter (command : CString) (env : ExecEnv) (oldPhysAddr : Nat) (k : Kernel) : Kernel :=
  let addr := 0x800000 - k.processNumber * 0x2000 - 0x2000
  { k with
    pcbs := Function.update k.pcbs addr (newPcb command env oldPhysAddr k)
    curPcb := addr
    processNumber := k.processNumber + 1
    esp0 := 0x800000 - (k.processNumber + 1) * 0x2000
    console := (terminalOpen k).2.console }

/-- The stores that load a program: up to 4 MB of the file, from `USER_PROG` on. -/
def programStores (img : Image) (inode : Nat) : List (Nat × UInt8) :=
  storesTo userProg (readData img inode 0 userProg 0x400000 none).stores

/-- The program page is that of the new process before the program is loaded. -/
def Kernel.loading (k : Kernel) : Kernel :=
  { k with paging := k.paging.setBase (programBase k.processNumber) }

/-- The part of `sys_execute_c` after its checks; `program` are the stores that
load the program.  A command that is too long for `new_pcb.input` has no successor here;
`loadLong` gives it one. -/
def load (command : CString) (env : ExecEnv) (program : List (Nat × UInt8)) (k : Kernel) :
    Option (Outcome × Kernel) :=
  if 1024 ≤ command.bytes.length then none
  else
    match k.paging.getBigPage proAddr with
    | none => some (.ret (-1), k)
    | some _ =>
        match k.loading.storeAll program with
        | none => some (.fault, k.loading)
        | some k' => some (.entered, enter command env k.paging.base k')

/-- `sys_execute_c`, for a command that fits into its arrays: at most six processes, then the
lookup, the check of the file, and the loading. -/
def sysExecuteC (img : Image) (command : CString) (env : ExecEnv) (k : Kernel) :
    Option (Outcome × Kernel) :=
  if 6 ≤ k.processNumber then some (.ret (-1), k)
  else
    (readDentryByName img (commandWord command) k.fs).bind fun r =>
      let k' := { k with fs := r.2 }
      match r.1 with
      | none => some (.ret (-1), k')
      | some (d, _) =>
          if img.dentryType d ≠ regFile then some (.ret (-1), k')
          else if ¬ isElf img (img.dentryInode d) env.header then some (.ret (-1), k')
          else load command env (programStores img (img.dentryInode d)) k'

/-! ### Events -/

/-- The calls and interrupts. -/
inductive Event where
  | execute (command : CString) (env : ExecEnv)
  | halt (status : UInt8)
  | open (filename : Option CString)
  | close (fd : Int)
  | read (fd : Int) (buf : Nat) (nbytes : Int) (env : ReadEnv)
  | write (fd : Int) (buf : Nat) (data : Mem) (nbytes : Int)
  | key (input : UInt8)         -- a keyboard interrupt
  | tick                        -- an interrupt of the RTC

/-- What is seen of an event: how it ended, and the bytes a read has stored. -/
structure Seen where
  outcome : Outcome
  stores : List (Nat × UInt8)
  deriving DecidableEq

/-- A call that returns, and has stored nothing. -/
def Seen.ofInt (v : Int) : Seen := ⟨.ret v, []⟩

/-- The page fault handler ends the current process; its status is the low byte
of 256. -/
def endByFault (k : Kernel) : Option (Seen × Kernel) :=
  (sysHaltC 256 k).map fun r => (⟨.fault, []⟩, r.2)

/-- One call or interrupt. -/
def step (img : Image) (k : Kernel) : Event → Option (Seen × Kernel)
  | .execute command env =>
      (sysExecuteC img command env k).bind fun r =>
        match r.1 with
        | .fault => endByFault r.2
        | o => some (⟨o, []⟩, r.2)
  | .halt status => (sysHaltC status.toNat k).map fun r => (.ofInt r.1, r.2)
  | .open filename => (sysOpenC img filename k).map fun r => (.ofInt r.1, r.2)
  | .close fd => (sysCloseC fd k).map fun r => (.ofInt r.1, r.2)
  | .read fd buf nbytes env =>
      (sysReadC img fd buf nbytes env k).map fun r => (⟨.ret r.1.1, r.1.2⟩, r.2)
  | .write fd buf data nbytes => (sysWriteC fd buf data nbytes k).map fun r => (.ofInt r.1, r.2)
  | .key input => some (.ofInt 0, { k with console := k.console.keyHandler input })
  | .tick => some (.ofInt 0, { k with rtc := { k.rtc with rtcInterrupt := 1 } })

/-- The name of the file of `tinyImage`. -/
def tinyName : CString where
  bytes := [0x61]
  nonzero := List.forall_mem_singleton.mpr (by decide)

/-- The program `a` is started. -/
def tinyExecute : Event := .execute tinyName ⟨fun _ => 0, fun _ => 0, 0⟩

/-! ### What descriptor calls can do -/

variable {img : Image} {k k' : Kernel}

/-- Putting a table into a descriptor does not change which one is first free. -/
theorem firstFree_setTable (k : Kernel) (i : Nat) (table : FdOps) :
    firstFree (k.setTable i table).cur.fileArray = firstFree k.cur.fileArray := by
  refine firstFree_congr fun j => ?_
  show ((k.setTable i table).fd j).InUse ↔ (k.fd j).InUse
  by_cases hj : j = i
  · subst hj
    rw [Kernel.setTable, Kernel.fd_setFd]
    exact Iff.rfl
  · rw [Kernel.setTable, Kernel.fd_setFd_of_ne k _ hj]

/-- What the second half of `sys_open_c` can do. -/
theorem openAs_cases {name : CString} {type : Nat} {ret : Int}
    (h : openAs img name type k = some (ret, k')) :
    (ret = -1 ∧ k' = k) ∨
      (firstFree k.cur.fileArray < 8 ∧ ret = firstFree k.cur.fileArray ∧
        ∃ r, (tableOfType type).openPtr img name
          (k.setTable (firstFree k.cur.fileArray) (tableOfType type)) = some (r, k')) := by
  unfold openAs at h
  simp only at h
  split_ifs at h with hnull hfull
  · obtain ⟨rfl, rfl⟩ := Prod.mk.inj (Option.some.inj h)
    exact .inl ⟨rfl, rfl⟩
  · obtain ⟨⟨r, k₃⟩, ho, hk⟩ := Option.map_eq_some_iff.mp h
    obtain ⟨rfl, rfl⟩ := Prod.mk.inj hk
    exact .inr ⟨not_le.mp hfull, rfl, r, ho⟩

theorem openAs_keeps {name : CString} {type : Nat} {ret : Int}
    (h : openAs img name type k = some (ret, k')) : Keeps k k' := by
  obtain ⟨-, rfl⟩ | ⟨hfull, -, r, ho⟩ := openAs_cases h
  · exact .refl _
  · -- the table goes into a descriptor that is not in use
    have hfree := firstFree_spec hfull
    have hset : Keeps k (k.setTable (firstFree k.cur.fileArray) (tableOfType type)) :=
      .setFd k hfree.1 fun _ huse => absurd huse hfree.2
    refine hset.trans (FdOps.openPtr_keeps ho ?_)
    rw [firstFree_setTable, Kernel.setTable, Kernel.fd_setFd]

/-- What `sys_open_c` can do: fail with nothing but the lookup's buffers changed,
or go on with the entry found. -/
theorem sysOpenC_cases {filename : Option CString} {ret : Int}
    (h : sysOpenC img filename k = some (ret, k')) :
    ∃ fs, (ret = -1 ∧ k' = { k with fs := fs }) ∨
      ∃ name d, filename = some name ∧ img.lookup name = some (some d) ∧
        openAs img name (img.dentryType d) { k with fs := fs } = some (ret, k') := by
  cases filename with
  | none =>
      obtain ⟨rfl, rfl⟩ := Prod.mk.inj (Option.some.inj h)
      exact ⟨k.fs, .inl ⟨rfl, rfl⟩⟩
  | some name =>
      obtain ⟨⟨found, fs⟩, hname, hr⟩ := Option.bind_eq_some_iff.mp h
      refine ⟨fs, ?_⟩
      rcases found with - | ⟨d, len⟩
      · obtain ⟨rfl, rfl⟩ := Prod.mk.inj (Option.some.inj hr)
        exact .inl ⟨rfl, rfl⟩
      · exact .inr ⟨name, d, rfl, readDentryByName_lookup hname, hr⟩

theorem sysOpenC_keeps {filename : Option CString} {ret : Int}
    (h : sysOpenC img filename k = some (ret, k')) : Keeps k k' := by
  obtain ⟨fs, ⟨-, rfl⟩ | ⟨name, d, -, -, hopen⟩⟩ := sysOpenC_cases h
  · exact .globals k fs k.rtc
  · exact (Keeps.globals k fs k.rtc).trans (openAs_keeps hopen)

/-- What `sys_close_c` can do: nothing, or call the close routine of a descriptor
from 2 on. -/
theorem sysCloseC_cases {fd : Int} {ret : Int} (h : sysCloseC fd k = some (ret, k')) :
    k' = k ∨ (2 ≤ fd ∧ (k.fd fd.toNat).fileOpPtr.closePtr fd k = some (ret, k')) := by
  unfold sysCloseC at h
  split_ifs at h with hfd hnull huse
  · exact .inl (Prod.mk.inj (Option.some.inj h)).2.symm
  · exact .inr ⟨by omega, h⟩
  · exact .inl (Prod.mk.inj (Option.some.inj h)).2.symm

theorem sysCloseC_keeps {fd : Int} {ret : Int} (h : sysCloseC fd k = some (ret, k')) :
    Keeps k k' := by
  obtain rfl | ⟨h2, hclose⟩ := sysCloseC_cases h
  · exact .refl _
  · exact FdOps.closePtr_keeps h2 hclose

/-- What `sys_write_c` can do: nothing, or call the write routine. -/
theorem sysWriteC_cases {fd : Int} {buf : Nat} {data : Mem} {nbytes : Int} {ret : Int}
    (h : sysWriteC fd buf data nbytes k = some (ret, k')) :
    k' = k ∨ (k.fd fd.toNat).fileOpPtr.writePtr fd data nbytes.toNat k = some (ret, k') := by
  unfold sysWriteC at h
  split_ifs at h with hfd hbuf hn hnull huse
  · exact .inl (Prod.mk.inj (Option.some.inj h)).2.symm
  · exact .inl (Prod.mk.inj (Option.some.inj h)).2.symm
  · exact .inl (Prod.mk.inj (Option.some.inj h)).2.symm
  · exact .inr h
  · exact .inl (Prod.mk.inj (Option.some.inj h)).2.symm

theorem sysWriteC_keeps {fd : Int} {buf : Nat} {data : Mem} {nbytes : Int} {ret : Int}
    (h : sysWriteC fd buf data nbytes k = some (ret, k')) : Keeps k k' := by
  obtain rfl | hwrite := sysWriteC_cases h
  · exact .refl _
  · exact FdOps.writePtr_keeps hwrite

/-- What the checks of `sys_read_c` let through. -/
structure ReadAccepted (fd : Int) (buf : Nat) (nbytes : Int) (k : Kernel) : Prop where
  fd_nonneg : 0 ≤ fd
  fd_lt : fd < 8
  buf_ne : buf ≠ 0
  nbytes_nonneg : 0 ≤ nbytes
  curPcb_ne : k.curPcb ≠ 0
  inUse : (k.fd fd.toNat).InUse

instance (fd : Int) (buf : Nat) (nbytes : Int) (k : Kernel) :
    Decidable (ReadAccepted fd buf nbytes k) :=
  decidable_of_iff (0 ≤ fd ∧ fd < 8 ∧ buf ≠ 0 ∧ 0 ≤ nbytes ∧ k.curPcb ≠ 0 ∧
      (k.fd fd.toNat).InUse)
    ⟨fun ⟨h₁, h₂, h₃, h₄, h₅, h₆⟩ => ⟨h₁, h₂, h₃, h₄, h₅, h₆⟩,
      fun h => ⟨h.fd_nonneg, h.fd_lt, h.buf_ne, h.nbytes_nonneg, h.curPcb_ne, h.inUse⟩⟩

/-- A read that is let through is the driver's. -/
theorem sysReadEffect_accepted {fd : Int} {buf : Nat} {nbytes : Int}
    (h : ReadAccepted fd buf nbytes k) (env : ReadEnv) :
    sysReadEffect img fd buf nbytes env k =
      (k.fd fd.toNat).fileOpPtr.readPtr img fd buf nbytes.toNat env k := by
  have h0 := h.fd_nonneg
  have h8 := h.fd_lt
  have hn := h.nbytes_nonneg
  rw [sysReadEffect, if_neg (by simp only [fdSize]; omega), if_neg h.buf_ne, if_neg (by omega),
    if_neg h.curPcb_ne, if_neg (not_not.mpr h.inUse)]

/-- With a process running, every other one is refused. -/
theorem sysReadEffect_refused {fd : Int} {buf : Nat} {nbytes : Int} (hcur : k.curPcb ≠ 0)
    (h : ¬ ReadAccepted fd buf nbytes k) (env : ReadEnv) :
    sysReadEffect img fd buf nbytes env k = some .refused := by
  rw [sysReadEffect]
  split_ifs with hfd hbuf hneg huse
  · rfl
  · rfl
  · rfl
  · simp only [fdSize] at hfd
    exact absurd ⟨by omega, by omega, hbuf, by omega, hcur, huse⟩ h
  · rfl

theorem sysReadEffect_cases {fd : Int} {buf : Nat} {nbytes : Int} {env : ReadEnv} {e : ReadEffect}
    (h : sysReadEffect img fd buf nbytes env k = some e) :
    e = .refused ∨ (ReadAccepted fd buf nbytes k ∧
      (k.fd fd.toNat).fileOpPtr.readPtr img fd buf nbytes.toNat env k = some e) := by
  unfold sysReadEffect at h
  split_ifs at h with hfd hbuf hn hnull huse
  · exact .inl (Option.some.inj h).symm
  · exact .inl (Option.some.inj h).symm
  · exact .inl (Option.some.inj h).symm
  · simp only [fdSize] at hfd
    exact .inr ⟨⟨by omega, by omega, hbuf, by omega, hnull, huse⟩, h⟩
  · exact .inl (Option.some.inj h).symm

/-- A descriptor that is not the terminal's is one of 2 to 7. -/
theorem FilesOk.two_le {fa : Nat → FileDesc} (h : FilesOk fa) {fd : Int} (hfd : 0 ≤ fd)
    (htable : (fa fd.toNat).fileOpPtr ≠ .terminalTable) : 2 ≤ fd := by
  by_contra hlt
  have h01 : fd = 0 ∨ fd = 1 := by omega
  rcases h01 with rfl | rfl
  · exact htable h.stdin.1
  · exact htable h.stdout.1

/-- What a descriptor in use is for, if not for the terminal. -/
theorem FilesOk.of_table {fa : Nat → FileDesc} (h : FilesOk fa) {fd : Int} (h0 : 0 ≤ fd)
    (h8 : fd < 8) (huse : (fa fd.toNat).InUse) {type : Nat} (htype : type ≤ 2)
    (htable : (fa fd.toNat).fileOpPtr = tableOfType type) :
    2 ≤ fd ∧ (fa fd.toNat).flags.fileType = type := by
  have hinj : ∀ m < 3, ∀ n < 3, tableOfType m = tableOfType n → m = n := by decide
  have hterm : tableOfType type ≠ .terminalTable :=
    (by decide : ∀ m < 3, tableOfType m ≠ .terminalTable) type (by omega)
  have h2 : 2 ≤ fd := h.two_le h0 (htable ▸ hterm)
  have hok := h.used fd.toNat (by omega) (by omega) huse
  exact ⟨h2, hinj _ (Nat.lt_succ_of_le hok.type_le) _ (by omega) (hok.table.symm.trans htable)⟩

theorem sysReadEffect_keeps {fd : Int} {buf : Nat} {nbytes : Int} {env : ReadEnv} {e : ReadEffect}
    (hfiles : k.curPcb ≠ 0 → FilesOk k.cur.fileArray)
    (h : sysReadEffect img fd buf nbytes env k = some e) : Keeps k (e.after k) := by
  rcases sysReadEffect_cases h with rfl | ⟨ha, hread⟩
  · exact .refl k
  · refine FdOps.readPtr_keeps ⟨ha.fd_nonneg, ha.fd_lt⟩ hread fun hfile => ?_
    refine (hfiles ha.curPcb_ne).two_le ha.fd_nonneg fun hterm => ?_
    exact absurd (hfile.symm.trans hterm) (by decide)

/-! ### How far a read stores -/

/-- A bound on the bytes that a read on a descriptor stores, whatever is in the
file and whatever is typed. -/
def readRoom (img : Image) (fd : Int) (nbytes : Nat) (k : Kernel) : Nat :=
  match (k.fd fd.toNat).fileOpPtr with
  | .fileTable => min nbytes (img.fileLength (k.fd fd.toNat).inode + 1)
  | .dirTable => min nbytes nameLen + 1
  | .terminalTable => if fd = 0 then keyBufSize else 0
  | .rtcTable | .null | .wild => 0

/-- The bytes `[buf, buf + n)` lie in the program page. -/
def BufferInPage (buf n : Nat) : Prop := n = 0 ∨ (0x08000000 ≤ buf ∧ buf + n ≤ 0x08400000)

instance (buf n : Nat) : Decidable (BufferInPage buf n) := inferInstanceAs (Decidable (_ ∨ _))

/-- Stores to a buffer that does not wrap around the address space. -/
theorem storesTo_range {buf n : Nat} {ps : List (Nat × UInt8)} (h : buf + n ≤ 2 ^ 32)
    (hps : ∀ p ∈ ps, p.1 < n) : ∀ q ∈ storesTo buf ps, buf ≤ q.1 ∧ q.1 < buf + n := by
  intro q hq
  obtain ⟨p, hp, rfl⟩ := mem_storesTo.mp hq
  have hlt := hps p hp
  have hmod : (buf + p.1) % 2 ^ 32 = buf + p.1 := Nat.mod_eq_of_lt (by omega)
  show buf ≤ (buf + p.1) % 2 ^ 32 ∧ (buf + p.1) % 2 ^ 32 < buf + n
  rw [hmod]
  omega

theorem storesTo_inProgramPage {buf n : Nat} {ps : List (Nat × UInt8)} (h : BufferInPage buf n)
    (hps : ∀ p ∈ ps, p.1 < n) : ∀ q ∈ storesTo buf ps, InProgramPage q.1 := by
  intro q hq
  rcases h with h0 | ⟨hlo, hhi⟩
  · obtain ⟨p, hp, -⟩ := mem_storesTo.mp hq
    have hlt := hps p hp
    omega
  · have hrange := storesTo_range (by omega) hps q hq
    exact ⟨by omega, by omega⟩

/-- Nothing is stored, at however few places. -/
theorem no_stores_lt (n : Nat) : ∀ p ∈ ([] : List (Nat × UInt8)), p.1 < n :=
  fun _ hp => absurd hp List.not_mem_nil

theorem fileRead_stores_lt (img : Image) (fd buf nbytes : Nat) (k : Kernel) :
    ∃ ps, (fileRead img fd buf nbytes k).stores = storesTo buf ps ∧
      ∀ p ∈ ps, p.1 < min nbytes (img.fileLength (k.fd fd).inode + 1) := by
  obtain h | ⟨-, h⟩ := fileRead_cases img fd buf nbytes k
  · exact ⟨[], by rw [h]; rfl, no_stores_lt _⟩
  · refine ⟨_, by rw [h], fun p hp => ?_⟩
    have := (readDataAt_ok img (k.fd fd).inode (k.fd fd).filePos buf nbytes
      (k.fd fd).flags.inodeIdx).stores p hp
    omega

theorem dirRead_stores_lt {fd : Int} {buf nbytes : Nat} {e : ReadEffect}
    (h : dirRead img fd buf nbytes k = some e) :
    ∃ ps, e.stores = storesTo buf ps ∧ ∀ p ∈ ps, p.1 < min nbytes nameLen + 1 := by
  obtain ⟨hst, -⟩ | ⟨-, -, -, fs, hst, -⟩ := dirRead_cases h
  · exact ⟨[], hst, no_stores_lt _⟩
  · refine ⟨_, hst, fun p hp => ?_⟩
    have hlt := le_of_mem_storesAt hp
    have hle := length_dirBytes_le fs.readDentry nbytes
    omega

theorem terminalRead_stores_lt {fd : Int} {buf : Nat} {events : List ReadEvent} {e : ReadEffect}
    (hk : k.console.kbd.Ok) (h : terminalRead fd buf events k = some e) :
    ∃ ps, e.stores = storesTo buf ps ∧ ∀ p ∈ ps, p.1 < if fd = 0 then keyBufSize else 0 := by
  obtain rfl | ⟨rfl, ret, rfl⟩ := terminalRead_cases h
  · exact ⟨[], rfl, no_stores_lt _⟩
  · refine ⟨_, rfl, fun p hp => ?_⟩
    rw [if_pos rfl]
    exact reader_stores_lt (r := Reader.call k.console) hk (no_stores_lt _) events p hp

/-- A read whose buffer is in the program page stores to the program page only. -/
theorem sysReadEffect_inProgramPage {fd : Int} {buf : Nat} {nbytes : Int} {env : ReadEnv}
    {e : ReadEffect} (hk : k.console.kbd.Ok) (h : sysReadEffect img fd buf nbytes env k = some e)
    (hfits : ReadAccepted fd buf nbytes k → BufferInPage buf (readRoom img fd nbytes.toNat k)) :
    ∀ q ∈ e.stores, InProgramPage q.1 := by
  rcases sysReadEffect_cases h with rfl | ⟨ha, hread⟩
  · exact fun q hq => absurd hq List.not_mem_nil
  have hpage := hfits ha
  unfold readRoom at hpage
  -- each driver has its own bound, which `readRoom` is
  cases hops : (k.fd fd.toNat).fileOpPtr with
  | null | wild =>
      rw [hops] at hread
      cases hread
  | rtcTable =>
      rw [hops] at hread
      obtain rfl := rtcRead_some hread
      exact fun q hq => absurd hq List.not_mem_nil
  | dirTable =>
      rw [hops] at hread hpage
      obtain ⟨ps, hst, hlt⟩ := dirRead_stores_lt hread
      rw [hst]
      exact storesTo_inProgramPage hpage hlt
  | fileTable =>
      rw [hops] at hread hpage
      obtain rfl := Option.some.inj hread
      obtain ⟨ps, hst, hlt⟩ := fileRead_stores_lt img fd.toNat buf nbytes.toNat k
      rw [hst]
      exact storesTo_inProgramPage hpage hlt
  | terminalTable =>
      rw [hops] at hread hpage
      obtain ⟨ps, hst, hlt⟩ := terminalRead_stores_lt hk hread
      rw [hst]
      exact storesTo_inProgramPage hpage hlt

end LinuxBasedOs
