/-
LinuxBasedOs/Linkage.lean

The assembly path by which a process ends (exceptions.S): `sys_halt`, the shared
tail `exec_done`, and the two ways out, `DONE` and `EXEC_DONE`.

`sys_halt_c` does not return to its own caller: it reloads EBP from the PCB, so
that its `leave; ret` goes back to the instruction after the parent's call of
`sys_execute_c`, which is `exec_done`, on the parent's kernel stack.  Only its
early exits return to `sys_halt`.  EBX is not touched on the way, so that the
tail, run on behalf of the parent, still sees the child's EBX.

The tail goes back to `sys_halt` if EAX is 0 and otherwise leaves through
`EXEC_DONE`, which returns EBX.  A process therefore ends alone, with the low
byte of its status, exactly if the status is one of 1 to 255.
-/
import LinuxBasedOs.ProcessRuns

namespace LinuxBasedOs

open Bytes Transition

variable {L : Layout} {img : Image}

/-! ### Entry points -/

/-- The exception entry points.  All of them load 256 into EBX and jump to
`sys_halt`. -/
inductive ExceptionEntry where
  | divideError | nmiInterrupt | breakpoint | overflow | boundRange | invalidOpcode
  | deviceNotAvailable | doubleFault | coprocSeg | invalidTss | segmentMissing | stackSegFault
  | generalProt | pageFault | floatError | alignCheck | machineCheck | floatExcep
  deriving DecidableEq

/-- The ways in which a process ends: the system call, or an exception. -/
inductive HaltEntry where
  | int80 (ebx : BitVec 32)           -- INT 0x80 with EAX = 1
  | exception (e : ExceptionEntry)
  deriving DecidableEq

/-- EBX when `sys_halt` is reached. -/
def HaltEntry.ebx : HaltEntry → BitVec 32
  | .int80 ebx => ebx
  | .exception _ => 256

/-- What the parent's `execute` should return: the low byte of the status, or 256
after an exception. -/
def HaltEntry.status : HaltEntry → BitVec 32
  | .int80 ebx => BitVec.ofNat 32 (ebx.toNat % 256)
  | .exception _ => 256

/-! ### The path -/

/-- What is left when `iret` is reached: the value in EAX, by how many bytes the
stack pointer missed the saved registers, and the kernel's state. -/
structure Iret where
  eax : BitVec 32
  disp : Int
  kernel : Kernel

/-- What `exec_done` decides on. -/
inductive Tail where
  | sysHalt | done | execDone

/-- The comparisons of `exec_done`. -/
def execDone (eax : BitVec 32) : Tail :=
  if eax = 0 then .sysHalt
  else if eax = -1 then .done
  else if eax = 256 then .done
  else .execDone

/-- From `sys_halt` to `iret`.  Every jump back to `sys_halt` has ended a process,
so `fuel` more than there are processes is enough. -/
def sysHalt : (fuel : Nat) → (ebx : BitVec 32) → Kernel → Option Iret
  | 0, _, _ => none
  | fuel + 1, ebx, k =>
      (sysHaltC (ebx.toNat % 256) k).bind fun r =>
        let eax := BitVec.ofInt 32 r.1
        -- an early exit returns behind the call: two bytes were pushed, and four
        -- and four more are taken off; otherwise the stack is the parent's
        let disp : Int := if r.1 = -1 then -2 + 4 + 4 else 0
        match execDone eax with
        | .sysHalt => sysHalt fuel ebx r.2
        | .done => some ⟨eax, disp, r.2⟩
        | .execDone => some ⟨ebx, disp, r.2⟩

/-- The current process ends. -/
def endProcess (e : HaltEntry) (k : Kernel) : Option Iret := sysHalt (k.processNumber + 1) e.ebx k

/-! ### Where it leads -/

theorem execDone_byte {v : Nat} (h0 : v ≠ 0) (h : v < 256) :
    execDone (BitVec.ofInt 32 (v : Int)) = .execDone := by
  have hlt : v < 2 ^ 32 := by omega
  have hv : (BitVec.ofInt 32 (v : Int)).toNat = v := by
    rw [BitVec.ofInt_natCast, BitVec.toNat_ofNat, Nat.mod_eq_of_lt hlt]
  have hne : ∀ w : BitVec 32, w.toNat ≠ v → BitVec.ofInt 32 (v : Int) ≠ w := by
    intro w hw heq
    rw [heq] at hv
    exact hw hv
  rw [execDone, if_neg (hne 0 h0.symm), if_neg (hne (-1) (fun h' => ?_)),
    if_neg (hne 256 (fun h' => ?_))]
  · have h256 : (256 : BitVec 32).toNat = 256 := rfl
    omega
  · have hmax : (-1 : BitVec 32).toNat = 4294967295 := rfl
    omega

/-- With a status whose low byte is not 0, one process ends, and EBX is
returned. -/
theorem sysHalt_of_byte_ne_zero {k : Kernel} (h : k.Inv L) (hn : 1 ≤ k.processNumber)
    {ebx : BitVec 32} (hbyte : ebx.toNat % 256 ≠ 0) (fuel : Nat) :
    ∃ t, sysHalt (fuel + 1) ebx k = some ⟨ebx, 0, t⟩ ∧ Ended k t := by
  obtain ⟨t, ht, hended, -⟩ := h.halt hn (ebx.toNat % 256)
  have hlt : ebx.toNat % 256 < 256 := Nat.mod_lt _ (by decide)
  rw [Nat.mod_mod] at ht
  refine ⟨t, ?_, hended⟩
  rw [sysHalt, ht, Option.bind_some]
  simp only
  rw [execDone_byte hbyte hlt, if_neg (by omega)]

/-- With a status whose low byte is 0, every process ends, one after the other;
then `sys_halt_c` returns -1 and the stack pointer is off by six bytes. -/
theorem sysHalt_of_byte_zero {k : Kernel} (h : k.Inv L) {ebx : BitVec 32}
    (hbyte : ebx.toNat % 256 = 0) {fuel : Nat} (hfuel : k.processNumber < fuel) :
    ∃ t, sysHalt fuel ebx k = some ⟨-1, 6, t⟩ ∧ t.processNumber = 0 := by
  induction fuel generalizing k with
  | zero => omega
  | succ fuel ih =>
      rcases Nat.eq_zero_or_pos k.processNumber with h0 | hpos
      · refine ⟨k, ?_, h0⟩
        rw [sysHalt, sysHaltC_zero h0]
        rfl
      · obtain ⟨t, ht, hended, hinv⟩ := h.halt hpos (ebx.toNat % 256)
        have hnum := hended.processNumber
        obtain ⟨u, hu, hu0⟩ := ih hinv (by omega)
        refine ⟨u, ?_, hu0⟩
        rw [sysHalt, ht, Option.bind_some, hbyte]
        exact hu

/-! ### When exactly one process ends -/

/-- The current process, and no other, has ended, and the parent's `execute`
returns with its result in EAX. -/
structure EndsAlone (e : HaltEntry) (k : Kernel) (r : Iret) : Prop where
  processNumber : r.kernel.processNumber = k.processNumber - 1
  curPcb : r.kernel.curPcb = k.cur.oldPcbPtr
  stack : r.disp = 0
  eax : r.eax = e.status

theorem HaltEntry.status_ne_neg_one (e : HaltEntry) : e.status ≠ -1 := by
  intro heq
  have hnat := congrArg BitVec.toNat heq
  have hmax : (-1 : BitVec 32).toNat = 4294967295 := rfl
  rw [hmax] at hnat
  cases e with
  | int80 ebx =>
      rw [HaltEntry.status, BitVec.toNat_ofNat] at hnat
      omega
  | exception e =>
      have h256 : (HaltEntry.exception e).status.toNat = 256 := rfl
      omega

/-- **A process ends alone exactly if its status is one of 1 to 255.**  In every
state with a process running that is reached from boot by a run whose reads and
commands fit, and for every way in which the process can end. -/
theorem endProcess_alone_iff {L : Layout} {pcbs : Nat → Pcb} {screen : Screen} {rtc : Rtc}
    {img : Image} {es : List Event} {os : List Seen} {k : Kernel}
    (hes : Along (step img) (fun k e => e.Fits img k) (.boot L pcbs screen rtc) es)
    (hrun : run (step img) (.boot L pcbs screen rtc) es = some (os, k))
    (hn : 1 ≤ k.processNumber) (e : HaltEntry) :
    (∃ r, endProcess e k = some r ∧ EndsAlone e k r) ↔
      ∃ ebx, e = .int80 ebx ∧ 1 ≤ ebx.toNat ∧ ebx.toNat ≤ 255 := by
  have h : k.Inv L := run_boot_inv hes hrun
  constructor
  · rintro ⟨r, hr, halone⟩
    by_cases hbyte : e.ebx.toNat % 256 = 0
    · -- everything has ended, and EAX is -1
      obtain ⟨t, ht, -⟩ := sysHalt_of_byte_zero h hbyte (Nat.lt_succ_self _)
      have hr' : r = ⟨-1, 6, t⟩ := Option.some.inj (hr.symm.trans ht)
      have heax := halone.eax
      rw [hr'] at heax
      exact absurd heax.symm e.status_ne_neg_one
    · obtain ⟨t, ht, -⟩ := sysHalt_of_byte_ne_zero h hn hbyte k.processNumber
      have hr' : r = ⟨e.ebx, 0, t⟩ := Option.some.inj (hr.symm.trans ht)
      have heax := halone.eax
      rw [hr'] at heax
      cases e with
      | exception e => exact absurd (by decide : (256 : BitVec 32).toNat % 256 = 0) hbyte
      | int80 ebx =>
          have hnat : ebx.toNat = ebx.toNat % 256 % 2 ^ 32 := by
            have := congrArg BitVec.toNat heax
            rwa [HaltEntry.status, BitVec.toNat_ofNat] at this
          have hne : ebx.toNat % 256 ≠ 0 := hbyte
          exact ⟨ebx, rfl, by omega, by omega⟩
  · rintro ⟨ebx, rfl, hlo, hhi⟩
    have hmod : ebx.toNat % 256 = ebx.toNat := Nat.mod_eq_of_lt (by omega)
    have hbyte : ebx.toNat % 256 ≠ 0 := by omega
    obtain ⟨t, ht, hended⟩ := sysHalt_of_byte_ne_zero h hn hbyte k.processNumber
    refine ⟨_, ht, hended.processNumber, hended.curPcb, rfl, ?_⟩
    show ebx = BitVec.ofNat 32 (ebx.toNat % 256)
    rw [hmod, BitVec.ofNat_toNat, BitVec.setWidth_eq]

/-- A process that ends with status 3 ends alone. -/
theorem endProcess_alone_three :
    let k := final (step tinyImage) tinyBoot [tinyExecute, tinyExecute]
    ∃ r, endProcess (.int80 3) k = some r ∧ EndsAlone (.int80 3) k r := by
  obtain ⟨os, hrun⟩ := run_final (step tinyImage) tinyBoot [tinyExecute, tinyExecute]
    (by decide +kernel)
  exact (endProcess_alone_iff (by decide +kernel) hrun (by decide +kernel) (.int80 3)).mpr
    ⟨3, rfl, by decide, by decide⟩

/-- Of two processes the second ends.  With EBX 0 both have ended, EAX is -1, and the stack
pointer is off by six bytes; with EBX 259 the first one goes on, but EAX is 259, and not the
low byte 3. -/
theorem endProcess_cascade :
    let ended (ebx : BitVec 32) :=
      (run (step tinyImage) tinyBoot [tinyExecute, tinyExecute]).bind fun r =>
        (endProcess (.int80 ebx) r.2).map fun i =>
          (r.2.processNumber, i.kernel.processNumber, i.eax, i.disp)
    ended 0 = some (2, 0, -1, 6) ∧ ended 259 = some (2, 1, 259, 0) := by
  decide +kernel

end LinuxBasedOs
