/-
LinuxBasedOs/Overrun.lean

Commands that are longer than `new_pcb.input`, and what user code can reach.

`strcpy(new_pcb.input, command)` does not look at the 1024 bytes of the array.  `new_pcb` is on
the kernel stack of the calling process, and that stack ends where the PCB of the same process
begins; so a long command runs over the rest of `new_pcb`, over the locals and the return
address of `sys_execute_c`, and then over the caller's PCB.  How far it is to there is a matter
of the compiler, and so is what becomes of `dentry.inode_num` on the way: both are in
`ExecFrame`.  `step` has no successor for such a command; `ProcessCall.step` has.

Main results: with commands that fit, user code reaches its own frame and the video page only
(`user_reach`); with one that does not, it can come to reach the kernel
(`kernel_frame_reached`).
-/
import LinuxBasedOs.CommandLine
import LinuxBasedOs.ProcessRuns

namespace LinuxBasedOs

open Bytes Transition

/-! ### The copy -/

/-- The stack frame of `sys_execute_c`: the address of `new_pcb.input`, and what is in
`dentry.inode_num` after the copy. -/
structure ExecFrame where
  input : Nat
  inode : Nat

/-- The part of the copy behind the array. -/
def overrunStores (command : CString) (frame : ExecFrame) : List (Nat × UInt8) :=
  ((inputStores command).drop 1024).map fun p => (frame.input + p.1, p.2)

/-- Stores up to the first that faults; the flag says that none did. -/
def Kernel.storeUntil : List (Nat × UInt8) → Kernel → Kernel × Bool
  | [], k => (k, true)
  | p :: ps, k =>
      match k.store p.1 p.2 with
      | none => (k, false)
      | some k' => k'.storeUntil ps

/-- As `load`, for a command that does not fit.  The fields of `new_pcb` behind the array are
assigned after the copy, so that nothing of it remains in them. -/
def loadLong (img : Image) (command : CString) (env : ExecEnv) (frame : ExecFrame) (k : Kernel) :
    Outcome × Kernel :=
  let r := k.storeUntil (overrunStores command frame)
  if r.2 = false then (.fault, r.1)
  else
    match r.1.paging.getBigPage proAddr with
    | none => (.ret (-1), r.1)
    | some _ =>
        match r.1.loading.storeAll (programStores img frame.inode) with
        | none => (.fault, r.1.loading)
        | some k' => (.entered, enter command env r.1.paging.base k')

/-- `sys_execute_c` for a command that does not fit; the checks are those of `sysExecuteC`. -/
def sysExecuteLong (img : Image) (command : CString) (env : ExecEnv) (frame : ExecFrame)
    (k : Kernel) : Option (Outcome × Kernel) :=
  if 6 ≤ k.processNumber then some (.ret (-1), k)
  else
    (readDentryByName img (commandWord command) k.fs).map fun r =>
      let k' := { k with fs := r.2 }
      match r.1 with
      | none => (.ret (-1), k')
      | some (d, _) =>
          if img.dentryType d ≠ regFile then (.ret (-1), k')
          else if ¬ isElf img (img.dentryInode d) env.header then (.ret (-1), k')
          else loadLong img command env frame k'

/-! ### Calls on processes -/

/-- The calls that start and end processes. -/
inductive ProcessCall where
  | execute (command : CString) (env : ExecEnv) (frame : ExecFrame)
  | halt (status : UInt8)

/-- The call as an event. -/
def ProcessCall.event : ProcessCall → Event
  | .execute command env _ => .execute command env
  | .halt status => .halt status

/-- One call.  A command of 1024 characters or more overruns its array, and what is in the
frame then decides. -/
def ProcessCall.step (img : Image) (k : Kernel) : ProcessCall → Option (Seen × Kernel)
  | .execute command env frame =>
      if command.bytes.length < 1024 then LinuxBasedOs.step img k (.execute command env)
      else
        (sysExecuteLong img command env frame k).bind fun r =>
          match r.1 with
          | .fault => endByFault r.2
          | o => some (⟨o, []⟩, r.2)
  | .halt status => LinuxBasedOs.step img k (.halt status)

/-- The command fits into `new_pcb.input`, with its NUL. -/
def ProcessCall.Fits : ProcessCall → Prop
  | .execute command _ _ => command.bytes.length < 1024
  | .halt _ => True

theorem ProcessCall.step_of_fits {c : ProcessCall} (h : c.Fits) (img : Image) (k : Kernel) :
    c.step img k = LinuxBasedOs.step img k c.event := by
  cases c with
  | execute command env frame => exact if_pos h
  | halt status => rfl

/-! ### What user code can reach -/

variable {L : Layout} {img : Image}

theorem Event.IsProcessCall.lands {e : Event} (h : e.IsProcessCall) (k : Kernel) :
    e.Lands img k := by
  cases e with
  | read fd buf nbytes env => exact h.elim
  | execute | halt | «open» | close | write | key | tick => trivial

/-- What user code reaches through the page tables of a process. -/
theorem walk_user {base v p : Nat} (hbase : base < 2 ^ 10)
    (hwalk : (paged L base).walk v = some ⟨p, true⟩) :
    (base * 2 ^ 22 ≤ p ∧ p < (base + 1) * 2 ^ 22) ∨ (0xB8000 ≤ p ∧ p < 0xB9000) := by
  rw [walk_paged L hbase] at hwalk
  split_ifs at hwalk
  · cases hwalk
  · cases hwalk
  · obtain ⟨rfl, -⟩ := Translation.mk.inj (Option.some.inj hwalk)
    left
    omega
  · obtain ⟨rfl, -⟩ := Translation.mk.inj (Option.some.inj hwalk)
    right
    omega

/-- With commands that fit, a run of calls is a run of the kernel. -/
theorem run_calls {cs : List ProcessCall} (hcs : ∀ c ∈ cs, c.Fits) (k : Kernel) :
    run (ProcessCall.step img) k cs = run (step img) k (cs.map ProcessCall.event) := by
  induction cs generalizing k with
  | nil => rfl
  | cons c cs ih =>
      have hrest : ∀ c ∈ cs, c.Fits := fun c' hc' => hcs c' (List.mem_cons_of_mem c hc')
      rw [List.map_cons, run, run, ProcessCall.step_of_fits (hcs c List.mem_cons_self)]
      simp only [ih hrest]

theorem run_calls_inv {cs : List ProcessCall} (hcs : ∀ c ∈ cs, c.Fits) {s t : Kernel}
    {os : List Seen} (hs : s.Inv L) (hrun : run (ProcessCall.step img) s cs = some (os, t)) :
    t.Inv L := by
  rw [run_calls hcs] at hrun
  have hcalls : ∀ e ∈ cs.map ProcessCall.event, e.IsProcessCall := by
    intro e he
    obtain ⟨c, -, rfl⟩ := List.mem_map.mp he
    cases c with
    | execute command env frame => trivial
    | halt status => trivial
  exact run_inv (fun k e _ hg => Event.IsProcessCall.lands hg k) hs (along_of_forall hcalls _) hrun

/-- **Isolation.**  In every run of `execute` and `halt` from boot whose commands fit, while
`n ≥ 1` processes run: an address that the page tables translate for user code leads to the
current process's frame or to the video page, and so neither to the kernel nor to another
process. -/
theorem user_reach {L : Layout} {pcbs : Nat → Pcb} {screen : Screen} {rtc : Rtc}
    {img : Image} {cs : List ProcessCall} {os : List Seen} {k : Kernel}
    (hcs : ∀ c ∈ cs, c.Fits)
    (hrun : run (ProcessCall.step img) (.boot L pcbs screen rtc) cs = some (os, k))
    (hn : 1 ≤ k.processNumber) {v p : Nat}
    (hwalk : k.paging.walk v = some ⟨p, true⟩) :
    (((k.processNumber + 1) * 2 ^ 22 ≤ p ∧ p < (k.processNumber + 2) * 2 ^ 22) ∨
      (0xB8000 ≤ p ∧ p < 0xB9000)) ∧
    ¬ (2 ^ 22 ≤ p ∧ p < 2 * 2 ^ 22) ∧
    ∀ j, 1 ≤ j → j < k.processNumber → ¬ ((j + 1) * 2 ^ 22 ≤ p ∧ p < (j + 2) * 2 ^ 22) := by
  have h := run_calls_inv hcs (Kernel.boot_inv L pcbs screen rtc) hrun
  have hbase := h.base hn
  rw [h.paging] at hwalk
  have hreach := walk_user h.base_lt hwalk
  rw [hbase] at hreach
  refine ⟨hreach, by omega, fun j hj hlt => ?_⟩
  omega

/-- The program `a` is started; the frame does not matter for a command that fits. -/
def startA : ProcessCall := .execute tinyName ⟨fun _ => 0, fun _ => 0, 0⟩ ⟨0, 0⟩

/-- The first byte of the program that has just been started. -/
theorem user_reach_tiny :
    (final (ProcessCall.step tinyImage) tinyBoot [startA]).paging.walk 0x8048000 =
        some ⟨0x848000, true⟩ ∧
      ¬ (2 ^ 22 ≤ 0x848000 ∧ 0x848000 < 2 * 2 ^ 22) := by
  obtain ⟨os, hrun⟩ := run_final (ProcessCall.step tinyImage) tinyBoot [startA] (by decide +kernel)
  have hwalk : (final (ProcessCall.step tinyImage) tinyBoot [startA]).paging.walk 0x8048000 =
      some ⟨0x848000, true⟩ := by decide +kernel
  refine ⟨hwalk, (user_reach (fun c hc => ?_) hrun (by decide +kernel) hwalk).2.1⟩
  obtain rfl := List.mem_singleton.mp hc
  exact (by decide : tinyName.bytes.length < 1024)

/-! ### A command that is too long -/

/-- A command of 2442 characters that names the program `a`. -/
def overrunCommand : CString where
  bytes := [0x61, 0x20] ++ List.replicate 2438 0x62 ++ [0x01, 0x04]
  nonzero := by
    intro b hb
    simp only [List.mem_append, List.mem_replicate, List.mem_cons, List.not_mem_nil, or_false] at hb
    rcases hb with ((rfl | rfl) | ⟨-, rfl⟩) | rfl | rfl
    · decide
    · decide
    · decide
    · decide
    · decide

/-- The frame in the second process, as it is in the compiled `sys_calls.o`: `new_pcb.input` is
0x4C0 bytes below EBP, and EBP 0x44 below the end of the stack, at 0x7FC000; `dentry.inode_num`
is at the characters 1104 to 1107 of the command. -/
def builtFrame : ExecFrame := ⟨0x7FC000 - 0x44 - 0x4C0, 0x62626262⟩

/-- The program `a` is started twice, and the second process starts the third with the long
command.  The characters from 1284 on fall on the PCB of the second process: no descriptor is
in use any more, and `old_phys_addr`, at 2440, is 0x401.  After the third process and the second
have ended, the program page of the first is the kernel's frame. -/
theorem kernel_frame_reached :
    ((run (ProcessCall.step tinyImage) tinyBoot [startA, startA,
        .execute overrunCommand ⟨fun _ => 0, fun _ => 0, 0⟩ builtFrame, .halt 0, .halt 0]).map
      fun r => (r.2.processNumber, r.2.paging.walk 0x8048000)) = some (1, some ⟨0x448000, true⟩) := by
  decide +kernel

end LinuxBasedOs
