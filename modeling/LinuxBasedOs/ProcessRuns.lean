/-
LinuxBasedOs/ProcessRuns.lean

Whole runs of the kernel, from boot.

* The processes form a stack: with `n` of them running, the current PCB, the
  kernel stack and the program page are the `n`-th, and the chain of PCBs goes
  down from there.  When a process ends, its parent finds everything as it was
  before the `execute`, whatever happened in between (`Frame`).
* The descriptors of the running process are as they should be, and can be
  closed.

Both hold of the runs whose reads have their buffer in the program page.
`sys_read_c` does not check that: a buffer at the address of a PCB makes the
kernel overwrite it.
-/
import LinuxBasedOs.Process

namespace LinuxBasedOs

open Bytes Transition

variable {L : Layout} {img : Image}

/-! ### Reachable states -/

/-- A run whose reads store to the program page keeps the invariant. -/
theorem run_inv {G : Kernel → Event → Prop} (hG : ∀ k e, k.Inv L → G k e → e.Lands img k)
    {s t : Kernel} {es : List Event} {os : List Seen} (hs : s.Inv L)
    (hes : Along (step img) G s es) (hrun : run (step img) s es = some (os, t)) : t.Inv L :=
  run_invariant (I := Kernel.Inv L)
    (fun _ _ _ _ hI hg hst => (step_advance hI (hG _ _ hI hg) hst).inv hI) hs hes hrun

/-- In particular it holds after a run from boot whose reads and commands fit. -/
theorem run_boot_inv {pcbs : Nat → Pcb} {screen : Screen} {rtc : Rtc} {es : List Event}
    {os : List Seen} {k : Kernel}
    (hes : Along (step img) (fun k e => e.Fits img k) (.boot L pcbs screen rtc) es)
    (hrun : run (step img) (.boot L pcbs screen rtc) es = some (os, k)) : k.Inv L :=
  run_inv (fun _ _ hI hg => hg.1.lands hI.keyboard) (Kernel.boot_inv L pcbs screen rtc) hes hrun

/-! ### The chain of PCBs -/

/-- The addresses visited from `a` on by following `old_pcb_ptr` to NULL, `fuel`
of them at most. -/
def Kernel.chain (k : Kernel) : Nat → Nat → List Nat
  | 0, _ => []
  | fuel + 1, a => if a = 0 then [] else a :: k.chain fuel (k.pcbs a).oldPcbPtr

/-- The places of the first `n` processes, the last one first. -/
def slots (n : Nat) : List Nat := (List.range n).reverse.map fun i => slot (i + 1)

theorem slots_succ (n : Nat) : slots (n + 1) = slot (n + 1) :: slots n := by
  simp [slots, List.range_succ]

theorem length_slots (n : Nat) : (slots n).length = n := by
  simp [slots]

theorem nodup_slots {n : Nat} (hn : n ≤ 6) : (slots n).Nodup := by
  refine List.Nodup.map_on ?_ (List.nodup_reverse.mpr List.nodup_range)
  intro i hi j hj heq
  rw [List.mem_reverse, List.mem_range] at hi hj
  have := slot_inj (by omega) (by omega) heq
  omega

theorem Kernel.Inv.chain_pcbAddr {k : Kernel} (h : k.Inv L) {j fuel : Nat}
    (hj : j ≤ k.processNumber) (hfuel : j ≤ fuel) : k.chain fuel (pcbAddr j) = slots j := by
  induction j generalizing fuel with
  | zero =>
      cases fuel with
      | zero => rfl
      | succ fuel => rfl
  | succ j ih =>
      obtain ⟨fuel, rfl⟩ : ∃ m, fuel = m + 1 := ⟨fuel - 1, by omega⟩
      have h6 := h.le_six
      rw [pcbAddr, if_neg (Nat.succ_ne_zero j), Kernel.chain, if_neg (slot_ne_zero (by omega)),
        (h.live (j + 1) (by omega) hj).oldPcbPtr, Nat.add_sub_cancel, slots_succ,
        ih (by omega) (by omega)]

/-! ### What the processes above leave alone -/

/-- From `s` to `t` the first `m` processes have not changed at all, and the next
one at most in its file array. -/
structure Frame (m : Nat) (s t : Kernel) : Prop where
  pcbs : ∀ j ≤ m, t.pcbs (pcbAddr j) = s.pcbs (pcbAddr j)
  links : (t.pcbs (pcbAddr (m + 1))).SameLinks (s.pcbs (pcbAddr (m + 1)))

theorem Frame.refl (m : Nat) (k : Kernel) : Frame m k k := ⟨fun _ _ => rfl, .refl _⟩

theorem Frame.trans {m : Nat} {r s t : Kernel} (h₁ : Frame m r s) (h₂ : Frame m s t) :
    Frame m r t :=
  ⟨fun j hj => (h₂.pcbs j hj).trans (h₁.pcbs j hj), h₂.links.trans h₁.links⟩

theorem pcbAddr_inj {i j : Nat} (hi : i ≤ 6) (hj : j ≤ 6) (h : pcbAddr i = pcbAddr j) : i = j := by
  simp only [pcbAddr, slot] at h
  split_ifs at h <;> omega

/-- Only the PCB of the `i`-th process has changed, and that is above `m`. -/
theorem Frame.of_others {m i : Nat} {s t : Kernel} (hm : m < i) (hi : i ≤ 6)
    (hothers : ∀ a, a ≠ pcbAddr i → t.pcbs a = s.pcbs a)
    (hlinks : i = m + 1 → (t.pcbs (pcbAddr i)).SameLinks (s.pcbs (pcbAddr i))) : Frame m s t := by
  constructor
  · intro j hj
    refine hothers _ fun heq => ?_
    have := pcbAddr_inj (by omega) hi heq
    omega
  · by_cases him : i = m + 1
    · rw [← him]
      exact hlinks him
    · rw [hothers _ fun heq => him (pcbAddr_inj (by omega) hi heq).symm]
      exact .refl _

/-- No event of a process above the `m`-th reaches the first `m`. -/
theorem Advance.frame {s t : Kernel} (hadv : Advance s t) (h : s.Inv L) {m : Nat}
    (hm : m < s.processNumber) : Frame m s t := by
  have h6 := h.le_six
  cases hadv with
  | keeps hk =>
      refine .of_others hm h6 (fun a ha => hk.others a (h.curPcb ▸ ha)) fun _ => ?_
      rw [← h.curPcb]
      have hcur : t.cur = t.pcbs s.curPcb := by rw [Kernel.cur, hk.curPcb]
      exact hcur ▸ hk.links
  | entered command env fs hn =>
      refine .of_others (i := s.processNumber + 1) (by omega) hn (fun a ha => ?_)
        fun heq => absurd heq (by omega)
      rw [enter_pcbs]
      exact Function.update_of_ne ha ..
  | ended hn hended =>
      refine .of_others hm h6 (fun a ha => hended.others a (h.curPcb ▸ ha)) fun _ => ?_
      rw [← h.curPcb]
      exact hended.links
  | faulted fs hn => omega

/-- When the process above the `m`-th ends, the page base is what its PCB says. -/
theorem Advance.base {s t : Kernel} (hadv : Advance s t) (h : s.Inv L) {m : Nat}
    (hm : m < s.processNumber) (ht : t.processNumber ≤ m) :
    t.paging.base = (s.pcbs (pcbAddr (m + 1))).oldPhysAddr := by
  cases hadv with
  | keeps hk =>
      rw [hk.processNumber] at ht
      omega
  | entered command env fs hn =>
      have ht' : s.processNumber + 1 ≤ m := ht
      omega
  | ended hn hended =>
      have hnum := hended.processNumber
      have heq : s.processNumber = m + 1 := by omega
      have hcur : s.cur = s.pcbs (pcbAddr (m + 1)) := by rw [Kernel.cur, h.curPcb, heq]
      rw [hended.paging, h.paging, setBase_paged, base_paged L (h.cur hn).physAddr_lt, hcur]
  | faulted fs hn => omega

/-- What is known of a state `t` reached from `s`, in which the process above the
`m`-th had just been started, when no step was taken by the first `m`. -/
structure Above (L : Layout) (m : Nat) (s t : Kernel) : Prop where
  inv : t.Inv L
  frame : Frame m s t
  base : t.processNumber ≤ m → t.paging.base = (s.pcbs (pcbAddr (m + 1))).oldPhysAddr

theorem run_above {m : Nat} {s t : Kernel} {es : List Event} {os : List Seen} (h : s.Inv L)
    (hm : m < s.processNumber)
    (hes : Along (step img) (fun k e => e.Fits img k ∧ m < k.processNumber) s es)
    (hrun : run (step img) s es = some (os, t)) : Above L m s t := by
  refine run_invariant (I := Above L m s) (fun u e o v hu hg hst => ?_)
    ⟨h, .refl m s, fun hle => absurd hle (by omega)⟩ hes hrun
  have hadv := step_advance hu.inv (hg.1.1.lands hu.inv.keyboard) hst
  refine ⟨hadv.inv hu.inv, hu.frame.trans (hadv.frame hu.inv hg.2), fun hv => ?_⟩
  have hlinks := hu.frame.links
  rw [hadv.base hu.inv hg.2 hv, hlinks]

/-- **Last in, first out.**  A process is started; it and its descendants run,
until there are as many processes as before.  Then counter, pointers, page base
and the PCB of the caller are what they were. -/
theorem execute_restores {s s₁ t : Kernel} (h : s.Inv L) {command : CString} {env : ExecEnv}
    (hx : step img s (.execute command env) = some (⟨.entered, []⟩, s₁)) {es : List Event}
    {os : List Seen}
    (hes : Along (step img) (fun k e => e.Fits img k ∧ s.processNumber < k.processNumber) s₁ es)
    (hrun : run (step img) s₁ es = some (os, t)) (hback : t.processNumber = s.processNumber) :
    t.curPcb = s.curPcb ∧ t.esp0 = s.esp0 ∧ t.paging.base = s.paging.base ∧
      t.pcbs s.curPcb = s.pcbs s.curPcb := by
  obtain ⟨fs, ho, -⟩ | ⟨fs, hn, -, rfl⟩ | ⟨ho, -⟩ := step_execute h hx
  · cases ho
  · have hnum : (enter command env s.paging.base ({ s with fs := fs } : Kernel).loading).processNumber =
        s.processNumber + 1 := rfl
    -- what runs above the new process keeps everything below it
    have habove := run_above ((Advance.entered command env fs hn).inv h) (by omega) hes hrun
    have hnew : (enter command env s.paging.base ({ s with fs := fs } : Kernel).loading).pcbs
        (pcbAddr (s.processNumber + 1)) = newPcb command env s.paging.base
          ({ s with fs := fs } : Kernel).loading := by
      rw [enter_pcbs]
      exact Function.update_self ..
    -- the new PCB is at another place than that of the caller
    have hold : (enter command env s.paging.base ({ s with fs := fs } : Kernel).loading).pcbs
        (pcbAddr s.processNumber) = s.pcbs (pcbAddr s.processNumber) := by
      rw [enter_pcbs]
      refine Function.update_of_ne (fun heq => ?_) ..
      have := pcbAddr_inj (j := s.processNumber + 1) (by omega) (by omega) heq
      omega
    refine ⟨?_, ?_, ?_, ?_⟩
    · rw [habove.inv.curPcb, hback, h.curPcb]
    · rw [habove.inv.esp0, hback, h.esp0]
    · rw [habove.base hback.le, hnew]
      rfl
    · rw [h.curPcb, habove.frame.pcbs _ le_rfl, hold]
  · cases ho

/-! ### The processes form a stack -/

/-- **The processes form a stack.**  In every run from boot whose reads and
commands fit, and in every state `k` reached: there are at most six processes;
with `n` of them, `n ≥ 1`, the current PCB, the kernel stack and the program
page are the `n`-th, and the chain of PCBs consists of the first `n` places; an
`execute` that returns has changed none of this; and an `execute` that starts a
process is undone when that process ends. -/
theorem processes_are_a_stack {L : Layout} {pcbs : Nat → Pcb} {screen : Screen} {rtc : Rtc}
    {img : Image} {es : List Event} {os : List Seen} {k : Kernel}
    (hes : Along (step img) (fun k e => e.Fits img k) (.boot L pcbs screen rtc) es)
    (hrun : run (step img) (.boot L pcbs screen rtc) es = some (os, k)) :
    k.processNumber ≤ 6 ∧
    (1 ≤ k.processNumber →
      k.curPcb = 0x800000 - k.processNumber * 0x2000 ∧
      k.esp0 = 0x800000 - k.processNumber * 0x2000 ∧
      k.paging.base = k.processNumber + 1 ∧
      (∀ fuel, k.processNumber ≤ fuel → k.chain fuel k.curPcb = slots k.processNumber) ∧
      (slots k.processNumber).length = k.processNumber ∧ (slots k.processNumber).Nodup) ∧
    (∀ command env v t, step img k (.execute command env) = some (⟨.ret v, []⟩, t) →
      t.processNumber = k.processNumber ∧ t.curPcb = k.curPcb ∧ t.esp0 = k.esp0 ∧
      t.paging = k.paging ∧ t.pcbs = k.pcbs) ∧
    (∀ command env s₁ es' os' t, step img k (.execute command env) = some (⟨.entered, []⟩, s₁) →
      Along (step img) (fun s e => e.Fits img s ∧ k.processNumber < s.processNumber) s₁ es' →
      run (step img) s₁ es' = some (os', t) → t.processNumber = k.processNumber →
      t.curPcb = k.curPcb ∧ t.esp0 = k.esp0 ∧ t.paging.base = k.paging.base ∧
      t.pcbs k.curPcb = k.pcbs k.curPcb) := by
  have h : k.Inv L := run_boot_inv hes hrun
  refine ⟨h.le_six, fun hn => ?_, ?_, ?_⟩
  · have hcur : k.curPcb = slot k.processNumber := by rw [h.curPcb, pcbAddr, if_neg (by omega)]
    refine ⟨hcur, h.esp0, h.base hn, fun fuel hfuel => ?_, length_slots _, nodup_slots h.le_six⟩
    rw [h.curPcb]
    exact h.chain_pcbAddr le_rfl hfuel
  · intro command env v t hx
    -- it returns only where no process was started
    obtain ⟨fs, -, rfl⟩ | ⟨fs, -, ho, -⟩ | ⟨ho, -⟩ := step_execute h hx
    · exact ⟨rfl, rfl, rfl, rfl, rfl⟩
    · cases ho
    · cases ho
  · intro command env s₁ es' os' t hx hes' hrun' hback
    exact execute_restores h hx hes' hrun' hback

/-- A child that opens a file and ends with 3. -/
def tinyChild : List Event := [.open (some tinyName), .halt 3]

/-- The program `a` runs; it starts `a` again, which opens a file and ends. -/
theorem processes_are_a_stack_tiny :
    let k := final (step tinyImage) tinyBoot [tinyExecute]
    let s₁ := final (step tinyImage) k [tinyExecute]
    let t := final (step tinyImage) s₁ tinyChild
    k.curPcb = 0x800000 - k.processNumber * 0x2000 ∧ s₁.processNumber = 2 ∧
      t.pcbs k.curPcb = k.pcbs k.curPcb := by
  obtain ⟨os, hrun⟩ := run_final (step tinyImage) tinyBoot [tinyExecute] (by decide +kernel)
  have hstack := processes_are_a_stack (by decide +kernel) hrun
  obtain ⟨os', hrun'⟩ := run_final (step tinyImage)
    (final (step tinyImage) (final (step tinyImage) tinyBoot [tinyExecute]) [tinyExecute])
    tinyChild (by decide +kernel)
  refine ⟨(hstack.2.1 (by decide +kernel)).1, by decide +kernel, ?_⟩
  exact (hstack.2.2.2 _ _ _ _ _ _ (step_final (by decide +kernel)) (by decide +kernel) hrun'
    (by decide +kernel)).2.2.2

/-- A child reads four bytes of `a` to the address of its parent's PCB.  After
the child has ended, the parent's descriptor 0 has no jump table any more. -/
theorem parent_pcb_overwritten :
    ((run (step tinyImage) tinyBoot [tinyExecute]).map fun r =>
        (r.2.processNumber, (r.2.fd 0).fileOpPtr)) = some (1, .terminalTable) ∧
      ((run (step tinyImage) tinyBoot [tinyExecute, tinyExecute, .open (some tinyName),
          .read 2 0x7FE000 4 ⟨[], false⟩, .halt 0]).map fun r =>
        (r.2.processNumber, (r.2.fd 0).fileOpPtr)) = some (1, .wild) := by
  decide +kernel

/-! ### Descriptors -/

theorem closeFd_used {type : Nat} (fd : Int) {k : Kernel} (h2 : 2 ≤ fd) (h8 : fd < 8)
    (htype : (k.fd fd.toNat).flags.fileType = type) (huse : (k.fd fd.toNat).InUse) :
    closeFd type fd k = (0, k.setFd fd.toNat { k.fd fd.toNat with flags := 0 }) := by
  rw [closeFd, if_neg (by omega), if_neg (not_not.mpr htype), if_neg (not_not.mpr huse)]

/-- Through the table that matches the type, the close routine of that type is
called. -/
theorem closePtr_tableOfType {type : Nat} (hle : type ≤ 2) {fd : Int} {k k' : Kernel}
    (h : closeFd type fd k = (0, k')) :
    ∃ fs, (tableOfType type).closePtr fd k = some (0, { k' with fs := fs }) := by
  interval_cases type
  · exact ⟨k'.fs, by show some (closeFd rtcFile fd k) = _; rw [rtcFile, h]⟩
  · exact ⟨k'.fs, by show some (closeFd dirFile fd k) = _; rw [dirFile, h]⟩
  · refine ⟨{ k'.fs with
      openDentry := padFrom nameLen 0 k'.fs.openDentry
      readDentry := padFrom nameLen 0 k'.fs.readDentry }, ?_⟩
    show some (fileClose fd k) = _
    rw [fileClose, regFile, h]
    rfl

/-- A descriptor that is as it should be can be closed. -/
theorem sysCloseC_used {k : Kernel} (hcur : k.curPcb ≠ 0) {i : Nat} (h2 : 2 ≤ i) (h8 : i < 8)
    (huse : (k.fd i).InUse) (hok : (k.fd i).Ok) :
    ∃ t, sysCloseC i k = some (0, t) ∧ ¬ (t.fd i).InUse ∧ ∀ j, j ≠ i → t.fd j = k.fd j := by
  have hclose := closeFd_used (k := k) i (by omega) (by omega) rfl huse
  obtain ⟨fs, hfs⟩ := closePtr_tableOfType hok.type_le hclose
  refine ⟨{ k.setFd i { k.fd i with flags := 0 } with fs := fs }, ?_, ?_, fun j hj => ?_⟩
  · rw [sysCloseC, if_neg (by simp only [fdSize]; omega), if_neg hcur, Int.toNat_natCast,
      if_neg (not_not.mpr huse), hok.table]
    exact hfs
  · show ¬ ((k.setFd i { k.fd i with flags := 0 }).fd i).InUse
    rw [Kernel.fd_setFd]
    exact (by decide : ¬ Flags.InUse 0)
  · exact Kernel.fd_setFd_of_ne k _ hj

/-- **Descriptors match their drivers.**  In every state reached by a run from
boot whose reads and commands fit, with a process running: its descriptors 0 and
1 are the terminal's; the others, when in use, have the table of their type, and
that of a regular file a block index from 1 to 1023; and closing one of them
succeeds and frees that one only. -/
theorem descriptors_match {L : Layout} {pcbs : Nat → Pcb} {screen : Screen} {rtc : Rtc}
    {img : Image} {es : List Event} {os : List Seen} {k : Kernel}
    (hes : Along (step img) (fun k e => e.Fits img k) (.boot L pcbs screen rtc) es)
    (hrun : run (step img) (.boot L pcbs screen rtc) es = some (os, k))
    (hn : 1 ≤ k.processNumber) :
    ((k.fd 0).InUse ∧ (k.fd 0).fileOpPtr = .terminalTable) ∧
    ((k.fd 1).InUse ∧ (k.fd 1).fileOpPtr = .terminalTable) ∧
    (∀ i, 2 ≤ i → i < 8 → (k.fd i).InUse →
      (k.fd i).flags.fileType ≤ 2 ∧ (k.fd i).fileOpPtr = tableOfType (k.fd i).flags.fileType ∧
      ((k.fd i).flags.fileType = regFile →
        1 ≤ (k.fd i).flags.inodeIdx ∧ (k.fd i).flags.inodeIdx ≤ 1023) ∧
      ∃ t, sysCloseC i k = some (0, t) ∧ ¬ (t.fd i).InUse ∧ ∀ j, j ≠ i → t.fd j = k.fd j) := by
  have h : k.Inv L := run_boot_inv hes hrun
  have hfiles := (h.cur hn).files
  refine ⟨hfiles.stdin.symm, hfiles.stdout.symm, fun i h2 h8 huse => ?_⟩
  have hok := hfiles.used i h2 h8 huse
  exact ⟨hok.type_le, hok.table, hok.index, sysCloseC_used (h.curPcb_ne hn) h2 h8 huse hok⟩

/-- With the file `a` open, descriptor 2 can be closed. -/
theorem descriptors_match_tiny :
    let k := final (step tinyImage) tinyBoot [tinyExecute, .open (some tinyName)]
    (k.fd 2).InUse ∧ ∃ t, sysCloseC 2 k = some (0, t) ∧ ¬ (t.fd 2).InUse := by
  obtain ⟨os, hrun⟩ := run_final (step tinyImage) tinyBoot
    [tinyExecute, .open (some tinyName)] (by decide +kernel)
  have hmatch := descriptors_match (by decide +kernel) hrun (by decide +kernel)
  obtain ⟨-, -, -, t, hclose, hfree, -⟩ := hmatch.2.2 2 le_rfl (by decide) (by decide +kernel)
  exact ⟨by decide +kernel, t, hclose, hfree⟩

/-- A process reads four bytes of `a` to the address of its own PCB.  Its
descriptor 0 has no jump table any more. -/
theorem descriptor_overwritten :
    ((run (step tinyImage) tinyBoot [tinyExecute, .open (some tinyName),
        .read 2 0x7FE000 4 ⟨[], false⟩]).map fun r =>
      (r.2.processNumber, (r.2.fd 0).fileOpPtr)) = some (1, .wild) := by
  decide +kernel

end LinuxBasedOs
