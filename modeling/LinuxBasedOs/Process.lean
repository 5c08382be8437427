/-
LinuxBasedOs/Process.lean

Starting and ending processes.

`sys_execute_c` and `sys_halt_c` update the process counter, `cur_pcb`,
`tss.esp0`, the base of the program page and the chain of PCBs at different
points and with early exits in between.  `Kernel.Inv` ties them together: with
`n` processes everything is where the `n`-th process has its place, and the PCB
of each live process holds what has to be restored when it ends.

The invariant is kept by every event that `Fits`: a read must have a buffer in
the program page, with room for what the driver stores, and a command line must
fit its array.  The kernel checks neither.
-/
import LinuxBasedOs.SysCalls

namespace LinuxBasedOs

open Bytes Transition

/-! ### The invariant -/

/-- What `cur_pcb` is with `n` processes: NULL, or the `n`-th place. -/
def pcbAddr (n : Nat) : Nat := if n = 0 then 0 else slot n

/-- The PCB of the `j`-th process is as it should be. -/
structure PcbOk (p : Pcb) (j : Nat) : Prop where
  files : FilesOk p.fileArray
  oldPcbPtr : p.oldPcbPtr = pcbAddr (j - 1)
  oldEsp0 : p.oldEsp0 = slot (j - 1)
  physAddr_lt : p.oldPhysAddr < 2 ^ 10
  physAddr : 2 ≤ j → p.oldPhysAddr = j

/-- Counter, pointers and PCBs fit together.  This also holds while a program is
being loaded, when the program page is already that of the new process. -/
structure Kernel.Links (L : Layout) (k : Kernel) : Prop where
  le_six : k.processNumber ≤ 6
  curPcb : k.curPcb = pcbAddr k.processNumber
  esp0 : k.esp0 = slot k.processNumber
  base_lt : k.paging.base < 2 ^ 10
  paging : k.paging = paged L k.paging.base
  live : ∀ j, 1 ≤ j → j ≤ k.processNumber → PcbOk (k.pcbs (slot j)) j
  keyboard : k.console.kbd.Ok

/-- What holds between any two events. -/
structure Kernel.Inv (L : Layout) (k : Kernel) : Prop extends Kernel.Links L k where
  base : 1 ≤ k.processNumber → k.paging.base = k.processNumber + 1

theorem Kernel.boot_inv (L : Layout) (pcbs : Nat → Pcb) (screen : Screen) (rtc : Rtc) :
    (Kernel.boot L pcbs screen rtc).Inv L where
  le_six := Nat.zero_le 6
  curPcb := rfl
  esp0 := by
    show 0x800000 = slot 0
    rw [slot, Nat.zero_mul, Nat.sub_zero]
  base_lt := BitField.get_lt _ 22 10
  paging := by
    show initPaging L = paged L (initPaging L).base
    rw [initPaging_eq, base_paged L (by decide)]
  base := fun h => absurd h (by show ¬ 1 ≤ 0; omega)
  live := fun j h₁ h₂ => absurd h₂ (by show ¬ j ≤ 0; omega)
  keyboard := Keyboard.boot_ok

/-! ### Calls on descriptors -/

variable {L : Layout} {img : Image}

theorem PcbOk.of_links {p q : Pcb} {j : Nat} (h : PcbOk p j) (hl : q.SameLinks p)
    (hf : FilesOk q.fileArray) : PcbOk q j := by
  rw [Pcb.SameLinks] at hl
  have h1 : q.oldPcbPtr = p.oldPcbPtr := by rw [hl]
  have h2 : q.oldEsp0 = p.oldEsp0 := by rw [hl]
  have h3 : q.oldPhysAddr = p.oldPhysAddr := by rw [hl]
  exact ⟨hf, h1.trans h.oldPcbPtr, h2.trans h.oldEsp0, h3 ▸ h.physAddr_lt, fun h' => h3.trans (h.physAddr h')⟩

/-- The current process's place is not that of another one. -/
theorem Kernel.Links.slot_ne_curPcb {k : Kernel} (h : k.Links L) {j : Nat} (hj6 : j ≤ 6)
    (hne : j ≠ k.processNumber) : slot j ≠ k.curPcb := by
  rw [h.curPcb, pcbAddr]
  split_ifs with h0
  · exact slot_ne_zero hj6
  · exact fun heq => hne (slot_inj hj6 h.le_six heq)

/-- With a process running, its PCB is the current one. -/
theorem Kernel.Links.cur {k : Kernel} (h : k.Links L) (hn : 1 ≤ k.processNumber) :
    PcbOk k.cur k.processNumber := by
  rw [Kernel.cur, h.curPcb, pcbAddr, if_neg (by omega)]
  exact h.live _ hn le_rfl

theorem Kernel.Links.files {k : Kernel} (h : k.Links L) (hcur : k.curPcb ≠ 0) :
    FilesOk k.cur.fileArray := by
  refine (h.cur (Nat.one_le_iff_ne_zero.mpr fun h0 => hcur ?_)).files
  rw [h.curPcb, h0]
  rfl

/-- **Frame rule.**  Whatever only touches the current process's descriptors
keeps the invariant. -/
theorem Kernel.Inv.of_keeps {s t : Kernel} (h : s.Inv L) (hk : Keeps s t) : t.Inv L where
  le_six := by
    rw [hk.processNumber]
    exact h.le_six
  curPcb := by
    rw [hk.curPcb, hk.processNumber]
    exact h.curPcb
  esp0 := by
    rw [hk.esp0, hk.processNumber]
    exact h.esp0
  base_lt := by
    rw [hk.paging]
    exact h.base_lt
  paging := by
    rw [hk.paging]
    exact h.paging
  base := by
    rw [hk.paging, hk.processNumber]
    exact h.base
  live := by
    intro j hj hle
    rw [hk.processNumber] at hle
    rcases Nat.eq_or_lt_of_le hle with rfl | hlt
    · -- the current process: only its file array may differ
      have hcur := h.cur hj
      have hat : t.pcbs (slot s.processNumber) = t.cur := by
        rw [Kernel.cur, hk.curPcb, h.curPcb, pcbAddr, if_neg (by omega)]
      rw [hat]
      exact hcur.of_links hk.links (hk.files hcur.files)
    · have h6 := h.le_six
      rw [hk.others _ (h.slot_ne_curPcb (by omega) (by omega))]
      exact h.live j hj (by omega)
  keyboard := hk.keyboard h.keyboard

/-! ### Ending a process -/

/-- Every descriptor in use has a jump table, so that it can be closed. -/
def Closable (fa : Nat → FileDesc) : Prop :=
  ∀ fd < 8, (fa fd).InUse → (fa fd).fileOpPtr ≠ .null ∧ (fa fd).fileOpPtr ≠ .wild

theorem FilesOk.closable {fa : Nat → FileDesc} (h : FilesOk fa) : Closable fa := by
  intro fd h8 huse
  by_cases h2 : 2 ≤ fd
  · rw [(h.used fd h2 h8 huse).table]
    have hle := (h.used fd h2 h8 huse).type_le
    generalize (fa fd).flags.fileType = type at hle
    interval_cases type <;> decide
  · have h01 : fd = 0 ∨ fd = 1 := by omega
    rcases h01 with rfl | rfl
    · rw [h.stdin.1]
      decide
    · rw [h.stdout.1]
      decide

/-- A close routine at most marks its descriptor as free. -/
structure Closes (s t : Kernel) : Prop extends FilesOnly s t where
  fds : ∀ i, t.fd i = s.fd i ∨ t.fd i = { s.fd i with flags := 0 }

theorem Closes.refl (k : Kernel) : Closes k k := ⟨.refl k, fun _ => .inl rfl⟩

theorem Closes.setFree (k : Kernel) (fd : Nat) :
    Closes k (k.setFd fd { k.fd fd with flags := 0 }) := by
  refine ⟨.setFd k fd _, fun i => ?_⟩
  by_cases hi : i = fd
  · subst hi
    exact .inr (Kernel.fd_setFd ..)
  · exact .inl (Kernel.fd_setFd_of_ne k _ hi)

theorem Closes.closable {s t : Kernel} (h : Closes s t) (hc : Closable s.cur.fileArray) :
    Closable t.cur.fileArray := by
  intro fd h8 huse
  rcases h.fds fd with heq | heq
  · have heq' : t.cur.fileArray fd = s.cur.fileArray fd := heq
    rw [heq'] at huse ⊢
    exact hc fd h8 huse
  · have heq' : t.cur.fileArray fd = { s.cur.fileArray fd with flags := 0 } := heq
    rw [heq'] at huse
    exact absurd huse (by decide : ¬ Flags.InUse 0)

theorem closeFd_closes (type : Nat) (fd : Int) (k : Kernel) : Closes k (closeFd type fd k).2 := by
  rcases closeFd_cases type fd k with h | ⟨-, -, -, -, h⟩
  · rw [h]
    exact .refl k
  · rw [h]
    exact .setFree k _

/-- A close routine called through a jump table returns. -/
theorem closePtr_closes {ops : FdOps} (hnull : ops ≠ .null) (hwild : ops ≠ .wild) (fd : Int)
    (k : Kernel) : ∃ r, ops.closePtr fd k = some r ∧ Closes k r.2 := by
  cases ops with
  | null => exact absurd rfl hnull
  | wild => exact absurd rfl hwild
  | rtcTable => exact ⟨_, rfl, closeFd_closes _ _ _⟩
  | dirTable => exact ⟨_, rfl, closeFd_closes _ _ _⟩
  | fileTable =>
      refine ⟨_, rfl, ?_⟩
      have hclose := closeFd_closes regFile fd k
      unfold fileClose
      simp only
      split_ifs
      · exact ⟨hclose.toFilesOnly.trans (Keeps.globals _ _ _).toFilesOnly, hclose.fds⟩
      · exact hclose
  | terminalTable =>
      refine ⟨_, rfl, ?_⟩
      unfold terminalClose
      split_ifs
      · exact .refl k
      · exact .setFree k _
      · exact .refl k

/-- The closing loop of `sys_halt_c` runs to its end. -/
theorem closeAll_total (fds : List Nat) (hfds : ∀ fd ∈ fds, fd < 8) {k : Kernel}
    (hc : Closable k.cur.fileArray) : ∃ k', closeAll fds k = some k' ∧ FilesOnly k k' := by
  induction fds generalizing k with
  | nil => exact ⟨k, rfl, .refl k⟩
  | cons fd fds ih =>
      have hfds' : ∀ fd ∈ fds, fd < 8 := fun i hi => hfds i (List.mem_cons_of_mem fd hi)
      rw [closeAll]
      split_ifs with huse
      · obtain ⟨hnull, hwild⟩ := hc fd (hfds fd List.mem_cons_self) huse
        obtain ⟨r, hr, hclose⟩ := closePtr_closes hnull hwild fd k
        obtain ⟨k', hk', hframe⟩ := ih hfds' (hclose.closable hc)
        refine ⟨k', ?_, hclose.toFilesOnly.trans hframe⟩
        show (((k.cur.fileArray fd).fileOpPtr.closePtr fd k).bind fun r => closeAll fds r.2) = _
        rw [hr, Option.bind_some, hk']
      · exact ih hfds' hc

/-- The state after the current process, the `n`-th, has ended. -/
structure Ended (s t : Kernel) : Prop where
  processNumber : t.processNumber = s.processNumber - 1
  curPcb : t.curPcb = s.cur.oldPcbPtr
  esp0 : t.esp0 = s.cur.oldEsp0
  paging : t.paging = s.paging.setBase s.cur.oldPhysAddr
  others : ∀ a, a ≠ s.curPcb → t.pcbs a = s.pcbs a
  links : (t.pcbs s.curPcb).SameLinks s.cur
  keyboard : s.console.kbd.Ok → t.console.kbd.Ok

/-- **`sys_halt_c` takes one process back.**  With a process running it returns
the status, cut to a byte, and restores what that process's PCB holds. -/
theorem sysHaltC_ended {k : Kernel} (hn : 1 ≤ k.processNumber) (hcur : k.curPcb ≠ 0)
    (hpage : ∃ e, k.paging.getBigPage proAddr = some e) (hc : Closable k.cur.fileArray)
    (status : Nat) :
    ∃ t, sysHaltC status k = some (((status % 256 : Nat) : Int), t) ∧ Ended k t := by
  obtain ⟨e, he⟩ := hpage
  -- closing all descriptors touches nothing that is restored from
  obtain ⟨k₂, hk₂, hframe⟩ := closeAll_total (List.range 8) (fun fd hfd => List.mem_range.mp hfd)
    (k := { k with processNumber := k.processNumber - 1 }) hc
  refine ⟨k₂.restore, ?_, ?_⟩
  · unfold sysHaltC
    simp only
    rw [if_neg (by omega), he]
    simp only
    rw [if_neg hcur, hk₂]
    rfl
  · have hlinks := hframe.links
    rw [Pcb.SameLinks] at hlinks
    have h1 : k₂.cur.oldPcbPtr = k.cur.oldPcbPtr := by rw [hlinks]; rfl
    have h2 : k₂.cur.oldEsp0 = k.cur.oldEsp0 := by rw [hlinks]; rfl
    have h3 : k₂.cur.oldPhysAddr = k.cur.oldPhysAddr := by rw [hlinks]; rfl
    have hpag : k₂.paging = k.paging := hframe.paging
    have hat : k₂.pcbs k.curPcb = k₂.cur := by
      rw [Kernel.cur, hframe.curPcb]
    refine ⟨hframe.processNumber, h1, h2, ?_, hframe.others, ?_, hframe.keyboard⟩
    · show k₂.paging.setBase k₂.cur.oldPhysAddr = _
      rw [hpag, h3]
    · show (k₂.pcbs k.curPcb).SameLinks k.cur
      rw [hat]
      exact hframe.links

theorem sysHaltC_zero {k : Kernel} (hn : k.processNumber = 0) (status : Nat) :
    sysHaltC status k = some (-1, k) := by
  rw [sysHaltC, if_pos hn]

theorem Kernel.Links.curPcb_ne {k : Kernel} (h : k.Links L) (hn : 1 ≤ k.processNumber) :
    k.curPcb ≠ 0 := by
  rw [h.curPcb, pcbAddr, if_neg (by omega)]
  exact slot_ne_zero h.le_six

/-- Ending the current process leads back to the state of its parent. -/
theorem Kernel.Links.ended {s t : Kernel} (h : s.Links L) (hn : 1 ≤ s.processNumber)
    (ht : Ended s t) : t.Inv L := by
  have hcur := h.cur hn
  have h6 := h.le_six
  have hpag : t.paging = paged L s.cur.oldPhysAddr := by
    rw [ht.paging, h.paging, setBase_paged]
  have hbase : t.paging.base = s.cur.oldPhysAddr := by rw [hpag, base_paged L hcur.physAddr_lt]
  refine ⟨⟨?_, ?_, ?_, ?_, ?_, ?_, ht.keyboard h.keyboard⟩, fun hn' => ?_⟩
  · rw [ht.processNumber]
    omega
  · rw [ht.curPcb, hcur.oldPcbPtr, ht.processNumber]
  · rw [ht.esp0, hcur.oldEsp0, ht.processNumber]
  · rw [hbase]
    exact hcur.physAddr_lt
  · rw [hbase]
    exact hpag
  · intro j hj hle
    rw [ht.processNumber] at hle
    rw [ht.others _ (h.slot_ne_curPcb (by omega) (by omega))]
    exact h.live j hj (by omega)
  · rw [ht.processNumber] at hn' ⊢
    rw [hbase, hcur.physAddr (by omega)]
    omega

/-- **Ending a process.**  From a consistent state with a process running,
`sys_halt_c` returns the status and leads to the state of the parent. -/
theorem Kernel.Links.halt {k : Kernel} (h : k.Links L) (hn : 1 ≤ k.processNumber) (status : Nat) :
    ∃ t, sysHaltC status k = some (((status % 256 : Nat) : Int), t) ∧ Ended k t ∧ t.Inv L := by
  have hpage : ∃ e, k.paging.getBigPage proAddr = some e := by
    rw [h.paging]
    exact getBigPage_paged L h.base_lt
  obtain ⟨t, ht, hended⟩ := sysHaltC_ended hn (h.curPcb_ne hn) hpage (h.cur hn).files.closable status
  exact ⟨t, ht, hended, h.ended hn hended⟩

/-! ### Starting a process -/

theorem programBase_eq {n : Nat} (h : n < 6) : programBase n = n + 2 := by
  unfold programBase
  interval_cases n <;> rfl

/-- What the part of `sys_execute_c` after its checks can do. -/
theorem load_cases {command : CString} {env : ExecEnv} {program : List (Nat × UInt8)}
    {k t : Kernel} {o : Outcome} (h : load command env program k = some (o, t)) :
    (o = .ret (-1) ∧ t = k) ∨ (o = .fault ∧ t = k.loading) ∨
      ∃ k', k.loading.storeAll program = some k' ∧
        o = .entered ∧ t = enter command env k.paging.base k' := by
  unfold load at h
  split_ifs at h with hlong
  rcases hpage : k.paging.getBigPage proAddr with - | e
  · rw [hpage] at h
    obtain ⟨rfl, rfl⟩ := Prod.mk.inj (Option.some.inj h)
    exact .inl ⟨rfl, rfl⟩
  · rw [hpage] at h
    rcases hst : k.loading.storeAll program with - | k'
    · simp only [hst] at h
      obtain ⟨rfl, rfl⟩ := Prod.mk.inj (Option.some.inj h)
      exact .inr (.inl ⟨rfl, rfl⟩)
    · simp only [hst] at h
      obtain ⟨rfl, rfl⟩ := Prod.mk.inj (Option.some.inj h)
      exact .inr (.inr ⟨k', rfl, rfl, rfl⟩)

/-- What `sys_execute_c` can do: fail with nothing but the lookup's buffers
changed, or go on to load the program. -/
theorem sysExecuteC_cases {command : CString} {env : ExecEnv} {k t : Kernel} {o : Outcome}
    (h : sysExecuteC img command env k = some (o, t)) :
    ∃ fs, (o = .ret (-1) ∧ t = { k with fs := fs }) ∨
      (k.processNumber < 6 ∧ ∃ inode,
        load command env (programStores img inode) { k with fs := fs } = some (o, t)) := by
  unfold sysExecuteC at h
  split_ifs at h with h6
  · obtain ⟨rfl, rfl⟩ := Prod.mk.inj (Option.some.inj h)
    exact ⟨k.fs, .inl ⟨rfl, rfl⟩⟩
  obtain ⟨⟨found, fs⟩, -, hr⟩ := Option.bind_eq_some_iff.mp h
  refine ⟨fs, ?_⟩
  rcases found with - | ⟨d, len⟩
  · obtain ⟨rfl, rfl⟩ := Prod.mk.inj (Option.some.inj hr)
    exact .inl ⟨rfl, rfl⟩
  simp only at hr
  split_ifs at hr with htype helf
  · obtain ⟨rfl, rfl⟩ := Prod.mk.inj (Option.some.inj hr)
    exact .inl ⟨rfl, rfl⟩
  · exact .inr ⟨by omega, img.dentryInode d, hr⟩
  · obtain ⟨rfl, rfl⟩ := Prod.mk.inj (Option.some.inj hr)
    exact .inl ⟨rfl, rfl⟩

theorem programStores_range (img : Image) (inode : Nat) :
    ∀ q ∈ programStores img inode, userProg ≤ q.1 ∧ q.1 < userProg + 0x400000 := by
  intro q hq
  rw [programStores] at hq
  refine storesTo_range (by simp only [userProg]; omega) (fun p hp => ?_) q hq
  exact ((readDataAt_ok img inode 0 userProg 0x400000 0).stores p hp).1

/-- Behind the program page nothing is mapped but the video page, which is further on
than a program can reach. -/
theorem store_behind {k : Kernel} {base : Nat} (hp : k.paging = paged L base) (hhi : base < 2 ^ 10)
    {a : Nat} (hlo : 0x08400000 ≤ a) (ha : a < userProg + 0x400000) (v : UInt8) :
    k.store a v = none := by
  simp only [userProg] at ha
  have h33 : a / 2 ^ 22 = 33 := by omega
  have hvid : ¬ a / 2 ^ 12 % 1024 = 0xB8 := by omega
  rw [Kernel.store, hp, walk_paged L hhi, h33, if_neg (by decide), if_neg (by decide),
    if_neg (by decide), if_pos rfl, if_neg hvid]
  rfl

/-- Loading a program changes no PCB: each store is either to the program page
or to an address that is not mapped. -/
theorem storeAll_program {k k' : Kernel} {base : Nat} (hp : k.paging = paged L base)
    (hlo : 2 ≤ base) (hhi : base < 2 ^ 10) {ps : List (Nat × UInt8)}
    (hps : ∀ q ∈ ps, userProg ≤ q.1 ∧ q.1 < userProg + 0x400000) (h : k.storeAll ps = some k') :
    k' = k ∧ ∀ q ∈ ps, q.1 < 0x08400000 := by
  induction ps with
  | nil => exact ⟨(Option.some.inj h).symm, fun q hq => absurd hq List.not_mem_nil⟩
  | cons p ps ih =>
      obtain ⟨hlow, hhigh⟩ := hps p List.mem_cons_self
      by_cases hpage : p.1 < 0x08400000
      · have hin : InProgramPage p.1 := by
          simp only [userProg] at hlow
          exact ⟨by omega, hpage⟩
        rw [Kernel.storeAll, Kernel.store_inProgramPage hp hlo hhi hin] at h
        obtain ⟨hk, hrest⟩ := ih (fun q hq => hps q (List.mem_cons_of_mem p hq)) h
        exact ⟨hk, List.forall_mem_cons.mpr ⟨hpage, hrest⟩⟩
      · rw [Kernel.storeAll, store_behind hp hhi (not_lt.mp hpage) hhigh] at h
        cases h

theorem slot_succ (n : Nat) : 0x800000 - n * 0x2000 - 0x2000 = slot (n + 1) := by
  simp only [slot]
  omega

theorem enter_pcbs (command : CString) (env : ExecEnv) (base : Nat) (k : Kernel) :
    (enter command env base k).pcbs =
      Function.update k.pcbs (slot (k.processNumber + 1)) (newPcb command env base k) := by
  rw [← slot_succ]
  rfl

theorem enter_curPcb (command : CString) (env : ExecEnv) (base : Nat) (k : Kernel) :
    (enter command env base k).curPcb = slot (k.processNumber + 1) := by
  rw [← slot_succ]
  rfl

theorem Kernel.Inv.loading_paging {s : Kernel} (h : s.Inv L) (hn : s.processNumber < 6) :
    s.loading.paging = paged L (s.processNumber + 2) := by
  show s.paging.setBase (programBase s.processNumber) = _
  rw [h.paging, setBase_paged, programBase_eq hn]

theorem Kernel.Inv.loading_base {s : Kernel} (h : s.Inv L) (hn : s.processNumber < 6) :
    s.loading.paging.base = s.processNumber + 2 := by
  rw [h.loading_paging hn, base_paged L (by omega)]

/-- Entering the new program leads from one consistent state to the next. -/
theorem Kernel.Inv.enter {s : Kernel} (h : s.Inv L) (hn : s.processNumber < 6) (command : CString)
    (env : ExecEnv) : (enter command env s.paging.base s.loading).Inv L := by
  have hpag := h.loading_paging hn
  have hbase := h.loading_base hn
  refine ⟨⟨hn, ?_, rfl, ?_, ?_, ?_, ?_⟩, fun _ => hbase⟩
  · rw [enter_curPcb]
    exact (if_neg (Nat.succ_ne_zero _)).symm
  · show s.loading.paging.base < 2 ^ 10
    omega
  · show s.loading.paging = paged L s.loading.paging.base
    rw [hbase, hpag]
  · intro j hj hle
    rw [enter_pcbs]
    rcases Nat.eq_or_lt_of_le hle with rfl | hlt
    · -- the new process
      rw [show slot (LinuxBasedOs.enter command env s.paging.base s.loading).processNumber =
        slot (s.loading.processNumber + 1) from rfl, Function.update_self]
      refine ⟨initialFiles_ok, h.curPcb, h.esp0, h.base_lt, fun h2 => ?_⟩
      exact h.base (Nat.le_of_succ_le_succ h2)
    · have hle' : j ≤ s.processNumber := Nat.lt_succ_iff.mp hlt
      have hne : slot j ≠ slot (s.loading.processNumber + 1) := by
        intro heq
        have hj' : j = s.processNumber + 1 := slot_inj (by omega) (by omega) heq
        omega
      rw [Function.update_of_ne hne]
      exact h.live j hj hle'
  · exact h.keyboard.keyboardEnvironment

/-- What `sys_execute_c` does from a consistent state: it fails, and only the
lookup's buffers have changed; or it faults while loading; or the new program
runs. -/
theorem Kernel.Inv.execute {s t : Kernel} (h : s.Inv L) {command : CString} {env : ExecEnv}
    {o : Outcome} (hx : sysExecuteC img command env s = some (o, t)) :
    ∃ fs, (o = .ret (-1) ∧ t = { s with fs := fs }) ∨
      (s.processNumber < 6 ∧ o = .fault ∧ t = ({ s with fs := fs } : Kernel).loading) ∨
      (s.processNumber < 6 ∧ o = .entered ∧
        t = LinuxBasedOs.enter command env s.paging.base ({ s with fs := fs } : Kernel).loading) := by
  obtain ⟨fs, ⟨rfl, rfl⟩ | ⟨hn, inode, hload⟩⟩ := sysExecuteC_cases hx
  · exact ⟨fs, .inl ⟨rfl, rfl⟩⟩
  refine ⟨fs, ?_⟩
  obtain ⟨rfl, rfl⟩ | ⟨rfl, rfl⟩ | ⟨k', hst, rfl, rfl⟩ := load_cases hload
  · exact .inl ⟨rfl, rfl⟩
  · exact .inr (.inl ⟨hn, rfl, rfl⟩)
  · have hpag : ({ s with fs := fs } : Kernel).loading.paging = paged L (s.processNumber + 2) :=
      h.loading_paging hn
    obtain ⟨rfl, -⟩ := storeAll_program hpag (by omega) (by omega) (programStores_range img inode) hst
    exact .inr (.inr ⟨hn, rfl, rfl⟩)

/-! ### One event -/

/-- The buffer of a read that the kernel's checks let through is in the program
page, with room for whatever the driver stores. -/
def Event.ReadFits (img : Image) (k : Kernel) : Event → Prop
  | .read fd buf nbytes _ =>
      ReadAccepted fd buf nbytes k → BufferInPage buf (readRoom img fd nbytes.toNat k)
  | _ => True

/-- Moreover a command line fits its array. -/
def Event.Fits (img : Image) (k : Kernel) (e : Event) : Prop :=
  e.ReadFits img k ∧
    match e with
    | .execute command _ => command.bytes.length < 1024
    | _ => True

instance (img : Image) (k : Kernel) (e : Event) : Decidable (e.ReadFits img k) :=
  match e with
  | .read fd buf nbytes _ => inferInstanceAs (Decidable
      (ReadAccepted fd buf nbytes k → BufferInPage buf (readRoom img fd nbytes.toNat k)))
  | .execute _ _ | .halt _ | .open _ | .close _ | .write _ _ _ _ | .key _ | .tick => isTrue trivial

instance (img : Image) (k : Kernel) (e : Event) : Decidable (e.Fits img k) :=
  match e with
  | .execute _ _ => inferInstanceAs (Decidable (_ ∧ _ < 1024))
  | .read fd buf nbytes env =>
      inferInstanceAs (Decidable ((Event.read fd buf nbytes env).ReadFits img k ∧ True))
  | .halt _ | .open _ | .close _ | .write _ _ _ _ | .key _ | .tick => isTrue ⟨trivial, trivial⟩

/-- Everything an event can do to the processes. -/
inductive Advance (s : Kernel) : Kernel → Prop where
  | keeps {t : Kernel} (h : Keeps s t) : Advance s t
  | entered (command : CString) (env : ExecEnv) (fs : FsGlobals) (hn : s.processNumber < 6) :
      Advance s (enter command env s.paging.base ({ s with fs := fs } : Kernel).loading)
  | ended {t : Kernel} (hn : 1 ≤ s.processNumber) (h : Ended s t) : Advance s t
  -- loading the first program faults, and there is no process to end
  | faulted (fs : FsGlobals) (hn : s.processNumber = 0) :
      Advance s ({ s with fs := fs } : Kernel).loading

/-- While a program is loaded, the pointers and PCBs are those of the caller. -/
theorem Kernel.Inv.loading_links {s : Kernel} (h : s.Inv L) (hn : s.processNumber < 6)
    (fs : FsGlobals) : ({ s with fs := fs } : Kernel).loading.Links L := by
  have hpag := h.loading_paging hn
  have hbase := h.loading_base hn
  refine ⟨h.le_six, h.curPcb, h.esp0, ?_, ?_, h.live, h.keyboard⟩
  · show s.loading.paging.base < 2 ^ 10
    omega
  · show s.loading.paging = paged L s.loading.paging.base
    rw [hbase, hpag]

/-- The page fault handler ends the process that was loading a program. -/
theorem endByFault_advance {s t : Kernel} {o : Seen} (h : s.Inv L) (hn : s.processNumber < 6)
    (fs : FsGlobals) (hs : endByFault ({ s with fs := fs } : Kernel).loading = some (o, t)) :
    o.outcome = .fault ∧ Advance s t := by
  obtain ⟨⟨v, t'⟩, hhalt, hr⟩ := Option.map_eq_some_iff.mp hs
  obtain ⟨rfl, rfl⟩ := Prod.mk.inj hr
  refine ⟨rfl, ?_⟩
  have hlinks := h.loading_links hn fs
  by_cases h0 : s.processNumber = 0
  · rw [sysHaltC_zero (k := ({ s with fs := fs } : Kernel).loading) h0] at hhalt
    obtain ⟨rfl, rfl⟩ := Prod.mk.inj (Option.some.inj hhalt)
    exact .faulted fs h0
  · obtain ⟨u, hu, hended, -⟩ := hlinks.halt (Nat.one_le_iff_ne_zero.mpr h0) 256
    rw [hu] at hhalt
    obtain ⟨rfl, rfl⟩ := Prod.mk.inj (Option.some.inj hhalt)
    refine .ended (Nat.one_le_iff_ne_zero.mpr h0) ⟨hended.processNumber, hended.curPcb,
      hended.esp0, ?_, hended.others, hended.links, hended.keyboard⟩
    -- the page that the loading had set is overwritten
    rw [hended.paging, hlinks.paging, h.paging, setBase_paged, setBase_paged]
    rfl

/-- What the event `execute` does, with what is seen of it. -/
theorem step_execute {s t : Kernel} (h : s.Inv L) {command : CString} {env : ExecEnv} {o : Seen}
    (hs : step img s (.execute command env) = some (o, t)) :
    (∃ fs, o = ⟨.ret (-1), []⟩ ∧ t = { s with fs := fs }) ∨
      (∃ fs, s.processNumber < 6 ∧ o = ⟨.entered, []⟩ ∧
        t = enter command env s.paging.base ({ s with fs := fs } : Kernel).loading) ∨
      (o.outcome = .fault ∧ Advance s t) := by
  obtain ⟨⟨out, t'⟩, hx, hr⟩ := Option.bind_eq_some_iff.mp hs
  obtain ⟨fs, ⟨rfl, rfl⟩ | ⟨hn, rfl, rfl⟩ | ⟨hn, rfl, rfl⟩⟩ := h.execute hx
  · obtain ⟨rfl, rfl⟩ := Prod.mk.inj (Option.some.inj hr)
    exact .inl ⟨fs, rfl, rfl⟩
  · exact .inr (.inr (endByFault_advance h hn fs hr))
  · obtain ⟨rfl, rfl⟩ := Prod.mk.inj (Option.some.inj hr)
    exact .inr (.inl ⟨fs, hn, rfl, rfl⟩)

/-- Whatever a read stores lies in the program page. -/
def Event.Lands (img : Image) (k : Kernel) : Event → Prop
  | .read fd buf nbytes env =>
      ∀ e, sysReadEffect img fd buf nbytes env k = some e → ∀ q ∈ e.stores, InProgramPage q.1
  | _ => True

theorem Event.ReadFits.lands {k : Kernel} {e : Event} (h : e.ReadFits img k)
    (hk : k.console.kbd.Ok) : e.Lands img k := by
  cases e with
  | read fd buf nbytes env => exact fun _ he => sysReadEffect_inProgramPage hk he h
  | execute | halt | «open» | close | write | key | tick => trivial

/-- Such a read does not reach any PCB … -/
theorem Kernel.Inv.storeAll_read {s : Kernel} (h : s.Inv L) {fd : Int} {buf : Nat} {nbytes : Int}
    {env : ReadEnv} {e : ReadEffect} (hf : (Event.read fd buf nbytes env).Lands img s)
    (he : sysReadEffect img fd buf nbytes env s = some e) : s.storeAll e.stores = some s := by
  rcases Nat.eq_zero_or_pos s.processNumber with h0 | hpos
  · -- without a process every read is refused
    rcases sysReadEffect_cases he with rfl | ⟨ha, -⟩
    · rfl
    · exact absurd (by rw [h.curPcb, h0]; rfl) ha.curPcb_ne
  · have hbase := h.base hpos
    exact Kernel.storeAll_inProgramPage h.paging (by omega) h.base_lt (hf e he)

/-- … so that the descriptor is updated in the state before the read. -/
theorem sysReadC_effect {s t : Kernel} (h : s.Inv L) {fd : Int} {buf : Nat} {nbytes : Int}
    {env : ReadEnv} {r : Int × List (Nat × UInt8)}
    (hf : (Event.read fd buf nbytes env).Lands img s)
    (hs : sysReadC img fd buf nbytes env s = some (r, t)) :
    ∃ e, sysReadEffect img fd buf nbytes env s = some e ∧ r = (e.ret, e.stores) ∧ t = e.after s := by
  obtain ⟨e, he, hr⟩ := Option.bind_eq_some_iff.mp hs
  rw [h.storeAll_read hf he, Option.map_some] at hr
  obtain ⟨rfl, rfl⟩ := Prod.mk.inj (Option.some.inj hr)
  exact ⟨e, he, rfl, rfl⟩

theorem sysReadC_keeps {s t : Kernel} (h : s.Inv L) {fd : Int} {buf : Nat} {nbytes : Int}
    {env : ReadEnv} {r : Int × List (Nat × UInt8)}
    (hf : (Event.read fd buf nbytes env).Lands img s)
    (hs : sysReadC img fd buf nbytes env s = some (r, t)) : Keeps s t := by
  obtain ⟨e, he, -, rfl⟩ := sysReadC_effect h hf hs
  exact sysReadEffect_keeps h.files he

/-- The event `read` is a call of `sys_read_c`. -/
theorem step_read {s t : Kernel} {fd : Int} {buf : Nat} {nbytes : Int} {env : ReadEnv} {o : Seen}
    (hs : step img s (.read fd buf nbytes env) = some (o, t)) :
    ∃ r, sysReadC img fd buf nbytes env s = some (r, t) ∧ o = ⟨.ret r.1, r.2⟩ := by
  obtain ⟨⟨r, t'⟩, hread, hr⟩ := Option.map_eq_some_iff.mp hs
  obtain ⟨rfl, rfl⟩ := Prod.mk.inj hr
  exact ⟨r, hread, rfl⟩

/-- Starting and ending processes. -/
def Event.IsProcessCall : Event → Prop
  | .execute _ _ | .halt _ => True
  | _ => False

/-- Every other event touches the current process's descriptors only. -/
theorem step_keeps {s t : Kernel} (h : s.Inv L) {e : Event} (hf : e.Lands img s)
    (he : ¬ e.IsProcessCall) {o : Seen} (hs : step img s e = some (o, t)) : Keeps s t := by
  cases e with
  | execute command env => exact absurd trivial he
  | halt status => exact absurd trivial he
  | «open» filename =>
      obtain ⟨v, hopen, -⟩ := map_output_eq_some.mp hs
      exact sysOpenC_keeps hopen
  | close fd =>
      obtain ⟨v, hclose, -⟩ := map_output_eq_some.mp hs
      exact sysCloseC_keeps hclose
  | read fd buf nbytes env =>
      obtain ⟨r, hread, -⟩ := step_read hs
      exact sysReadC_keeps h hf hread
  | write fd buf data nbytes =>
      obtain ⟨v, hwrite, -⟩ := map_output_eq_some.mp hs
      exact sysWriteC_keeps hwrite
  | key input =>
      obtain ⟨-, rfl⟩ := Prod.mk.inj (Option.some.inj hs)
      exact keeps_console s fun hok => Console.keyHandler_ok hok input
  | tick =>
      obtain ⟨-, rfl⟩ := Prod.mk.inj (Option.some.inj hs)
      exact .globals s s.fs _

/-- **What an event does**: it touches the current process's descriptors only,
or starts a process, or ends one. -/
theorem step_advance {s t : Kernel} (h : s.Inv L) {e : Event} (hf : e.Lands img s) {o : Seen}
    (hs : step img s e = some (o, t)) : Advance s t := by
  cases e with
  | execute command env =>
      obtain ⟨fs, -, rfl⟩ | ⟨fs, hn, -, rfl⟩ | ⟨-, hadv⟩ := step_execute h hs
      · exact .keeps (.globals s fs s.rtc)
      · exact .entered command env fs hn
      · exact hadv
  | halt status =>
      obtain ⟨v, hhalt, -⟩ := map_output_eq_some.mp hs
      rcases Nat.eq_zero_or_pos s.processNumber with h0 | hpos
      · rw [sysHaltC_zero h0] at hhalt
        obtain ⟨-, rfl⟩ := Prod.mk.inj (Option.some.inj hhalt)
        exact .keeps (.refl s)
      · obtain ⟨u, hu, hended, -⟩ := h.halt hpos status.toNat
        rw [hu] at hhalt
        obtain ⟨-, rfl⟩ := Prod.mk.inj (Option.some.inj hhalt)
        exact .ended hpos hended
  | «open» | close | read | write | key | tick => exact .keeps (step_keeps h hf id hs)

/-- The invariant is kept. -/
theorem Advance.inv {s t : Kernel} (hadv : Advance s t) (h : s.Inv L) : t.Inv L := by
  cases hadv with
  | keeps hk => exact h.of_keeps hk
  | entered command env fs hn =>
      exact (h.of_keeps (.globals s fs s.rtc)).enter hn command env
  | ended hn hended => exact h.ended hn hended
  | faulted fs hn =>
      refine ⟨h.loading_links (by omega) fs, fun h1 => ?_⟩
      have h0 : ({ s with fs := fs } : Kernel).loading.processNumber = 0 := hn
      omega

end LinuxBasedOs
