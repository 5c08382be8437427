/-
LinuxBasedOs/Isolation.lean

The memory of the programs, as the processor reaches it: control registers (paging.S),
translation lookaside buffer, and physical memory.

The kernel gives every program the same addresses.  `sys_execute_c` and `sys_halt_c`
change one page directory entry and then load CR3 with the value that it has, for
nothing but its side effect of flushing the TLB.  Meanwhile the processor may cache any
translation at any time.

Two results over every run, in which the processor caches what it likes and the programs
store where they can:

* `translate_eq_walk` — an address always leads where the tables say, so that nothing
  stale is ever used;
* `suspended_untouched` — while a process waits for the programs that it has started, not
  a byte of its memory changes.
-/
import LinuxBasedOs.Tlb
import LinuxBasedOs.UserPointers

namespace LinuxBasedOs

open Bytes Transition

/-! ### Control registers -/

/-- The control registers that paging looks at. -/
structure ControlRegs where
  cr0 : BitVec 32
  cr3 : BitVec 32
  cr4 : BitVec 32

namespace ControlRegs

/-- Bit 31 of CR0. -/
def paging (r : ControlRegs) : Bool := r.cr0.getLsbD 31

/-- Bits 4 and 7 of CR4: pages of 4 MB, and global pages. -/
def pageSizeExtensions (r : ControlRegs) : Bool := r.cr4.getLsbD 4

/-- CR4.PGE. -/
def globalPages (r : ControlRegs) : Bool := r.cr4.getLsbD 7

/-- `ret_dir_ptr`. -/
def retDirPtr (r : ControlRegs) : BitVec 32 := r.cr3 &&& 0xFFFFF000

end ControlRegs

/-! ### Translations -/

/-- The global bit of an entry. -/
def Entry.globalPage (e : Entry) : Nat := BitField.get e 8 1

/-- What the processor caches of a page of 4 KB, or of that part of a page of 4 MB. -/
structure PageEntry where
  frame : Nat
  user : Bool
  global : Bool
  deriving DecidableEq

/-- The walk for a page. -/
def Paging.lookup (p : Paging) (page : Nat) : Option PageEntry :=
  let pde := p.pageDirectory (page / 1024)
  if pde.present = 0 then none
  else if pde.pageSize = 1 then
    some ⟨pde.pageBase * 2 ^ 22 + page % 1024 * 2 ^ 12, pde.userSuper = 1, pde.globalPage = 1⟩
  else
    let pte := p.table pde.tableBase (page % 1024)
    if pte.present = 0 then none
    else some ⟨pte.tableBase * 2 ^ 12, pde.userSuper = 1 ∧ pte.userSuper = 1, pte.globalPage = 1⟩

/-- Where an address of the page leads. -/
def PageEntry.at (e : PageEntry) (v : Nat) : Translation := ⟨e.frame + v % 2 ^ 12, e.user⟩

/-! ### The machine -/

/-- The kernel's data are in `kernel`; of `ram` the frames of the programs matter. -/
structure Memory where
  kernel : Kernel
  regs : ControlRegs
  tlb : Tlb.Cache Nat PageEntry
  ram : Mem

namespace Memory

/-- The tables, if CR3 leads to them and they are read with pages of 4 MB.  `dir` is the
address of `page_directory`. -/
def tables (dir : BitVec 32) (s : Memory) (page : Nat) : Option PageEntry :=
  if s.regs.retDirPtr = dir ∧ s.regs.pageSizeExtensions = true then s.kernel.paging.lookup page
  else none

/-- Where an address leads. -/
def translate (dir : BitVec 32) (s : Memory) (v : Nat) : Option Translation :=
  if s.regs.paging then
    (Tlb.find (s.tables dir) s.tlb (v / 2 ^ 12)).map fun e => e.at v
  else some ⟨v, true⟩

/-- A load of CR3 flushes the TLB, but for the global entries if these are enabled. -/
def lpdt (pageDirectory : BitVec 32) (s : Memory) : Memory :=
  { s with
    regs := { s.regs with
      cr3 := (pageDirectory &&& 0xFFFFF000) ||| (s.regs.cr3 &&& 0x00000FFF) }
    tlb := Tlb.flush (fun e => e.global && s.regs.globalPages) s.tlb }

/-- `enablePSE`: 4 MB pages. -/
def enablePSE (s : Memory) : Memory :=
  { s with regs := { s.regs with cr4 := s.regs.cr4 ||| 0x00000010 } }

/-- `enablePGE`: global pages stay in the TLB. -/
def enablePGE (s : Memory) : Memory :=
  { s with regs := { s.regs with cr4 := s.regs.cr4 ||| 0x00000080 } }

/-- Paging starts with nothing cached. -/
def enablePaging (s : Memory) : Memory :=
  { s with
    regs := { s.regs with cr0 := s.regs.cr0 ||| 0x80000000 }
    tlb := if s.regs.paging then s.tlb else Tlb.empty }

/-- The end of `init_paging`, which has built the tables of `Kernel.boot`. -/
def boot (L : Layout) (dir : BitVec 32) (pcbs : Nat → Pcb) (screen : Screen) (rtc : Rtc)
    (regs : ControlRegs) (ram : Mem) : Memory :=
  (((Memory.mk (.boot L pcbs screen rtc) regs Tlb.empty ram).lpdt dir).enablePSE.enablePGE).enablePaging

/-- Stores, one after the other, up to the first that faults. -/
def storeRam (tr : Nat → Option Translation) : List (Nat × UInt8) → Mem → Mem
  | [], ram => ram
  | p :: ps, ram =>
      match tr p.1 with
      | none => ram
      | some t => storeRam tr ps (Function.update ram t.phys p.2)

/-- `lpdt(ret_dir_ptr())`. -/
def reload (s : Memory) : Memory := s.lpdt s.regs.retDirPtr

end Memory

/-- The inode of the program, if `sys_execute_c` gets past its checks. -/
def Kernel.program (img : Image) (command : CString) (env : ExecEnv) (k : Kernel) : Option Nat :=
  if 6 ≤ k.processNumber then none
  else
    (readDentryByName img (commandWord command) k.fs).bind fun r =>
      match r.1 with
      | none => none
      | some (d, _) =>
          if img.dentryType d ≠ regFile then none
          else if ¬ isElf img (img.dentryInode d) env.header then none
          else some (img.dentryInode d)

/-- What can happen to memory while processes run. -/
inductive MemoryEvent where
  | call (e : Event)                                          -- a system call, or an interrupt
  | getargs (buf : Nat) (nbytes : Int) (beyond : Mem)
  | vidmap (screenStart : Nat)
  | store (v : Nat) (b : UInt8)                               -- a store by the program
  | cache (page : Nat)                                        -- a translation is cached

namespace Memory

variable (img : Image) (dir : BitVec 32)

/-- The new page is mapped, the TLB flushed, and the program copied to the page. -/
def load (inode : Nat) (s : Memory) : Memory :=
  let t := ({ s with kernel := s.kernel.loading } : Memory).reload
  { t with ram := storeRam (t.translate dir) (programStores img inode) t.ram }

/-- What a call that the kernel has answered with `o` did to the rest of the machine. -/
def afterCall (s : Memory) (e : Event) (o : Seen) : Memory :=
  match e with
  | .execute command env =>
      match s.kernel.program img command env with
      | none => s
      | some inode =>
          let t := s.load img dir inode
          -- the page fault handler ends the calling process, if there is one
          if o.outcome = .fault ∧ s.kernel.processNumber ≠ 0 then t.reload else t
  | .halt _ =>
      if s.kernel.processNumber = 0 ∨ s.kernel.paging.getBigPage proAddr = none then s
      else s.reload
  | .read _ _ _ _ => { s with ram := storeRam (s.translate dir) o.stores s.ram }
  | .open _ | .close _ | .write _ _ _ _ | .key _ | .tick => s

/-- A call that stores through a pointer and returns. -/
def through (e : Effect) (s : Memory) : Option (Seen × Memory) :=
  e.ret.bind fun v => (s.kernel.storeAll e.stores).map fun k =>
    (⟨.ret v, e.stores⟩,
      { s with kernel := k, ram := storeRam (s.translate dir) e.stores s.ram })

/-- A store that is not allowed has no successor here: the fault ends the process, as
another event. -/
def step (s : Memory) : MemoryEvent → Option (Seen × Memory)
  | .call e =>
      (LinuxBasedOs.step img s.kernel e).map fun r =>
        (r.1, { s.afterCall img dir e r.1 with kernel := r.2 })
  | .getargs buf nbytes beyond => s.through dir (sysGetargsC buf nbytes beyond s.kernel)
  | .vidmap screenStart => s.through dir (sysVidmapC screenStart s.kernel)
  | .store v b =>
      (s.translate dir v).bind fun t =>
        if t.user then some (.ofInt 0, { s with ram := Function.update s.ram t.phys b }) else none
  | .cache page => some (.ofInt 0, { s with tlb := Tlb.fill (s.tables dir) page s.tlb })

end Memory

/-- A process calls, the pointers that it passes lead to its page, and commands fit. -/
def MemoryEvent.Fits (img : Image) (s : Memory) : MemoryEvent → Prop
  | .call e => e.Fits img s.kernel
  | .getargs buf nbytes beyond =>
      1 ≤ s.kernel.processNumber ∧
        ∀ q ∈ (sysGetargsC buf nbytes beyond s.kernel).stores, InProgramPage q.1
  | .vidmap screenStart =>
      1 ≤ s.kernel.processNumber ∧
        ∀ q ∈ (sysVidmapC screenStart s.kernel).stores, InProgramPage q.1
  | .store _ _ | .cache _ => True

instance (img : Image) (s : Memory) (e : MemoryEvent) : Decidable (e.Fits img s) :=
  match e with
  | .call e => inferInstanceAs (Decidable (e.Fits img s.kernel))
  | .getargs _ _ _ | .vidmap _ => inferInstanceAs (Decidable (_ ∧ _))
  | .store _ _ | .cache _ => isTrue trivial

/-! ### Lookup and walk -/

theorem Paging.walk_eq_lookup (p : Paging) (v : Nat) :
    p.walk v = (p.lookup (v / 2 ^ 12)).map fun e => e.at v := by
  have hdir : v / 2 ^ 12 / 1024 = v / 2 ^ 22 := by omega
  have hoff : ∀ b, b * 2 ^ 22 + v % 2 ^ 22 =
      b * 2 ^ 22 + v / 2 ^ 12 % 1024 * 2 ^ 12 + v % 2 ^ 12 := by
    intro b
    omega
  simp only [walk, lookup, hdir, hoff]
  split_ifs
  all_goals rfl

/-- The program page is not global, so changing its base changes no global
translation. -/
theorem lookup_global {L : Layout} {b : Nat} (b' : Nat) {page : Nat} {e : PageEntry}
    (h : (paged L b).lookup page = some e) (hglobal : e.global = true) :
    (paged L b').lookup page = some e := by
  by_cases hpro : page / 1024 = proAddr
  · exfalso
    have hentry : (paged L b).pageDirectory (page / 1024) = programPageAt b := by
      rw [pageDirectory_paged, hpro, Function.update_self]
    have hsize : (programPageAt b).pageSize = 1 := by
      rw [Entry.pageSize, programPageAt, BitField.get_set_of_disjoint _ _ (.inl (by decide))]
      rfl
    have hnot : (programPageAt b).globalPage = 0 := by
      rw [Entry.globalPage, programPageAt, BitField.get_set_of_disjoint _ _ (.inl (by decide))]
      rfl
    simp only [Paging.lookup, hentry, hsize, hnot] at h
    split_ifs at h
    rw [← Option.some.inj h] at hglobal
    simp at hglobal
  · have hdir : (paged L b').pageDirectory (page / 1024) = (paged L b).pageDirectory (page / 1024) := by
      rw [pageDirectory_paged, pageDirectory_paged, Function.update_of_ne hpro,
        Function.update_of_ne hpro]
    have htable : (paged L b').table = (paged L b).table := rfl
    rw [← h]
    simp only [Paging.lookup, hdir, htable]

/-! ### The registers -/

/-- Paging is on, with the kernel's directory. -/
structure ControlRegs.Ready (dir : BitVec 32) (r : ControlRegs) : Prop where
  paging : r.paging = true
  pageSizeExtensions : r.pageSizeExtensions = true
  retDirPtr : r.retDirPtr = dir

/-- A load of CR3 keeps its low bits. -/
theorem retDirPtr_lpdt (s : Memory) (pageDirectory : BitVec 32) :
    (s.lpdt pageDirectory).regs.retDirPtr = pageDirectory &&& 0xFFFFF000 :=
  BitField.merge_and_not pageDirectory s.regs.cr3 0x00000FFF

/-- `lpdt(ret_dir_ptr())` leaves CR3 as it is, and flushes. -/
theorem Memory.reload_eq (s : Memory) :
    s.reload = { s with tlb := Tlb.flush (fun e => e.global && s.regs.globalPages) s.tlb } := by
  have hcr3 : (s.regs.retDirPtr &&& 0xFFFFF000) ||| (s.regs.cr3 &&& 0x00000FFF) = s.regs.cr3 :=
    BitField.split_or s.regs.cr3 0x00000FFF
  rw [reload, lpdt, hcr3]

/-! ### Coherence -/

/-- The kernel is consistent, paging is on, and nothing stale is cached. -/
structure Memory.Ok (L : Layout) (dir : BitVec 32) (s : Memory) : Prop where
  kernel : s.kernel.Inv L
  regs : s.regs.Ready dir
  coherent : Tlb.Coherent s.kernel.paging.lookup s.tlb

variable {L : Layout} {img : Image} {dir : BitVec 32}

theorem Memory.translate_eq {s : Memory} (hregs : s.regs.Ready dir)
    (hc : Tlb.Coherent s.kernel.paging.lookup s.tlb) (v : Nat) :
    s.translate dir v = s.kernel.paging.walk v := by
  have htables : s.tables dir = s.kernel.paging.lookup :=
    funext fun page => if_pos ⟨hregs.retDirPtr, hregs.pageSizeExtensions⟩
  rw [translate, if_pos hregs.paging, htables, hc.find, Paging.walk_eq_lookup]

/-- Whatever the program page was, and whatever it is now. -/
theorem coherent_flush {b : Nat} {c : Tlb.Cache Nat PageEntry}
    (h : Tlb.Coherent (paged L b).lookup c) (b' : Nat) (g : Bool) :
    Tlb.Coherent (paged L b').lookup (Tlb.flush (fun e => e.global && g) c) :=
  h.flush fun _ _ hlook hglobal => lookup_global b' hlook (Bool.and_eq_true_iff.mp hglobal).1

theorem Memory.boot_ok (hdir : dir &&& 0x00000FFF = 0) (pcbs : Nat → Pcb) (screen : Screen)
    (rtc : Rtc) (regs : ControlRegs) (ram : Mem) :
    (Memory.boot L dir pcbs screen rtc regs ram).Ok L dir where
  kernel := Kernel.boot_inv L pcbs screen rtc
  regs := by
    refine ⟨?_, ?_, ?_⟩
    · simp [boot, enablePaging, ControlRegs.paging]
    · simp [boot, enablePaging, enablePGE, enablePSE, ControlRegs.pageSizeExtensions]
    · exact (retDirPtr_lpdt _ dir).trans (BitField.and_not_of_and_eq_zero hdir)
  coherent := by
    have hempty : Tlb.Coherent (initPaging L).lookup
        (Tlb.flush (fun e => e.global && regs.globalPages) Tlb.empty) :=
      (Tlb.coherent_empty _).flush fun _ _ hlook _ => hlook
    show Tlb.Coherent (initPaging L).lookup (if _ then _ else _)
    split
    · exact hempty
    · exact Tlb.coherent_empty _

/-! ### What a call does to the machine -/

/-- A command that does not name a program changes nothing but the lookup's buffers; for
one that does, the program is loaded. -/
theorem sysExecuteC_program {command : CString} {env : ExecEnv} {k t : Kernel} {o : Outcome}
    (h : sysExecuteC img command env k = some (o, t)) :
    (k.program img command env = none ∧ o = .ret (-1) ∧ ∃ fs, t = { k with fs := fs }) ∨
      (k.processNumber < 6 ∧ ∃ inode fs, k.program img command env = some inode ∧
        LinuxBasedOs.load command env (programStores img inode) { k with fs := fs } =
          some (o, t)) := by
  unfold sysExecuteC at h
  unfold Kernel.program
  split_ifs at h ⊢ with h6
  · obtain ⟨rfl, rfl⟩ := Prod.mk.inj (Option.some.inj h)
    exact .inl ⟨rfl, rfl, k.fs, rfl⟩
  obtain ⟨⟨found, fs⟩, hfound, hr⟩ := Option.bind_eq_some_iff.mp h
  rw [hfound, Option.bind_some]
  rcases found with - | ⟨d, len⟩
  · obtain ⟨rfl, rfl⟩ := Prod.mk.inj (Option.some.inj hr)
    exact .inl ⟨rfl, rfl, fs, rfl⟩
  simp only at hr ⊢
  split_ifs at hr ⊢ with htype helf
  · obtain ⟨rfl, rfl⟩ := Prod.mk.inj (Option.some.inj hr)
    exact .inl ⟨rfl, rfl, fs, rfl⟩
  · exact .inr ⟨by omega, img.dentryInode d, fs, rfl, hr⟩
  · obtain ⟨rfl, rfl⟩ := Prod.mk.inj (Option.some.inj hr)
    exact .inl ⟨rfl, rfl, fs, rfl⟩

/-- A call that does not reload CR3 has not changed the tables. -/
theorem step_paging {k t : Kernel} (h : k.Inv L) {e : Event} (hf : e.Lands img k) {o : Seen}
    (hs : LinuxBasedOs.step img k e = some (o, t))
    (hexecute : ∀ command env, e = .execute command env → k.program img command env = none)
    (hhalt : ∀ status, e = .halt status → k.processNumber = 0) : t.paging = k.paging := by
  cases e with
  | execute command env =>
      obtain ⟨⟨o', t'⟩, hx, hr⟩ := Option.bind_eq_some_iff.mp hs
      obtain ⟨-, rfl, fs, rfl⟩ | ⟨-, inode, fs, hsome, -⟩ := sysExecuteC_program hx
      · obtain ⟨-, rfl⟩ := Prod.mk.inj (Option.some.inj hr)
        rfl
      · rw [hexecute command env rfl] at hsome
        cases hsome
  | halt status =>
      obtain ⟨v, hhalt', -⟩ := map_output_eq_some.mp hs
      rw [sysHaltC_zero (hhalt status rfl)] at hhalt'
      obtain ⟨-, rfl⟩ := Prod.mk.inj (Option.some.inj hhalt')
      rfl
  | «open» | close | read | write | key | tick => exact (step_keeps h hf id hs).paging

/-- The rest of the machine after a call: the registers are the same, and the TLB is the
same or flushed; it is flushed if the tables have changed. -/
theorem Memory.afterCall_tlb {s : Memory} (h : s.Ok L dir) {e : Event}
    (hf : e.Lands img s.kernel) {o : Seen} {t : Kernel}
    (hs : LinuxBasedOs.step img s.kernel e = some (o, t)) :
    (s.afterCall img dir e o).regs = s.regs ∧
      Tlb.Coherent t.paging.lookup (s.afterCall img dir e o).tlb := by
  have hinv : t.Inv L := (step_advance h.kernel hf hs).inv h.kernel
  have hcoherent := h.coherent
  rw [h.kernel.paging] at hcoherent
  have hflush := coherent_flush hcoherent t.paging.base s.regs.globalPages
  rw [← hinv.paging] at hflush
  have hsame (hexecute : ∀ command env, e = .execute command env →
      s.kernel.program img command env = none)
      (hhalt : ∀ status, e = .halt status → s.kernel.processNumber = 0) :
      Tlb.Coherent t.paging.lookup s.tlb := by
    rw [step_paging h.kernel hf hs hexecute hhalt]
    exact h.coherent
  cases e with
  | execute command env =>
      simp only [afterCall]
      rcases hprog : s.kernel.program img command env with - | inode
      · refine ⟨rfl, hsame (fun c env' heq => ?_) fun _ heq => by cases heq⟩
        cases heq
        exact hprog
      · simp only
        split_ifs
        · -- flushed twice
          rw [reload_eq, load, reload_eq]
          refine ⟨rfl, fun n e hc => ?_⟩
          exact hflush n e (Option.filter_eq_some_iff.mp hc).1
        · rw [load, reload_eq]
          exact ⟨rfl, hflush⟩
  | halt status =>
      simp only [afterCall]
      obtain ⟨entry, hpage⟩ : ∃ entry, s.kernel.paging.getBigPage proAddr = some entry := by
        rw [h.kernel.paging]
        exact getBigPage_paged L h.kernel.base_lt
      split_ifs with h0
      · refine ⟨rfl, hsame (fun _ _ heq => by cases heq) fun _ _ => ?_⟩
        exact h0.resolve_right fun hnone => by rw [hpage] at hnone; cases hnone
      · rw [reload_eq]
        exact ⟨rfl, hflush⟩
  | «open» | close | read | write | key | tick =>
      exact ⟨rfl, hsame (fun _ _ heq => by cases heq) fun _ heq => by cases heq⟩

/-- A call that stores to the program page does not change the kernel. -/
theorem Memory.through_eq {s t : Memory} (h : s.Ok L dir) (h1 : 1 ≤ s.kernel.processNumber)
    {e : Effect} (hland : ∀ q ∈ e.stores, InProgramPage q.1) {o : Seen}
    (hs : s.through dir e = some (o, t)) :
    t = { s with ram := storeRam (s.translate dir) e.stores s.ram } := by
  obtain ⟨v, -, hmap⟩ := Option.bind_eq_some_iff.mp hs
  have hbase := h.kernel.base h1
  rw [Kernel.storeAll_inProgramPage h.kernel.paging (by omega) h.kernel.base_lt hland,
    Option.map_some] at hmap
  exact (Prod.mk.inj (Option.some.inj hmap)).2.symm

/-- A store by the program needs no kernel. -/
theorem Memory.step_store {s t : Memory} {v : Nat} {b : UInt8} {o : Seen}
    (hs : s.step img dir (.store v b) = some (o, t)) :
    ∃ tr, s.translate dir v = some tr ∧ tr.user = true ∧
      t = { s with ram := Function.update s.ram tr.phys b } := by
  obtain ⟨tr, htr, hr⟩ := Option.bind_eq_some_iff.mp hs
  split_ifs at hr with huser
  exact ⟨tr, htr, huser, (Prod.mk.inj (Option.some.inj hr)).2.symm⟩

/-- **A step keeps the machine coherent.** -/
theorem Memory.Ok.step {s t : Memory} (h : s.Ok L dir) {e : MemoryEvent}
    (hf : e.Fits img s) {o : Seen} (hs : s.step img dir e = some (o, t)) :
    t.Ok L dir := by
  cases e with
  | call e =>
      -- the calls of a process are the events of the kernel, which keep its invariant
      have hland : e.Lands img s.kernel := hf.1.lands h.kernel.keyboard
      obtain ⟨⟨o', k⟩, hk, hr⟩ := Option.map_eq_some_iff.mp hs
      obtain ⟨-, rfl⟩ := Prod.mk.inj hr
      obtain ⟨hregs, hcoherent⟩ := afterCall_tlb h hland hk
      refine ⟨(step_advance h.kernel hland hk).inv h.kernel, ?_, hcoherent⟩
      show (s.afterCall img dir e o').regs.Ready dir
      rw [hregs]
      exact h.regs
  -- the stores of the kernel go through the tables, and change neither them nor the TLB
  | getargs buf nbytes beyond =>
      rw [through_eq h hf.1 hf.2 hs]
      exact ⟨h.kernel, h.regs, h.coherent⟩
  | vidmap screenStart =>
      rw [through_eq h hf.1 hf.2 hs]
      exact ⟨h.kernel, h.regs, h.coherent⟩
  | store v b =>
      obtain ⟨tr, -, -, rfl⟩ := step_store hs
      exact ⟨h.kernel, h.regs, h.coherent⟩
  | cache page =>
      obtain ⟨-, rfl⟩ := Prod.mk.inj (Option.some.inj hs)
      -- CR3 holds the directory and large pages are on, so the walk is the lookup
      have htables : s.tables dir = s.kernel.paging.lookup :=
        funext fun page => if_pos ⟨h.regs.retDirPtr, h.regs.pageSizeExtensions⟩
      refine ⟨h.kernel, h.regs, ?_⟩
      show Tlb.Coherent s.kernel.paging.lookup (Tlb.fill (s.tables dir) page s.tlb)
      rw [htables]
      exact h.coherent.fill page

/-- **The tables are obeyed.**  In every state that the kernel can get into, with pointers
that lead to the caller's page, an address leads exactly where the page tables say, no
matter which translations the processor has cached and when. -/
theorem translate_eq_walk {L : Layout} {img : Image} {dir : BitVec 32} (hdir : dir &&& 0x00000FFF = 0)
    {pcbs : Nat → Pcb} {screen : Screen} {rtc : Rtc} {regs : ControlRegs} {ram : Mem}
    {es : List MemoryEvent} {os : List Seen} {s : Memory}
    (hes : Along (Memory.step img dir) (fun s e => e.Fits img s)
      (.boot L dir pcbs screen rtc regs ram) es)
    (hrun : run (Memory.step img dir) (.boot L dir pcbs screen rtc regs ram) es = some (os, s))
    (v : Nat) : s.translate dir v = s.kernel.paging.walk v := by
  have hok : s.Ok L dir :=
    run_invariant (fun _ _ _ _ h hf hs => h.step hf hs)
      (Memory.boot_ok hdir pcbs screen rtc regs ram) hes hrun
  exact Memory.translate_eq hok.regs hok.coherent v

/-- A machine that has just booted, in protected mode, for concrete runs. -/
def tinyMemory : Memory :=
  .boot tinyLayout 0x401000 (fun _ => ⟨fun _ => clearFd, 0, fun _ => 0, 0, 0, 0⟩)
    ⟨0, 0, fun _ => 0, 0, []⟩ ⟨0, 0⟩ ⟨0x11, 0, 0⟩ fun _ => 0

/-- The page of the first program is cached; after a second program has been started, its
address leads to the second page. -/
theorem translate_eq_walk_tiny :
    let es : List MemoryEvent := [.call tinyExecute, .cache 0x8050, .call tinyExecute]
    (final (Memory.step tinyImage 0x401000) tinyMemory es).translate 0x401000 0x8050000 =
        (final (Memory.step tinyImage 0x401000) tinyMemory es).kernel.paging.walk 0x8050000 ∧
      (final (Memory.step tinyImage 0x401000) tinyMemory es).kernel.paging.walk 0x8050000 =
        some ⟨0xC50000, true⟩ := by
  intro es
  obtain ⟨os, hrun⟩ := run_final (Memory.step tinyImage 0x401000) tinyMemory es (by decide +kernel)
  exact ⟨translate_eq_walk (by decide) (by decide +kernel) hrun 0x8050000, by decide +kernel⟩

/-! ### Waiting processes -/

/-- The frames of the `j`-th process. -/
def InFrame (j p : Nat) : Prop := (j + 1) * 2 ^ 22 ≤ p ∧ p < (j + 2) * 2 ^ 22

/-- Only one program is mapped. -/
theorem walk_not_inFrame {base v j p : Nat} {t : Translation} (hbase : base < 2 ^ 10)
    (h : (paged L base).walk v = some t) (hj : 1 ≤ j) (hne : j + 1 ≠ base) (hp : InFrame j p) :
    t.phys ≠ p := by
  obtain ⟨hlo, hhi⟩ := hp
  rintro rfl
  -- the video page, the kernel and the program that runs
  have hphys : t.phys < 2 * 2 ^ 22 ∨ (base * 2 ^ 22 ≤ t.phys ∧ t.phys < (base + 1) * 2 ^ 22) := by
    rw [walk_paged L hbase] at h
    split_ifs at h
    all_goals
      rw [← Option.some.inj h]
      simp only
      omega
  rcases hphys with hlow | hown
  · omega
  · rcases Nat.lt_or_gt_of_ne hne with hlt | hgt
    · omega
    · omega

theorem Memory.storeRam_of_ne {tr : Nat → Option Translation} {p : Nat}
    (h : ∀ v t, tr v = some t → t.phys ≠ p) (ps : List (Nat × UInt8)) (ram : Mem) :
    storeRam tr ps ram p = ram p := by
  induction ps generalizing ram with
  | nil => rfl
  | cons q ps ih =>
      rw [storeRam]
      rcases htr : tr q.1 with - | t
      · rfl
      · exact (ih _).trans (Function.update_of_ne (h q.1 t htr).symm _ _)

/-- Stores through the kernel's tables. -/
theorem Memory.storeRam_not_inFrame {s : Memory} (hregs : s.regs.Ready dir)
    (hc : Tlb.Coherent s.kernel.paging.lookup s.tlb) {base : Nat} (hbase : base < 2 ^ 10)
    (hpaging : s.kernel.paging = paged L base) {m p : Nat} (hm : 1 ≤ m) (hne : m + 1 ≠ base)
    (hp : InFrame m p) (ps : List (Nat × UInt8)) :
    storeRam (s.translate dir) ps s.ram p = s.ram p := by
  apply storeRam_of_ne
  intro v t ht
  rw [translate_eq hregs hc, hpaging] at ht
  exact walk_not_inFrame hbase ht hm hne hp

/-- Process `m` does not run: another one does, or it starts one. -/
def MemoryEvent.Waits (m : Nat) (s : Memory) : MemoryEvent → Prop
  | .call (.execute _ _) | .cache _ => m ≤ s.kernel.processNumber
  | .call (.halt _) | .call (.open _) | .call (.close _) | .call (.read _ _ _ _)
  | .call (.write _ _ _ _) | .call (.key _) | .call .tick | .getargs _ _ _ | .vidmap _
  | .store _ _ => m < s.kernel.processNumber

instance (m : Nat) (s : Memory) : (e : MemoryEvent) → Decidable (e.Waits m s)
  | .call (.execute _ _) | .cache _ => Nat.decLe m s.kernel.processNumber
  | .call (.halt _) | .call (.open _) | .call (.close _) | .call (.read _ _ _ _)
  | .call (.write _ _ _ _) | .call (.key _) | .call .tick | .getargs _ _ _ | .vidmap _
  | .store _ _ => Nat.decLt m s.kernel.processNumber

theorem Kernel.program_lt {k : Kernel} {command : CString} {env : ExecEnv} {inode : Nat}
    (h : k.program img command env = some inode) : k.processNumber < 6 := by
  by_contra h6
  rw [program, if_pos (not_lt.mp h6)] at h
  cases h

/-- Loading a program writes to the page of the new process. -/
theorem Memory.Ok.load_ram (img : Image) {s : Memory} (h : s.Ok L dir)
    (hn : s.kernel.processNumber < 6) {m p : Nat} (hm : 1 ≤ m) (hle : m ≤ s.kernel.processNumber)
    (hp : InFrame m p) (inode : Nat) :
    (s.load img dir inode).ram p = s.ram p := by
  have hpaging := h.kernel.loading_paging hn
  have hcoherent := h.coherent
  rw [h.kernel.paging] at hcoherent
  have hflush := coherent_flush hcoherent (s.kernel.processNumber + 2) s.regs.globalPages
  rw [← hpaging] at hflush
  rw [load, reload_eq]
  exact storeRam_not_inFrame (s := { s with
      kernel := s.kernel.loading
      tlb := Tlb.flush (fun e => e.global && s.regs.globalPages) s.tlb })
    h.regs hflush (by omega) hpaging hm (by omega) hp _

/-- **A step leaves a waiting process alone.** -/
theorem Memory.Ok.step_ram {s t : Memory} (h : s.Ok L dir) {e : MemoryEvent} (hf : e.Fits img s)
    {m p : Nat} (hm : 1 ≤ m) (hwaits : e.Waits m s) (hp : InFrame m p) {o : Seen}
    (hs : s.step img dir e = some (o, t)) : t.ram p = s.ram p := by
  -- the program that runs is another one
  have hstores (hlt : m < s.kernel.processNumber) (ps : List (Nat × UInt8)) :
      storeRam (s.translate dir) ps s.ram p = s.ram p := by
    have hbase := h.kernel.base (by omega)
    exact storeRam_not_inFrame h.regs h.coherent h.kernel.base_lt h.kernel.paging hm (by omega) hp ps
  cases e with
  | call e =>
      obtain ⟨⟨o', k⟩, hk, hr⟩ := Option.map_eq_some_iff.mp hs
      obtain ⟨-, rfl⟩ := Prod.mk.inj hr
      show (s.afterCall img dir e o').ram p = s.ram p
      cases e with
      | execute command env =>
          simp only [afterCall]
          rcases hprog : s.kernel.program img command env with - | inode
          · rfl
          · have hload := h.load_ram img (Kernel.program_lt hprog) hm hwaits hp inode
            simp only
            split_ifs
            · rw [reload_eq]
              exact hload
            · exact hload
      | halt status =>
          simp only [afterCall]
          split_ifs
          · rfl
          · rw [reload_eq]
      | read fd buf nbytes env => exact hstores hwaits _
      | «open» | close | write | key | tick => rfl
  | getargs buf nbytes beyond =>
      rw [through_eq h hf.1 hf.2 hs]
      simp only
      rw [hstores hwaits]
  | vidmap screenStart =>
      rw [through_eq h hf.1 hf.2 hs]
      simp only
      rw [hstores hwaits]
  | store v b =>
      obtain ⟨tr, htr, -, rfl⟩ := step_store hs
      have hlt : m < s.kernel.processNumber := hwaits
      have hbase := h.kernel.base (by omega)
      rw [translate_eq h.regs h.coherent, h.kernel.paging] at htr
      exact Function.update_of_ne
        (walk_not_inFrame h.kernel.base_lt htr hm (by omega) hp).symm _ _
  | cache page =>
      obtain ⟨-, rfl⟩ := Prod.mk.inj (Option.some.inj hs)
      rfl

/-- **A waiting process finds its memory as it left it.**  From any state that the kernel
can get into, as long as process `m` does nothing but start others, no byte of its page
changes: not by the programs, their loading, or the kernel's stores on their behalf. -/
theorem suspended_untouched {L : Layout} {img : Image} {dir : BitVec 32}
    (hdir : dir &&& 0x00000FFF = 0) {pcbs : Nat → Pcb} {screen : Screen} {rtc : Rtc}
    {regs : ControlRegs} {ram : Mem} {es₀ : List MemoryEvent} {os₀ : List Seen} {s : Memory}
    (hes₀ : Along (Memory.step img dir) (fun s e => e.Fits img s)
      (.boot L dir pcbs screen rtc regs ram) es₀)
    (hrun₀ : run (Memory.step img dir) (.boot L dir pcbs screen rtc regs ram) es₀ = some (os₀, s))
    {m : Nat} (hm : 1 ≤ m) {es : List MemoryEvent} {os : List Seen} {t : Memory}
    (hes : Along (Memory.step img dir) (fun s e => e.Fits img s ∧ e.Waits m s) s es)
    (hrun : run (Memory.step img dir) s es = some (os, t)) {p : Nat} (hp : InFrame m p) :
    t.ram p = s.ram p := by
  have hok : s.Ok L dir :=
    run_invariant (fun _ _ _ _ h hf hs => h.step hf hs)
      (Memory.boot_ok hdir pcbs screen rtc regs ram) hes₀ hrun₀
  have hall : t.Ok L dir ∧ t.ram p = s.ram p := by
    refine run_invariant (I := fun u : Memory => u.Ok L dir ∧ u.ram p = s.ram p) ?_ ⟨hok, rfl⟩
      hes hrun
    intro u e o u' hu hG hstep
    exact ⟨hu.1.step hG.1 hstep, (hu.1.step_ram hG.1 hm hG.2 hp hstep).trans hu.2⟩
  exact hall.2

/-- The first program stores 7; the second one stores 9 to the same address, and ends. -/
theorem suspended_untouched_tiny :
    let s := final (Memory.step tinyImage 0x401000) tinyMemory
      [.call tinyExecute, .store 0x8050000 7]
    let es : List MemoryEvent := [.cache 0x8050, .call tinyExecute, .store 0x8050000 9,
      .cache 0x8050, .call (.halt 3)]
    let t := final (Memory.step tinyImage 0x401000) s es
    s.ram 0x850000 = 7 ∧ t.ram 0xC50000 = 9 ∧ t.ram 0x850000 = s.ram 0x850000 := by
  intro s es t
  obtain ⟨os₀, hrun₀⟩ := run_final (Memory.step tinyImage 0x401000) tinyMemory
    [.call tinyExecute, .store 0x8050000 7] (by decide +kernel)
  obtain ⟨os, hrun⟩ := run_final (Memory.step tinyImage 0x401000) s es (by decide +kernel)
  refine ⟨by decide +kernel, by decide +kernel, ?_⟩
  exact suspended_untouched (by decide) (by decide +kernel) hrun₀ (m := 1) (by decide)
    (by decide +kernel) hrun ⟨by decide, by decide⟩

end LinuxBasedOs
