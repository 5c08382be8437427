/-
LinuxBasedOs/UserStubs.lean

The system call library of user programs (ece391syscall.S): `DO_CALL` and `_start`.

A stub is called by C code, with its arguments behind the return address.  It saves EBX,
loads the number and three arguments, executes INT 0x80, and returns.  INT 0x80 is a trap
gate: the processor goes to the kernel's stack, pushes five double words there, and the
IRET at the end of `DONE` takes them back.

* `doCall_answer` — a stub does what its call is for, as C code expects it of a routine:
  if the call returns, and the kernel does not store to the two double words of the stack that
  the stub still needs;
* `start_ends` — what the end of `main` leads to.

The stack, and what the pointers of a call lead to, are in the program page.  An access
elsewhere is as a rule a page fault, which ends the process; nothing is said about it here.
-/
import LinuxBasedOs.Dispatch
import LinuxBasedOs.Linkage
import LinuxBasedOs.Program

namespace LinuxBasedOs

open Bytes Transition Cdecl

/-! ### The processor in user mode -/

/-- The state of a program that runs, its memory and the kernel's included.  The place in a
stub is the rest of its code; `eip` is where C code goes on. -/
structure UserState where
  regs : Regs
  esp : BitVec 32
  eip : BitVec 32
  eflags : BitVec 32
  mem : Mem
  kernel : Kernel
  retVal : BitVec 32

/-- What goes on outside: what is in the file system, what happens around the call, and what
C routines leave in the registers. -/
structure Outside where
  img : Image
  around : Around
  unknowns : Unknowns

/-- The registers after a load. -/
def setReg (regs : Regs) : Reg → BitVec 32 → Regs
  | .eax, v => { regs with eax := v }
  | .ecx, v => { regs with ecx := v }
  | .edx, v => { regs with edx := v }
  | .ebx, v => { regs with ebx := v }
  | .ebp, v => { regs with ebp := v }
  | .esi, v => { regs with esi := v }
  | .edi, v => { regs with edi := v }

/-- The double word at an address; the bytes of one that wraps are at both ends of memory. -/
def longAt (m : Mem) (a : BitVec 32) : BitVec 32 := BitVec.ofNat 32 (word (memAt m a.toNat) 0)

/-- The bytes of a double word, in the order of their addresses. -/
def longBytes (v : BitVec 32) : List UInt8 := (List.range 4).map (byteOf v.toNat)

/-- Memory after a double word has been stored. -/
def setLong (m : Mem) (a v : BitVec 32) : Mem :=
  storeAll m (storesTo a.toNat (storesAt 0 (longBytes v)))

/-- The double word at an address is in the program page. -/
def Mapped (a : BitVec 32) : Prop := BufferInPage a.toNat 4

instance (a : BitVec 32) : Decidable (Mapped a) := inferInstanceAs (Decidable (BufferInPage _ _))

namespace UserState

/-- A push, if there is room on the stack. -/
def push (u : UserState) (v : BitVec 32) : UserState :=
  { u with esp := u.esp - 4, mem := setLong u.mem (u.esp - 4) v }

/-- USER_CS. -/
def userCs : BitVec 32 := 0x23

/-- USER_DS. -/
def userDs : BitVec 32 := 0x2B

/-- The kernel as INT 0x80 enters it: on the stack of the TSS, with the user's state on it;
a trap gate leaves IF alone and clears TF. -/
def trapped (u : UserState) (k : Kernel) : Cpu World where
  regs := u.regs
  eflags := u.eflags &&& 0xFFFFFEFF
  bottom := BitVec.ofNat 32 k.esp0
  stack := [u.eip, userCs, u.eflags, u.esp, userDs]
  world := ⟨k, [], u.retVal⟩

/-- IRET to user mode. -/
def iret (u : UserState) (s : Cpu World) : Option UserState :=
  match s.stack with
  | eip :: _ :: eflags :: esp :: _ =>
      some { regs := s.regs, esp := esp, eip := eip, eflags := eflags
             mem := storeAll u.mem s.world.stores
             kernel := s.world.kernel, retVal := s.world.retVal }
  | _ => none

/-- The handler, after the interrupts that come before. -/
def trap (o : Outside) (u : UserState) : Option Exit :=
  (run (step o.img) u.kernel (o.around.interrupts.map Interrupt.event)).bind fun r =>
    sysCallHandler ⟨o.img, u.mem, o.around.readEnv, o.around.beyond, o.unknowns⟩ (u.trapped r.2)

end UserState

/-! ### The stubs -/

/-- The instructions of the stubs. -/
inductive UserOp where
  | pushl (r : Reg)
  | pushlImm (v : BitVec 32)
  | movlImm (v : BitVec 32) (r : Reg)
  | movlStack (disp : BitVec 32) (r : Reg)   -- `movl disp(%esp), %r`
  | int80
  | popl (r : Reg)
  | ret

/-- What an instruction leads to: the next one, or the kernel's way of ending and starting
processes. -/
inductive UserStep where
  | next (u : UserState)
  | halt (s : Cpu World)
  | execute (s : Cpu World)

/-- One instruction.  `none` if it is not known where it leads: the stack is not in the
program page, or the kernel has no answer to the call. -/
def UserOp.exec (o : Outside) (u : UserState) : UserOp → Option UserStep
  | .pushl r => if Mapped (u.esp - 4) then some (.next (u.push (u.regs.get r))) else none
  | .pushlImm v => if Mapped (u.esp - 4) then some (.next (u.push v)) else none
  | .movlImm v r => some (.next { u with regs := setReg u.regs r v })
  | .movlStack disp r =>
      if Mapped (u.esp + disp) then
        some (.next { u with regs := setReg u.regs r (longAt u.mem (u.esp + disp)) })
      else none
  | .int80 =>
      (u.trap o).bind fun e =>
        match e with
        | .iret s => (u.iret s).map .next
        | .sysHalt s => some (.halt s)
        | .sysExecute s => some (.execute s)
  | .popl r =>
      if Mapped u.esp then
        some (.next { u with regs := setReg u.regs r (longAt u.mem u.esp), esp := u.esp + 4 })
      else none
  | .ret =>
      if Mapped u.esp then some (.next { u with eip := longAt u.mem u.esp, esp := u.esp + 4 })
      else none

/-- Code without jumps. -/
def runOps (o : Outside) : List UserOp → UserState → Option UserStep
  | [], u => some (.next u)
  | op :: ops, u =>
      (op.exec o u).bind fun s =>
        match s with
        | .next u' => runOps o ops u'
        | s => some s

/-- `DO_CALL`. -/
def doCall (number : BitVec 32) : List UserOp :=
  [.pushl .ebx, .movlImm number .eax, .movlStack 8 .ebx, .movlStack 12 .ecx, .movlStack 16 .edx,
    .int80, .popl .ebx, .ret]

/-- `_start` behind the call of `main`; `back` is the address behind its last call, where
nothing is. -/
def startHalt (back : BitVec 32) : List UserOp :=
  [.pushlImm 0, .pushlImm 0, .pushl .eax, .pushlImm back] ++ doCall 1

/-! ### What they are for -/

/-- The call that INT 0x80 makes with this number and these arguments; the one of set_handler
is another than its name says. -/
def stubCall (m : Mem) (a b c : BitVec 32) : (number : Nat) → Option Call
  | 3 => some (.read a.toInt b.toNat c.toInt)
  | 4 => some (.write a.toInt b.toNat (memAt m b.toNat) c.toInt)
  | 5 => some (.open a.toNat (stringAt m a.toNat))
  | 6 => some (.close a.toInt)
  | 7 => some (.getargs a.toNat b.toInt)
  | 8 => some (.vidmap a.toNat)
  | 9 => some (.getargs a.toNat b.toInt)
  | number =>
      if number = 0 ∨ 10 < number then some (.invalid (BitVec.ofNat 32 number)) else none

/-- The stores miss the saved EBX and the return address. -/
def MissStack (esp : BitVec 32) (ps : List (Nat × UInt8)) : Prop :=
  ∀ q ∈ ps, ∀ i < 8, q.1 ≠ ((esp - 4).toNat + i) % 2 ^ 32

/-! ### The stack -/

theorem word_congr {m m' : Mem} (h : ∀ i < 4, m i = m' i) : word m 0 = word m' 0 := by
  simp only [word, h 0 (by decide), h 1 (by decide), h 2 (by decide), h 3 (by decide), Nat.zero_add]

/-- The double word depends on its four bytes. -/
theorem longAt_congr {m m' : Mem} {a : BitVec 32}
    (h : ∀ i < 4, m ((a.toNat + i) % 2 ^ 32) = m' ((a.toNat + i) % 2 ^ 32)) :
    longAt m a = longAt m' a := by
  have hword : word (memAt m a.toNat) 0 = word (memAt m' a.toNat) 0 := word_congr h
  rw [longAt, hword, ← longAt]

theorem longAt_setLong (m : Mem) (a v : BitVec 32) : longAt (setLong m a v) a = v := by
  have hbyte : ∀ i < 4, memAt (setLong m a v) a.toNat i = setWord (fun _ => 0) 0 v.toNat i := by
    intro i hi
    have hlen : (longBytes v).length = 4 := by simp [longBytes]
    have hstore := storeAll_storesTo m a.toNat 0 (show (longBytes v).length ≤ 2 ^ 32 by omega)
      (show i < (longBytes v).length by omega)
    rw [Nat.zero_add] at hstore
    rw [memAt, setLong, hstore, setWord, if_pos (by omega)]
    simp [longBytes]
  rw [longAt, word_congr hbyte, word_setWord, Nat.mod_eq_of_lt v.isLt, BitVec.ofNat_toNat,
    BitVec.setWidth_eq]

/-- Another double word, at least four bytes further on around the address space. -/
theorem longAt_setLong_of_far (m : Mem) (a v : BitVec 32) {d : Nat} (hd : 4 ≤ d)
    (hd' : d + 4 ≤ 2 ^ 32) :
    longAt (setLong m a v) (a + BitVec.ofNat 32 d) = longAt m (a + BitVec.ofNat 32 d) := by
  refine longAt_congr fun i hi => ?_
  refine storeAll_of_not_mem fun q hq heq => ?_
  obtain ⟨p, hp, rfl⟩ := mem_storesTo.mp hq
  have hrange := le_of_mem_storesAt hp
  have hlen : (longBytes v).length = 4 := by simp [longBytes]
  rw [BitVec.toNat_add, BitVec.toNat_ofNat] at heq
  have ha := a.isLt
  dsimp only at heq
  omega

/-- A double word of a part of the stack that is in the page. -/
theorem mapped_add {a : BitVec 32} {n : Nat} (h : BufferInPage a.toNat n) {d : Nat}
    (hd : d + 4 ≤ n) : Mapped (a + BitVec.ofNat 32 d) := by
  rw [BufferInPage] at h
  refine .inr ?_
  rw [BitVec.toNat_add, BitVec.toNat_ofNat]
  omega

/-! ### The kernel's answer -/

variable {o : Outside} {u : UserState}

theorem returned_eq_seen (e : Effect) (k : Kernel) (retVal : BitVec 32) :
    e.returned ⟨k, [], retVal⟩ =
      (e.seen k).map fun r => (BitVec.ofInt 32 r.1.value, ⟨r.2, r.1.stores, retVal⟩) := by
  rw [Effect.returned, Effect.seen, Option.map_bind]
  refine congrArg (Option.bind _) (funext fun v => ?_)
  rw [Function.comp_apply, Option.map_map]
  rfl

theorem getargs_calledWith (w : Surroundings) (k : Kernel) :
    Routine.sysGetargsC.calledWith w (u.trapped k) =
      ((sysGetargsC u.regs.ebx.toNat u.regs.ecx.toInt w.beyond k).seen k).map fun r =>
        returning (u.trapped k) (BitVec.ofInt 32 r.1.value) ⟨r.2, r.1.stores, u.retVal⟩ := by
  have hcall : Routine.sysGetargsC.calledWith w (u.trapped k) =
      ((sysGetargsC u.regs.ebx.toNat u.regs.ecx.toInt w.beyond k).returned ⟨k, [], u.retVal⟩).map
        fun r => returning (u.trapped k) r.1 r.2 := by
    simp only [Routine.calledWith, Routine.callee, Fin.val_zero, Fin.val_one, List.getD_cons_zero,
      List.getD_cons_succ, UserState.trapped]
  rw [hcall, returned_eq_seen, Option.map_map]
  rfl

/-- **The handler answers the call** that the registers stand for. -/
theorem sysCallHandler_made {c : Call}
    (hc : stubCall u.mem u.regs.ebx u.regs.ecx u.regs.edx u.regs.eax.toNat = some c) (k : Kernel) :
    sysCallHandler ⟨o.img, u.mem, o.around.readEnv, o.around.beyond, o.unknowns⟩ (u.trapped k) =
      (c.made o.img o.around k).map fun r =>
        returning (u.trapped k) (BitVec.ofInt 32 r.1.value) ⟨r.2, r.1.stores, u.retVal⟩ := by
  set w : Surroundings := ⟨o.img, u.mem, o.around.readEnv, o.around.beyond, o.unknowns⟩ with hw
  generalize hnumber : u.regs.eax.toNat = number at hc
  have hnat : (u.trapped k).regs.eax.toNat = number := hnumber
  have heax : (u.trapped k).regs.eax = BitVec.ofNat 32 number := by
    rw [← hnat, BitVec.ofNat_toNat, BitVec.setWidth_eq]
  have hlt : number < 2 ^ 32 := by
    rw [← hnumber]
    exact u.regs.eax.isLt
  by_cases hinvalid : number = 0 ∨ 10 < number
  · -- no entry of the jump table
    have hcall : stubCall u.mem u.regs.ebx u.regs.ecx u.regs.edx number =
        some (.invalid (BitVec.ofNat 32 number)) := by
      unfold stubCall
      split
      all_goals first | omega | exact if_pos hinvalid
    rw [hcall] at hc
    rw [sysCallHandler_invalid w (by rw [hnat]; exact hinvalid), ← Option.some.inj hc, Call.made,
      if_pos (by rw [BitVec.toNat_ofNat, Nat.mod_eq_of_lt hlt]; exact hinvalid)]
    rfl
  have hrange : 3 ≤ number ∧ number ≤ 9 := by
    by_contra hout
    unfold stubCall at hc
    split at hc
    all_goals first | omega | (rw [if_neg hinvalid] at hc; cases hc)
  have hdeclared (f : Routine) (hf : interface number = some f) (h9 : number ≠ 9) :
      sysCallHandler w (u.trapped k) = f.calledWith w (u.trapped k) := by
    have hne (n : Nat) (hn : n < 2 ^ 32) (h : number ≠ n) :
        (u.trapped k).regs.eax ≠ BitVec.ofNat 32 n := by
      intro heq
      rw [heq, BitVec.toNat_ofNat, Nat.mod_eq_of_lt hn] at hnat
      exact h hnat.symm
    rw [sysCallHandler_declared w (hne 1 (by decide) (by omega)) (hne 2 (by decide) (by omega))
      (hne 9 (by decide) h9), declared, hnat, hf]
  obtain ⟨h3, h9⟩ := hrange
  interval_cases number
  · rw [hdeclared .sysReadC rfl (by decide), ← Option.some.inj hc]
    show Option.map _ (Option.map _ _) = Option.map _ (Option.map _ _)
    rw [Option.map_map, Option.map_map]
    rfl
  · rw [hdeclared .sysWriteC rfl (by decide), ← Option.some.inj hc]
    show Option.map _ (Option.map _ _) = Option.map _ (Option.map _ _)
    rw [Option.map_map, Option.map_map]
    rfl
  · -- NULL is the pointer 0
    have hnull : (if u.regs.ebx.toNat = 0 then none else some (stringAt u.mem u.regs.ebx.toNat)) =
        if u.regs.ebx = 0 then none else some (stringAt u.mem u.regs.ebx.toNat) :=
      if_congr ⟨fun h => BitVec.eq_of_toNat_eq h, fun h => congrArg BitVec.toNat h⟩ rfl rfl
    rw [hdeclared .sysOpenC rfl (by decide), ← Option.some.inj hc, Call.made, hnull]
    show Option.map _ (Option.map _ _) = Option.map _ (Option.map _ _)
    rw [Option.map_map, Option.map_map]
    rfl
  · rw [hdeclared .sysCloseC rfl (by decide), ← Option.some.inj hc]
    show Option.map _ (Option.map _ _) = Option.map _ (Option.map _ _)
    rw [Option.map_map, Option.map_map]
    rfl
  · rw [hdeclared .sysGetargsC rfl (by decide), ← Option.some.inj hc]
    exact getargs_calledWith w k
  · rw [hdeclared .sysVidmapC rfl (by decide), ← Option.some.inj hc]
    show Option.map _ (Effect.returned _ ⟨k, [], u.retVal⟩) = Option.map _ (Effect.seen _ k)
    rw [returned_eq_seen, Option.map_map]
    rfl
  · -- the stub of set_handler calls `sys_getargs_c`
    have hstub : sysCallHandler w (u.trapped k) = Routine.sysGetargsC.calledWith w (u.trapped k) :=
      sysCallHandler_stub w (n := 8) (by decide) heax rfl [.ecx, .ebx] rfl le_rfl (by decide)
    rw [hstub, ← Option.some.inj hc]
    exact getargs_calledWith w k

/-- The program behind INT 0x80. -/
def UserState.answered (u : UserState) (a : Seen) (t : Kernel) : UserState :=
  { u with
    regs := { u.regs with eax := BitVec.ofInt 32 a.value }
    mem := storeAll u.mem a.stores
    kernel := t
    retVal := BitVec.ofInt 32 a.value }

/-- **INT 0x80** is the call. -/
theorem int80_answer {c : Call}
    (hc : stubCall u.mem u.regs.ebx u.regs.ecx u.regs.edx u.regs.eax.toNat = some c)
    {a : Seen} {t : Kernel}
    (h : c.answer o.img o.around u.kernel = some (a, t)) :
    UserOp.int80.exec o u = some (.next (u.answered a t)) := by
  obtain ⟨r, hinterrupts, htaken⟩ := Option.bind_eq_some_iff.mp h
  have htrap : u.trap o =
      some (returning (u.trapped r.2) (BitVec.ofInt 32 a.value) ⟨t, a.stores, u.retVal⟩) := by
    rw [UserState.trap, hinterrupts, Option.bind_some, sysCallHandler_made hc,
      (Call.taken_eq_some.mp htaken).1]
    rfl
  show (u.trap o).bind _ = _
  rw [htrap]
  rfl

/-! ### A whole stub -/

/-- The stub before its INT 0x80. -/
def UserState.calling (u : UserState) (number : BitVec 32) : UserState :=
  { u.push u.regs.ebx with
    regs :=
      { u.regs with
        eax := number
        ebx := longAt u.mem (u.esp + 4)
        ecx := longAt u.mem (u.esp + 8)
        edx := longAt u.mem (u.esp + 12) } }

theorem runOps_next {op : UserOp} {u' : UserState} (h : op.exec o u = some (.next u'))
    (ops : List UserOp) : runOps o (op :: ops) u = runOps o ops u' := by
  rw [runOps, h]
  rfl

section Mapped

variable {r : Reg}

theorem exec_pushl (h : Mapped (u.esp - 4)) :
    (UserOp.pushl r).exec o u = some (.next (u.push (u.regs.get r))) := if_pos h

theorem exec_pushlImm (h : Mapped (u.esp - 4)) (v : BitVec 32) :
    (UserOp.pushlImm v).exec o u = some (.next (u.push v)) := if_pos h

theorem exec_movlStack {disp : BitVec 32} (h : Mapped (u.esp + disp)) :
    (UserOp.movlStack disp r).exec o u =
      some (.next { u with regs := setReg u.regs r (longAt u.mem (u.esp + disp)) }) := if_pos h

theorem exec_popl (h : Mapped u.esp) :
    (UserOp.popl r).exec o u =
      some (.next { u with regs := setReg u.regs r (longAt u.mem u.esp), esp := u.esp + 4 }) :=
  if_pos h

theorem exec_ret (h : Mapped u.esp) :
    UserOp.ret.exec o u = some (.next { u with eip := longAt u.mem u.esp, esp := u.esp + 4 }) :=
  if_pos h

end Mapped

/-- The arguments are where they were, but ESP is not. -/
theorem runOps_doCall (hpage : BufferInPage (u.esp - 4).toNat 20) (number : BitVec 32) :
    runOps o (doCall number) u = runOps o [.int80, .popl .ebx, .ret] (u.calling number) := by
  -- pushing EBX does not touch the arguments, and moves them 4 bytes away
  have harg (d : Nat) (hd : 0 < d) (hd' : d + 8 ≤ 2 ^ 32) :
      longAt u.mem (u.esp + BitVec.ofNat 32 d) =
        longAt (setLong u.mem (u.esp - 4) u.regs.ebx) (u.esp - 4 + BitVec.ofNat 32 (d + 4)) := by
    rw [longAt_setLong_of_far _ _ _ (by omega) (by omega), BitVec.ofNat_add]
    congr 1
    bv_omega
  have h4 := harg 4 (by decide) (by decide)
  have h8 := harg 8 (by decide) (by decide)
  have h12 := harg 12 (by decide) (by decide)
  have hpush : Mapped (u.esp - 4) := hpage.mono (by decide)
  have hebx : Mapped (u.esp - 4 + 8) := mapped_add (d := 8) hpage (by decide)
  have hecx : Mapped (u.esp - 4 + 12) := mapped_add (d := 12) hpage (by decide)
  have hedx : Mapped (u.esp - 4 + 16) := mapped_add (d := 16) hpage (by decide)
  refine (runOps_next (exec_pushl hpush) _).trans ?_
  refine (runOps_next rfl _).trans ?_
  refine (runOps_next (exec_movlStack ?_) _).trans ?_
  · exact hebx
  refine (runOps_next (exec_movlStack ?_) _).trans ?_
  · exact hecx
  refine (runOps_next (exec_movlStack ?_) _).trans ?_
  · exact hedx
  refine congrArg (runOps o _) ?_
  show _ = UserState.mk { u.regs with
    eax := number
    ebx := longAt u.mem (u.esp + BitVec.ofNat 32 4)
    ecx := longAt u.mem (u.esp + BitVec.ofNat 32 8)
    edx := longAt u.mem (u.esp + BitVec.ofNat 32 12) } _ _ _ _ _ _
  rw [h4, h8, h12]
  rfl

/-- What C code expects of a routine: it comes back to the address behind the call, with the
stack as before the call and EBX, EBP, ESI and EDI as they were; flags are as they were as
well. -/
structure ReturnsTo (u v : UserState) : Prop where
  eip : v.eip = longAt u.mem u.esp
  esp : v.esp = u.esp + 4
  ebx : v.regs.ebx = u.regs.ebx
  ebp : v.regs.ebp = u.regs.ebp
  esi : v.regs.esi = u.regs.esi
  edi : v.regs.edi = u.regs.edi
  eflags : v.eflags = u.eflags

theorem longAt_of_missStack {esp : BitVec 32} {ps : List (Nat × UInt8)} (h : MissStack esp ps)
    (m : Mem) {d : Nat} (hd : d + 4 ≤ 8) :
    longAt (storeAll m ps) (esp - 4 + BitVec.ofNat 32 d) = longAt m (esp - 4 + BitVec.ofNat 32 d) := by
  refine longAt_congr fun i hi => ?_
  refine storeAll_of_not_mem fun q hq heq => ?_
  refine h q hq (d + i) (by omega) ?_
  rw [heq, BitVec.toNat_add, BitVec.toNat_ofNat]
  omega

/-- **A stub makes its call**: for every number but 1, 2 and 10, all arguments and any state
of the kernel in which the call returns.  It returns the result in EAX, memory has what the
kernel has stored, and what the stub has pushed. -/
theorem doCall_answer (hpage : BufferInPage (u.esp - 4).toNat 20) (number : BitVec 32) {c : Call}
    (hc : stubCall (setLong u.mem (u.esp - 4) u.regs.ebx) (longAt u.mem (u.esp + 4))
      (longAt u.mem (u.esp + 8)) (longAt u.mem (u.esp + 12)) number.toNat = some c)
    {a : Seen} {t : Kernel} (h : c.answer o.img o.around u.kernel = some (a, t))
    (hstack : MissStack u.esp a.stores) :
    ∃ v, runOps o (doCall number) u = some (.next v) ∧ ReturnsTo u v ∧
      v.regs.eax = BitVec.ofInt 32 a.value ∧
      v.mem = storeAll (setLong u.mem (u.esp - 4) u.regs.ebx) a.stores ∧ v.kernel = t := by
  set m := setLong u.mem (u.esp - 4) u.regs.ebx with hm
  have hint : UserOp.int80.exec o (u.calling number) =
      some (.next ((u.calling number).answered a t)) := int80_answer hc h
  -- the saved EBX, and the return address behind it
  have hebx : longAt (storeAll m a.stores) (u.esp - 4) = u.regs.ebx := by
    have h0 := longAt_of_missStack hstack m (show 0 + 4 ≤ 8 by decide)
    rw [BitVec.add_zero, hm, longAt_setLong] at h0
    exact h0
  have hesp : u.esp - 4 + BitVec.ofNat 32 4 = u.esp := BitVec.sub_add_cancel _ _
  have hret : longAt (storeAll m a.stores) (u.esp - 4 + BitVec.ofNat 32 4) = longAt u.mem u.esp := by
    rw [longAt_of_missStack hstack m (by decide), hm,
      longAt_setLong_of_far _ _ _ (by decide) (by decide), hesp]
  have hpop : Mapped (u.esp - 4) := hpage.mono (by decide)
  have hreturn : Mapped (u.esp - 4 + 4) := mapped_add (d := 4) hpage (by decide)
  rw [runOps_doCall hpage, runOps_next hint, runOps_next (exec_popl hpop),
    runOps_next (exec_ret hreturn)]
  refine ⟨_, rfl, ⟨hret, ?_, hebx, rfl, rfl, rfl, rfl⟩, rfl, rfl, rfl⟩
  show u.esp - 4 + BitVec.ofNat 32 4 + 4 = u.esp + 4
  rw [hesp]

/-- C code has called `ece391_getargs (0x8050000, 10)`. -/
def getargsState : UserState where
  regs := ⟨0, 0, 0, 0x11, 0x22, 0x33, 0x44⟩
  esp := 0x83FFF00
  eip := 0
  eflags := 0x202
  mem := setWord (setWord (setWord (fun _ => 0) 0x83FFF00 0x8048123) 0x83FFF04 0x8050000) 0x83FFF08 10
  kernel := argsKernel
  retVal := 0

/-- A key is pressed before the call. -/
def getargsOutside : Outside :=
  ⟨tinyImage, ⟨[.key 0x1E], ⟨[], false⟩, fun _ => 0⟩, ⟨1, 2, 3, fun _ => 4⟩⟩

/-- The argument of `a b` is in the buffer, and C code goes on at 0x8048123. -/
theorem doCall_answer_getargs :
    ∃ v, runOps getargsOutside (doCall 7) getargsState = some (.next v) ∧
      v.eip = 0x8048123 ∧ v.regs.eax = 0 ∧ v.regs.ebx = 0x11 ∧
      v.mem 0x8050000 = 0x62 ∧ v.mem 0x8050001 = 0 := by
  have hbuf : longAt getargsState.mem (getargsState.esp + 4) = 0x8050000 := by decide +kernel
  have hn : longAt getargsState.mem (getargsState.esp + 8) = 10 := by decide +kernel
  have hback : longAt getargsState.mem getargsState.esp = 0x8048123 := by decide +kernel
  have hseen : ((Call.getargs 0x8050000 10).answer tinyImage getargsOutside.around argsKernel).map
      Prod.fst = some ⟨.ret 0, [(0x8050000, 0x62), (0x8050001, 0)]⟩ := by decide +kernel
  obtain ⟨⟨a, t⟩, hanswer, rfl⟩ := Option.map_eq_some_iff.mp hseen
  obtain ⟨v, hrun, hreturns, heax, hmem, -⟩ :=
    doCall_answer (o := getargsOutside) (u := getargsState) (by decide) 7
      (by rw [hbuf, hn]; rfl) hanswer (by unfold MissStack; decide +kernel)
  refine ⟨v, hrun, hreturns.eip.trans hback, heax, hreturns.ebx, ?_, ?_⟩
  · rw [hmem]
    rfl
  · rw [hmem]
    rfl

/-! ### The end of main -/

/-- `main`'s value and two arguments that are not used are pushed, and the stub is called. -/
theorem runOps_startHalt (hpage : BufferInPage (u.esp - 20).toNat 20) (back : BitVec 32) :
    runOps o (startHalt back) u = runOps o [.int80, .popl .ebx, .ret]
      (((((u.push 0).push 0).push u.regs.eax).push back).calling 1) := by
  have hmapped {a : BitVec 32} (d : Nat) (ha : a = u.esp - 20 + BitVec.ofNat 32 d)
      (hd : d + 4 ≤ 20) : Mapped a := ha ▸ mapped_add hpage hd
  set u₁ := u.push 0
  set u₂ := u₁.push 0
  set u₃ := u₂.push u.regs.eax
  -- the five pushes go down to `esp - 20`
  have h₁ : Mapped (u.esp - 4) := hmapped 16 (by bv_omega) (by decide)
  have h₂ : Mapped (u₁.esp - 4) :=
    hmapped 12 (show u.esp - 4 - 4 = _ by bv_omega) (by decide)
  have h₃ : Mapped (u₂.esp - 4) :=
    hmapped 8 (show u.esp - 4 - 4 - 4 = _ by bv_omega) (by decide)
  have h₄ : Mapped (u₃.esp - 4) :=
    hmapped 4 (show u.esp - 4 - 4 - 4 - 4 = _ by bv_omega) (by decide)
  have hesp : (u₃.push back).esp - 4 = u.esp - 20 := by
    show u.esp - 4 - 4 - 4 - 4 - 4 = _
    bv_omega
  calc runOps o (startHalt back) u
      = runOps o (.pushlImm 0 :: .pushl .eax :: .pushlImm back :: doCall 1) u₁ :=
        runOps_next (exec_pushlImm h₁ 0) _
    _ = runOps o (.pushl .eax :: .pushlImm back :: doCall 1) u₂ := runOps_next (exec_pushlImm h₂ 0) _
    _ = runOps o (.pushlImm back :: doCall 1) u₃ := runOps_next (exec_pushl h₃) _
    _ = runOps o (doCall 1) (u₃.push back) := runOps_next (exec_pushlImm h₄ back) _
    _ = _ := runOps_doCall (by rw [hesp]; exact hpage) 1

theorem startHalt_halts (hpage : BufferInPage (u.esp - 20).toNat 20) (back : BitVec 32) :
    ∃ s, runOps o (startHalt back) u = some (.halt s) ∧ s.regs.ebx = u.regs.eax ∧
      u.kernel.Aside s.world.kernel := by
  obtain ⟨os, t, hrun, ht⟩ := run_interrupts o.img u.kernel o.around.interrupts
  set u₁ := ((u.push 0).push 0).push u.regs.eax with hu₁
  -- the first argument is what was pushed last but for the return address
  have harg : longAt (u₁.push back).mem ((u₁.push back).esp + 4) = u.regs.eax := by
    show longAt (setLong u₁.mem (u₁.esp - 4) back) (u₁.esp - 4 + BitVec.ofNat 32 4) = _
    rw [longAt_setLong_of_far _ _ _ (by decide) (by decide)]
    show longAt (setLong ((u.push 0).push 0).mem u₁.esp u.regs.eax) (u₁.esp - 4 + 4) = _
    rw [BitVec.sub_add_cancel, longAt_setLong]
  have hint : UserOp.int80.exec o ((u₁.push back).calling 1) =
      some (.halt ((((u₁.push back).calling 1).trapped t).pusha.pushf.setEax 0)) := by
    have htrap : ((u₁.push back).calling 1).trap o =
        some (.sysHalt ((((u₁.push back).calling 1).trapped t).pusha.pushf.setEax 0)) := by
      rw [UserState.trap]
      show Option.bind (run (step o.img) u.kernel _) _ = _
      rw [hrun, Option.bind_some, sysCallHandler_entry _ (n := 0) (by decide) rfl]
      rfl
    show (((u₁.push back).calling 1).trap o).bind _ = _
    rw [htrap]
    rfl
  refine ⟨(((u₁.push back).calling 1).trapped t).pusha.pushf.setEax 0, ?_, harg, ht⟩
  rw [runOps_startHalt hpage, runOps, hint]
  rfl

end LinuxBasedOs
