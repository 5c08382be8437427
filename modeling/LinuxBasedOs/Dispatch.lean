/-
LinuxBasedOs/Dispatch.lean

The INT 0x80 entry (exceptions.S): `SYS_CALL_HANDLER`, its jump table, one stub per
system call, and the common way out `DONE`.

`declared` is what the entry is for: a number of the interface runs its routine with
EBX, ECX and EDX as arguments and returns the result in EAX, any other number returns
-1, and nothing else changes.  The entry does that, except that the stub of
set_handler calls `sys_getargs_c`.

From `sys_halt` and `sys_execute` on, the path of exceptions.S is another one.
-/
import LinuxBasedOs.Cdecl
import LinuxBasedOs.UserPointers

namespace LinuxBasedOs

open Bytes Transition Cdecl

/-! ### The C routines -/

/-- What the routines see and change: the kernel, the stores made through the user's
pointers so far, and `ret_val` of exceptions.S. -/
structure World where
  kernel : Kernel
  stores : List (Nat × UInt8)
  retVal : BitVec 32

/-- What a call meets: the file system, the memory that the user's pointers lead to,
what happens while a read waits, the memory behind the PCB, and what a C routine
leaves in the registers. -/
structure Surroundings where
  img : Image
  mem : Mem
  readEnv : ReadEnv
  beyond : Mem
  unknowns : Unknowns

/-- The bytes from address `p` on. -/
def Surroundings.memAt (w : Surroundings) (p : BitVec 32) : Mem :=
  fun i => w.mem ((p.toNat + i) % 2 ^ 32)

/-- A string argument; `none` is NULL. -/
def Surroundings.stringAt (w : Surroundings) (p : BitVec 32) : Option CString :=
  if p = 0 then none
  else some ⟨string (w.memAt p) (2 ^ 32), fun _ hb => ne_zero_of_mem_stringFrom hb⟩

/-- `sys_set_handler_c` is not implemented. -/
def sysSetHandlerC (_signum : Int) (_handlerAddress : Nat) : Effect := .refused

/-- `sys_sigreturn_c` is not implemented. -/
def sysSigreturnC : Effect := .refused

/-- A call that has made its stores and returned. -/
def Effect.returned (e : Effect) (s : World) : Option (BitVec 32 × World) :=
  e.ret.bind fun v => (s.kernel.storeAll e.stores).map fun k =>
    (BitVec.ofInt 32 v, { s with kernel := k, stores := s.stores ++ e.stores })

/-- The routines that the stubs call. -/
inductive Routine where
  | sysReadC | sysWriteC | sysOpenC | sysCloseC | sysGetargsC | sysVidmapC
  | sysSetHandlerC | sysSigreturnC
  deriving DecidableEq

/-- A routine as it is called, with its arguments on the stack. -/
def Routine.callee (w : Surroundings) : Routine → Callee World
  | .sysReadC =>
      { arity := 3
        run := fun a s =>
          (LinuxBasedOs.sysReadC w.img (a 0).toInt (a 1).toNat (a 2).toInt w.readEnv s.kernel).map
            fun r => (BitVec.ofInt 32 r.1.1, { s with kernel := r.2, stores := s.stores ++ r.1.2 }) }
  | .sysWriteC =>
      { arity := 3
        run := fun a s =>
          (LinuxBasedOs.sysWriteC (a 0).toInt (a 1).toNat (w.memAt (a 1)) (a 2).toInt s.kernel).map
            fun r => (BitVec.ofInt 32 r.1, { s with kernel := r.2 }) }
  | .sysOpenC =>
      { arity := 1
        run := fun a s =>
          (LinuxBasedOs.sysOpenC w.img (w.stringAt (a 0)) s.kernel).map
            fun r => (BitVec.ofInt 32 r.1, { s with kernel := r.2 }) }
  | .sysCloseC =>
      { arity := 1
        run := fun a s =>
          (LinuxBasedOs.sysCloseC (a 0).toInt s.kernel).map
            fun r => (BitVec.ofInt 32 r.1, { s with kernel := r.2 }) }
  -- the other four return without a driver
  | .sysGetargsC =>
      { arity := 2
        run := fun a s =>
          (LinuxBasedOs.sysGetargsC (a 0).toNat (a 1).toInt w.beyond s.kernel).returned s }
  | .sysVidmapC =>
      { arity := 1
        run := fun a s => (LinuxBasedOs.sysVidmapC (a 0).toNat s.kernel).returned s }
  | .sysSetHandlerC =>
      { arity := 2
        run := fun a s => (LinuxBasedOs.sysSetHandlerC (a 0).toInt (a 1).toNat).returned s }
  | .sysSigreturnC =>
      { arity := 0
        run := fun _ s => LinuxBasedOs.sysSigreturnC.returned s }

/-! ### The code -/

/-- Where the entry leads: back to the user, or to the path on which processes start
and end. -/
inductive Exit where
  | iret (s : Cpu World)
  | sysHalt (s : Cpu World)
  | sysExecute (s : Cpu World)

/-- `DONE`. -/
def done (s : Cpu World) : Option Exit :=
  let s' := { s with world := { s.world with retVal := s.regs.eax } }
  (s'.popf.bind Cpu.popa).map fun t => .iret (t.setEax t.world.retVal)

/-- `INVALID_COMMAND`. -/
def invalidCommand (s : Cpu World) : Option Exit := done (s.setEax (-1))

/-- The labels in the jump table. -/
inductive Stub where
  | sysHalt | sysExecute | sysRead | sysWrite | sysOpen | sysClose | sysGetargs | sysVidmap
  | sysSetHandler | sysSigreturn
  deriving DecidableEq

/-- `jump_table`, from number 1 on. -/
def jumpTable : List Stub :=
  [.sysHalt, .sysExecute, .sysRead, .sysWrite, .sysOpen, .sysClose, .sysGetargs, .sysVidmap,
    .sysSetHandler, .sysSigreturn]

variable (w : Surroundings)

/-- The stubs push their arguments, the last one first. -/
def Stub.code : Stub → Cpu World → Option Exit
  | .sysHalt, s => some (.sysHalt s)
  | .sysExecute, s => some (.sysExecute s)
  | .sysRead, s => (stub w.unknowns [.edx, .ecx, .ebx] (Routine.sysReadC.callee w) 12 s).bind done
  | .sysWrite, s => (stub w.unknowns [.edx, .ecx, .ebx] (Routine.sysWriteC.callee w) 12 s).bind done
  | .sysOpen, s => (stub w.unknowns [.ebx] (Routine.sysOpenC.callee w) 4 s).bind done
  | .sysClose, s => (stub w.unknowns [.ebx] (Routine.sysCloseC.callee w) 4 s).bind done
  | .sysGetargs, s => (stub w.unknowns [.ecx, .ebx] (Routine.sysGetargsC.callee w) 8 s).bind done
  | .sysVidmap, s => (stub w.unknowns [.ebx] (Routine.sysVidmapC.callee w) 4 s).bind done
  | .sysSetHandler, s => (stub w.unknowns [.ecx, .ebx] (Routine.sysGetargsC.callee w) 8 s).bind done
  -- nothing is pushed, and nothing taken off
  | .sysSigreturn, s => (stub w.unknowns [] (Routine.sysSigreturnC.callee w) 0 s).bind done

/-- `SYS_CALL_HANDLER`.  The comparisons are signed.  What they and the subtraction do
to the flags is undone by `popf`. -/
def sysCallHandler (s : Cpu World) : Option Exit :=
  let s := s.pusha.pushf
  if 10 < s.regs.eax.toInt then invalidCommand s
  else if s.regs.eax.toInt < 1 then invalidCommand s
  else
    let s := s.setEax (s.regs.eax - 1)
    jumpTable[s.regs.eax.toNat]?.bind fun entry => entry.code w s

/-! ### What it is for -/

/-- The system call interface, from number 3 on. -/
def interface : Nat → Option Routine
  | 3 => some .sysReadC
  | 4 => some .sysWriteC
  | 5 => some .sysOpenC
  | 6 => some .sysCloseC
  | 7 => some .sysGetargsC
  | 8 => some .sysVidmapC
  | 9 => some .sysSetHandlerC
  | 10 => some .sysSigreturnC
  | _ => none

/-- The state in which a call that returns `v` goes back to the user. -/
def returning (s : Cpu World) (v : BitVec 32) (t : World) : Exit :=
  .iret { s with regs := { s.regs with eax := v }, world := { t with retVal := v } }

/-- A routine is called with EBX, ECX and EDX as its arguments, its result is returned
in EAX, and all other registers are as before. -/
def Routine.calledWith (f : Routine) (s : Cpu World) : Option Exit :=
  ((f.callee w).run (fun i => [s.regs.ebx, s.regs.ecx, s.regs.edx].getD i 0) s.world).map
    fun r => returning s r.1 r.2

/-- What INT 0x80 should do, for other numbers than 1 and 2. -/
def declared (s : Cpu World) : Option Exit :=
  match interface s.regs.eax.toNat with
  | some f => f.calledWith w s
  | none => some (returning s (-1) s.world)

/-! ### The stubs -/

/-- `DONE` restores all registers but EAX, if the stack is back to what it was. -/
theorem done_saved (s : Cpu World) (regs : Regs) (eflags : BitVec 32) (t : World) :
    done { s.pusha.pushf with regs := regs, eflags := eflags, world := t } =
      some (returning s regs.eax t) := by
  rw [done, popa_popf]
  rfl

/-- **A stub that pushes the arguments of its routine** calls it as the interface
says. -/
theorem stub_done {f : Routine} {pushed : List Reg} (harity : (f.callee w).arity ≤ pushed.length)
    (horder : pushed.reverse <+: [.ebx, .ecx, .edx]) (s : Cpu World) (v : BitVec 32) :
    (stub w.unknowns pushed (f.callee w) (4 * pushed.length) (s.pusha.pushf.setEax v)).bind done =
      f.calledWith w s := by
  -- PUSHA and PUSHF change no register, and EAX is not an argument
  have hregs : pushed.map (s.pusha.pushf.setEax v).regs.get = pushed.map s.regs.get := by
    refine List.map_congr_left fun r hr => ?_
    have hmem : r ∈ [Reg.ebx, .ecx, .edx] := horder.subset (List.mem_reverse.mpr hr)
    simp only [List.mem_cons, List.not_mem_nil, or_false] at hmem
    rcases hmem with rfl | rfl | rfl <;> rfl
  have hargs : (fun i : Fin (f.callee w).arity =>
      (pushed.map (s.pusha.pushf.setEax v).regs.get).reverse.getD i 0) =
      fun i : Fin (f.callee w).arity => [s.regs.ebx, s.regs.ecx, s.regs.edx].getD i 0 := by
    -- the arguments are the first of EBX, ECX and EDX
    obtain ⟨rest, hrest⟩ := horder
    have hlist : [s.regs.ebx, s.regs.ecx, s.regs.edx] =
        (pushed.map s.regs.get).reverse ++ rest.map s.regs.get := by
      rw [← List.map_reverse, ← List.map_append, hrest]
      rfl
    funext i
    rw [hregs, hlist, List.getD_append]
    rw [List.length_reverse, List.length_map]
    omega
  rw [stub_eq w.unknowns harity, hargs, Routine.calledWith, Option.bind_map]
  show Option.bind ((f.callee w).run _ s.world) _ = _
  rw [Option.map_eq_bind]
  refine congrArg (Option.bind _) (funext fun r => ?_)
  exact done_saved s _ _ r.2

theorem invalidCommand_saved (s : Cpu World) :
    invalidCommand s.pusha.pushf = some (returning s (-1) s.world) :=
  done_saved s { s.regs with eax := -1 } s.eflags s.world

/-! ### The entry -/

/-- A number of the jump table leads to its stub. -/
theorem sysCallHandler_entry {s : Cpu World} {n : Nat} (hn : n < 10)
    (h : s.regs.eax = BitVec.ofNat 32 (n + 1)) :
    sysCallHandler w s =
      jumpTable[n]?.bind fun entry => entry.code w (s.pusha.pushf.setEax (BitVec.ofNat 32 n)) := by
  have hrange : ∀ n < 10, ¬ 10 < (BitVec.ofNat 32 (n + 1)).toInt ∧
      ¬ (BitVec.ofNat 32 (n + 1)).toInt < 1 ∧
      BitVec.ofNat 32 (n + 1) - 1 = BitVec.ofNat 32 n ∧ (BitVec.ofNat 32 n).toNat = n := by decide
  obtain ⟨hhi, hlo, hsub, hindex⟩ := hrange n hn
  have heax : s.pusha.pushf.regs.eax = BitVec.ofNat 32 (n + 1) := h
  rw [sysCallHandler, heax, if_neg hhi, if_neg hlo, hsub]
  show jumpTable[(BitVec.ofNat 32 n).toNat]?.bind _ = _
  rw [hindex]

/-- Such a stub calls its routine as the interface says. -/
theorem sysCallHandler_stub {s : Cpu World} {n : Nat} (hn : n < 10)
    (h : s.regs.eax = BitVec.ofNat 32 (n + 1)) {entry : Stub} (htable : jumpTable[n]? = some entry)
    {f : Routine} (pushed : List Reg)
    (hcode : entry.code w = fun t =>
      (stub w.unknowns pushed (f.callee w) (4 * pushed.length) t).bind done)
    (harity : (f.callee w).arity ≤ pushed.length)
    (horder : pushed.reverse <+: [.ebx, .ecx, .edx]) :
    sysCallHandler w s = f.calledWith w s := by
  rw [sysCallHandler_entry w hn h, htable, Option.bind_some, hcode]
  exact stub_done w harity horder s _

/-- Any other number is refused, negative ones included. -/
theorem sysCallHandler_invalid {s : Cpu World} (h : s.regs.eax.toNat = 0 ∨ 10 < s.regs.eax.toNat) :
    sysCallHandler w s = some (returning s (-1) s.world) := by
  have hint := BitVec.toInt_eq_toNat_cond s.regs.eax
  have hlt := s.regs.eax.isLt
  have hrange : 10 < s.regs.eax.toInt ∨ s.regs.eax.toInt < 1 := by
    rw [hint]
    split_ifs
    · omega
    · omega
  rw [sysCallHandler]
  show (if 10 < s.regs.eax.toInt then invalidCommand s.pusha.pushf
    else if s.regs.eax.toInt < 1 then invalidCommand s.pusha.pushf else _) = _
  rcases hrange with hhi | hlo
  · rw [if_pos hhi, invalidCommand_saved]
  · rw [if_neg (by omega), if_pos hlo, invalidCommand_saved]

theorem interface_eq_none {n : Nat} (h : n < 3 ∨ 10 < n) : interface n = none := by
  unfold interface
  split
  all_goals first | omega | rfl

/-- The call of another routine than set_handler. -/
theorem sysCallHandler_declared {s : Cpu World} (h1 : s.regs.eax ≠ 1) (h2 : s.regs.eax ≠ 2)
    (h9 : s.regs.eax ≠ 9) : sysCallHandler w s = declared w s := by
  have hne : ∀ v : BitVec 32, s.regs.eax ≠ v → s.regs.eax.toNat ≠ v.toNat :=
    fun v hv heq => hv (BitVec.eq_of_toNat_eq heq)
  have h1' : s.regs.eax.toNat ≠ 1 := hne 1 h1
  have h2' : s.regs.eax.toNat ≠ 2 := hne 2 h2
  have h9' : s.regs.eax.toNat ≠ 9 := hne 9 h9
  by_cases hout : s.regs.eax.toNat = 0 ∨ 10 < s.regs.eax.toNat
  · rw [sysCallHandler_invalid w hout, declared, interface_eq_none (by omega)]
  have heax : s.regs.eax = BitVec.ofNat 32 s.regs.eax.toNat := by
    rw [BitVec.ofNat_toNat, BitVec.setWidth_eq]
  rw [declared]
  have hcases : s.regs.eax.toNat = 3 ∨ s.regs.eax.toNat = 4 ∨ s.regs.eax.toNat = 5 ∨
      s.regs.eax.toNat = 6 ∨ s.regs.eax.toNat = 7 ∨ s.regs.eax.toNat = 8 ∨
      s.regs.eax.toNat = 10 := by omega
  -- each number with its stub, and what that pushes
  rcases hcases with h | h | h | h | h | h | h
  all_goals rw [h] at heax ⊢
  · exact sysCallHandler_stub w (n := 2) (by decide) heax rfl (f := .sysReadC) [.edx, .ecx, .ebx] rfl le_rfl
      (by decide)
  · exact sysCallHandler_stub w (n := 3) (by decide) heax rfl (f := .sysWriteC) [.edx, .ecx, .ebx] rfl le_rfl
      (by decide)
  · exact sysCallHandler_stub w (n := 4) (by decide) heax rfl (f := .sysOpenC) [.ebx] rfl le_rfl
      (by decide)
  · exact sysCallHandler_stub w (n := 5) (by decide) heax rfl (f := .sysCloseC) [.ebx] rfl le_rfl
      (by decide)
  · exact sysCallHandler_stub w (n := 6) (by decide) heax rfl (f := .sysGetargsC) [.ecx, .ebx] rfl le_rfl
      (by decide)
  · exact sysCallHandler_stub w (n := 7) (by decide) heax rfl (f := .sysVidmapC) [.ebx] rfl le_rfl
      (by decide)
  · exact sysCallHandler_stub w (n := 9) (by decide) heax rfl (f := .sysSigreturnC) [] rfl le_rfl
      (by decide)

/-! ### set_handler -/

theorem Effect.refused_returned (s : World) : Effect.refused.returned s = some (-1, s) := by
  show some ((-1 : BitVec 32), { s with stores := s.stores ++ [] }) = some (-1, s)
  rw [List.append_nil]

/-- A call that returns 0 or -1 is not seen exactly if it is refused. -/
theorem Effect.returned_eq_iff {e : Effect} (hret : ∀ v, e.ret = some v → v = 0 ∨ v = -1)
    (s : Cpu World) :
    ((e.returned s.world).map fun r => returning s r.1 r.2) = some (returning s (-1) s.world) ↔
      e = .refused := by
  constructor
  · intro h
    obtain ⟨⟨v', t⟩, hcall, hexit⟩ := Option.map_eq_some_iff.mp h
    obtain ⟨v, hv, hstore⟩ := Option.bind_eq_some_iff.mp hcall
    obtain ⟨k, -, hk⟩ := Option.map_eq_some_iff.mp hstore
    obtain ⟨rfl, rfl⟩ := Prod.mk.inj hk
    have hcpu := Exit.iret.inj hexit
    have heax : BitVec.ofInt 32 v = -1 := congrArg (fun c : Cpu World => c.regs.eax) hcpu
    have hstores : s.world.stores ++ e.stores = s.world.stores :=
      congrArg (fun c : Cpu World => c.world.stores) hcpu
    -- of 0 and -1 only the second is -1 in EAX
    have hv1 : v = -1 := by
      rcases hret v hv with rfl | rfl
      · exact absurd heax (by decide)
      · rfl
    obtain ⟨ret, stores⟩ := e
    obtain rfl : stores = [] := List.append_cancel_left (by rw [hstores, List.append_nil])
    rw [hv1] at hv
    obtain rfl : ret = some (-1) := hv
    rfl
  · rintro rfl
    rw [Effect.refused_returned]
    rfl

theorem sysGetargsC_ret (buf : Nat) (nbytes : Int) (beyond : Mem) (k : Kernel) (v : Int)
    (h : (sysGetargsC buf nbytes beyond k).ret = some v) : v = 0 ∨ v = -1 := by
  unfold sysGetargsC at h
  split at h
  · cases h
  · obtain ⟨idx, -, hv⟩ := Option.map_eq_some_iff.mp h
    rw [← hv]
    split_ifs
    · exact .inr rfl
    · exact .inl rfl

/-- **The entry behaves as the interface declares** exactly if the call is not
set_handler, or its second argument is such that `sys_getargs_c`, which is called in
its place, fails without storing anything.  For all registers, every state of the
kernel, and whatever the C routines leave in the registers. -/
theorem sysCallHandler_declared_iff (w : Surroundings) {s : Cpu World} (h1 : s.regs.eax ≠ 1)
    (h2 : s.regs.eax ≠ 2) :
    sysCallHandler w s = declared w s ↔
      (s.regs.eax = 9 → ∃ space, FirstSpace s.world.kernel w.beyond space ∧
        (s.regs.ecx.toInt - ((space + 1 : Nat) : Int)) % 2 ^ 32 = 0) := by
  by_cases h9 : s.regs.eax = 9
  · rw [forall_prop_of_true h9, ← sysGetargsC_refused_iff s.regs.ebx.toNat,
      ← Effect.returned_eq_iff (sysGetargsC_ret _ _ _ _) s]
    have hcall : sysCallHandler w s = Routine.sysGetargsC.calledWith w s :=
      sysCallHandler_stub w (n := 8) (by decide) h9 rfl [.ecx, .ebx] rfl le_rfl (by decide)
    have hdecl : declared w s = some (returning s (-1) s.world) := by
      rw [declared, h9]
      show Option.map _ (Effect.refused.returned s.world) = _
      rw [Effect.refused_returned]
      rfl
    have hgetargs : Routine.sysGetargsC.calledWith w s =
        ((sysGetargsC s.regs.ebx.toNat s.regs.ecx.toInt w.beyond s.world.kernel).returned
          s.world).map fun r => returning s r.1 r.2 := by
      simp only [Routine.calledWith, Routine.callee, Fin.val_zero, Fin.val_one, List.getD_cons_zero,
        List.getD_cons_succ]
    rw [hcall, hdecl, hgetargs]
  · exact iff_of_true (sysCallHandler_declared w h1 h2 h9) fun h => absurd h h9

/-- Nothing happens around the call. -/
def tinySurroundings : Surroundings :=
  ⟨tinyImage, fun _ => 0, ⟨[], false⟩, fun _ => 0, ⟨0, 0, 0, fun _ => 0⟩⟩

/-- The program executes INT 0x80. -/
def int80 (eax ebx ecx edx : BitVec 32) : Cpu World :=
  ⟨⟨eax, ecx, edx, ebx, 0, 0, 0⟩, 0x202, 0x7FE000, [], ⟨argsKernel, [], 0⟩⟩

/-- EAX and the stores, as the user sees them. -/
def Exit.seen : Exit → Option (BitVec 32 × List (Nat × UInt8))
  | .iret s => some (s.regs.eax, s.world.stores)
  | .sysHalt _ | .sysExecute _ => none

/-- sigreturn fails, whatever is in the other registers. -/
theorem sysCallHandler_declared_sigreturn :
    sysCallHandler tinySurroundings (int80 10 0x8050000 4 0) =
        declared tinySurroundings (int80 10 0x8050000 4 0) ∧
      (declared tinySurroundings (int80 10 0x8050000 4 0)).bind Exit.seen = some (-1, []) := by
  refine ⟨(sysCallHandler_declared_iff tinySurroundings (by decide) (by decide)).mpr ?_, ?_⟩
  · exact fun h9 => absurd h9 (by decide)
  · decide +kernel

/-- set_handler(0x8050000, 4) does not fail, and stores the argument `b` at
0x8050000. -/
theorem set_handler_stores_args :
    (sysCallHandler tinySurroundings (int80 9 0x8050000 4 0)).bind Exit.seen =
        some (0, [(0x8050000, 0x62)]) ∧
      (declared tinySurroundings (int80 9 0x8050000 4 0)).bind Exit.seen = some (-1, []) := by
  decide +kernel

end LinuxBasedOs
