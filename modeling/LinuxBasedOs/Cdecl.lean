/-
LinuxBasedOs/Cdecl.lean

Assembly that calls C on the IA-32: registers, a stack of double words, and calls
under the C convention.

A called routine finds its arguments on top of the stack, returns its value in EAX,
and gives back EBX, ESI, EDI, EBP and the stack pointer.  It may leave anything in
ECX, EDX, the flags and its arguments' places; `Unknowns` are what it leaves there.

Two facts carry the proofs about such code.  A stub that takes off as much as it has
pushed amounts to the call (`stub_eq`), and whatever happens between `pusha; pushf`
and `popf; popa` is undone if the stack is the same again (`popa_popf`).
-/
import Mathlib.Data.List.GetD

namespace Cdecl

/-! ### The machine -/

/-- The general registers, other than ESP. -/
structure Regs where
  eax : BitVec 32
  ecx : BitVec 32
  edx : BitVec 32
  ebx : BitVec 32
  ebp : BitVec 32
  esi : BitVec 32
  edi : BitVec 32
  deriving DecidableEq

/-- Their names. -/
inductive Reg where
  | eax | ecx | edx | ebx | ebp | esi | edi
  deriving DecidableEq

/-- The contents of a register. -/
def Regs.get (r : Regs) : Reg → BitVec 32
  | .eax => r.eax
  | .ecx => r.ecx
  | .edx => r.edx
  | .ebx => r.ebx
  | .ebp => r.ebp
  | .esi => r.esi
  | .edi => r.edi

/-- `σ` is what C code can see and change besides registers and its arguments.  The
stack is listed from the top, above the address `bottom`. -/
structure Cpu (σ : Type*) where
  regs : Regs
  eflags : BitVec 32
  bottom : BitVec 32
  stack : List (BitVec 32)
  world : σ

/-- What a called routine leaves in the places it need not give back. -/
structure Unknowns where
  ecx : BitVec 32
  edx : BitVec 32
  eflags : BitVec 32
  arg : Nat → BitVec 32

/-- A C routine: what it returns, and what it does to the rest of the world.  `none`
if it does not return. -/
structure Callee (σ : Type*) where
  arity : Nat
  run : (Fin arity → BitVec 32) → σ → Option (BitVec 32 × σ)

variable {σ : Type*}

/-! ### Instructions -/

namespace Cpu

/-- Where the stack pointer is: the stack grows down from `bottom`. -/
def esp (s : Cpu σ) : BitVec 32 := s.bottom - 4 * BitVec.ofNat 32 s.stack.length

/-- The result of a routine is in EAX. -/
def setEax (v : BitVec 32) (s : Cpu σ) : Cpu σ := { s with regs := { s.regs with eax := v } }

/-- `pushl %r`. -/
def pushl (s : Cpu σ) (r : Reg) : Cpu σ := { s with stack := s.regs.get r :: s.stack }

/-- `addl $n, %esp`. -/
def addlEsp (n : Nat) (s : Cpu σ) : Cpu σ := { s with stack := s.stack.drop (n / 4) }

/-- `pusha` stores ESP as it is before the instruction. -/
def pusha (s : Cpu σ) : Cpu σ :=
  { s with stack := s.regs.edi :: s.regs.esi :: s.regs.ebp :: s.esp :: s.regs.ebx :: s.regs.edx ::
      s.regs.ecx :: s.regs.eax :: s.stack }

/-- `pushf`. -/
def pushf (s : Cpu σ) : Cpu σ := { s with stack := s.eflags :: s.stack }

/-- `popf`; `none` if nothing is left on the stack. -/
def popf (s : Cpu σ) : Option (Cpu σ) :=
  match s.stack with
  | eflags :: stack => some { s with eflags := eflags, stack := stack }
  | [] => none

/-- The place of ESP is skipped. -/
def popa (s : Cpu σ) : Option (Cpu σ) :=
  match s.stack with
  | edi :: esi :: ebp :: _ :: ebx :: edx :: ecx :: eax :: stack =>
      some { s with regs := ⟨eax, ecx, edx, ebx, ebp, esi, edi⟩, stack := stack }
  | _ => none

/-- A call of a C routine, with its arguments on the stack: EAX is its result, and what the
calling convention lets it change is unknown. -/
def call (u : Unknowns) (f : Callee σ) (s : Cpu σ) : Option (Cpu σ) :=
  (f.run (fun i => s.stack.getD i 0) s.world).map fun r =>
    { s with
      regs := { s.regs with eax := r.1, ecx := u.ecx, edx := u.edx }
      eflags := u.eflags
      stack := (List.range f.arity).map u.arg ++ s.stack.drop f.arity
      world := r.2 }

end Cpu

/-- Push registers, call, take `popped` bytes off. -/
def stub (u : Unknowns) (pushed : List Reg) (f : Callee σ) (popped : Nat) (s : Cpu σ) :
    Option (Cpu σ) :=
  ((pushed.foldl Cpu.pushl s).call u f).map (Cpu.addlEsp popped)

/-! ### Stubs -/

theorem foldl_pushl (pushed : List Reg) (s : Cpu σ) :
    pushed.foldl Cpu.pushl s = { s with stack := (pushed.map s.regs.get).reverse ++ s.stack } := by
  induction pushed generalizing s with
  | nil => rfl
  | cons r pushed ih =>
      rw [List.foldl_cons, ih, List.map_cons, List.reverse_cons, List.append_assoc]
      rfl

/-- **A balanced stub** calls with the registers in the reverse order as arguments, and
leaves the stack as it was. -/
theorem stub_eq (u : Unknowns) {pushed : List Reg} {f : Callee σ} (h : f.arity ≤ pushed.length)
    (s : Cpu σ) :
    stub u pushed f (4 * pushed.length) s =
      (f.run (fun i => (pushed.map s.regs.get).reverse.getD i 0) s.world).map fun r =>
        { s with
          regs := { s.regs with eax := r.1, ecx := u.ecx, edx := u.edx }
          eflags := u.eflags
          world := r.2 } := by
  have hlen : (pushed.map s.regs.get).reverse.length = pushed.length := by simp
  have hargs : (fun i : Fin f.arity => ((pushed.map s.regs.get).reverse ++ s.stack).getD i 0) =
      fun i : Fin f.arity => (pushed.map s.regs.get).reverse.getD i 0 := by
    funext i
    exact List.getD_append _ _ _ _ (by omega)
  rw [stub, foldl_pushl, Cpu.call, hargs, Option.map_map]
  refine congrArg (fun g => Option.map g _) (funext fun r => ?_)
  -- all that was pushed is dropped, arguments or not
  have hargs' : ((pushed.map s.regs.get).reverse ++ s.stack).drop f.arity =
      (pushed.map s.regs.get).reverse.drop f.arity ++ s.stack :=
    List.drop_append_of_le_length (by omega)
  have hdrop : ((List.range f.arity).map u.arg ++
      ((pushed.map s.regs.get).reverse ++ s.stack).drop f.arity).drop (4 * pushed.length / 4) =
      s.stack := by
    rw [hargs', ← List.append_assoc, Nat.mul_div_cancel_left _ (by decide)]
    refine List.drop_left' ?_
    rw [List.length_append, List.length_drop, List.length_map, List.length_range, hlen]
    omega
  show Cpu.mk _ _ _ _ _ = Cpu.mk _ _ _ _ _
  rw [hdrop]

/-! ### Saving the registers -/

/-- Whatever happens to the registers and the flags in between, they are restored. -/
theorem popa_popf (s : Cpu σ) (regs : Regs) (eflags : BitVec 32) (world : σ) :
    ({ s.pusha.pushf with regs := regs, eflags := eflags, world := world } : Cpu σ).popf.bind
      Cpu.popa = some { s with world := world } := by
  rfl

end Cdecl
