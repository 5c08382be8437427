/-
LinuxBasedOs/Ia32.lean

Assembly that fills and copies memory on the IA-32: the registers, the flags that such
code reads, the memory, and code with labels and jumps.

Segments are flat, so an address is an offset whatever the segment.  Addresses are 32
bits wide and wrap.  The string instructions go up or down in memory by the direction
flag, one element at a time; `rep` repeats one ECX times.

Code is a list of instructions, and where control is, is the rest of the list.  A run
is given fuel; `Steps` says that a number of instructions leads from one place to
another, whatever the fuel left then.  The rules for it are `steps_next` for one
instruction, `steps_ops` for a block without jumps and `steps_loop` for a loop, with an
invariant that counts the rounds left.

For the string instructions, `rep_stos`, `rep_movs_up` and `rep_movs_down` say what the
repetition does as one `cover` of the memory.  A copy upwards is right when the
destination is not above the source, a copy downwards when it is not below, and both are
when the two do not overlap.
-/
import LinuxBasedOs.Bytes
import LinuxBasedOs.Cdecl
import LinuxBasedOs.Run

namespace Ia32

open Bytes Transition Cdecl

/-! ### The machine -/

/-- The carry, zero and direction flags are the only ones looked at. -/
structure State where
  regs : Regs
  ds : BitVec 16
  es : BitVec 16
  zf : Bool
  cf : Bool
  df : Bool
  mem : Mem

/-- The state after a register has been loaded. -/
def State.set (s : State) (r : Reg) (v : BitVec 32) : State :=
  match r with
  | .eax => { s with regs := { s.regs with eax := v } }
  | .ecx => { s with regs := { s.regs with ecx := v } }
  | .edx => { s with regs := { s.regs with edx := v } }
  | .ebx => { s with regs := { s.regs with ebx := v } }
  | .ebp => { s with regs := { s.regs with ebp := v } }
  | .esi => { s with regs := { s.regs with esi := v } }
  | .edi => { s with regs := { s.regs with edi := v } }

/-- The bytes from the address `a` on. -/
def peek (m : Mem) (a : BitVec 32) : Mem := fun i => m (a + BitVec.ofNat 32 i).toNat

/-- Store the first `n` bytes of `v` from the address `a` on. -/
def poke (m : Mem) (a : BitVec 32) (n : Nat) (v : Mem) : Mem :=
  forLoop (fun i m => Function.update m (a + BitVec.ofNat 32 i).toNat (v i)) n m

/-! ### String instructions -/

/-- The operand size of an instruction: the suffix b, w or l. -/
inductive Width where
  | byte | word | long
  deriving DecidableEq

/-- How many bytes an element has. -/
def Width.bytes : Width → Nat
  | .byte => 1
  | .word => 2
  | .long => 4

/-- The string instructions. -/
inductive StringOp where
  | stos (w : Width)
  | movs (w : Width)
  deriving DecidableEq

/-- The next element up or down. -/
def State.along (s : State) (w : Width) (a : BitVec 32) : BitVec 32 :=
  if s.df then a - BitVec.ofNat 32 w.bytes else a + BitVec.ofNat 32 w.bytes

/-- An element is loaded as a whole before it is stored. -/
def StringOp.exec : StringOp → State → State
  | .stos w, s =>
      { s with
        mem := poke s.mem s.regs.edi w.bytes (byteOf s.regs.eax.toNat)
        regs := { s.regs with edi := s.along w s.regs.edi } }
  | .movs w, s =>
      { s with
        mem := poke s.mem s.regs.edi w.bytes (peek s.mem s.regs.esi)
        regs := { s.regs with esi := s.along w s.regs.esi, edi := s.along w s.regs.edi } }

/-- One round of `rep`. -/
def round (o : StringOp) (s : State) : State :=
  (o.exec s).set .ecx (s.regs.ecx - 1)

/-- `rep` repeats ECX times. -/
def rep (o : StringOp) (s : State) : State := (round o)^[s.regs.ecx.toNat] s

/-! ### Instructions -/

/-- A source operand. -/
inductive Operand where
  | reg (r : Reg)
  | imm (v : BitVec 32)

/-- Its value. -/
def Operand.value (s : State) : Operand → BitVec 32
  | .reg r => s.regs.get r
  | .imm v => v

/-- Instructions that do not jump.  Operands are in the order of the assembler, the one
that is changed last. -/
inductive Op where
  | testl (a : Operand) (r : Reg)
  | cmpl (a r : Reg)
  | movl (a r : Reg)
  | addl (v : BitVec 32) (r : Reg)
  | subl (v : BitVec 32) (r : Reg)
  | andl (v : BitVec 32) (r : Reg)
  | shrl (n : Nat) (r : Reg)
  /-- `leal disp(%base, %index), %r` -/
  | leal (disp : BitVec 32) (base index r : Reg)
  /-- `movb (%a), %al` -/
  | movbLoad (a : Reg)
  /-- `movb %al, (%a)` -/
  | movbStore (a : Reg)
  | movwDsDx
  | movwDxEs
  | cld
  | std
  | rep (o : StringOp)

/-- The low byte of EAX. -/
def State.al (s : State) : UInt8 := UInt8.ofNat s.regs.eax.toNat

/-- One instruction; of the flags ZF and CF are kept, which the jumps look at. -/
def Op.exec : Op → State → State
  | .testl a r, s => { s with zf := a.value s &&& s.regs.get r == 0, cf := false }
  | .cmpl a r, s =>
      { s with zf := s.regs.get r == s.regs.get a, cf := (s.regs.get r).ult (s.regs.get a) }
  | .movl a r, s => s.set r (s.regs.get a)
  | .addl v r, s =>
      let sum := s.regs.get r + v
      { s.set r sum with zf := sum == 0, cf := sum.ult v }
  | .subl v r, s =>
      let difference := s.regs.get r - v
      { s.set r difference with zf := difference == 0, cf := (s.regs.get r).ult v }
  | .andl v r, s =>
      let both := s.regs.get r &&& v
      { s.set r both with zf := both == 0, cf := false }
  -- CF is the last bit shifted out
  | .shrl n r, s =>
      let shifted := s.regs.get r >>> n
      { s.set r shifted with zf := shifted == 0, cf := (s.regs.get r).getLsbD (n - 1) }
  | .leal disp base index r, s => s.set r (s.regs.get base + s.regs.get index + disp)
  | .movbLoad a, s =>
      s.set .eax (s.regs.eax.extractLsb' 8 24 ++ (s.mem (s.regs.get a).toNat).toBitVec)
  | .movbStore a, s => { s with mem := Function.update s.mem (s.regs.get a).toNat s.al }
  | .movwDsDx, s => s.set .edx (s.regs.edx.extractLsb' 16 16 ++ s.ds)
  | .movwDxEs, s => { s with es := s.regs.edx.setWidth 16 }
  | .cld, s => { s with df := false }
  | .std, s => { s with df := true }
  | .rep o, s => Ia32.rep o s

/-- Instructions one after the other. -/
def execAll (ops : List Op) (s : State) : State := ops.foldl (fun s o => o.exec s) s

/-! ### Code -/

section Code

variable {Λ : Type*}

/-- A line of code with labels in `Λ`. -/
inductive Line (Λ : Type*) where
  | label (l : Λ)
  | jz (l : Λ)
  | jae (l : Λ)
  | jmp (l : Λ)
  | op (o : Op)

variable [DecidableEq Λ]

/-- The code behind a label. -/
def after (l : Λ) : List (Line Λ) → List (Line Λ)
  | [] => []
  | .label l' :: rest => if l' = l then rest else after l rest
  | .jz _ :: rest => after l rest
  | .jae _ :: rest => after l rest
  | .jmp _ :: rest => after l rest
  | .op _ :: rest => after l rest

/-- Where control is and what the state is after a line, with `rest` behind it. -/
def next (code rest : List (Line Λ)) (s : State) : Line Λ → List (Line Λ) × State
  | .label _ => (rest, s)
  | .jz l => (if s.zf then after l code else rest, s)
  | .jae l => (if s.cf then rest else after l code, s)
  | .jmp l => (after l code, s)
  | .op o => (rest, o.exec s)

/-- Run until control falls off the end; `none` if the fuel does not last. -/
def run (code : List (Line Λ)) : (fuel : Nat) → List (Line Λ) × State → Option State
  | _, ([], s) => some s
  | 0, (_ :: _, _) => none
  | fuel + 1, (i :: rest, s) => run code fuel (next code rest s i)

/-- `k` lines lead from one place to the other. -/
def Steps (code : List (Line Λ)) (k : Nat) (x y : List (Line Λ) × State) : Prop :=
  ∀ fuel, run code (fuel + k) x = run code fuel y

end Code

/-! ### Memory -/

theorem eq_ofNat_toNat (x : BitVec 32) : x = BitVec.ofNat 32 x.toNat := by
  rw [BitVec.ofNat_toNat, BitVec.setWidth_eq]

theorem toNat_offset {a i : Nat} (h : a + i < 2 ^ 32) :
    (BitVec.ofNat 32 a + BitVec.ofNat 32 i).toNat = a + i := by
  rw [← BitVec.ofNat_add, BitVec.toNat_ofNat, Nat.mod_eq_of_lt h]

theorem peek_apply (m : Mem) {a i : Nat} (h : a + i < 2 ^ 32) :
    peek m (BitVec.ofNat 32 a) i = m (a + i) := by
  rw [peek, toNat_offset h]

/-- Only the bytes stored must be below the end of memory; the next may wrap. -/
theorem poke_eq_cover (m : Mem) {a n : Nat} {v v' : Mem} (h : a + n ≤ 2 ^ 32)
    (hv : ∀ i < n, v i = v' i) : poke m (BitVec.ofNat 32 a) n v = cover m a n v' := by
  refine forLoop_invariant (P := fun i t => t = cover m a i v') (cover_zero m a v').symm ?_
  intro i t hi ht
  rw [toNat_offset (by omega), ht, hv i hi, cover_succ]

/-- The byte just loaded is the one that a store then takes. -/
theorem al_movbLoad (s : State) (a : Reg) :
    ((Op.movbLoad a).exec s).al = s.mem (s.regs.get a).toNat := by
  have hlow : ∀ (x : BitVec 24) (y : BitVec 8), (x ++ y).setWidth 8 = y := by
    intro x y
    ext i hi
    rw [BitVec.getElem_setWidth, BitVec.getLsbD_append, if_pos hi, BitVec.getLsbD_eq_getElem]
  refine UInt8.eq_of_toBitVec_eq ?_
  show BitVec.ofNat 8
    (s.regs.eax.extractLsb' 8 24 ++ (s.mem (s.regs.get a).toNat).toBitVec).toNat = _
  rw [BitVec.ofNat_toNat]
  exact hlow _ _

/-! ### Repeated string instructions -/

section Rep

variable {s : State} {w : Width}

/-- What string instructions change. -/
def State.moved (s : State) (m : Mem) (ecx esi edi : BitVec 32) : State :=
  { s with mem := m, regs := { s.regs with ecx := ecx, esi := esi, edi := edi } }

theorem along_up (hdf : s.df = false) (a : Nat) :
    s.along w (BitVec.ofNat 32 a) = BitVec.ofNat 32 (a + w.bytes) := by
  rw [State.along, hdf, BitVec.ofNat_add]
  rfl

theorem along_down (hdf : s.df = true) (a : BitVec 32) :
    s.along w a = a - BitVec.ofNat 32 w.bytes := by
  rw [State.along, hdf]
  rfl

theorem round_stos (s : State) (w : Width) :
    round (.stos w) s = s.moved (poke s.mem s.regs.edi w.bytes (byteOf s.regs.eax.toNat))
      (s.regs.ecx - 1) s.regs.esi (s.along w s.regs.edi) := rfl

theorem round_movs (s : State) (w : Width) :
    round (.movs w) s = s.moved (poke s.mem s.regs.edi w.bytes (peek s.mem s.regs.esi))
      (s.regs.ecx - 1) (s.along w s.regs.esi) (s.along w s.regs.edi) := rfl

theorem sub_one_sub_ofNat (x : BitVec 32) (k : Nat) :
    x - 1 - BitVec.ofNat 32 k = x - BitVec.ofNat 32 (k + 1) := by
  rw [Nat.add_comm k, BitVec.ofNat_add]
  bv_omega

/-- EDX is free to hold what is left for later. -/
theorem rep_edx (o : StringOp) (s : State) : (rep o s).regs.edx = s.regs.edx := by
  have hround : ∀ s, (round o s).regs.edx = s.regs.edx := by
    intro s
    cases o <;> rfl
  rw [rep]
  generalize s.regs.ecx.toNat = k
  induction k generalizing s with
  | zero => rfl
  | succ k ih => rw [Function.iterate_succ_apply, ih, hround]

theorem iterate_stos {a k : Nat} (hdf : s.df = false) (hedi : s.regs.edi = BitVec.ofNat 32 a)
    (hend : a + w.bytes * k ≤ 2 ^ 32) :
    (round (.stos w))^[k] s =
      s.moved (cover s.mem a (w.bytes * k) fun i => byteOf s.regs.eax.toNat (i % w.bytes))
        (s.regs.ecx - BitVec.ofNat 32 k) s.regs.esi (BitVec.ofNat 32 (a + w.bytes * k)) := by
  induction k generalizing s a with
  | zero =>
      rw [Nat.mul_zero, cover_zero, Nat.add_zero, ← hedi, BitVec.sub_zero]
      rfl
  | succ k ih =>
      rw [Nat.mul_succ, Nat.add_comm (w.bytes * k), ← Nat.add_assoc] at hend ⊢
      have hpoke : poke s.mem s.regs.edi w.bytes (byteOf s.regs.eax.toNat) =
          cover s.mem a w.bytes fun i => byteOf s.regs.eax.toNat (i % w.bytes) := by
        rw [hedi]
        exact poke_eq_cover s.mem (by omega) fun i hi => by rw [Nat.mod_eq_of_lt hi]
      rw [Function.iterate_succ_apply, round_stos, hpoke, hedi, along_up hdf,
        ih (by exact hdf) rfl hend]
      have hmem := cover_append s.mem a w.bytes (k := w.bytes * k)
        (fun i => byteOf s.regs.eax.toNat (i % w.bytes))
        (fun i => byteOf s.regs.eax.toNat (i % w.bytes)) fun i _ => by rw [Nat.add_mod_left]
      rw [← hmem, ← sub_one_sub_ofNat]
      rfl

/-- **Filling memory.** -/
theorem rep_stos {a : Nat} (hdf : s.df = false) (hedi : s.regs.edi = BitVec.ofNat 32 a)
    (hend : a + w.bytes * s.regs.ecx.toNat ≤ 2 ^ 32) :
    rep (.stos w) s =
      s.moved (cover s.mem a (w.bytes * s.regs.ecx.toNat)
          fun i => byteOf s.regs.eax.toNat (i % w.bytes))
        0 s.regs.esi (BitVec.ofNat 32 (a + w.bytes * s.regs.ecx.toNat)) := by
  rw [rep, iterate_stos hdf hedi hend, ← eq_ofNat_toNat, BitVec.sub_self]
  rfl

theorem iterate_movs_up {a b k : Nat} (hdf : s.df = false)
    (hedi : s.regs.edi = BitVec.ofNat 32 a) (hesi : s.regs.esi = BitVec.ofNat 32 b)
    (ha : a + w.bytes * k ≤ 2 ^ 32) (hb : b + w.bytes * k ≤ 2 ^ 32)
    (hclear : a ≤ b ∨ b + w.bytes * k ≤ a) :
    (round (.movs w))^[k] s =
      s.moved (cover s.mem a (w.bytes * k) (behind s.mem b))
        (s.regs.ecx - BitVec.ofNat 32 k) (BitVec.ofNat 32 (b + w.bytes * k))
        (BitVec.ofNat 32 (a + w.bytes * k)) := by
  induction k generalizing s a b with
  | zero =>
      rw [Nat.mul_zero, cover_zero, Nat.add_zero, Nat.add_zero, ← hedi, ← hesi, BitVec.sub_zero]
      rfl
  | succ k ih =>
      rw [Nat.mul_succ, Nat.add_comm (w.bytes * k), ← Nat.add_assoc] at ha hb hclear ⊢
      rw [← Nat.add_assoc]
      have hpoke : poke s.mem s.regs.edi w.bytes (peek s.mem s.regs.esi) =
          cover s.mem a w.bytes (behind s.mem b) := by
        rw [hedi, hesi]
        exact poke_eq_cover s.mem (by omega) fun i hi => peek_apply s.mem (by omega)
      rw [Function.iterate_succ_apply, round_movs, hpoke, hedi, hesi, along_up hdf, along_up hdf,
        ih (by exact hdf) rfl rfl ha hb (by omega)]
      -- the elements still to come have not been overwritten
      have hmem := cover_append s.mem a w.bytes (k := w.bytes * k) (behind s.mem b)
        (behind (cover s.mem a w.bytes (behind s.mem b)) (b + w.bytes)) fun i hi => by
          rw [behind, cover_outside _ _ (by omega), behind, Nat.add_assoc]
      rw [← hmem, ← sub_one_sub_ofNat]
      rfl

/-- **Copying upwards**, to a place not above the source or clear of it. -/
theorem rep_movs_up {a b : Nat} (hdf : s.df = false)
    (hedi : s.regs.edi = BitVec.ofNat 32 a) (hesi : s.regs.esi = BitVec.ofNat 32 b)
    (ha : a + w.bytes * s.regs.ecx.toNat ≤ 2 ^ 32) (hb : b + w.bytes * s.regs.ecx.toNat ≤ 2 ^ 32)
    (hclear : a ≤ b ∨ b + w.bytes * s.regs.ecx.toNat ≤ a) :
    rep (.movs w) s =
      s.moved (cover s.mem a (w.bytes * s.regs.ecx.toNat) (behind s.mem b)) 0
        (BitVec.ofNat 32 (b + w.bytes * s.regs.ecx.toNat))
        (BitVec.ofNat 32 (a + w.bytes * s.regs.ecx.toNat)) := by
  rw [rep, iterate_movs_up hdf hedi hesi ha hb hclear, ← eq_ofNat_toNat,
    BitVec.sub_self]
  rfl

/-- The address registers point to the last element, or to the one before the first when
there is none. -/
theorem iterate_movs_down {a b k : Nat} (hdf : s.df = true)
    (hedi : s.regs.edi = BitVec.ofNat 32 (a + w.bytes * k) - BitVec.ofNat 32 w.bytes)
    (hesi : s.regs.esi = BitVec.ofNat 32 (b + w.bytes * k) - BitVec.ofNat 32 w.bytes)
    (ha : a + w.bytes * k ≤ 2 ^ 32) (hb : b + w.bytes * k ≤ 2 ^ 32)
    (hclear : b ≤ a ∨ a + w.bytes * k ≤ b) :
    (round (.movs w))^[k] s =
      s.moved (cover s.mem a (w.bytes * k) (behind s.mem b))
        (s.regs.ecx - BitVec.ofNat 32 k) (BitVec.ofNat 32 b - BitVec.ofNat 32 w.bytes)
        (BitVec.ofNat 32 a - BitVec.ofNat 32 w.bytes) := by
  induction k generalizing s with
  | zero =>
      rw [Nat.mul_zero, Nat.add_zero] at hedi hesi
      rw [Nat.mul_zero, cover_zero, ← hedi, ← hesi, BitVec.sub_zero]
      rfl
  | succ k ih =>
      rw [Nat.mul_succ, ← Nat.add_assoc] at ha hb hclear hedi hesi
      rw [BitVec.ofNat_add, BitVec.add_sub_cancel] at hedi hesi
      have hpoke : poke s.mem s.regs.edi w.bytes (peek s.mem s.regs.esi) =
          cover s.mem (a + w.bytes * k) w.bytes (behind (behind s.mem b) (w.bytes * k)) := by
        rw [hedi, hesi]
        refine poke_eq_cover s.mem ha fun i hi => ?_
        rw [peek_apply s.mem (by omega), behind, behind, Nat.add_assoc]
      rw [Function.iterate_succ_apply, round_movs, hpoke, hedi, hesi, along_down hdf,
        along_down hdf, ih (by exact hdf) rfl rfl (by omega) (by omega) (by omega)]
      -- the elements still to come have not been overwritten
      have hmem := cover_prepend s.mem a (j := w.bytes * k) w.bytes (behind s.mem b)
        (behind (cover s.mem (a + w.bytes * k) w.bytes
          (behind (behind s.mem b) (w.bytes * k))) b) fun i hi => by
          rw [behind, cover_outside _ _ (by omega), behind]
      rw [Nat.mul_succ, ← hmem, ← sub_one_sub_ofNat]
      rfl

/-- **Copying downwards**, to a place not below the source or clear of it. -/
theorem rep_movs_down {a b : Nat} (hdf : s.df = true)
    (hedi : s.regs.edi =
      BitVec.ofNat 32 (a + w.bytes * s.regs.ecx.toNat) - BitVec.ofNat 32 w.bytes)
    (hesi : s.regs.esi =
      BitVec.ofNat 32 (b + w.bytes * s.regs.ecx.toNat) - BitVec.ofNat 32 w.bytes)
    (ha : a + w.bytes * s.regs.ecx.toNat ≤ 2 ^ 32) (hb : b + w.bytes * s.regs.ecx.toNat ≤ 2 ^ 32)
    (hclear : b ≤ a ∨ a + w.bytes * s.regs.ecx.toNat ≤ b) :
    rep (.movs w) s =
      s.moved (cover s.mem a (w.bytes * s.regs.ecx.toNat) (behind s.mem b)) 0
        (BitVec.ofNat 32 b - BitVec.ofNat 32 w.bytes)
        (BitVec.ofNat 32 a - BitVec.ofNat 32 w.bytes) := by
  rw [rep, iterate_movs_down hdf hedi hesi ha hb hclear, ← eq_ofNat_toNat,
    BitVec.sub_self]
  rfl

end Rep

/-! ### Running code -/

section Code

variable {Λ : Type*} [DecidableEq Λ] {code : List (Line Λ)} {j k : Nat}
  {x y z : List (Line Λ) × State}

@[simp] theorem after_ops (l : Λ) (ops : List Op) (rest : List (Line Λ)) :
    after l (ops.map .op ++ rest) = after l rest := by
  induction ops with
  | nil => rfl
  | cons o ops ih => exact ih

theorem Steps.refl (code : List (Line Λ)) (x : List (Line Λ) × State) : Steps code 0 x x :=
  fun _ => rfl

theorem Steps.trans (h : Steps code j x y) (h' : Steps code k y z) : Steps code (j + k) x z := by
  intro fuel
  rw [Nat.add_comm j, ← Nat.add_assoc, h, h']

theorem steps_next (code : List (Line Λ)) (i : Line Λ) (rest : List (Line Λ)) (s : State) :
    Steps code 1 (i :: rest, s) (next code rest s i) :=
  fun _ => rfl

/-- `testl` with a jump that is taken … -/
theorem steps_testl_jz (code : List (Line Λ)) {a : Operand} {r : Reg} {s : State}
    (h : a.value s &&& s.regs.get r = 0) (l : Λ) (rest : List (Line Λ)) :
    Steps code 2 (.op (.testl a r) :: .jz l :: rest, s) (after l code, (Op.testl a r).exec s) := by
  have hzf : ((Op.testl a r).exec s).zf = true := beq_iff_eq.mpr h
  have htest := steps_next code (.op (.testl a r)) (.jz l :: rest) s
  have hjump := steps_next code (.jz l) rest ((Op.testl a r).exec s)
  rw [next, hzf] at hjump
  exact htest.trans hjump

/-- … and with one that is not. -/
theorem steps_testl_not_jz (code : List (Line Λ)) {a : Operand} {r : Reg} {s : State}
    (h : a.value s &&& s.regs.get r ≠ 0) (l : Λ) (rest : List (Line Λ)) :
    Steps code 2 (.op (.testl a r) :: .jz l :: rest, s) (rest, (Op.testl a r).exec s) := by
  have hzf : ((Op.testl a r).exec s).zf = false := beq_eq_false_iff_ne.mpr h
  have htest := steps_next code (.op (.testl a r)) (.jz l :: rest) s
  have hjump := steps_next code (.jz l) rest ((Op.testl a r).exec s)
  rw [next, hzf] at hjump
  exact htest.trans hjump

/-- A block without jumps. -/
theorem steps_ops (code : List (Line Λ)) (ops : List Op) (rest : List (Line Λ)) (s : State) :
    Steps code ops.length (ops.map .op ++ rest, s) (rest, execAll ops s) := by
  induction ops generalizing s with
  | nil => exact Steps.refl code _
  | cons o ops ih =>
      have hfirst := steps_next code (.op o) (ops.map .op ++ rest) s
      rw [List.length_cons, Nat.add_comm]
      exact hfirst.trans (ih (o.exec s))

/-- **Loop rule.**  Each round leads back to the same place; the invariant counts the
rounds that are left. -/
theorem steps_loop {c : List (Line Λ)} {I : Nat → State → Prop}
    (hround : ∀ j s, I (j + 1) s → ∃ s', Steps code k (c, s) (c, s') ∧ I j s') {s : State}
    (h : I j s) : ∃ s', Steps code (j * k) (c, s) (c, s') ∧ I 0 s' := by
  induction j generalizing s with
  | zero =>
      rw [Nat.zero_mul]
      exact ⟨s, Steps.refl code _, h⟩
  | succ j ih =>
      obtain ⟨s₁, hfirst, h₁⟩ := hround j s h
      obtain ⟨s₂, hrest, h₂⟩ := ih h₁
      rw [Nat.succ_mul, Nat.add_comm]
      exact ⟨s₂, hfirst.trans hrest, h₂⟩

/-- Control that falls off the end has been run, with any fuel that suffices. -/
theorem Steps.run_eq {c : List (Line Λ)} {s t : State} {fuel : Nat}
    (h : Steps code k (c, s) ([], t)) (hk : k ≤ fuel) : run code fuel (c, s) = some t := by
  rw [← Nat.sub_add_cancel hk, h, run]

end Code

end Ia32
