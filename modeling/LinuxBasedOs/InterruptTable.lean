/-
LinuxBasedOs/InterruptTable.lean

The interrupt descriptor table that `entry` builds (kernel.c, x86_desc.h), as the
processor reads it.

`set_idt_entry` is called for the two devices first, and then for all 256 vectors with a
NULL handler.  These calls fill in the exceptions and the system call, and leave alone
what is present; every other vector gets a descriptor that is not present.

* `idt_gates` — what the processor finds at each vector, wherever the linker has put the
  handlers, and that the `INT` instruction of a program gets through at vectors 3, 4, 5
  and 0x80 only;
* `delivered_handled` — an interrupt that the controllers pass on, whatever the devices
  do and whenever, enters the handler of the device that asked for it; a spurious one finds
  no gate.
-/
import LinuxBasedOs.BitField
import LinuxBasedOs.Linkage
import LinuxBasedOs.PicDriver

namespace LinuxBasedOs

open I8259 Transition

/-! ### Descriptors -/

/-- `idt_desc_t`, the first field in the lowest bits. -/
abbrev IdtDesc := BitVec 64

namespace IdtDesc

/-- `SET_IDT_ENTRY`. -/
def setOffset (handler : BitVec 32) (d : IdtDesc) : IdtDesc :=
  BitField.set (BitField.set d 48 16 ((handler &&& 0xFFFF0000) >>> 16).toNat) 0 16
    (handler &&& 0xFFFF).toNat

/-- The fields that are set one by one. -/
def setFields (segSelector reserved4 reserved3 reserved2 reserved1 size reserved0 dpl present : Nat)
    (d : IdtDesc) : IdtDesc :=
  let d := BitField.set (BitField.set d 16 16 segSelector) 32 8 reserved4
  let d := BitField.set (BitField.set d 40 1 reserved3) 41 1 reserved2
  let d := BitField.set (BitField.set d 42 1 reserved1) 43 1 size
  BitField.set (BitField.set (BitField.set d 44 1 reserved0) 45 2 dpl) 47 1 present

/-- The bit without which the processor does not use a descriptor. -/
def present (d : IdtDesc) : Nat := BitField.get d 47 1

end IdtDesc

/-! ### The table -/

/-- `KERNEL_CS`, the selector that every gate but one leads to. -/
def kernelCs : Nat := 0x0010

/-- `KERNEL_TSS`, for the one gate that switches tasks. -/
def kernelTss : Nat := 0x0030

/-- What a descriptor can lead to. -/
inductive Handler where
  | exception (e : ExceptionEntry)
  | sysCallHandler
  | rtcHandler
  | keyHandler
  deriving DecidableEq

/-- `idt_functions`; `none` stands for the three entries that are 1. -/
def idtFunctions : List (Option ExceptionEntry) :=
  [some .divideError, none, some .nmiInterrupt, some .breakpoint, some .overflow,
    some .boundRange, some .invalidOpcode, some .deviceNotAvailable, some .doubleFault, none,
    some .invalidTss, some .segmentMissing, some .stackSegFault, some .generalProt,
    some .pageFault, none, some .floatError, some .alignCheck, some .machineCheck, some .floatExcep]

/-- `idt_protections`: the breakpoint, the overflow and the range error are for programs. -/
def idtProtections : List Nat := [0, 0, 0, 3, 3, 3, 0, 0, 0, 0, 0, 0, 0, 0, 0, 0, 0, 0, 0, 0]

/-- `TASK_GATE`, `INT_GATE` and `TRAP_GATE`: the type bits of the three kinds. -/
def taskGate : Nat := 0x05

@[inherit_doc taskGate]
def intGate : Nat := 0x0E

@[inherit_doc taskGate]
def trapGate : Nat := 0x0F

/-- `idt_gates`. -/
def idtGates : List Nat :=
  [trapGate, trapGate, intGate, intGate, trapGate, trapGate, trapGate, trapGate, taskGate,
    trapGate, trapGate, trapGate, trapGate, trapGate, intGate, trapGate, trapGate, trapGate,
    trapGate, trapGate]

/-- The bits of a gate's type, and the fields around them. -/
def setGate (curGate segSelector dpl : Nat) (d : IdtDesc) : IdtDesc :=
  let size := (curGate &&& 0x08) >>> 3
  let res1 := (curGate &&& 0x04) >>> 2
  let res2 := (curGate &&& 0x02) >>> 1
  let res3 := (curGate &&& 0x01) >>> 0
  d.setFields segSelector 0 res3 res2 res1 size 0 dpl 1

/-- Where the linker has put the handlers. -/
abbrev Addresses := Handler → BitVec 32

/-- The descriptor that `set_idt_entry` writes; a handler of 0 is NULL. -/
def idtEntry (addr : Addresses) (vector : Nat) (inFunction : BitVec 32) (d : IdtDesc) : IdtDesc :=
  if inFunction ≠ 0 then (d.setOffset inFunction).setFields kernelCs 0 0 1 1 1 0 0 1
  else if vector < 20 ∧ vector ≠ 1 ∧ vector ≠ 9 ∧ vector ≠ 15 then
    let curGate := idtGates.getD vector 0
    -- no task state has been set up for the double fault: the offset is a mere non-null value
    if curGate = taskGate then setGate curGate kernelTss 0 (d.setOffset 1)
    else
      let function := match idtFunctions.getD vector none with
        | none => 1
        | some e => addr (.exception e)
      setGate curGate kernelCs (idtProtections.getD vector 0) (d.setOffset function)
  else if vector = 0x80 then setGate trapGate kernelCs 3 (d.setOffset (addr .sysCallHandler))
  -- fill an empty spot with a non-null value
  else if d.present = 0 then (d.setOffset 1).setFields kernelCs 0 0 1 1 1 0 0 0
  else d

/-- `set_idt_entry`. -/
def setIdtEntry (addr : Addresses) (vector : Nat) (inFunction : BitVec 32) (idt : Nat → IdtDesc) :
    Nat → IdtDesc :=
  Function.update idt vector (idtEntry addr vector inFunction (idt vector))

/-- The table after `entry`; x86_desc.S fills it with zeros. -/
def bootIdt (addr : Addresses) : Nat → IdtDesc :=
  let idt := setIdtEntry addr 0x28 (addr .rtcHandler) fun _ => 0
  let idt := setIdtEntry addr (0x20 + 1) (addr .keyHandler) idt
  forLoop (fun i => setIdtEntry addr i 0) 256 idt

/-! ### The processor -/

/-- What the processor does with a descriptor. -/
inductive GateKind where
  | task
  | interrupt         -- interrupts are disabled on entry
  | trap
  deriving DecidableEq

/-- A descriptor that is present, taken apart. -/
structure Gate where
  kind : GateKind
  selector : Nat
  offset : BitVec 32
  dpl : Nat
  deriving DecidableEq

/-- The five bits of the type. -/
def GateKind.ofType (type : Nat) : Option GateKind :=
  if type = 0x05 then some .task
  else if type = 0x0E then some .interrupt
  else if type = 0x0F then some .trap
  else none

/-- How the processor reads a descriptor; `none` if it is not present, or has no valid
type. -/
def IdtDesc.decode (d : IdtDesc) : Option Gate :=
  if d.present = 0 then none
  else
    let type := 16 * BitField.get d 44 1 + 8 * BitField.get d 43 1 + 4 * BitField.get d 42 1 +
      2 * BitField.get d 41 1 + BitField.get d 40 1
    (GateKind.ofType type).map fun kind =>
      { kind := kind
        selector := BitField.get d 16 16
        offset := BitVec.ofNat 32 (BitField.get d 48 16 * 2 ^ 16 + BitField.get d 0 16)
        dpl := BitField.get d 45 2 }

/-- `INT n` in a program, which runs at level 3. -/
def Gate.callable (g : Gate) : Bool := decide (3 ≤ g.dpl)

/-! ### One descriptor -/

/-- The fields that are set one by one are read back, and the offset is left alone. -/
theorem IdtDesc.get_setFields (segSelector r4 r3 r2 r1 size r0 dpl present : Nat) (d : IdtDesc) :
    let e := d.setFields segSelector r4 r3 r2 r1 size r0 dpl present
    BitField.get e 16 16 = segSelector % 2 ^ 16 ∧ BitField.get e 40 1 = r3 % 2 ∧
      BitField.get e 41 1 = r2 % 2 ∧ BitField.get e 42 1 = r1 % 2 ∧ BitField.get e 43 1 = size % 2 ∧
      BitField.get e 44 1 = r0 % 2 ∧ BitField.get e 45 2 = dpl % 4 ∧
      BitField.get e 47 1 = present % 2 ∧ BitField.get e 0 16 = BitField.get d 0 16 ∧
      BitField.get e 48 16 = BitField.get d 48 16 := by
  simp only [IdtDesc.setFields]
  refine ⟨?_, ?_, ?_, ?_, ?_, ?_, ?_, ?_, ?_, ?_⟩
  all_goals simp (disch := decide) only [BitField.get_set_of_disjoint, BitField.get_set_same]
  all_goals rfl

/-- The two halves of a handler's address are put together again. -/
theorem IdtDesc.offset_setOffset (handler : BitVec 32) (d : IdtDesc) :
    BitVec.ofNat 32 (BitField.get (d.setOffset handler) 48 16 * 2 ^ 16 +
      BitField.get (d.setOffset handler) 0 16) = handler := by
  have hhigh : ((handler &&& 0xFFFF0000) >>> 16).toNat = BitField.get handler 16 16 :=
    BitField.get_eq_and_mask handler 16 16 (by decide)
  have hlow : (handler &&& 0xFFFF).toNat = BitField.get handler 0 16 :=
    BitField.get_eq_and_mask handler 0 16 (by decide)
  simp only [IdtDesc.setOffset]
  rw [BitField.get_set_of_disjoint _ _ (by decide), BitField.get_set_same _ _ _ _ (by decide),
    BitField.get_set_same _ _ _ _ (by decide), hhigh, hlow, BitField.get, BitField.get,
    Nat.shiftRight_eq_div_pow, Nat.shiftRight_zero]
  apply BitVec.eq_of_toNat_eq
  rw [BitVec.toNat_ofNat]
  have := handler.isLt
  omega

/-- A descriptor that is present is the gate it was made for. -/
theorem IdtDesc.decode_setFields (handler : BitVec 32) (segSelector r4 r3 r2 r1 size dpl : Nat)
    (d : IdtDesc) :
    ((d.setOffset handler).setFields segSelector r4 r3 r2 r1 size 0 dpl 1).decode =
      (GateKind.ofType (8 * (size % 2) + 4 * (r1 % 2) + 2 * (r2 % 2) + r3 % 2)).map fun kind =>
        ⟨kind, segSelector % 2 ^ 16, handler, dpl % 4⟩ := by
  obtain ⟨hsel, h3, h2, h1, hsize, h0, hdpl, hpresent, hlow, hhigh⟩ :=
    IdtDesc.get_setFields segSelector r4 r3 r2 r1 size 0 dpl 1 (d.setOffset handler)
  have hne : ¬ ((d.setOffset handler).setFields segSelector r4 r3 r2 r1 size 0 dpl 1).present = 0 := by
    rw [IdtDesc.present, hpresent]
    decide
  rw [IdtDesc.decode, if_neg hne]
  simp only [hsel, h3, h2, h1, hsize, h0, hdpl, hlow, hhigh, IdtDesc.offset_setOffset]
  simp

theorem IdtDesc.decode_setGate {curGate : Nat} (hgate : curGate < 16) (handler : BitVec 32)
    (segSelector dpl : Nat) (d : IdtDesc) :
    (setGate curGate segSelector dpl (d.setOffset handler)).decode =
      (GateKind.ofType curGate).map fun kind => ⟨kind, segSelector % 2 ^ 16, handler, dpl % 4⟩ := by
  have hbits : ∀ g < 16, 8 * ((g &&& 0x08) >>> 3 % 2) + 4 * ((g &&& 0x04) >>> 2 % 2) +
      2 * ((g &&& 0x02) >>> 1 % 2) + (g &&& 0x01) >>> 0 % 2 = g := by decide
  rw [setGate, IdtDesc.decode_setFields, hbits curGate hgate]

/-! ### All descriptors -/

/-- The gate of an exception that has a handler. -/
def exceptionGate (addr : Addresses) (vector : Nat) : Option Gate :=
  (idtFunctions.getD vector none).map fun e =>
    { kind := if vector = 2 ∨ vector = 3 ∨ vector = 14 then .interrupt else .trap
      selector := kernelCs
      offset := addr (.exception e)
      dpl := if vector = 3 ∨ vector = 4 ∨ vector = 5 then 3 else 0 }

/-- What each vector is for. -/
def gateOf (addr : Addresses) (vector : Nat) : Option Gate :=
  if vector = 0x21 then some ⟨.interrupt, kernelCs, addr .keyHandler, 0⟩
  else if vector = 0x28 then some ⟨.interrupt, kernelCs, addr .rtcHandler, 0⟩
  else if vector = 0x80 then some ⟨.trap, kernelCs, addr .sysCallHandler, 3⟩
  -- a double fault switches tasks
  else if vector = 8 then some ⟨.task, kernelTss, 1, 0⟩
  else exceptionGate addr vector

/-- A handler that is passed in. -/
theorem decode_idtEntry_handler (addr : Addresses) (vector : Nat) {handler : BitVec 32}
    (hne : handler ≠ 0) (d : IdtDesc) :
    (idtEntry addr vector handler d).decode = some ⟨.interrupt, kernelCs, handler, 0⟩ := by
  rw [idtEntry, if_pos hne, IdtDesc.decode_setFields]
  rfl

/-- An exception's entry of the tables. -/
theorem decode_idtEntry_exception (addr : Addresses) {vector : Nat}
    (hv : vector < 20 ∧ vector ≠ 1 ∧ vector ≠ 9 ∧ vector ≠ 15) (d : IdtDesc) :
    (idtEntry addr vector 0 d).decode = gateOf addr vector := by
  have htables : ∀ v < 20, v ≠ 1 ∧ v ≠ 9 ∧ v ≠ 15 → (idtFunctions.getD v none).isSome = true ∧
      idtGates.getD v 0 < 16 ∧ (idtGates.getD v 0 = taskGate ↔ v = 8) ∧
      (v ≠ 8 → GateKind.ofType (idtGates.getD v 0) =
        some (if v = 2 ∨ v = 3 ∨ v = 14 then .interrupt else .trap)) ∧
      idtProtections.getD v 0 % 4 = if v = 3 ∨ v = 4 ∨ v = 5 then 3 else 0 := by decide
  obtain ⟨hsome, hlt, htask, hkind, hdpl⟩ := htables vector hv.1 hv.2
  obtain ⟨e, he⟩ := Option.isSome_iff_exists.mp hsome
  rw [idtEntry, if_neg (by simp), if_pos hv]
  simp only
  by_cases h8 : vector = 8
  · rw [if_pos (htask.mpr h8), IdtDesc.decode_setGate hlt]
    subst h8
    rfl
  · have hgate : gateOf addr vector = exceptionGate addr vector := by
      rw [gateOf, if_neg (by omega), if_neg (by omega), if_neg (by omega), if_neg h8]
    rw [if_neg fun h => h8 (htask.mp h), IdtDesc.decode_setGate hlt, hkind h8, hdpl, hgate,
      exceptionGate, he]
    rfl

/-- Every other vector but the system call's keeps its gate, and has none otherwise. -/
theorem decode_idtEntry_other (addr : Addresses) {vector : Nat}
    (hv : ¬ (vector < 20 ∧ vector ≠ 1 ∧ vector ≠ 9 ∧ vector ≠ 15)) (h80 : vector ≠ 0x80)
    (d : IdtDesc) : (idtEntry addr vector 0 d).decode = d.decode := by
  rw [idtEntry, if_neg (by simp), if_neg hv, if_neg h80]
  split_ifs with hpresent
  · obtain ⟨-, -, -, -, -, -, -, hfield, -⟩ :=
      IdtDesc.get_setFields kernelCs 0 0 1 1 1 0 0 0 (d.setOffset 1)
    have habsent : ((d.setOffset 1).setFields kernelCs 0 0 1 1 1 0 0 0).present = 0 := hfield
    rw [IdtDesc.decode, IdtDesc.decode, if_pos habsent, if_pos hpresent]
  · rfl

/-- Each round of the loop is about a vector of its own. -/
theorem bootIdt_loop (addr : Addresses) (idt : Nat → IdtDesc) (n : Nat) :
    forLoop (fun i => setIdtEntry addr i 0) n idt =
      fun v => if v < n then idtEntry addr v 0 (idt v) else idt v := by
  refine forLoop_invariant (P := fun k (t : Nat → IdtDesc) =>
    t = fun v => if v < k then idtEntry addr v 0 (idt v) else idt v) ?_ fun k t _ ht => ?_
  · rfl
  · subst ht
    funext v
    simp only [setIdtEntry, Function.update_apply, lt_irrefl, if_false]
    by_cases hv : v = k
    · subst hv
      rw [if_pos rfl, if_pos (by omega)]
    · rw [if_neg hv]
      exact if_congr (by omega) rfl rfl

theorem decode_bootIdt {addr : Addresses} (hrtc : addr .rtcHandler ≠ 0)
    (hkey : addr .keyHandler ≠ 0) (vector : Nat) (hv : vector < 256) :
    (bootIdt addr vector).decode = gateOf addr vector := by
  rw [bootIdt]
  simp only [bootIdt_loop, if_pos hv, setIdtEntry, Function.update_apply]
  -- the devices' vectors were there before the loop, the others were 0
  by_cases h21 : vector = 0x21
  · subst h21
    rw [if_pos rfl, if_neg (by decide), decode_idtEntry_other addr (by decide) (by decide),
      decode_idtEntry_handler addr 0x21 hkey 0]
    rfl
  · rw [if_neg h21]
    by_cases h28 : vector = 0x28
    · subst h28
      rw [if_pos rfl, decode_idtEntry_other addr (by decide) (by decide),
        decode_idtEntry_handler addr 0x28 hrtc 0]
      rfl
    · rw [if_neg h28]
      by_cases hex : vector < 20 ∧ vector ≠ 1 ∧ vector ≠ 9 ∧ vector ≠ 15
      · exact decode_idtEntry_exception addr hex 0
      · by_cases h80 : vector = 0x80
        · subst h80
          rw [idtEntry, if_neg (by simp), if_neg (by decide), if_pos rfl,
            IdtDesc.decode_setGate (by decide)]
          rfl
        · have hempty : idtFunctions.getD vector none = none := by
            by_cases h20 : vector < 20
            · have : vector = 1 ∨ vector = 9 ∨ vector = 15 := by omega
              rcases this with rfl | rfl | rfl <;> rfl
            · have hlen : idtFunctions.length ≤ vector := Nat.not_lt.mp h20
              rw [List.getD_eq_getElem?_getD, List.getElem?_eq_none hlen]
              rfl
          rw [decode_idtEntry_other addr hex h80, gateOf, if_neg h21, if_neg h28,
            if_neg h80, if_neg (by omega), exceptionGate, hempty]
          rfl

theorem exceptionGate_callable (addr : Addresses) (vector : Nat) :
    (exceptionGate addr vector).any Gate.callable = true ↔
      vector = 3 ∨ vector = 4 ∨ vector = 5 := by
  rw [exceptionGate, Option.any_map]
  cases he : idtFunctions.getD vector none with
  | none =>
      refine ⟨fun h => absurd h (by simp), ?_⟩
      rintro (rfl | rfl | rfl)
      all_goals cases he
  | some e =>
      simp only [Option.any_some, Gate.callable, decide_eq_true_eq]
      split_ifs with hv
      · exact ⟨fun _ => hv, fun _ => le_refl 3⟩
      · exact ⟨fun h => absurd h (by decide), fun h => absurd h hv⟩

/-- **The interrupt descriptor table.**  Wherever the handlers are, the processor finds at
each vector the gate that the vector is for: the addresses survive being cut in two, the
loop neither overwrites the devices' gates nor leaves an unused vector present.  With an
`INT` instruction a program enters the gates of breakpoints, overflows, range errors and
system calls, and no other. -/
theorem idt_gates (addr : Addresses) (hrtc : addr .rtcHandler ≠ 0) (hkey : addr .keyHandler ≠ 0)
    (vector : Nat) (hv : vector < 256) :
    (bootIdt addr vector).decode = gateOf addr vector ∧
      ((bootIdt addr vector).decode.any Gate.callable = true ↔
        vector = 3 ∨ vector = 4 ∨ vector = 5 ∨ vector = 0x80) := by
  have hdecode := decode_bootIdt hrtc hkey vector hv
  refine ⟨hdecode, ?_⟩
  rw [hdecode, gateOf]
  split_ifs with h21 h28 h80 h8
  · exact iff_of_false Bool.false_ne_true (by omega)
  · exact iff_of_false Bool.false_ne_true (by omega)
  · exact iff_of_true rfl (by omega)
  · exact iff_of_false Bool.false_ne_true (by omega)
  · rw [exceptionGate_callable]
    omega

/-- Handlers somewhere in the kernel's page; the breakpoint is there, and vector 0x20 is
not. -/
theorem idt_gates_breakpoint :
    let addr : Addresses := fun h => match h with
      | .exception .breakpoint => 0x00401234
      | .exception _ => 0x00400800
      | .sysCallHandler => 0x00400A00
      | .rtcHandler => 0x00400B00
      | .keyHandler => 0x00400C00
    (bootIdt addr 3).decode = some ⟨.interrupt, kernelCs, 0x00401234, 3⟩ ∧
      (bootIdt addr 0x20).decode = none ∧
      ((bootIdt addr 0x20).decode.any Gate.callable = true ↔ False) := by
  intro addr
  have hrtc : addr .rtcHandler ≠ 0 := by decide
  have hkey : addr .keyHandler ≠ 0 := by decide
  have h3 := idt_gates addr hrtc hkey 3 (by decide)
  have h20 := idt_gates addr hrtc hkey 0x20 (by decide)
  exact ⟨h3.1, h20.1, h20.2.trans (by decide)⟩

/-! ### Interrupts -/

/-- **An interrupt enters the handler of its device.**  Whatever lines ask for interrupts
and when, under the kernel's calls: the vector that the controllers pass on is the one of
line 1 or of line 8, the line does ask, and the table holds the interrupt gate of its
handler there, out of reach for programs.  A request that is withdrawn can also leave the
processor with a spurious vector; neither of the two has a gate. -/
theorem delivered_handled (addr : Addresses) (hrtc : addr .rtcHandler ≠ 0)
    (hkey : addr .keyHandler ≠ 0) (s : PicDriver) (hmaster : s.masterMask = 0)
    (hslave : s.slaveMask = 0) (es : List PicEvent) (hes : ∀ e ∈ es, e.ByKernel)
    (os : List (Option Nat)) (t : PicDriver) (hrun : run PicDriver.step s.boot es = some (os, t))
    (r : Requests) (vector : Nat) (u : PicDriver)
    (hu : t.step (.acknowledge r) = some (some vector, u)) :
    (r.first 1 = true ∧
        (bootIdt addr vector).decode = some ⟨.interrupt, kernelCs, addr .keyHandler, 0⟩) ∨
      (r.second 8 = true ∧
        (bootIdt addr vector).decode = some ⟨.interrupt, kernelCs, addr .rtcHandler, 0⟩) ∨
      ((vector = 0x27 ∨ vector = 0x2F) ∧ ¬ r.Held ∧ (bootIdt addr vector).decode = none) := by
  obtain ⟨p, ht⟩ := (PicDriver.boot_serves hmaster hslave).run hes hrun
  obtain ⟨⟨v, q⟩, hq, hr⟩ := Option.map_eq_some_iff.mp hu
  obtain rfl := Option.some.inj (Prod.mk.inj hr).1
  obtain ⟨rfl, hreq⟩ | ⟨rfl, hreq⟩ | ⟨hv, hheld⟩ := (ht.acknowledge hq).2
  · exact .inl ⟨hreq, decode_bootIdt hrtc hkey 0x21 (by decide)⟩
  · exact .inr (.inl ⟨hreq, decode_bootIdt hrtc hkey 0x28 (by decide)⟩)
  · refine .inr (.inr ⟨hv, hheld, ?_⟩)
    rcases hv with rfl | rfl
    · exact decode_bootIdt hrtc hkey 0x27 (by decide)
    · exact decode_bootIdt hrtc hkey 0x2F (by decide)

/-- The RTC asks while the timer does, too; a keyboard that asks and stops is spurious. -/
theorem delivered_handled_rtc :
    let addr : Addresses := fun h => match h with
      | .exception _ => 0x00400800
      | .sysCallHandler => 0x00400A00
      | .rtcHandler => 0x00400B00
      | .keyHandler => 0x00400C00
    let s : PicDriver := ⟨⟨⟨.icw4, true, false, 8, 7, 7, 0xFF, 3⟩, ⟨.ready, true, true, 0, 0, 0, 0x55, 0⟩⟩,
      0, 0⟩
    let es : List PicEvent := [.enableIrq 1, .enableIrq 2, .enableIrq 8]
    let t := final PicDriver.step s.boot es
    let r := Requests.steady fun n => n = 0 ∨ n = 8
    let gone : Requests := ⟨fun n => n = 1, fun _ => false, fun _ => false⟩
    (∃ u, t.step (.acknowledge r) = some (some 0x28, u)) ∧
      (bootIdt addr 0x28).decode = some ⟨.interrupt, kernelCs, 0x00400B00, 0⟩ ∧
      (∃ u, t.step (.acknowledge gone) = some (some 0x27, u)) ∧
      (bootIdt addr 0x27).decode = none := by
  intro addr s es t r gone
  have hrtc : addr .rtcHandler ≠ 0 := by decide
  have hkey : addr .keyHandler ≠ 0 := by decide
  obtain ⟨os, hrun⟩ := run_final PicDriver.step s.boot es (by decide)
  have hes : ∀ e ∈ es, e.ByKernel := by simp [es, PicEvent.ByKernel]
  -- the RTC is masked twice, at the slave and at the cascade, and both are enabled
  have hu : t.step (.acknowledge r) =
      some (some 0x28, (t.step (.acknowledge r)).elim t Prod.snd) := by decide
  -- the keyboard has asked and is not there any more: level 7 of the master
  have hgone : t.step (.acknowledge gone) =
      some (some 0x27, (t.step (.acknowledge gone)).elim t Prod.snd) := by decide
  refine ⟨⟨_, hu⟩, ?_, ⟨_, hgone⟩, ?_⟩
  · obtain ⟨hreq, -⟩ | ⟨-, hgate⟩ | ⟨hv, -⟩ :=
      delivered_handled addr hrtc hkey s rfl rfl es hes os _ hrun _ _ _ hu
    · exact absurd hreq (by decide)
    · exact hgate
    · exact absurd hv (by decide)
  · obtain ⟨hreq, -⟩ | ⟨hreq, -⟩ | ⟨-, -, hgate⟩ :=
      delivered_handled addr hrtc hkey s rfl rfl es hes os _ hrun _ _ _ hgone
    · exact absurd hreq (by decide)
    · exact absurd hreq (by decide)
    · exact hgate

end LinuxBasedOs
