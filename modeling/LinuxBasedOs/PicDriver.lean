/-
LinuxBasedOs/PicDriver.lean

The driver of the interrupt controllers (i8259.c), over the controllers themselves.

The driver keeps a copy of each mask register, because it never reads one: `enable_irq`
and `disable_irq` change a bit of the copy and write all of it.  So the copies have to be
right from the start.  They are 0, like all of the BSS, and so are the mask registers, but
only because the first initialization word clears them.

* `masks_follow` — from power-on, through `i8259_init` and any calls and interrupts, a line
  is masked exactly if the last call that named it was `disable_irq`, and the copies agree
  with the controllers;
* `pics_follow` — the controllers, driven by the kernel's calls, do what the two flags
  and the flag of the slave in `Pics` do, on which the interrupt handlers were studied; the
  processor is given vector 0x21 or 0x28, or one of the two spurious vectors for a request
  that was withdrawn.
-/
import LinuxBasedOs.I8259
import LinuxBasedOs.Interrupts

namespace LinuxBasedOs

open I8259 Transition

/-! ### The driver -/

/-- The controllers, with `master_mask` and `slave_mask`. -/
structure PicDriver where
  pair : Pair
  masterMask : Byte
  slaveMask : Byte
  deriving DecidableEq

namespace PicDriver

/-- A byte goes to a port; other ports are not those of the controllers. -/
def outb (value : Byte) (port : Nat) (s : PicDriver) : PicDriver :=
  if port = 0x20 then { s with pair := { s.pair with master := s.pair.master.command value } }
  else if port = 0x21 then { s with pair := { s.pair with master := s.pair.master.data value } }
  else if port = 0xA0 then { s with pair := { s.pair with slave := s.pair.slave.command value } }
  else if port = 0xA1 then { s with pair := { s.pair with slave := s.pair.slave.data value } }
  else s

/-- `i8259_init`: four words to each controller. -/
def i8259Init (s : PicDriver) : PicDriver :=
  let s := outb 0x04 0x21 (outb 0x20 0x21 (outb 0x11 0x20 s))   -- ICW1 to ICW3 of the master
  let s := outb 0x01 0x21 s
  let s := outb 0x02 0xA1 (outb 0x28 0xA1 (outb 0x11 0xA0 s))   -- the same of the slave
  outb 0x01 0xA1 s

/-- `1 << irq_num`, as the processor shifts, cut to a byte. -/
def irqBit (irqNum : Nat) : Byte := BitVec.ofNat 8 (1 <<< (irqNum % 32))

/-- `enable_irq`. -/
def enableIrq (irqNum : Nat) (s : PicDriver) : PicDriver :=
  if irqNum < 8 then
    let value := s.masterMask &&& ~~~ irqBit irqNum
    outb value 0x21 { s with masterMask := value }
  else
    let value := s.slaveMask &&& ~~~ irqBit (irqNum - 8)
    outb value 0xA1 { s with slaveMask := value }

/-- `disable_irq`. -/
def disableIrq (irqNum : Nat) (s : PicDriver) : PicDriver :=
  if irqNum < 8 then
    let value := s.masterMask ||| irqBit irqNum
    outb value 0x21 { s with masterMask := value }
  else
    let value := s.slaveMask ||| irqBit (irqNum - 8)
    outb value 0xA1 { s with slaveMask := value }

/-- `send_eoi`. -/
def sendEoi (irqNum : Nat) (s : PicDriver) : PicDriver :=
  let s := if 8 ≤ irqNum then outb 0x20 0xA0 s else s
  outb 0x20 0x20 s

end PicDriver

/-- A call of the driver, or the processor acknowledges an interrupt while some lines ask
for one, and perhaps stop asking. -/
inductive PicEvent where
  | enableIrq (irqNum : Nat)
  | disableIrq (irqNum : Nat)
  | sendEoi (irqNum : Nat)
  | acknowledge (r : Requests)

/-- The vector, if there is one. -/
def PicDriver.step (s : PicDriver) : PicEvent → Option (Option Nat × PicDriver)
  | .enableIrq irqNum => some (none, s.enableIrq irqNum)
  | .disableIrq irqNum => some (none, s.disableIrq irqNum)
  | .sendEoi irqNum => some (none, s.sendEoi irqNum)
  | .acknowledge r =>
      (s.pair.acknowledge r).map fun answer => (some answer.1, { s with pair := answer.2 })

/-! ### Initialized controllers -/

/-- The controllers take masks, have the vectors from 0x20 and 0x28 on, and the slave is
connected to line 2; the copies are right. -/
structure PicDriver.Ok (s : PicDriver) : Prop where
  masterReady : s.pair.master.phase = .ready
  slaveReady : s.pair.slave.phase = .ready
  masterBase : s.pair.master.base = 0x20
  slaveBase : s.pair.slave.base = 0x28
  masterIcw3 : s.pair.master.icw3 = 0x04
  slaveIcw3 : s.pair.slave.icw3 = 0x02
  masterIcw4 : s.pair.master.icw4 = 0x01
  slaveIcw4 : s.pair.slave.icw4 = 0x01
  masterMask : s.pair.master.imr = s.masterMask
  slaveMask : s.pair.slave.imr = s.slaveMask

namespace PicDriver

/-- The driver's view of a line. -/
def enabled (s : PicDriver) (n : Nat) : Bool :=
  if n < 8 then !s.masterMask.getLsbD n else !s.slaveMask.getLsbD (n - 8)

theorem i8259Init_ok {s : PicDriver} (hmaster : s.masterMask = 0) (hslave : s.slaveMask = 0) :
    s.i8259Init.Ok where
  masterReady := rfl
  slaveReady := rfl
  masterBase := rfl
  slaveBase := rfl
  masterIcw3 := rfl
  slaveIcw3 := rfl
  masterIcw4 := rfl
  slaveIcw4 := rfl
  masterMask := hmaster.symm
  slaveMask := hslave.symm

theorem Ok.unmasked {s : PicDriver} (h : s.Ok) (n : Nat) : s.pair.unmasked n = s.enabled n := by
  rw [Pair.unmasked, enabled, h.masterMask, h.slaveMask]

/-- A mask that is written to a controller that is ready. -/
theorem Ok.outb_master {s : PicDriver} (h : s.Ok) (value : Byte) :
    outb value 0x21 { s with masterMask := value } =
      { s with
        pair := { s.pair with master := { s.pair.master with imr := value } }
        masterMask := value } := by
  simp [outb, Chip.data, h.masterReady]

theorem Ok.outb_slave {s : PicDriver} (h : s.Ok) (value : Byte) :
    outb value 0xA1 { s with slaveMask := value } =
      { s with
        pair := { s.pair with slave := { s.pair.slave with imr := value } }
        slaveMask := value } := by
  simp [outb, Chip.data, h.slaveReady]

theorem getLsbD_irqBit : ∀ n < 8, ∀ i < 8, (irqBit n).getLsbD i = decide (i = n) := by
  decide

/-- The driver has set the line `n` to `b`, and nothing else. -/
structure Sets (s : PicDriver) (n : Nat) (b : Bool) (t : PicDriver) : Prop where
  ok : t.Ok
  enabled : ∀ i < 16, t.enabled i = if i = n then b else s.enabled i
  service : t.pair.master.isr = s.pair.master.isr ∧ t.pair.slave.isr = s.pair.slave.isr

/-- What both calls do: write a copy with one bit changed. -/
theorem Ok.sets_master {s : PicDriver} (h : s.Ok) {n : Nat} {b : Bool} {value : Byte}
    (hn : n < 8) (hvalue : ∀ i < 8, value.getLsbD i = if i = n then !b else s.masterMask.getLsbD i) :
    s.Sets n b (outb value 0x21 { s with masterMask := value }) := by
  rw [h.outb_master]
  refine ⟨⟨h.masterReady, h.slaveReady, h.masterBase, h.slaveBase, h.masterIcw3, h.slaveIcw3,
    h.masterIcw4, h.slaveIcw4, rfl, h.slaveMask⟩, fun i _ => ?_, rfl, rfl⟩
  simp only [PicDriver.enabled]
  by_cases hi : i < 8
  · rw [if_pos hi, if_pos hi, hvalue i hi]
    split_ifs
    · exact Bool.not_not b
    · rfl
  · rw [if_neg hi, if_neg hi, if_neg (by omega)]

theorem Ok.sets_slave {s : PicDriver} (h : s.Ok) {n : Nat} {b : Bool} {value : Byte} (hn : 8 ≤ n)
    (hvalue : ∀ i < 8, value.getLsbD i = if i = n - 8 then !b else s.slaveMask.getLsbD i) :
    s.Sets n b (outb value 0xA1 { s with slaveMask := value }) := by
  rw [h.outb_slave]
  refine ⟨⟨h.masterReady, h.slaveReady, h.masterBase, h.slaveBase, h.masterIcw3, h.slaveIcw3,
    h.masterIcw4, h.slaveIcw4, h.masterMask, rfl⟩, fun i hi16 => ?_, rfl, rfl⟩
  simp only [PicDriver.enabled]
  by_cases hi : i < 8
  · rw [if_pos hi, if_pos hi, if_neg (by omega)]
  · rw [if_neg hi, if_neg hi, hvalue (i - 8) (by omega)]
    by_cases hin : i = n
    · rw [if_pos (by omega), if_pos hin, Bool.not_not]
    · rw [if_neg (by omega), if_neg hin]

theorem Ok.enableIrq {s : PicDriver} (h : s.Ok) {n : Nat} (hn : n < 16) :
    s.Sets n true (s.enableIrq n) := by
  have hclear (m : Byte) {k : Nat} (hk : k < 8) (i : Nat) (hi : i < 8) :
      (m &&& ~~~ irqBit k).getLsbD i = if i = k then !true else m.getLsbD i := by
    rw [BitVec.getLsbD_and, BitVec.getLsbD_not, getLsbD_irqBit k hk i hi]
    split_ifs with hik
    · simp [hik]
    · simp [hik, hi]
  unfold PicDriver.enableIrq
  split_ifs with h8
  · exact h.sets_master h8 (hclear s.masterMask h8)
  · exact h.sets_slave (by omega) (hclear s.slaveMask (by omega))

theorem Ok.disableIrq {s : PicDriver} (h : s.Ok) {n : Nat} (hn : n < 16) :
    s.Sets n false (s.disableIrq n) := by
  have hset (m : Byte) {k : Nat} (hk : k < 8) (i : Nat) (hi : i < 8) :
      (m ||| irqBit k).getLsbD i = if i = k then !false else m.getLsbD i := by
    rw [BitVec.getLsbD_or, getLsbD_irqBit k hk i hi]
    split_ifs with hik
    · simp [hik]
    · simp [hik]
  unfold PicDriver.disableIrq
  split_ifs with h8
  · exact h.sets_master h8 (hset s.masterMask h8)
  · exact h.sets_slave (by omega) (hset s.slaveMask (by omega))

/-- Neither commands nor acknowledged interrupts touch anything but what is in service. -/
structure ServiceOnly (s t : PicDriver) : Prop where
  master : ∃ isr, t.pair.master = { s.pair.master with isr := isr }
  slave : ∃ isr, t.pair.slave = { s.pair.slave with isr := isr }
  masks : t.masterMask = s.masterMask ∧ t.slaveMask = s.slaveMask

theorem Ok.of_serviceOnly {s t : PicDriver} (h : s.Ok) (ht : s.ServiceOnly t) : t.Ok := by
  obtain ⟨⟨isr, hmaster⟩, ⟨isr', hslave⟩, hm, hs⟩ := ht
  constructor
  all_goals first | rw [hmaster] | rw [hslave]
  all_goals first
    | exact h.masterReady | exact h.slaveReady | exact h.masterBase | exact h.slaveBase
    | exact h.masterIcw3 | exact h.slaveIcw3 | exact h.masterIcw4 | exact h.slaveIcw4
    | exact h.masterMask.trans hm.symm | exact h.slaveMask.trans hs.symm

theorem ServiceOnly.enabled {s t : PicDriver} (ht : s.ServiceOnly t) (n : Nat) :
    t.enabled n = s.enabled n := by
  rw [PicDriver.enabled, PicDriver.enabled, ht.masks.1, ht.masks.2]

theorem sendEoi_serviceOnly (s : PicDriver) (irqNum : Nat) : s.ServiceOnly (s.sendEoi irqNum) := by
  unfold PicDriver.sendEoi
  split_ifs
  · exact ⟨⟨_, rfl⟩, ⟨_, rfl⟩, rfl, rfl⟩
  · exact ⟨⟨_, rfl⟩, ⟨s.pair.slave.isr, rfl⟩, rfl, rfl⟩

theorem serve_eq (c : Chip) (i : Nat) : ∃ isr, c.serve i = { c with isr := isr } := by
  unfold Chip.serve
  split_ifs
  · exact ⟨c.isr, rfl⟩
  · exact ⟨_, rfl⟩

theorem acknowledge_serviceOnly {s : PicDriver} {r : Requests} {v : Nat} {q : Pair}
    (h : s.pair.acknowledge r = some (v, q)) : s.ServiceOnly { s with pair := q } := by
  have hslave : ∃ isr, s.pair.slave = { s.pair.slave with isr := isr } := ⟨s.pair.slave.isr, rfl⟩
  obtain ⟨i, -, -, -, -, -, rfl⟩ | ⟨i, -, j, -, -, -, -, -, -, rfl⟩ | ⟨-, -, rfl⟩ |
    ⟨i, -, -, -, -, -, rfl⟩ := Pair.acknowledge_cases h
  · exact ⟨serve_eq _ i, hslave, rfl, rfl⟩
  · exact ⟨serve_eq _ i, serve_eq _ j, rfl, rfl⟩
  · exact ⟨⟨s.pair.master.isr, rfl⟩, hslave, rfl, rfl⟩
  · exact ⟨serve_eq _ i, hslave, rfl, rfl⟩

end PicDriver

/-! ### Masks -/

/-- The lines are numbered from 0 to 15. -/
def PicEvent.Named : PicEvent → Prop
  | .enableIrq irqNum | .disableIrq irqNum => irqNum < 16
  | .sendEoi _ | .acknowledge _ => True

instance : (e : PicEvent) → Decidable e.Named
  | .enableIrq irqNum | .disableIrq irqNum => inferInstanceAs (Decidable (irqNum < 16))
  | .sendEoi _ | .acknowledge _ => isTrue trivial

/-- What the calls are for: a line is on or off. -/
def switched (on : Nat → Bool) : PicEvent → Nat → Bool
  | .enableIrq irqNum => Function.update on irqNum true
  | .disableIrq irqNum => Function.update on irqNum false
  | .sendEoi _ | .acknowledge _ => on

/-- One call switches the line that it names. -/
theorem PicDriver.Ok.step {s t : PicDriver} (h : s.Ok) {e : PicEvent} (he : e.Named)
    {on : Nat → Bool} (hon : ∀ n < 16, s.enabled n = on n) {o : Option Nat}
    (hs : s.step e = some (o, t)) : t.Ok ∧ ∀ n < 16, t.enabled n = switched on e n := by
  have hsets {n : Nat} {b : Bool} {u : PicDriver} (hu : s.Sets n b u) :
      u.Ok ∧ ∀ i < 16, u.enabled i = Function.update on n b i := by
    refine ⟨hu.ok, fun i hi => ?_⟩
    rw [hu.enabled i hi, Function.update_apply, hon i hi]
  have hservice {u : PicDriver} (hu : s.ServiceOnly u) : u.Ok ∧ ∀ i < 16, u.enabled i = on i :=
    ⟨h.of_serviceOnly hu, fun i hi => (hu.enabled i).trans (hon i hi)⟩
  cases e with
  | enableIrq irqNum =>
      obtain ⟨-, rfl⟩ := Prod.mk.inj (Option.some.inj hs)
      exact hsets (h.enableIrq he)
  | disableIrq irqNum =>
      obtain ⟨-, rfl⟩ := Prod.mk.inj (Option.some.inj hs)
      exact hsets (h.disableIrq he)
  | sendEoi irqNum =>
      obtain ⟨-, rfl⟩ := Prod.mk.inj (Option.some.inj hs)
      exact hservice (sendEoi_serviceOnly s irqNum)
  | acknowledge r =>
      obtain ⟨⟨v, q⟩, hq, hr⟩ := Option.map_eq_some_iff.mp hs
      obtain ⟨-, rfl⟩ := Prod.mk.inj hr
      exact hservice (acknowledge_serviceOnly hq)

/-- **The masks follow the calls.**  Whatever the controllers were at power-on, after
`i8259_init` with the copies 0 and any calls and interrupts, a line is open exactly if the
last call that named it has enabled it, or none has named it; and the copies are the
mask registers. -/
theorem masks_follow (s : PicDriver) (hmaster : s.masterMask = 0) (hslave : s.slaveMask = 0)
    (es : List PicEvent) (hes : ∀ e ∈ es, e.Named) (os : List (Option Nat)) (t : PicDriver)
    (hrun : run PicDriver.step s.i8259Init es = some (os, t)) :
    (∀ n < 16, t.pair.unmasked n = es.foldl switched (fun _ => true) n) ∧
      t.pair.master.imr = t.masterMask ∧ t.pair.slave.imr = t.slaveMask := by
  have hok := PicDriver.i8259Init_ok hmaster hslave
  have hon (n : Nat) (_ : n < 16) : s.i8259Init.enabled n = true := by
    have hcopies : s.i8259Init.masterMask = 0 ∧ s.i8259Init.slaveMask = 0 := ⟨hmaster, hslave⟩
    rw [PicDriver.enabled, hcopies.1, hcopies.2]
    simp
  obtain ⟨ht, henabled⟩ : t.Ok ∧ ∀ n < 16, t.enabled n = es.foldl switched (fun _ => true) n :=
    run_simulates (f := switched) (G := fun _ e => e.Named)
      (R := fun (u : PicDriver) on => u.Ok ∧ ∀ n < 16, u.enabled n = on n)
      (fun u on e o u' hu he hs => hu.1.step he hu.2 hs) ⟨hok, hon⟩
      (along_of_forall hes s.i8259Init) hrun
  refine ⟨fun n hn => ?_, ht.masterMask, ht.slaveMask⟩
  rw [ht.unmasked, henabled n hn]

/-- The controllers as they come up; line 1 is opened and closed, then line 9 and the RTC's
lines are closed, and line 8 opened again. -/
theorem masks_follow_lines :
    let s : PicDriver := ⟨⟨⟨.icw4, true, false, 8, 7, 7, 0xFF, 3⟩, ⟨.ready, true, true, 0, 0, 0, 0x55, 0⟩⟩,
      0, 0⟩
    let es : List PicEvent := [.enableIrq 1, .disableIrq 1, .disableIrq 9, .disableIrq 8,
      .disableIrq 2, .sendEoi 8, .enableIrq 8]
    let t := final PicDriver.step s.i8259Init es
    t.pair.master.imr = 0x06 ∧ t.pair.slave.imr = 0x02 ∧
      (∀ n < 16, t.pair.unmasked n = es.foldl switched (fun _ => true) n) := by
  intro s es t
  obtain ⟨os, hrun⟩ := run_final PicDriver.step s.i8259Init es (by decide)
  exact ⟨by decide, by decide, (masks_follow s rfl rfl es (by decide) os _ hrun).1⟩

/-! ### The kernel's calls -/

/-- The loop of `entry` that masks all lines. -/
def PicDriver.boot (s : PicDriver) : PicDriver := forLoop disableIrq 16 s.i8259Init

/-- What the kernel does afterwards: `key_open` and `rtc_open` open lines 1, 2 and 8, and
the two handlers send their commands. -/
def PicEvent.ByKernel : PicEvent → Prop
  | .enableIrq irqNum => irqNum = 1 ∨ irqNum = 2 ∨ irqNum = 8
  | .disableIrq _ => False
  | .sendEoi irqNum => irqNum = 1 ∨ irqNum = 8
  | .acknowledge _ => True

/-- The registers of what is in service, for the flags of `Pics`. -/
def Pics.masterIsr (p : Pics) : Byte :=
  (if p.keyboard then 0x02 else 0) ||| (if p.rtc then 0x04 else 0)

/-- The register of the slave, of which one line is in use. -/
def Pics.slaveIsr (p : Pics) : Byte := if p.slave then 0x01 else 0

/-- Only the lines of the keyboard and of the RTC are open, and only they are in service. -/
structure PicDriver.Serves (p : Pics) (s : PicDriver) : Prop where
  ok : s.Ok
  closed : ∀ n < 16, s.enabled n = true → n = 1 ∨ n = 2 ∨ n = 8
  master : s.pair.master.isr = p.masterIsr
  slave : s.pair.slave.isr = p.slaveIsr

theorem PicDriver.boot_serves {s : PicDriver} (hmaster : s.masterMask = 0)
    (hslave : s.slaveMask = 0) : s.boot.Serves .idle := by
  have hloop : s.boot.Ok ∧ (∀ n < 16, s.boot.enabled n = decide (16 ≤ n)) ∧
      s.boot.pair.master.isr = 0 ∧ s.boot.pair.slave.isr = 0 := by
    -- the lines below `k` are closed
    refine forLoop_invariant (P := fun (k : Nat) (u : PicDriver) => u.Ok ∧
      (∀ n < 16, u.enabled n = decide (k ≤ n)) ∧ u.pair.master.isr = 0 ∧ u.pair.slave.isr = 0)
      ⟨i8259Init_ok hmaster hslave, fun n _ => ?_, rfl, rfl⟩ fun k u hk hu => ?_
    · have hcopies : s.i8259Init.masterMask = 0 ∧ s.i8259Init.slaveMask = 0 := ⟨hmaster, hslave⟩
      rw [enabled, hcopies.1, hcopies.2]
      simp
    · have hsets := hu.1.disableIrq hk
      refine ⟨hsets.ok, fun n hn => ?_, hsets.service.1.trans hu.2.2.1,
        hsets.service.2.trans hu.2.2.2⟩
      rw [hsets.enabled n hn, hu.2.1 n hn]
      split_ifs with hnk
      · exact (decide_eq_false (by omega)).symm
      · exact decide_eq_decide.mpr (by omega)
  refine ⟨hloop.1, fun n hn hon => ?_, hloop.2.2.1, hloop.2.2.2⟩
  rw [hloop.2.1 n hn] at hon
  have := of_decide_eq_true hon
  omega

/-- The flags that an interrupt with the vector `v` sets.  The spurious vector of the slave
leaves the master with line 2 in service; that of the master is not in service at all. -/
def Pics.served (v : Nat) : Pics :=
  if v = 0x21 then ⟨true, false, false⟩
  else if v = 0x28 then ⟨false, true, true⟩
  else if v = 0x2F then ⟨false, true, false⟩
  else .idle

/-- The flags of both. -/
def Pics.join (p q : Pics) : Pics :=
  ⟨p.keyboard || q.keyboard, p.rtc || q.rtc, p.slave || q.slave⟩

/-- What an event does to the flags, when the processor is given the vector `o`. -/
def Pics.after (p : Pics) (e : PicEvent) (o : Option Nat) : Pics :=
  match e with
  | .enableIrq _ | .disableIrq _ => p
  | .sendEoi irqNum => if 8 ≤ irqNum then { p.retire with slave := false } else p.retire
  | .acknowledge _ => p.join (o.elim .idle Pics.served)

/-- Lines that come into service together are in one register. -/
theorem Pics.isr_join (p q : Pics) :
    (p.join q).masterIsr = p.masterIsr ||| q.masterIsr ∧
      (p.join q).slaveIsr = p.slaveIsr ||| q.slaveIsr := by
  have hflag (line : Byte) : ∀ a b : Bool, (if Bool.or a b then line else 0) =
      (if a then line else 0) ||| (if b then line else 0) := by
    simp
  constructor
  · show (if Bool.or p.keyboard q.keyboard then (0x02 : Byte) else 0) |||
      (if Bool.or p.rtc q.rtc then 0x04 else 0) = _
    rw [hflag, hflag, Pics.masterIsr, Pics.masterIsr]
    ac_rfl
  · exact hflag 0x01 p.slave q.slave

/-- An end-of-interrupt command retires the first line in service. -/
theorem Pics.masterIsr_retire (p : Pics) :
    p.masterIsr &&& (p.masterIsr - 1) = p.retire.masterIsr := by
  obtain ⟨keyboard, rtc, slave⟩ := p
  cases keyboard <;> cases rtc <;> cases slave <;> decide

theorem Pics.slaveIsr_retire (p : Pics) : p.slaveIsr &&& (p.slaveIsr - 1) = 0 := by
  obtain ⟨keyboard, rtc, slave⟩ := p
  cases keyboard <;> cases rtc <;> cases slave <;> decide

theorem Pics.slaveIsr_of_retire (p : Pics) : p.retire.slaveIsr = p.slaveIsr := by
  unfold Pics.retire
  split_ifs
  · rfl
  · rfl

/-- There is no automatic end of interrupt. -/
theorem serve_of_icw4 {c : Chip} (h : c.icw4 = 0x01) (i : Nat) :
    c.serve i = { c with isr := c.isr ||| (1#8 <<< i) } := by
  apply if_neg
  rw [h]
  decide

/-- The slave is connected to line 2. -/
theorem PicDriver.Ok.cascaded_iff {s : PicDriver} (h : s.Ok) :
    ∀ i < 8, (s.pair.cascaded i = true ↔ i = 2) := by
  have hlines : ∀ i < 8, (((0x04 : Byte).getLsbD i && ((0x02 : Byte) &&& 7).toNat == i) = true ↔ i = 2) := by
    decide
  intro i hi
  rw [Pair.cascaded, h.masterIcw3, h.slaveIcw3]
  exact hlines i hi

/-- The registers after an interrupt with the vector `v`. -/
structure PicDriver.Served (s : PicDriver) (v : Nat) (q : Pair) : Prop where
  master : q.master.isr = s.pair.master.isr ||| (Pics.served v).masterIsr
  slave : q.slave.isr = s.pair.slave.isr ||| (Pics.served v).slaveIsr

/-- **What the processor can be told**: vector 0x21, for line 1, or vector 0x28, for
line 8; or a spurious vector, after a request that was withdrawn. -/
theorem PicDriver.Serves.acknowledge {p : Pics} {s : PicDriver} (h : s.Serves p)
    {r : Requests} {v : Nat} {q : Pair} (hq : s.pair.acknowledge r = some (v, q)) :
    s.Served v q ∧ ((v = 0x21 ∧ r.first 1 = true) ∨ (v = 0x28 ∧ r.second 8 = true) ∨
      ((v = 0x27 ∨ v = 0x2F) ∧ ¬ r.Held)) := by
  have hzero (b : Byte) : b = b ||| 0 := by simp
  obtain ⟨i, hi, hcas, hreq, hopen, rfl, rfl⟩ | ⟨i, hi, j, hj, hcas, hreq, -, hopen, rfl, rfl⟩ |
    ⟨hheld, rfl, rfl⟩ | ⟨i, hi, hcas, hheld, -, rfl, rfl⟩ := Pair.acknowledge_cases hq
  · -- the master, and not through the cascade: only line 1 is open
    rw [h.ok.unmasked] at hopen
    have hne : i ≠ 2 := by
      rintro rfl
      rw [(h.ok.cascaded_iff 2 hi).mpr rfl] at hcas
      cases hcas
    obtain rfl : i = 1 := by
      have hi' := h.closed i (by omega) hopen
      omega
    rw [h.ok.masterBase, serve_of_icw4 h.ok.masterIcw4]
    exact ⟨⟨rfl, hzero _⟩, .inl ⟨rfl, hreq⟩⟩
  · -- through the cascade: of the lines of the slave only line 8 is open
    rw [h.ok.unmasked] at hopen
    obtain rfl : i = 2 := (h.ok.cascaded_iff i hi).mp hcas
    obtain rfl : j = 0 := by
      have hj' := h.closed (8 + j) (by omega) hopen
      omega
    rw [h.ok.slaveBase, serve_of_icw4 h.ok.masterIcw4, serve_of_icw4 h.ok.slaveIcw4]
    exact ⟨⟨rfl, rfl⟩, .inr (.inl ⟨rfl, hreq⟩)⟩
  · -- nothing is left to serve, at the master or behind the cascade
    rw [h.ok.masterBase]
    exact ⟨⟨hzero _, hzero _⟩, .inr (.inr ⟨.inl rfl, hheld⟩)⟩
  · obtain rfl : i = 2 := (h.ok.cascaded_iff i hi).mp hcas
    rw [h.ok.slaveBase, serve_of_icw4 h.ok.masterIcw4]
    exact ⟨⟨rfl, hzero _⟩, .inr (.inr ⟨.inr rfl, hheld⟩)⟩

/-- **One event**, on the controllers and on the flags. -/
theorem PicDriver.Serves.step {p : Pics} {s t : PicDriver} (h : s.Serves p) {e : PicEvent}
    (he : e.ByKernel) {o : Option Nat} (hs : s.step e = some (o, t)) : t.Serves (p.after e o) := by
  cases e with
  | enableIrq irqNum =>
      obtain ⟨-, rfl⟩ := Prod.mk.inj (Option.some.inj hs)
      have hlines : irqNum = 1 ∨ irqNum = 2 ∨ irqNum = 8 := he
      have hsets := h.ok.enableIrq (n := irqNum) (by omega)
      refine ⟨hsets.ok, fun n hn hon => ?_, hsets.service.1.trans h.master,
        hsets.service.2.trans h.slave⟩
      rw [hsets.enabled n hn] at hon
      split_ifs at hon with hirq
      · omega
      · exact h.closed n hn hon
  -- nothing calls `disable_irq`
  | disableIrq irqNum => exact absurd he id
  | sendEoi irqNum =>
      obtain ⟨-, rfl⟩ := Prod.mk.inj (Option.some.inj hs)
      have hservice := sendEoi_serviceOnly s irqNum
      refine ⟨h.ok.of_serviceOnly hservice, fun n hn hon => ?_, ?_, ?_⟩
      · rw [hservice.enabled n] at hon
        exact h.closed n hn hon
      · -- both branches of `send_eoi` end with the command to the master
        have hmaster : (s.sendEoi irqNum).pair.master.isr =
            s.pair.master.isr &&& (s.pair.master.isr - 1) := by
          unfold PicDriver.sendEoi
          split_ifs
          · rfl
          · rfl
        rw [hmaster, h.master, Pics.masterIsr_retire]
        simp only [Pics.after]
        split_ifs
        · rfl
        · rfl
      · simp only [Pics.after]
        -- an EOI for line 1 leaves the slave alone
        rcases (he : irqNum = 1 ∨ irqNum = 8) with rfl | rfl
        · exact h.slave.trans p.slaveIsr_of_retire.symm
        · show s.pair.slave.isr &&& (s.pair.slave.isr - 1) = _
          rw [h.slave, Pics.slaveIsr_retire]
          rfl
  | acknowledge r =>
      obtain ⟨⟨v, q⟩, hq, hr⟩ := Option.map_eq_some_iff.mp hs
      obtain ⟨rfl, rfl⟩ := Prod.mk.inj hr
      have hservice := acknowledge_serviceOnly hq
      have hserved := (h.acknowledge hq).1
      have hjoin := p.isr_join (Pics.served v)
      refine ⟨h.ok.of_serviceOnly hservice, fun n hn hon => ?_, ?_, ?_⟩
      · rw [hservice.enabled n] at hon
        exact h.closed n hn hon
      · exact hserved.master.trans (h.master ▸ hjoin.1.symm)
      · exact hserved.slave.trans (h.slave ▸ hjoin.2.symm)

theorem PicDriver.Serves.run {s t : PicDriver} {p : Pics} (h : s.Serves p) {es : List PicEvent}
    (hes : ∀ e ∈ es, e.ByKernel) {os : List (Option Nat)}
    (hrun : Transition.run PicDriver.step s es = some (os, t)) : ∃ p', t.Serves p' :=
  run_invariant (I := fun u : PicDriver => ∃ p', u.Serves p') (G := fun _ e => e.ByKernel)
    (fun _ _ _ _ hu he hs => ⟨_, hu.choose_spec.step he hs⟩) ⟨p, h⟩ (along_of_forall hes s) hrun

/-- The flags that the registers of what is in service stand for. -/
def PicDriver.pics (s : PicDriver) : Pics :=
  ⟨s.pair.master.isr.getLsbD 1, s.pair.master.isr.getLsbD 2, s.pair.slave.isr.getLsbD 0⟩

theorem PicDriver.Serves.pics_eq {p : Pics} {s : PicDriver} (h : s.Serves p) : s.pics = p := by
  have hbits : ∀ p : Pics, (⟨p.masterIsr.getLsbD 1, p.masterIsr.getLsbD 2, p.slaveIsr.getLsbD 0⟩ :
      Pics) = p := by
    rintro ⟨keyboard, rtc, slave⟩
    cases keyboard <;> cases rtc <;> cases slave <;> decide
  rw [PicDriver.pics, h.master, h.slave, hbits]

/-- **The controllers are `Pics`.**  In every state that they can get into under the
kernel, whatever lines ask for interrupts and when, an event does to the registers of what
is in service what it does to the flags: an acknowledged interrupt is one of the keyboard
or of the RTC and sets its flags, and the commands that `send_eoi` writes to the ports
retire what `Pics.retire` says.  If the line that asked has stopped asking, the vector may
also be that of line 7 or of line 15. -/
theorem pics_follow (s : PicDriver) (hmaster : s.masterMask = 0) (hslave : s.slaveMask = 0)
    (es : List PicEvent) (hes : ∀ e ∈ es, e.ByKernel) (os : List (Option Nat)) (t : PicDriver)
    (hrun : run PicDriver.step s.boot es = some (os, t)) (e : PicEvent) (he : e.ByKernel)
    (o : Option Nat) (u : PicDriver) (hu : t.step e = some (o, u)) :
    u.pics = t.pics.after e o ∧
      ∀ v, o = some v → v = 0x21 ∨ v = 0x28 ∨
        ((v = 0x27 ∨ v = 0x2F) ∧ ∃ r, e = .acknowledge r ∧ ¬ r.Held) := by
  obtain ⟨p, ht⟩ := (PicDriver.boot_serves hmaster hslave).run hes hrun
  refine ⟨?_, fun v hv => ?_⟩
  · rw [(ht.step he hu).pics_eq, ht.pics_eq]
  · subst hv
    cases e with
    | enableIrq irqNum => cases (Prod.mk.inj (Option.some.inj hu)).1
    | disableIrq irqNum => cases (Prod.mk.inj (Option.some.inj hu)).1
    | sendEoi irqNum => cases (Prod.mk.inj (Option.some.inj hu)).1
    | acknowledge r =>
        obtain ⟨⟨v', q⟩, hq, hr⟩ := Option.map_eq_some_iff.mp hu
        obtain rfl := Option.some.inj (Prod.mk.inj hr).1
        obtain ⟨hv, -⟩ | ⟨hv, -⟩ | ⟨hv, hheld⟩ := (ht.acknowledge hq).2
        · exact .inl hv
        · exact .inr (.inl hv)
        · exact .inr (.inr ⟨hv, r, rfl, hheld⟩)

/-- The RTC is in service and the keyboard interrupts it; the first command is the
keyboard's.  If the RTC asks again later and stops before the second cycle, the vector is
0x2F, and the master waits for a command for line 2. -/
theorem pics_follow_nested :
    let s : PicDriver := ⟨⟨⟨.icw4, true, false, 8, 7, 7, 0xFF, 3⟩, ⟨.ready, true, true, 0, 0, 0, 0x55, 0⟩⟩,
      0, 0⟩
    let es : List PicEvent := [.enableIrq 1, .enableIrq 2, .enableIrq 8,
      .acknowledge (.steady fun n => n = 8 ∨ n = 0), .acknowledge (.steady fun n => n = 1 ∨ n = 8)]
    let t := final PicDriver.step s.boot es
    let es' : List PicEvent := es ++ [.sendEoi 1, .sendEoi 8]
    let t' := final PicDriver.step s.boot es'
    let gone : PicEvent := .acknowledge ⟨fun n => n = 8, fun n => n = 8, fun _ => false⟩
    t.pics = ⟨true, true, true⟩ ∧ (t.sendEoi 1).pics = t.pics.after (.sendEoi 1) none ∧
      (t.sendEoi 1).pics = ⟨false, true, true⟩ ∧
      ∃ u, t'.step gone = some (some 0x2F, u) ∧ u.pics = t'.pics.after gone (some 0x2F) ∧
        u.pics = ⟨false, true, false⟩ := by
  intro s es t es' t' gone
  obtain ⟨os, hrun⟩ := run_final PicDriver.step s.boot es (by decide)
  obtain ⟨os', hrun'⟩ := run_final PicDriver.step s.boot es' (by decide)
  have hes : ∀ e ∈ es, e.ByKernel := by simp [es, PicEvent.ByKernel]
  have hes' : ∀ e ∈ es', e.ByKernel := by simp [es', es, PicEvent.ByKernel]
  have hu : t'.step gone = some (some 0x2F, (t'.step gone).elim t' Prod.snd) := by decide
  exact ⟨by decide, (pics_follow s rfl rfl es hes os _ hrun (.sendEoi 1) (.inl rfl) _ _ rfl).1,
    by decide, _, hu, (pics_follow s rfl rfl es' hes' os' _ hrun' gone trivial _ _ hu).1, by decide⟩

end LinuxBasedOs
