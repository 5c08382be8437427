/-
LinuxBasedOs/Interrupts.lean

The processor with its interrupt flag, the two interrupt controllers, and the handlers of
the keyboard and of the RTC, instruction by instruction, over a process that calls
`rtc_read`.

Both handlers are entered through interrupt gates, which clear the flag, and end with
`sti`, so that another interrupt can be taken before the first one has returned: handlers
nest, and the ones that have not returned form a stack.  An interrupt can be taken whenever
the flag is set, whatever the controllers hold back (`Machine.Orderly.idle` shows that they never
have to).  An end-of-interrupt command is not addressed to an interrupt: it retires the one
of highest priority that is in service, or none.  The log records what each command
retired.

Main results, for every interleaving:

* every command retires the interrupt whose handler sent it, and when all handlers have
  returned there were as many commands as interrupts, exactly if no scancode was that of a
  modifier or of a released key, for which `key_handler` sends two (`acknowledged_iff`);
* no two returns of `rtc_read` are without a tick of the clock between them
  (`reads_served`).
-/
import LinuxBasedOs.Drivers

namespace LinuxBasedOs

open Transition

/-! ### The handlers -/

/-- The devices that interrupt. -/
inductive Irq where
  | keyboard
  | rtc
  deriving DecidableEq

/-- The instructions of the handlers; the ones that touch neither the flag nor the
controllers are taken together. -/
inductive Instr where
  | cli
  | sti
  | popf                              -- of the linkage: the flags pushed on entry
  | iret
  | eoiSlave                          -- `outb(EOI, SLAVE_8259_PORT)`
  | eoiMaster                         -- `outb(EOI, MASTER_8259_PORT)`
  | keyDecide (input : UInt8)         -- `key_handler` up to the first branch on the kind of code
  | keyAct (input symbol : UInt8)     -- its two other branches
  | rtcFlag                           -- `rtc_interrupt = 1`
  deriving DecidableEq

/-- `send_eoi`: a line of the slave takes two commands. -/
def sendEoi (irqNum : Nat) : List Instr :=
  if 8 ≤ irqNum then [.eoiSlave, .eoiMaster] else [.eoiMaster]

/-- How both handlers end: `sti`, and the linkage in exceptions.S. -/
def leave : List Instr := [.sti, .popf, .iret]

/-- `KEY_HANDLER`. -/
def keyHandlerCode (input : UInt8) : List Instr := .cli :: .keyDecide input :: (sendEoi 1 ++ leave)

/-- `RTC_HANDLER`. -/
def rtcHandlerCode : List Instr := .cli :: .rtcFlag :: (sendEoi 8 ++ leave)

/-- The branches of `key_handler` for a key that is pressed and no modifier. -/
def Console.actOn (input symbol : UInt8) (c : Console) : Console :=
  if symbol = 8 then c.backspace
  else if symbol = 10 then
    Console.processToBuffer input { c with kbd := { c.kbd with enterFlag := 1 } }
  else Console.processToBuffer input c

/-! ### The machine -/

/-- Where a process is in `rtc_open` or `rtc_read`. -/
inductive Proc where
  | user
  | openSti         -- the `sti` at the end of `rtc_open`
  | readCli
  | readTest        -- `if (rtc_interrupt)`
  | readClear       -- `rtc_interrupt = 0`
  | readReturn      -- after `break`: interrupts are still off
  | readSti
  deriving DecidableEq

/-- What is recorded. -/
inductive LogEntry where
  | key (input : UInt8)                           -- a keyboard interrupt is taken
  | rtc                                           -- an RTC interrupt is taken
  | slave (sender : Irq) (retired : Bool)         -- a command to the slave
  | master (sender : Irq) (retired : Option Irq)  -- a command to the master
  | returned                                      -- `rtc_read` returns
  deriving DecidableEq

/-- A handler that has not returned: what it has still to do. -/
structure HandlerFrame where
  irq : Irq
  code : List Instr

/-- The interrupts in service: at the master the keyboard (IRQ 1) before the RTC, which
comes in through the slave (IRQ 2), and at the slave the RTC (IRQ 8). -/
structure Pics where
  keyboard : Bool
  rtc : Bool
  slave : Bool
  deriving DecidableEq

/-- Nothing is in service. -/
def Pics.idle : Pics := ⟨false, false, false⟩

/-- The interrupt in service of highest priority. -/
def Pics.highest (p : Pics) : Option Irq :=
  if p.keyboard then some .keyboard else if p.rtc then some .rtc else none

/-- A command retires it. -/
def Pics.retire (p : Pics) : Pics :=
  if p.keyboard then { p with keyboard := false } else { p with rtc := false }

/-- The log has its newest entry first. -/
structure Machine where
  ifFlag : Bool
  frames : List HandlerFrame
  pics : Pics
  console : Console
  rtc : Rtc
  proc : Proc
  log : List LogEntry

/-- What can happen next. -/
inductive MachineEvent where
  | key (input : UInt8)     -- a keyboard interrupt, with the code in the data port
  | rtc                     -- an RTC interrupt
  | step                    -- the next instruction of the handler or the process that runs
  | call                    -- the process calls `rtc_read`
  | flags (b : Bool)        -- the process changes the flag: on return from a system call, or in another one

namespace Machine

/-- A command to the master, sent by the handler of `sender`. -/
def eoiMaster (sender : Irq) (s : Machine) : Machine :=
  { s with
    pics := s.pics.retire
    log := .master sender s.pics.highest :: s.log
    console := if sender = .keyboard then { s.console with kbd := s.console.kbd.sendEoi }
      else s.console }

/-- The slave retires what it has in service, if anything. -/
def eoiSlave (sender : Irq) (s : Machine) : Machine :=
  { s with pics := { s.pics with slave := false }, log := .slave sender s.pics.slave :: s.log }

/-- An instruction of a handler: what it does, and the instructions it branches to. -/
def exec (sender : Irq) (s : Machine) : Instr → List Instr × Machine
  | .cli => ([], { s with ifFlag := false })
  | .sti => ([], { s with ifFlag := true })
  | .popf => ([], { s with ifFlag := false })
  | .iret => ([], s)
  | .eoiSlave => ([], s.eoiSlave sender)
  | .eoiMaster => ([], s.eoiMaster sender)
  | .keyDecide input =>
      let k := s.console.kbd.updateModes input
      (if input ≥ 0x80 ∨ k.modeFlag ≠ 0 then sendEoi 1 ++ [.sti]
        else [.keyAct input (keyArray s.console.kbd.dict input)],
       { s with console := { s.console with kbd := k } })
  | .keyAct input symbol => ([], { s with console := s.console.actOn input symbol })
  | .rtcFlag => ([], { s with rtc := { s.rtc with rtcInterrupt := 1 } })

/-- The next instruction of the innermost handler.  `iret` restores the flag, which was set
when the interrupt was taken. -/
def stepHandler (s : Machine) (f : HandlerFrame) (fs : List HandlerFrame) : Option Machine :=
  match f.code with
  | [] => none
  | [.iret] => some { s with ifFlag := true, frames := fs }
  | i :: rest =>
      let r := s.exec f.irq i
      some { r.2 with frames := ⟨f.irq, r.1 ++ rest⟩ :: fs }

/-- The next instruction of the process. -/
def stepProc (s : Machine) : Option Machine :=
  match s.proc with
  | .user => none
  | .openSti => some { s with ifFlag := true, proc := .user }
  | .readCli => some { s with ifFlag := false, proc := .readTest }
  | .readTest => some { s with proc := if s.rtc.rtcInterrupt ≠ 0 then .readClear else .readSti }
  | .readClear => some { s with rtc := { s.rtc with rtcInterrupt := 0 }, proc := .readReturn }
  | .readReturn => some { s with log := .returned :: s.log, proc := .user }
  | .readSti => some { s with ifFlag := true, proc := .readCli }

/-- An interrupt is taken: the gate clears the flag. -/
def enter (s : Machine) (irq : Irq) (code : List Instr) (pics : Pics) (entry : LogEntry) : Machine :=
  { s with ifFlag := false, frames := ⟨irq, code⟩ :: s.frames, pics := pics, log := entry :: s.log }

/-- The event, if it can happen: an interrupt needs the flag, a step some code. -/
def next (s : Machine) : MachineEvent → Option Machine
  | .key input =>
      if s.ifFlag then
        some (s.enter .keyboard (keyHandlerCode input) { s.pics with keyboard := true } (.key input))
      else none
  | .rtc =>
      if s.ifFlag then
        some (s.enter .rtc rtcHandlerCode { s.pics with rtc := true, slave := true } .rtc)
      else none
  | .step =>
      match s.frames with
      | [] => s.stepProc
      | f :: fs => s.stepHandler f fs
  | .call => if s.frames = [] ∧ s.proc = .user then some { s with proc := .readCli } else none
  | .flags b => if s.frames = [] ∧ s.proc = .user then some { s with ifFlag := b } else none

/-- The same, for runs. -/
def step (s : Machine) (e : MachineEvent) : Option (Unit × Machine) := (s.next e).map fun t => ((), t)

theorem step_eq_some {s t : Machine} {e : MachineEvent} {o : Unit} :
    s.step e = some (o, t) ↔ s.next e = some t := by
  simp [step]

/-- Nothing has happened yet: no handler runs, and no interrupt is in service. -/
structure Quiet (s : Machine) : Prop where
  frames : s.frames = []
  pics : s.pics = .idle
  log : s.log = []

/-! ### What a step can do -/

/-- After the instruction `i` of the handler `f`. -/
def afterExec (s : Machine) (f : HandlerFrame) (fs : List HandlerFrame) (i : Instr)
    (rest : List Instr) : Machine :=
  { (s.exec f.irq i).2 with frames := ⟨f.irq, (s.exec f.irq i).1 ++ rest⟩ :: fs }

theorem stepHandler_exec {s : Machine} {f : HandlerFrame} {fs : List HandlerFrame} {i : Instr}
    {rest : List Instr} (hc : f.code = i :: rest) (hi : i :: rest ≠ [.iret]) :
    s.stepHandler f fs = some (s.afterExec f fs i rest) := by
  unfold stepHandler
  rw [hc]
  split
  · contradiction
  · contradiction
  · rename_i heq
    obtain ⟨rfl, rfl⟩ := List.cons.inj heq
    rfl

/-- Every step: an interrupt is taken, the innermost handler executes an instruction or
returns, or the process does something. -/
inductive Steps (s : Machine) : MachineEvent → Machine → Prop
  | key (input : UInt8) (hif : s.ifFlag = true) :
      Steps s (.key input)
        (s.enter .keyboard (keyHandlerCode input) { s.pics with keyboard := true } (.key input))
  | rtc (hif : s.ifFlag = true) :
      Steps s .rtc (s.enter .rtc rtcHandlerCode { s.pics with rtc := true, slave := true } .rtc)
  | exec {f : HandlerFrame} {fs : List HandlerFrame} {i : Instr} {rest : List Instr} (hf : s.frames = f :: fs)
      (hc : f.code = i :: rest) (hi : i :: rest ≠ [.iret]) : Steps s .step (s.afterExec f fs i rest)
  | iret {f : HandlerFrame} {fs : List HandlerFrame} (hf : s.frames = f :: fs) (hc : f.code = [.iret]) :
      Steps s .step { s with ifFlag := true, frames := fs }
  | proc {t : Machine} (hf : s.frames = []) (h : s.stepProc = some t) : Steps s .step t
  | call (hf : s.frames = []) (hp : s.proc = .user) : Steps s .call { s with proc := .readCli }
  | flags (b : Bool) (hf : s.frames = []) (hp : s.proc = .user) :
      Steps s (.flags b) { s with ifFlag := b }

theorem next_steps {s t : Machine} {e : MachineEvent} (h : s.next e = some t) : s.Steps e t := by
  cases e with
  | key input =>
      simp only [next, Option.ite_none_right_eq_some] at h
      obtain rfl := Option.some.inj h.2
      exact .key input h.1
  | rtc =>
      simp only [next, Option.ite_none_right_eq_some] at h
      obtain rfl := Option.some.inj h.2
      exact .rtc h.1
  | step =>
      -- a handler goes before the process that it has interrupted
      rcases hf : s.frames with - | ⟨f, fs⟩
      · simp only [next, hf] at h
        exact .proc hf h
      · simp only [next, hf] at h
        rcases hc : f.code with - | ⟨i, rest⟩
        · simp [stepHandler, hc] at h
        · -- IRET is the only instruction that takes the frame away
          by_cases hi : i :: rest = [.iret]
          · rw [hi] at hc
            simp only [stepHandler, hc] at h
            obtain rfl := Option.some.inj h
            exact .iret hf hc
          · rw [stepHandler_exec hc hi] at h
            obtain rfl := Option.some.inj h
            exact .exec hf hc hi
  | call =>
      simp only [next, Option.ite_none_right_eq_some] at h
      obtain rfl := Option.some.inj h.2
      exact .call h.1.1 h.1.2
  | flags b =>
      simp only [next, Option.ite_none_right_eq_some] at h
      obtain rfl := Option.some.inj h.2
      exact .flags b h.1.1 h.1.2

/-- What every step preserves, every run preserves. -/
theorem run_preserves {I : Machine → Prop} {G : MachineEvent → Prop}
    (hstep : ∀ {s t : Machine} {e : MachineEvent}, I s → G e → s.Steps e t → I t) {s t : Machine}
    {es : List MachineEvent} {os : List Unit} (hs : I s) (hG : ∀ e ∈ es, G e)
    (hr : run step s es = some (os, t)) : I t := by
  refine run_invariant (I := I) (fun s e o t hs hG hst => ?_) hs (along_of_forall hG s) hr
  rw [step_eq_some] at hst
  exact hstep hs hG (next_steps hst)

theorem run_next {s t u : Machine} {e : MachineEvent} {es : List MachineEvent} {os : List Unit}
    (hn : s.next e = some u) (hr : run step u es = some (os, t)) :
    run step s (e :: es) = some (() :: os, t) :=
  run_cons_eq_some.mpr ⟨(), u, os, step_eq_some.mpr hn, hr, rfl⟩

/-- **A handler that is not interrupted** does what `Console.keyHandler` says, and nothing
else. -/
theorem keyHandler_uninterrupted {s : Machine} (hif : s.ifFlag = true) (input : UInt8) :
    ∃ n os t, run step s (.key input :: List.replicate n .step) = some (os, t) ∧
      t.console = s.console.keyHandler input ∧ t.frames = s.frames ∧ t.ifFlag = true ∧
      t.rtc = s.rtc ∧ t.proc = s.proc := by
  let k := s.console.kbd.updateModes input
  let symbol := keyArray s.console.kbd.dict input
  let cond := input ≥ 0x80 ∨ k.modeFlag ≠ 0
  let entered := s.enter .keyboard (keyHandlerCode input) { s.pics with keyboard := true } (.key input)
  -- after the branch, with the instructions `code` to come
  let decided (code : List Instr) : Machine :=
    { entered with console := { s.console with kbd := k }, frames := ⟨.keyboard, code⟩ :: s.frames }
  have hdecide : ∀ branch, (if cond then sendEoi 1 ++ [.sti] else [.keyAct input symbol]) = branch →
      { entered with frames := ⟨.keyboard, .keyDecide input :: (sendEoi 1 ++ leave)⟩ :: s.frames }.next
        .step = some (decided (branch ++ (sendEoi 1 ++ leave))) := by
    rintro branch rfl
    rfl
  have hhandler : s.console.keyHandler input =
      let c := Console.handleSymbol input symbol { s.console with kbd := k }
      { c with kbd := c.kbd.sendEoi } := rfl
  by_cases h : cond
  · refine ⟨8, _, _, run_next (if_pos hif) (run_next rfl (run_next (hdecide _ (if_pos h)) (run_next rfl
      (run_next rfl (run_next rfl (run_next rfl (run_next rfl (run_next rfl rfl)))))))), ?_⟩
    rw [hhandler, Console.handleSymbol, if_pos h]
    exact ⟨rfl, rfl, rfl, rfl, rfl⟩
  · refine ⟨7, _, _, run_next (if_pos hif) (run_next rfl (run_next (hdecide _ (if_neg h)) (run_next rfl
      (run_next rfl (run_next rfl (run_next rfl (run_next rfl rfl))))))), ?_⟩
    rw [hhandler, Console.handleSymbol, if_neg h]
    exact ⟨rfl, rfl, rfl, rfl, rfl⟩

/-! ### Counting the commands -/

/-- The codes for which `key_handler` takes its first branch. -/
def Extra (input : UInt8) : Prop := input ≥ 0x80 ∨ Keyboard.IsModifier input

instance (input : UInt8) : Decidable (Extra input) := inferInstanceAs (Decidable (_ ∨ _))

/-- The commands to the master that an instruction leads to. -/
def masters : Instr → Nat
  | .eoiMaster => 1
  | .keyDecide input => if Extra input then 1 else 0
  | _ => 0

/-- The commands to the slave. -/
def slaves : Instr → Nat
  | .eoiSlave => 1
  | _ => 0

/-- The commands still to come from the handlers that have not returned. -/
def pending (count : Instr → Nat) (fs : List HandlerFrame) : Nat :=
  (fs.map fun f => (f.code.map count).sum).sum

/-- The commands to the master in the log. -/
def masterCount (log : List LogEntry) : Nat :=
  log.countP fun | .master _ _ => true | _ => false

/-- The commands to the slave. -/
def slaveCount (log : List LogEntry) : Nat :=
  log.countP fun | .slave _ _ => true | _ => false

/-- The interrupts of the keyboard. -/
def keyCount (log : List LogEntry) : Nat :=
  log.countP fun | .key _ => true | _ => false

/-- The interrupts of the RTC. -/
def rtcCount (log : List LogEntry) : Nat :=
  log.countP fun | .rtc => true | _ => false

/-- The interrupts for which `key_handler` sends a command too many. -/
def extraCount (log : List LogEntry) : Nat :=
  log.countP fun | .key input => decide (Extra input) | _ => false

/-- **The balance.**  The commands sent and those to come are as many as the interrupts
taken, and one more for each code of the first branch. -/
structure Balanced (s : Machine) : Prop where
  master : masterCount s.log + pending masters s.frames =
    keyCount s.log + rtcCount s.log + extraCount s.log
  slave : slaveCount s.log + pending slaves s.frames = rtcCount s.log

/-- An instruction sends what it leads to, or leaves it to the instructions it branches to. -/
theorem exec_commands (sender : Irq) (s : Machine) (i : Instr) :
    masterCount (s.exec sender i).2.log + ((s.exec sender i).1.map masters).sum =
        masterCount s.log + masters i ∧
      slaveCount (s.exec sender i).2.log + ((s.exec sender i).1.map slaves).sum =
        slaveCount s.log + slaves i := by
  cases i with
  | keyDecide input =>
      have hmode := Keyboard.updateModes_modeFlag input s.console.kbd
      by_cases h : Extra input
      · have hcond : input ≥ 0x80 ∨ (s.console.kbd.updateModes input).modeFlag ≠ 0 := by
          rw [hmode]
          exact h
        simp only [exec, if_pos hcond, masters, if_pos h]
        exact ⟨rfl, rfl⟩
      · have hcond : ¬ (input ≥ 0x80 ∨ (s.console.kbd.updateModes input).modeFlag ≠ 0) := by
          rw [hmode]
          exact h
        simp only [exec, if_neg hcond, masters, if_neg h]
        exact ⟨rfl, rfl⟩
  | eoiMaster => exact ⟨by simp [exec, Machine.eoiMaster, masterCount, masters], rfl⟩
  | eoiSlave => exact ⟨rfl, by simp [exec, Machine.eoiSlave, slaveCount, slaves]⟩
  | _ => exact ⟨rfl, rfl⟩

/-- Instructions take no interrupts. -/
theorem exec_taken (sender : Irq) (s : Machine) (i : Instr) :
    keyCount (s.exec sender i).2.log = keyCount s.log ∧
      rtcCount (s.exec sender i).2.log = rtcCount s.log ∧
      extraCount (s.exec sender i).2.log = extraCount s.log := by
  cases i <;> exact ⟨rfl, rfl, rfl⟩

/-- Nor does the process, and it sends no commands. -/
theorem stepProc_log {s t : Machine} (h : s.stepProc = some t) :
    t.log = s.log ∨ s.proc = .readReturn ∧ t.log = .returned :: s.log := by
  unfold stepProc at h
  split at h
  case h_1 => cases h
  case h_6 hp =>
    obtain rfl := Option.some.inj h
    exact .inr ⟨hp, rfl⟩
  all_goals
    obtain rfl := Option.some.inj h
    exact .inl rfl

theorem stepProc_frames {s t : Machine} (h : s.stepProc = some t) :
    t.frames = s.frames ∧ t.pics = s.pics := by
  unfold stepProc at h
  split at h
  case h_1 => cases h
  all_goals
    obtain rfl := Option.some.inj h
    exact ⟨rfl, rfl⟩

theorem Quiet.balanced {s : Machine} (h : s.Quiet) : s.Balanced := by
  constructor <;> rw [h.log, h.frames] <;> rfl

theorem sum_keyHandlerCode (input : UInt8) :
    ((keyHandlerCode input).map masters).sum = (if Extra input then 1 else 0) + 1 := by
  simp [keyHandlerCode, sendEoi, leave, masters]

theorem Balanced.steps {s t : Machine} {e : MachineEvent} (h : s.Balanced) (hst : s.Steps e t) :
    t.Balanced := by
  obtain ⟨hm, hs⟩ := h
  cases hst with
  | key input _ =>
      constructor
      · show masterCount s.log + (((keyHandlerCode input).map masters).sum + pending masters s.frames) =
          _
        simp only [enter, keyCount, rtcCount, extraCount, List.countP_cons] at *
        rw [sum_keyHandlerCode]
        simp only [decide_eq_true_eq, if_true, Bool.false_eq_true, if_false]
        omega
      · exact (congrArg _ (Nat.zero_add _)).trans hs
  | rtc _ =>
      constructor
      · show masterCount s.log + (1 + pending masters s.frames) = keyCount s.log +
          rtcCount (.rtc :: s.log) + extraCount s.log
        have hcount : rtcCount (.rtc :: s.log) = rtcCount s.log + 1 := List.countP_cons_of_pos rfl
        omega
      · show slaveCount s.log + (1 + pending slaves s.frames) = rtcCount (.rtc :: s.log)
        have hcount : rtcCount (.rtc :: s.log) = rtcCount s.log + 1 := List.countP_cons_of_pos rfl
        omega
  | exec hf hc hi =>
      rename_i f fs i rest
      obtain ⟨hcm, hcs⟩ := exec_commands f.irq s i
      obtain ⟨hk, hr, hx⟩ := exec_taken f.irq s i
      rw [hf] at hm hs
      simp only [pending, List.map_cons, List.sum_cons, hc] at hm hs
      constructor
      · simp only [afterExec, pending, List.map_cons, List.map_append, List.sum_cons, List.sum_append,
          hk, hr, hx]
        omega
      · simp only [afterExec, pending, List.map_cons, List.map_append, List.sum_cons, List.sum_append,
          hr]
        omega
  | iret hf hc =>
      rw [hf] at hm hs
      simp only [pending, List.map_cons, List.sum_cons, hc] at hm hs
      constructor
      · simpa [masters, pending] using hm
      · simpa [slaves, pending] using hs
  | proc hf hp =>
      obtain ⟨hframes, -⟩ := stepProc_frames hp
      rw [← hframes] at hm hs
      rcases stepProc_log hp with hlog | ⟨-, hlog⟩
      · rw [← hlog] at hm hs
        exact ⟨hm, hs⟩
      · -- a return of `rtc_read` is none of the entries counted
        refine ⟨?_, ?_⟩ <;> rw [hlog]
        · exact hm
        · exact hs
  | call _ _ => exact ⟨hm, hs⟩
  | flags b _ _ => exact ⟨hm, hs⟩

/-! ### Who is in service -/

/-- A handler that has sent its command. -/
def Leaving (code : List Instr) : Prop :=
  code = [.sti, .popf, .iret] ∨ code = [.popf, .iret] ∨ code = [.iret]

/-- A handler that has not, for the codes that are not those of the first branch: its
interrupt is in service, and no other. -/
inductive Working : HandlerFrame → Pics → Prop
  | keyEnter {input : UInt8} (h : ¬ Extra input) :
      Working ⟨.keyboard, keyHandlerCode input⟩ ⟨true, false, false⟩
  | keyDecide {input : UInt8} (h : ¬ Extra input) :
      Working ⟨.keyboard, .keyDecide input :: .eoiMaster :: leave⟩ ⟨true, false, false⟩
  | keyAct (input symbol : UInt8) :
      Working ⟨.keyboard, .keyAct input symbol :: .eoiMaster :: leave⟩ ⟨true, false, false⟩
  | keyEoi : Working ⟨.keyboard, .eoiMaster :: leave⟩ ⟨true, false, false⟩
  | rtcEnter : Working ⟨.rtc, rtcHandlerCode⟩ ⟨false, true, true⟩
  | rtcFlag : Working ⟨.rtc, .rtcFlag :: .eoiSlave :: .eoiMaster :: leave⟩ ⟨false, true, true⟩
  | rtcSlave : Working ⟨.rtc, .eoiSlave :: .eoiMaster :: leave⟩ ⟨false, true, true⟩
  | rtcMaster : Working ⟨.rtc, .eoiMaster :: leave⟩ ⟨false, true, false⟩

/-- The command retired the interrupt whose handler sent it. -/
def Own : LogEntry → Prop
  | .master sender retired => retired = some sender
  | .slave _ retired => retired = true
  | _ => True

instance : (e : LogEntry) → Decidable (Own e)
  | .master sender retired => inferInstanceAs (Decidable (retired = some sender))
  | .slave _ retired => inferInstanceAs (Decidable (retired = true))
  | .key _ => isTrue trivial
  | .rtc => isTrue trivial
  | .returned => isTrue trivial

/-- The innermost handler has its interrupt in service and runs with interrupts off, or
nothing is in service; the handlers below it have sent their commands. -/
structure Orderly (s : Machine) : Prop where
  own : ∀ e ∈ s.log, Own e
  below : ∀ f ∈ s.frames.tail, Leaving f.code
  top : (s.pics = .idle ∧ ∀ f ∈ s.frames.head?, Leaving f.code) ∨
    (s.ifFlag = false ∧ ∃ f ∈ s.frames.head?, Working f s.pics)

/-- Interrupts are only taken while nothing is in service, so that the controllers' rules of
priority never keep one back. -/
theorem Orderly.idle {s : Machine} (h : s.Orderly) (hif : s.ifFlag = true) :
    s.pics = .idle ∧ ∀ f ∈ s.frames, Leaving f.code := by
  rcases h.top with ⟨hpics, htop⟩ | ⟨hoff, -⟩
  · refine ⟨hpics, fun f hf => ?_⟩
    rcases hs : s.frames with - | ⟨g, gs⟩
    · rw [hs] at hf
      cases hf
    · rw [hs] at hf
      rcases List.mem_cons.mp hf with rfl | hmem
      · exact htop f (by rw [hs]; rfl)
      · exact h.below f (by rw [hs]; exact hmem)
  · rw [hif] at hoff
    cases hoff

theorem Quiet.orderly {s : Machine} (h : s.Quiet) : s.Orderly where
  own := by
    rw [h.log]
    exact List.forall_mem_nil _
  below := by
    rw [h.frames]
    exact List.forall_mem_nil _
  top := .inl ⟨h.pics, by rw [h.frames]; simp⟩

/-- The events without the codes of the first branch. -/
def Plain : MachineEvent → Prop
  | .key input => ¬ Extra input
  | _ => True

instance : (e : MachineEvent) → Decidable (Plain e)
  | .key input => inferInstanceAs (Decidable (¬ Extra input))
  | .rtc => isTrue trivial
  | .step => isTrue trivial
  | .call => isTrue trivial
  | .flags _ => isTrue trivial

/-- An instruction of a handler that leaves: nothing is in service, nothing is sent. -/
theorem Leaving.exec {s : Machine} {f : HandlerFrame} {i : Instr} {rest : List Instr} (h : Leaving f.code)
    (hc : f.code = i :: rest) (hi : i :: rest ≠ [.iret]) :
    (s.exec f.irq i).2.pics = s.pics ∧ (s.exec f.irq i).2.log = s.log ∧
      Leaving ((s.exec f.irq i).1 ++ rest) := by
  rw [hc] at h
  rcases h with h | h | h
  · obtain ⟨rfl, rfl⟩ := List.cons.inj h
    exact ⟨rfl, rfl, .inr (.inl rfl)⟩
  · obtain ⟨rfl, rfl⟩ := List.cons.inj h
    exact ⟨rfl, rfl, .inr (.inr rfl)⟩
  · exact absurd h hi

/-- An instruction of a handler at work: it goes on, or it retires its own interrupt. -/
theorem Working.exec {s : Machine} {f : HandlerFrame} {i : Instr} {rest : List Instr}
    (h : Working f s.pics) (hif : s.ifFlag = false) (hc : f.code = i :: rest)
    (hlog : ∀ e ∈ s.log, Own e) :
    (∀ e ∈ (s.exec f.irq i).2.log, Own e) ∧
      ((s.exec f.irq i).2.pics = .idle ∧ Leaving ((s.exec f.irq i).1 ++ rest) ∨
        (s.exec f.irq i).2.ifFlag = false ∧
          Working ⟨f.irq, (s.exec f.irq i).1 ++ rest⟩ (s.exec f.irq i).2.pics) := by
  generalize hp : s.pics = p at h
  -- the places a handler can be at, in the order of the code
  cases h with
  | keyEnter hx =>
      obtain ⟨rfl, rfl⟩ := List.cons.inj hc
      refine ⟨hlog, .inr ⟨rfl, ?_⟩⟩
      show Working _ s.pics
      rw [hp]
      exact .keyDecide hx
  | keyDecide hx =>
      rename_i input
      obtain ⟨rfl, rfl⟩ := List.cons.inj hc
      -- no release and no modifier, so the branch with an EOI of its own is not taken
      have hcond : ¬ (input ≥ 0x80 ∨ (s.console.kbd.updateModes input).modeFlag ≠ 0) := by
        rw [Keyboard.updateModes_modeFlag]
        exact hx
      refine ⟨hlog, .inr ⟨hif, ?_⟩⟩
      show Working ⟨.keyboard, (if _ then _ else _) ++ _⟩ s.pics
      rw [if_neg hcond, hp]
      exact .keyAct input _
  | keyAct input symbol =>
      obtain ⟨rfl, rfl⟩ := List.cons.inj hc
      refine ⟨hlog, .inr ⟨hif, ?_⟩⟩
      show Working _ s.pics
      rw [hp]
      exact .keyEoi
  | keyEoi =>
      obtain ⟨rfl, rfl⟩ := List.cons.inj hc
      refine ⟨List.forall_mem_cons.mpr ⟨?_, hlog⟩, .inl ⟨?_, .inl rfl⟩⟩
      · show s.pics.highest = some .keyboard
        rw [hp]
        rfl
      · show s.pics.retire = .idle
        rw [hp]
        rfl
  | rtcEnter =>
      obtain ⟨rfl, rfl⟩ := List.cons.inj hc
      refine ⟨hlog, .inr ⟨rfl, ?_⟩⟩
      show Working _ s.pics
      rw [hp]
      exact .rtcFlag
  | rtcFlag =>
      obtain ⟨rfl, rfl⟩ := List.cons.inj hc
      refine ⟨hlog, .inr ⟨hif, ?_⟩⟩
      show Working _ s.pics
      rw [hp]
      exact .rtcSlave
  -- the slave is retired first, and the handler goes on
  | rtcSlave =>
      obtain ⟨rfl, rfl⟩ := List.cons.inj hc
      refine ⟨List.forall_mem_cons.mpr ⟨?_, hlog⟩, .inr ⟨hif, ?_⟩⟩
      · show s.pics.slave = true
        rw [hp]
      · show Working _ { s.pics with slave := false }
        rw [hp]
        exact .rtcMaster
  | rtcMaster =>
      obtain ⟨rfl, rfl⟩ := List.cons.inj hc
      refine ⟨List.forall_mem_cons.mpr ⟨?_, hlog⟩, .inl ⟨?_, .inl rfl⟩⟩
      · show s.pics.highest = some .rtc
        rw [hp]
        rfl
      · show s.pics.retire = .idle
        rw [hp]
        rfl

theorem Orderly.steps {s t : Machine} {e : MachineEvent} (h : s.Orderly) (hplain : Plain e)
    (hst : s.Steps e t) : t.Orderly := by
  cases hst with
  | key input hif =>
      obtain ⟨hpics, hframes⟩ := h.idle hif
      refine ⟨List.forall_mem_cons.mpr ⟨trivial, h.own⟩, hframes, .inr ⟨rfl, _, rfl, ?_⟩⟩
      show Working _ { s.pics with keyboard := true }
      rw [hpics]
      exact .keyEnter hplain
  | rtc hif =>
      obtain ⟨hpics, hframes⟩ := h.idle hif
      refine ⟨List.forall_mem_cons.mpr ⟨trivial, h.own⟩, hframes, .inr ⟨rfl, _, rfl, ?_⟩⟩
      show Working _ { s.pics with rtc := true, slave := true }
      rw [hpics]
      exact .rtcEnter
  | exec hf hc hi =>
      rename_i f fs i rest
      obtain ⟨hown, hbelow, htop⟩ := h
      rw [hf] at hbelow htop
      rcases htop with ⟨hpics, hleaving⟩ | ⟨hoff, g, hg, hworking⟩
      · obtain ⟨hpics', hlog', hleaving'⟩ := (hleaving f rfl).exec (s := s) hc hi
        refine ⟨?_, hbelow, .inl ⟨hpics'.trans hpics, ?_⟩⟩
        · show ∀ e ∈ (s.exec f.irq i).2.log, Own e
          rw [hlog']
          exact hown
        · rintro g hg
          obtain rfl := Option.some.inj hg
          exact hleaving'
      · obtain rfl := Option.some.inj hg
        obtain ⟨hown', hdone | ⟨hoff', hworking'⟩⟩ := hworking.exec hoff hc hown
        · refine ⟨hown', hbelow, .inl ⟨hdone.1, ?_⟩⟩
          rintro g hg
          obtain rfl := Option.some.inj hg
          exact hdone.2
        · exact ⟨hown', hbelow, .inr ⟨hoff', _, rfl, hworking'⟩⟩
  | iret hf hc =>
      rename_i f fs
      obtain ⟨hown, hbelow, htop⟩ := h
      rw [hf] at hbelow htop
      rcases htop with ⟨hpics, -⟩ | ⟨-, g, hg, hworking⟩
      · refine ⟨hown, fun g hg => hbelow g (List.mem_of_mem_tail hg), .inl ⟨hpics, ?_⟩⟩
        exact fun g hg => hbelow g (List.mem_of_mem_head? hg)
      · -- a handler at work is not about to return
        obtain rfl := Option.some.inj hg
        generalize s.pics = p at hworking
        cases hworking <;> cases hc
  | proc hf hp =>
      obtain ⟨hframes, hpics⟩ := stepProc_frames hp
      have htop : s.pics = .idle := by
        rcases h.top with ⟨hpics, -⟩ | ⟨-, g, hg, -⟩
        · exact hpics
        · rw [hf] at hg
          cases hg
      refine ⟨?_, ?_, .inl ⟨hpics.trans htop, ?_⟩⟩
      · rcases stepProc_log hp with hlog | ⟨-, hlog⟩
        · rw [hlog]
          exact h.own
        · rw [hlog]
          exact List.forall_mem_cons.mpr ⟨trivial, h.own⟩
      · rw [hframes]
        exact h.below
      · rw [hframes, hf]
        simp
  | call hf hp => exact ⟨h.own, h.below, h.top⟩
  | flags b hf hp =>
      refine ⟨h.own, h.below, ?_⟩
      rcases h.top with htop | ⟨-, g, hg, -⟩
      · exact .inl htop
      · rw [hf] at hg
        cases hg

/-! ### Acknowledged once -/

/-- Every command so far has retired the interrupt of the handler that sent it, and there
were as many to each controller as interrupts that came through it. -/
structure Acknowledged (s : Machine) : Prop where
  own : ∀ e ∈ s.log, Own e
  master : masterCount s.log = keyCount s.log + rtcCount s.log
  slave : slaveCount s.log = rtcCount s.log

/-- A step adds at most one entry to the log, and the code of a keyboard interrupt exactly
if it takes one. -/
theorem Steps.log {s t : Machine} {e : MachineEvent} (h : s.Steps e t) :
    (t.log = s.log ∧ ∀ input, e ≠ .key input) ∨
      ∃ entry, t.log = entry :: s.log ∧ ∀ input, entry = .key input ↔ e = .key input := by
  cases h with
  | key input _ => exact .inr ⟨.key input, rfl, fun input' => by simp⟩
  | rtc _ => exact .inr ⟨.rtc, rfl, fun input' => by simp⟩
  | exec hf hc hi =>
      rename_i f fs i rest
      cases i with
      | eoiMaster => exact .inr ⟨_, rfl, fun input' => by simp⟩
      | eoiSlave => exact .inr ⟨_, rfl, fun input' => by simp⟩
      | _ => exact .inl ⟨rfl, fun input' => by simp⟩
  | iret _ _ => exact .inl ⟨rfl, fun input' => by simp⟩
  | proc _ hp =>
      rcases stepProc_log hp with hlog | ⟨-, hlog⟩
      · exact .inl ⟨hlog, fun input' => by simp⟩
      · exact .inr ⟨.returned, hlog, fun input' => by simp⟩
  | call _ _ => exact .inl ⟨rfl, fun input' => by simp⟩
  | flags _ _ _ => exact .inl ⟨rfl, fun input' => by simp⟩

/-- The codes in the log are those of the interrupts taken. -/
theorem key_mem_log {s t : Machine} {es : List MachineEvent} {os : List Unit}
    (hr : run step s es = some (os, t)) (input : UInt8) :
    LogEntry.key input ∈ t.log ↔ LogEntry.key input ∈ s.log ∨ MachineEvent.key input ∈ es := by
  induction es generalizing s os with
  | nil =>
      obtain ⟨-, rfl⟩ := Prod.mk.inj (Option.some.inj hr)
      simp
  | cons e es ih =>
      obtain ⟨o, u, os', he, hr', -⟩ := run_cons_eq_some.mp hr
      rw [ih hr', List.mem_cons]
      rcases (next_steps (step_eq_some.mp he)).log with ⟨hlog, hno⟩ | ⟨entry, hlog, hiff⟩
      · rw [hlog, or_iff_right (a := MachineEvent.key input = e) fun h => hno input h.symm]
      · rw [hlog, List.mem_cons, eq_comm (a := LogEntry.key input), hiff,
          eq_comm (a := MachineEvent.key input)]
        tauto

/-- No code of the first branch has been logged exactly if there was none. -/
theorem extraCount_eq_zero {s t : Machine} {es : List MachineEvent} {os : List Unit} (hq : s.Quiet)
    (hr : run step s es = some (os, t)) : extraCount t.log = 0 ↔ ∀ e ∈ es, Plain e := by
  rw [extraCount, List.countP_eq_zero]
  constructor
  · intro h e he
    cases e with
    | key input =>
        have hlog := h _ ((key_mem_log hr input).mpr (.inr he))
        simpa [Plain] using hlog
    | _ => trivial
  · intro h entry hentry
    cases entry with
    | key input =>
        rcases (key_mem_log hr input).mp hentry with hlog | hevent
        · rw [hq.log] at hlog
          cases hlog
        · have hplain := h _ hevent
          simpa [Plain] using hplain
    | _ => exact Bool.false_ne_true

/-- **Acknowledged exactly once.**  From a quiet state, for every sequence of interrupts and
every interleaving of their handlers: without modifiers and released keys every command
retires the interrupt of the handler that sent it, in every state reached; and when all
handlers have returned, each interrupt has been acknowledged exactly once if and only if
there were none of these codes. -/
theorem acknowledged_iff (s : Machine) (hq : s.Quiet) (es : List MachineEvent) (t : Machine) (os : List Unit)
    (hr : run step s es = some (os, t)) :
    ((∀ e ∈ es, Plain e) → ∀ e ∈ t.log, Own e) ∧
      (t.frames = [] → (t.Acknowledged ↔ ∀ e ∈ es, Plain e)) := by
  have hbal : t.Balanced := run_preserves (G := fun _ => True)
    (fun h _ hst => h.steps hst) hq.balanced (fun _ _ => trivial) hr
  have hown : (∀ e ∈ es, Plain e) → ∀ e ∈ t.log, Own e := fun hplain =>
    (run_preserves (fun h hp hst => h.steps hp hst) hq.orderly hplain hr).own
  refine ⟨hown, fun hdone => ?_⟩
  obtain ⟨hm, hs⟩ := hbal
  rw [hdone] at hm hs
  have hextra := extraCount_eq_zero hq hr
  constructor
  · intro hack
    have hmaster := hack.master
    refine hextra.mp ?_
    simp only [pending, List.map_nil, List.sum_nil] at hm
    omega
  · intro hplain
    have hzero := hextra.mpr hplain
    simp only [pending, List.map_nil, List.sum_nil] at hm hs
    exact ⟨hown hplain, by omega, by omega⟩

/-- A machine that idles in user mode with interrupts on. -/
def idling : Machine := ⟨true, [], .idle, ⟨⟨0, 0, fun _ => 0, 0, []⟩, Keyboard.boot⟩, ⟨0, 0⟩, .user, []⟩

/-- The key `a`, interrupted by the RTC after its `sti`. -/
theorem acknowledged_nested :
    let es : List MachineEvent := [.key 0x1E] ++ List.replicate 5 .step ++ [.rtc] ++
      List.replicate 7 .step ++ List.replicate 2 .step
    idling.Quiet ∧ ∃ os t, run step idling es = some (os, t) ∧ t.frames = [] ∧ t.Acknowledged := by
  intro es
  have hquiet : idling.Quiet := ⟨rfl, rfl, rfl⟩
  have heval : (run step idling es).map (fun r => r.2.frames.isEmpty) = some true := by
    decide +kernel
  obtain ⟨⟨os, t⟩, hr, hempty⟩ := Option.map_eq_some_iff.mp heval
  have hdone : t.frames = [] := List.isEmpty_iff.mp hempty
  exact ⟨hquiet, os, t, hr, hdone,
    ((acknowledged_iff idling hquiet es t os hr).2 hdone).mpr (by decide +kernel)⟩

/-- Releasing the key `a`: two commands for one interrupt, the second with nothing in
service. -/
theorem released_key_twice :
    ((run step idling ([.key 0x9E] ++ List.replicate 8 .step)).map fun r => (r.2.log, r.2.frames.length)) =
      some ([.master .keyboard none, .master .keyboard (some .keyboard), .key 0x9E], 0) := by
  decide +kernel

/-! ### A tick for each read -/

/-- The clock has ticked since the last return; the newest entry is the first. -/
def Ticked : List LogEntry → Prop
  | [] => False
  | .rtc :: _ => True
  | .returned :: _ => False
  | _ :: log => Ticked log

/-- Before each return the clock has ticked since the one before. -/
def Served : List LogEntry → Prop
  | [] => True
  | .returned :: log => Ticked log ∧ Served log
  | _ :: log => Served log

theorem rtc_mem_of_ticked {b c : List LogEntry} (h : Ticked (b ++ .returned :: c)) :
    LogEntry.rtc ∈ b := by
  induction b with
  | nil => exact absurd h id
  | cons e b ih =>
      cases e with
      | rtc => exact List.mem_cons_self
      | returned => exact absurd h id
      | _ => exact List.mem_cons_of_mem _ (ih h)

/-- Between two returns there is a tick. -/
theorem Served.between {a b c : List LogEntry}
    (h : Served (a ++ .returned :: (b ++ .returned :: c))) : LogEntry.rtc ∈ b := by
  induction a with
  | nil => exact rtc_mem_of_ticked h.1
  | cons e a ih =>
      cases e with
      | returned => exact ih h.2
      | _ => exact ih h

/-- There are no more returns than ticks, and fewer if the last tick has not been used. -/
theorem Served.count_le {log : List LogEntry} (h : Served log) :
    log.count .returned ≤ log.count .rtc ∧
      (Ticked log → log.count .returned < log.count .rtc) := by
  induction log with
  | nil => exact ⟨Nat.le_refl _, fun h => absurd h id⟩
  | cons e log ih =>
      cases e with
      | returned =>
          obtain ⟨-, hlt⟩ := ih h.2
          refine ⟨?_, fun h => absurd h id⟩
          simpa using hlt h.1
      | rtc =>
          obtain ⟨hle, -⟩ := ih h
          have hcount : (LogEntry.rtc :: log).count .returned < (LogEntry.rtc :: log).count .rtc := by
            simpa using Nat.lt_succ_of_le hle
          exact ⟨hcount.le, fun _ => hcount⟩
      | _ => simpa [Ticked] using ih h

/-- The places in `rtc_read` between `cli` and `sti` or the return. -/
def Masked : Proc → Prop
  | .readTest | .readClear | .readReturn | .readSti => True
  | _ => False

/-- The flag, a handler that has not set it yet and a read that has seen it all stand for a
tick since the last return; the read looks at the flag and clears it with interrupts off. -/
structure Paid (s : Machine) : Prop where
  served : Served s.log
  flag : s.rtc.rtcInterrupt ≠ 0 → Ticked s.log
  handler : ∀ f ∈ s.frames, Instr.rtcFlag ∈ f.code → Ticked s.log
  read : s.proc = .readClear ∨ s.proc = .readReturn → Ticked s.log
  cleared : s.proc = .readReturn → s.rtc.rtcInterrupt = 0
  masked : Masked s.proc → s.ifFlag = false ∧ s.frames = []

/-- Instructions of handlers: the log gets nothing that counts, the flag is set only by
`rtcFlag`, and no branch leads to that. -/
theorem exec_paid (sender : Irq) (s : Machine) (i : Instr) :
    (Served (s.exec sender i).2.log ↔ Served s.log) ∧
      (Ticked (s.exec sender i).2.log ↔ Ticked s.log) ∧
      ((s.exec sender i).2.rtc.rtcInterrupt ≠ 0 → s.rtc.rtcInterrupt ≠ 0 ∨ i = .rtcFlag) ∧
      (s.exec sender i).2.proc = s.proc ∧ Instr.rtcFlag ∉ (s.exec sender i).1 := by
  cases i with
  | rtcFlag => exact ⟨Iff.rfl, Iff.rfl, fun _ => .inr rfl, rfl, List.not_mem_nil⟩
  | keyDecide input =>
      refine ⟨Iff.rfl, Iff.rfl, .inl, rfl, ?_⟩
      simp only [exec]
      split_ifs <;> simp [sendEoi]
  | _ => exact ⟨Iff.rfl, Iff.rfl, .inl, rfl, List.not_mem_nil⟩

theorem Paid.not_masked {s : Machine} (h : s.Paid) (hrun : s.ifFlag = true ∨ s.frames ≠ []) :
    ¬ Masked s.proc := by
  intro hm
  obtain ⟨hoff, hnone⟩ := h.masked hm
  rcases hrun with hif | hframes
  · rw [hif] at hoff
    cases hoff
  · exact hframes hnone

theorem Paid.steps {s t : Machine} {e : MachineEvent} (h : s.Paid) (hst : s.Steps e t) : t.Paid := by
  cases hst with
  | key input hif =>
      have hmasked := h.not_masked (.inl hif)
      refine ⟨h.served, h.flag, ?_, h.read, h.cleared, fun hm => absurd hm hmasked⟩
      refine List.forall_mem_cons.mpr ⟨fun hmem => ?_, h.handler⟩
      simp [keyHandlerCode, sendEoi, leave] at hmem
  | rtc hif =>
      have hmasked := h.not_masked (.inl hif)
      exact ⟨h.served, fun _ => trivial, fun _ _ _ => trivial, fun _ => trivial, h.cleared,
        fun hm => absurd hm hmasked⟩
  | exec hf hc hi =>
      rename_i f fs i rest
      obtain ⟨hserved, hticked, hflag, hproc, hcode⟩ := exec_paid f.irq s i
      have hhandler := h.handler
      rw [hf, List.forall_mem_cons, hc] at hhandler
      have hmasked := h.not_masked (.inr (by rw [hf]; exact List.cons_ne_nil _ _))
      refine ⟨hserved.mpr h.served, fun hne => hticked.mpr ?_, fun g hg hmem => hticked.mpr ?_,
        fun hr => hticked.mpr (h.read (hproc ▸ hr)), fun hr => absurd ?_ hmasked,
        fun hm => absurd ?_ hmasked⟩
      · rcases hflag hne with hold | rfl
        · exact h.flag hold
        · exact hhandler.1 List.mem_cons_self
      · rcases List.mem_cons.mp hg with rfl | hg
        · rcases List.mem_append.mp hmem with hpre | hrest
          · exact absurd hpre hcode
          · exact hhandler.1 (List.mem_cons_of_mem i hrest)
        · exact hhandler.2 g hg hmem
      · rw [← hproc, show (s.exec f.irq i).2.proc = .readReturn from hr]
        trivial
      · exact hproc ▸ hm
  | iret hf hc =>
      have hmasked := h.not_masked (.inr (by rw [hf]; exact List.cons_ne_nil _ _))
      refine ⟨h.served, h.flag, fun g hg => h.handler g ?_, h.read, h.cleared,
        fun hm => absurd hm hmasked⟩
      rw [hf]
      exact List.mem_cons_of_mem _ hg
  | proc hf hp =>
      unfold stepProc at hp
      split at hp
      case h_1 => cases hp
      case h_2 => -- the end of `rtc_open`
        obtain rfl := Option.some.inj hp
        exact ⟨h.served, h.flag, h.handler, by simp, by simp, fun hm => absurd hm id⟩
      case h_3 =>
        obtain rfl := Option.some.inj hp
        exact ⟨h.served, h.flag, h.handler, by simp, by simp, fun _ => ⟨rfl, hf⟩⟩
      case h_4 hproc =>
        have hmasked := h.masked (by rw [hproc]; trivial)
        obtain rfl := Option.some.inj hp
        refine ⟨h.served, h.flag, h.handler, fun hr => ?_, fun hr => ?_, fun _ => hmasked⟩
        · -- the flag was seen
          by_cases hflag : s.rtc.rtcInterrupt = 0
          · simp [hflag] at hr
          · exact h.flag hflag
        · split_ifs at hr
      case h_5 hproc =>
        have hmasked := h.masked (by rw [hproc]; trivial)
        obtain rfl := Option.some.inj hp
        exact ⟨h.served, fun hne => absurd rfl hne, h.handler, fun _ => h.read (.inl hproc),
          fun _ => rfl, fun _ => hmasked⟩
      case h_6 hproc =>
        -- no tick can have come since the flag was cleared
        have hzero := h.cleared hproc
        obtain ⟨-, hnone⟩ := h.masked (by rw [hproc]; trivial)
        obtain rfl := Option.some.inj hp
        refine ⟨⟨h.read (.inr hproc), h.served⟩, fun hne => absurd hzero hne, ?_, by simp, by simp,
          fun hm => absurd hm id⟩
        rw [hnone]
        exact List.forall_mem_nil _
      case h_7 =>
        obtain rfl := Option.some.inj hp
        exact ⟨h.served, h.flag, h.handler, by simp, by simp, fun hm => absurd hm id⟩
  | call hf hp =>
      refine ⟨h.served, h.flag, h.handler, fun hr => ?_, fun hr => ?_, fun hm => absurd hm id⟩
      · rcases hr with hr | hr <;> cases hr
      · cases hr
  | flags b hf hp =>
      refine ⟨h.served, h.flag, h.handler, h.read, h.cleared, fun hm => ?_⟩
      rw [show Masked s.proc ↔ Masked .user by rw [hp]] at hm
      exact absurd hm id

/-- After `rtc_open` has cleared the flag: its `sti` is to come, or it has found no
descriptor and returned without. -/
def opened (k : Kernel) : Machine :=
  { ifFlag := false
    frames := []
    pics := .idle
    console := (rtcOpen k).2.console
    rtc := (rtcOpen k).2.rtc
    proc := if (rtcOpen k).1 = 0 then .openSti else .user
    log := [] }

theorem rtcOpen_rtcInterrupt (k : Kernel) : (rtcOpen k).2.rtc.rtcInterrupt = 0 := by
  simp only [rtcOpen]
  split_ifs <;> rfl

theorem opened_paid (k : Kernel) : (opened k).Paid where
  served := trivial
  flag := fun hne => absurd (rtcOpen_rtcInterrupt k) hne
  handler := List.forall_mem_nil _
  read := by
    simp only [opened]
    split_ifs <;> simp
  cleared := fun _ => rtcOpen_rtcInterrupt k
  masked := by
    intro _
    exact ⟨rfl, rfl⟩

/-- **A tick for each read.**  After `rtc_open`, for every interleaving of interrupts with
calls of `rtc_read`: there have been no more returns than ticks of the clock, and between
any two returns there was one. -/
theorem reads_served (k : Kernel) (es : List MachineEvent) (t : Machine) (os : List Unit)
    (hr : run step (opened k) es = some (os, t)) :
    t.log.count .returned ≤ t.log.count .rtc ∧
      ∀ a b c, t.log = a ++ .returned :: (b ++ .returned :: c) → LogEntry.rtc ∈ b := by
  have hpaid : t.Paid := run_preserves (G := fun _ => True) (fun h _ hst => h.steps hst)
    (opened_paid k) (fun _ _ => trivial) hr
  refine ⟨hpaid.served.count_le.1, fun a b c hlog => ?_⟩
  have hserved := hpaid.served
  rw [hlog] at hserved
  exact hserved.between

/-- A read that spins once before the clock ticks. -/
theorem reads_served_once :
    let es : List MachineEvent := [.step, .call, .step, .step, .step, .rtc] ++ List.replicate 11 .step
    ∃ os t, run step (opened tinyBoot) es = some (os, t) ∧
      t.log.count .returned = 1 ∧ t.log.count .returned ≤ t.log.count .rtc := by
  intro es
  have heval : (run step (opened tinyBoot) es).map (fun r => r.2.log.count .returned) = some 1 := by
    decide +kernel
  obtain ⟨⟨os, t⟩, hr, hcount⟩ := Option.map_eq_some_iff.mp heval
  exact ⟨os, t, hr, hcount, (reads_served tinyBoot es t os hr).1⟩

end Machine

end LinuxBasedOs
