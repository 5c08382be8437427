/-
LinuxBasedOs/Display.lean

What a program leaves on the screen.

The screen and the keyboard belong to all processes, and to the interrupt handler: keys are
echoed whenever they are pressed, and `terminal_read` takes from the keyboard what has been
typed.  So the state of the console after a program is not a matter of its output alone.
`trace` lists what happens to the console in a dialogue, in this order; it is a function of
the calls, their answers and what happened around them.

* `play_console` — the console is what the trace makes of it, in every play;
* `play_screen` — the bytes in the trace are those that the program has shown, nothing is
  stored behind `filename_buf`, and without keys the screen is these bytes.
-/
import LinuxBasedOs.Program

namespace LinuxBasedOs

open Bytes Transition Interaction

variable {L : Layout} {img : Image} {k t u : Kernel}

/-! ### What happens to the console -/

/-- One of the things that change the console. -/
inductive ConsoleEvent where
  | put (c : UInt8)                   -- a byte of a program's output
  | key (input : UInt8)
  | line (events : List ReadEvent)    -- `terminal_read`, and what happens while it waits
  | reopen                            -- `terminal_open`
  deriving DecidableEq

/-- The console after one of them. -/
def Console.after (c : Console) : ConsoleEvent → Console
  | .put b => { c with screen := c.screen.putcTerminal b }
  | .key input => c.keyHandler input
  | .line events => (events.foldl Reader.step (.call c)).console
  | .reopen => c.reopened

/-- The byte that is put out. -/
def ConsoleEvent.byte : ConsoleEvent → Option UInt8
  | .put c => some c
  | _ => none

/-- The RTC does nothing to the console. -/
def Interrupt.onConsole : Interrupt → Option ConsoleEvent
  | .key input => some (.key input)
  | .tick => none

/-- What a call does to the console, given its answer.  Only a read of descriptor 0 waits for
a line, and only if it is not refused. -/
def Call.onConsole (img : Image) (w : Around) : Call × Seen → List ConsoleEvent
  | (.read fd _ _, o) => if fd = 0 ∧ o.value ≠ -1 then [.line w.readEnv.events] else []
  | (.open filename name, o) =>
      if o.value ≠ -1 ∧ filename ≠ 0 ∧ img.unknownType name then [.reopen] else []
  | q => (Call.shown q).map .put

/-- What happens to the console in a dialogue. -/
def trace (img : Image) : (happens : Nat → Around) → Dialogue Call Seen → List ConsoleEvent
  | _, [] => []
  | happens, q :: d =>
      (happens 0).interrupts.filterMap Interrupt.onConsole ++ Call.onConsole img (happens 0) q ++
        trace img (fun n => happens (n + 1)) d

/-- The bytes of the trace are what the program has shown. -/
theorem trace_bytes (img : Image) (happens : Nat → Around) (d : Dialogue Call Seen) :
    (trace img happens d).filterMap ConsoleEvent.byte = shown d := by
  have hinterrupts (is : List Interrupt) :
      (is.filterMap Interrupt.onConsole).filterMap ConsoleEvent.byte = [] := by
    rw [List.filterMap_filterMap, List.filterMap_eq_nil_iff]
    rintro (- | -) - <;> rfl
  -- a read and an open may put something into the trace, but no byte
  have hcall (w : Around) (q : Call × Seen) :
      (Call.onConsole img w q).filterMap ConsoleEvent.byte = Call.shown q := by
    obtain ⟨c, o⟩ := q
    cases c with
    | read fd buf nbytes =>
        simp only [Call.onConsole]
        split_ifs <;> rfl
    | «open» filename name =>
        simp only [Call.onConsole]
        split_ifs <;> rfl
    | write fd buf data nbytes =>
        rw [Call.onConsole, List.filterMap_map]
        · exact List.filterMap_some
        · simp
        · simp
    | close | getargs | vidmap | invalid => rfl
  induction d generalizing happens with
  | nil => rfl
  | cons q d ih =>
      rw [trace, List.filterMap_append, List.filterMap_append, hinterrupts, hcall, ih]
      rfl

/-! ### One call -/

theorem interrupts_console {is : List Interrupt} {os : List Seen}
    (h : run (step img) k (is.map Interrupt.event) = some (os, t)) :
    t.console = (is.filterMap Interrupt.onConsole).foldl Console.after k.console := by
  induction is generalizing k os with
  | nil =>
      obtain ⟨-, rfl⟩ := Prod.mk.inj (Option.some.inj h)
      rfl
  | cons i is ih =>
      obtain ⟨⟨o, k'⟩, hstep, hrest⟩ := Option.bind_eq_some_iff.mp h
      obtain ⟨⟨os', t'⟩, hrun, ho⟩ := Option.map_eq_some_iff.mp hrest
      obtain ⟨-, rfl⟩ := Prod.mk.inj ho
      rw [ih hrun]
      cases i with
      | key input =>
          obtain ⟨-, rfl⟩ := Prod.mk.inj (Option.some.inj hstep)
          rfl
      | tick =>
          obtain ⟨-, rfl⟩ := Prod.mk.inj (Option.some.inj hstep)
          rfl

/-- Descriptor 0 of a process is the keyboard. -/
theorem sysReadC_console (h : k.Running L) {fd : Int} {buf : Nat} {nbytes : Int} {w : Around}
    {r : Int × List (Nat × UInt8)} (hread : sysReadC img fd buf nbytes w.readEnv k = some (r, t)) :
    t.console =
      (Call.onConsole img w (.read fd buf nbytes, ⟨.ret r.1, r.2⟩)).foldl Console.after k.console := by
  have honConsole : Call.onConsole img w (.read fd buf nbytes, ⟨.ret r.1, r.2⟩) =
      if fd = 0 ∧ r.1 ≠ -1 then [.line w.readEnv.events] else [] := rfl
  rw [honConsole]
  -- through another descriptor the console is out of reach
  by_cases hfd : fd = 0
  case neg =>
    rw [if_neg fun hand => hfd hand.1]
    exact (sysReadC_frame hread).2 hfd
  subst hfd
  obtain ⟨e, he, hstore⟩ := Option.bind_eq_some_iff.mp hread
  obtain ⟨k', hk', hr⟩ := Option.map_eq_some_iff.mp hstore
  obtain ⟨rfl, rfl⟩ := Prod.mk.inj hr
  obtain ⟨pcbs, rfl⟩ := storeAll_pcbs hk'
  obtain rfl | ⟨-, hptr⟩ := sysReadEffect_cases he
  · rfl
  · replace hptr : FdOps.readPtr img 0 buf nbytes.toNat w.readEnv k (k.fd 0).fileOpPtr = some e := hptr
    rw [h.stdin.1] at hptr
    -- the driver refuses, or a line is read and its length returned
    obtain rfl | ⟨-, i, rfl⟩ := terminalRead_cases hptr
    · rfl
    · have hvalue : (i : Int) ≠ -1 := by omega
      rw [if_pos ⟨rfl, hvalue⟩]
      rfl

theorem foldl_put (bs : List UInt8) (c : Console) :
    (bs.map ConsoleEvent.put).foldl Console.after c =
      { c with screen := bs.foldl (fun s b => s.putcTerminal b) c.screen } := by
  rw [List.foldl_map]
  induction bs generalizing c with
  | nil => rfl
  | cons b bs ih => exact ih _

/-- Whatever table a descriptor has: what its write routine says it has written is on the
screen. -/
theorem writePtr_console {ops : FdOps} {fd : Int} {data : Mem} {nbytes : Nat} {v : Int}
    (h : ops.writePtr fd data nbytes k = some (v, t)) :
    (v ≤ 0 ∧ t.console = k.console) ∨
      (fd = 1 ∧ v = nbytes ∧
        t.console = (((List.range nbytes).map data).map .put).foldl Console.after k.console) := by
  cases ops with
  | null | wild => cases h
  -- the file system is read-only
  | dirTable | fileTable =>
      obtain ⟨rfl, rfl⟩ := Prod.mk.inj (Option.some.inj h)
      exact .inl ⟨by decide, rfl⟩
  | rtcTable =>
      replace h : rtcWrite data k = (v, t) := Option.some.inj h
      unfold rtcWrite at h
      simp only at h
      split_ifs at h
      all_goals
        obtain ⟨rfl, rfl⟩ := Prod.mk.inj h
        exact .inl ⟨by decide, rfl⟩
  | terminalTable =>
      replace h : terminalWrite fd data nbytes k = (v, t) := Option.some.inj h
      unfold terminalWrite at h
      -- the terminal is written through descriptor 1 only
      split_ifs at h with hfd
      · obtain ⟨rfl, rfl⟩ := Prod.mk.inj h
        exact .inl ⟨by decide, rfl⟩
      · obtain ⟨rfl, rfl⟩ := Prod.mk.inj h
        refine .inr ⟨not_not.mp hfd, rfl, ?_⟩
        rw [foldl_put]
        simp only
        rw [forLoop_eq_foldl (fun s c => Screen.putcTerminal c s) data]

theorem sysWriteC_console {fd : Int} {buf : Nat} {data : Mem} {nbytes v : Int} (w : Around)
    (h : sysWriteC fd buf data nbytes k = some (v, t)) :
    t.console =
      (Call.onConsole img w (.write fd buf data nbytes, .ofInt v)).foldl Console.after k.console := by
  have hshown : Call.onConsole img w (.write fd buf data nbytes, .ofInt v) =
      (if fd = 1 then (List.range v.toNat).map data else []).map .put := rfl
  have hnone (hv : v ≤ 0) (ht : t.console = k.console) :
      t.console =
        (Call.onConsole img w (.write fd buf data nbytes, .ofInt v)).foldl Console.after k.console := by
    rw [hshown, Int.toNat_of_nonpos hv, List.range_zero, List.map_nil, ite_self]
    exact ht
  unfold sysWriteC at h
  split_ifs at h
  iterate 3
    · obtain ⟨rfl, rfl⟩ := Prod.mk.inj (Option.some.inj h)
      exact hnone (by decide) rfl
  · obtain ⟨hv, ht⟩ | ⟨hfd, rfl, ht⟩ := writePtr_console h
    · exact hnone hv ht
    · rw [hshown, if_pos hfd, Int.toNat_natCast]
      exact ht
  · obtain ⟨rfl, rfl⟩ := Prod.mk.inj (Option.some.inj h)
    exact hnone (by decide) rfl

theorem seen_frame {e : Effect} {o : Seen} (h : e.seen k = some (o, t)) :
    t.console = k.console ∧ t.fs = k.fs := by
  obtain ⟨v, -, hstore⟩ := Option.bind_eq_some_iff.mp h
  obtain ⟨k', hk', hr⟩ := Option.map_eq_some_iff.mp hstore
  obtain ⟨-, rfl⟩ := Prod.mk.inj hr
  obtain ⟨pcbs, rfl⟩ := storeAll_pcbs hk'
  exact ⟨rfl, rfl⟩

/-- The name that a call looks up does not lead behind the buffer. -/
def Call.NamesFit (img : Image) : Call → Prop
  | .open _ name => img.NamesWithin name.bytes
  | _ => True

/-- **One call**: the console is what it makes of it, and what is behind the buffer is left
alone. -/
theorem taken_console (h : k.Running L) {c : Call} {w : Around} {o : Seen}
    (htaken : c.taken img w k = some (o, t)) :
    t.console = (Call.onConsole img w (c, o)).foldl Console.after k.console ∧
      (c.NamesFit img → k.BufferKept t) := by
  have hmade := (Call.taken_eq_some.mp htaken).1
  cases c with
  | read fd buf nbytes =>
      obtain ⟨r, hr, ho⟩ := Option.map_eq_some_iff.mp hmade
      obtain ⟨rfl, rfl⟩ := Prod.mk.inj ho
      exact ⟨sysReadC_console h hr, fun _ => .of_eq (sysReadC_frame (r := r.1) hr).1⟩
  | write fd buf data nbytes =>
      obtain ⟨v, hr, rfl⟩ := map_output_eq_some.mp hmade
      exact ⟨sysWriteC_console w hr, fun _ => .of_eq (by rw [sysWriteC_frame hr])⟩
  | «open» filename name =>
      obtain ⟨v, hr, rfl⟩ := map_output_eq_some.mp hmade
      obtain ⟨hconsole, hkept⟩ := sysOpenC_frame hr
      refine ⟨?_, fun hname => hkept fun name' hname' => ?_⟩
      · -- NULL names no entry
        have hunknown : (∃ name' ∈ if filename = 0 then none else some name, img.unknownType name') ↔
            filename ≠ 0 ∧ img.unknownType name := by
          split_ifs with hnull
          · simp [hnull]
          · simp [hnull]
        show _ = (if v ≠ -1 ∧ filename ≠ 0 ∧ img.unknownType name then [ConsoleEvent.reopen]
          else []).foldl Console.after k.console
        rw [hconsole, if_congr (and_congr_right fun _ => hunknown) rfl rfl]
        split_ifs
        · rfl
        · rfl
      · split_ifs at hname'
        · cases hname'
        · rw [← Option.some.inj hname']
          exact hname
  | close fd =>
      obtain ⟨v, hr, rfl⟩ := map_output_eq_some.mp hmade
      obtain ⟨hconsole, hbuffer⟩ := sysCloseC_frame hr
      exact ⟨hconsole, fun _ => .of_eq hbuffer⟩
  | getargs buf nbytes | vidmap screenStart =>
      obtain ⟨hconsole, hfs⟩ := seen_frame hmade
      exact ⟨hconsole, fun _ => .of_eq (by rw [hfs])⟩
  | invalid eax =>
      rw [Call.made] at hmade
      split_ifs at hmade
      obtain ⟨-, rfl⟩ := Prod.mk.inj (Option.some.inj hmade)
      exact ⟨rfl, fun _ => .of_eq rfl⟩

/-! ### A whole play -/

/-- **The console after a play** is what the trace makes of it. -/
theorem play_console {α : Type} {p : Program α} (hk : k.Running L) {happens : Nat → Around} {x : α}
    {d : Dialogue Call Seen} (h : play (Call.answer img) p happens k = some (x, d, t)) :
    t.console = (trace img happens d).foldl Console.after k.console ∧
      ((∀ q ∈ d, q.1.NamesFit img) → k.BufferKept t) := by
  induction p generalizing k d happens with
  | ret y =>
      obtain ⟨-, rfl, rfl⟩ := play_ret h
      exact ⟨rfl, fun _ => .of_eq rfl⟩
  | call c next ih =>
      obtain ⟨o, k', d', hanswer, rfl, hplay⟩ := play_call h
      obtain ⟨⟨os, u⟩, hinterrupts, htaken⟩ := Option.bind_eq_some_iff.mp hanswer
      have haside : k.Aside u := Around.After.aside ⟨os, hinterrupts⟩
      obtain ⟨hconsole, hkept⟩ := taken_console (hk.keeps haside.keeps) htaken
      obtain ⟨hconsole', hkept'⟩ := ih o (hk.keeps (answer_keeps hk hanswer)) hplay
      refine ⟨?_, fun hnames => ?_⟩
      · rw [hconsole', hconsole, interrupts_console hinterrupts, trace, List.foldl_append,
          List.foldl_append]
      · exact (haside.bufferKept.trans (hkept (hnames _ List.mem_cons_self))).trans
          (hkept' fun q hq => hnames q (List.mem_cons_of_mem _ hq))

/-- The key is pressed at this time. -/
def Around.Presses (w : Around) (input : UInt8) : Prop :=
  .key input ∈ w.interrupts ∨ .key input ∈ w.readEnv.events

/-- Nothing is typed. -/
def ConsoleEvent.Quiet : ConsoleEvent → Prop
  | .key _ => False
  | .line events => ∀ input, .key input ∉ events
  | _ => True

theorem reader_screen {events : List ReadEvent} (h : ∀ input, .key input ∉ events) (r : Reader) :
    (events.foldl Reader.step r).console.screen = r.console.screen := by
  induction events generalizing r with
  | nil => rfl
  | cons e events ih =>
      rw [List.foldl_cons, ih fun input hmem => h input (List.mem_cons_of_mem e hmem)]
      cases e with
      | key input => exact absurd List.mem_cons_self (h input)
      | own =>
          show (Reader.own _).console.screen = _
          unfold Reader.own
          split
          · rfl
          · split_ifs <;> rfl
          · split_ifs <;> rfl
          · rfl
          · rfl
          · rfl

/-- Without keys the output is all there is. -/
theorem foldl_quiet {es : List ConsoleEvent} (h : ∀ e ∈ es, e.Quiet) (c : Console) :
    (es.foldl Console.after c).screen =
      (es.filterMap ConsoleEvent.byte).foldl (fun s b => s.putcTerminal b) c.screen := by
  induction es generalizing c with
  | nil => rfl
  | cons e es ih =>
      rw [List.foldl_cons, ih fun e' he' => h e' (List.mem_cons_of_mem e he')]
      have hquiet := h e List.mem_cons_self
      cases e with
      | put b => rfl
      | reopen => rfl
      | key input => exact hquiet.elim
      | line events =>
          have hscreen : (c.after (.line events)).screen = c.screen := reader_screen hquiet _
          rw [hscreen]
          rfl

theorem trace_quiet {happens : Nat → Around} (h : ∀ n input, ¬ (happens n).Presses input)
    (d : Dialogue Call Seen) : ∀ e ∈ trace img happens d, e.Quiet := by
  induction d generalizing happens with
  | nil => exact List.forall_mem_nil _
  | cons q d ih =>
      rw [trace, List.forall_mem_append, List.forall_mem_append]
      -- keys come before the call, or during a read that waits
      refine ⟨⟨fun e he => ?_, fun e he => ?_⟩, ih fun n => h (n + 1)⟩
      · obtain ⟨i, hi, hie⟩ := List.mem_filterMap.mp he
        cases i with
        | key input => exact absurd (.inl hi) (h 0 input)
        | tick => cases hie
      · obtain ⟨c, o⟩ := q
        cases c with
        | read fd buf nbytes =>
            simp only [Call.onConsole] at he
            split_ifs at he
            · rw [List.mem_singleton.mp he]
              exact fun input hinput => h 0 input (.inr hinput)
            · cases he
        | «open» filename name =>
            simp only [Call.onConsole] at he
            split_ifs at he
            · rw [List.mem_singleton.mp he]
              trivial
            · cases he
        | write | close | getargs | vidmap | invalid =>
            obtain ⟨b, -, rfl⟩ := List.mem_map.mp he
            trivial

/-- The program ends with the value `result.2` in a state with `Q`.  It has shown `result.1`,
and the console is what the trace makes of it. -/
def Completes (img : Image) (p : Program (Option Int)) (happens : Nat → Around) (k : Kernel)
    (result : List UInt8 × Int) (Q : Kernel → Prop) : Prop :=
  ∃ d t, play (Call.answer img) p happens k = some (some result.2, d, t) ∧ shown d = result.1 ∧
    t.console = (trace img happens d).foldl Console.after k.console ∧ Q t

theorem completes_of_wins {P : Around → Prop} {p : Program (Option Int)} {result : List UInt8 × Int}
    {Q : Kernel → Prop} (hk : k.Running L)
    (h : Wins (Call.answer img) (fun w _ _ => P w) p k fun r d t =>
      r = some result.2 ∧ shown d = result.1 ∧ Q t)
    {happens : Nat → Around} (hP : ∀ n, P (happens n)) : Completes img p happens k result Q := by
  obtain ⟨x, d, t, hplay, rfl, hd, hQ⟩ := h.play (allowed_of_forall p hP k)
  exact ⟨d, t, hplay, hd, (play_console hk hplay).1, hQ⟩

end LinuxBasedOs
