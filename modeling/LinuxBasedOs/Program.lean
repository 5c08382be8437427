/-
LinuxBasedOs/Program.lean

User programs: C code that makes system calls, run on the kernel.

A program is a tree of calls and answers, and passes its memory along.  It runs as the
current process; keyboard and RTC interrupts come between its calls, as many as they like,
and what happens during a call is not its choice either (`Around`).  `Call.answer` is the
kernel, as it answers a call in such surroundings.  It is about calls whose pointers lead to
the page of the program: behind another pointer there may be nothing, so that the call ends
the process, or something of the kernel's, which `Kernel` need not have.

The rules for the calls say what a program finds in its buffers and registers, and that the
kernel's state stays one of a running process: `wins_write` for output, `wins_read` for any
read whose stores are known, and `Kernel.Started` for the state in which a program begins.
What a program has shown on the terminal is read off the dialogue (`shown`); what this has
to do with the screen is said in `Display`.
-/
import LinuxBasedOs.CommandLine
import LinuxBasedOs.Frames
import LinuxBasedOs.Interaction
import LinuxBasedOs.Listing

namespace LinuxBasedOs

open Bytes Transition Interaction

/-! ### System calls -/

/-- An interrupt between two instructions of the program. -/
inductive Interrupt where
  | key (input : UInt8)
  | tick

/-- The interrupt, as an event in the life of the kernel. -/
def Interrupt.event : Interrupt → Event
  | .key input => .key input
  | .tick => .tick

/-- What happens around a call: interrupts before it, what happens while a read waits, and
what is in the memory behind the PCB. -/
structure Around where
  interrupts : List Interrupt
  readEnv : ReadEnv
  beyond : Mem

/-- A system call, with the memory that the kernel reads through its arguments. -/
inductive Call where
  | read (fd : Int) (buf : Nat) (nbytes : Int)
  | write (fd : Int) (buf : Nat) (data : Mem) (nbytes : Int)
  | open (filename : Nat) (name : CString)
  | close (fd : Int)
  | getargs (buf : Nat) (nbytes : Int)
  | vidmap (screenStart : Nat)
  | invalid (eax : BitVec 32)   -- INT 0x80 with a number that is none

/-- A call that has made its stores. -/
def Effect.seen (e : Effect) (k : Kernel) : Option (Seen × Kernel) :=
  e.ret.bind fun v => (k.storeAll e.stores).map fun k' => (⟨.ret v, e.stores⟩, k')

/-- What the kernel does for a call, wherever its pointers lead. -/
def Call.made (img : Image) (w : Around) (k : Kernel) : Call → Option (Seen × Kernel)
  | .read fd buf nbytes => step img k (.read fd buf nbytes w.readEnv)
  | .write fd buf data nbytes => step img k (.write fd buf data nbytes)
  | .open filename name => step img k (.open (if filename = 0 then none else some name))
  | .close fd => step img k (.close fd)
  | .getargs buf nbytes => (sysGetargsC buf nbytes w.beyond k).seen k
  | .vidmap screenStart => (sysVidmapC screenStart k).seen k
  | .invalid eax => if eax.toNat = 0 ∨ 10 < eax.toNat then some (.ofInt (-1), k) else none

/-- How many bytes of its buffer a write looks at. -/
def writeLoads (fd : Int) (buf : Nat) (nbytes : Int) (k : Kernel) : Nat :=
  if fd < 0 ∨ fd > fdSize ∨ buf = 0 ∨ nbytes < 0 ∨ ¬ (k.fd fd.toNat).InUse then 0
  else
    match (k.fd fd.toNat).fileOpPtr with
    | .terminalTable => if fd = 1 then nbytes.toNat else 0
    | .rtcTable => 1
    | _ => 0

/-- What the kernel reads and stores through the pointers of a call is in the program
page. -/
def Call.InPage (k : Kernel) (o : Seen) (c : Call) : Prop :=
  (∀ q ∈ o.stores, InProgramPage q.1) ∧
    match c with
    | .write fd buf _ nbytes => BufferInPage buf (writeLoads fd buf nbytes k)
    | .open filename name => filename = 0 ∨ BufferInPage filename (name.bytes.length + 1)
    | _ => True

instance (k : Kernel) (o : Seen) (c : Call) : Decidable (c.InPage k o) := by
  unfold Call.InPage
  cases c <;> infer_instance

/-- The kernel takes the call; nothing is said about a call that is not `InPage`. -/
def Call.taken (img : Image) (w : Around) (k : Kernel) (c : Call) : Option (Seen × Kernel) :=
  (c.made img w k).filter fun r => c.InPage k r.1

theorem Call.taken_eq_some {img : Image} {w : Around} {k t : Kernel} {c : Call} {o : Seen} :
    c.taken img w k = some (o, t) ↔ c.made img w k = some (o, t) ∧ c.InPage k o := by
  rw [Call.taken, Option.filter_eq_some_iff, decide_eq_true_iff]

/-- First the interrupts, then the call. -/
def Call.answer (img : Image) (w : Around) (k : Kernel) (c : Call) : Option (Seen × Kernel) :=
  (run (step img) k (w.interrupts.map Interrupt.event)).bind fun r => c.taken img w r.2

/-! ### The support library -/

/-- C code with system calls. -/
abbrev Program := Prog Call Seen

/-- EAX behind the call. -/
def Seen.value (o : Seen) : Int :=
  match o.outcome with
  | .ret v => v
  | .entered => 0
  | .fault => 256

/-- The memory from an address on. -/
def memAt (m : Mem) (p : Nat) : Mem := fun i => m ((p + i) % 2 ^ 32)

/-- The string at an address. -/
def stringAt (m : Mem) (p : Nat) : CString :=
  ⟨string (memAt m p) (2 ^ 32), fun _ hb => ne_zero_of_mem_stringFrom hb⟩

/-- The address of a literal; any other one with room for it in the program page would do. -/
def literalAddr : Nat := 0x8048000

namespace User

/-- `ece391_read`, and memory after it. -/
def ece391Read (fd : Int) (buf : Nat) (nbytes : Int) (m : Mem) : Program (Int × Mem) := do
  let o ← Prog.ask (.read fd buf nbytes)
  pure (o.value, storeAll m o.stores)

/-- `ece391_write`. -/
def ece391Write (fd : Int) (buf : Nat) (nbytes : Int) (m : Mem) : Program Int := do
  let o ← Prog.ask (.write fd buf (memAt m buf) nbytes)
  pure o.value

/-- The pointer, and the string that it leads to. -/
def ece391Open (filename : Nat) (name : CString) : Program Int := do
  let o ← Prog.ask (.open filename name)
  pure o.value

/-- `ece391_close`. -/
def ece391Close (fd : Int) : Program Int := do
  let o ← Prog.ask (.close fd)
  pure o.value

/-- `ece391_getargs`, and memory after it. -/
def ece391Getargs (buf : Nat) (nbytes : Int) (m : Mem) : Program (Int × Mem) := do
  let o ← Prog.ask (.getargs buf nbytes)
  pure (o.value, storeAll m o.stores)

/-- `ece391_vidmap`, and memory after it. -/
def ece391Vidmap (screenStart : Nat) (m : Mem) : Program (Int × Mem) := do
  let o ← Prog.ask (.vidmap screenStart)
  pure (o.value, storeAll m o.stores)

/-- `ece391_fdputs` of a literal. -/
def ece391Fdputs (fd : Int) (s : List UInt8) : Program Unit := do
  let _ ← Prog.ask (.write fd literalAddr (fun i => s.getD i 0) s.length)
  pure ()

end User

/-! ### What is shown -/

/-- The bytes that a call has put on the terminal. -/
def Call.shown : Call × Seen → List UInt8
  | (.write fd _ data _, o) => if fd = 1 then (List.range o.value.toNat).map data else []
  | _ => []

/-- The same for all calls of a program. -/
def shown (d : Dialogue Call Seen) : List UInt8 := d.flatMap Call.shown

@[simp] theorem shown_nil : shown [] = [] := rfl

@[simp] theorem shown_append (d d' : Dialogue Call Seen) : shown (d ++ d') = shown d ++ shown d' :=
  List.flatMap_append

/-! ### Interrupts -/

variable {L : Layout} {img : Image} {k t u : Kernel}

/-- From `k` to `t` only the console and the RTC's state have changed. -/
def Kernel.Aside (k t : Kernel) : Prop :=
  ∃ c r, t = { k with console := c, rtc := r } ∧ (k.console.kbd.Ok → c.kbd.Ok)

namespace Kernel.Aside

theorem refl (k : Kernel) : k.Aside k := ⟨k.console, k.rtc, rfl, id⟩

theorem trans (h : k.Aside t) (h' : t.Aside u) : k.Aside u := by
  obtain ⟨c, r, rfl, hc⟩ := h
  obtain ⟨c', r', rfl, hc'⟩ := h'
  exact ⟨c', r', rfl, fun hok => hc' (hc hok)⟩

theorem keeps (h : k.Aside t) : Keeps k t := by
  obtain ⟨c, r, rfl, hc⟩ := h
  exact ⟨⟨rfl, rfl, rfl, rfl, fun _ _ => rfl, .refl _, hc⟩, id⟩

theorem fd (h : k.Aside t) (i : Nat) : t.fd i = k.fd i := by
  obtain ⟨c, r, rfl, -⟩ := h
  rfl

theorem bufferKept (h : k.Aside t) : k.BufferKept t := by
  obtain ⟨c, r, rfl, -⟩ := h
  exact .of_eq rfl

theorem cur (h : k.Aside t) : t.cur = k.cur := by
  obtain ⟨c, r, rfl, -⟩ := h
  rfl

theorem holdsCommand (h : k.Aside t) {command : CString} (hk : k.HoldsCommand command) :
    t.HoldsCommand command := by
  obtain ⟨c, r, rfl, -⟩ := h
  exact ⟨hk.length_lt, hk.room, hk.input⟩

end Kernel.Aside

theorem step_interrupt (img : Image) (k : Kernel) (i : Interrupt) :
    ∃ o t, step img k i.event = some (o, t) ∧ k.Aside t := by
  cases i with
  | key input => exact ⟨_, _, rfl, _, k.rtc, rfl, fun hok => Console.keyHandler_ok hok input⟩
  | tick => exact ⟨_, _, rfl, k.console, _, rfl, id⟩

/-- Interrupts are always possible, and touch no process. -/
theorem run_interrupts (img : Image) (k : Kernel) (is : List Interrupt) :
    ∃ os t, run (step img) k (is.map Interrupt.event) = some (os, t) ∧ k.Aside t := by
  induction is generalizing k with
  | nil => exact ⟨[], k, rfl, .refl k⟩
  | cons i is ih =>
      obtain ⟨o, t, hstep, ht⟩ := step_interrupt img k i
      obtain ⟨os, u, hrun, hu⟩ := ih t
      refine ⟨o :: os, u, ?_, ht.trans hu⟩
      rw [List.map_cons, run, hstep, Option.bind_some, hrun]
      rfl

/-- The state after the interrupts before a call. -/
def Around.After (img : Image) (w : Around) (k t : Kernel) : Prop :=
  ∃ os, run (step img) k (w.interrupts.map Interrupt.event) = some (os, t)

theorem Around.After.aside {w : Around} (h : w.After img k t) : k.Aside t := by
  obtain ⟨os, hrun⟩ := h
  obtain ⟨os', t', hrun', ht⟩ := run_interrupts img k w.interrupts
  obtain ⟨-, rfl⟩ := Prod.mk.inj (Option.some.inj (hrun.symm.trans hrun'))
  exact ht

/-! ### Rules for calls -/

/-- The state of a process that runs. -/
structure Kernel.Running (L : Layout) (k : Kernel) : Prop where
  inv : k.Inv L
  running : 1 ≤ k.processNumber

theorem Kernel.Running.keeps (h : k.Running L) (hk : Keeps k t) : t.Running L :=
  ⟨h.inv.of_keeps hk, by rw [hk.processNumber]; exact h.running⟩

theorem Kernel.Running.stdout (h : k.Running L) :
    (k.fd 1).fileOpPtr = .terminalTable ∧ (k.fd 1).InUse :=
  (h.inv.files (h.inv.curPcb_ne h.running)).stdout

theorem Kernel.Running.stdin (h : k.Running L) :
    (k.fd 0).fileOpPtr = .terminalTable ∧ (k.fd 0).InUse :=
  (h.inv.files (h.inv.curPcb_ne h.running)).stdin

/-- **One call**: the kernel is interrupted, and then takes it. -/
theorem wins_call {ok : Around → Kernel → Call → Prop} {c : Call} {Q : Seen → Kernel → Prop}
    (h : ∀ w t, ok w k c → w.After img k t → ∃ o u, c.taken img w t = some (o, u) ∧ Q o u) :
    Wins (Call.answer img) ok (Prog.ask c) k fun o d u => d = [(c, o)] ∧ Q o u := by
  rw [wins_ask]
  intro w hw
  obtain ⟨os, t, hrun, -⟩ := run_interrupts img k w.interrupts
  obtain ⟨o, u, htaken, hQ⟩ := h w t hw ⟨os, hrun⟩
  refine ⟨o, u, ?_, rfl, hQ⟩
  rw [Call.answer, hrun, Option.bind_some]
  exact htaken

/-! ### What a program says -/

section Says

variable {α β γ : Type} {ok : Around → Kernel → Call → Prop} {p : Program α} {s : List UInt8}

/-- The program ends with `Q`, and has shown `s`. -/
def Says (img : Image) (ok : Around → Kernel → Call → Prop) (p : Program α) (k : Kernel)
    (s : List UInt8) (Q : α → Kernel → Prop) : Prop :=
  Wins (Call.answer img) ok p k fun x d t => shown d = s ∧ Q x t

theorem says_pure {x : α} {Q : α → Kernel → Prop} (h : Q x k) :
    Says img ok (pure x) k [] Q := ⟨rfl, h⟩

theorem Says.mono {Q R : α → Kernel → Prop} (h : Says img ok p k s Q) (hQR : ∀ x t, Q x t → R x t) :
    Says img ok p k s R :=
  Wins.mono h fun x _ t hd => ⟨hd.1, hQR x t hd.2⟩

theorem Says.bind {f : α → Program β} {s' : List UInt8} {Q : α → Kernel → Prop}
    {R : β → Kernel → Prop} (h : Says img ok p k s Q)
    (hnext : ∀ x t, Q x t → Says img ok (f x) t s' R) : Says img ok (p >>= f) k (s ++ s') R := by
  refine Wins.bind h fun x d t hd => ?_
  refine Wins.mono (hnext x t hd.2) fun y d' u hd' => ?_
  rw [shown_append, hd.1, hd'.1]
  exact ⟨rfl, hd'.2⟩

/-- A first part that shows nothing. -/
theorem Says.bind_quiet {f : α → Program β} {Q : α → Kernel → Prop} {R : β → Kernel → Prop}
    (h : Says img ok p k [] Q) (hnext : ∀ x t, Q x t → Says img ok (f x) t s R) :
    Says img ok (p >>= f) k s R := h.bind hnext

/-- A second part that shows nothing. -/
theorem Says.then_quiet {f : α → Program β} {Q : α → Kernel → Prop} {R : β → Kernel → Prop}
    (h : Says img ok p k s Q) (hnext : ∀ x t, Q x t → Says img ok (f x) t [] R) :
    Says img ok (p >>= f) k s R := by
  rw [← List.append_nil s]
  exact h.bind hnext

theorem says_ite {c : Prop} [Decidable c] {q : Program α} {s' : List UInt8} {Q : α → Kernel → Prop}
    (hp : Says img ok p k s Q) (hq : Says img ok q k s' Q) :
    Says img ok (if c then p else q) k (if c then s else s') Q := by
  split_ifs
  · exact hp
  · exact hq

/-- A loop over a list that shows nothing; `I` is about what is left of the list. -/
theorem says_foldlM {f : β → γ → Program β} {I : List γ → β → Kernel → Prop}
    (hstep : ∀ x rest b k, I (x :: rest) b k → Says img ok (f b x) k [] fun b' t => I rest b' t)
    {xs : List γ} {b : β} (h : I xs b k) : Says img ok (xs.foldlM f b) k [] fun b' t => I [] b' t := by
  induction xs generalizing b k with
  | nil => exact says_pure h
  | cons x xs ih => exact (hstep x xs b k h).bind_quiet fun b' t hI => ih hI

end Says

/-! ### Output -/

theorem taken_write (img : Image) (h : k.Running L) (w : Around) {buf n : Nat} (hne : buf ≠ 0)
    (hbuf : BufferInPage buf n) (data : Mem) :
    ∃ t, (Call.write 1 buf data n).taken img w k = some (.ofInt n, t) ∧ k.Aside t := by
  have hcur := h.inv.curPcb_ne h.running
  have huse : (k.fd (Int.toNat 1)).InUse := h.stdout.2
  have hwrite : sysWriteC 1 buf data n k = some (terminalWrite 1 data n k) := by
    rw [sysWriteC, if_neg (by decide), if_neg hne, if_neg (by omega), if_neg hcur,
      if_neg (not_not.mpr huse)]
    show FdOps.writePtr 1 data _ k (k.fd 1).fileOpPtr = _
    rw [h.stdout.1, Int.toNat_natCast]
    rfl
  -- the terminal loads all the bytes that it puts out
  have hloads : writeLoads 1 buf n k = n := by
    have hno : ¬ ((1 : Int) < 0 ∨ (1 : Int) > fdSize ∨ buf = 0 ∨ (n : Int) < 0 ∨
        ¬ (k.fd (Int.toNat 1)).InUse) := by
      simp only [fdSize]
      tauto
    rw [writeLoads, if_neg hno]
    show (match (k.fd 1).fileOpPtr with
      | .terminalTable => _
      | .rtcTable => 1
      | _ => 0) = n
    rw [h.stdout.1]
    rfl
  refine ⟨(terminalWrite 1 data n k).2, Call.taken_eq_some.mpr ⟨?_, ?_, ?_⟩, _, k.rtc, rfl, id⟩
  · show Option.map _ (sysWriteC 1 buf data n k) = _
    rw [hwrite]
    rfl
  · exact List.forall_mem_nil _
  · show BufferInPage buf (writeLoads 1 buf n k)
    rw [hloads]
    exact hbuf

/-- **Output** is shown, whatever happens in between. -/
theorem wins_output {ok : Around → Kernel → Call → Prop} (h : k.Running L) {buf n : Nat}
    (hne : buf ≠ 0) (hbuf : BufferInPage buf n) (data : Mem) :
    Wins (Call.answer img) ok (Prog.ask (.write 1 buf data n)) k fun o d t =>
      o.value = n ∧ shown d = (List.range n).map data ∧ k.Aside t := by
  refine (wins_call (Q := fun o t => o.value = n ∧ k.Aside t) fun w t _ hafter => ?_).mono ?_
  · have ht := hafter.aside
    obtain ⟨u, htaken, hu⟩ := taken_write img (h.keeps ht.keeps) w hne hbuf data
    exact ⟨_, u, htaken, rfl, ht.trans hu⟩
  · rintro o d t ⟨rfl, hvalue, ht⟩
    refine ⟨hvalue, ?_, ht⟩
    rw [shown, List.flatMap_singleton, Call.shown, if_pos rfl, hvalue, Int.toNat_natCast]

/-! ### Input -/

/-- A read that returns `bs.length` has stored `bs` to the buffer, and perhaps more. -/
def Gives (img : Image) (k : Kernel) (fd : Int) (buf : Nat) (nbytes : Int) (env : ReadEnv)
    (bs : List UInt8) (t : Kernel) : Prop :=
  ∃ tail, BufferInPage buf (bs ++ tail).length ∧ step img k (.read fd buf nbytes env) =
    some (⟨.ret bs.length, storesTo buf (storesAt 0 (bs ++ tail))⟩, t)

theorem Gives.bufferKept {fd : Int} {buf : Nat} {nbytes : Int} {env : ReadEnv} {bs : List UInt8}
    (h : Gives img k fd buf nbytes env bs t) : k.BufferKept t := by
  obtain ⟨tail, -, hst⟩ := h
  exact step_bufferKept (e := .read fd buf nbytes env) trivial hst

theorem BufferInPage.length_le {buf n : Nat} (h : BufferInPage buf n) : n ≤ 2 ^ 32 := by
  rw [BufferInPage] at h
  omega

/-- Bytes that are stored to a buffer in the page. -/
theorem BufferInPage.stores {buf : Nat} {bs : List UInt8} (h : BufferInPage buf bs.length) :
    ∀ q ∈ storesTo buf (storesAt 0 bs), InProgramPage q.1 := by
  refine storesTo_inProgramPage h ?_
  rw [storesAt_lt_iff (Nat.zero_le _)]
  omega

theorem holds_given (m : Mem) (buf : Nat) {bs tail : List UInt8}
    (hlen : (bs ++ tail).length ≤ 2 ^ 32) :
    Holds (memAt (storeAll m (storesTo buf (storesAt 0 (bs ++ tail)))) buf) 0 bs := by
  intro i hi
  have hi' : i < (bs ++ tail).length := by
    rw [List.length_append]
    omega
  have hbyte := storeAll_storesTo m buf 0 hlen hi'
  rw [Nat.zero_add] at hbyte
  rw [Nat.zero_add, memAt, hbyte, List.getElem_append_left hi]

/-- A call that delivers, for what it is known to deliver. -/
theorem gives_of_bytesAt {fd : Int} {buf : Nat} {nbytes : Int} {env : ReadEnv}
    {bs bs' tail : List UInt8} {o : Seen} (hst : step img k (.read fd buf nbytes env) = some (o, t))
    (hout : o.outcome = .ret bs.length) (hbytes : o.bytesAt buf = bs)
    (hstores : o.stores = storesTo buf (storesAt 0 (bs' ++ tail))) (hlen : bs'.length = bs.length)
    (hroom : BufferInPage buf (bs' ++ tail).length) : Gives img k fd buf nbytes env bs t := by
  obtain ⟨out, stores⟩ := o
  obtain rfl : out = .ret bs.length := hout
  obtain rfl : stores = storesTo buf (storesAt 0 (bs' ++ tail)) := hstores
  obtain rfl : bs' = bs := by
    rw [← hlen, bytesAt_storesTo buf hroom.length_le] at hbytes
    exact hbytes
  exact ⟨tail, hroom, hst⟩

/-- What a read leaves alone. -/
theorem Kernel.Running.read (h : k.Running L) {fd : Int} {buf : Nat} {nbytes : Int} {env : ReadEnv}
    (hlands : (Event.read fd buf nbytes env).Lands img k) {o : Seen}
    (hst : step img k (.read fd buf nbytes env) = some (o, t)) :
    t.Running L ∧ ∀ j, j ≠ fd.toNat → t.fd j = k.fd j := by
  refine ⟨h.keeps (step_keeps h.inv hlands id hst), fun j hj => ?_⟩
  obtain ⟨r, hx, -⟩ := step_read hst
  obtain ⟨e, he, -, rfl⟩ := sysReadC_effect h.inv hlands hx
  obtain rfl | ⟨-, hread⟩ := sysReadEffect_cases he
  · rfl
  · exact readPtr_fd hread hj

theorem BufferInPage.mono {buf m n : Nat} (h : BufferInPage buf n) (hm : m ≤ n) :
    BufferInPage buf m := by
  rw [BufferInPage] at h ⊢
  omega

theorem BufferInPage.ne_zero {buf n : Nat} (h : BufferInPage buf n) (hn : 0 < n) : buf ≠ 0 := by
  rw [BufferInPage] at h
  omega

/-- **A read from a regular file** delivers what comes next. -/
theorem gives_file (h : k.Running L) {inode i : Nat} (hf : img.FileOk inode) (hi : i < 8)
    {got : List UInt8} (hd : (k.fd i).Streaming img inode got) {buf n : Nat}
    (hbuf : BufferInPage buf n) (hn : 0 < n) (env : ReadEnv) :
    ∃ t, Gives img k i buf n env (img.next inode got n) t ∧ t.Running L ∧
      (t.fd i).Streaming img inode (got ++ img.next inode got n) ∧
      ∀ j, j ≠ i → t.fd j = k.fd j := by
  have hfits : (Event.read i buf n env).ReadFits img k := by
    intro _
    refine hbuf.mono ?_
    rw [readRoom, Int.toNat_natCast, hd.table, Int.toNat_natCast]
    exact Nat.min_le_left _ _
  have hlands := hfits.lands h.inv.keyboard
  have hne := hbuf.ne_zero hn
  obtain ⟨o, t, hst, hout, hbytes, hnew⟩ :=
    step_read_streaming h.inv h.running hf hi hd hne (Int.natCast_nonneg n) env hfits
  rw [Int.toNat_natCast] at hout hbytes hnew
  obtain ⟨hrunning, hothers⟩ := h.read hlands hst
  refine ⟨t, ?_, hrunning, hnew, fun j hj => hothers j (by rw [Int.toNat_natCast]; exact hj)⟩
  -- a NUL behind the bytes is stored within the room, too
  obtain ⟨tail, saved, loads, -, hread, hroom, -⟩ := hd.readData hf hne n
  have hacc : ReadAccepted i buf n k :=
    ⟨by omega, by omega, hne, by omega, h.inv.curPcb_ne h.running, hd.inUse⟩
  have heffect : sysReadEffect img i buf n env k = some (fileRead img i buf n k) := by
    rw [sysReadEffect_accepted hacc, Int.toNat_natCast, Int.toNat_natCast, hd.table]
    rfl
  obtain ⟨r, hx, rfl⟩ := step_read hst
  obtain ⟨e, he, rfl, -⟩ := sysReadC_effect h.inv hlands hx
  rw [heffect] at he
  obtain rfl := Option.some.inj he
  refine gives_of_bytesAt hst hout hbytes ?_ rfl (hbuf.mono hroom)
  rw [fileRead_eq img _ hne hd.inUse hd.fileType, hread]

/-- **A read from the directory** delivers the next name; it needs room for a name and a
NUL. -/
theorem gives_dir (hn63 : img.nDirEntries ≤ 63) (h : k.Running L) {i m : Nat} (hi : i < 8)
    (hd : (k.fd i).Listing img m) {buf n : Nat} (hn : 32 ≤ n) (hbuf : BufferInPage buf 33)
    (env : ReadEnv) :
    ∃ t, Gives img k i buf n env (img.listed m) t ∧ t.Running L ∧
      (t.fd i).Listing img (m + 1) ∧ ∀ j, j ≠ i → t.fd j = k.fd j := by
  -- a name has at most 32 bytes, and a NUL behind it
  have hroom' : ∀ pos, dirRoom img pos n ≤ 33 := by
    intro pos
    have hname := img.length_name_le (pos + 1)
    simp only [nameLen] at hname
    rw [dirRoom]
    split_ifs
    · omega
    · omega
    · omega
  have hroom : (Event.read i buf n env).Roomy img k := by
    intro _
    refine hbuf.mono ?_
    rw [Int.toNat_natCast, Int.toNat_natCast, if_pos hd.table]
    exact hroom' _
  have hlands := hroom.lands hn63 h.inv
  have hne := hbuf.ne_zero (by decide)
  obtain ⟨o, t, hst, hout, hbytes, hnew⟩ :=
    step_read_listing hn63 h.inv h.running hi hd hne (show (32 : Int) ≤ n by omega) env hroom
  obtain ⟨hrunning, hothers⟩ := h.read hlands hst
  refine ⟨t, ?_, hrunning, hnew, fun j hj => hothers j (by rw [Int.toNat_natCast]; exact hj)⟩
  have hacc : ReadAccepted i buf n k :=
    ⟨by omega, by omega, hne, by omega, h.inv.curPcb_ne h.running, hd.inUse⟩
  obtain ⟨hdir, h2, htype⟩ := sysReadEffect_dir img h.inv hacc
    (by rw [Int.toNat_natCast]; exact hd.table) env
  obtain ⟨e, tail, hread, hret, hstores, hlen, -⟩ :=
    dirRead_lists hn63 h2 hacc.fd_lt hne n hacc.inUse htype
  obtain ⟨r, hx, rfl⟩ := step_read hst
  obtain ⟨e', he, rfl, -⟩ := sysReadC_effect h.inv hlands hx
  rw [hdir, Int.toNat_natCast, hread] at he
  obtain rfl := Option.some.inj he
  refine gives_of_bytesAt hst hout hbytes hstores ?_ ?_
  · have hint : e.ret = ((img.listed m).length : Int) := Outcome.ret.inj hout
    rw [hret] at hint
    exact_mod_cast hint
  · rw [hlen]
    exact hbuf.mono (hroom' _)

/-- The keys pressed during the call let `terminal_read` return. -/
def Around.Enters (w : Around) (k : Kernel) : Prop :=
  match (w.readEnv.events.foldl Reader.step (.call k.console)).pc with
  | .done _ => True
  | _ => False

instance (w : Around) (k : Kernel) : Decidable (w.Enters k) :=
  match h : (w.readEnv.events.foldl Reader.step (.call k.console)).pc with
  | .done _ => isTrue (by rw [Around.Enters, h]; trivial)
  | .clear | .poll | .copy _ | .resetFlag _ | .finalClear _ =>
      isFalse (by rw [Around.Enters, h]; exact id)

theorem Around.Enters.done {w : Around} (h : w.Enters k) :
    ∃ i, (w.readEnv.events.foldl Reader.step (.call k.console)).pc = .done i := by
  unfold Around.Enters at h
  split at h
  · exact ⟨_, ‹_›⟩
  · cases h

theorem reader_inOrder {r : Reader} (h : r.InOrder) (events : List ReadEvent) :
    (events.foldl Reader.step r).InOrder := by
  induction events generalizing r with
  | nil => exact h
  | cons e events ih => exact ih (h.step e)

/-- **A read from the keyboard** delivers some line, however few bytes it asks for; the buffer
needs room for the whole line buffer. -/
theorem step_keyboard (img : Image) (h : k.Running L) {buf : Nat} (hbuf : BufferInPage buf 128)
    (n : Nat) {w : Around} (henters : w.Enters k) :
    ∃ line t, step img k (.read 0 buf n w.readEnv) =
        some (⟨.ret line.length, storesTo buf (storesAt 0 line)⟩, t) ∧
      line.length ≤ 128 ∧ k.Aside t := by
  obtain ⟨i, hdone⟩ := henters.done
  set r := w.readEnv.events.foldl Reader.step (.call k.console) with hr
  have hstdin := h.stdin
  have hne := hbuf.ne_zero (by decide)
  have hacc : ReadAccepted 0 buf n k :=
    ⟨le_rfl, by decide, hne, by omega, h.inv.curPcb_ne h.running, hstdin.2⟩
  have heffect : sysReadEffect img 0 buf n w.readEnv k =
      some ⟨i, storesTo buf r.stores, fun k => { k with console := r.console }⟩ := by
    rw [sysReadEffect_accepted hacc]
    show FdOps.readPtr img 0 buf _ w.readEnv k (k.fd 0).fileOpPtr = _
    rw [hstdin.1]
    show terminalRead 0 buf w.readEnv.events k = _
    rw [terminalRead, if_neg (by decide), ← hr]
    simp only [hdone]
  have hstart : (Reader.call k.console).InOrder := rfl
  -- what is stored is the line, in order and from the start of the buffer on
  have horder : r.InOrder := reader_inOrder hstart w.readEnv.events
  have hstores : r.stores = storesAt 0 (r.stores.map Prod.snd) := eq_storesAt horder
  have hlen : (r.stores.map Prod.snd).length = i := by
    have hcopied := congrArg List.length horder
    rw [List.length_map, List.length_range, Reader.copied, hdone] at hcopied
    rw [List.length_map]
    exact hcopied
  -- the index of the line buffer bounds it, not the number that was asked for
  have hlt : ∀ p ∈ r.stores, p.1 < 128 :=
    reader_stores_lt (r := .call k.console) h.inv.keyboard (no_stores_lt _) w.readEnv.events
  have hle : (r.stores.map Prod.snd).length ≤ 128 := by
    rw [hstores] at hlt
    have hall := (storesAt_lt_iff (Nat.zero_le 128)).mp hlt
    omega
  have hbase := h.inv.base h.running
  have hstore : k.storeAll (storesTo buf r.stores) = some k :=
    Kernel.storeAll_inProgramPage h.inv.paging (by have := h.running; omega) h.inv.base_lt
      (storesTo_inProgramPage hbuf hlt)
  refine ⟨r.stores.map Prod.snd, { k with console := r.console }, ?_, hle, ?_⟩
  · show Option.map _ (sysReadC img 0 buf n w.readEnv k) = _
    rw [sysReadC, heffect, Option.bind_some, hstore, ← hstores, hlen]
    rfl
  · exact ⟨r.console, k.rtc, rfl, fun hok => reader_keyboard_ok hok _⟩

/-- A read from the keyboard returns. -/
def LinesTyped (img : Image) (w : Around) (k : Kernel) : Call → Prop
  | .read fd _ _ => fd = 0 →
      ∀ r ∈ run (step img) k (w.interrupts.map Interrupt.event), w.Enters r.2
  | _ => True

instance (img : Image) (w : Around) (k : Kernel) : (c : Call) → Decidable (LinesTyped img w k c)
  | .read fd _ _ => inferInstanceAs (Decidable (fd = 0 →
      ∀ r ∈ run (step img) k (w.interrupts.map Interrupt.event), w.Enters r.2))
  | .write .. | .open .. | .close _ | .getargs .. | .vidmap _ | .invalid _ => isTrue trivial

theorem wins_keyboard (h : k.Running L) {buf : Nat} (hbuf : BufferInPage buf 128) (n : Nat)
    (m : Mem) :
    Wins (Call.answer img) (LinesTyped img) (User.ece391Read 0 buf n m) k fun r d t =>
      ∃ line, d = [(.read 0 buf n, ⟨.ret line.length, storesTo buf (storesAt 0 line)⟩)] ∧
        r = ((line.length : Int), storeAll m (storesTo buf (storesAt 0 line))) ∧
        line.length ≤ 128 ∧ k.Aside t := by
  refine (wins_call (Q := fun o t => ∃ line, o = ⟨.ret line.length, storesTo buf (storesAt 0 line)⟩ ∧
    line.length ≤ 128 ∧ k.Aside t) fun w t hw hafter => ?_).bind ?_
  · have ht := hafter.aside
    obtain ⟨line, u, hstep, hlen, hu⟩ :=
      step_keyboard img (h.keeps ht.keeps) hbuf n (hafter.elim fun os hrun => hw rfl (os, t) hrun)
    have hpage := (hbuf.mono hlen).stores
    exact ⟨_, u, Call.taken_eq_some.mpr ⟨hstep, hpage, trivial⟩, line, rfl, hlen, ht.trans hu⟩
  · rintro o d t ⟨rfl, line, rfl, hlen, ht⟩
    exact ⟨line, rfl, rfl, hlen, ht⟩

/-- A read whose buffer is then looked at. -/
theorem wins_read {ok : Around → Kernel → Call → Prop} {fd : Int} {buf : Nat} {nbytes : Int}
    (m : Mem) {Q : List UInt8 → Kernel → Prop}
    (h : ∀ w t, ok w k (.read fd buf nbytes) → w.After img k t →
      ∃ bs u, Gives img t fd buf nbytes w.readEnv bs u ∧ Q bs u) :
    Wins (Call.answer img) ok (User.ece391Read fd buf nbytes m) k fun r d u =>
      ∃ bs, r.1 = bs.length ∧ Holds (memAt r.2 buf) 0 bs ∧ shown d = [] ∧ Q bs u := by
  refine (wins_call (Q := fun o u => ∃ bs tail, (bs ++ tail).length ≤ 2 ^ 32 ∧
    o = ⟨.ret bs.length, storesTo buf (storesAt 0 (bs ++ tail))⟩ ∧ Q bs u) fun w t hw ht => ?_).bind
    fun o d u => ?_
  · obtain ⟨bs, u, ⟨tail, hroom, hst⟩, hQ⟩ := h w t hw ht
    have htaken := Call.taken_eq_some (c := .read fd buf nbytes) (w := w).mpr
      ⟨hst, hroom.stores, trivial⟩
    exact ⟨_, u, htaken, bs, tail, hroom.length_le, rfl, hQ⟩
  · rintro ⟨rfl, bs, tail, hlen, rfl, hQ⟩
    exact ⟨bs, rfl, holds_given m buf hlen, rfl, hQ⟩

/-! ### Opening -/

/-- The result `v` of opening an entry, if `i` is the first free descriptor.  An entry of an
unknown type is opened in name only. -/
def OpenResult (img : Image) (i : Nat) (v : Int) (t : Kernel) : Option Nat → Prop
  | none => v = -1
  | some e => v = i ∧ if img.dentryType e ≤ 2 then t.fd i = img.opened e else ¬ (t.fd i).InUse

/-- What opening a name leads to. -/
structure Opened (L : Layout) (img : Image) (name : List UInt8) (i : Nat) (k : Kernel) (v : Int)
    (t : Kernel) : Prop where
  running : t.Running L
  others : ∀ j, (k.fd j).InUse → t.fd j = k.fd j
  result : ∀ {entry}, img.entryOf name = entry → OpenResult img i v t entry
  kept : img.NamesWithin name → k.BufferKept t

/-- A name in the program page. -/
theorem taken_openName (img : Image) (w : Around) {filename : Nat} {name : CString}
    (hname : BufferInPage filename (name.bytes.length + 1)) {v : Int}
    (h : sysOpenC img (some name) k = some (v, t)) :
    (Call.open filename name).taken img w k = some (.ofInt v, t) := by
  refine Call.taken_eq_some.mpr ⟨?_, List.forall_mem_nil _, .inr hname⟩
  show Option.map _ (sysOpenC img (if filename = 0 then none else some name) k) = _
  rw [if_neg (hname.ne_zero (Nat.succ_pos _)), h]
  rfl

/-- The kernel looks a name up, and opens what it finds in the first free descriptor. -/
theorem taken_open (hn63 : img.nDirEntries ≤ 63) (h : k.Running L) (w : Around) {filename : Nat}
    {name : CString} (hname : BufferInPage filename (name.bytes.length + 1)) {i : Nat}
    (hfree : firstFree k.cur.fileArray = i) (hi : i < 8) :
    ∃ o t, (Call.open filename name).taken img w k = some (o, t) ∧
      Opened L img name.bytes i k o.value t := by
  have hcur := h.inv.curPcb_ne h.running
  have hlookup := lookup_eq hn63 name
  have hopened {v : Int} {t : Kernel} (hx : sysOpenC img (some name) k = some (v, t))
      (hresult : OpenResult img i v t (img.entryOf name.bytes)) :
      ∃ o t, (Call.open filename name).taken img w k = some (o, t) ∧
        Opened L img name.bytes i k o.value t := by
    refine ⟨.ofInt v, t, taken_openName img w hname hx, h.keeps (sysOpenC_keeps hx),
      fun j hj => sysOpenC_fd hx hj, fun hentry => hentry ▸ hresult, fun hwithin => ?_⟩
    refine (sysOpenC_frame hx).2 fun name' hname' => ?_
    rw [← Option.some.inj hname']
    exact hwithin
  -- no such name, a type with a driver, or another one, which is opened as the terminal
  cases hentry : img.entryOf name.bytes with
  | none =>
      rw [hentry] at hlookup hopened
      obtain ⟨found, fs, hname, hfound⟩ := readDentryByName_isSome hlookup k.fs
      obtain rfl : found = none := Option.map_eq_none_iff.mp hfound
      refine hopened (v := -1) (t := { k with fs := fs }) ?_ rfl
      rw [sysOpenC, hname, Option.bind_some]
  | some e =>
      rw [hentry] at hlookup hopened
      by_cases htype : img.dentryType e ≤ 2
      · obtain ⟨t, hx, hfd, -⟩ := sysOpenC_known hlookup htype hcur (by rw [hfree]; exact hi)
        rw [hfree] at hx hfd
        refine hopened hx ⟨rfl, ?_⟩
        rw [if_pos htype]
        exact hfd
      · obtain ⟨t, hx, hfd⟩ :=
          sysOpenC_unknown hlookup (not_le.mp htype) hcur (by rw [hfree]; exact hi)
        rw [hfree] at hx hfd
        refine hopened hx ⟨rfl, ?_⟩
        rw [if_neg htype]
        exact hfd

/-- **Opening a name.** -/
theorem wins_open {ok : Around → Kernel → Call → Prop} (hn63 : img.nDirEntries ≤ 63)
    (h : k.Running L) {filename : Nat} {name : CString}
    (hname : BufferInPage filename (name.bytes.length + 1)) {i : Nat}
    (hfree : firstFree k.cur.fileArray = i) (hi : i < 8) :
    Wins (Call.answer img) ok (User.ece391Open filename name) k fun r d t =>
      shown d = [] ∧ Opened L img name.bytes i k r t := by
  refine (wins_call (Q := fun o t => Opened L img name.bytes i k o.value t)
    fun w t _ hafter => ?_).bind ?_
  · have ht := hafter.aside
    obtain ⟨o, u, htaken, hu⟩ :=
      taken_open hn63 (h.keeps ht.keeps) w hname (by rw [ht.cur]; exact hfree) hi
    refine ⟨o, u, htaken, hu.running, fun j hj => ?_, hu.result,
      fun hwithin => ht.bufferKept.trans (hu.kept hwithin)⟩
    rw [hu.others j (by rw [ht.fd]; exact hj), ht.fd]
  · rintro o d t ⟨rfl, hopened⟩
    exact ⟨rfl, hopened⟩

/-! ### The start of a program -/

/-- A process that has just been started with a command. -/
structure Kernel.Started (L : Layout) (command : CString) (k : Kernel) : Prop extends
    k.Running L where
  holds : k.HoldsCommand command
  files : k.cur.fileArray = initialFiles

theorem started_execute (h : k.Inv L) {command : CString} {env : ExecEnv}
    (hx : step img k (.execute command env) = some (⟨.entered, []⟩, t)) : t.Started L command := by
  obtain ⟨⟨out, t'⟩, hexec, hr⟩ := Option.bind_eq_some_iff.mp hx
  obtain ⟨fs, ⟨rfl, rfl⟩ | ⟨hn, rfl, rfl⟩ | ⟨hn, rfl, rfl⟩⟩ := h.execute hexec
  · cases (Prod.mk.inj (Option.some.inj hr)).1
  · obtain ⟨⟨v, u⟩, -, hfault⟩ := Option.map_eq_some_iff.mp hr
    cases (Prod.mk.inj hfault).1
  · obtain ⟨-, rfl⟩ := Prod.mk.inj (Option.some.inj hr)
    have hinv : ({ k with fs := fs } : Kernel).Inv L := h.of_keeps (.globals k fs k.rtc)
    refine ⟨⟨hinv.enter hn command env, ?_⟩, holdsCommand_execute h hexec, ?_⟩
    · show 1 ≤ k.processNumber + 1
      omega
    · rw [Kernel.cur, enter_curPcb, enter_pcbs, Function.update_self]
      rfl

/-- The first file that the program opens gets descriptor 2. -/
theorem Kernel.Started.firstFree {command : CString} (h : k.Started L command) :
    firstFree k.cur.fileArray = 2 := by
  rw [h.files]
  decide

/-- **The arguments**, if the buffer has room for them as `sys_getargs_c` counts. -/
theorem wins_getargs {ok : Around → Kernel → Call → Prop} {command : CString}
    (h : k.Started L command) {word args : List UInt8} (hs : command.Splits word args)
    {buf n : Nat} (hbuf : BufferInPage buf n) (hroom : word.length + 2 * args.length + 2 ≤ n)
    (m : Mem) :
    Wins (Call.answer img) ok (User.ece391Getargs buf n m) k fun r d t =>
      r.1 = (if args = [] then -1 else 0) ∧ Holds (memAt r.2 buf) 0 (args ++ [0]) ∧
        shown d = [] ∧ k.Aside t := by
  have hpage : n < 2 ^ 31 := by
    rw [BufferInPage] at hbuf
    omega
  refine (wins_call (Q := fun o t => o = ⟨.ret (if args = [] then -1 else 0),
    storesTo buf (storesAt 0 (args ++ [0] ++ []))⟩ ∧ k.Aside t) fun w t _ hafter => ?_).bind ?_
  · have ht := hafter.aside
    have heffect := sysGetargsC_eq (ht.holdsCommand h.holds) hs buf
      (show -2 ^ 31 ≤ (n : Int) by omega) (by omega) w.beyond
    -- `sys_getargs_c` takes the word off the size and copies half of what is left
    have hbound : ¬ argsBound n word.length args.length ≤ args.length := by
      rw [argsBound, if_pos (by omega)]
      omega
    simp only [List.length_eq_zero_iff] at heffect
    rw [if_neg hbound] at heffect
    have hpage' : ∀ q ∈ storesTo buf (storesAt 0 (args ++ [0])), InProgramPage q.1 := by
      refine BufferInPage.stores (hbuf.mono ?_)
      rw [List.length_append, List.length_singleton]
      omega
    refine ⟨_, t, Call.taken_eq_some.mpr ⟨?_, hpage', trivial⟩, by rw [List.append_nil], ht⟩
    have hrunning := h.toRunning.keeps ht.keeps
    have hpositive := hrunning.running
    have hbase := hrunning.inv.base hpositive
    have hstore :=
      Kernel.storeAll_inProgramPage hrunning.inv.paging (by omega) hrunning.inv.base_lt hpage'
    show (sysGetargsC buf n w.beyond t).seen t = _
    rw [heffect, Effect.seen, Option.bind_some, hstore]
    rfl
  · rintro o d t ⟨rfl, rfl, ht⟩
    refine ⟨rfl, holds_given m buf ?_, rfl, ht⟩
    simp only [List.length_append, List.length_singleton, List.length_nil]
    omega

/-! ### What a call leaves alone -/

/-- A call does nothing to the other processes. -/
theorem taken_keeps (h : k.Running L) {w : Around} {c : Call} {o : Seen}
    (htaken : c.taken img w k = some (o, t)) : Keeps k t := by
  obtain ⟨ht, hpage, -⟩ := Call.taken_eq_some.mp htaken
  have hpositive := h.running
  have hbase := h.inv.base hpositive
  have hnoStores {e : Effect} (hseen : e.seen k = some (o, t)) : Keeps k t := by
    obtain ⟨v, -, hv⟩ := Option.bind_eq_some_iff.mp hseen
    obtain ⟨k', hstore, heq⟩ := Option.map_eq_some_iff.mp hv
    obtain ⟨rfl, rfl⟩ := Prod.mk.inj heq
    rw [Kernel.storeAll_inProgramPage h.inv.paging (by omega) h.inv.base_lt hpage] at hstore
    obtain rfl := Option.some.inj hstore
    exact .refl k
  have hstep {e : Event} (hlands : e.Lands img k) (hcall : ¬ e.IsProcessCall)
      (hst : step img k e = some (o, t)) : Keeps k t := step_keeps h.inv hlands hcall hst
  cases c with
  | read fd buf nbytes =>
      refine hstep (e := .read fd buf nbytes w.readEnv) ?_ id ht
      -- what a read stores is in the page, since its call was answered
      intro e he q hq
      obtain ⟨r, hread, rfl⟩ := step_read ht
      rw [sysReadC, he, Option.bind_some] at hread
      obtain ⟨k', -, heq⟩ := Option.map_eq_some_iff.mp hread
      obtain ⟨rfl, -⟩ := Prod.mk.inj heq
      exact hpage q hq
  | write fd buf data nbytes => exact hstep (e := .write fd buf data nbytes) trivial id ht
  | «open» filename name => exact hstep (e := .open _) trivial id ht
  | close fd => exact hstep (e := .close fd) trivial id ht
  | getargs buf nbytes => exact hnoStores ht
  | vidmap screenStart => exact hnoStores ht
  | invalid eax =>
      simp only [Call.made] at ht
      split_ifs at ht
      obtain ⟨-, rfl⟩ := Prod.mk.inj (Option.some.inj ht)
      exact .refl k

theorem answer_keeps (h : k.Running L) {w : Around} {c : Call} {o : Seen}
    (ht : c.answer img w k = some (o, t)) : Keeps k t := by
  obtain ⟨⟨os, u⟩, hrun, htaken⟩ := Option.bind_eq_some_iff.mp ht
  have hu : w.After img k u := ⟨os, hrun⟩
  exact hu.aside.keeps.trans (taken_keeps (h.keeps hu.aside.keeps) htaken)

end LinuxBasedOs
