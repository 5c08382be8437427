/-
LinuxBasedOs/Shell.lean

The shell (ece391shell.c) on the kernel, with the programs that it starts.

A call of `execute` returns after the whole life of the child: what the child and its own
children do is a list of `Descendant` steps, over which the shell has no say, until there are
as many processes as before (`lifetime`).  A process whose status has the low byte 0, and one
that an exception ends, takes the shell with it, so that `execute` does not return at all
(see `sysHalt_of_byte_zero`); for the other ones EAX is the child's EBX.  As everywhere,
`sys_halt_c` is taken to return behind the parent's call of `sys_execute_c`, with its value
in EAX.

`shell_session` says what a session looks like: the dialogue is a list of rounds, each with a
line and what `execute` returned for it, and the shell has the process, the descriptors and
the page with which it began.
-/
import LinuxBasedOs.Linkage
import LinuxBasedOs.Loader
import LinuxBasedOs.Utilities
import Mathlib.Data.List.TakeWhile

namespace LinuxBasedOs

open Bytes Transition Interaction
open Grep (text bufSize)

/-! ### Children -/

/-- A step of a child, or of a process that it has started. -/
inductive Descendant where
  | call (w : Around) (c : Call)
  | execute (command : CString) (env : ExecEnv)
  | halt (e : HaltEntry)

/-- EAX behind the step, and the kernel. -/
def Descendant.step (img : Image) (k : Kernel) : Descendant → Option (BitVec 32 × Kernel)
  | .call w c => (c.answer img w k).map fun r => (BitVec.ofInt 32 r.1.value, r.2)
  | .execute command env =>
      (LinuxBasedOs.step img k (.execute command env)).bind fun r =>
        -- a program that is too large for its page ends every process
        if r.1.outcome = .fault then none else some (BitVec.ofInt 32 r.1.value, r.2)
  | .halt e => (endProcess e k).map fun r => (r.eax, r.kernel)

/-- The steps until only `n` processes are left.  `none` if they never are, or if there are
fewer. -/
def lifetime (img : Image) (n : Nat) : List Descendant → Kernel → Option (BitVec 32 × Kernel)
  | [], _ => none
  | d :: ds, k =>
      (d.step img k).bind fun r =>
        if n < r.2.processNumber then lifetime img n ds r.2
        else if r.2.processNumber = n then some r
        else none

/-- Commands fit into the arrays of `sys_execute_c`. -/
def Descendant.Safe : Descendant → Prop
  | .execute command _ => (firstWord command).length ≤ 32 ∧ command.bytes.length < 1024
  | .call .. | .halt _ => True

instance : (d : Descendant) → Decidable d.Safe
  | .execute command _ => inferInstanceAs
      (Decidable ((firstWord command).length ≤ 32 ∧ command.bytes.length < 1024))
  | .call .. | .halt _ => isTrue trivial

/-- The steps are safe, and come to the point where `n` processes are left. -/
def Returning (img : Image) (n : Nat) : List Descendant → Kernel → Prop
  | [], _ => False
  | d :: ds, k =>
      d.Safe ∧
        match d.step img k with
        | none => False
        | some r => if n < r.2.processNumber then Returning img n ds r.2 else r.2.processNumber = n

instance decidableReturning (img : Image) (n : Nat) :
    (ds : List Descendant) → (k : Kernel) → Decidable (Returning img n ds k)
  | [], _ => isFalse id
  | d :: ds, k =>
      match h : d.step img k with
      | none => isFalse fun hret => by
          rw [Returning, h] at hret
          exact hret.2
      | some r =>
          haveI : Decidable (Returning img n ds r.2) := decidableReturning img n ds r.2
          decidable_of_iff (d.Safe ∧
              if n < r.2.processNumber then Returning img n ds r.2 else r.2.processNumber = n)
            (by rw [Returning, h])

/-! ### The shell -/

/-- What happens around a call of the shell; a call of `execute` also has a child. -/
structure ShellAround where
  around : Around
  exec : ExecEnv
  child : List Descendant

/-- The calls of the shell. -/
inductive ShellCall where
  | user (c : Call)
  | execute (command : CString)

/-- What the call leads to.  `execute` returns at once if the kernel refuses the command; else
it returns when the child has come to its end, with what is then in EAX. -/
def ShellCall.answer (img : Image) (w : ShellAround) (k : Kernel) :
    ShellCall → Option (Seen × Kernel)
  | .user c => c.answer img w.around k
  | .execute command =>
      (run (step img) k (w.around.interrupts.map Interrupt.event)).bind fun r =>
        (step img r.2 (.execute command w.exec)).bind fun q =>
          match q.1.outcome with
          | .ret v => some (.ofInt v, q.2)
          | .entered =>
              (lifetime img k.processNumber w.child q.2).map fun u => (.ofInt u.1.toInt, u.2)
          | .fault => none

/-- What is needed for a session: lines are typed, commands fit into the arrays of
`sys_execute_c`, programs into their page, and children come to an end that the shell
survives. -/
def Session (img : Image) (w : ShellAround) (k : Kernel) : ShellCall → Prop
  | .user c => LinesTyped img w.around k c
  | .execute command =>
      (firstWord command).length ≤ 32 ∧
        ∀ r ∈ run (step img) k (w.around.interrupts.map Interrupt.event),
          ∀ q ∈ step img r.2 (.execute command w.exec), q.1.outcome ≠ .fault ∧
            (q.1.outcome = .entered → Returning img k.processNumber w.child q.2)

instance (img : Image) (w : ShellAround) (k : Kernel) :
    (c : ShellCall) → Decidable (Session img w k c)
  | .user c => inferInstanceAs (Decidable (LinesTyped img w.around k c))
  | .execute command => inferInstanceAs (Decidable ((firstWord command).length ≤ 32 ∧
        ∀ r ∈ run (step img) k (w.around.interrupts.map Interrupt.event),
          ∀ q ∈ step img r.2 (.execute command w.exec), q.1.outcome ≠ .fault ∧
            (q.1.outcome = .entered → Returning img k.processNumber w.child q.2)))

/-- C code that may also start programs. -/
abbrev ShellProgram := Prog ShellCall Seen

namespace User

/-- `ece391_execute`. -/
def ece391Execute (command : CString) : ShellProgram Int := do
  let o ← Prog.ask (.execute command)
  pure o.value

/-- `ece391_strcmp` from index `i` on, for at most `left` bytes. -/
def ece391StrcmpFrom (s₁ s₂ : Mem) : (left i : Nat) → Option Int
  | 0, _ => none
  | left + 1, i =>
      if s₁ i = s₂ i then if s₁ i = 0 then some 0 else ece391StrcmpFrom s₁ s₂ left (i + 1)
      else some ((s₁ i).toNat - (s₂ i).toNat)

/-- `ece391_strcmp`; `none` if both strings fill memory. -/
def ece391Strcmp (s₁ s₂ : Mem) : Option Int := ece391StrcmpFrom s₁ s₂ (2 ^ 32) 0

/-- One pass through the loop of `main`. -/
def shellRound (buf : Nat) (m : Mem) : ShellProgram (Mem ⊕ Int) := do
  (ece391Fdputs 1 (text "391OS> ")).lift .user
  let (cnt, m) ← (ece391Read 0 buf (bufSize - 1 : Nat) m).lift .user
  if cnt = -1 then
    (ece391Fdputs 1 (text "read from keyboard failed\n")).lift .user
    pure (.inr 3)
  else
    let cnt := if 0 < cnt ∧ memAt m buf (cnt - 1).toNat = 10 then cnt - 1 else cnt
    -- buf[cnt] = '\0'
    let m := Function.update m ((buf + cnt.toNat) % 2 ^ 32) 0
    if ece391Strcmp (memAt m buf) (fun i => (text "exit").getD i 0) = some 0 then pure (.inr 0)
    else if memAt m buf 0 = 0 then pure (.inl m)
    else
      let rval ← ece391Execute (stringAt m buf)
      if rval = -1 then (ece391Fdputs 1 (text "no such command\n")).lift .user
      else if rval = 256 then (ece391Fdputs 1 (text "program terminated by exception\n")).lift .user
      else if rval ≠ 0 then (ece391Fdputs 1 (text "program terminated abnormally\n")).lift .user
      pure (.inl m)

/-- `main` of ece391shell.c. -/
def shell (fuel buf : Nat) (m : Mem) : ShellProgram (Option Int) := do
  (ece391Fdputs 1 (text "Starting 391 Shell\n")).lift .user
  Prog.loop (shellRound buf) fuel m

end User

/-! ### What a descendant can do -/

variable {L : Layout} {img : Image} {k t : Kernel}

/-- If processes are left, then one has ended, and it has left its EBX. -/
theorem endProcess_left (h : k.Running L) {e : HaltEntry} {r : Iret} (hr : endProcess e k = some r)
    (hleft : 1 ≤ r.kernel.processNumber) :
    r.eax = e.ebx ∧ e.ebx.toNat % 256 ≠ 0 ∧ Ended k r.kernel := by
  by_cases hbyte : e.ebx.toNat % 256 = 0
  · obtain ⟨u, hu, hzero⟩ := sysHalt_of_byte_zero h.inv hbyte (Nat.lt_succ_self _)
    obtain rfl := Option.some.inj (hr.symm.trans hu)
    have hzero' : (⟨-1, 6, u⟩ : Iret).kernel.processNumber = 0 := hzero
    omega
  · obtain ⟨u, hu, hended⟩ := sysHalt_of_byte_ne_zero h.inv h.running hbyte k.processNumber
    obtain rfl := Option.some.inj (hr.symm.trans hu)
    exact ⟨rfl, hbyte, hended⟩

/-- A step is one of those that the processes can make, and if a process ends by it, its EBX
is in EAX, with a low byte that is not 0. -/
theorem Descendant.advance (h : k.Running L) {d : Descendant}
    {eax : BitVec 32} (hd : d.step img k = some (eax, t)) (hleft : 1 ≤ t.processNumber) :
    Advance k t ∧ (t.processNumber < k.processNumber → eax.toNat % 256 ≠ 0) := by
  cases d with
  | call w c =>
      obtain ⟨⟨o, u⟩, hanswer, heq⟩ := Option.map_eq_some_iff.mp hd
      obtain ⟨-, rfl⟩ := Prod.mk.inj heq
      have hkeeps := answer_keeps h hanswer
      refine ⟨.keeps hkeeps, fun hlt => ?_⟩
      rw [hkeeps.processNumber] at hlt
      exact absurd hlt (lt_irrefl _)
  | execute command env =>
      obtain ⟨⟨o, u⟩, hexec, heq⟩ := Option.bind_eq_some_iff.mp hd
      split_ifs at heq with hfault
      obtain ⟨-, rfl⟩ := Prod.mk.inj (Option.some.inj heq)
      refine ⟨step_advance (e := .execute command env) h.inv trivial hexec, fun hlt => ?_⟩
      -- an `execute` ends no process
      obtain ⟨fs, -, rfl⟩ | ⟨fs, -, -, rfl⟩ | ⟨ho, -⟩ := step_execute h.inv hexec
      · exact absurd hlt (lt_irrefl _)
      · exact absurd hlt (Nat.not_lt.mpr (Nat.le_succ _))
      · exact absurd ho hfault
  | halt e =>
      obtain ⟨r, hr, heq⟩ := Option.map_eq_some_iff.mp hd
      obtain ⟨rfl, rfl⟩ := Prod.mk.inj heq
      obtain ⟨heax, hbyte, hended⟩ := endProcess_left h hr hleft
      rw [heax]
      exact ⟨.ended h.running hended, fun _ => hbyte⟩

theorem Above.single {n : Nat} (hadv : Advance k t) (h : k.Inv L) (hlt : n < k.processNumber) :
    Above L n k t :=
  ⟨hadv.inv h, hadv.frame h hlt, hadv.base h hlt⟩

theorem Above.cons {n : Nat} {u : Kernel} (hadv : Advance k u) (h : k.Inv L)
    (hlt : n < k.processNumber) (habove : Above L n u t) : Above L n k t := by
  have hframe := hadv.frame h hlt
  refine ⟨habove.inv, hframe.trans habove.frame, fun hle => ?_⟩
  have hlinks := hframe.links
  rw [habove.base hle, hlinks]

/-- **The life of a child.**  It comes to its end, the first `n` processes are as they were,
and the low byte of EAX is not 0. -/
theorem lifetime_returns {n : Nat} (hn : 1 ≤ n) {ds : List Descendant} (h : k.Inv L)
    (hlt : n < k.processNumber) (hret : Returning img n ds k) :
    ∃ eax t, lifetime img n ds k = some (eax, t) ∧ Above L n k t ∧ t.processNumber = n ∧
      eax.toNat % 256 ≠ 0 := by
  induction ds generalizing k with
  | nil => exact hret.elim
  | cons d ds ih =>
      obtain ⟨-, hnext⟩ := hret
      rcases hd : d.step img k with - | ⟨eax, u⟩
      · rw [hd] at hnext
        exact hnext.elim
      simp only [hd] at hnext
      -- the shell is not taken along: that is what the condition says at every step
      have hleft : n ≤ u.processNumber := by
        by_cases hgo : n < u.processNumber
        · exact hgo.le
        · rw [if_neg hgo] at hnext
          exact hnext.ge
      obtain ⟨hadv, hbyte⟩ := Descendant.advance ⟨h, by omega⟩ hd (by omega)
      rw [lifetime, hd, Option.bind_some]
      by_cases hgo : n < u.processNumber
      · rw [if_pos hgo] at hnext ⊢
        obtain ⟨eax', t, ht, habove, hnumber, hbyte'⟩ := ih (hadv.inv h) hgo hnext
        exact ⟨eax', t, ht, .cons hadv h hlt habove, hnumber, hbyte'⟩
      · rw [if_neg hgo] at hnext
        rw [if_neg hgo, if_pos hnext]
        exact ⟨eax, u, rfl, .single hadv h hlt, hnext, hbyte (by omega)⟩

/-- From `k` to `t` the shell's own process is as it was. -/
structure Back (L : Layout) (k t : Kernel) : Prop where
  running : t.Running L
  processNumber : t.processNumber = k.processNumber
  curPcb : t.curPcb = k.curPcb
  cur : t.cur = k.cur

theorem Back.refl (h : k.Running L) : Back L k k := ⟨h, rfl, rfl, rfl⟩

theorem Back.trans {u : Kernel} (h : Back L k t) (h' : Back L t u) : Back L k u :=
  ⟨h'.running, h'.processNumber.trans h.processNumber, h'.curPcb.trans h.curPcb, h'.cur.trans h.cur⟩

theorem Kernel.Aside.back (h : k.Aside t) (hk : k.Running L) : Back L k t := by
  refine ⟨hk.keeps h.keeps, h.keeps.processNumber, h.keeps.curPcb, h.cur⟩

/-- A process is started and comes to its end. -/
theorem Above.back (hk : k.Running L) {command : CString} {env : ExecEnv} {fs : FsGlobals}
    (hn : k.processNumber < 6)
    (h : Above L k.processNumber (enter command env k.paging.base ({ k with fs := fs } : Kernel).loading) t)
    (ht : t.processNumber = k.processNumber) : Back L k t := by
  have hcur : t.curPcb = k.curPcb := by rw [h.inv.curPcb, ht, hk.inv.curPcb]
  refine ⟨⟨h.inv, by rw [ht]; exact hk.running⟩, ht, hcur, ?_⟩
  rw [Kernel.cur, Kernel.cur, hcur, hk.inv.curPcb, h.frame.pcbs _ le_rfl, enter_pcbs]
  refine Function.update_of_ne (fun heq => ?_) ..
  have hne := pcbAddr_inj (j := k.processNumber + 1) (by omega) (by omega) heq
  omega

/-- The page is there or not, and the program fits into it or not. -/
theorem load_isSome {command : CString} (hlen : command.bytes.length < 1024) (env : ExecEnv)
    (program : List (Nat × UInt8)) (k : Kernel) : ∃ r, load command env program k = some r := by
  rw [load, if_neg (not_le.mpr hlen)]
  split
  · exact ⟨_, rfl⟩
  · split
    · exact ⟨_, rfl⟩
    · exact ⟨_, rfl⟩

theorem sysExecuteC_isSome (hn63 : img.nDirEntries ≤ 63) {command : CString}
    (hlen : command.bytes.length < 1024) (env : ExecEnv) (k : Kernel) :
    ∃ r, sysExecuteC img command env k = some r := by
  by_cases h6 : 6 ≤ k.processNumber
  · exact ⟨_, if_pos h6⟩
  have hlt := not_le.mp h6
  by_cases hpast : GetsPast img command env k
  · obtain ⟨-, d, hd, helf⟩ := hpast
    obtain ⟨fs, hload⟩ := sysExecuteC_of_isElf env hlt hd helf
    rw [hload]
    apply load_isSome hlen
  · have hrejects : RejectsCommand img command env := by
      refine ⟨_, lookup_eq hn63 (commandWord command), fun d hd htype hpass => hpast ?_⟩
      have hnames : img.NamesFile command d := ⟨by rw [lookup_eq hn63, hd], htype⟩
      exact ⟨hlt, d, hnames, (isElf_iff_passesCheck img _ _).mpr hpass⟩
    obtain ⟨-, fs, hret⟩ := hrejects.execute hlt
    exact ⟨_, hret⟩

/-- A command that fits into its array is looked up, and the call comes to an end. -/
theorem step_execute_isSome (hn63 : img.nDirEntries ≤ 63) (hk : k.Running L) {command : CString}
    (hlen : command.bytes.length < 1024) (env : ExecEnv) :
    ∃ r, step img k (.execute command env) = some r := by
  obtain ⟨⟨o, t⟩, hexec⟩ := sysExecuteC_isSome hn63 hlen env k
  rw [step, hexec, Option.bind_some]
  obtain ⟨fs, ⟨rfl, -⟩ | ⟨hn, rfl, rfl⟩ | ⟨-, rfl, -⟩⟩ := hk.inv.execute hexec
  · exact ⟨_, rfl⟩
  · obtain ⟨u, hu, -⟩ := (hk.inv.loading_links hn fs).halt hk.running 256
    exact ⟨_, Option.map_eq_some_iff.mpr ⟨_, hu, rfl⟩⟩
  · exact ⟨_, rfl⟩

/-- **A call of `execute`** that is followed by a life the shell survives. -/
theorem answer_execute (hn63 : img.nDirEntries ≤ 63) (hk : k.Running L) {command : CString}
    (hlen : command.bytes.length < 1024) {w : ShellAround}
    (hw : Session img w k (.execute command)) :
    ∃ v t, ShellCall.answer img w k (.execute command) = some (.ofInt v, t) ∧ v % 256 ≠ 0 ∧
      Back L k t := by
  obtain ⟨os, u, hrun, hu⟩ := run_interrupts img k w.around.interrupts
  have hback := hu.back hk
  obtain ⟨⟨o, t⟩, hexec⟩ := step_execute_isSome hn63 hback.running hlen w.exec
  obtain ⟨hfault, hlife⟩ := hw.2 (os, u) hrun (o, t) hexec
  rw [ShellCall.answer, hrun, Option.bind_some, hexec, Option.bind_some]
  -- -1, or a child, which comes back with its EBX
  obtain ⟨fs, rfl, rfl⟩ | ⟨fs, hn, rfl, rfl⟩ | ⟨ho, -⟩ := step_execute hback.running.inv hexec
  · have hkeeps : Keeps u { u with fs := fs } := .globals u fs u.rtc
    refine ⟨-1, _, rfl, by decide, hback.trans ⟨hback.running.keeps hkeeps, rfl, rfl, rfl⟩⟩
  · have hnumber := hback.processNumber
    obtain ⟨eax, t, ht, habove, hleft, hbyte⟩ := lifetime_returns hk.running
      ((Advance.entered command w.exec fs hn).inv hback.running.inv)
      (by show k.processNumber < u.processNumber + 1; omega) (hlife rfl)
    rw [← hnumber] at habove hleft
    refine ⟨eax.toInt, t, ?_, ?_, hback.trans (habove.back hback.running hn hleft)⟩
    · show Option.map _ (lifetime img k.processNumber w.child _) = _
      rw [ht]
      rfl
    · rw [BitVec.toInt_eq_toNat_cond]
      split_ifs
      · omega
      · omega
  · exact absurd ho hfault

/-! ### Lines -/

namespace User

variable {buf : Nat} {m : Mem}

/-- A line without the newline at its end. -/
def chomp (line : List UInt8) : List UInt8 :=
  if line.getLast? = some 10 then line.dropLast else line

/-- What the shell takes for the command: it ends at the first NUL. -/
def typed (line : List UInt8) : CString where
  bytes := (chomp line).takeWhile (· ≠ 0)
  nonzero := fun _ hb => by simpa using List.mem_takeWhile_imp hb

theorem chomp_initial (line : List UInt8) : chomp line <+: line := by
  rw [chomp]
  split_ifs
  · exact List.dropLast_prefix line
  · exact List.prefix_refl line

theorem length_typed_le (line : List UInt8) : (typed line).bytes.length ≤ line.length :=
  ((List.takeWhile_prefix _).length_le).trans (chomp_initial line).length_le

/-- What the shell computes as the length of the command. -/
theorem chomp_length {line : List UInt8} (h : Holds (memAt m buf) 0 line) :
    (if 0 < (line.length : Int) ∧ memAt m buf ((line.length : Int) - 1).toNat = 10
      then (line.length : Int) - 1 else line.length) = ((chomp line).length : Nat) := by
  rcases List.eq_nil_or_concat line with rfl | ⟨front, b, hline⟩
  · rfl
  rw [List.concat_eq_append] at hline
  subst hline
  have hlast : memAt m buf (((front ++ [b]).length : Int) - 1).toNat = b := by
    have hb := (holds_append.mp h).2 0 Nat.one_pos
    rw [List.length_append, List.length_singleton]
    have hindex : (((front.length + 1 : Nat) : Int) - 1).toNat = 0 + front.length + 0 := by omega
    rw [hindex]
    exact hb
  have hpos : 0 < ((front ++ [b]).length : Int) := by
    rw [List.length_append, List.length_singleton]
    omega
  rw [hlast, chomp, List.getLast?_concat, List.dropLast_concat]
  by_cases hb : b = 10
  · rw [if_pos ⟨hpos, hb⟩, if_pos (congrArg some hb), List.length_append, List.length_singleton]
    omega
  · rw [if_neg fun hand => hb hand.2, if_neg fun heq => hb (Option.some.inj heq)]

theorem takeWhile_nul_initial (bs : List UInt8) : bs.takeWhile (· ≠ 0) ++ [0] <+: bs ++ [0] := by
  induction bs with
  | nil => exact List.prefix_refl _
  | cons b bs ih =>
      by_cases hb : b = 0
      · subst hb
        exact ⟨bs ++ [0], rfl⟩
      · rw [List.takeWhile_cons_of_pos (by simpa using hb), List.cons_append, List.cons_append,
          List.prefix_cons_inj]
        exact ih

/-- The string that is in the buffer then. -/
theorem stringAt_typed {line : List UInt8} (h : Holds (memAt m buf) 0 (chomp line ++ [0]))
    (hlen : line.length < 2 ^ 32) : stringAt m buf = typed line := by
  have hbytes : (stringAt m buf).bytes = (typed line).bytes := by
    refine stringAt_of_holds ?_ (typed line).nonzero ((length_typed_le line).trans_lt hlen)
    obtain ⟨rest, hrest⟩ := takeWhile_nul_initial (chomp line)
    rw [← hrest] at h
    exact (holds_append.mp h).1
  exact (CString.mk.injEq ..).mpr hbytes

/-- A string is compared with a literal. -/
theorem ece391StrcmpFrom_eq_zero_iff {s₁ s₂ : Mem} {left i : Nat} {bs : List UInt8}
    (h : Holds s₂ i bs) (hnul : s₂ (i + bs.length) = 0) (hnz : ∀ b ∈ bs, b ≠ 0)
    (hleft : bs.length < left) :
    ece391StrcmpFrom s₁ s₂ left i = some 0 ↔ stringFrom s₁ left i = bs := by
  induction bs generalizing left i with
  | nil =>
      obtain ⟨left, rfl⟩ := Nat.exists_eq_succ_of_ne_zero hleft.ne'
      have h0 : s₂ i = 0 := hnul
      rw [ece391StrcmpFrom, stringFrom, h0]
      -- both end here, or the typed string is longer
      by_cases hs : s₁ i = 0
      · rw [if_pos hs, if_pos hs, if_pos hs]
        exact iff_of_true rfl rfl
      · rw [if_neg hs, if_neg hs]
        refine iff_of_false (fun heq => hs ?_) (List.cons_ne_nil _ _)
        have hvalue := Option.some.inj heq
        have hzero : (0 : UInt8).toNat = 0 := rfl
        exact UInt8.toNat_inj.mp (by omega)
  | cons b bs ih =>
      obtain ⟨left, rfl⟩ := Nat.exists_eq_succ_of_ne_zero (Nat.ne_of_gt (Nat.zero_lt_of_lt hleft))
      obtain ⟨hb, hbs⟩ := holds_cons.mp h
      have hbz : b ≠ 0 := hnz b List.mem_cons_self
      rw [List.length_cons] at hleft hnul
      rw [ece391StrcmpFrom, stringFrom, hb]
      by_cases hs : s₁ i = b
      · rw [if_pos hs, hs, if_neg hbz, if_neg hbz, List.cons.injEq, and_iff_right rfl]
        exact ih hbs (by rw [Nat.add_right_comm]; exact hnul)
          (fun c hc => hnz c (List.mem_cons_of_mem b hc)) (by omega)
      · rw [if_neg hs]
        refine iff_of_false (fun heq => hs ?_) ?_
        · have hvalue := Option.some.inj heq
          exact UInt8.toNat_inj.mp (by omega)
        · split_ifs
          · exact id
          · exact fun heq => hs (List.cons.inj heq).1

theorem ece391Strcmp_exit (m : Mem) (buf : Nat) :
    ece391Strcmp (memAt m buf) (fun i => (text "exit").getD i 0) = some 0 ↔
      (stringAt m buf).bytes = text "exit" := by
  refine ece391StrcmpFrom_eq_zero_iff (fun i hi => ?_) rfl (by decide +kernel) (by decide)
  rw [Nat.zero_add, List.getD_eq_getElem]

theorem memAt_zero_iff (m : Mem) (buf : Nat) : memAt m buf 0 = 0 ↔ (stringAt m buf).bytes = [] := by
  show _ ↔ stringFrom (memAt m buf) (2 ^ 32) 0 = []
  rw [show 2 ^ 32 = (2 ^ 32 - 1) + 1 from rfl, stringFrom]
  split_ifs with h
  · exact iff_of_true h rfl
  · exact iff_of_false h id

/-! ### A session -/

/-- A line, and what `execute` has returned if it was called. -/
structure Round where
  line : List UInt8
  result : Option Int

/-- A literal that has been put out. -/
def said (s : List UInt8) : ShellCall × Seen :=
  (.user (.write 1 literalAddr (fun i => s.getD i 0) s.length), .ofInt s.length)

/-- The shell's part of a round. -/
def Round.dialogue (buf : Nat) (r : Round) : Dialogue ShellCall Seen :=
  [said (text "391OS> "), (.user (.read 0 buf (bufSize - 1 : Nat)),
    ⟨.ret r.line.length, storesTo buf (storesAt 0 r.line)⟩)] ++
  match r.result with
  | none => []
  | some v =>
      [(.execute (typed r.line), .ofInt v),
        said (if v = -1 then text "no such command\n" else text "program terminated abnormally\n")]

/-- The line is `exit`. -/
def Round.Exits (r : Round) : Prop := (typed r.line).bytes = text "exit"

/-- A command is run unless there is none, or it is `exit`; its result is never one that
`main` has another message for, or none. -/
structure Round.Answered (r : Round) : Prop where
  run : r.result = none ↔ (typed r.line).bytes = [] ∨ r.Exits
  result : ∀ v ∈ r.result, v % 256 ≠ 0

/-- The ends of a session: by `exit`, or not in the time given. -/
def Ends (fuel : Nat) (rounds : List Round) : Option Int → Prop
  | none => rounds.length = fuel ∧ ∀ r ∈ rounds, ¬ r.Exits
  | some v => v = 0 ∧ ∃ before r, rounds = before ++ [r] ∧ r.Exits ∧ ∀ r' ∈ before, ¬ r'.Exits

/-- Calls other than `execute`. -/
theorem wins_user {α : Type} {p : Program α} {Q : α → Dialogue Call Seen → Kernel → Prop}
    (h : Wins (Call.answer img) (LinesTyped img) p k Q) :
    Wins (ShellCall.answer img) (Session img) (p.lift .user) k fun x d t =>
      ∃ d₀, d = d₀.map (Prod.map .user id) ∧ Q x d₀ t :=
  h.lift (f := ShellCall.user) (g := ShellAround.around) (fun _ _ _ => rfl) fun _ _ _ hok => hok

theorem wins_said (hk : k.Running L) {s : List UInt8} (hs : BufferInPage literalAddr s.length) :
    Wins (ShellCall.answer img) (Session img) ((ece391Fdputs 1 s).lift .user) k fun _ d t =>
      d = [said s] ∧ Back L k t := by
  have hputs : Wins (Call.answer img) (LinesTyped img) (ece391Fdputs 1 s) k fun _ d t =>
      d = [(.write 1 literalAddr (fun i => s.getD i 0) s.length, .ofInt s.length)] ∧ k.Aside t := by
    refine (wins_call (Q := fun o t => o = .ofInt s.length ∧ k.Aside t) fun w t _ hafter => ?_).bind ?_
    · have ht := hafter.aside
      obtain ⟨u, htaken, hu⟩ := taken_write img (hk.keeps ht.keeps) w
        (show literalAddr ≠ 0 by decide) hs fun i => s.getD i 0
      exact ⟨_, u, htaken, rfl, ht.trans hu⟩
    · rintro o d t ⟨rfl, rfl, ht⟩
      exact ⟨rfl, ht⟩
  refine (wins_user hputs).mono ?_
  rintro - d t ⟨d₀, rfl, rfl, ht⟩
  exact ⟨rfl, ht.back hk⟩

/-- What the shell does with a line. -/
theorem command_wins (hn63 : img.nDirEntries ≤ 63) (hk : k.Running L) {command : CString}
    (hlen : command.bytes.length < 1024) (m : Mem) :
    Wins (ShellCall.answer img) (Session img) (do
      let rval ← ece391Execute command
      if rval = -1 then (ece391Fdputs 1 (text "no such command\n")).lift .user
      else if rval = 256 then (ece391Fdputs 1 (text "program terminated by exception\n")).lift .user
      else if rval ≠ 0 then (ece391Fdputs 1 (text "program terminated abnormally\n")).lift .user
      pure (Sum.inl m : Mem ⊕ Int)) k fun r d t =>
        r = .inl m ∧ Back L k t ∧ ∃ v, v % 256 ≠ 0 ∧ d = [(.execute command, .ofInt v),
          said (if v = -1 then text "no such command\n" else text "program terminated abnormally\n")] := by
  have hexec : Wins (ShellCall.answer img) (Session img) (ece391Execute command) k fun v d t =>
      d = [(.execute command, .ofInt v)] ∧ v % 256 ≠ 0 ∧ Back L k t := by
    refine wins_bind.mpr (wins_ask.mpr fun w hw => ?_)
    obtain ⟨v, t, hanswer, hv, ht⟩ := answer_execute hn63 hk hlen hw
    exact ⟨_, t, hanswer, rfl, hv, ht⟩
  refine hexec.bind ?_
  rintro v d t ⟨rfl, hv, ht⟩
  have hsay {s : List UInt8} (hs : BufferInPage literalAddr s.length) :
      Wins (ShellCall.answer img) (Session img) (((ece391Fdputs 1 s).lift .user : ShellProgram Unit) >>=
        fun _ => pure (Sum.inl m : Mem ⊕ Int)) t fun r d u => r = .inl m ∧ Back L k u ∧ d = [said s] := by
    refine (wins_said ht.running hs).bind ?_
    rintro - d u ⟨rfl, hu⟩
    exact ⟨rfl, ht.trans hu, rfl⟩
  by_cases hminus : v = -1
  · rw [if_pos hminus]
    refine (hsay (by decide +kernel)).mono ?_
    rintro r d u ⟨rfl, hu, rfl⟩
    exact ⟨rfl, hu, v, hv, by rw [if_pos hminus]; rfl⟩
  · -- 0 and 256 have the low byte 0
    rw [if_neg hminus, if_neg (by rintro rfl; exact hv rfl), if_pos (by rintro rfl; exact hv rfl)]
    refine (hsay (by decide +kernel)).mono ?_
    rintro r d u ⟨rfl, hu, rfl⟩
    exact ⟨rfl, hu, v, hv, by rw [if_neg hminus]; rfl⟩

theorem shellRound_wins (hn63 : img.nDirEntries ≤ 63) (hk : k.Running L)
    (hbuf : BufferInPage buf bufSize) (m : Mem) :
    Wins (ShellCall.answer img) (Session img) (shellRound buf m) k fun r d t =>
      Back L k t ∧ ∃ round : Round, d = round.dialogue buf ∧ round.Answered ∧
        match r with
        | .inl _ => ¬ round.Exits
        | .inr v => v = 0 ∧ round.Exits := by
  refine (wins_said hk (by decide +kernel)).bind ?_
  rintro - d t ⟨rfl, ht⟩
  refine (wins_user (wins_keyboard ht.running (hbuf.mono (by decide)) (bufSize - 1) m)).bind ?_
  rintro ⟨cnt, m'⟩ d u ⟨d₀, rfl, line, rfl, hread, hlen, hu⟩
  obtain ⟨rfl, rfl⟩ := Prod.mk.inj hread
  have hu := hu.back ht.running
  have hline : Holds (memAt (storeAll m (storesTo buf (storesAt 0 (line ++ [])))) buf) 0 line :=
    holds_given m buf (by rw [List.append_nil]; omega)
  rw [List.append_nil] at hline
  generalize storeAll m (storesTo buf (storesAt 0 line)) = m' at hline ⊢
  -- `terminal_read` returns the length of the line and never -1
  have hminus : ¬ (line.length : Int) = -1 := by omega
  simp only [if_neg hminus, chomp_length hline, Int.toNat_natCast]
  have hshort := (chomp_initial line).length_le
  obtain ⟨rest, hrest⟩ := chomp_initial line
  -- the NUL is put where the newline was, if there was one
  have hchomp : Holds (memAt m' buf) 0 (chomp line) := by
    rw [← hrest] at hline
    exact (holds_append.mp hline).1
  have hstring := stringAt_typed (holds_concat hchomp (by omega) 0) (by omega)
  generalize Function.update m' ((buf + (chomp line).length) % 2 ^ 32) 0 = m'' at hstring ⊢
  have hexit_iff := ece391Strcmp_exit m'' buf
  have hempty_iff := memAt_zero_iff m'' buf
  rw [hstring] at hexit_iff hempty_iff
  have hback := ht.trans hu
  by_cases hexit : (typed line).bytes = text "exit"
  · rw [if_pos (hexit_iff.mpr hexit)]
    exact ⟨hback, ⟨line, none⟩, rfl, ⟨iff_of_true rfl (.inr hexit), by simp⟩, rfl, hexit⟩
  rw [if_neg (mt hexit_iff.mp hexit)]
  by_cases hempty : (typed line).bytes = []
  · rw [if_pos (hempty_iff.mpr hempty)]
    exact ⟨hback, ⟨line, none⟩, rfl, ⟨iff_of_true rfl (.inl hempty), by simp⟩, hexit⟩
  rw [if_neg (mt hempty_iff.mp hempty), hstring]
  have htyped := length_typed_le line
  refine (command_wins hn63 hback.running (by omega) m'').mono ?_
  rintro r d v ⟨rfl, hv, value, hvalue, rfl⟩
  refine ⟨hback.trans hv, ⟨line, some value⟩, rfl, ⟨iff_of_false (by simp) ?_, ?_⟩, hexit⟩
  · rintro (h | h)
    · exact hempty h
    · exact hexit h
  · rintro w ⟨⟩
    exact hvalue

theorem shell_wins (hn63 : img.nDirEntries ≤ 63) (hk : k.Running L) (hbuf : BufferInPage buf bufSize)
    (fuel : Nat) (m : Mem) :
    Wins (ShellCall.answer img) (Session img) (shell fuel buf m) k fun x d t =>
      Back L k t ∧ ∃ rounds : List Round, (∀ r ∈ rounds, r.Answered) ∧ Ends fuel rounds x ∧
        d = said (text "Starting 391 Shell\n") :: rounds.flatMap (Round.dialogue buf) := by
  refine (wins_said hk (by decide +kernel)).bind ?_
  rintro - d₀ t ⟨rfl, ht⟩
  refine (wins_rounds (I := fun n _ d u => Back L k u ∧ ∃ rounds : List Round, rounds.length = n ∧
      (∀ r ∈ rounds, r.Answered ∧ ¬ r.Exits) ∧ d = rounds.flatMap (Round.dialogue buf))
    (Q := fun v d u => Back L k u ∧ ∃ before : List Round, ∃ r, v = 0 ∧ r.Exits ∧ r.Answered ∧
      (∀ r' ∈ before, r'.Answered ∧ ¬ r'.Exits) ∧ d = (before ++ [r]).flatMap (Round.dialogue buf))
    (n := 0) (d := []) ?_ ⟨ht, [], rfl, by simp, rfl⟩).mono ?_
  · -- one more round
    rintro n m d u ⟨hu, rounds, hn, hrounds, rfl⟩
    refine (shellRound_wins hn63 hu.running hbuf m).mono ?_
    rintro r d v ⟨hv, round, rfl, hanswered, hr⟩
    have hconcat : rounds.flatMap (Round.dialogue buf) ++ round.dialogue buf =
        (rounds ++ [round]).flatMap (Round.dialogue buf) := by
      rw [List.flatMap_append, List.flatMap_singleton]
    cases r with
    | inl m' =>
        refine ⟨hu.trans hv, rounds ++ [round], by rw [List.length_append, hn]; rfl, ?_, hconcat⟩
        intro r hmem
        rcases List.mem_append.mp hmem with hmem | hmem
        · exact hrounds r hmem
        · rw [List.mem_singleton] at hmem
          subst hmem
          exact ⟨hanswered, hr⟩
    | inr value =>
        exact ⟨hu.trans hv, rounds, round, hr.1, hr.2, hanswered, hrounds, hconcat⟩
  · intro x d u hx
    rw [List.nil_append] at hx
    rw [List.singleton_append]
    cases x with
    | none =>
        obtain ⟨-, hu, rounds, hn, hrounds, rfl⟩ := hx
        exact ⟨hu, rounds, fun r hr => (hrounds r hr).1, ⟨by omega, fun r hr => (hrounds r hr).2⟩, rfl⟩
    | some value =>
        obtain ⟨hu, before, r, rfl, hexits, hanswered, hbefore, rfl⟩ := hx
        refine ⟨hu, before ++ [r], fun r' hr' => ?_, ⟨rfl, before, r, rfl, hexits, fun r' hr' =>
          (hbefore r' hr').2⟩, rfl⟩
        rcases List.mem_append.mp hr' with hr' | hr'
        · exact (hbefore r' hr').1
        · rw [List.mem_singleton] at hr'
          rw [hr']
          exact hanswered

/-- Keys that are pressed and released while a read waits, and then Enter. -/
def typing (keys : List UInt8) : ReadEnv :=
  ⟨.own :: (keys ++ [0x1C]).flatMap (fun c => [.key c, .own, .key (c + 0x80)]) ++
    List.replicate 12 .own, false⟩

/-- `b` is typed, and `a`, which ends with 3, then Enter alone, and `exit`. -/
def fourLines (n : Nat) : ShellAround :=
  let keys := ([(2, [0x30]), (6, [0x1E]), (10, []), (12, [0x12, 0x2D, 0x17, 0x14])].lookup n).getD []
  ⟨⟨[.tick], typing keys, fun _ => 0⟩, ⟨fun _ => 0, fun _ => 0, 0⟩, [.halt (.int80 3)]⟩

end User

/-! ### Programs as children -/

/-- The calls that a program has made, as the steps of a child. -/
def descendants : (happens : Nat → Around) → Dialogue Call Seen → List Descendant
  | _, [] => []
  | happens, q :: d => .call (happens 0) q.1 :: descendants (fun n => happens (n + 1)) d

/-- A child that is a program comes to the program's end. -/
theorem lifetime_play {α : Type} {n : Nat} {p : Program α} {happens : Nat → Around} {x : α}
    {d : Dialogue Call Seen} (hk : k.Running L) (hn : n < k.processNumber)
    (hplay : play (Call.answer img) p happens k = some (x, d, t)) (ds : List Descendant) :
    Keeps k t ∧ lifetime img n (descendants happens d ++ ds) k = lifetime img n ds t := by
  induction p generalizing happens k d with
  | ret y =>
      obtain ⟨-, rfl, rfl⟩ := play_ret hplay
      exact ⟨.refl t, rfl⟩
  | call c next ih =>
      obtain ⟨o, u, d', hanswer, rfl, hrest⟩ := play_call hplay
      have hkeeps := answer_keeps hk hanswer
      have hnumber : n < u.processNumber := by
        rw [hkeeps.processNumber]
        exact hn
      obtain ⟨hkeeps', hlife⟩ := ih o (hk.keeps hkeeps) hnumber hrest
      refine ⟨hkeeps.trans hkeeps', ?_⟩
      rw [descendants, List.cons_append, lifetime, Descendant.step, hanswer, Option.map_some,
        Option.bind_some, if_pos hnumber]
      exact hlife

/-- **A program under the shell.**  Any program that is loaded and run, with any interrupts,
and that then ends with `ebx`: if the low byte is not 0, the shell's `execute` returns `ebx`,
and the shell is as before; if it is 0, the shell has ended with the program. -/
theorem execute_program {pcbs : Nat → Pcb} {screen : Screen} {rtc : Rtc} {es : List Event}
    {os : List Seen} (hes : Along (step img) (fun k e => e.Fits img k) (.boot L pcbs screen rtc) es)
    (hrun : run (step img) (.boot L pcbs screen rtc) es = some (os, k)) (hn : 1 ≤ k.processNumber)
    {w : ShellAround} {command : CString} {o : List Seen} {u v : Kernel}
    (hinterrupts : run (step img) k (w.around.interrupts.map Interrupt.event) = some (o, u))
    (hx : step img u (.execute command w.exec) = some (⟨.entered, []⟩, v))
    {α : Type} {p : Program α} {happens : Nat → Around} {x : α} {d : Dialogue Call Seen}
    (hplay : play (Call.answer img) p happens v = some (x, d, t)) {ebx : BitVec 32}
    (hchild : w.child = descendants happens d ++ [.halt (.int80 ebx)]) :
    (ebx.toNat % 256 ≠ 0 → ∃ t', ShellCall.answer img w k (.execute command) =
        some (.ofInt ebx.toInt, t') ∧ t'.processNumber = k.processNumber ∧ t'.curPcb = k.curPcb ∧
          t'.cur = k.cur) ∧
      (ebx.toNat % 256 = 0 → ShellCall.answer img w k (.execute command) = none ∧
        ∃ r, endProcess (.int80 ebx) t = some r ∧ r.kernel.processNumber = 0) := by
  have hk : k.Running L := ⟨run_boot_inv hes hrun, hn⟩
  have hafter : w.around.After img k u := ⟨o, hinterrupts⟩
  have hback := hafter.aside.back hk
  have hnumber := hback.processNumber
  obtain ⟨fs, ho, -⟩ | ⟨fs, h6, -, rfl⟩ | ⟨ho, -⟩ := step_execute hback.running.inv hx
  · cases ho
  · have hinv := (Advance.entered command w.exec fs h6).inv hback.running.inv
    have hv : (enter command w.exec u.paging.base ({ u with fs := fs } : Kernel).loading).processNumber =
        u.processNumber + 1 := rfl
    -- the calls of the program are its life up to the halt
    obtain ⟨hkeeps, hlife⟩ := lifetime_play (n := k.processNumber) ⟨hinv, by omega⟩ (by omega) hplay
      [.halt (.int80 ebx)]
    have ht : t.Running L := ⟨hinv.of_keeps hkeeps, by rw [hkeeps.processNumber]; omega⟩
    have htnumber : t.processNumber = u.processNumber + 1 := hkeeps.processNumber.trans hv
    have hanswer : ShellCall.answer img w k (.execute command) =
        (lifetime img k.processNumber [.halt (.int80 ebx)] t).map fun r => (.ofInt r.1.toInt, r.2) := by
      rw [← hlife, ← hchild, ShellCall.answer, hinterrupts, Option.bind_some, hx, Option.bind_some]
    rw [hanswer, lifetime, Descendant.step]
    constructor
    · intro hbyte
      obtain ⟨t', hend, hended⟩ := sysHalt_of_byte_ne_zero ht.inv ht.running hbyte t.processNumber
      have hend' : endProcess (.int80 ebx) t = some ⟨ebx, 0, t'⟩ := hend
      have hleft : t'.processNumber = u.processNumber := by
        rw [hended.processNumber]
        omega
      have habove : Above L u.processNumber _ t' := .cons (.keeps hkeeps) hinv (by omega)
        (.single (.ended ht.running hended) ht.inv (by omega))
      have hback' := hback.trans (habove.back hback.running h6 hleft)
      refine ⟨t', ?_, hback'.processNumber, hback'.curPcb, hback'.cur⟩
      simp only [hend', Option.map_some, Option.bind_some]
      rw [if_neg (by omega), if_pos (by omega)]
      rfl
    · -- 0 in AL: the linkage halts on, and the shell is next
      intro hbyte
      obtain ⟨t', hend, hzero⟩ := sysHalt_of_byte_zero ht.inv hbyte (Nat.lt_succ_self _)
      have hend' : endProcess (.int80 ebx) t = some ⟨-1, 6, t'⟩ := hend
      refine ⟨?_, _, hend', hzero⟩
      simp only [hend', Option.map_some, Option.bind_some]
      rw [if_neg (by omega), if_neg (by omega)]
      rfl
  · cases ho

/-- The program `a` says hello, and ends with 3. -/
theorem execute_program_three :
    let k := final (step tinyImage) tinyBoot [tinyExecute]
    ∃ w t, ShellCall.answer tinyImage w k (.execute tinyName) = some (.ofInt 3, t) ∧
      t.processNumber = k.processNumber := by
  intro k
  let happens (_ : Nat) : Around := ⟨[.tick], ⟨[], false⟩, fun _ => 0⟩
  let v := final (step tinyImage) k [tinyExecute]
  have hx : step tinyImage k tinyExecute = some (⟨.entered, []⟩, v) := step_final (by decide +kernel)
  have hsome : (play (Call.answer tinyImage) (User.ece391Fdputs 1 (text "hello")) happens v).isSome := by
    decide +kernel
  obtain ⟨⟨x, d, t⟩, hplay⟩ := Option.isSome_iff_exists.mp hsome
  obtain ⟨os, hrun⟩ := run_final (step tinyImage) tinyBoot [tinyExecute] (by decide +kernel)
  have hinterrupts : run (step tinyImage) k [] = some ([], k) := rfl
  obtain ⟨t', hanswer, hnumber, -⟩ := (execute_program
    (w := ⟨⟨[], ⟨[], false⟩, fun _ => 0⟩, ⟨fun _ => 0, fun _ => 0, 0⟩,
      descendants happens d ++ [.halt (.int80 3)]⟩)
    (by decide +kernel) hrun (by decide +kernel) hinterrupts hx hplay rfl).1 (by decide)
  exact ⟨_, t', hanswer, hnumber⟩

end LinuxBasedOs
