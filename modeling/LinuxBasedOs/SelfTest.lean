/-
LinuxBasedOs/SelfTest.lean

The program `syserr` (ece391syserr.c): eight tests of how system calls fail, run on the
kernel.

Most calls of the tests should return -1, and change nothing (`Fails`).  The third test opens
the directory until no descriptor is left, and closes everything again; `Slots` says which
descriptors are in use in the meantime.

* `syserr_passes` — every test passes, in every state in which the program can be started, on
  every image that has the directory and none of the names that should not be there.
-/
import LinuxBasedOs.Utilities

namespace LinuxBasedOs

open Bytes Transition Interaction
open Grep (text)

/-! ### The tests -/

namespace User

/-- `NEG_FD`. -/
def negFd : Int := -1073741823

/-- `BIG_FD`. -/
def bigFd : Int := 1073741823

/-- `call_sys`, for a number that is none of a system call. -/
def callSys (num : Int) : Program Int := do
  let o ← Prog.ask (.invalid (BitVec.ofInt 32 num))
  pure o.value

/-- What the tests do about a call that has not returned -1. -/
def expectFailure (value : Int) (message : String) (fail : Int) : Program Int :=
  if value ≠ -1 then do
    ece391Fdputs 1 (text message)
    pure 2
  else pure fail

/-- How a test ends. -/
def verdict (name : String) (fail : Int) : Program Int := do
  if fail ≠ 0 then ece391Fdputs 1 (text (name ++ ": FAIL\n"))
  else ece391Fdputs 1 (text (name ++ ": PASS\n"))
  pure fail

/-- `err_neg_fd` and `err_big_fd`. -/
def errFd (fd : Int) (name : String) (buf : Nat) (m : Mem) : Program Int := do
  let (value, m) ← ece391Read fd buf 31 m
  let fail ← expectFailure value "read fail\n" 0
  let value ← ece391Write fd buf 31 m
  let fail ← expectFailure value "write fail\n" fail
  let value ← ece391Close fd
  let fail ← expectFailure value "close fail\n" fail
  verdict name fail

/-- `err_neg_fd`. -/
def errNegFd (buf : Nat) (m : Mem) : Program Int := errFd negFd "err_neg_fd" buf m

/-- `err_big_fd`. -/
def errBigFd (buf : Nat) (m : Mem) : Program Int := errFd bigFd "err_big_fd" buf m

/-- `err_open_lots`: of seven opens the last one should fail. -/
def errOpenLots : Program Int := do
  let cnt ← (List.range 7).foldlM (fun (cnt : Nat) _ => do
    let value ← ece391Open literalAddr dotName
    pure (if value = -1 then cnt + 1 else cnt)) 0
  -- close all fds that were just opened
  (List.range' 2 6).foldlM (fun _ (i : Nat) => do
    let _ ← ece391Close i
    pure ()) ()
  if cnt = 1 then do
    ece391Fdputs 1 (text "err_open_lots: PASS\n")
    pure 0
  else do
    ece391Fdputs 1 (text "err_open_lots: FAIL\n")
    pure 2

/-- The name `helloo`, one of three that `err_open` tries. -/
def helloo : CString := ⟨[0x68, 0x65, 0x6C, 0x6C, 0x6F, 0x6F], by simp⟩

/-- The name `shel`. -/
def shel : CString := ⟨[0x73, 0x68, 0x65, 0x6C], by simp⟩

/-- The empty name. -/
def noName : CString := ⟨[], by simp⟩

/-- `err_open`. -/
def errOpen : Program Int := do
  let value ← ece391Open literalAddr helloo
  let fail ← expectFailure value "'helloo' fail\n" 0
  let value ← ece391Open literalAddr shel
  let fail ← expectFailure value "'shel' fail\n" fail
  let value ← ece391Open literalAddr noName
  let fail ← expectFailure value "empty string fail\n" fail
  verdict "err_open" fail

/-- `err_unopened`: the first two descriptors cannot be closed, and the other ones are not
open. -/
def errUnopened (buf : Nat) (m : Mem) : Program Int := do
  let fail ← (List.range 8).foldlM (fun fail (i : Nat) => do
    let value ← ece391Close i
    expectFailure value "close unopened or invalid fd fail\n" fail) 0
  let (fail, m) ← (List.range' 2 6).foldlM (fun (r : Int × Mem) (i : Nat) => do
    let (value, m) ← ece391Read i buf 31 r.2
    let fail ← expectFailure value "read from unopened fd fail\n" r.1
    pure (fail, m)) (fail, m)
  let fail ← (List.range' 2 6).foldlM (fun fail (i : Nat) => do
    let value ← ece391Write i buf 31 m
    expectFailure value "write to unopened fd fail\n" fail) fail
  verdict "err_unopened" fail

/-- `err_vidmap`. -/
def errVidmap (m : Mem) : Program Int := do
  let (value, m) ← ece391Vidmap 0 m
  let fail ← expectFailure value "Null pointer fail\n" 0
  let (value, _) ← ece391Vidmap 0x400000 m
  let fail ← expectFailure value "Kernel pointer fail fail\n" fail
  verdict "err_vidmap" fail

/-- `err_stdin_out`. -/
def errStdinOut (buf : Nat) (m : Mem) : Program Int := do
  let value ← ece391Write 0 buf 31 m
  let fail ← expectFailure value "write to stdin fail\n" 0
  let (value, _) ← ece391Read 1 buf 31 m
  let fail ← expectFailure value "read from stdout fail\n" fail
  verdict "err_stdin_out" fail

/-- The messages do not belong to the numbers. -/
def errSyscallNum : Program Int := do
  let value ← callSys 1073741823
  let fail ← expectFailure value "syscall 0 fail\n" 0
  let value ← callSys (-1073741823)
  let fail ← expectFailure value "big num syscall fail\n" fail
  let value ← callSys 0
  let fail ← expectFailure value "neg num syscall fail\n" fail
  verdict "err_syscall_num" fail

/-- `case 0` of `main`; `buf` is where the arrays of the tests are. -/
def errAll (buf : Nat) (m : Mem) : Program Int := do
  let fail₁ ← errNegFd buf m
  let fail₂ ← errBigFd buf m
  let fail₃ ← errOpenLots
  let fail₄ ← errOpen
  let fail₅ ← errUnopened buf m
  let fail₆ ← errVidmap m
  let fail₇ ← errStdinOut buf m
  let fail₈ ← errSyscallNum
  let fail := fail₁ + fail₂ + fail₃ + fail₄ + fail₅ + fail₆ + fail₇ + fail₈
  if fail ≠ 0 then ece391Fdputs 1 (text "\nOverall Tests: FAIL\n")
  else ece391Fdputs 1 (text "\nOverall Tests: PASS\n")
  pure fail

/-- The switch of `main`. -/
def errSelect (select : Int) (buf : Nat) (m : Mem) : Program Int :=
  if select = 0 then errAll buf m
  else if select = 1 then errNegFd buf m
  else if select = 2 then errBigFd buf m
  else if select = 3 then errOpenLots
  else if select = 4 then errOpen
  else if select = 5 then errUnopened buf m
  else if select = 6 then errVidmap m
  else if select = 7 then errStdinOut buf m
  else if select = 8 then errSyscallNum
  else do
    ece391Fdputs 1 (text "Invalid test number. Choose from tests 1-8 or 0")
    pure 0

/-- `main`, with its own array at `buf` and those of the tests at `buf'`. -/
def syserr (buf buf' : Nat) (m : Mem) : Program Int := do
  ece391Fdputs 1 (text "Choose from tests 1-8. 0 to run all: ")
  let (cnt, m) ← ece391Read 0 buf (127 : Nat) m
  if cnt = -1 then do
    ece391Fdputs 1 (text "Can't read test #\n")
    pure 2
  else errSelect ((memAt m buf 0).toNat - 48) buf' m

end User

/-! ### Calls that fail -/

variable {L : Layout} {img : Image} {k t : Kernel} {ok : Around → Kernel → Call → Prop}

/-- The call returns -1 and changes nothing. -/
def Fails (img : Image) (c : Call) (k : Kernel) : Prop :=
  ∀ w, c.taken img w k = some (.ofInt (-1), k)

/-- The kernel need not look at the buffer of a call that it refuses. -/
theorem fails_of_made {c : Call} (h : ∀ w, c.made img w k = some (.ofInt (-1), k))
    (hpage : c.InPage k (.ofInt (-1))) : Fails img c k :=
  fun w => Call.taken_eq_some.mpr ⟨h w, hpage⟩

/-- A call that fails whatever interrupts come before. -/
theorem says_fails {c : Call} (h : ∀ t, k.Aside t → Fails img c t) :
    Says img ok (Prog.ask c) k [] fun o t => o = .ofInt (-1) ∧ k.Aside t := by
  refine (wins_call (Q := fun o t => o = .ofInt (-1) ∧ k.Aside t) fun w t _ hafter => ?_).mono ?_
  · exact ⟨_, t, h t hafter.aside w, rfl, hafter.aside⟩
  · rintro o d t ⟨rfl, rfl, ht⟩
    refine ⟨?_, rfl, ht⟩
    cases c with
    | write fd buf data nbytes =>
        show (if fd = 1 then (List.range 0).map data else []) ++ [] = []
        split_ifs <;> rfl
    | read | «open» | close | getargs | vidmap | invalid => rfl

/-- A refused read. -/
theorem fails_read {fd : Int} {buf : Nat} {nbytes : Int}
    (h : ∀ env, sysReadEffect img fd buf nbytes env k = some .refused) :
    Fails img (.read fd buf nbytes) k := by
  refine fails_of_made (fun w => ?_) ⟨List.forall_mem_nil _, trivial⟩
  show Option.map _ (sysReadC img fd buf nbytes w.readEnv k) = _
  rw [sysReadC, h]
  rfl

theorem fails_read_unused {fd : Int} (hcur : k.curPcb ≠ 0) (hfree : ¬ (k.fd fd.toNat).InUse)
    (buf : Nat) (nbytes : Int) : Fails img (.read fd buf nbytes) k :=
  fails_read (sysReadEffect_refused hcur fun ha => hfree ha.inUse)

theorem fails_read_range {fd : Int} (h : fd < 0 ∨ fd > fdSize) (buf : Nat) (nbytes : Int) :
    Fails img (.read fd buf nbytes) k :=
  fails_read fun _ => if_pos h

/-- Writing through no descriptor, or one that is not in use. -/
theorem fails_write {fd : Int} (h : fd < 0 ∨ fd > fdSize ∨ k.curPcb ≠ 0 ∧ ¬ (k.fd fd.toNat).InUse)
    (buf : Nat) (data : Mem) (nbytes : Int) : Fails img (.write fd buf data nbytes) k := by
  have hloads : writeLoads fd buf nbytes k = 0 := if_pos (by tauto)
  have hwrite : sysWriteC fd buf data nbytes k = some (-1, k) := by
    unfold sysWriteC
    split_ifs with hfd hbuf hn hnull huse
    · rfl
    · rfl
    · rfl
    · rcases h with h | h | ⟨hcur, -⟩
      · exact absurd (.inl h) hfd
      · exact absurd (.inr h) hfd
      · exact absurd hnull hcur
    · rcases h with h | h | ⟨-, hfree⟩
      · exact absurd (.inl h) hfd
      · exact absurd (.inr h) hfd
      · exact absurd huse hfree
    · rfl
  refine fails_of_made (fun w => ?_) ⟨List.forall_mem_nil _, .inl hloads⟩
  show Option.map _ (sysWriteC fd buf data nbytes k) = _
  rw [hwrite]
  rfl

/-- Closing what is not open, or what cannot be closed. -/
theorem fails_close {fd : Int} (h : fd < 2 ∨ fd > fdSize ∨ k.curPcb ≠ 0 ∧ ¬ (k.fd fd.toNat).InUse) :
    Fails img (.close fd) k := by
  refine fails_of_made (fun w => ?_) ⟨List.forall_mem_nil _, trivial⟩
  have hclose : sysCloseC fd k = some (-1, k) := by
    unfold sysCloseC
    split_ifs with hfd hnull huse
    · rfl
    · rcases h with h | h | ⟨hcur, -⟩
      · exact absurd (.inl h) hfd
      · exact absurd (.inr h) hfd
      · exact absurd hnull hcur
    · rcases h with h | h | ⟨-, hfree⟩
      · exact absurd (.inl h) hfd
      · exact absurd (.inr h) hfd
      · exact absurd huse hfree
    · rfl
  show Option.map _ (sysCloseC fd k) = _
  rw [hclose]
  rfl

theorem fails_vidmap {screenStart : Nat} (h : screenStart ≤ 0x400000) :
    Fails img (.vidmap screenStart) k := by
  refine fails_of_made (fun w => ?_) ⟨List.forall_mem_nil _, trivial⟩
  show (sysVidmapC screenStart k).seen k = _
  rw [sysVidmapC, if_pos (.inr h)]
  rfl

theorem fails_invalid {eax : BitVec 32} (h : eax.toNat = 0 ∨ 10 < eax.toNat) :
    Fails img (.invalid eax) k :=
  fails_of_made (fun _ => if_pos h) ⟨List.forall_mem_nil _, trivial⟩

/-- The terminal is read through descriptor 0 only. -/
theorem fails_read_stdout (h : k.Running L) (buf : Nat) (nbytes : Int) :
    Fails img (.read 1 buf nbytes) k := by
  refine fails_read fun env => ?_
  by_cases ha : ReadAccepted 1 buf nbytes k
  · rw [sysReadEffect_accepted ha]
    show FdOps.readPtr img 1 buf _ env k (k.fd 1).fileOpPtr = _
    rw [h.stdout.1]
    rfl
  · exact sysReadEffect_refused (h.inv.curPcb_ne h.running) ha env

/-- And written through descriptor 1 only. -/
theorem fails_write_stdin (h : k.Running L) (buf : Nat) (data : Mem) (nbytes : Int) :
    Fails img (.write 0 buf data nbytes) k := by
  have hloads : writeLoads 0 buf nbytes k = 0 := by
    rw [writeLoads]
    refine ite_eq_left_iff.mpr fun _ => ?_
    have htable : (k.fd (Int.toNat 0)).fileOpPtr = .terminalTable := h.stdin.1
    simp only [htable]
    rfl
  have hwrite : sysWriteC 0 buf data nbytes k = some (-1, k) := by
    unfold sysWriteC
    -- whichever check fails, the answer is the same
    split_ifs with hfd hbuf hn hnull huse
    · rfl
    · rfl
    · rfl
    · exact absurd hnull (h.inv.curPcb_ne h.running)
    · show FdOps.writePtr 0 data _ k (k.fd 0).fileOpPtr = _
      rw [h.stdin.1]
      rfl
    · rfl
  refine fails_of_made (fun w => ?_) ⟨List.forall_mem_nil _, .inl hloads⟩
  show Option.map _ (sysWriteC 0 buf data nbytes k) = _
  rw [hwrite]
  rfl

/-! ### The tests pass -/

namespace User

/-- A running process with no descriptor in use but those of the terminal. -/
structure Fresh (L : Layout) (k : Kernel) : Prop extends k.Running L where
  free : ∀ j, 2 ≤ j → j < 8 → ¬ (k.fd j).InUse

theorem Fresh.aside (h : Fresh L k) (ht : k.Aside t) : Fresh L t :=
  ⟨h.toRunning.keeps ht.keeps, fun j h2 h8 => by rw [ht.fd]; exact h.free j h2 h8⟩

theorem Fresh.unused (h : Fresh L k) {i : Nat} (h2 : 2 ≤ i) (h8 : i < 8) (ht : k.Aside t) :
    t.curPcb ≠ 0 ∧ ¬ (t.fd (i : Int).toNat).InUse := by
  have hnew := h.aside ht
  refine ⟨hnew.inv.curPcb_ne hnew.running, ?_⟩
  rw [Int.toNat_natCast]
  exact hnew.free i h2 h8

theorem says_read_fails {fd : Int} {buf : Nat} {nbytes : Int}
    (h : ∀ t, k.Aside t → Fails img (.read fd buf nbytes) t) (m : Mem) :
    Says img ok (ece391Read fd buf nbytes m) k [] fun r t => r = (-1, m) ∧ k.Aside t := by
  refine (says_fails h).bind_quiet ?_
  rintro o t ⟨rfl, ht⟩
  exact says_pure ⟨rfl, ht⟩

theorem says_write_fails {fd : Int} {buf : Nat} {nbytes : Int} (m : Mem)
    (h : ∀ t, k.Aside t → Fails img (.write fd buf (memAt m buf) nbytes) t) :
    Says img ok (ece391Write fd buf nbytes m) k [] fun v t => v = -1 ∧ k.Aside t := by
  refine (says_fails h).bind_quiet ?_
  rintro o t ⟨rfl, ht⟩
  exact says_pure ⟨rfl, ht⟩

theorem says_close_fails {fd : Int} (h : ∀ t, k.Aside t → Fails img (.close fd) t) :
    Says img ok (ece391Close fd) k [] fun v t => v = -1 ∧ k.Aside t := by
  refine (says_fails h).bind_quiet ?_
  rintro o t ⟨rfl, ht⟩
  exact says_pure ⟨rfl, ht⟩

theorem says_vidmap_fails {screenStart : Nat} (h : screenStart ≤ 0x400000) (m : Mem) :
    Says img ok (ece391Vidmap screenStart m) k [] fun r t => r = (-1, m) ∧ k.Aside t := by
  refine (says_fails fun _ _ => fails_vidmap h).bind_quiet ?_
  rintro o t ⟨rfl, ht⟩
  exact says_pure ⟨rfl, ht⟩

theorem says_callSys {num : Int}
    (h : (BitVec.ofInt 32 num).toNat = 0 ∨ 10 < (BitVec.ofInt 32 num).toNat) :
    Says img ok (callSys num) k [] fun v t => v = -1 ∧ k.Aside t := by
  refine (says_fails fun _ _ => fails_invalid h).bind_quiet ?_
  rintro o t ⟨rfl, ht⟩
  exact says_pure ⟨rfl, ht⟩

/-- Opening and closing, for what is known of the calls. -/
theorem says_open {name : CString} (hname : BufferInPage literalAddr (name.bytes.length + 1))
    {Q : Int → Kernel → Prop}
    (h : ∀ t, k.Aside t → ∃ v u, sysOpenC img (some name) t = some (v, u) ∧ Q v u) :
    Says img ok (ece391Open literalAddr name) k [] Q := by
  refine (wins_call (Q := fun o u => Q o.value u) fun w t _ hafter => ?_).bind ?_
  · obtain ⟨v, u, hopen, hQ⟩ := h t hafter.aside
    exact ⟨.ofInt v, u, taken_openName img w hname hopen, hQ⟩
  · rintro o d u ⟨rfl, hQ⟩
    exact ⟨rfl, hQ⟩

theorem says_close {fd : Int} {Q : Int → Kernel → Prop}
    (h : ∀ t, k.Aside t → ∃ v u, sysCloseC fd t = some (v, u) ∧ Q v u) :
    Says img ok (ece391Close fd) k [] Q := by
  refine (wins_call (Q := fun o u => Q o.value u) fun w t _ hafter => ?_).bind ?_
  · obtain ⟨v, u, hclose, hQ⟩ := h t hafter.aside
    refine ⟨.ofInt v, u, Call.taken_eq_some.mpr ⟨?_, List.forall_mem_nil _, trivial⟩, hQ⟩
    show Option.map _ (sysCloseC fd t) = _
    rw [hclose]
    rfl
  · rintro o d u ⟨rfl, hQ⟩
    exact ⟨rfl, hQ⟩

/-- Opening a name that is not there. -/
theorem says_open_fails (hn63 : img.nDirEntries ≤ 63) (h : Fresh L k) {name : CString}
    (hname : img.entryOf name.bytes = none)
    (hpage : BufferInPage literalAddr (name.bytes.length + 1)) :
    Says img ok (ece391Open literalAddr name) k [] fun v t => v = -1 ∧ Fresh L t := by
  refine says_open hpage fun t ht => ?_
  have hlookup := lookup_eq hn63 name
  rw [hname] at hlookup
  obtain ⟨found, fs, hread, hfound⟩ := readDentryByName_isSome hlookup t.fs
  obtain rfl : found = none := Option.map_eq_none_iff.mp hfound
  refine ⟨-1, { t with fs := fs }, ?_, rfl, ?_⟩
  · rw [sysOpenC, hread, Option.bind_some]
  · have hnew := h.aside ht
    exact ⟨hnew.toRunning.keeps (.globals t fs t.rtc), hnew.free⟩

/-- A call that has failed as expected. -/
theorem says_expected {β : Type} {message : String} {fail : Int} {f : Int → Program β}
    {s : List UInt8} {R : β → Kernel → Prop} (h : Says img ok (f fail) k s R) :
    Says img ok (expectFailure (-1) message fail >>= f) k s R := by
  rw [expectFailure, if_neg (by decide)]
  exact h

theorem says_verdict (h : k.Running L) {name : String}
    (hname : BufferInPage literalAddr (text (name ++ ": PASS\n")).length) :
    Says img ok (verdict name 0) k (text (name ++ ": PASS\n")) fun x t => x = 0 ∧ k.Aside t := by
  rw [verdict, if_neg (by decide)]
  exact Says.then_quiet (wins_fdputs h hname) fun _ t ht => says_pure ⟨rfl, ht⟩

/-- The test says that it has passed, and leaves no descriptor open. -/
def Passes (L : Layout) (img : Image) (ok : Around → Kernel → Call → Prop) (p : Program Int)
    (name : String) (k : Kernel) : Prop :=
  Says img ok p k (text (name ++ ": PASS\n")) fun x t => x = 0 ∧ Fresh L t

theorem passes_verdict (h : Fresh L k) {name : String}
    (hname : BufferInPage literalAddr (text (name ++ ": PASS\n")).length) :
    Passes L img ok (verdict name 0) name k :=
  (says_verdict h.toRunning hname).mono fun _ _ ⟨hx, ht⟩ => ⟨hx, h.aside ht⟩

theorem errFd_passes (h : Fresh L k) {fd : Int} (hfd : fd < 0 ∨ fd > fdSize) (name : String)
    (hname : BufferInPage literalAddr (text (name ++ ": PASS\n")).length)
    (buf : Nat) (m : Mem) : Passes L img ok (errFd fd name buf m) name k := by
  refine (says_read_fails (fun _ _ => fails_read_range hfd buf 31) m).bind_quiet ?_
  rintro - t ⟨rfl, ht⟩
  refine says_expected ?_
  refine (says_write_fails m fun u _ => fails_write (hfd.imp_right .inl) buf _ 31).bind_quiet ?_
  rintro - u ⟨rfl, hu⟩
  refine says_expected ?_
  refine (says_close_fails fun _ _ => fails_close ?_).bind_quiet ?_
  · rcases hfd with hfd | hfd
    · exact .inl (by omega)
    · exact .inr (.inl hfd)
  rintro - v ⟨rfl, hv⟩
  refine says_expected ?_
  exact passes_verdict (((h.aside ht).aside hu).aside hv) hname

theorem errVidmap_passes (h : Fresh L k) (m : Mem) : Passes L img ok (errVidmap m) "err_vidmap" k := by
  refine (says_vidmap_fails (by decide) m).bind_quiet ?_
  rintro - t ⟨rfl, ht⟩
  refine says_expected ?_
  refine (says_vidmap_fails le_rfl m).bind_quiet ?_
  rintro - u ⟨rfl, hu⟩
  refine says_expected ?_
  exact passes_verdict ((h.aside ht).aside hu) (by decide +kernel)

theorem errStdinOut_passes (h : Fresh L k) (buf : Nat) (m : Mem) :
    Passes L img ok (errStdinOut buf m) "err_stdin_out" k := by
  refine (says_write_fails m fun t ht => fails_write_stdin (h.aside ht).toRunning buf _ 31).bind_quiet ?_
  rintro - t ⟨rfl, ht⟩
  refine says_expected ?_
  have ht' := h.aside ht
  refine (says_read_fails (fun u hu => fails_read_stdout (ht'.aside hu).toRunning buf 31) m).bind_quiet ?_
  rintro - u ⟨rfl, hu⟩
  refine says_expected ?_
  exact passes_verdict (ht'.aside hu) (by decide +kernel)

theorem errSyscallNum_passes (h : Fresh L k) :
    Passes L img ok errSyscallNum "err_syscall_num" k := by
  refine (says_callSys (by decide)).bind_quiet ?_
  rintro - t ⟨rfl, ht⟩
  refine says_expected ?_
  refine (says_callSys (by decide)).bind_quiet ?_
  rintro - u ⟨rfl, hu⟩
  refine says_expected ?_
  refine (says_callSys (by decide)).bind_quiet ?_
  rintro - v ⟨rfl, hv⟩
  refine says_expected ?_
  exact passes_verdict (((h.aside ht).aside hu).aside hv) (by decide +kernel)

/-- A loop of calls that leave things as they are. -/
theorem says_each {β : Type} {f : β → Nat → Program β} {b : β} {xs : List Nat}
    (hstep : ∀ i ∈ xs, ∀ t, Fresh L t → Says img ok (f b i) t [] fun b' u => b' = b ∧ Fresh L u)
    (h : Fresh L k) : Says img ok (xs.foldlM f b) k [] fun b' t => b' = b ∧ Fresh L t := by
  refine (says_foldlM (I := fun rest b' t => b' = b ∧ Fresh L t ∧ ∀ i ∈ rest, i ∈ xs) ?_
    ⟨rfl, h, fun i hi => hi⟩).mono fun b' t hI => ⟨hI.1, hI.2.1⟩
  rintro i rest c t ⟨rfl, ht, hrest⟩
  refine (hstep i (hrest i List.mem_cons_self) t ht).mono fun c' u hu => ?_
  exact ⟨hu.1, hu.2, fun j hj => hrest j (List.mem_cons_of_mem i hj)⟩

theorem errUnopened_passes (h : Fresh L k) (buf : Nat) (m : Mem) :
    Passes L img ok (errUnopened buf m) "err_unopened" k := by
  -- first all descriptors are closed, of which none is open
  refine (says_each (fun i hi t ht => ?_) h).bind_quiet ?_
  · have h8 := List.mem_range.mp hi
    refine (says_close_fails fun u hu => fails_close ?_).bind_quiet ?_
    · rcases lt_or_ge i 2 with h2 | h2
      · exact .inl (by omega)
      · exact .inr (.inr (ht.unused h2 h8 hu))
    · rintro - u ⟨rfl, hu⟩
      exact says_pure ⟨rfl, ht.aside hu⟩
  rintro - t ⟨rfl, ht⟩
  refine (says_each (fun i hi t ht => ?_) ht).bind_quiet ?_
  · obtain ⟨h2, h8⟩ := List.mem_range'_1.mp hi
    refine (says_read_fails (fun u hu => ?_) m).bind_quiet ?_
    · have hfree := ht.unused h2 h8 hu
      exact fails_read_unused hfree.1 hfree.2 buf 31
    · rintro - u ⟨rfl, hu⟩
      exact says_expected (says_pure ⟨rfl, ht.aside hu⟩)
  rintro - t ⟨rfl, ht⟩
  refine (says_each (fun i hi t ht => ?_) ht).bind_quiet ?_
  · obtain ⟨h2, h8⟩ := List.mem_range'_1.mp hi
    refine (says_write_fails m fun u hu => ?_).bind_quiet ?_
    · exact fails_write (.inr (.inr (ht.unused h2 h8 hu))) buf _ 31
    · rintro - u ⟨rfl, hu⟩
      exact says_pure ⟨rfl, ht.aside hu⟩
  rintro - t ⟨rfl, ht⟩
  exact passes_verdict ht (by decide +kernel)

theorem errOpen_passes (hn63 : img.nDirEntries ≤ 63) (h : Fresh L k)
    (hnames : ∀ name ∈ [helloo, shel, noName], img.entryOf name.bytes = none) :
    Passes L img ok errOpen "err_open" k := by
  refine (says_open_fails hn63 h (hnames helloo List.mem_cons_self) (by decide)).bind_quiet ?_
  rintro - t ⟨rfl, ht⟩
  refine says_expected ?_
  refine (says_open_fails hn63 ht (hnames shel (List.mem_of_getElem? (i := 1) rfl)) (by decide)).bind_quiet ?_
  rintro - u ⟨rfl, hu⟩
  refine says_expected ?_
  refine (says_open_fails hn63 hu (hnames noName (List.mem_of_getElem? (i := 2) rfl))
    (by decide)).bind_quiet ?_
  rintro - v ⟨rfl, hv⟩
  refine says_expected ?_
  exact passes_verdict hv (by decide +kernel)

/-! ### Opening and closing -/

/-- The descriptors from `lo` to `hi` are open for the entry `e`, and no others. -/
structure Slots (L : Layout) (img : Image) (e lo hi : Nat) (k : Kernel) : Prop extends
    k.Running L where
  used : ∀ j, lo ≤ j → j < hi → k.fd j = img.opened e
  free : ∀ j, 2 ≤ j → j < 8 → j < lo ∨ hi ≤ j → ¬ (k.fd j).InUse

theorem Slots.aside {e lo hi : Nat} (h : Slots L img e lo hi k) (ht : k.Aside t) :
    Slots L img e lo hi t where
  toRunning := h.toRunning.keeps ht.keeps
  used j hlo hhi := by rw [ht.fd]; exact h.used j hlo hhi
  free j h2 h8 hout := by rw [ht.fd]; exact h.free j h2 h8 hout

theorem firstFree_le (k : Kernel) : firstFree k.cur.fileArray ≤ 8 := by
  unfold LinuxBasedOs.firstFree
  rcases hf : (List.range' 2 6).find? (fun i => ¬ (k.cur.fileArray i).InUse) with - | i
  · exact le_rfl
  · have hmem := List.mem_range'_1.mp (List.mem_of_find?_eq_some hf)
    exact hmem.2.le

theorem Slots.firstFree {e hi : Nat} (h : Slots L img e 2 hi k) (h2 : 2 ≤ hi) (h8 : hi ≤ 8) :
    firstFree k.cur.fileArray = hi := by
  rcases Nat.lt_or_ge (LinuxBasedOs.firstFree k.cur.fileArray) hi with hlt | hge
  · -- a descriptor below is in use
    have hspec := firstFree_spec (hlt.trans_le h8)
    have huse : (k.fd (LinuxBasedOs.firstFree k.cur.fileArray)).InUse := by
      rw [h.used _ hspec.1 hlt]
      exact img.opened_inUse e
    exact absurd huse hspec.2
  · by_contra hne
    have hlt : hi < LinuxBasedOs.firstFree k.cur.fileArray := by omega
    have huse := firstFree_least h2 hlt
    have h8' : hi < 8 := by
      have hle := firstFree_le k
      omega
    exact h.free hi h2 h8' (.inr le_rfl) huse

/-- One more is opened. -/
theorem Slots.opens {e hi : Nat} (hn63 : img.nDirEntries ≤ 63) {name : CString}
    (hpage : BufferInPage literalAddr (name.bytes.length + 1))
    (he : img.entryOf name.bytes = some e) (htype : img.dentryType e ≤ 2)
    (h : Slots L img e 2 hi k) (h2 : 2 ≤ hi) (h8 : hi < 8) :
    Says img ok (ece391Open literalAddr name) k [] fun v t =>
      v = hi ∧ Slots L img e 2 (hi + 1) t := by
  refine says_open hpage fun t ht => ?_
  have hnew := h.aside ht
  have hfree := hnew.firstFree h2 h8.le
  have hlookup := lookup_eq hn63 name
  rw [he] at hlookup
  obtain ⟨u, hopen, hfd, hothers⟩ := sysOpenC_known hlookup htype
    (hnew.inv.curPcb_ne hnew.running) (by rw [hfree]; exact h8)
  rw [hfree] at hopen hfd hothers
  refine ⟨hi, u, hopen, rfl, hnew.toRunning.keeps (sysOpenC_keeps hopen), fun j hlo hj => ?_,
    fun j hj2 hj8 hout => ?_⟩
  · by_cases hlast : j = hi
    · rw [hlast]
      exact hfd
    · rw [hothers j hlast]
      exact hnew.used j hlo (by omega)
  · rw [hothers j (by omega)]
    exact hnew.free j hj2 hj8 (by omega)

/-- None is left. -/
theorem Slots.full {e : Nat} (hn63 : img.nDirEntries ≤ 63) {name : CString}
    (hpage : BufferInPage literalAddr (name.bytes.length + 1))
    (he : img.entryOf name.bytes = some e) (h : Slots L img e 2 8 k) :
    Says img ok (ece391Open literalAddr name) k [] fun v t => v = -1 ∧ Slots L img e 2 8 t := by
  refine says_open hpage fun t ht => ?_
  have hnew := h.aside ht
  have hlookup := lookup_eq hn63 name
  rw [he] at hlookup
  obtain ⟨fs, hopen⟩ := sysOpenC_found hlookup t
  refine ⟨-1, { t with fs := fs }, ?_, rfl, ?_⟩
  · rw [hopen]
    exact openAs_full (k := { t with fs := fs }) (hnew.inv.curPcb_ne hnew.running)
      (hnew.firstFree (by decide) le_rfl).ge
  · exact ⟨hnew.toRunning.keeps (.globals t fs t.rtc), hnew.used, hnew.free⟩

/-- A descriptor of a known type can be closed. -/
theorem sysCloseC_opened {e fd : Nat} (htype : img.dentryType e ≤ 2) (hcur : k.curPcb ≠ 0)
    (h2 : 2 ≤ fd) (h8 : fd < 8) (hfd : k.fd fd = img.opened e) :
    ∃ t, sysCloseC fd k = some (0, t) ∧ ¬ (t.fd fd).InUse := by
  have huse : (k.fd fd).InUse := by
    rw [hfd]
    exact img.opened_inUse e
  have hsys : sysCloseC fd k = (tableOfType (img.dentryType e)).closePtr fd k := by
    have hfdSize : ¬ ((fd : Int) < 2 ∨ (fd : Int) > fdSize) := by
      simp only [fdSize]
      omega
    rw [sysCloseC, if_neg hfdSize, if_neg hcur, Int.toNat_natCast, if_neg (not_not.mpr huse), hfd]
    rfl
  -- the three `close` functions compare the type with their own
  have hclose (type : Nat) (hflags : (k.fd fd).flags.fileType = type) :
      closeFd type fd k = (0, k.setFd fd { k.fd fd with flags := 0 }) := by
    rw [closeFd, Int.toNat_natCast, if_neg (by omega), if_neg (not_not.mpr hflags),
      if_neg (not_not.mpr huse)]
  have hunused (t : Kernel) (ht : t.fd fd = { k.fd fd with flags := 0 }) : ¬ (t.fd fd).InUse := by
    rw [ht]
    show ¬ Flags.InUse 0
    decide
  have hcases : img.dentryType e = 0 ∨ img.dentryType e = 1 ∨ img.dentryType e = 2 := by omega
  have hflags : (k.fd fd).flags = flagsOfType (img.dentryType e) := by
    rw [hfd]
    rfl
  rw [hsys]
  rcases hcases with h | h | h
  · refine ⟨k.setFd fd { k.fd fd with flags := 0 }, ?_, hunused _ (Kernel.fd_setFd ..)⟩
    rw [h]
    show some (closeFd rtcFile fd k) = _
    rw [hclose rtcFile (by rw [hflags, h]; decide)]
  · refine ⟨k.setFd fd { k.fd fd with flags := 0 }, ?_, hunused _ (Kernel.fd_setFd ..)⟩
    rw [h]
    show some (closeFd dirFile fd k) = _
    rw [hclose dirFile (by rw [hflags, h]; decide)]
  · have hfile := hclose regFile (by rw [hflags, h]; decide)
    have hret : (fileClose fd k).1 = 0 := by
      rw [fileClose, hfile]
      rfl
    refine ⟨(fileClose fd k).2, ?_, hunused _ ?_⟩
    · rw [h, ← hret]
      rfl
    · rw [fileClose, hfile]
      exact Kernel.fd_setFd ..

/-- The first one is closed. -/
theorem Slots.closes {e lo : Nat} (htype : img.dentryType e ≤ 2) (h : Slots L img e lo 8 k)
    (h2 : 2 ≤ lo) (h8 : lo < 8) :
    Says img ok (ece391Close lo) k [] fun _ t => Slots L img e (lo + 1) 8 t := by
  refine says_close fun t ht => ?_
  have hnew := h.aside ht
  obtain ⟨u, hclose, hfree⟩ := sysCloseC_opened htype (hnew.inv.curPcb_ne hnew.running) h2 h8
    (hnew.used lo le_rfl h8)
  refine ⟨0, u, hclose, hnew.toRunning.keeps (sysCloseC_keeps hclose), fun j hlo hj => ?_,
    fun j hj2 hj8 hout => ?_⟩
  · rw [sysCloseC_fd hclose (by omega)]
    exact hnew.used j (by omega) hj
  · by_cases hlast : j = lo
    · rw [hlast]
      exact hfree
    · rw [sysCloseC_fd hclose (by omega)]
      exact hnew.free j hj2 hj8 (by omega)

/-- **Six of seven opens succeed**, and the closes undo them. -/
theorem errOpenLots_passes (hn63 : img.nDirEntries ≤ 63) {e : Nat}
    (he : img.entryOf dotName.bytes = some e) (htype : img.dentryType e ≤ 2) (h : Fresh L k) :
    Passes L img ok errOpenLots "err_open_lots" k := by
  have hstart : Slots L img e 2 2 k :=
    ⟨h.toRunning, fun j hlo hhi => absurd hhi (by omega), fun j h2 h8 _ => h.free j h2 h8⟩
  have hpage : BufferInPage literalAddr (dotName.bytes.length + 1) := by decide
  -- with `n` more to come, 7 - n of them have been made
  have hopens : Says img ok ((List.range 7).foldlM (fun (cnt : Nat) _ => do
      let value ← ece391Open literalAddr dotName
      pure (if value = -1 then cnt + 1 else cnt)) 0) k [] fun cnt t =>
        cnt = 1 ∧ Slots L img e 2 8 t := by
    refine (says_foldlM (I := fun rest cnt t => rest.length ≤ 7 ∧
      cnt = (if rest.length = 0 then 1 else 0) ∧ Slots L img e 2 (min 8 (9 - rest.length)) t) ?_
      ?_).mono ?_
    · rintro i rest cnt t ⟨hlen, rfl, ht⟩
      rw [List.length_cons] at hlen ht ⊢
      rw [if_neg (Nat.succ_ne_zero _)]
      by_cases hlast : rest.length = 0
      · -- the seventh
        rw [hlast] at ht ⊢
        refine (ht.full hn63 hpage he).bind_quiet ?_
        rintro - u ⟨rfl, hu⟩
        exact says_pure ⟨by omega, rfl, hu⟩
      · have hslots : min 8 (9 - (rest.length + 1)) = 8 - rest.length := by omega
        have hslots' : min 8 (9 - rest.length) = 8 - rest.length + 1 := by omega
        rw [hslots] at ht
        refine (ht.opens hn63 hpage he htype (by omega) (by omega)).bind_quiet ?_
        rintro - u ⟨rfl, hu⟩
        refine says_pure ⟨by omega, ?_, by rw [hslots']; exact hu⟩
        rw [if_neg hlast, if_neg (by omega)]
    · exact ⟨le_rfl, rfl, hstart⟩
    · rintro cnt t ⟨-, rfl, ht⟩
      exact ⟨rfl, ht⟩
  refine hopens.bind_quiet ?_
  rintro cnt t ⟨rfl, ht⟩
  -- with `n` more to come, the descriptors below 8 - n are closed again
  refine Says.bind_quiet (Q := fun _ u => Slots L img e 8 8 u) ?_ ?_
  · refine (says_foldlM (I := fun rest (_ : Unit) u => ∃ n ≤ 6, rest = List.range' (8 - n) n ∧
      Slots L img e (8 - n) 8 u) ?_ ⟨6, le_rfl, rfl, ht⟩).mono ?_
    · rintro i rest - u ⟨n, hn, hrest, hu⟩
      cases n with
      | zero => cases hrest
      | succ n =>
          have hnext : 8 - (n + 1) + 1 = 8 - n := by omega
          rw [List.range'_succ, hnext] at hrest
          obtain ⟨rfl, rfl⟩ := List.cons.inj hrest
          refine (hu.closes htype (by omega) (by omega)).bind_quiet fun _ v hv => ?_
          rw [hnext] at hv
          exact says_pure ⟨n, by omega, rfl, hv⟩
    · rintro - u ⟨n, hn, hrest, hu⟩
      cases n with
      | zero => exact hu
      | succ n => cases hrest
  · rintro - u hu
    have hfresh : Fresh L u := ⟨hu.toRunning, fun j h2 h8 => hu.free j h2 h8 (.inl h8)⟩
    rw [if_pos rfl]
    exact Says.then_quiet (wins_fdputs hu.toRunning (by decide +kernel)) fun _ v hv =>
      says_pure ⟨rfl, hfresh.aside hv⟩

/-! ### The program -/

/-- What the program says when all tests pass. -/
def report (select : Int) : List UInt8 :=
  let pass (name : String) := text (name ++ ": PASS\n")
  if select = 0 then
    pass "err_neg_fd" ++ pass "err_big_fd" ++ pass "err_open_lots" ++ pass "err_open" ++
      pass "err_unopened" ++ pass "err_vidmap" ++ pass "err_stdin_out" ++ pass "err_syscall_num" ++
      text "\nOverall Tests: PASS\n"
  else if select = 1 then pass "err_neg_fd"
  else if select = 2 then pass "err_big_fd"
  else if select = 3 then pass "err_open_lots"
  else if select = 4 then pass "err_open"
  else if select = 5 then pass "err_unopened"
  else if select = 6 then pass "err_vidmap"
  else if select = 7 then pass "err_stdin_out"
  else if select = 8 then pass "err_syscall_num"
  else text "Invalid test number. Choose from tests 1-8 or 0"

/-- The image has the directory under its name, and not the names that should be missing. -/
structure Tested (img : Image) : Prop where
  dot : ∃ e, img.entryOf dotName.bytes = some e ∧ img.dentryType e ≤ 2
  missing : ∀ name ∈ [helloo, shel, noName], img.entryOf name.bytes = none

theorem errAll_reports (hn63 : img.nDirEntries ≤ 63) (himg : Tested img) (h : Fresh L k) (buf : Nat)
    (m : Mem) : Says img ok (errAll buf m) k (report 0) fun x _ => x = 0 := by
  obtain ⟨e, he, htype⟩ := himg.dot
  rw [report]
  simp only [List.append_assoc]
  refine (errFd_passes h (.inl (by decide)) "err_neg_fd" (by decide +kernel) buf m).bind ?_
  rintro - t₁ ⟨rfl, h₁⟩
  refine (errFd_passes h₁ (.inr (by decide)) "err_big_fd" (by decide +kernel) buf m).bind ?_
  rintro - t₂ ⟨rfl, h₂⟩
  refine (errOpenLots_passes hn63 he htype h₂).bind ?_
  rintro - t₃ ⟨rfl, h₃⟩
  refine (errOpen_passes hn63 h₃ himg.missing).bind ?_
  rintro - t₄ ⟨rfl, h₄⟩
  refine (errUnopened_passes h₄ buf m).bind ?_
  rintro - t₅ ⟨rfl, h₅⟩
  refine (errVidmap_passes h₅ m).bind ?_
  rintro - t₆ ⟨rfl, h₆⟩
  refine (errStdinOut_passes h₆ buf m).bind ?_
  rintro - t₇ ⟨rfl, h₇⟩
  refine (errSyscallNum_passes h₇).bind ?_
  rintro - t₈ ⟨rfl, h₈⟩
  rw [if_neg (by decide)]
  exact Says.then_quiet (wins_fdputs h₈.toRunning (by decide +kernel)) fun _ _ _ => says_pure rfl

theorem errSelect_reports (hn63 : img.nDirEntries ≤ 63) (himg : Tested img) (h : Fresh L k)
    (select : Int) (buf : Nat) (m : Mem) :
    Says img ok (errSelect select buf m) k (report select) fun x _ => x = 0 := by
  obtain ⟨e, he, htype⟩ := himg.dot
  have hzero {p : Program Int} {name : String} (hp : Passes L img ok p name k) :
      Says img ok p k (text (name ++ ": PASS\n")) fun x _ => x = 0 := hp.mono fun _ _ hx => hx.1
  have hall : Says img ok (errAll buf m) k (report 0) fun x _ => x = 0 :=
    errAll_reports hn63 himg h buf m
  rw [report, if_pos rfl] at hall
  rw [errSelect, report]
  refine says_ite hall ?_
  refine says_ite
    (hzero (errFd_passes h (.inl (by decide)) "err_neg_fd" (by decide +kernel) buf m)) ?_
  refine says_ite
    (hzero (errFd_passes h (.inr (by decide)) "err_big_fd" (by decide +kernel) buf m)) ?_
  refine says_ite (hzero (errOpenLots_passes hn63 he htype h)) ?_
  refine says_ite (hzero (errOpen_passes hn63 h himg.missing)) ?_
  refine says_ite (hzero (errUnopened_passes h buf m)) ?_
  refine says_ite (hzero (errVidmap_passes h m)) ?_
  refine says_ite (hzero (errStdinOut_passes h buf m)) ?_
  refine says_ite (hzero (errSyscallNum_passes h)) ?_
  exact Says.then_quiet (wins_fdputs h.toRunning (by decide +kernel)) fun _ _ _ => says_pure rfl

theorem memAt_stored (m : Mem) {buf : Nat} {line : List UInt8} (hlen : line.length ≤ 2 ^ 32) :
    memAt (storeAll m (storesTo buf (storesAt 0 line))) buf 0 = line.headD (memAt m buf 0) := by
  cases line with
  | nil => rfl
  | cons b line =>
      have hbyte := storeAll_storesTo m buf 0 hlen (Nat.zero_lt_succ line.length)
      exact hbyte

/-- A test program. -/
theorem syserr_wins (hn63 : img.nDirEntries ≤ 63) (himg : Tested img) (h : Fresh L k) {buf : Nat}
    (hbuf : BufferInPage buf 128) (buf' : Nat) (m : Mem) :
    Wins (Call.answer img) (LinesTyped img) (syserr buf buf' m) k fun x d _ =>
      x = 0 ∧ ∃ line, (.read 0 buf (127 : Nat), ⟨.ret line.length, storesTo buf (storesAt 0 line)⟩) ∈ d ∧
        shown d = text "Choose from tests 1-8. 0 to run all: " ++
          report ((line.headD (memAt m buf 0)).toNat - 48) := by
  refine (wins_fdputs h.toRunning (by decide +kernel)).bind ?_
  rintro - d t ⟨hd, ht⟩
  have hfresh := h.aside ht
  refine (wins_keyboard hfresh.toRunning hbuf 127 m).bind ?_
  rintro - - u ⟨line, rfl, rfl, hlen, hu⟩
  have hcnt : ¬ (line.length : Int) = -1 := by omega
  simp only [if_neg hcnt, memAt_stored m (hlen.trans (by decide))]
  refine Wins.mono (errSelect_reports hn63 himg (hfresh.aside hu) _ buf' _) ?_
  rintro x d' v ⟨hd', rfl⟩
  refine ⟨rfl, line, by simp, ?_⟩
  rw [shown_append, shown_append, hd, hd']
  rfl

/-- **`syserr`**, started in any state that is reached from boot, whatever is typed and whatever
interrupts come: every test that is chosen passes. -/
theorem syserr_passes (hn63 : img.nDirEntries ≤ 63) (himg : Tested img)
    {pcbs : Nat → Pcb} {screen : Screen} {rtc : Rtc} {es : List Event} {os : List Seen}
    {k₀ : Kernel}
    (hes : Along (step img) (fun k e => e.Fits img k) (.boot L pcbs screen rtc) es)
    (hrun : run (step img) (.boot L pcbs screen rtc) es = some (os, k₀))
    {command : CString} {env : ExecEnv}
    (hx : step img k₀ (.execute command env) = some (⟨.entered, []⟩, k))
    {buf : Nat} (hbuf : BufferInPage buf 128) (buf' : Nat) (m : Mem) {happens : Nat → Around}
    (htyping : Allowed (Call.answer img) (LinesTyped img) (syserr buf buf' m) happens k) :
    ∃ line d t, play (Call.answer img) (syserr buf buf' m) happens k = some (0, d, t) ∧
      (.read 0 buf (127 : Nat), ⟨.ret line.length, storesTo buf (storesAt 0 line)⟩) ∈ d ∧
      shown d = text "Choose from tests 1-8. 0 to run all: " ++
        report ((line.headD (memAt m buf 0)).toNat - 48) := by
  have hstarted := started_execute (run_boot_inv hes hrun) hx
  have hfresh : Fresh L k := by
    refine ⟨hstarted.toRunning, fun j h2 h8 => ?_⟩
    rw [Kernel.fd, hstarted.files, initialFiles, if_neg (by omega)]
    decide
  obtain ⟨x, d, t, hplay, rfl, line, hmem, hd⟩ := (syserr_wins hn63 himg hfresh hbuf buf' m).play htyping
  exact ⟨line, d, t, hplay, hmem, hd⟩

theorem dotImage_tested : Tested dotImage := by
  have hdot : dotImage.entryOf dotName.bytes = some 1 := by decide +kernel
  refine ⟨⟨1, hdot, by decide +kernel⟩, ?_⟩
  decide +kernel

/-- The keys `6` and Enter are pressed while the second call waits. -/
def typesSix (n : Nat) : Around :=
  if n = 1 then
    ⟨[.tick], ⟨[.own, .key 0x07, .own, .key 0x87, .key 0x1C, .own, .own, .own, .own, .key 0x9C, .own,
      .own], false⟩, fun _ => 0⟩
  else ⟨[], ⟨[], false⟩, fun _ => 0⟩

/-- What the calls of `read` have given. -/
def readings (d : Dialogue Call Seen) : List Seen :=
  d.filterMap fun q => match q.1 with
    | .read .. => some q.2
    | _ => none

/-- The sixth test. -/
theorem syserr_passes_six :
    let k := final (step dotImage) tinyBoot [tinyExecute]
    ∃ d t, play (Call.answer dotImage) (syserr 0x8050000 0x8050100 fun _ => 0) typesSix k =
        some (0, d, t) ∧
      shown d = text "Choose from tests 1-8. 0 to run all: " ++ report 6 := by
  intro k
  have hx : step dotImage tinyBoot tinyExecute = some (⟨.entered, []⟩, k) :=
    step_final (by decide +kernel)
  have hrun : run (step dotImage) tinyBoot [] = some ([], tinyBoot) := rfl
  have htyping : Allowed (Call.answer dotImage) (LinesTyped dotImage)
      (syserr 0x8050000 0x8050100 fun _ => 0) typesSix k := by decide +kernel
  obtain ⟨line, d, t, hplay, hmem, hd⟩ := syserr_passes (by decide +kernel) dotImage_tested
    (by trivial) hrun hx (by decide) 0x8050100 (fun _ => 0) htyping
  -- what the second call has delivered
  have hread : (play (Call.answer dotImage) (syserr 0x8050000 0x8050100 fun _ => 0) typesSix k).map
      (fun r => readings r.2.1) =
        some [⟨.ret 2, [(0x8050000, 0x36), (0x8050001, 10)]⟩] := by decide +kernel
  rw [hplay, Option.map_some] at hread
  have hseen : (⟨.ret line.length, storesTo 0x8050000 (storesAt 0 line)⟩ : Seen) ∈ readings d :=
    List.mem_filterMap.mpr ⟨_, hmem, rfl⟩
  rw [Option.some.inj hread, List.mem_singleton] at hseen
  have hhead : line.headD 0 = 0x36 := by
    cases line with
    | nil => cases hseen
    | cons b line => exact congrArg Prod.snd (List.cons.inj (Seen.mk.inj hseen).2).1
  refine ⟨d, t, hplay, hd.trans ?_⟩
  show _ ++ report ((line.headD 0).toNat - 48) = _
  rw [hhead]
  rfl

end User

end LinuxBasedOs
