/-
LinuxBasedOs/CommandLine.lean

What becomes of a command line.

`sys_execute_c` copies its first word to `file_name`, 33 bytes on the stack, and the
whole of it to `new_pcb.input`, 1024 bytes.  The first copy is bounded, except for the
NUL behind it; the second is a plain `strcpy`.  `execute_buffers_iff` says for which
commands both stay in their arrays.

`sys_getargs_c` takes the arguments from `input`.  It looks for a space without looking
for the end of the string, and its copy loop

    for (idx = 0; idx < nbytes - in_idx; idx++, in_idx++)

moves both sides of its test.  With `s` the length of the word, the test is
`2 * idx < nbytes - s - 1`, so that only half of the room behind the word is used; and
if `nbytes` is not even as long as the word, the difference wraps around and there is
no bound at all.  From one description of the loop, `copyArgs_eq`, follow the exact
conditions for the call to stay in its buffers (`getargs_within_iff`) and to deliver
the arguments (`getargs_delivers_iff`).
-/
import LinuxBasedOs.Loader
import LinuxBasedOs.UserPointers
import Mathlib.Data.List.GetD

namespace LinuxBasedOs

open Bytes Transition

variable {img : Image} {k : Kernel}

/-! ### The command in the PCB -/

/-- The current process was started with this command: it is in `cur_pcb->input`. -/
structure Kernel.HoldsCommand (k : Kernel) (command : CString) : Prop where
  length_lt : command.bytes.length < 1024
  room : 1024 < k.inputRoom
  input : ∀ i ≤ command.bytes.length, k.cur.input i = command.mem i

/-- A program that has just been entered holds its command. -/
theorem holdsCommand_execute {L : Layout} (h : k.Inv L) {command : CString} {env : ExecEnv}
    {k' : Kernel} (hx : sysExecuteC img command env k = some (.entered, k')) :
    k'.HoldsCommand command := by
  have hlength : command.bytes.length < 1024 := by
    obtain ⟨fs, ⟨hret, -⟩ | ⟨-, inode, hload⟩⟩ := sysExecuteC_cases hx
    · cases hret
    · rw [load] at hload
      split_ifs at hload with hlong
      exact not_le.mp hlong
  obtain ⟨fs, ⟨hret, -⟩ | ⟨-, hret, -⟩ | ⟨h6, -, rfl⟩⟩ := h.execute hx
  · cases hret
  · cases hret
  refine ⟨hlength, ?_, fun i hi => ?_⟩
  · rw [Kernel.inputRoom, enter_curPcb]
    show 1024 < 0x800000 - (slot (k.processNumber + 1) + inputOff)
    simp only [slot, inputOff]
    omega
  · rw [Kernel.cur, enter_curPcb, enter_pcbs, Function.update_self]
    exact if_pos hi

/-- The memory from `input` on begins with the command. -/
theorem Kernel.HoldsCommand.inputMem {command : CString} (h : k.HoldsCommand command) (beyond : Mem)
    {i : Nat} (hi : i ≤ command.bytes.length) : k.inputMem beyond i = command.bytes.getD i 0 := by
  have hlt := h.length_lt
  rw [Kernel.inputMem, setWord, if_neg (by omega), setWord, if_neg (by omega), setWord,
    if_neg (by omega), if_pos (by omega)]
  exact h.input i hi

/-! ### The copy loop -/

/-- **The copy loop of `sys_getargs_c`** on arguments that end with a NUL: it copies `K`
bytes if its bound stops it there, else the arguments and their NUL. -/
theorem copyArgs_eq {mem : Mem} {nbytes : Int} {start K left : Nat} {args : List UInt8}
    (hnonzero : ∀ b ∈ args, b ≠ 0)
    (hmem : ∀ i ≤ args.length, mem (start + i) = args.getD i 0)
    (hwant : ∀ i < K, i ≤ args.length → ArgsWanted nbytes start i)
    (hstop : K ≤ args.length → ¬ ArgsWanted nbytes start K) (hleft : args.length < left) :
    copyArgs mem nbytes start left 0 =
      if K ≤ args.length then ⟨some K, args.take K⟩ else ⟨some args.length, args ++ [0]⟩ := by
  have hloop : ∀ left i, i ≤ K → i ≤ args.length → args.length < i + left →
      copyArgs mem nbytes start left i =
        if K ≤ args.length then ⟨some K, (args.take K).drop i⟩
        else ⟨some args.length, args.drop i ++ [0]⟩ := by
    intro left
    induction left with
    | zero => exact fun i _ hi hlt => absurd hlt (by omega)
    | succ left ih =>
        intro i hiK hi hlt
        rw [copyArgs]
        by_cases hlast : i = K
        · -- the bound is reached
          have hK : K ≤ args.length := hlast ▸ hi
          rw [hlast, if_neg (hstop hK), if_pos hK, List.drop_of_length_le (List.length_take_le K args)]
        rw [if_pos (hwant i (by omega) hi)]
        simp only [hmem i hi]
        by_cases hend : i = args.length
        · -- the NUL is reached
          have hnul : args.getD i 0 = 0 := by
            rw [hend, List.getD_eq_default _ _ le_rfl]
          rw [hnul, if_pos rfl, if_neg (by omega), hend, List.drop_length]
          rfl
        · have hlt' : i < args.length := by omega
          have hget : args.getD i 0 = args[i] := by
            rw [List.getD_eq_getElem _ _ hlt']
          rw [hget, if_neg (hnonzero _ (List.getElem_mem hlt')),
            ih (i + 1) (by omega) (by omega) (by omega)]
          split_ifs with hK
          · have hdrop : (args.take K).drop i = args[i] :: (args.take K).drop (i + 1) := by
              rw [List.drop_eq_getElem_cons (by rw [List.length_take]; omega), List.getElem_take]
            rw [hdrop]
          · rw [List.drop_eq_getElem_cons hlt']
            rfl
  have hzero := hloop left 0 (Nat.zero_le K) (Nat.zero_le _) (by omega)
  simpa using hzero

/-- Where the bound of the loop is, for a word of `s` characters. -/
def argsBound (nbytes : Int) (s a : Nat) : Nat :=
  if s < nbytes then (nbytes - s).toNat / 2 else a + 1

theorem argsWanted_of_lt {nbytes : Int} {s a i : Nat} (hlo : -2 ^ 31 ≤ nbytes) (hhi : nbytes < 2 ^ 31)
    (hshort : s + 1 + a < 1024) (hi : i < argsBound nbytes s a) (hia : i ≤ a) :
    ArgsWanted nbytes (s + 1) i := by
  rw [argsBound] at hi
  rw [ArgsWanted]
  split_ifs at hi
  all_goals omega

theorem not_argsWanted {nbytes : Int} {s a : Nat} (hhi : nbytes < 2 ^ 31)
    (hle : argsBound nbytes s a ≤ a) :
    ¬ ArgsWanted nbytes (s + 1) (argsBound nbytes s a) := by
  rw [ArgsWanted]
  rw [argsBound] at *
  split_ifs at *
  all_goals omega

/-! ### What the call does -/

/-- A command with arguments: a word without a space, a space, and the rest. -/
structure CString.Splits (command : CString) (word args : List UInt8) : Prop where
  bytes : command.bytes = word ++ 32 :: args
  word : 32 ∉ word

theorem CString.Splits.length {command : CString} {word args : List UInt8}
    (h : command.Splits word args) : command.bytes.length = word.length + 1 + args.length := by
  rw [h.bytes, List.length_append, List.length_cons]
  omega

/-- The space is the first one in the memory. -/
theorem Kernel.HoldsCommand.firstSpace {command : CString} (h : k.HoldsCommand command)
    {word args : List UInt8} (hs : command.Splits word args) (beyond : Mem) :
    FirstSpace k beyond word.length := by
  have hlen := hs.length
  have hlt := h.length_lt
  have hroom := h.room
  refine ⟨by omega, ?_, fun i hi => ?_⟩
  · rw [h.inputMem beyond (by omega), hs.bytes, List.getD_append_right _ _ _ _ le_rfl, Nat.sub_self]
    rfl
  · rw [h.inputMem beyond (by omega), hs.bytes, List.getD_append _ _ _ _ hi,
      List.getD_eq_getElem _ _ hi]
    intro heq
    exact hs.word (heq ▸ List.getElem_mem hi)

theorem sysGetargsC_of_copy {buf space : Nat} {nbytes : Int} {beyond : Mem} {r : ArgsCopied}
    (hspace : FirstSpace k beyond space)
    (hcopy : copyArgs (k.inputMem beyond) nbytes (space + 1) (k.inputRoom - (space + 1)) 0 = r) :
    sysGetargsC buf nbytes beyond k =
      ⟨r.idx.map fun idx => if idx = 0 then -1 else 0, storesTo buf (storesAt 0 r.bytes)⟩ := by
  have hfind := (findSpace_iff beyond space).mpr hspace
  subst hcopy
  unfold sysGetargsC
  simp only [hfind]

/-- **`sys_getargs_c`** for a command with arguments. -/
theorem sysGetargsC_eq {command : CString} (h : k.HoldsCommand command) {word args : List UInt8}
    (hs : command.Splits word args) (buf : Nat) {nbytes : Int} (hlo : -2 ^ 31 ≤ nbytes)
    (hhi : nbytes < 2 ^ 31) (beyond : Mem) :
    let K := argsBound nbytes word.length args.length
    sysGetargsC buf nbytes beyond k =
      if K ≤ args.length then
        ⟨some (if K = 0 then -1 else 0), storesTo buf (storesAt 0 (args.take K))⟩
      else ⟨some (if args.length = 0 then -1 else 0), storesTo buf (storesAt 0 (args ++ [0]))⟩ := by
  intro K
  have hlen := hs.length
  have hlt := h.length_lt
  have hroom := h.room
  -- behind the space are the arguments and their NUL
  have hmem : ∀ i ≤ args.length, k.inputMem beyond (word.length + 1 + i) = args.getD i 0 := by
    intro i hi
    rw [h.inputMem beyond (by omega), hs.bytes, List.getD_append_right _ _ _ _ (by omega),
      show word.length + 1 + i - word.length = i + 1 by omega, List.getD_cons_succ]
  have hnonzero : ∀ b ∈ args, b ≠ 0 := by
    intro b hb
    refine command.nonzero b ?_
    rw [hs.bytes]
    exact List.mem_append_right _ (List.mem_cons_of_mem _ hb)
  have hcopy := copyArgs_eq hnonzero hmem
    (fun i hi hia => argsWanted_of_lt hlo hhi (by omega) hi hia)
    (fun hle => not_argsWanted hhi hle)
    (show args.length < k.inputRoom - (word.length + 1) by omega)
  rw [sysGetargsC_of_copy (h.firstSpace hs beyond) hcopy]
  -- the bound of the loop stops it, or the NUL does
  by_cases hK : K ≤ args.length
  · rw [if_pos hK, if_pos hK]
    rfl
  · rw [if_neg hK, if_neg hK]
    rfl

/-! ### What the call reads -/

/-- The places of `input` that the search for a space reads. -/
def findSpaceReads (mem : Mem) : (left inIdx : Nat) → List Nat
  | 0, _ => []
  | left + 1, inIdx =>
      inIdx :: if mem inIdx = 32 then [] else findSpaceReads mem left (inIdx + 1)

/-- The places of `input` that the copy loop reads. -/
def copyArgsReads (mem : Mem) (nbytes : Int) (start : Nat) : (left idx : Nat) → List Nat
  | 0, _ => []
  | left + 1, idx =>
      if ArgsWanted nbytes start idx then
        (start + idx) ::
          if mem (start + idx) = 0 then [] else copyArgsReads mem nbytes start left (idx + 1)
      else []

/-- The places of `input` that the call reads. -/
def sysGetargsReads (nbytes : Int) (beyond : Mem) (k : Kernel) : List Nat :=
  findSpaceReads (k.inputMem beyond) k.inputRoom 0 ++
    match findSpace (k.inputMem beyond) k.inputRoom 0 with
    | none => []
    | some space =>
        copyArgsReads (k.inputMem beyond) nbytes (space + 1) (k.inputRoom - (space + 1)) 0

/-- The search reads every place up to the space that it finds, once. -/
theorem findSpaceReads_eq {mem : Mem} {left i j : Nat} (h : findSpace mem left i = some j) :
    findSpaceReads mem left i = List.range' i (j + 1 - i) := by
  induction left generalizing i with
  | zero => cases h
  | succ left ih =>
      have hle := (findSpace_eq_some_iff.mp h).1
      have hcount : j + 1 - i = j - i + 1 := by omega
      rw [findSpace] at h
      rw [findSpaceReads, hcount, List.range'_succ]
      split_ifs at h ⊢ with h32
      · obtain rfl := Option.some.inj h
        rw [Nat.sub_self]
        rfl
      · rw [ih h, Nat.add_sub_add_right]

/-- The copy loop reads one place for each byte that it stores. -/
theorem copyArgs_bytes_eq_map (mem : Mem) (nbytes : Int) (start left idx : Nat) :
    (copyArgs mem nbytes start left idx).bytes =
      (copyArgsReads mem nbytes start left idx).map mem := by
  induction left generalizing idx with
  | zero =>
      rw [copyArgs, copyArgsReads]
      split_ifs
      · rfl
      · rfl
  | succ left ih =>
      simp only [copyArgs, copyArgsReads]
      split_ifs
      · rfl
      · rw [List.map_cons, ← ih]
      · rfl

/-- **The reads are those of the two loops**: each place up to the first space, and then one
for each byte that the call stores, which is that byte. -/
theorem sysGetargsReads_eq {beyond : Mem} {space : Nat} (h : FirstSpace k beyond space) (buf : Nat)
    (nbytes : Int) :
    ∃ copied, sysGetargsReads nbytes beyond k = List.range (space + 1) ++ copied ∧
      (sysGetargsC buf nbytes beyond k).stores =
        storesTo buf (storesAt 0 (copied.map (k.inputMem beyond))) := by
  have hfind := (findSpace_iff beyond space).mpr h
  refine ⟨copyArgsReads (k.inputMem beyond) nbytes (space + 1) (k.inputRoom - (space + 1)) 0, ?_, ?_⟩
  · rw [sysGetargsReads, findSpaceReads_eq hfind, hfind, List.range_eq_range']
    rfl
  · rw [sysGetargsC_of_copy h rfl, copyArgs_bytes_eq_map]

/-- Without a space it reads on. -/
theorem mem_findSpaceReads {mem : Mem} {left i j : Nat} (hij : i ≤ j) (hj : j < i + left)
    (hno : ∀ m, i ≤ m → m < j → mem m ≠ 32) : j ∈ findSpaceReads mem left i := by
  induction left generalizing i with
  | zero => omega
  | succ left ih =>
      rw [findSpaceReads]
      rcases Nat.eq_or_lt_of_le hij with rfl | hlt
      · exact List.mem_cons_self
      · rw [if_neg (hno i le_rfl hlt)]
        exact List.mem_cons_of_mem _ (ih hlt (by omega) fun m h₁ h₂ => hno m (by omega) h₂)

/-- The copy loop reads no further than the NUL. -/
theorem copyArgsReads_le {mem : Mem} {nbytes : Int} {start a : Nat} (hnul : mem (start + a) = 0)
    (left : Nat) {i : Nat} (hi : i ≤ a) :
    ∀ m ∈ copyArgsReads mem nbytes start left i, m ≤ start + a := by
  induction left generalizing i with
  | zero => exact List.forall_mem_nil _
  | succ left ih =>
      rw [copyArgsReads]
      intro m hm
      split_ifs at hm with hwant h0
      · rw [List.mem_singleton.mp hm]
        omega
      · rcases List.mem_cons.mp hm with rfl | hm
        · omega
        · have hne : i ≠ a := by
            rintro rfl
            exact h0 hnul
          exact ih (by omega) m hm
      · cases hm

/-- A command without a space has no arguments. -/
theorem splits_or_no_space (command : CString) :
    (∃ word args, command.Splits word args) ∨ 32 ∉ command.bytes := by
  by_cases h : 32 ∈ command.bytes
  · obtain ⟨word, args, hbytes, hword⟩ := List.eq_append_cons_of_mem h
    exact .inl ⟨word, args, hbytes, hword⟩
  · exact .inr h

/-- A command splits in one way only, as far as the lengths go. -/
theorem Kernel.HoldsCommand.splits_unique {command : CString} (h : k.HoldsCommand command)
    {word args word' args' : List UInt8} (hs : command.Splits word args)
    (hs' : command.Splits word' args') :
    word'.length = word.length ∧ args'.length = args.length := by
  have hspace := (findSpace_iff (fun _ => 0) word.length).mpr (h.firstSpace hs _)
  have hspace' := (findSpace_iff (fun _ => 0) word'.length).mpr (h.firstSpace hs' _)
  have hword := Option.some.inj (hspace'.symm.trans hspace)
  have hlen := hs.length
  have hlen' := hs'.length
  omega

/-- With a space in it, only the command is read … -/
theorem Kernel.HoldsCommand.reads_le {command : CString} (h : k.HoldsCommand command)
    {word args : List UInt8} (hs : command.Splits word args) (nbytes : Int) (beyond : Mem) :
    ∀ i ∈ sysGetargsReads nbytes beyond k, i ≤ command.bytes.length := by
  have hlen := hs.length
  have hspace := (findSpace_iff beyond word.length).mpr (h.firstSpace hs beyond)
  have hnul : k.inputMem beyond (word.length + 1 + args.length) = 0 := by
    rw [← hlen, h.inputMem beyond le_rfl, List.getD_eq_default _ _ le_rfl]
  intro i hi
  rw [sysGetargsReads, hspace, List.mem_append] at hi
  rcases hi with hi | hi
  · rw [findSpaceReads_eq hspace, List.mem_range'_1] at hi
    omega
  · have hle := copyArgsReads_le hnul _ (Nat.zero_le _) i hi
    omega

/-- … and without one, more than that. -/
theorem Kernel.HoldsCommand.reads_behind {command : CString} (h : k.HoldsCommand command)
    (hno : 32 ∉ command.bytes) (nbytes : Int) (beyond : Mem) :
    command.bytes.length + 1 ∈ sysGetargsReads nbytes beyond k := by
  have hlt := h.length_lt
  have hroom := h.room
  refine List.mem_append_left _ (mem_findSpaceReads (Nat.zero_le _) (by omega) fun m _ hm => ?_)
  rw [h.inputMem beyond (by omega)]
  rcases Nat.lt_or_ge m command.bytes.length with hin | hend
  · rw [List.getD_eq_getElem _ _ hin]
    intro heq
    exact hno (heq ▸ List.getElem_mem hin)
  · rw [List.getD_eq_default _ _ hend]
    decide

/-- The call returns, and stays in its buffer if the word or the arguments are shorter. -/
theorem Kernel.HoldsCommand.storesWithin_iff {command : CString} (h : k.HoldsCommand command)
    {word args : List UInt8} (hs : command.Splits word args) (buf : Nat) {nbytes : Int}
    (hlo : 0 ≤ nbytes) (hhi : nbytes < 2 ^ 31) (beyond : Mem) :
    (sysGetargsC buf nbytes beyond k).ret ≠ none ∧
      (StoresWithin buf nbytes.toNat (sysGetargsC buf nbytes beyond k).stores ↔
        word.length < nbytes ∨ args.length < nbytes) := by
  have hlt := h.length_lt
  have hlen := hs.length
  -- so many bytes are stored
  obtain ⟨hret, bs, hbs, hcount⟩ : (sysGetargsC buf nbytes beyond k).ret ≠ none ∧
      ∃ bs, (sysGetargsC buf nbytes beyond k).stores = storesTo buf (storesAt 0 bs) ∧
        bs.length = min (argsBound nbytes word.length args.length) (args.length + 1) := by
    rw [sysGetargsC_eq h hs buf (by omega) hhi beyond]
    by_cases hK : argsBound nbytes word.length args.length ≤ args.length
    · rw [if_pos hK]
      refine ⟨Option.some_ne_none _, _, rfl, ?_⟩
      rw [List.length_take]
      omega
    · rw [if_neg hK]
      refine ⟨Option.some_ne_none _, _, rfl, ?_⟩
      rw [List.length_append, List.length_singleton]
      omega
  refine ⟨hret, ?_⟩
  rw [hbs, LinuxBasedOs.storesWithin_iff _ _ (by omega), hcount, argsBound]
  split_ifs
  all_goals omega

/-- **`sys_getargs_c` stays in its buffers** exactly if the command has a space, and the
word before it or the arguments behind it are shorter than the buffer: it then returns,
reads nothing behind the NUL of the command, and stores to `buf[0 .. nbytes)` only.
For every command of less than 1024 characters and every buffer. -/
theorem getargs_within_iff {k : Kernel} {command : CString} (h : k.HoldsCommand command) (buf : Nat)
    {nbytes : Int} (hlo : 0 ≤ nbytes) (hhi : nbytes < 2 ^ 31) (beyond : Mem) :
    let e := sysGetargsC buf nbytes beyond k
    (e.ret ≠ none ∧ (∀ i ∈ sysGetargsReads nbytes beyond k, i ≤ command.bytes.length) ∧
        StoresWithin buf nbytes.toNat e.stores) ↔
      ∃ word args, command.Splits word args ∧ (word.length < nbytes ∨ args.length < nbytes) := by
  intro e
  rcases splits_or_no_space command with ⟨word, args, hs⟩ | hno
  · obtain ⟨hret, hbound⟩ := h.storesWithin_iff hs buf hlo hhi beyond
    constructor
    · rintro ⟨-, -, hwithin⟩
      exact ⟨word, args, hs, hbound.mp hwithin⟩
    · rintro ⟨word', args', hs', hshort⟩
      obtain ⟨hw, ha⟩ := h.splits_unique hs hs'
      rw [hw, ha] at hshort
      exact ⟨hret, h.reads_le hs nbytes beyond, hbound.mpr hshort⟩
  · -- the search goes past the end of the command
    refine iff_of_false ?_ ?_
    · rintro ⟨-, hreads, -⟩
      exact Nat.not_succ_le_self _ (hreads _ (h.reads_behind hno nbytes beyond))
    · rintro ⟨word, args, hs, -⟩
      apply hno
      rw [hs.bytes]
      exact List.mem_append_right _ List.mem_cons_self

theorem argsKernel_holds : argsKernel.HoldsCommand argsCommand :=
  ⟨by decide, by decide +kernel, by decide +kernel⟩

theorem argsCommand_splits : argsCommand.Splits [0x61] [0x62] := ⟨rfl, by decide⟩

/-- The arguments of `a b`, with room for ten bytes. -/
theorem getargs_within_ab :
    let e := sysGetargsC 0x8050000 10 (fun _ => 0) argsKernel
    e.ret ≠ none ∧ (∀ i ∈ sysGetargsReads 10 (fun _ => 0) argsKernel, i ≤ 3) ∧
      StoresWithin 0x8050000 10 e.stores :=
  (getargs_within_iff argsKernel_holds 0x8050000 (show 0 ≤ (10 : Int) by decide) (by decide)
    (fun _ => 0)).mpr ⟨[0x61], [0x62], argsCommand_splits, .inl (by decide)⟩

/-- Into a buffer of no bytes the arguments of `a b` are stored all the same; and for the
command `a`, which ends at place 1, place 2 is read. -/
theorem getargs_runs_away :
    (sysGetargsC 0x8050000 0 (fun _ => 0) argsKernel).stores =
        [(0x8050000, 0x62), (0x8050001, 0)] ∧
      2 ∈ sysGetargsReads 10 (fun _ => 0) (final (step tinyImage) tinyBoot [tinyExecute]) := by
  decide +kernel

/-! ### What the call delivers -/

/-- What the call should do: put the arguments and their NUL into the buffer if there are
any and they fit, else fail. -/
def DeliversArgs (args : List UInt8) (buf : Nat) (nbytes : Int) (e : Effect) : Prop :=
  if args ≠ [] ∧ args.length + 1 ≤ nbytes then
    e.ret = some 0 ∧
      ∀ m, ∀ i ≤ args.length, storeAll m e.stores ((buf + i) % 2 ^ 32) = args.getD i 0
  else e.ret = some (-1)

/-- The loop of `ece391_getargs` (ece391emulate.c) over the arguments that are left, with
the offset in the buffer and the room: the value returned, and the stores. -/
def emulateArgs : List (List UInt8) → Nat → Int → Int × List (Nat × UInt8)
  | [], off, nbytes => if nbytes < 1 then (-1, []) else (0, [(off, 0)])
  | arg :: rest, off, nbytes =>
      if nbytes < arg.length then (-1, [])
      else
        let copied := storesAt off (arg ++ [0])
        let left := nbytes - arg.length
        if rest = [] then
          if left < 1 then (-1, copied) else (0, copied ++ [(off + arg.length, 0)])
        else if left < 1 then (-1, copied)
        else
          let r := emulateArgs rest (off + arg.length + 1) (left - 1)
          (r.1, copied ++ (off + arg.length, 32) :: r.2)

/-- The emulated call: the arguments of the host program, with spaces in between. -/
def ece391Getargs (argv : List (List UInt8)) (buf : Nat) (nbytes : Int) : Effect :=
  let r := emulateArgs argv 0 nbytes
  ⟨some r.1, storesTo buf r.2⟩

/-- Bytes that have been stored, and their NUL. -/
theorem storeAll_args (m : Mem) (buf : Nat) {args : List UInt8} (hlen : args.length < 1024) {i : Nat}
    (hi : i ≤ args.length) :
    storeAll m (storesTo buf (storesAt 0 (args ++ [0]))) ((buf + i) % 2 ^ 32) = args.getD i 0 := by
  have hlength : (args ++ [(0 : UInt8)]).length = args.length + 1 := by simp
  have hbyte := storeAll_storesTo m buf 0 (show (args ++ [0]).length ≤ 2 ^ 32 by omega) (i := i)
    (by omega)
  rw [Nat.zero_add] at hbyte
  rw [hbyte]
  rcases Nat.eq_or_lt_of_le hi with rfl | hlt
  · rw [List.getElem_append_right le_rfl, List.getD_eq_default _ _ le_rfl, List.getElem_singleton]
  · rw [List.getElem_append_left hlt, List.getD_eq_getElem _ _ hlt]

theorem emulateArgs_one (arg : List UInt8) (nbytes : Int) :
    emulateArgs [arg] 0 nbytes =
      if nbytes < arg.length then (-1, [])
      else if nbytes - arg.length < 1 then (-1, storesAt 0 (arg ++ [0]))
      else (0, storesAt 0 (arg ++ [0]) ++ [(arg.length, 0)]) := by
  rw [emulateArgs, Nat.zero_add]
  simp only [if_true]

/-- The emulation does what is expected with one argument. -/
theorem ece391Getargs_delivers {args : List UInt8} (hargs : args ≠ []) (hlen : args.length < 1024)
    (buf : Nat) (nbytes : Int) : DeliversArgs args buf nbytes (ece391Getargs [args] buf nbytes) := by
  rw [DeliversArgs, ece391Getargs, emulateArgs_one]
  by_cases hfit : (args.length : Int) + 1 ≤ nbytes
  · rw [if_pos ⟨hargs, hfit⟩, if_neg (by omega), if_neg (by omega)]
    refine ⟨rfl, fun m i hi => ?_⟩
    have hstores : storesTo buf (storesAt 0 (args ++ [0]) ++ [(args.length, 0)]) =
        storesTo buf (storesAt 0 (args ++ [0])) ++ [((buf + args.length) % 2 ^ 32, 0)] :=
      List.map_append
    show storeAll m (storesTo buf _) _ = _
    rw [hstores, storeAll_append]
    -- the last store writes the NUL once more
    show Function.update _ ((buf + args.length) % 2 ^ 32) 0 _ = _
    by_cases hend : i = args.length
    · rw [hend, Function.update_self, List.getD_eq_default _ _ le_rfl]
    · rw [Function.update_of_ne (by omega)]
      exact storeAll_args m buf hlen hi
  · rw [if_neg fun h => hfit h.2]
    by_cases hlong : nbytes < args.length
    · rw [if_pos hlong]
    · rw [if_neg hlong, if_pos (by omega)]

/-- Fewer bytes than the arguments have do not deliver them. -/
theorem not_delivers_take {args : List UInt8} (hlen : args.length < 1024) {K : Nat}
    (hK : K ≤ args.length) (buf : Nat) :
    ¬ ∀ m, ∀ i ≤ args.length,
      storeAll m (storesTo buf (storesAt 0 (args.take K))) ((buf + i) % 2 ^ 32) = args.getD i 0 := by
  intro h
  -- memory in which the next byte is another one
  have hbyte := h (fun _ => args.getD K 0 + 1) K hK
  rw [storeAll_of_not_mem] at hbyte
  · have hnat := congrArg UInt8.toNat hbyte
    rw [UInt8.toNat_add] at hnat
    have hlt := (args.getD K 0).toNat_lt
    have hone : (1 : UInt8).toNat = 1 := rfl
    omega
  · intro p hp heq
    obtain ⟨q, hq, rfl⟩ := mem_storesTo.mp hp
    have hrange := le_of_mem_storesAt hq
    rw [List.length_take] at hrange
    have heq' : (buf + q.1) % 2 ^ 32 = (buf + K) % 2 ^ 32 := heq
    omega

/-- **`sys_getargs_c` delivers the arguments** of the command that the process was
started with, as the emulation does, exactly if there are none, or the buffer has room
for the word, the space and twice the arguments with their NUL, or its size is that of
the word or less and the arguments fit, or its size is just that of the word with its
space and they do not fit. -/
theorem getargs_delivers_iff {L : Layout} {img : Image} {command : CString} {env : ExecEnv}
    {k k' : Kernel} (h : k.Inv L) (hx : sysExecuteC img command env k = some (.entered, k'))
    {word args : List UInt8} (hs : command.Splits word args) (buf : Nat) {nbytes : Int}
    (hlo : -2 ^ 31 ≤ nbytes) (hhi : nbytes < 2 ^ 31) (beyond : Mem) :
    (args ≠ [] → DeliversArgs args buf nbytes (ece391Getargs [args] buf nbytes)) ∧
    (DeliversArgs args buf nbytes (sysGetargsC buf nbytes beyond k') ↔
      args = [] ∨ word.length + 2 * args.length + 2 ≤ nbytes ∨
        (args.length + 1 ≤ nbytes ∧ nbytes ≤ word.length) ∨
        (nbytes = word.length + 1 ∧ word.length < args.length)) := by
  have hholds := holdsCommand_execute h hx
  have hlen := hs.length
  have hlt := hholds.length_lt
  have hshort : args.length < 1024 := by omega
  refine ⟨fun hargs => ece391Getargs_delivers hargs hshort buf nbytes, ?_⟩
  rw [DeliversArgs, sysGetargsC_eq hholds hs buf hlo hhi beyond]
  by_cases hnil : args = []
  · -- no arguments, no delivery
    rw [if_neg fun hfit => hfit.1 hnil]
    refine iff_of_true ?_ (.inl hnil)
    have h0 : args.length = 0 := by rw [hnil, List.length_nil]
    split_ifs
    all_goals first | rfl | omega
  have hpos : 0 < args.length := List.length_pos_iff.mpr hnil
  have hret : (some 0 : Option Int) ≠ some (-1) := by decide
  simp only [hnil, ne_eq, not_false_eq_true, true_and, false_or]
  by_cases hK : argsBound nbytes word.length args.length ≤ args.length
  · -- the bound stops the loop
    rw [if_pos hK]
    have hgt : (word.length : Int) < nbytes := by
      rw [argsBound] at hK
      split_ifs at hK with hgt
      · exact hgt
      · omega
    by_cases hK0 : argsBound nbytes word.length args.length = 0
    · have hsize : nbytes = word.length + 1 := by
        rw [argsBound, if_pos hgt] at hK0
        omega
      rw [if_pos hK0]
      split_ifs with hfit
      · refine iff_of_false (fun hd => hret hd.1.symm) ?_
        omega
      · refine iff_of_true rfl ?_
        omega
    · have hsize : ¬ (word.length + 2 * args.length + 2 ≤ nbytes ∨
          (args.length + 1 ≤ nbytes ∧ nbytes ≤ word.length) ∨
          (nbytes = word.length + 1 ∧ word.length < args.length)) := by
        rw [argsBound, if_pos hgt] at hK hK0
        omega
      rw [if_neg hK0]
      refine iff_of_false ?_ hsize
      split_ifs with hfit
      · exact fun hd => not_delivers_take hshort hK buf hd.2
      · exact hret
  · -- the arguments and their NUL are copied
    rw [if_neg hK, if_neg hpos.ne']
    have hsize : (word.length + 2 * args.length + 2 ≤ nbytes ∨
        (args.length + 1 ≤ nbytes ∧ nbytes ≤ word.length) ∨
        (nbytes = word.length + 1 ∧ word.length < args.length)) ↔ args.length + 1 ≤ nbytes := by
      rw [argsBound] at hK
      split_ifs at hK
      all_goals omega
    rw [hsize]
    split_ifs with hfit
    · exact iff_of_true ⟨rfl, fun m i hi => storeAll_args m buf hshort hi⟩ hfit
    · exact iff_of_false hret hfit

/-- The argument of `a b`, with room for ten bytes. -/
theorem getargs_delivers_ab :
    ∃ k, sysExecuteC tinyImage argsCommand ⟨fun _ => 0, fun _ => 0, 0⟩ tinyBoot = some (.entered, k) ∧
      DeliversArgs [0x62] 0x8050000 10 (sysGetargsC 0x8050000 10 (fun _ => 0) k) := by
  have hentered : (sysExecuteC tinyImage argsCommand ⟨fun _ => 0, fun _ => 0, 0⟩ tinyBoot).map
      Prod.fst = some .entered := by decide +kernel
  obtain ⟨⟨o, k⟩, hx, rfl⟩ := Option.map_eq_some_iff.mp hentered
  exact ⟨k, hx, (getargs_delivers_iff (Kernel.boot_inv tinyLayout _ _ _) hx argsCommand_splits
    0x8050000 (by decide) (by decide) (fun _ => 0)).2.mpr (.inr (.inl (by decide)))⟩

/-- In four bytes there is room for `b` and its NUL, but the NUL is not stored. -/
theorem getargs_drops_nul :
    ((sysGetargsC 0x8050000 4 (fun _ => 0) argsKernel).ret,
      (sysGetargsC 0x8050000 4 (fun _ => 0) argsKernel).stores) = (some 0, [(0x8050000, 0x62)]) := by
  decide +kernel

/-! ### The two copies of a command -/

/-- The stores of `sys_execute_c` to `file_name`: the loop over the first word, with
`left` places to go, and the NUL behind it. -/
def fileNameStores (command : Mem) : (left idx : Nat) → List (Nat × UInt8)
  | 0, idx => [(idx, 0)]
  | left + 1, idx =>
      if command idx = 32 ∨ command idx = 0 ∨ command idx = 10 then [(idx, 0)]
      else (idx, command idx) :: fileNameStores command left (idx + 1)

/-- The stores of `strcpy(new_pcb.input, command)`. -/
def inputStores (command : CString) : List (Nat × UInt8) := storesAt 0 (command.bytes ++ [0])

/-- The stores to the two arrays that receive the command. -/
structure ExecuteStores where
  fileName : List (Nat × UInt8)
  input : List (Nat × UInt8)

/-- The stores of `sys_execute_c` to its two arrays; the command is copied only for a file that
passes the check. -/
def sysExecuteStores (img : Image) (command : CString) (env : ExecEnv) (k : Kernel) : ExecuteStores :=
  if 6 ≤ k.processNumber then ⟨[], []⟩
  else
    { fileName := fileNameStores command.mem 33 0
      input :=
        match readDentryByName img (commandWord command) k.fs with
        | some (some (d, _), _) =>
            if img.dentryType d ≠ regFile then []
            else if ¬ isElf img (img.dentryInode d) env.header then []
            else inputStores command
        | _ => [] }

/-- The first word of a command, however long it is. -/
def firstWord (command : CString) : List UInt8 :=
  command.bytes.takeWhile fun b => ¬ IsNameEnd b

theorem fileNameStores_eq (command : CString) (left i : Nat) :
    fileNameStores command.mem left i =
      storesAt i (((command.bytes.drop i).takeWhile fun b => ¬ IsNameEnd b).take left ++ [0]) := by
  induction left generalizing i with
  | zero => rfl
  | succ left ih =>
      rw [fileNameStores, ih]
      -- in the command the loop stops at a space or a newline, and else at the NUL behind it
      rcases Nat.lt_or_ge i command.bytes.length with hi | hend
      · have hget : command.mem i = command.bytes[i] := List.getD_eq_getElem _ _ hi
        have hne := command.nonzero _ (List.getElem_mem hi)
        rw [hget, List.drop_eq_getElem_cons hi]
        by_cases hname : IsNameEnd command.bytes[i]
        · have hstop : command.bytes[i] = 32 ∨ command.bytes[i] = 0 ∨ command.bytes[i] = 10 := by
            rcases hname with h | h
            · exact .inl h
            · exact .inr (.inr h)
          rw [if_pos hstop, List.takeWhile_cons_of_neg (by simpa using hname), List.take_nil]
          rfl
        · have hgo : ¬ (command.bytes[i] = 32 ∨ command.bytes[i] = 0 ∨ command.bytes[i] = 10) := by
            rintro (h | h | h)
            · exact hname (.inl h)
            · exact hne h
            · exact hname (.inr h)
          rw [if_neg hgo, List.takeWhile_cons_of_pos (by simpa using hname), List.take_succ_cons]
          rfl
      · have hnul : command.mem i = 0 := List.getD_eq_default _ _ hend
        rw [if_pos (.inr (.inl hnul)), List.drop_of_length_le hend]
        rfl

/-- They are the stores of `file_name` as the lookup then finds it. -/
theorem fileNameStores_commandWord (command : CString) :
    fileNameStores command.mem 33 0 = storesAt 0 ((commandWord command).bytes ++ [0]) := by
  rw [fileNameStores_eq, List.drop_zero]
  rfl

theorem fileNameStores_le_iff (command : CString) :
    (∀ p ∈ fileNameStores command.mem 33 0, p.1 ≤ 32) ↔ (firstWord command).length ≤ 32 := by
  have hlt : (∀ p ∈ fileNameStores command.mem 33 0, p.1 ≤ 32) ↔
      ∀ p ∈ fileNameStores command.mem 33 0, p.1 < 33 :=
    forall₂_congr fun p _ => Nat.lt_succ_iff.symm
  rw [hlt, fileNameStores_eq, List.drop_zero, storesAt_lt_iff (Nat.zero_le 33), List.length_append,
    List.length_take, List.length_singleton, ← firstWord]
  omega

theorem inputStores_le_iff (command : CString) :
    (∀ p ∈ inputStores command, p.1 ≤ 1023) ↔ command.bytes.length ≤ 1023 := by
  have hlt : (∀ p ∈ inputStores command, p.1 ≤ 1023) ↔ ∀ p ∈ inputStores command, p.1 < 1024 :=
    forall₂_congr fun p _ => Nat.lt_succ_iff.symm
  rw [hlt, inputStores, storesAt_lt_iff (Nat.zero_le 1024), List.length_append,
    List.length_singleton]
  omega

/-- What lets a file through the executable check, as it stands in the image and on the
stack: an empty file needs a magic number that is there already, any other four bytes,
and the magic number in the block of its first entry that is a block number. -/
def Image.PassesCheck (img : Image) (inode : Nat) (header : Mem) : Prop :=
  inode < img.nInodes ∧
    if img.fileLength inode = 0 then ∀ p < 4, header p = elfText p
    else 4 ≤ img.fileLength inode ∧
      ∃ j, img.validFrom inode 0 = some j ∧ img.BeginsElf (img.inodeWord inode j)

theorem isElf_iff_passesCheck (img : Image) (inode : Nat) (header : Mem) :
    isElf img inode header ↔ img.PassesCheck inode header := by
  by_cases hinode : inode < img.nInodes
  · rw [isElf_iff hinode, Image.PassesCheck, and_iff_right hinode]
  · refine iff_of_false (fun h => h.1 ?_) fun h => hinode h.1
    rw [readData, readDataAt, if_neg (by decide), if_pos (not_lt.mp hinode)]

/-- The command is rejected for what it names: the lookup returns, and does not lead to a
regular file that passes the executable check. -/
def RejectsCommand (img : Image) (command : CString) (env : ExecEnv) : Prop :=
  ∃ found, img.lookup (commandWord command) = some found ∧
    ∀ d, found = some d → img.dentryType d = regFile →
      ¬ img.PassesCheck (img.dentryInode d) env.header

/-- Such a command is not copied, and the call fails. -/
theorem RejectsCommand.execute {command : CString} {env : ExecEnv}
    (h : RejectsCommand img command env) (h6 : k.processNumber < 6) :
    (sysExecuteStores img command env k).input = [] ∧
      ∃ fs, sysExecuteC img command env k = some (.ret (-1), { k with fs := fs }) := by
  obtain ⟨found, hlookup, hbad⟩ := h
  obtain ⟨r, fs, hread, hr⟩ := readDentryByName_isSome hlookup k.fs
  rw [sysExecuteStores, if_neg (not_le.mpr h6), sysExecuteC, if_neg (not_le.mpr h6), hread,
    Option.bind_some]
  rcases r with - | ⟨d, len⟩
  · exact ⟨rfl, fs, rfl⟩
  · simp only
    by_cases htype : img.dentryType d = regFile
    · have helf : ¬ isElf img (img.dentryInode d) env.header := by
        rw [isElf_iff_passesCheck]
        exact hbad d hr.symm htype
      rw [if_neg (not_not.mpr htype), if_pos helf, if_neg (not_not.mpr htype), if_pos helf]
      exact ⟨rfl, fs, rfl⟩
    · rw [if_pos htype, if_pos htype]
      exact ⟨rfl, fs, rfl⟩

/-- A command that is too long fails for no other reason. -/
theorem rejectsCommand_of_ret {command : CString} {env : ExecEnv} (hlong : 1023 < command.bytes.length)
    (h6 : k.processNumber < 6) {k' : Kernel} {o : Outcome}
    (h : sysExecuteC img command env k = some (o, k')) : RejectsCommand img command env := by
  rw [sysExecuteC, if_neg (not_le.mpr h6)] at h
  obtain ⟨⟨found, fs⟩, hread, hr⟩ := Option.bind_eq_some_iff.mp h
  refine ⟨_, readDentryByName_lookup hread, ?_⟩
  rcases found with - | ⟨d, len⟩
  · intro d hd
    cases hd
  · rintro e hd htype hpass
    obtain rfl : d = e := Option.some.inj hd
    have helf := (isElf_iff_passesCheck img _ _).mpr hpass
    simp only [htype, ne_eq, not_true_eq_false, if_false, helf] at hr
    rw [load, if_pos (by omega)] at hr
    cases hr

/-- **The copies of a command stay in their arrays**, and a command that is too long for
them is rejected, exactly if six processes run already, or the first word has at most 32
characters and the command at most 1023, unless it is rejected for what it names.  For
every image, every command and every state. -/
theorem execute_buffers_iff (img : Image) (command : CString) (env : ExecEnv) (k : Kernel) :
    let s := sysExecuteStores img command env k
    ((∀ p ∈ s.fileName, p.1 ≤ 32) ∧ (∀ p ∈ s.input, p.1 ≤ 1023) ∧
        (32 < (firstWord command).length ∨ 1023 < command.bytes.length →
          ∃ fs, sysExecuteC img command env k = some (.ret (-1), { k with fs := fs }))) ↔
      6 ≤ k.processNumber ∨ (firstWord command).length ≤ 32 ∧
        (command.bytes.length ≤ 1023 ∨ RejectsCommand img command env) := by
  intro s
  -- with six processes nothing is copied
  by_cases h6 : 6 ≤ k.processNumber
  · have hs : s = ⟨[], []⟩ := if_pos h6
    refine iff_of_true ⟨?_, ?_, fun _ => ⟨k.fs, if_pos h6⟩⟩ (.inl h6)
    · rw [hs]
      exact List.forall_mem_nil _
    · rw [hs]
      exact List.forall_mem_nil _
  have hlt : k.processNumber < 6 := not_le.mp h6
  have hname : s.fileName = fileNameStores command.mem 33 0 := by
    show (sysExecuteStores img command env k).fileName = _
    rw [sysExecuteStores, if_neg h6]
  have hinput : ∀ p ∈ s.input, p ∈ inputStores command := by
    show ∀ p ∈ (sysExecuteStores img command env k).input, _
    rw [sysExecuteStores, if_neg h6]
    intro p hp
    simp only at hp
    split at hp
    · split_ifs at hp
      · cases hp
      · exact hp
      · cases hp
    · cases hp
  rw [hname, fileNameStores_le_iff, or_iff_right h6]
  -- the first word decides about `file_name`; what follows is about `input`
  refine and_congr_right fun hword => ?_
  constructor
  · rintro ⟨-, hreject⟩
    by_cases hlong : command.bytes.length ≤ 1023
    · exact .inl hlong
    · obtain ⟨fs, hfs⟩ := hreject (.inr (not_le.mp hlong))
      exact .inr (rejectsCommand_of_ret (not_le.mp hlong) hlt hfs)
  · rintro (hshort | hreject)
    · refine ⟨fun p hp => (inputStores_le_iff command).mpr hshort p (hinput p hp), fun h => ?_⟩
      omega
    · obtain ⟨hnone, hret⟩ := hreject.execute hlt
      refine ⟨?_, fun _ => hret⟩
      intro p hp
      rw [show s.input = [] from hnone] at hp
      cases hp

/-- A word of 33 characters. -/
def wideCommand : CString where
  bytes := List.replicate 33 0x61
  nonzero := fun b hb => by
    rw [List.eq_of_mem_replicate hb]
    decide

/-- The command `a` with an argument of 1022 characters. -/
def longCommand : CString where
  bytes := 0x61 :: 0x20 :: List.replicate 1022 0x62
  nonzero := by
    rw [List.forall_mem_cons, List.forall_mem_cons]
    refine ⟨by decide, by decide, fun b hb => ?_⟩
    rw [List.eq_of_mem_replicate hb]
    decide

/-- Of the one a NUL is stored behind `file_name`, of the other behind `input`. -/
theorem commands_stored_behind :
    (33, 0) ∈ (sysExecuteStores tinyImage wideCommand ⟨fun _ => 0, fun _ => 0, 0⟩ tinyBoot).fileName ∧
      (1024, 0) ∈
        (sysExecuteStores tinyImage longCommand ⟨fun _ => 0, fun _ => 0, 0⟩ tinyBoot).input := by
  decide +kernel

end LinuxBasedOs
