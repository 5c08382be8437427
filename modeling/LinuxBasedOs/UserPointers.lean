/-
LinuxBasedOs/UserPointers.lean

The system calls that store through a pointer supplied by the user: `sys_read_c`
with the drivers behind it, `sys_getargs_c` and `sys_vidmap_c`.

None of them asks whether the pointer leads to the program page.  `sys_read_c`
refuses NULL, `sys_vidmap_c` everything up to 4 MB, `sys_getargs_c` nothing; and
the kernel runs with the user's page tables, in which its own memory is mapped.

`PointerSafe` says what should hold of a call, and for each of the three there is
the exact condition under which it does.  Stores go upwards from the pointer, and
behind the program page nothing is mapped; so a call that starts in the page
never leaves it, and what matters is where it starts.
-/
import LinuxBasedOs.ProcessRuns

namespace LinuxBasedOs

open Bytes Transition

variable {L : Layout} {img : Image} {k : Kernel}

/-! ### The calls -/

/-- What a call does through the user's pointer: the value it returns, if it
returns, and the stores it makes, in order. -/
structure Effect where
  ret : Option Int
  stores : List (Nat × UInt8)

/-- A call that returns -1 and does nothing. -/
def Effect.refused : Effect := ⟨some (-1), []⟩

/-- A read that is still waiting has not returned. -/
def Effect.ofRead : Option ReadEffect → Effect
  | none => ⟨none, []⟩
  | some e => ⟨some e.ret, e.stores⟩

/-- `sys_read_c`, as far as the user's buffer is concerned. -/
def sysReadThrough (img : Image) (fd : Int) (buf : Nat) (nbytes : Int) (env : ReadEnv)
    (k : Kernel) : Effect :=
  .ofRead (sysReadEffect img fd buf nbytes env k)

/-- Offset of `input` in a PCB. -/
def inputOff : Nat := 132

/-- The memory from `cur_pcb->input` on: the rest of the PCB, and `beyond` it the
kernel stacks, up to 8 MB. -/
def Kernel.inputMem (k : Kernel) (beyond : Mem) : Mem :=
  setWord (setWord (setWord (fun i => if i < 1024 then k.cur.input i else beyond i)
    1024 k.cur.oldPhysAddr) 1028 k.cur.oldEsp0) 1032 k.cur.oldEbp

/-- How many bytes there are from `cur_pcb->input` to 8 MB, where no memory is
mapped any more. -/
def Kernel.inputRoom (k : Kernel) : Nat := 0x800000 - (k.curPcb + inputOff)

/-- `while (input[in_idx] != ' ') in_idx++`, with `left` bytes to go. -/
def findSpace (mem : Mem) : (left inIdx : Nat) → Option Nat
  | 0, _ => none
  | left + 1, inIdx => if mem inIdx = 32 then some inIdx else findSpace mem left (inIdx + 1)

/-- What the copy loop of `sys_getargs_c` did: the value of `idx` it ended with,
unless it read beyond the mapped memory, and the bytes it stored. -/
structure ArgsCopied where
  idx : Option Nat
  bytes : List UInt8

/-- `idx < nbytes - in_idx`, where `in_idx` is `start + idx`; the comparison is
unsigned. -/
def ArgsWanted (nbytes : Int) (start idx : Nat) : Prop :=
  (idx : Int) < (nbytes - (start + idx : Nat)) % 2 ^ 32

instance (nbytes : Int) (start idx : Nat) : Decidable (ArgsWanted nbytes start idx) :=
  inferInstanceAs (Decidable (_ < _))

/-- `for (idx = 0; idx < nbytes - in_idx; idx++, in_idx++)`, with `left` bytes that
can be read. -/
def copyArgs (mem : Mem) (nbytes : Int) (start : Nat) : (left idx : Nat) → ArgsCopied
  | 0, idx => if ArgsWanted nbytes start idx then ⟨none, []⟩ else ⟨some idx, []⟩
  | left + 1, idx =>
      if ArgsWanted nbytes start idx then
        let b := mem (start + idx)
        if b = 0 then ⟨some idx, [b]⟩
        else
          let r := copyArgs mem nbytes start left (idx + 1)
          { r with bytes := b :: r.bytes }
      else ⟨some idx, []⟩

/-- `sys_getargs_c`; `none` if a loop runs out of mapped memory.  The command is read as it is
before the first store, which is right for a buffer outside of the PCB. -/
def sysGetargsC (buf : Nat) (nbytes : Int) (beyond : Mem) (k : Kernel) : Effect :=
  match findSpace (k.inputMem beyond) k.inputRoom 0 with
  | none => ⟨none, []⟩
  | some space =>
      let start := space + 1
      let r := copyArgs (k.inputMem beyond) nbytes start (k.inputRoom - start) 0
      { ret := r.idx.map fun idx => if idx = 0 then -1 else 0
        stores := storesTo buf (storesAt 0 r.bytes) }

/-- `sys_vidmap_c`: the address of the page is stored, four bytes. -/
def sysVidmapC (screenStart : Nat) (k : Kernel) : Effect :=
  if screenStart = 0 ∨ screenStart ≤ 0x400000 then .refused
  else
    match k.paging.getPageTableEntry userVmem (0xB8000 >>> 12) with
    | none => .refused
    | some _ =>
        { ret := some 0
          stores := storesTo screenStart (storesAt 0
            ((List.range 4).map (byteOf ((userVmem <<< 22) ||| 0xB8000)))) }

/-! ### What should hold -/

/-- The stores that are made before one of them faults. -/
def Kernel.written (k : Kernel) (ps : List (Nat × UInt8)) : List (Nat × UInt8) :=
  ps.takeWhile fun p => (k.paging.walk p.1).isSome

/-- **A safe call** writes to the program page only, and a call whose destination,
`n` bytes from `buf` on, is not wholly in that page fails and writes nothing. -/
structure PointerSafe (k : Kernel) (buf n : Nat) (e : Effect) : Prop where
  written : ∀ p ∈ k.written e.stores, InProgramPage p.1
  refused : ¬ BufferInPage buf n → e = .refused

/-- A store to `buf` stays in the program page, or faults. -/
def Kernel.Harmless (k : Kernel) (buf : Nat) : Prop :=
  InProgramPage buf ∨ k.paging.walk buf = none

theorem PointerSafe.of_refused (k : Kernel) (buf n : Nat) : PointerSafe k buf n .refused :=
  ⟨fun _ hp => absurd hp List.not_mem_nil, fun _ => rfl⟩

theorem BufferInPage.harmless {buf n : Nat} (h : BufferInPage buf n) (hn : n ≠ 0) :
    k.Harmless buf := by
  rcases h with h0 | ⟨hlo, hhi⟩
  · exact absurd h0 hn
  · exact .inl ⟨hlo, by omega⟩

theorem written_cons (k : Kernel) (p : Nat × UInt8) (ps : List (Nat × UInt8)) :
    k.written (p :: ps) = if (k.paging.walk p.1).isSome then p :: k.written ps else [] := by
  rw [Kernel.written, List.takeWhile_cons]
  rfl

/-- Behind the program page nothing is mapped. -/
theorem walk_page_end (h : k.Inv L) : k.paging.walk 0x08400000 = none := by
  rw [h.paging, walk_paged L h.base_lt, if_neg (by decide), if_neg (by decide), if_neg (by decide),
    if_pos (by decide), if_neg (by decide)]

/-- Stores that go upwards from the program page do not leave it: the first byte
behind it is not mapped. -/
theorem written_upwards (h : k.Inv L) {buf a : Nat} (bs : List UInt8)
    (hlo : 0x08000000 ≤ buf + a) (hhi : buf + a ≤ 0x08400000) :
    ∀ p ∈ k.written (storesTo buf (storesAt a bs)), InProgramPage p.1 := by
  induction bs generalizing a with
  | nil => exact fun p hp => absurd hp List.not_mem_nil
  | cons b bs ih =>
      have hmod : (buf + a) % 2 ^ 32 = buf + a := Nat.mod_eq_of_lt (by omega)
      intro p hp
      rw [storesAt, storesTo, List.map_cons, hmod, written_cons] at hp
      split_ifs at hp with hmapped
      · have hne : buf + a ≠ 0x08400000 := by
          intro heq
          have hmapped' : (k.paging.walk (buf + a)).isSome := hmapped
          rw [heq, walk_page_end h] at hmapped'
          cases hmapped'
        rcases List.mem_cons.mp hp with rfl | hp
        · exact ⟨hlo, by omega⟩
        · exact ih (a := a + 1) (by omega) (by omega) p hp
      · cases hp

/-- Where the first store goes decides. -/
theorem written_iff_harmless (h : k.Inv L) {buf : Nat} (hbuf : buf < 2 ^ 32) {bs : List UInt8}
    (hbs : bs ≠ []) :
    (∀ p ∈ k.written (storesTo buf (storesAt 0 bs)), InProgramPage p.1) ↔ k.Harmless buf := by
  obtain ⟨b, bs, rfl⟩ := List.exists_cons_of_ne_nil hbs
  have hmod : (buf + 0) % 2 ^ 32 = buf := by rw [Nat.add_zero, Nat.mod_eq_of_lt hbuf]
  have hw : k.written (storesTo buf (storesAt 0 (b :: bs))) =
      if (k.paging.walk buf).isSome then (buf, b) :: k.written (storesTo buf (storesAt 1 bs))
      else [] := by
    rw [storesAt, storesTo, List.map_cons, hmod, written_cons]
    rfl
  constructor
  · intro hall
    rcases hwalk : k.paging.walk buf with - | t
    · exact .inr hwalk
    · refine .inl (hall (buf, b) ?_)
      rw [hw, hwalk]
      exact List.mem_cons_self
  · rintro (hin | hnone)
    · exact written_upwards h _ (by have := hin.1; omega) (by have := hin.2; omega)
    · rw [hw, hnone]
      exact fun p hp => absurd hp List.not_mem_nil

theorem eq_nil_of_storesTo {buf : Nat} {bs : List UInt8} (h : storesTo buf (storesAt 0 bs) = []) :
    bs = [] := by
  cases bs with
  | nil => rfl
  | cons b bs => cases h

/-- **Calls that store upwards.**  Such a call is safe exactly if its destination
is in the page or it is refused, and its first store is harmless. -/
theorem pointerSafe_upwards (h : k.Inv L) {buf : Nat} (hbuf : buf < 2 ^ 32) (n : Nat)
    (ret : Option Int) (bs : List UInt8) :
    PointerSafe k buf n ⟨ret, storesTo buf (storesAt 0 bs)⟩ ↔
      (BufferInPage buf n ∨ (ret = some (-1) ∧ bs = [])) ∧ (bs = [] ∨ k.Harmless buf) := by
  constructor
  · intro hsafe
    refine ⟨?_, ?_⟩
    · -- outside of the page the call must refuse and store nothing
      by_cases hin : BufferInPage buf n
      · exact .inl hin
      · right
        obtain ⟨hret, hst⟩ := Effect.mk.inj (hsafe.refused hin)
        exact ⟨hret, eq_nil_of_storesTo hst⟩
    · by_cases hbs : bs = []
      · exact .inl hbs
      · exact .inr ((written_iff_harmless h hbuf hbs).mp hsafe.written)
  · rintro ⟨hdest, hfirst⟩
    refine ⟨?_, fun hout => ?_⟩
    · rcases hfirst with rfl | hfirst
      · exact fun p hp => absurd hp List.not_mem_nil
      · by_cases hbs : bs = []
        · subst hbs
          exact fun p hp => absurd hp List.not_mem_nil
        · exact (written_iff_harmless h hbuf hbs).mpr hfirst
    · obtain ⟨rfl, rfl⟩ := hdest.resolve_left hout
      rfl

/-- A call that stores nothing, and does not return -1. -/
theorem pointerSafe_no_store (h : k.Inv L) {buf : Nat} (hbuf : buf < 2 ^ 32) (n : Nat)
    {ret : Option Int} (hret : ret ≠ some (-1)) :
    PointerSafe k buf n ⟨ret, []⟩ ↔ BufferInPage buf n := by
  refine (pointerSafe_upwards h hbuf n ret []).trans ⟨fun hsafe => ?_, fun hin => ?_⟩
  · exact hsafe.1.resolve_right fun hneg => hret hneg.1
  · exact ⟨.inl hin, .inl rfl⟩

/-! ### vidmap -/

theorem sysVidmapC_safe_iff (h : k.Inv L) {p : Nat} (hp : p < 2 ^ 32) :
    PointerSafe k p 4 (sysVidmapC p k) ↔ p ≤ 0x400000 ∨ BufferInPage p 4 := by
  by_cases hle : p ≤ 0x400000
  · rw [sysVidmapC, if_pos (.inr hle)]
    exact iff_of_true (.of_refused k p 4) (.inl hle)
  · rw [sysVidmapC, if_neg (by omega), h.paging, getPageTableEntry_paged]
    simp only
    rw [pointerSafe_upwards h hp]
    constructor
    · rintro ⟨hin | ⟨hret, -⟩, -⟩
      · exact .inr hin
      · cases hret
    · intro hin
      have hin' := hin.resolve_left hle
      exact ⟨.inl hin', .inr (hin'.harmless (by decide))⟩

/-! ### getargs -/

/-- What the copy loop stores: nothing if its bound is 0 at once, or if there is
nothing more to read. -/
theorem copyArgs_bytes (mem : Mem) (nbytes : Int) (start left : Nat) :
    ((nbytes - (start : Int)) % 2 ^ 32 = 0 → copyArgs mem nbytes start left 0 = ⟨some 0, []⟩) ∧
    ((nbytes - (start : Int)) % 2 ^ 32 ≠ 0 →
      (left = 0 → copyArgs mem nbytes start left 0 = ⟨none, []⟩) ∧
      (left ≠ 0 → (copyArgs mem nbytes start left 0).bytes ≠ [])) := by
  have hcond : ArgsWanted nbytes start 0 ↔ (nbytes - (start : Int)) % 2 ^ 32 ≠ 0 := by
    rw [ArgsWanted, Nat.add_zero]
    omega
  refine ⟨fun h0 => ?_, fun hne => ⟨?_, fun hleft => ?_⟩⟩
  · cases left with
    | zero => rw [copyArgs, if_neg (fun hlt => hcond.mp hlt h0)]
    | succ left => rw [copyArgs, if_neg (fun hlt => hcond.mp hlt h0)]
  · rintro rfl
    rw [copyArgs, if_pos (hcond.mpr hne)]
  · obtain ⟨left, rfl⟩ := Nat.exists_eq_succ_of_ne_zero hleft
    rw [copyArgs, if_pos (hcond.mpr hne)]
    simp only
    split_ifs
    · exact List.cons_ne_nil _ _
    · exact List.cons_ne_nil _ _

theorem findSpace_eq_some_iff {mem : Mem} {left i j : Nat} :
    findSpace mem left i = some j ↔
      i ≤ j ∧ j < i + left ∧ mem j = 32 ∧ ∀ m, i ≤ m → m < j → mem m ≠ 32 := by
  induction left generalizing i with
  | zero =>
      refine iff_of_false (fun h => ?_) fun h => by omega
      cases h
  | succ left ih =>
      rw [findSpace]
      -- a space here ends the loop, so it is the first one
      split_ifs with h32
      · constructor
        · intro h
          obtain rfl := Option.some.inj h
          exact ⟨le_refl i, by omega, h32, fun m _ _ => by omega⟩
        · rintro ⟨hle, -, -, hbefore⟩
          by_contra hne
          have hij : i ≠ j := fun h => hne (congrArg some h)
          exact hbefore i (le_refl i) (by omega) h32
      · rw [ih]
        constructor
        · rintro ⟨hle, hlt, hj, hbefore⟩
          refine ⟨by omega, by omega, hj, fun m hm hmj => ?_⟩
          rcases Nat.eq_or_lt_of_le hm with rfl | hm
          · exact h32
          · exact hbefore m hm hmj
        · rintro ⟨hle, hlt, hj, hbefore⟩
          have hij : i ≠ j := by
            rintro rfl
            exact h32 hj
          exact ⟨by omega, by omega, hj, fun m hm hmj => hbefore m (by omega) hmj⟩

/-- The first space in the memory from `cur_pcb->input` on. -/
structure FirstSpace (k : Kernel) (beyond : Mem) (space : Nat) : Prop where
  lt : space < k.inputRoom
  isSpace : k.inputMem beyond space = 32
  before : ∀ i < space, k.inputMem beyond i ≠ 32

theorem findSpace_iff (beyond : Mem) (space : Nat) :
    findSpace (k.inputMem beyond) k.inputRoom 0 = some space ↔ FirstSpace k beyond space := by
  rw [findSpace_eq_some_iff]
  constructor
  · rintro ⟨-, hlt, hspace, hbefore⟩
    exact ⟨by omega, hspace, fun i hi => hbefore i (Nat.zero_le i) hi⟩
  · intro h
    have hlt := h.lt
    exact ⟨Nat.zero_le space, by omega, h.isSpace, fun i _ hi => h.before i hi⟩

/-- `sys_getargs_c` returns -1 and stores nothing only if the bound of its loop is 0
at once. -/
theorem sysGetargsC_refused_iff (buf : Nat) (nbytes : Int) (beyond : Mem) (k : Kernel) :
    sysGetargsC buf nbytes beyond k = .refused ↔
      ∃ space, FirstSpace k beyond space ∧ (nbytes - ((space + 1 : Nat) : Int)) % 2 ^ 32 = 0 := by
  unfold sysGetargsC
  simp only [← findSpace_iff]
  rcases findSpace (k.inputMem beyond) k.inputRoom 0 with - | space
  · refine iff_of_false (fun h => ?_) ?_
    · cases congrArg Effect.ret h
    · rintro ⟨space, hspace, -⟩
      cases hspace
  simp only [Option.some.injEq, exists_eq_left']
  obtain ⟨hzero, hpos⟩ := copyArgs_bytes (k.inputMem beyond) nbytes (space + 1)
    (k.inputRoom - (space + 1))
  by_cases hN : (nbytes - ((space + 1 : Nat) : Int)) % 2 ^ 32 = 0
  · rw [hzero hN]
    exact iff_of_true rfl hN
  · refine iff_of_false (fun h => ?_) hN
    obtain ⟨hnone, hsome⟩ := hpos hN
    by_cases hleft : k.inputRoom - (space + 1) = 0
    · rw [hnone hleft] at h
      cases congrArg Effect.ret h
    · exact hsome hleft (eq_nil_of_storesTo (congrArg Effect.stores h))

/-- When `sys_getargs_c` is safe: `nbytes` is such that the bound of its loop is 0;
or the destination is in the page, and if there is an argument to store, the first
store is harmless. -/
def GetargsPointerOk (buf : Nat) (nbytes : Int) (beyond : Mem) (k : Kernel) : Prop :=
  (∃ space, FirstSpace k beyond space ∧ (nbytes - ((space + 1 : Nat) : Int)) % 2 ^ 32 = 0) ∨
    (BufferInPage buf nbytes.toNat ∧
      ((∃ space, FirstSpace k beyond space ∧ space + 1 < k.inputRoom) → k.Harmless buf))

theorem sysGetargsC_safe_iff (h : k.Inv L) {buf : Nat} (hbuf : buf < 2 ^ 32) (nbytes : Int)
    (beyond : Mem) :
    PointerSafe k buf nbytes.toNat (sysGetargsC buf nbytes beyond k) ↔
      GetargsPointerOk buf nbytes beyond k := by
  unfold sysGetargsC GetargsPointerOk
  simp only [← findSpace_iff]
  rcases findSpace (k.inputMem beyond) k.inputRoom 0 with - | space
  · -- no space is found, and the call faults
    refine (pointerSafe_no_store h hbuf nbytes.toNat (by decide)).trans
      ⟨fun hin => .inr ⟨hin, ?_⟩, fun hok => ?_⟩
    · rintro ⟨space, hspace, -⟩
      cases hspace
    · rcases hok with ⟨space, hspace, -⟩ | ⟨hin, -⟩
      · cases hspace
      · exact hin
  simp only [Option.some.injEq, exists_eq_left']
  obtain ⟨hzero, hpos⟩ := copyArgs_bytes (k.inputMem beyond) nbytes (space + 1)
    (k.inputRoom - (space + 1))
  by_cases hN : (nbytes - ((space + 1 : Nat) : Int)) % 2 ^ 32 = 0
  · rw [hzero hN]
    exact iff_of_true (.of_refused k buf _) (.inl hN)
  obtain ⟨hnone, hsome⟩ := hpos hN
  by_cases hleft : k.inputRoom - (space + 1) = 0
  · rw [hnone hleft]
    refine (pointerSafe_no_store h hbuf nbytes.toNat (by decide)).trans ⟨fun hin => ?_, fun hok => ?_⟩
    · exact .inr ⟨hin, fun hlt => by omega⟩
    · exact (hok.resolve_left hN).1
  · have hbytes := hsome hleft
    rw [pointerSafe_upwards h hbuf]
    constructor
    · rintro ⟨hin | ⟨-, hnil⟩, hnil' | hfirst⟩
      · exact absurd hnil' hbytes
      · exact .inr ⟨hin, fun _ => hfirst⟩
      · exact absurd hnil hbytes
      · exact absurd hnil hbytes
    · intro hok
      obtain ⟨hin, hfirst⟩ := hok.resolve_left hN
      exact ⟨.inl hin, .inr (hfirst (by omega))⟩

/-! ### read, driver by driver -/

/-- A regular file: `file_read` returns -1 only for an inode that does not
exist. -/
theorem fileRead_safe_iff (img : Image) {i buf n : Nat} (hbuf : buf ≠ 0) (hn : n < 2 ^ 31)
    (huse : (k.fd i).InUse) (htype : (k.fd i).flags.fileType = regFile) :
    PointerSafe k buf n (.ofRead (some (fileRead img i buf n k))) ↔
      BufferInPage buf n ∨ img.nInodes ≤ (k.fd i).inode := by
  have hread := fileRead_eq img n hbuf huse htype
  constructor
  · intro hsafe
    by_cases hin : BufferInPage buf n
    · exact .inl hin
    · right
      -- with an inode that exists the count is returned, whatever the buffer
      by_contra hlt
      have hret : (readData img (k.fd i).inode (k.fd i).filePos buf n (some (k.fd i).flags)).ret =
          -1 := by
        have heq := hsafe.refused hin
        rw [hread] at heq
        exact Option.some.inj (Effect.mk.inj heq).1
      have hnonneg : 0 ≤ (readData img (k.fd i).inode (k.fd i).filePos buf n
          (some (k.fd i).flags)).ret := readDataAt_ret_nonneg hbuf (by omega) hn
      omega
  · rintro (hin | hinode)
    · refine ⟨fun p hp => ?_, fun hout => absurd hin hout⟩
      have hp' := (List.takeWhile_sublist _).mem hp
      rw [hread] at hp'
      refine storesTo_inProgramPage hin (fun q hq => ?_) p hp'
      exact ((readDataAt_ok img _ _ buf n _).stores q hq).1
    · have hnone : readData img (k.fd i).inode (k.fd i).filePos buf n (some (k.fd i).flags) =
          ⟨-1, none, [], []⟩ := by
        rw [readData, readDataAt, if_neg hbuf, if_pos hinode]
      rw [hread, hnone]
      exact .of_refused k buf n

/-- The clock: `rtc_read` does not look at its buffer, and never fails. -/
theorem rtcRead_safe_iff (h : k.Inv L) {buf : Nat} (hbuf : buf < 2 ^ 32) (n : Nat) (tick : Bool) :
    PointerSafe k buf n (.ofRead (rtcRead tick k)) ↔ BufferInPage buf n := by
  rw [rtcRead]
  split_ifs
  · exact pointerSafe_no_store h hbuf n (by decide)
  · exact pointerSafe_no_store h hbuf n (by decide)

/-- The entry that a directory descriptor stands at has an empty name. -/
def EmptyName (img : Image) (pos : Nat) : Prop :=
  pos < img.nDirEntries ∧ img.dentryName (pos + 1) 0 = 0

theorem name_eq_nil_iff (img : Image) (d : Nat) : img.name d = [] ↔ img.dentryName d 0 = 0 := by
  rw [Image.name, string, nameLen, stringFrom]
  by_cases h0 : img.dentryName d 0 = 0
  · rw [if_pos h0]
    exact iff_of_true rfl h0
  · rw [if_neg h0]
    exact iff_of_false (List.cons_ne_nil _ _) h0

/-- A NUL at least is stored for an empty name; for another one nothing is stored
if nothing is asked for. -/
theorem listBytes_of_empty {pos : Nat} (h : EmptyName img pos) (n : Nat) :
    img.listBytes pos n ≠ [] := by
  rw [Image.listBytes, (name_eq_nil_iff img _).mpr h.2, List.take_nil]
  exact ite_ne_right_iff.mpr ⟨Nat.zero_le n, List.cons_ne_nil _ _⟩

theorem listBytes_of_nonempty {pos : Nat} (hpos : pos < img.nDirEntries)
    (h : ¬ EmptyName img pos) : img.listBytes pos 0 = [] := by
  have hname : img.name (pos + 1) ≠ [] := fun hnil => h ⟨hpos, (name_eq_nil_iff img _).mp hnil⟩
  rw [Image.listBytes, List.take_zero, if_neg, List.append_nil]
  rw [Nat.le_zero, List.length_eq_zero_iff]
  exact hname

/-- A directory: `dir_read` never fails, and ends a name with a NUL even if that
does not fit the destination. -/
theorem dirRead_safe_iff (img : Image) (h : k.Inv L) {fd : Int} (h2 : 2 ≤ fd) (h8 : fd < 8) {buf : Nat}
    (hbuf0 : buf ≠ 0) (hbuf : buf < 2 ^ 32) (n : Nat) (huse : (k.fd fd.toNat).InUse)
    (htype : (k.fd fd.toNat).flags.fileType = dirFile) :
    PointerSafe k buf n (.ofRead (dirRead img fd buf n k)) ↔
      BufferInPage buf n ∧ (EmptyName img (k.fd fd.toNat).filePos → k.Harmless buf) := by
  rw [dirRead_eq img h2 h8 hbuf0 n huse htype]
  have hnil : ∀ ret : Option Int, ret ≠ some (-1) → ¬ EmptyName img (k.fd fd.toNat).filePos →
      (PointerSafe k buf n ⟨ret, []⟩ ↔
        BufferInPage buf n ∧ (EmptyName img (k.fd fd.toNat).filePos → k.Harmless buf)) := by
    intro ret hret hname
    rw [pointerSafe_no_store h hbuf n hret]
    exact ⟨fun hin => ⟨hin, fun he => absurd he hname⟩, And.left⟩
  split_ifs with hend
  · -- the end of the directory
    exact hnil (some 0) (by decide) fun he => absurd he.1 (by omega)
  have hpos : (k.fd fd.toNat).filePos < img.nDirEntries := by omega
  rcases hr : readDentryByIndex img (k.fd fd.toNat).filePos k.fs with - | r
  · -- the name has no end, and so is not empty
    refine hnil none (by decide) fun he => ?_
    rw [readDentryByIndex, if_neg (by omega), Option.map_eq_none_iff, strlen_of_empty he.2] at hr
    cases hr
  · rw [Option.map_some]
    refine (pointerSafe_upwards h hbuf n _ (img.listBytes (k.fd fd.toNat).filePos n)).trans
      ⟨fun hsafe => ⟨?_, fun he => ?_⟩, fun hok => ⟨.inl hok.1, ?_⟩⟩
    · refine hsafe.1.resolve_right fun hneg => ?_
      have hlen : (((img.name ((k.fd fd.toNat).filePos + 1)).take n).length : Int) = -1 :=
        Option.some.inj hneg.1
      omega
    · exact hsafe.2.resolve_left (listBytes_of_empty he n)
    · by_cases hn : n = 0
      · subst hn
        by_cases hname : EmptyName img (k.fd fd.toNat).filePos
        · exact .inr (hok.2 hname)
        · exact .inl (listBytes_of_nonempty hpos hname)
      · exact .inr (hok.1.harmless hn)

/-- The stores of `terminal_read` go upwards from the start of the buffer. -/
def Reader.Upwards (r : Reader) : Prop :=
  match r.pc with
  | .clear | .poll => r.stores = []
  | .copy i | .resetFlag i | .finalClear i | .done i =>
      ∃ bs : List UInt8, bs.length = i ∧ r.stores = storesAt 0 bs

theorem Reader.Upwards.step {r : Reader} (h : r.Upwards) (e : ReadEvent) : (r.step e).Upwards := by
  cases e with
  | key input => exact h
  | own =>
      obtain ⟨console, pc, stores, start, typed⟩ := r
      cases pc with
      | clear => exact h
      | poll =>
          have hnil : stores = [] := h
          simp only [Reader.step, Reader.own]
          split_ifs
          · exact ⟨[], rfl, hnil⟩
          · exact hnil
      | copy i =>
          obtain ⟨bs, hlen, hst⟩ : ∃ bs : List UInt8, bs.length = i ∧ stores = storesAt 0 bs := h
          simp only [Reader.step, Reader.own]
          split_ifs
          · refine ⟨bs ++ [console.kbd.keyBuf i], by rw [List.length_append, hlen]; rfl, ?_⟩
            rw [storesAt_concat, ← hst, hlen, Nat.zero_add]
          · exact ⟨bs, hlen, hst⟩
      | resetFlag i => exact h
      | finalClear i => exact h
      | done i => exact h

theorem reader_upwards (c : Console) (events : List ReadEvent) :
    (events.foldl Reader.step (Reader.call c)).Upwards := by
  suffices hall : ∀ r : Reader, r.Upwards → (events.foldl Reader.step r).Upwards from hall _ rfl
  induction events with
  | nil => exact fun r h => h
  | cons e events ih => exact fun r h => ih _ (h.step e)

/-- What `terminal_read` on descriptor 0 does through the user's buffer. -/
theorem terminalRead_effect (buf : Nat) (events : List ReadEvent) (k : Kernel) :
    ∃ ret bs, Effect.ofRead (terminalRead 0 buf events k) =
      ⟨ret, storesTo buf (storesAt 0 bs)⟩ := by
  have hup := reader_upwards k.console events
  rw [terminalRead, if_neg (by decide)]
  generalize events.foldl Reader.step (Reader.call k.console) = r at hup
  obtain ⟨console, pc, stores, start, typed⟩ := r
  cases pc with
  | done i =>
      obtain ⟨bs, -, hst⟩ : ∃ bs : List UInt8, bs.length = i ∧ stores = storesAt 0 bs := hup
      exact ⟨some (i : Int), bs, by rw [← hst]; rfl⟩
  | clear | poll | copy i | resetFlag i | finalClear i => exact ⟨none, [], rfl⟩

/-- Ctrl is released and Enter pressed, on an empty line. -/
theorem enter_console {c : Console} (hok : c.kbd.Ok) (hline : c.kbd.line = []) :
    ((c.keyHandler ctrlReleased).keyHandler 0x1C).kbd.enterFlag = 1 ∧
      ((c.keyHandler ctrlReleased).keyHandler 0x1C).kbd.keyBufIndex = 1 := by
  -- a release can always be typed
  have hrelease : c.kbd.Typable ctrlReleased := .inl (by decide)
  have hed := editor_keyHandler hok hrelease
  have hok' := Console.keyHandler_ok hok ctrlReleased
  generalize c.keyHandler ctrlReleased = c' at hed hok' ⊢
  have hline' : c'.kbd.line = [] := by
    have h : c'.kbd.line = (c.kbd.editor.press ctrlReleased).line := congrArg Editor.line hed
    rw [h, Editor.press]
    exact hline
  have hctrl' : c'.kbd.editor.ctrl = false := by
    rw [hed]
    rfl
  have hindex' : c'.kbd.keyBufIndex = 0 := by rw [← Keyboard.length_line, hline', List.length_nil]
  have hchar : ∀ d, keyArray d 0x1C = 10 := fun d => (keyArray_eq_newline d 0x1C).mpr rfl
  have henter : c'.kbd.Typable 0x1C :=
    .inr (.inr (.inr (.inr ⟨by rw [hindex']; decide, by rw [hchar]; decide⟩)))
  have hed' := editor_keyHandler hok' henter
  refine ⟨by rw [Console.keyHandler_enterFlag, if_pos rfl], ?_⟩
  have h : (c'.keyHandler 0x1C).kbd.line = (c'.kbd.editor.press 0x1C).line := congrArg Editor.line hed'
  rw [← Keyboard.length_line, h, Editor.press]
  simp only
  rw [if_neg (by decide), if_neg (by decide), if_neg]
  · show (c'.kbd.line ++ [_]).length = 1
    rw [hline']
    rfl
  · rintro (h' | h')
    · rw [hctrl'] at h'
      cases h'
    · rw [hchar] at h'
      exact absurd h' (by decide)

/-- Ctrl is released, Enter is pressed, and the call runs to its end. -/
def enterEvents : List ReadEvent :=
  [.own, .key ctrlReleased, .key 0x1C, .own, .own, .own, .own, .own]

/-- A user who presses Enter makes the call store a byte. -/
theorem terminalRead_enter (hk : k.console.kbd.Ok) (buf : Nat) :
    ∃ b, Effect.ofRead (terminalRead 0 buf enterEvents k) =
      ⟨some 1, storesTo buf (storesAt 0 [b])⟩ := by
  obtain ⟨hflag, hindex⟩ := enter_console
    (c := { k.console with kbd := k.console.kbd.clearKeyBuffer }) hk.clearKeyBuffer
    (Keyboard.line_clearKeyBuffer k.console.kbd)
  rw [terminalRead, if_neg (by decide)]
  simp only [enterEvents, List.foldl, Reader.call, Reader.step, Reader.own, hflag, hindex, if_true,
    Nat.lt_irrefl, if_false, Nat.zero_lt_one, Nat.zero_add, List.nil_append]
  exact ⟨_, rfl⟩

/-- The terminal: `terminal_read` on descriptor 0 never fails, and does not look
at `nbytes`. -/
theorem terminalRead_safe_iff (h : k.Inv L) (fd : Int) {buf : Nat} (hbuf : buf < 2 ^ 32) (n : Nat) :
    (∀ events, PointerSafe k buf n (.ofRead (terminalRead fd buf events k))) ↔
      fd ≠ 0 ∨ (BufferInPage buf n ∧ k.Harmless buf) := by
  by_cases hfd : fd ≠ 0
  · refine iff_of_true (fun events => ?_) (.inl hfd)
    rw [terminalRead, if_pos hfd]
    exact .of_refused k buf n
  obtain rfl : fd = 0 := not_not.mp hfd
  constructor
  · intro hsafe
    obtain ⟨b, hb⟩ := terminalRead_enter h.keyboard buf
    have henter := hsafe enterEvents
    rw [hb, pointerSafe_upwards h hbuf] at henter
    refine .inr ⟨henter.1.resolve_right fun hneg => ?_, henter.2.resolve_left ?_⟩
    · exact absurd hneg.2 (List.cons_ne_nil b [])
    · exact List.cons_ne_nil b []
  · intro hok events
    obtain ⟨hin, hfirst⟩ := hok.resolve_left hfd
    obtain ⟨ret, bs, heff⟩ := terminalRead_effect buf events k
    rw [heff, pointerSafe_upwards h hbuf]
    exact ⟨.inl hin, .inr hfirst⟩

/-! ### read -/

/-- When a read is safe: it is refused; or its destination is in the page or the
driver refuses it, and, where the driver may store more than `nbytes`, the first
store is harmless. -/
def ReadPointerOk (img : Image) (fd : Int) (buf : Nat) (nbytes : Int) (k : Kernel) : Prop :=
  ReadAccepted fd buf nbytes k →
    match (k.fd fd.toNat).fileOpPtr with
    | .fileTable => BufferInPage buf nbytes.toNat ∨ img.nInodes ≤ (k.fd fd.toNat).inode
    | .dirTable =>
        BufferInPage buf nbytes.toNat ∧ (EmptyName img (k.fd fd.toNat).filePos → k.Harmless buf)
    | .terminalTable => fd ≠ 0 ∨ (BufferInPage buf nbytes.toNat ∧ k.Harmless buf)
    | .rtcTable | .null | .wild => BufferInPage buf nbytes.toNat

theorem sysReadC_safe_iff (h : k.Inv L) (hn : 1 ≤ k.processNumber) (fd : Int) {buf : Nat}
    (hbuf : buf < 2 ^ 32) {nbytes : Int} (hnbytes : nbytes < 2 ^ 31) :
    (∀ env, PointerSafe k buf nbytes.toNat (sysReadThrough img fd buf nbytes env k)) ↔
      ReadPointerOk img fd buf nbytes k := by
  unfold ReadPointerOk sysReadThrough
  by_cases ha : ReadAccepted fd buf nbytes k
  · rw [forall_prop_of_true ha]
    simp only [sysReadEffect_accepted ha]
    have hfiles := (h.cur hn).files
    have h8 := ha.fd_lt
    have hclose := hfiles.closable fd.toNat (by omega) ha.inUse
    -- the driver decides
    cases htable : (k.fd fd.toNat).fileOpPtr with
    | fileTable =>
        obtain ⟨-, htype⟩ := hfiles.of_table ha.fd_nonneg ha.fd_lt ha.inUse (by decide : 2 ≤ 2) htable
        have hsafe := fileRead_safe_iff img ha.buf_ne (n := nbytes.toNat) (by omega) ha.inUse htype
        exact ⟨fun hall => hsafe.mp (hall ⟨[], false⟩), fun hok _ => hsafe.mpr hok⟩
    | dirTable =>
        obtain ⟨h2, htype⟩ := hfiles.of_table ha.fd_nonneg ha.fd_lt ha.inUse (by decide : 1 ≤ 2) htable
        have hsafe := dirRead_safe_iff img h h2 ha.fd_lt ha.buf_ne hbuf nbytes.toNat ha.inUse htype
        exact ⟨fun hall => hsafe.mp (hall ⟨[], false⟩), fun hok _ => hsafe.mpr hok⟩
    | terminalTable =>
        rw [← terminalRead_safe_iff h fd hbuf]
        exact ⟨fun hall events => hall ⟨events, false⟩, fun hall env => hall env.events⟩
    | rtcTable =>
        exact ⟨fun hall => (rtcRead_safe_iff h hbuf _ true).mp (hall ⟨[], true⟩),
          fun hin env => (rtcRead_safe_iff h hbuf _ env.tick).mpr hin⟩
    | null => exact absurd htable hclose.1
    | wild => exact absurd htable hclose.2
  · refine iff_of_true (fun env => ?_) fun ha' => absurd ha' ha
    rw [sysReadEffect_refused (h.curPcb_ne hn) ha]
    exact .of_refused k buf _

/-! ### The three calls -/

/-- **When a call with a user's pointer is safe.**  In every state with a process
running that is reached from boot by a run whose reads and commands fit, for every
32-bit pointer: a read, whatever happens while it waits, `getargs` and `vidmap`
are safe exactly under the conditions on the pointer and the state before the call
that are given here. -/
theorem user_pointers_safe_iff {L : Layout} {pcbs : Nat → Pcb} {screen : Screen} {rtc : Rtc}
    {img : Image} {es : List Event} {os : List Seen} {k : Kernel}
    (hes : Along (step img) (fun k e => e.Fits img k) (.boot L pcbs screen rtc) es)
    (hrun : run (step img) (.boot L pcbs screen rtc) es = some (os, k))
    (hn : 1 ≤ k.processNumber) {buf : Nat} (hbuf : buf < 2 ^ 32) :
    (∀ fd nbytes, nbytes < 2 ^ 31 →
      ((∀ env, PointerSafe k buf nbytes.toNat (sysReadThrough img fd buf nbytes env k)) ↔
        ReadPointerOk img fd buf nbytes k)) ∧
    (∀ nbytes beyond, PointerSafe k buf nbytes.toNat (sysGetargsC buf nbytes beyond k) ↔
      GetargsPointerOk buf nbytes beyond k) ∧
    (PointerSafe k buf 4 (sysVidmapC buf k) ↔ buf ≤ 0x400000 ∨ BufferInPage buf 4) := by
  have h : k.Inv L := run_boot_inv hes hrun
  refine ⟨fun fd nbytes hnbytes => ?_, fun nbytes beyond => ?_, ?_⟩
  · exact sysReadC_safe_iff h hn fd hbuf hnbytes
  · exact sysGetargsC_safe_iff h hbuf nbytes beyond
  · exact sysVidmapC_safe_iff h hbuf

/-- A pointer into the program page is safe for `vidmap`. -/
theorem user_pointers_safe_tiny :
    let k := final (step tinyImage) tinyBoot [tinyExecute]
    PointerSafe k 0x8050000 4 (sysVidmapC 0x8050000 k) := by
  obtain ⟨os, hrun⟩ := run_final (step tinyImage) tinyBoot [tinyExecute] (by decide +kernel)
  exact (user_pointers_safe_iff (by decide +kernel) hrun (by decide +kernel)
    (by decide)).2.2.mpr (.inr (by decide))

/-- The address of the running process's PCB is accepted by `vidmap`, which
returns 0, and by a read of four bytes of `a`: both write to the kernel's memory. -/
theorem pcb_address_accepted :
    ((run (step tinyImage) tinyBoot [tinyExecute, .open (some tinyName)]).map fun r =>
      let vidmap := sysVidmapC 0x7FE000 r.2
      let read := sysReadThrough tinyImage 2 0x7FE000 4 ⟨[], false⟩ r.2
      ((vidmap.ret, (r.2.written vidmap.stores).map Prod.fst),
        (read.ret, (r.2.written read.stores).map Prod.fst))) =
      some ((some 0, [0x7FE000, 0x7FE001, 0x7FE002, 0x7FE003]),
        (some 4, [0x7FE000, 0x7FE001, 0x7FE002, 0x7FE003])) := by
  decide +kernel

/-- The command line `a b`. -/
def argsCommand : CString where
  bytes := [0x61, 0x20, 0x62]
  nonzero := by simp

/-- The program `a` has been started with the argument `b`. -/
def argsKernel : Kernel :=
  final (step tinyImage) tinyBoot [.execute argsCommand ⟨fun _ => 0, fun _ => 0, 0⟩]

end LinuxBasedOs
