/-
LinuxBasedOs/MemoryRoutines.lean

`memset`, `memset_word`, `memset_dword`, `memcpy` and `memmove` of lib.c, as the inline
assembly they are.

memset and memcpy have one shape: bytes until the destination is aligned or there are no
more, then double words, then the bytes that are left (`wordwise`).  What they differ in
is how one byte and how the double words are done, and `Advances` is what is asked of
the two; the shape is proved right once, for every alignment and every count
(`run_wordwise`).

memmove chooses its direction by comparing the addresses, and copies right in both.  It
sets the direction flag to go down and does not clear it again: compiled code, such as
the structure copy that puts a new PCB in its place, then runs backwards (`copyPcb`).
-/
import LinuxBasedOs.Ia32

namespace LinuxBasedOs

open Bytes Ia32
open Transition (forLoop forLoop_invariant)

/-! ### The shape of memset and memcpy -/

namespace Wordwise

/-- The labels of `memset` and `memcpy`. -/
inductive Label where
  | top | aligned | bottom | done
  deriving DecidableEq

/-- The body of the byte loops: one byte, counted down in `r`. -/
def count (byte : List Op) (r : Cdecl.Reg) (loop : Label) (rest : List (Line Label)) :
    List (Line Label) :=
  byte.map .op ++ (.op (.subl 1 r) :: .jmp loop :: rest)

/-- `.memset_bottom`, `.memcpy_bottom`. -/
def bottom (byte : List Op) : List (Line Label) :=
  .op (.testl (.reg .edx) .edx) ::
  .jz .done ::
  count byte .edx .bottom [.label .done]

/-- The double words. -/
def words (bulk : StringOp) : List Op :=
  [.movwDsDx, .movwDxEs, .movl .ecx .edx, .shrl 2 .ecx, .andl 3 .edx, .cld, .rep bulk]

/-- `.memset_aligned`, `.memcpy_aligned`. -/
def aligned (byte : List Op) (bulk : StringOp) : List (Line Label) :=
  (words bulk).map .op ++ (.label .bottom :: bottom byte)

/-- `.memset_top`, `.memcpy_top`. -/
def top (byte : List Op) (bulk : StringOp) : List (Line Label) :=
  .op (.testl (.reg .ecx) .ecx) ::
  .jz .done ::
  .op (.testl (.imm 3) .edi) ::
  .jz .aligned ::
  count byte .ecx .top (.label .aligned :: aligned byte bulk)

/-- `byte` does one byte, `bulk` one double word. -/
def wordwise (byte : List Op) (bulk : StringOp) : List (Line Label) :=
  .label .top :: top byte bulk

section Labels

variable (byte : List Op) (bulk : StringOp)

@[simp] theorem after_top : after .top (wordwise byte bulk) = top byte bulk := rfl

@[simp] theorem after_aligned : after .aligned (wordwise byte bulk) = aligned byte bulk := by
  simp [wordwise, top, count, after]

@[simp] theorem after_bottom : after .bottom (wordwise byte bulk) = bottom byte := by
  simp [wordwise, top, count, aligned, after]

@[simp] theorem after_done : after .done (wordwise byte bulk) = [] := by
  simp [wordwise, top, count, aligned, bottom, after]

end Labels

/-! ### Bytes, double words, bytes -/

/-- What filling and copying work on: the byte or word to store, the two addresses and
the memory. -/
structure Front where
  eax : BitVec 32
  esi : BitVec 32
  edi : BitVec 32
  mem : Mem

/-- What the loop up to the first aligned address changes. -/
def front (s : State) : Front := ⟨s.regs.eax, s.regs.esi, s.regs.edi, s.mem⟩

/-- `R d` says that `d` of the `n` bytes from `a` on are done.  `byte` then does one more
and leaves the counters alone, and `bulk`, repeated, does four at a time. -/
structure Advances (byte : List Op) (bulk : StringOp) (a n : Nat) (R : Nat → Front → Prop) :
    Prop where
  edi : ∀ {d f}, R d f → f.edi = BitVec.ofNat 32 (a + d)
  one : ∀ {d s}, d < n → R d (front s) → R (d + 1) (front (execAll byte s))
  counters : ∀ s, (execAll byte s).regs.ecx = s.regs.ecx ∧ (execAll byte s).regs.edx = s.regs.edx
  four : ∀ {d s}, s.df = false → d + 4 * s.regs.ecx.toNat ≤ n → R d (front s) →
    R (d + 4 * s.regs.ecx.toNat) (front (rep bulk s))

/-- A counter that holds a count of this size is zero only at its end. -/
theorem counter_ne_zero {j : Nat} (h0 : j ≠ 0) (h : j < 2 ^ 32) : BitVec.ofNat 32 j ≠ 0 := by
  intro h'
  have := congrArg BitVec.toNat h'
  rw [BitVec.toNat_ofNat, Nat.mod_eq_of_lt h] at this
  exact h0 this

theorem counter_pred (j : Nat) : BitVec.ofNat 32 (j + 1) - 1 = BitVec.ofNat 32 j := by
  rw [BitVec.ofNat_add]
  exact BitVec.add_sub_cancel _ _

theorem and_three (j : Nat) : BitVec.ofNat 32 j &&& 3 = BitVec.ofNat 32 (j % 4) := by
  refine BitVec.eq_of_toNat_eq ?_
  have hand : ∀ x, x &&& 3 = x % 4 := fun x => Nat.and_two_pow_sub_one_eq_mod x 2
  rw [BitVec.toNat_and, BitVec.toNat_ofNat, BitVec.toNat_ofNat]
  show j % 2 ^ 32 &&& 3 = _
  rw [hand]
  omega

theorem shift_two {j : Nat} (h : j < 2 ^ 32) : BitVec.ofNat 32 j >>> 2 = BitVec.ofNat 32 (j / 4) := by
  refine BitVec.eq_of_toNat_eq ?_
  rw [BitVec.toNat_ushiftRight, BitVec.toNat_ofNat, BitVec.toNat_ofNat, Nat.mod_eq_of_lt h,
    Nat.shiftRight_eq_div_pow, Nat.mod_eq_of_lt (by omega)]

variable {byte : List Op} {bulk : StringOp} {a n : Nat} {R : Nat → Front → Prop}

/-- `testl` of a counter with itself. -/
theorem test_counter {s : State} {r : Cdecl.Reg} {j : Nat}
    (hr : s.regs.get r = BitVec.ofNat 32 j) :
    Operand.value s (.reg r) &&& s.regs.get r = BitVec.ofNat 32 j :=
  BitVec.and_self.trans hr

/-- `testl $3` of the destination address. -/
theorem test_edi (h : Advances byte bulk a n R) {d : Nat} {s : State} (hR : R d (front s)) :
    Operand.value s (.imm 3) &&& s.regs.get .edi = BitVec.ofNat 32 ((a + d) % 4) := by
  have hedi : s.regs.get .edi = BitVec.ofNat 32 (a + d) := h.edi hR
  rw [hedi, BitVec.and_comm]
  exact and_three (a + d)

theorem steps_count (byte : List Op) (bulk : StringOp) (r : Cdecl.Reg) (l : Label)
    (rest : List (Line Label)) (s : State) :
    Steps (wordwise byte bulk) (byte.length + 2) (count byte r l rest, s)
      (after l (wordwise byte bulk), (Op.subl 1 r).exec (execAll byte s)) := by
  have hbyte := steps_ops (wordwise byte bulk) byte (.op (.subl 1 r) :: .jmp l :: rest) s
  have hsub := steps_next (wordwise byte bulk) (.op (.subl 1 r)) (.jmp l :: rest) (execAll byte s)
  have hjump := steps_next (wordwise byte bulk) (.jmp l) rest
    ((Op.subl 1 r).exec (execAll byte s))
  exact (hbyte.trans hsub).trans hjump

/-- One byte more on the way to an aligned address. -/
theorem top_round (h : Advances byte bulk a n R) (hn : n < 2 ^ 32) {d : Nat} {s : State}
    (hR : R d (front s)) (hd : d < n) (hecx : s.regs.ecx = BitVec.ofNat 32 (n - d))
    (halign : (a + d) % 4 ≠ 0) :
    ∃ s', Steps (wordwise byte bulk) (4 + (byte.length + 2)) (top byte bulk, s)
        (top byte bulk, s') ∧
      R (d + 1) (front s') ∧ s'.regs.ecx = BitVec.ofNat 32 (n - (d + 1)) := by
  let s₁ := (Op.testl (.reg .ecx) .ecx).exec s
  let s₂ := (Op.testl (.imm 3) .edi).exec s₁
  have hcount : Operand.value s (.reg .ecx) &&& s.regs.get .ecx ≠ 0 := by
    rw [test_counter (r := .ecx) hecx]
    exact counter_ne_zero (by omega) (by omega)
  have hunaligned : Operand.value s₁ (.imm 3) &&& s₁.regs.get .edi ≠ 0 := by
    rw [test_edi (s := s₁) h hR]
    exact counter_ne_zero halign (by omega)
  refine ⟨(Op.subl 1 .ecx).exec (execAll byte s₂), ?_, h.one hd hR, ?_⟩
  · have hbyte := steps_count byte bulk .ecx .top (.label .aligned :: aligned byte bulk) s₂
    exact ((steps_testl_not_jz _ hcount .done _).trans
      (steps_testl_not_jz _ hunaligned .aligned _)).trans hbyte
  · show (execAll byte s₂).regs.ecx - 1 = _
    rw [(h.counters s₂).1]
    show s.regs.ecx - 1 = _
    rw [hecx, show n - d = n - (d + 1) + 1 by omega, counter_pred]

/-- No byte is left. -/
theorem top_done {s : State} (hecx : s.regs.ecx = 0) :
    Steps (wordwise byte bulk) 2 (top byte bulk, s) ([], (Op.testl (.reg .ecx) .ecx).exec s) := by
  have hcount : Operand.value s (.reg .ecx) &&& s.regs.get .ecx = 0 :=
    test_counter (r := .ecx) (j := 0) hecx
  rw [← after_done byte bulk]
  exact steps_testl_jz (wordwise byte bulk) hcount .done _

/-- The address is aligned. -/
theorem top_aligned (h : Advances byte bulk a n R) (hn : n < 2 ^ 32) {d : Nat} {s : State}
    (hR : R d (front s)) (hd : d < n) (hecx : s.regs.ecx = BitVec.ofNat 32 (n - d))
    (halign : (a + d) % 4 = 0) :
    ∃ s', Steps (wordwise byte bulk) 4 (top byte bulk, s) (aligned byte bulk, s') ∧
      R d (front s') ∧ s'.regs.ecx = BitVec.ofNat 32 (n - d) := by
  let s₁ := (Op.testl (.reg .ecx) .ecx).exec s
  have hcount : Operand.value s (.reg .ecx) &&& s.regs.get .ecx ≠ 0 := by
    rw [test_counter (r := .ecx) hecx]
    exact counter_ne_zero (by omega) (by omega)
  have hedi : Operand.value s₁ (.imm 3) &&& s₁.regs.get .edi = 0 := by
    rw [test_edi (s := s₁) h hR, halign]
    rfl
  refine ⟨(Op.testl (.imm 3) .edi).exec s₁, ?_, hR, hecx⟩
  rw [← after_aligned byte bulk]
  exact (steps_testl_not_jz (wordwise byte bulk) hcount .done _).trans
    (steps_testl_jz (wordwise byte bulk) hedi .aligned _)

/-- The bytes before the first aligned address, if there are that many. -/
def lead (a n : Nat) : Nat := min n ((4 - a % 4) % 4)

theorem top_loop (h : Advances byte bulk a n R) (hn : n < 2 ^ 32) {s : State}
    (hR : R 0 (front s)) (hecx : s.regs.ecx = BitVec.ofNat 32 n) :
    ∃ s', Steps (wordwise byte bulk) (lead a n * (4 + (byte.length + 2))) (top byte bulk, s)
        (top byte bulk, s') ∧
      R (lead a n) (front s') ∧ s'.regs.ecx = BitVec.ofNat 32 (n - lead a n) := by
  obtain ⟨s', hsteps, d, hd, hR', hecx'⟩ := steps_loop
    (I := fun j s => ∃ d, d + j = lead a n ∧ R d (front s) ∧
      s.regs.ecx = BitVec.ofNat 32 (n - d))
    (fun j s hI => by
      obtain ⟨d, hd, hR, hecx⟩ := hI
      have hlead : d < n ∧ (a + d) % 4 ≠ 0 := by
        rw [lead] at hd
        omega
      obtain ⟨s', hsteps, hR', hecx'⟩ := top_round h hn hR hlead.1 hecx hlead.2
      exact ⟨s', hsteps, d + 1, by omega, hR', hecx'⟩)
    ⟨0, Nat.zero_add _, hR, hecx⟩
  rw [Nat.add_zero] at hd
  subst hd
  exact ⟨s', hsteps, hR', hecx'⟩

/-- The double words, with the counts for them and for what is left behind them. -/
theorem words_spec (h : Advances byte bulk a n R) (hn : n < 2 ^ 32) {d : Nat} {s : State}
    (hR : R d (front s)) (hd : d ≤ n) (hecx : s.regs.ecx = BitVec.ofNat 32 (n - d)) :
    R (d + 4 * ((n - d) / 4)) (front (execAll (words bulk) s)) ∧
      (execAll (words bulk) s).regs.edx = BitVec.ofNat 32 ((n - d) % 4) := by
  let s₁ := execAll [.movwDsDx, .movwDxEs, .movl .ecx .edx, .shrl 2 .ecx, .andl 3 .edx, .cld] s
  have hcount : s₁.regs.ecx.toNat = (n - d) / 4 := by
    show (s.regs.ecx >>> 2).toNat = _
    rw [hecx, shift_two (by omega), BitVec.toNat_ofNat, Nat.mod_eq_of_lt (by omega)]
  have hleft : s₁.regs.edx = BitVec.ofNat 32 ((n - d) % 4) := by
    show s.regs.ecx &&& 3 = _
    rw [hecx, and_three]
  have hfour := h.four (d := d) (s := s₁) rfl (by omega) hR
  rw [hcount] at hfour
  exact ⟨hfour, (rep_edx bulk s₁).trans hleft⟩

/-- One of the bytes that are left. -/
theorem bottom_round (h : Advances byte bulk a n R) {d j : Nat} {s : State}
    (hR : R d (front s)) (hd : d < n) (hj : j + 1 < 2 ^ 32)
    (hedx : s.regs.edx = BitVec.ofNat 32 (j + 1)) :
    ∃ s', Steps (wordwise byte bulk) (2 + (byte.length + 2)) (bottom byte, s) (bottom byte, s') ∧
      R (d + 1) (front s') ∧ s'.regs.edx = BitVec.ofNat 32 j := by
  let s₁ := (Op.testl (.reg .edx) .edx).exec s
  have hcount : Operand.value s (.reg .edx) &&& s.regs.get .edx ≠ 0 := by
    rw [test_counter (r := .edx) hedx]
    exact counter_ne_zero (by omega) hj
  refine ⟨(Op.subl 1 .edx).exec (execAll byte s₁), ?_, h.one hd hR, ?_⟩
  · have hbyte := steps_count byte bulk .edx .bottom [.label .done] s₁
    rw [after_bottom] at hbyte
    exact (steps_testl_not_jz _ hcount .done _).trans hbyte
  · show (execAll byte s₁).regs.edx - 1 = _
    rw [(h.counters s₁).2]
    show s.regs.edx - 1 = _
    rw [hedx, counter_pred]

theorem bottom_loop (h : Advances byte bulk a n R) {d j : Nat} {s : State} (hd : d + j = n)
    (hj : j < 2 ^ 32) (hR : R d (front s)) (hedx : s.regs.edx = BitVec.ofNat 32 j) :
    ∃ s', Steps (wordwise byte bulk) (j * (2 + (byte.length + 2))) (bottom byte, s)
        (bottom byte, s') ∧ R n (front s') ∧ s'.regs.edx = 0 := by
  obtain ⟨s', hsteps, d', hd', hj', hR', hedx'⟩ := steps_loop
    (I := fun j s => ∃ d, d + j = n ∧ j < 2 ^ 32 ∧ R d (front s) ∧
      s.regs.edx = BitVec.ofNat 32 j)
    (fun j s hI => by
      obtain ⟨d, hd, hj, hR, hedx⟩ := hI
      obtain ⟨s', hsteps, hR', hedx'⟩ := bottom_round h hR (by omega) hj hedx
      exact ⟨s', hsteps, d + 1, by omega, by omega, hR', hedx'⟩)
    ⟨d, hd, hj, hR, hedx⟩
  rw [Nat.add_zero] at hd'
  subst hd'
  exact ⟨s', hsteps, hR', hedx'⟩

/-- From the aligned address to the end. -/
theorem aligned_steps (h : Advances byte bulk a n R) (hn : n < 2 ^ 32) {d : Nat} {s : State}
    (hR : R d (front s)) (hd : d ≤ n) (hecx : s.regs.ecx = BitVec.ofNat 32 (n - d)) :
    ∃ t, Steps (wordwise byte bulk) (8 + (n - d) % 4 * (2 + (byte.length + 2)) + 2)
      (aligned byte bulk, s) ([], t) ∧ R n (front t) := by
  have hwords := steps_ops (wordwise byte bulk) (words bulk) (.label .bottom :: bottom byte) s
  have hlabel := steps_next (wordwise byte bulk) (.label .bottom) (bottom byte)
    (execAll (words bulk) s)
  obtain ⟨hR₁, hedx₁⟩ := words_spec h hn hR hd hecx
  obtain ⟨s₂, hbytes, hR₂, hedx₂⟩ := bottom_loop h (j := (n - d) % 4) (by omega) (by omega) hR₁ hedx₁
  have hcount : Operand.value s₂ (.reg .edx) &&& s₂.regs.get .edx = 0 :=
    test_counter (r := .edx) (j := 0) hedx₂
  have hdone := steps_testl_jz (wordwise byte bulk) hcount .done
    (count byte .edx .bottom [.label .done])
  rw [after_done] at hdone
  exact ⟨_, ((hwords.trans hlabel).trans hbytes).trans hdone, hR₂⟩

/-- **The shape is right**, wherever the destination lies and however few bytes there
are. -/
theorem run_wordwise (h : Advances byte bulk a n R) (hlen : byte.length ≤ 4) (hn : n < 2 ^ 32)
    {s : State} (hR : R 0 (front s)) (hecx : s.regs.ecx = BitVec.ofNat 32 n) :
    ∃ t, run (wordwise byte bulk) 128 (wordwise byte bulk, s) = some t ∧ R n (front t) := by
  have hstart := steps_next (wordwise byte bulk) (.label .top) (top byte bulk) s
  obtain ⟨s₁, hlead, hR₁, hecx₁⟩ := top_loop h hn hR hecx
  have hfew : lead a n ≤ 3 := by
    rw [lead]
    omega
  have hsteps : lead a n * (4 + (byte.length + 2)) ≤ 3 * 10 := Nat.mul_le_mul hfew (by omega)
  by_cases hall : lead a n = n
  · -- the count ran out first
    rw [hall] at hR₁
    rw [hall, Nat.sub_self] at hecx₁
    exact ⟨_, ((hstart.trans hlead).trans (top_done hecx₁)).run_eq (by omega), hR₁⟩
  · -- the address is aligned first
    have haligned : lead a n < n ∧ (a + lead a n) % 4 = 0 := by
      rw [lead] at hall ⊢
      omega
    obtain ⟨s₂, hjump, hR₂, hecx₂⟩ := top_aligned h hn hR₁ haligned.1 hecx₁ haligned.2
    obtain ⟨t, hrest, hRt⟩ := aligned_steps h hn hR₂ haligned.1.le hecx₂
    have hbottom : (n - lead a n) % 4 * (2 + (byte.length + 2)) ≤ 3 * 8 :=
      Nat.mul_le_mul (by omega) (by omega)
    exact ⟨t, (((hstart.trans hlead).trans hjump).trans hrest).run_eq (by omega), hRt⟩

end Wordwise

open Wordwise

/-! ### memset -/

/-- The byte loop that memset stands for. -/
def byteSet (m : Mem) (a n : Nat) (b : UInt8) : Mem :=
  forLoop (fun i m => Function.update m (a + i) b) n m

theorem byteSet_eq (m : Mem) (a n : Nat) (b : UInt8) :
    byteSet m a n b = cover m a n fun _ => b := by
  refine forLoop_invariant (P := fun i t => t = cover m a i fun _ => b)
    (cover_zero m a _).symm ?_
  intro i t _ ht
  rw [ht]
  exact cover_succ m a i fun _ => b

/-- `c << 24 | c << 16 | c << 8 | c`. -/
def spread (c : BitVec 32) : BitVec 32 := c <<< 24 ||| c <<< 16 ||| c <<< 8 ||| c

/-- The code of `memset`. -/
def memsetCode : List (Line Label) :=
  wordwise [.movbStore .edi, .addl 1 .edi] (.stos .long)

/-- The pointer returned and the state left.  No loop of the code makes more than three
rounds, so the fuel is plenty. -/
def memset (s c n : BitVec 32) (st : State) : Option (BitVec 32 × State) :=
  let c := c &&& 0xFF
  let st := { st with regs := { st.regs with eax := spread c, edi := s, ecx := n } }
  (run memsetCode 128 (memsetCode, st)).map fun t => (s, t)

theorem byteOf_spread (c : BitVec 32) {i : Nat} (hi : i < 4) :
    byteOf (spread (c &&& 0xFF)).toNat i = UInt8.ofNat c.toNat := by
  have hbyte : c &&& 0xFF = BitVec.ofNat 32 (c.toNat % 256) := by
    refine BitVec.eq_of_toNat_eq ?_
    rw [BitVec.toNat_and, BitVec.toNat_ofNat]
    show c.toNat &&& (2 ^ 8 - 1) = _
    rw [Nat.and_two_pow_sub_one_eq_mod]
    omega
  have hall : ∀ x < 256, ∀ i < 4, byteOf (spread (BitVec.ofNat 32 x)).toNat i = UInt8.ofNat x := by
    decide +kernel
  rw [hbyte, hall _ (Nat.mod_lt _ (by decide)) i hi]
  exact UInt8.ofNat_mod_size

/-- `d` bytes have been set to `b`. -/
def SetSoFar (m : Mem) (a : Nat) (word : BitVec 32) (b : UInt8) (d : Nat) (f : Front) : Prop :=
  f.eax = word ∧ f.edi = BitVec.ofNat 32 (a + d) ∧ f.mem = cover m a d fun _ => b

theorem address_succ (a d : Nat) :
    BitVec.ofNat 32 (a + d) + 1 = BitVec.ofNat 32 (a + (d + 1)) := by
  rw [← Nat.add_assoc, BitVec.ofNat_add (a + d)]
  rfl

theorem advances_memset {m : Mem} {a n : Nat} {word : BitVec 32} {b : UInt8}
    (hend : a + n ≤ 2 ^ 32) (hword : ∀ i < 4, byteOf word.toNat i = b) :
    Advances [.movbStore .edi, .addl 1 .edi] (.stos .long) a n (SetSoFar m a word b) where
  edi h := h.2.1
  -- the byte loop
  one := by
    rintro d s hd ⟨heax, hedi, hmem⟩
    simp only [front] at heax hedi hmem
    have hal : s.al = b := by
      rw [State.al, heax, ← hword 0 (by decide), byteOf, Nat.mul_zero, Nat.pow_zero, Nat.div_one]
    have hto : s.regs.edi.toNat = a + d := by
      rw [hedi, BitVec.toNat_ofNat, Nat.mod_eq_of_lt (by omega)]
    refine ⟨heax, ?_, ?_⟩
    · show s.regs.edi + 1 = _
      rw [hedi, address_succ]
    · show Function.update s.mem s.regs.edi.toNat s.al = _
      rw [hal, hto, hmem]
      exact cover_succ m a d fun _ => b
  counters s := ⟨rfl, rfl⟩
  -- the string instruction, which stores the bytes of EAX in turn
  four := by
    rintro d s hdf hle ⟨heax, hedi, hmem⟩
    simp only [front] at heax hedi hmem
    rw [rep_stos (w := .long) hdf hedi (by simp only [Width.bytes]; omega)]
    refine ⟨heax, ?_, ?_⟩
    · show BitVec.ofNat 32 (a + d + 4 * s.regs.ecx.toNat) = _
      rw [Nat.add_assoc]
    · show cover s.mem (a + d) (4 * s.regs.ecx.toNat)
        (fun i => byteOf s.regs.eax.toNat (i % 4)) = _
      rw [hmem]
      refine cover_append m a d _ _ fun i _ => ?_
      rw [heax]
      exact hword (i % 4) (Nat.mod_lt i (by decide))

/-- **memset.** -/
theorem memset_eq {s n : BitVec 32} (c : BitVec 32) (st : State)
    (hend : s.toNat + n.toNat ≤ 2 ^ 32) :
    ∃ t, memset s c n st = some (s, t) ∧
      t.mem = cover st.mem s.toNat n.toNat fun _ => UInt8.ofNat c.toNat := by
  have hadvances := advances_memset (m := st.mem) hend fun i hi => byteOf_spread c hi
  let start := { st with regs := { st.regs with eax := spread (c &&& 0xFF), edi := s, ecx := n } }
  have hstart : SetSoFar st.mem s.toNat (spread (c &&& 0xFF)) (UInt8.ofNat c.toNat) 0 (front start) :=
    ⟨rfl, eq_ofNat_toNat s, (cover_zero ..).symm⟩
  obtain ⟨t, hrun, -, -, hmem⟩ := run_wordwise hadvances (by decide) n.isLt hstart
    (eq_ofNat_toNat n)
  exact ⟨t, congrArg (Option.map fun t => (s, t)) hrun, hmem⟩

/-- `memset_word` and `memset_dword`: the element is what of `c` is wide enough. -/
def memsetElements (w : Width) (s c n : BitVec 32) (st : State) : BitVec 32 × State :=
  let st := { st with regs := { st.regs with eax := c, edi := s, ecx := n } }
  (s, execAll [.movwDsDx, .movwDxEs, .cld, .rep (.stos w)] st)

/-- `memset_word`. -/
def memsetWord : BitVec 32 → BitVec 32 → BitVec 32 → State → BitVec 32 × State :=
  memsetElements .word

/-- `memset_dword`. -/
def memsetDword : BitVec 32 → BitVec 32 → BitVec 32 → State → BitVec 32 × State :=
  memsetElements .long

/-- `n` is a number of elements, not of bytes. -/
theorem memsetElements_eq (w : Width) {s n : BitVec 32} (c : BitVec 32) (st : State)
    (hend : s.toNat + w.bytes * n.toNat ≤ 2 ^ 32) :
    (memsetElements w s c n st).2.mem =
      cover st.mem s.toNat (w.bytes * n.toNat) fun i => byteOf c.toNat (i % w.bytes) := by
  let start := execAll [.movwDsDx, .movwDxEs, .cld]
    { st with regs := { st.regs with eax := c, edi := s, ecx := n } }
  have hrep := rep_stos (s := start) (w := w) rfl (eq_ofNat_toNat s) hend
  show (rep (.stos w) start).mem = _
  rw [hrep]
  rfl

/-! ### memcpy -/

/-- The byte loop that memcpy stands for. -/
def byteCopy (m : Mem) (dest src n : Nat) : Mem :=
  forLoop (fun i m => Function.update m (dest + i) (m (src + i))) n m

theorem byteCopy_eq (m : Mem) {dest src n : Nat} (hclear : dest ≤ src ∨ src + n ≤ dest) :
    byteCopy m dest src n = cover m dest n (behind m src) := by
  refine forLoop_invariant (P := fun i t => t = cover m dest i (behind m src))
    (cover_zero m dest _).symm ?_
  intro i t hi ht
  rw [ht, cover_outside m (i := src + i) _ (by omega)]
  exact cover_succ m dest i (behind m src)

/-- The code of `memcpy`. -/
def memcpyCode : List (Line Label) :=
  wordwise [.movbLoad .esi, .movbStore .edi, .addl 1 .edi, .addl 1 .esi] (.movs .long)

/-- `memcpy`, with its operands in registers; 128 lines are enough for any number of bytes. -/
def memcpy (dest src n : BitVec 32) (st : State) : Option (BitVec 32 × State) :=
  let st := { st with regs := { st.regs with esi := src, edi := dest, ecx := n } }
  (run memcpyCode 128 (memcpyCode, st)).map fun t => (dest, t)

/-- `d` bytes have been copied. -/
def CopiedSoFar (m : Mem) (a b : Nat) (d : Nat) (f : Front) : Prop :=
  f.esi = BitVec.ofNat 32 (b + d) ∧ f.edi = BitVec.ofNat 32 (a + d) ∧
    f.mem = cover m a d (behind m b)

theorem advances_memcpy {m : Mem} {a b n : Nat} (ha : a + n ≤ 2 ^ 32) (hb : b + n ≤ 2 ^ 32)
    (hclear : a ≤ b ∨ b + n ≤ a) :
    Advances [.movbLoad .esi, .movbStore .edi, .addl 1 .edi, .addl 1 .esi] (.movs .long) a n
      (CopiedSoFar m a b) where
  edi h := h.2.1
  -- the byte loop: the source has not been overwritten so far
  one := by
    rintro d s hd ⟨hesi, hedi, hmem⟩
    simp only [front] at hesi hedi hmem
    have hto : s.regs.edi.toNat = a + d := by
      rw [hedi, BitVec.toNat_ofNat, Nat.mod_eq_of_lt (by omega)]
    have hfrom : s.regs.esi.toNat = b + d := by
      rw [hesi, BitVec.toNat_ofNat, Nat.mod_eq_of_lt (by omega)]
    refine ⟨?_, ?_, ?_⟩
    · show s.regs.esi + 1 = _
      rw [hesi, address_succ]
    · show s.regs.edi + 1 = _
      rw [hedi, address_succ]
    · show Function.update s.mem s.regs.edi.toNat ((Op.movbLoad .esi).exec s).al = _
      rw [al_movbLoad]
      show Function.update s.mem s.regs.edi.toNat (s.mem s.regs.esi.toNat) = _
      rw [hto, hfrom, hmem, cover_outside m (i := b + d) _ (by omega)]
      exact cover_succ m a d (behind m b)
  counters s := ⟨rfl, rfl⟩
  -- the string instruction
  four := by
    rintro d s hdf hle ⟨hesi, hedi, hmem⟩
    simp only [front] at hesi hedi hmem
    rw [rep_movs_up (w := .long) hdf hedi hesi (by simp only [Width.bytes]; omega)
      (by simp only [Width.bytes]; omega) (by simp only [Width.bytes]; omega)]
    refine ⟨?_, ?_, ?_⟩
    · show BitVec.ofNat 32 (b + d + 4 * s.regs.ecx.toNat) = _
      rw [Nat.add_assoc]
    · show BitVec.ofNat 32 (a + d + 4 * s.regs.ecx.toNat) = _
      rw [Nat.add_assoc]
    · show cover s.mem (a + d) (4 * s.regs.ecx.toNat) (behind s.mem (b + d)) = _
      rw [hmem]
      refine cover_append m a d _ _ fun i _ => ?_
      rw [behind, cover_outside m _ (by omega), behind, Nat.add_assoc]

/-- **memcpy**, also to a place below the source that overlaps it. -/
theorem memcpy_eq {dest src n : BitVec 32} (st : State) (hdest : dest.toNat + n.toNat ≤ 2 ^ 32)
    (hsrc : src.toNat + n.toNat ≤ 2 ^ 32)
    (hclear : dest.toNat ≤ src.toNat ∨ src.toNat + n.toNat ≤ dest.toNat) :
    ∃ t, memcpy dest src n st = some (dest, t) ∧
      t.mem = cover st.mem dest.toNat n.toNat (behind st.mem src.toNat) := by
  have hadvances := advances_memcpy (m := st.mem) hdest hsrc hclear
  let start := { st with regs := { st.regs with esi := src, edi := dest, ecx := n } }
  have hstart : CopiedSoFar st.mem dest.toNat src.toNat 0 (front start) :=
    ⟨eq_ofNat_toNat src, eq_ofNat_toNat dest, (cover_zero ..).symm⟩
  obtain ⟨t, hrun, -, -, hmem⟩ := run_wordwise hadvances (by decide) n.isLt hstart
    (eq_ofNat_toNat n)
  exact ⟨t, congrArg (Option.map fun t => (dest, t)) hrun, hmem⟩

/-- **memset and memcpy are the byte loops.**  Whatever the addresses, the count, the
value, the memory and the processor state: exactly the bytes asked for are set or copied. -/
theorem memset_memcpy_bytes :
    (∀ (s c n : BitVec 32) (st : State), s.toNat + n.toNat ≤ 2 ^ 32 →
      ∃ t, memset s c n st = some (s, t) ∧
        (∀ i < n.toNat, t.mem (s.toNat + i) = UInt8.ofNat c.toNat) ∧
        (∀ i, i < s.toNat ∨ s.toNat + n.toNat ≤ i → t.mem i = st.mem i) ∧
        t.mem = byteSet st.mem s.toNat n.toNat (UInt8.ofNat c.toNat)) ∧
    (∀ (dest src n : BitVec 32) (st : State), dest.toNat + n.toNat ≤ 2 ^ 32 →
      src.toNat + n.toNat ≤ 2 ^ 32 →
      dest.toNat + n.toNat ≤ src.toNat ∨ src.toNat + n.toNat ≤ dest.toNat →
      ∃ t, memcpy dest src n st = some (dest, t) ∧
        (∀ i < n.toNat, t.mem (dest.toNat + i) = st.mem (src.toNat + i)) ∧
        (∀ i, i < dest.toNat ∨ dest.toNat + n.toNat ≤ i → t.mem i = st.mem i) ∧
        t.mem = byteCopy st.mem dest.toNat src.toNat n.toNat) := by
  constructor
  · intro s c n st hend
    obtain ⟨t, hrun, hmem⟩ := memset_eq c st hend
    refine ⟨t, hrun, fun i hi => ?_, fun i hi => ?_, ?_⟩
    · rw [hmem, cover_inside _ _ _ hi]
    · rw [hmem, cover_outside _ _ hi]
    · rw [hmem, byteSet_eq]
  · intro dest src n st hdest hsrc hapart
    -- copying upwards, a destination below the source would do as well
    have hclear : dest.toNat ≤ src.toNat ∨ src.toNat + n.toNat ≤ dest.toNat := by omega
    obtain ⟨t, hrun, hmem⟩ := memcpy_eq st hdest hsrc hclear
    refine ⟨t, hrun, fun i hi => ?_, fun i hi => ?_, ?_⟩
    · rw [hmem, cover_inside _ _ _ hi, behind]
    · rw [hmem, cover_outside _ _ hi]
    · rw [hmem, byteCopy_eq _ hclear]

/-- A memory whose bytes are their addresses' low bytes. -/
def ramp : State := ⟨⟨0, 0, 0, 0, 0, 0, 0⟩, 0x18, 0x18, false, false, true, fun i => UInt8.ofNat i⟩

theorem memset_memcpy_bytes_unaligned :
    (∃ t, memset 0x1003 0x1241 10 ramp = some (0x1003, t) ∧ t.mem 0x1002 = 0x02 ∧
      t.mem 0x1003 = 0x41 ∧ t.mem 0x100C = 0x41 ∧ t.mem 0x100D = 0x0D) ∧
    ∃ t, memcpy 0x1001 0x20F2 13 ramp = some (0x1001, t) ∧ t.mem 0x1000 = 0x00 ∧
      t.mem 0x1001 = 0xF2 ∧ t.mem 0x100D = 0xFE ∧ t.mem 0x100E = 0x0E := by
  constructor
  · obtain ⟨t, hrun, hset, hkept, -⟩ := memset_memcpy_bytes.1 0x1003 0x1241 10 ramp (by decide)
    exact ⟨t, hrun, hkept 0x1002 (by decide), hset 0 (by decide), hset 9 (by decide),
      hkept 0x100D (by decide)⟩
  · obtain ⟨t, hrun, hcopied, hkept, -⟩ := memset_memcpy_bytes.2 0x1001 0x20F2 13 ramp (by decide)
      (by decide) (by decide)
    exact ⟨t, hrun, hkept 0x1000 (by decide), hcopied 0 (by decide), hcopied 12 (by decide),
      hkept 0x100E (by decide)⟩

/-! ### memmove -/

/-- The label of `memmove`. -/
inductive MemmoveLabel where
  | go
  deriving DecidableEq

/-- The code of `memmove`: backwards if the destination is above the source. -/
def memmoveCode : List (Line MemmoveLabel) :=
  [.op .movwDsDx,
   .op .movwDxEs,
   .op .cld,
   .op (.cmpl .edi .esi),
   .jae .go,
   .op (.leal (-1) .esi .ecx .esi),
   .op (.leal (-1) .edi .ecx .edi),
   .op .std,
   .label .go,
   .op (.rep (.movs .byte))]

/-- `memmove`. -/
def memmove (dest src n : BitVec 32) (st : State) : Option (BitVec 32 × State) :=
  let st := { st with regs := { st.regs with edi := dest, esi := src, ecx := n } }
  (run memmoveCode 16 (memmoveCode, st)).map fun t => (dest, t)

/-- The code before the jump. -/
def compared (s : State) : State :=
  execAll [.movwDsDx, .movwDxEs, .cld, .cmpl .edi .esi] s

/-- The code that is jumped over. -/
def turned (s : State) : State :=
  execAll [.leal (-1) .esi .ecx .esi, .leal (-1) .edi .ecx .edi, .std] (compared s)

theorem run_memmoveCode (s : State) :
    run memmoveCode 16 (memmoveCode, s) =
      some (rep (.movs .byte)
        (if s.regs.esi.ult s.regs.edi then turned s else compared s)) := by
  have hgo : ∀ t, Steps memmoveCode 1 ([.op (.rep (.movs .byte))], t)
      ([], rep (.movs .byte) t) := fun t => steps_next memmoveCode (.op (.rep (.movs .byte))) [] t
  have hcompare := steps_ops memmoveCode [.movwDsDx, .movwDxEs, .cld, .cmpl .edi .esi]
    (.jae .go :: memmoveCode.drop 5) s
  have hjump := steps_next memmoveCode (.jae .go) (memmoveCode.drop 5) (compared s)
  have hcf : (compared s).cf = s.regs.esi.ult s.regs.edi := rfl
  rw [next, hcf] at hjump
  cases hbelow : s.regs.esi.ult s.regs.edi with
  | false =>
      rw [hbelow] at hjump
      exact ((hcompare.trans hjump).trans (hgo (compared s))).run_eq (by decide)
  | true =>
      rw [hbelow] at hjump
      have hturn := steps_ops memmoveCode
        [.leal (-1) .esi .ecx .esi, .leal (-1) .edi .ecx .edi, .std]
        [.label .go, .op (.rep (.movs .byte))] (compared s)
      have hlabel := steps_next memmoveCode (.label .go) [.op (.rep (.movs .byte))] (turned s)
      exact ((((hcompare.trans hjump).trans hturn).trans hlabel).trans (hgo (turned s))).run_eq
        (by decide)

theorem compared_up {s : State} (hdest : s.regs.edi.toNat + s.regs.ecx.toNat ≤ 2 ^ 32)
    (hsrc : s.regs.esi.toNat + s.regs.ecx.toNat ≤ 2 ^ 32)
    (hle : s.regs.edi.toNat ≤ s.regs.esi.toNat) :
    (rep (.movs .byte) (compared s)).mem =
        cover s.mem s.regs.edi.toNat s.regs.ecx.toNat (behind s.mem s.regs.esi.toNat) ∧
      (rep (.movs .byte) (compared s)).df = false := by
  have hrep := rep_movs_up (s := compared s) (w := .byte) rfl (eq_ofNat_toNat s.regs.edi)
    (eq_ofNat_toNat s.regs.esi)
  simp only [Width.bytes, Nat.one_mul] at hrep
  rw [hrep hdest hsrc (.inl hle)]
  exact ⟨rfl, rfl⟩

/-- The last byte is one below the end, also of an empty region. -/
theorem end_pred (x n : BitVec 32) :
    x + n + -1 = BitVec.ofNat 32 (x.toNat + n.toNat) - BitVec.ofNat 32 1 := by
  rw [BitVec.ofNat_add, ← eq_ofNat_toNat, ← eq_ofNat_toNat, BitVec.sub_eq_add_neg]
  rfl

theorem turned_down {s : State} (hdest : s.regs.edi.toNat + s.regs.ecx.toNat ≤ 2 ^ 32)
    (hsrc : s.regs.esi.toNat + s.regs.ecx.toNat ≤ 2 ^ 32)
    (hle : s.regs.esi.toNat ≤ s.regs.edi.toNat) :
    (rep (.movs .byte) (turned s)).mem =
        cover s.mem s.regs.edi.toNat s.regs.ecx.toNat (behind s.mem s.regs.esi.toNat) ∧
      (rep (.movs .byte) (turned s)).df = true := by
  have hrep := rep_movs_down (s := turned s) (w := .byte) (a := s.regs.edi.toNat)
    (b := s.regs.esi.toNat) rfl
  simp only [Width.bytes, Nat.one_mul] at hrep
  rw [hrep (end_pred s.regs.edi s.regs.ecx) (end_pred s.regs.esi s.regs.ecx) hdest hsrc (.inl hle)]
  exact ⟨rfl, rfl⟩

/-- **memmove copies right**, whichever way the regions overlap, and leaves the direction
flag as the copy needed it. -/
theorem memmove_eq {dest src n : BitVec 32} (st : State) (hdest : dest.toNat + n.toNat ≤ 2 ^ 32)
    (hsrc : src.toNat + n.toNat ≤ 2 ^ 32) :
    ∃ t, memmove dest src n st = some (dest, t) ∧
      t.mem = cover st.mem dest.toNat n.toNat (behind st.mem src.toNat) ∧
      t.df = decide (src.toNat < dest.toNat) := by
  let start := { st with regs := { st.regs with edi := dest, esi := src, ecx := n } }
  have hrun : memmove dest src n st = some (dest, rep (.movs .byte)
      (if src.ult dest then turned start else compared start)) :=
    congrArg (Option.map fun t => (dest, t)) (run_memmoveCode start)
  refine ⟨_, hrun, ?_⟩
  rw [BitVec.ult]
  by_cases hlt : src.toNat < dest.toNat
  · rw [decide_eq_true hlt, if_pos rfl]
    exact turned_down (s := start) hdest hsrc hlt.le
  · rw [decide_eq_false hlt, if_neg Bool.false_ne_true]
    exact compared_up (s := start) hdest hsrc (Nat.not_lt.mp hlt)

/-- What a caller, and the compiler for the code behind the call, count on. -/
def Moves (dest src n : BitVec 32) (st : State) : Prop :=
  ∃ t, memmove dest src n st = some (dest, t) ∧
    (∀ i < n.toNat, t.mem (dest.toNat + i) = st.mem (src.toNat + i)) ∧
    (∀ i, i < dest.toNat ∨ dest.toNat + n.toNat ≤ i → t.mem i = st.mem i) ∧
    t.df = false

/-- **The direction flag is clear** just when the copy went up. -/
theorem moves_iff {dest src n : BitVec 32} (st : State) (hdest : dest.toNat + n.toNat ≤ 2 ^ 32)
    (hsrc : src.toNat + n.toNat ≤ 2 ^ 32) : Moves dest src n st ↔ dest.toNat ≤ src.toNat := by
  obtain ⟨t, hrun, hmem, hdf⟩ := memmove_eq st hdest hsrc
  constructor
  · rintro ⟨t', hrun', -, -, hclear⟩
    obtain ⟨-, rfl⟩ := Prod.mk.inj (Option.some.inj (hrun.symm.trans hrun'))
    rw [hdf, decide_eq_false_iff_not] at hclear
    exact Nat.not_lt.mp hclear
  · intro hle
    refine ⟨t, hrun, fun i hi => ?_, fun i hi => ?_, ?_⟩
    · rw [hmem, cover_inside _ _ _ hi, behind]
    · rw [hmem, cover_outside _ _ hi]
    · rw [hdf, decide_eq_false (Nat.not_lt.mpr hle)]

/-- Overlapping regions, copied up. -/
theorem moves_overlapping : Moves 0x1000 0x1002 8 ramp :=
  (moves_iff ramp (by decide) (by decide)).mpr (by decide)

/-- Overlapping regions, copied down: the bytes are right, the direction flag stays set. -/
theorem memmove_down_leaves_df :
    (∃ t, memmove 0x1002 0x1000 3 ramp = some (0x1002, t) ∧
      t.mem 0x1002 = 0x00 ∧ t.mem 0x1003 = 0x01 ∧ t.mem 0x1004 = 0x02 ∧ t.df = true) ∧
    ¬Moves 0x1002 0x1000 3 ramp := by
  have hdf : (memmove 0x1002 0x1000 3 ramp).map (fun r => r.2.df) = some true := by
    decide +kernel
  constructor
  · refine ⟨_, rfl, ?_, ?_, ?_, ?_⟩ <;> decide +kernel
  · rintro ⟨t, hrun, -, -, hclear⟩
    rw [hrun] at hdf
    rw [Option.map_some, hclear] at hdf
    cases hdf

/-! ### The PCB behind a memmove -/

/-- `sizeof(pcb_t) / 4`: eight descriptors of four double words, a pointer, 1024 bytes of
input and three double words. -/
def pcbWords : Nat := 8 * 4 + 1 + 1024 / 4 + 3

/-- `*((pcb_t*) pcb_addr) = new_pcb` of `sys_execute_c`: the compiler copies structures
with `rep movsl`, and takes the direction flag to be clear. -/
def copyPcb (pcbAddr newPcb : BitVec 32) (s : State) : State :=
  rep (.movs .long)
    { s with regs := { s.regs with
      edi := pcbAddr, esi := newPcb, ecx := BitVec.ofNat 32 pcbWords } }

section CopyPcb

variable {pcbAddr newPcb : BitVec 32} {s : State}

theorem copyPcb_up (hdf : s.df = false) (hpcb : pcbAddr.toNat + 4 * pcbWords ≤ 2 ^ 32)
    (hnew : newPcb.toNat + 4 * pcbWords ≤ 2 ^ 32)
    (hapart : pcbAddr.toNat + 4 * pcbWords ≤ newPcb.toNat ∨
      newPcb.toNat + 4 * pcbWords ≤ pcbAddr.toNat) :
    (copyPcb pcbAddr newPcb s).mem =
      cover s.mem pcbAddr.toNat (4 * pcbWords) (behind s.mem newPcb.toNat) := by
  have hrep := rep_movs_up (w := .long) (s := { s with regs := { s.regs with
      edi := pcbAddr, esi := newPcb, ecx := BitVec.ofNat 32 pcbWords } })
    hdf (eq_ofNat_toNat pcbAddr) (eq_ofNat_toNat newPcb) hpcb hnew (by
      show _ ∨ newPcb.toNat + 4 * pcbWords ≤ _
      omega)
  rw [copyPcb, hrep]
  rfl

/-- With the direction flag set, the first double word of the PCB is taken for the last. -/
theorem copyPcb_down (hdf : s.df = true) {a b : Nat} (ha : a + 4 * pcbWords = pcbAddr.toNat + 4)
    (hb : b + 4 * pcbWords = newPcb.toNat + 4) (hpcb : pcbAddr.toNat + 4 ≤ 2 ^ 32)
    (hnew : newPcb.toNat + 4 ≤ 2 ^ 32)
    (hapart : a + 4 * pcbWords ≤ b ∨ b + 4 * pcbWords ≤ a) :
    (copyPcb pcbAddr newPcb s).mem = cover s.mem a (4 * pcbWords) (behind s.mem b) := by
  have hlast : ∀ (x : BitVec 32) (c : Nat), c + 4 * pcbWords = x.toNat + 4 →
      x = BitVec.ofNat 32 (c + 4 * pcbWords) - BitVec.ofNat 32 4 := by
    intro x c hc
    rw [hc, BitVec.ofNat_add, BitVec.add_sub_cancel]
    exact eq_ofNat_toNat x
  have hrep := rep_movs_down (w := .long) (s := { s with regs := { s.regs with
      edi := pcbAddr, esi := newPcb, ecx := BitVec.ofNat 32 pcbWords } })
    hdf (hlast pcbAddr a ha) (hlast newPcb b hb) (ha.trans_le hpcb) (hb.trans_le hnew) (by
      show _ ∨ a + 4 * pcbWords ≤ b
      omega)
  rw [copyPcb, hrep]
  rfl

/-- **A new PCB behind a memmove.**  It arrives if memmove copied up.  If memmove copied
down, only its first double word does. -/
theorem copyPcb_after_memmove {dest src n : BitVec 32} {st : State}
    (hdest : dest.toNat + n.toNat ≤ 2 ^ 32) (hsrc : src.toNat + n.toNat ≤ 2 ^ 32)
    (hpcb : 4 * pcbWords ≤ pcbAddr.toNat ∧ pcbAddr.toNat + 4 * pcbWords ≤ 2 ^ 32)
    (hnew : 4 * pcbWords ≤ newPcb.toNat ∧ newPcb.toNat + 4 * pcbWords ≤ 2 ^ 32)
    (hapart : pcbAddr.toNat + 4 * pcbWords ≤ newPcb.toNat ∨
      newPcb.toNat + 4 * pcbWords ≤ pcbAddr.toNat) :
    ∃ t, memmove dest src n st = some (dest, t) ∧
      (dest.toNat ≤ src.toNat → ∀ i < 4 * pcbWords,
        (copyPcb pcbAddr newPcb t).mem (pcbAddr.toNat + i) = t.mem (newPcb.toNat + i)) ∧
      (src.toNat < dest.toNat → ∀ i, 4 ≤ i → i < 4 * pcbWords →
        (copyPcb pcbAddr newPcb t).mem (pcbAddr.toNat + i) = t.mem (pcbAddr.toNat + i)) := by
  obtain ⟨t, hrun, -, hdf⟩ := memmove_eq st hdest hsrc
  refine ⟨t, hrun, fun hle i hi => ?_, fun hlt i h4 hi => ?_⟩
  · rw [decide_eq_false (Nat.not_lt.mpr hle)] at hdf
    rw [copyPcb_up hdf hpcb.2 hnew.2 hapart, cover_inside _ _ _ hi, behind]
  · rw [decide_eq_true hlt] at hdf
    have hwords : 4 * pcbWords = 1168 := rfl
    rw [copyPcb_down hdf (a := pcbAddr.toNat - 1164) (b := newPcb.toNat - 1164) (by omega)
      (by omega) (by omega) (by omega) (by omega), cover_outside _ _ (by omega)]

end CopyPcb

end LinuxBasedOs
