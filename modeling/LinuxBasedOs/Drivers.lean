/-
LinuxBasedOs/Drivers.lean

The RTC driver (rtc_driver.c), the terminal operations as the system calls see
them (key_driver.c), and the dispatch through the four jump tables.

A call through a pointer that is no jump table has no result.  Two routines wait
for something from outside: `rtc_read` for a tick of the clock and
`terminal_read` for a line; what happens meanwhile is a parameter (`ReadEnv`),
and a read whose event does not come has no result either.
-/
import LinuxBasedOs.Filesys

namespace LinuxBasedOs

open Bytes Transition

/-! ### RTC -/

/-- `init_rate`. -/
def initRate : UInt8 := 0x0F

/-- `max_rate`. -/
def maxRate : Nat := 16

/-- `rtc_open`: the rate is set before a descriptor is looked for. -/
def rtcOpen (k : Kernel) : Int × Kernel :=
  let k' := { k with rtc := { regA := (k.rtc.regA &&& 0xF0) ||| initRate, rtcInterrupt := 0 } }
  let i := firstFree k.cur.fileArray
  if 8 ≤ i then (-1, k')
  else (0, k'.setFd i { k'.fd i with inode := 0, filePos := 0, flags := rtcFlags })

/-- `rtc_close`. -/
def rtcClose (fd : Int) (k : Kernel) : Int × Kernel := closeFd rtcFile fd k

/-- `rtc_read` spins until `rtc_interrupt` is set; `tick` says that an interrupt
arrives while it does. -/
def rtcRead (tick : Bool) (k : Kernel) : Option ReadEffect :=
  if k.rtc.rtcInterrupt ≠ 0 ∨ tick then
    some ⟨0, [], fun k => { k with rtc := { k.rtc with rtcInterrupt := 0 } }⟩
  else none

/-- `while (input_rate >>= 1) input_base++`, for at most `left` rounds. -/
def inputBase : (left rate : Nat) → Nat
  | 0, _ => 0
  | left + 1, rate => if rate / 2 = 0 then 0 else inputBase left (rate / 2) + 1

/-- `rtc_write` looks at the first byte of the buffer only. -/
def rtcWrite (data : Mem) (k : Kernel) : Int × Kernel :=
  let rate := (data 0).toNat
  let base := inputBase 8 rate
  if rate &&& (rate - 1) ≠ 0 then (-1, k)
  else if base < 2 ∨ base > 10 then (-1, k)
  else
    let low := UInt8.ofNat (maxRate - base) &&& 0x0F
    (0, { k with rtc := { k.rtc with regA := (k.rtc.regA &&& 0xF0) ||| low } })

/-- For a value of 8 bits the shift loop computes the logarithm. -/
theorem inputBase_eq_log2 (b : UInt8) : inputBase 8 b.toNat = b.toNat.log2 := by
  have hall : ∀ n < 256, inputBase 8 n = n.log2 := by decide +kernel
  exact hall b.toNat b.toNat_lt

/-- The values of the byte that `rtc_write` accepts. -/
def IsByteRate (n : Nat) : Prop := n ∈ [4, 8, 16, 32, 64, 128]

instance (n : Nat) : Decidable (IsByteRate n) := inferInstanceAs (Decidable (n ∈ _))

/-- The two checks of `rtc_write`, for every value of the byte. -/
theorem rate_checks_iff (b : UInt8) :
    (b.toNat &&& (b.toNat - 1) = 0 ∧ ¬ (b.toNat.log2 < 2 ∨ b.toNat.log2 > 10)) ↔
      IsByteRate b.toNat := by
  have hall : ∀ n < 256, (n &&& (n - 1) = 0 ∧ ¬ (n.log2 < 2 ∨ n.log2 > 10)) ↔ IsByteRate n := by
    decide +kernel
  exact hall b.toNat b.toNat_lt

/-- The frequency is one that the hardware can be set to. -/
def IsFrequency (r : Nat) : Prop := (∃ n, r = 2 ^ n) ∧ 2 ≤ r ∧ r ≤ 1024

theorem isFrequency_iff (r : Nat) :
    IsFrequency r ↔ r ∈ [2, 4, 8, 16, 32, 64, 128, 256, 512, 1024] := by
  constructor
  · rintro ⟨⟨n, rfl⟩, hge, hle⟩
    have hn : n < 11 := by
      by_contra h
      have hpow := Nat.pow_le_pow_right (show 0 < 2 by decide) (not_lt.mp h)
      omega
    have hall : ∀ n < 11, 2 ≤ 2 ^ n → 2 ^ n ∈ [2, 4, 8, 16, 32, 64, 128, 256, 512, 1024] := by
      decide
    exact hall n hn hge
  · intro h
    have hall : ∀ r ∈ [2, 4, 8, 16, 32, 64, 128, 256, 512, 1024],
        (∃ n ∈ List.range 11, r = 2 ^ n) ∧ 2 ≤ r ∧ r ≤ 1024 := by decide
    obtain ⟨⟨n, -, hn⟩, hlo, hhi⟩ := hall r h
    exact ⟨⟨n, hn⟩, hlo, hhi⟩

/-- What `rtc_write` is for: a frequency of the hardware sets the low four bits of register
A to its rate, and any other value is refused and changes nothing. -/
structure SetsFrequency (r : Nat) (old : UInt8) (ret : Int) (new : UInt8) : Prop where
  accepts : ret = 0 ↔ IsFrequency r
  high : ret = 0 → new &&& 0xF0 = old &&& 0xF0
  low : ret = 0 → (new &&& 0x0F).toNat = 16 - r.log2
  refuses : ret ≠ 0 → ret = -1 ∧ new = old

/-- Refusing is right exactly for a value that is no frequency. -/
theorem setsFrequency_refused {r : Nat} {a : UInt8} :
    SetsFrequency r a (-1) a ↔ ¬ IsFrequency r := by
  have hne : (-1 : Int) ≠ 0 := by decide
  constructor
  · exact fun h hfreq => hne (h.accepts.mpr hfreq)
  · intro hno
    exact ⟨iff_of_false hne hno, fun h => absurd h hne, fun h => absurd h hne, fun _ => ⟨rfl, rfl⟩⟩

/-- The byte that is looked at, and what follows from it. -/
theorem rtcWrite_eq (data : Mem) (k : Kernel) :
    rtcWrite data k =
      if IsByteRate (data 0).toNat then
        (0, { k with rtc := { k.rtc with regA := (k.rtc.regA &&& 0xF0) |||
          (UInt8.ofNat (maxRate - (data 0).toNat.log2) &&& 0x0F) } })
      else (-1, k) := by
  have hchecks := rate_checks_iff (data 0)
  simp only [rtcWrite, inputBase_eq_log2]
  by_cases hrate : IsByteRate (data 0).toNat
  · obtain ⟨hpow, hbase⟩ := hchecks.mpr hrate
    rw [if_pos hrate, if_neg (not_not.mpr hpow), if_neg hbase]
  · rw [if_neg hrate]
    split_ifs with hpow hbase
    · rfl
    · rfl
    · exact absurd (hchecks.mp ⟨not_not.mp hpow, hbase⟩) hrate

/-- The rate of an accepted byte, put below the high bits of the register. -/
theorem setRate_bits (a : UInt8) {n : Nat} (h : IsByteRate n) :
    let new := (a &&& 0xF0) ||| (UInt8.ofNat (maxRate - n.log2) &&& 0x0F)
    new &&& 0xF0 = a &&& 0xF0 ∧ (new &&& 0x0F).toNat = 16 - n.log2 := by
  have hall : ∀ n ∈ [4, 8, 16, 32, 64, 128], ∀ i < 256,
      let new := (UInt8.ofNat i &&& 0xF0) ||| (UInt8.ofNat (maxRate - n.log2) &&& 0x0F)
      new &&& 0xF0 = UInt8.ofNat i &&& 0xF0 ∧ (new &&& 0x0F).toNat = 16 - n.log2 := by
    decide +kernel
  have hbits := hall n h a.toNat a.toNat_lt
  rw [UInt8.ofNat_toNat] at hbits
  exact hbits

/-- The frequencies on which looking at the low byte alone gives the right answer. -/
def ReadsAlike (r : Nat) : Prop :=
  r ∉ [2, 256, 512, 1024] ∧ (256 ≤ r → ¬ IsByteRate (r % 256))

/-- Which bytes and which words stand for frequencies. -/
theorem isByteRate_mod_iff {r : Nat} (h : r < 256) :
    IsByteRate (r % 256) ↔ IsFrequency r ∧ r ≠ 2 := by
  rw [isFrequency_iff, Nat.mod_eq_of_lt h]
  have hall : ∀ r < 256, IsByteRate r ↔
      r ∈ [2, 4, 8, 16, 32, 64, 128, 256, 512, 1024] ∧ r ≠ 2 := by decide +kernel
  exact hall r h

theorem isFrequency_of_le {r : Nat} (h : 256 ≤ r) : IsFrequency r ↔ r ∈ [256, 512, 1024] := by
  rw [isFrequency_iff]
  simp only [List.mem_cons, List.not_mem_nil, or_false]
  omega

theorem toNat_first (data : Mem) : (data 0).toNat = word data 0 % 256 := by
  have h := (data 0).toNat_lt
  simp only [word]
  omega

/-- **Setting the frequency.**  `rtc_write` takes the low byte of the 32-bit frequency in
its buffer for the whole and has 4 for its smallest rate.  It does what it should exactly
for the frequencies on which that makes no difference: not for 2, not for 256, 512 and
1024, whose low byte is 0, and not for a larger value whose low byte is a rate. -/
theorem rtcWrite_sets_iff (data : Mem) (k : Kernel) :
    SetsFrequency (word data 0) k.rtc.regA (rtcWrite data k).1 (rtcWrite data k).2.rtc.regA ↔
      ReadsAlike (word data 0) := by
  rw [rtcWrite_eq, toNat_first]
  generalize word data 0 = r
  rcases Nat.lt_or_ge r 256 with hr | hr
  · have halike : ReadsAlike r ↔ r ≠ 2 := by
      simp only [ReadsAlike, List.mem_cons, List.not_mem_nil, or_false]
      omega
    have hiff := isByteRate_mod_iff hr
    rw [halike]
    split_ifs with hrate
    · obtain ⟨hfreq, hne⟩ := hiff.mp hrate
      obtain ⟨hhigh, hlow⟩ := setRate_bits k.rtc.regA hrate
      refine iff_of_true ⟨iff_of_true rfl hfreq, fun _ => hhigh, fun _ => ?_, fun h => ?_⟩ hne
      · rw [Nat.mod_eq_of_lt hr] at hlow ⊢
        exact hlow
      · exact absurd rfl h
    · rw [setsFrequency_refused]
      constructor
      · rintro hno rfl
        exact hno ((isFrequency_iff 2).mpr (by decide))
      · exact fun hne hfreq => hrate (hiff.mpr ⟨hfreq, hne⟩)
  · have hfreq := isFrequency_of_le hr
    split_ifs with hrate
    · -- accepted, but none of 256, 512 and 1024 has such a low byte
      refine iff_of_false (fun h => ?_) fun h => h.2 hr hrate
      have hmem := hfreq.mp (h.accepts.mp rfl)
      have hall : ∀ r ∈ [256, 512, 1024], ¬ IsByteRate (r % 256) := by decide
      exact hall r hmem hrate
    · have hno : 256 ≤ r → ¬ IsByteRate (r % 256) := fun _ => hrate
      rw [setsFrequency_refused, hfreq, ReadsAlike, and_iff_left hno]
      simp only [List.mem_cons, List.not_mem_nil, or_false]
      omega

/-- 2 Hz and 1024 Hz are refused, and 260 is accepted. -/
theorem rtcWrite_low_byte :
    (rtcWrite (setWord (fun _ => 0) 0 2) tinyBoot).1 = -1 ∧ IsFrequency 2 ∧
      (rtcWrite (setWord (fun _ => 0) 0 1024) tinyBoot).1 = -1 ∧ IsFrequency 1024 ∧
      (rtcWrite (setWord (fun _ => 0) 0 260) tinyBoot).1 = 0 ∧ ¬ IsFrequency 260 := by
  refine ⟨by decide +kernel, ⟨⟨1, rfl⟩, by decide, by decide⟩, by decide +kernel,
    ⟨⟨10, rfl⟩, by decide, by decide⟩, by decide +kernel, ?_⟩
  rw [isFrequency_iff]
  decide

/-! ### Terminal -/

/-- `terminal_open` resets the keyboard; the descriptors are not touched. -/
def terminalOpen (k : Kernel) : Int × Kernel :=
  (0, { k with console := { k.console with kbd := k.console.kbd.keyboardEnvironment } })

/-- `terminal_close` is for descriptors 0 and 1, which `sys_close_c` never passes on. -/
def terminalClose (fd : Int) (k : Kernel) : Int × Kernel :=
  if fd < 0 ∨ fd > 1 then (-1, k)
  else if ¬ (k.fd fd.toNat).InUse then (-1, k)
  else (0, k.setFd fd.toNat { k.fd fd.toNat with flags := 0 })

/-- `terminal_read`, interleaved with keyboard interrupts as `events` say. -/
def terminalRead (fd : Int) (buf : Nat) (events : List ReadEvent) (k : Kernel) : Option ReadEffect :=
  if fd ≠ 0 then some .refused
  else
    let r := events.foldl Reader.step (Reader.call k.console)
    match r.pc with
    | .done i => some ⟨i, storesTo buf r.stores, fun k => { k with console := r.console }⟩
    | _ => none

/-- `terminal_write` of as many bytes as it is asked for. -/
def terminalWrite (fd : Int) (data : Mem) (nbytes : Nat) (k : Kernel) : Int × Kernel :=
  if fd ≠ 1 then (-1, k)
  else
    (nbytes, { k with console := { k.console with
      screen := forLoop (fun i => Screen.putcTerminal (data i)) nbytes k.console.screen } })

/-! ### Jump tables -/

/-- What happens while a read waits. -/
structure ReadEnv where
  events : List ReadEvent
  tick : Bool

namespace FdOps

/-- `file_op_ptr->open_ptr`; a call through another pointer is not followed. -/
def openPtr (img : Image) (filename : CString) (k : Kernel) : FdOps → Option (Int × Kernel)
  | .rtcTable => some (rtcOpen k)
  | .dirTable => dirOpen img filename k
  | .fileTable => fileOpen img filename k
  | .terminalTable => some (terminalOpen k)
  | .null | .wild => none

/-- `file_op_ptr->close_ptr`. -/
def closePtr (fd : Int) (k : Kernel) : FdOps → Option (Int × Kernel)
  | .rtcTable => some (rtcClose fd k)
  | .dirTable => some (dirClose fd k)
  | .fileTable => some (fileClose fd k)
  | .terminalTable => some (terminalClose fd k)
  | .null | .wild => none

/-- `file_op_ptr->read_ptr`. -/
def readPtr (img : Image) (fd : Int) (buf nbytes : Nat) (env : ReadEnv) (k : Kernel) :
    FdOps → Option ReadEffect
  | .rtcTable => rtcRead env.tick k
  | .dirTable => dirRead img fd buf nbytes k
  | .fileTable => some (fileRead img fd.toNat buf nbytes k)
  | .terminalTable => terminalRead fd buf env.events k
  | .null | .wild => none

/-- `file_write` and `dir_write` always fail. -/
def writePtr (fd : Int) (data : Mem) (nbytes : Nat) (k : Kernel) : FdOps → Option (Int × Kernel)
  | .rtcTable => some (rtcWrite data k)
  | .dirTable => some (-1, k)
  | .fileTable => some (-1, k)
  | .terminalTable => some (terminalWrite fd data nbytes k)
  | .null | .wild => none

end FdOps

/-! ### What the routines can do -/

theorem keeps_console (k : Kernel) {c : Console} (h : k.console.kbd.Ok → c.kbd.Ok) :
    Keeps k { k with console := c } :=
  ⟨⟨rfl, rfl, rfl, rfl, fun _ _ => rfl, .refl _, h⟩, id⟩

theorem rtcOpen_keeps {k : Kernel}
    (htable : (k.fd (firstFree k.cur.fileArray)).fileOpPtr = .rtcTable) : Keeps k (rtcOpen k).2 := by
  unfold rtcOpen
  simp only
  split_ifs with hfull
  · exact .globals k k.fs _
  · refine (Keeps.globals k k.fs _).trans (.setFd _ (firstFree_spec (by omega)).1 fun _ _ => ?_)
    exact FileDesc.ok_mk (htable.trans (by decide)) (by decide) (by decide) 0 0

theorem rtcWrite_keeps (data : Mem) (k : Kernel) : Keeps k (rtcWrite data k).2 := by
  unfold rtcWrite
  simp only
  split_ifs
  · exact .refl k
  · exact .refl k
  · exact .globals k k.fs _

/-- A keyboard stays as it should be during a whole call of `terminal_read`. -/
theorem reader_keyboard_ok {r : Reader} (h : r.console.kbd.Ok) (events : List ReadEvent) :
    (events.foldl Reader.step r).console.kbd.Ok := by
  induction events generalizing r with
  | nil => exact h
  | cons e events ih => exact ih (Reader.step_ok h e)

/-- The call never stores further than the line buffer is long. -/
theorem reader_stores_lt {r : Reader} (h : r.console.kbd.Ok)
    (hs : ∀ p ∈ r.stores, p.1 < keyBufSize) (events : List ReadEvent) :
    ∀ p ∈ (events.foldl Reader.step r).stores, p.1 < keyBufSize := by
  induction events generalizing r with
  | nil => exact hs
  | cons e events ih =>
      refine ih (Reader.step_ok h e) ?_
      cases e with
      | key input => exact hs
      | own =>
          simp only [Reader.step, Reader.own]
          cases r.pc with
          -- of all places only the copy loop stores, and it stays below the index
          | copy i =>
              simp only
              split_ifs with hi
              · intro p hp
                rcases List.mem_append.mp hp with hp | hp
                · exact hs p hp
                · rw [List.mem_singleton.mp hp]
                  exact lt_of_lt_of_le hi h.index_le
              · exact hs
          | poll =>
              simp only
              split_ifs <;> exact hs
          | clear | resetFlag i | finalClear i | done i => exact hs

/-- What `rtc_read` does if it returns. -/
theorem rtcRead_some {tick : Bool} {k : Kernel} {e : ReadEffect} (h : rtcRead tick k = some e) :
    e = ⟨0, [], fun k => { k with rtc := { k.rtc with rtcInterrupt := 0 } }⟩ := by
  unfold rtcRead at h
  split_ifs at h
  exact (Option.some.inj h).symm

/-- What `terminal_read` does if it returns: refuse, or deliver what the call has
copied. -/
theorem terminalRead_cases {fd : Int} {buf : Nat} {events : List ReadEvent} {k : Kernel}
    {e : ReadEffect} (h : terminalRead fd buf events k = some e) :
    e = .refused ∨
      (fd = 0 ∧ ∃ i : Nat,
        e = ⟨i, storesTo buf (events.foldl Reader.step (Reader.call k.console)).stores,
          fun k' => { k' with
            console := (events.foldl Reader.step (Reader.call k.console)).console }⟩) := by
  unfold terminalRead at h
  split_ifs at h with hfd
  · exact .inl (Option.some.inj h).symm
  · simp only at h
    split at h
    · exact .inr ⟨not_not.mp hfd, _, (Option.some.inj h).symm⟩
    · cases h

theorem terminalRead_keeps {fd : Int} {buf : Nat} {events : List ReadEvent} {k : Kernel}
    {e : ReadEffect} (h : terminalRead fd buf events k = some e) : Keeps k (e.after k) := by
  obtain rfl | ⟨-, ret, rfl⟩ := terminalRead_cases h
  · exact .refl k
  · exact keeps_console k fun hk => reader_keyboard_ok (r := Reader.call k.console) hk events

theorem terminalWrite_keeps (fd : Int) (data : Mem) (nbytes : Nat) (k : Kernel) :
    Keeps k (terminalWrite fd data nbytes k).2 := by
  unfold terminalWrite
  split_ifs
  · exact .refl k
  · exact keeps_console k id

namespace FdOps

/-- An open routine called through the table that `sys_open_c` has put into the
first free descriptor. -/
theorem openPtr_keeps {img : Image} {filename : CString} {k k' : Kernel} {ret : Int} {ops : FdOps}
    (h : ops.openPtr img filename k = some (ret, k'))
    (htable : (k.fd (firstFree k.cur.fileArray)).fileOpPtr = ops) : Keeps k k' := by
  cases ops with
  | null | wild => cases h
  | rtcTable =>
      have hk := rtcOpen_keeps htable
      rwa [Option.some.inj h] at hk
  | dirTable =>
      refine openEntry_keeps h fun inode => ?_
      exact FileDesc.ok_mk (htable.trans (by decide)) (by decide) (by decide) inode 0
  | fileTable =>
      refine openEntry_keeps h fun inode => ?_
      exact FileDesc.ok_mk (htable.trans (by decide)) (by decide) (by decide) inode 0
  | terminalTable =>
      obtain ⟨-, rfl⟩ := Prod.mk.inj (Option.some.inj h)
      exact keeps_console k Keyboard.Ok.keyboardEnvironment

/-- A close routine called on one of the descriptors 2 to 7. -/
theorem closePtr_keeps {fd : Int} {k k' : Kernel} {ret : Int} {ops : FdOps} (h2 : 2 ≤ fd)
    (h : ops.closePtr fd k = some (ret, k')) : Keeps k k' := by
  cases ops with
  | null | wild => cases h
  | rtcTable =>
      have hk := closeFd_keeps rtcFile fd k
      rwa [show closeFd rtcFile fd k = (ret, k') from Option.some.inj h] at hk
  | dirTable =>
      have hk := closeFd_keeps dirFile fd k
      rwa [show closeFd dirFile fd k = (ret, k') from Option.some.inj h] at hk
  | fileTable =>
      have hk := fileClose_keeps fd k
      rwa [show fileClose fd k = (ret, k') from Option.some.inj h] at hk
  | terminalTable =>
      have hrefuse : terminalClose fd k = (-1, k) := by
        rw [terminalClose, if_pos (.inr (by omega))]
      obtain ⟨-, rfl⟩ := Prod.mk.inj ((Option.some.inj h).symm.trans hrefuse)
      exact .refl _

/-- A read called through the table of the descriptor it reads. -/
theorem readPtr_keeps {img : Image} {fd : Int} {buf nbytes : Nat} {env : ReadEnv} {k : Kernel}
    {ops : FdOps} {e : ReadEffect} (hfd : 0 ≤ fd ∧ fd < 8)
    (h : ops.readPtr img fd buf nbytes env k = some e)
    (hfile : ops = .fileTable → 2 ≤ fd) : Keeps k (e.after k) := by
  cases ops with
  | null | wild => cases h
  | rtcTable =>
      obtain rfl := rtcRead_some h
      exact .globals k k.fs _
  | dirTable => exact dirRead_keeps h
  | fileTable =>
      obtain rfl := Option.some.inj h
      have h2 := hfile rfl
      exact fileRead_keeps img (by omega) (by omega) buf nbytes k
  | terminalTable => exact terminalRead_keeps h

theorem writePtr_keeps {fd : Int} {data : Mem} {nbytes : Nat} {k k' : Kernel} {ret : Int}
    {ops : FdOps} (h : ops.writePtr fd data nbytes k = some (ret, k')) : Keeps k k' := by
  cases ops with
  | null | wild => cases h
  | rtcTable =>
      have hk := rtcWrite_keeps data k
      rwa [Option.some.inj h] at hk
  | dirTable | fileTable =>
      obtain ⟨-, rfl⟩ := Prod.mk.inj (Option.some.inj h)
      exact .refl _
  | terminalTable =>
      have hk := terminalWrite_keeps fd data nbytes k
      rwa [Option.some.inj h] at hk

end FdOps

end LinuxBasedOs
