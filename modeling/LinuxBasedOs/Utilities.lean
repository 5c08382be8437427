/-
LinuxBasedOs/Utilities.lean

The user programs `cat` and `ls` (ece391cat.c, ece391ls.c), run on the kernel.

Both read until a read returns 0, and write what they have got.  What they show follows
from the descriptor that they read from: a regular file is a stream, the directory lists one
name for each read, the RTC delivers nothing, and an entry of an unknown type is open in
name only, so that the first read fails.

* `cat_shows` — for every name, what `cat` shows and returns;
* `ls_shows` — `ls` shows one line for each entry.

Whatever keys are pressed and whenever the clock ticks in the meantime.  Only `cat` of the
RTC needs the clock to tick at all: `rtc_read` waits for it.

A lookup may store behind `filename_buf` (see `Frames`), and what is there depends on the
kernel image.  `cat_shows` therefore asks that the names of all lookups, those before the
start of `cat` included, stay in the buffer, and says that nothing has been stored behind it.
-/
import LinuxBasedOs.Display
import LinuxBasedOs.Grep

namespace LinuxBasedOs

open Bytes Transition Interaction
open Grep (text)

/-! ### The programs -/

namespace User

/-- One round of the loop of `cat`; `.inr` is a return. -/
def catRound (fd : Int) (buf : Nat) (m : Mem) : Program (Mem ⊕ Int) := do
  let (cnt, m) ← ece391Read fd buf (1024 : Nat) m
  if cnt = 0 then pure (.inr 0)
  else if cnt = -1 then
    ece391Fdputs 1 (text "file read failed\n")
    pure (.inr 3)
  else
    let written ← ece391Write 1 buf cnt m
    if written = -1 then pure (.inr 3) else pure (.inl m)

/-- `main` of ece391cat.c, with its array at `buf`. -/
def cat (fuel buf : Nat) (m : Mem) : Program (Option Int) := do
  let (ret, m) ← ece391Getargs buf (1024 : Nat) m
  if ret ≠ 0 then
    ece391Fdputs 1 (text "could not read arguments\n")
    pure (some 3)
  else
    let fd ← ece391Open buf (stringAt m buf)
    if fd = -1 then
      ece391Fdputs 1 (text "file not found\n")
      pure (some 2)
    else Prog.loop (catRound fd buf) fuel m

/-- `SBUFSIZE`. -/
def sbufSize : Nat := 33

/-- One round of the loop of `ls`. -/
def lsRound (fd : Int) (buf : Nat) (m : Mem) : Program (Mem ⊕ Int) := do
  let (cnt, m) ← ece391Read fd buf (sbufSize - 1 : Nat) m
  if cnt = 0 then pure (.inr 0)
  else if cnt = -1 then
    ece391Fdputs 1 (text "directory entry read failed\n")
    pure (.inr 3)
  else
    -- buf[cnt] = '\n'
    let m := Function.update m ((buf + cnt.toNat) % 2 ^ 32) 10
    let written ← ece391Write 1 buf (cnt + 1) m
    if written = -1 then pure (.inr 3) else pure (.inl m)

/-- The name `.`, under which the directory lists itself. -/
def dotName : CString := ⟨[0x2E], List.forall_mem_singleton.mpr (by decide)⟩

/-- `main` of ece391ls.c. -/
def ls (fuel buf : Nat) (m : Mem) : Program (Option Int) := do
  let fd ← ece391Open literalAddr dotName
  if fd = -1 then
    ece391Fdputs 1 (text "directory open failed\n")
    pure (some 2)
  else Prog.loop (lsRound fd buf) fuel m

end User

/-! ### What they are for -/

/-- The names of the entries, up to one without a name. -/
def Image.names (img : Image) : List (List UInt8) :=
  ((List.range img.nDirEntries).map img.listed).takeWhile (· ≠ [])

/-- What `cat` should show for an entry, and what it should return. -/
def Image.catOf (img : Image) : Option Nat → List UInt8 × Int
  | none => (text "file not found\n", 2)
  | some e =>
      if img.dentryType e = regFile then (img.content (img.dentryInode e), 0)
      else if img.dentryType e = dirFile then (img.names.flatten, 0)
      else if img.dentryType e = rtcFile then ([], 0)
      else (text "file read failed\n", 3)

/-- The same for the arguments of the command. -/
def Image.catArgs (img : Image) (args : List UInt8) : List UInt8 × Int :=
  if args = [] then (text "could not read arguments\n", 3) else img.catOf (img.entryOf args)

/-- What `ls` should show and return, if there is nothing but a directory under the name
that it opens. -/
def Image.ls (img : Image) : List UInt8 × Int :=
  if img.entryOf [0x2E] = none then (text "directory open failed\n", 2)
  else ((img.names.map (· ++ [10])).flatten, 0)

variable {L : Layout} {img : Image} {k : Kernel}

/-! ### Calls of the programs -/

/-- What happens during a read is as `P` says. -/
def Reads (P : ReadEnv → Prop) (w : Around) (_ : Kernel) (_ : Call) : Prop := P w.readEnv

/-- An interrupt of the RTC comes while `rtc_read` waits for one. -/
def Ticks (env : ReadEnv) : Prop := env.tick = true

namespace User

/-- A text of the program, which lies in its page. -/
theorem wins_fdputs {ok : Around → Kernel → Call → Prop} (h : k.Running L) {s : List UInt8}
    (hs : BufferInPage literalAddr s.length) :
    Wins (Call.answer img) ok (ece391Fdputs 1 s) k fun _ d t => shown d = s ∧ k.Aside t := by
  refine (wins_output h (by decide) hs fun i => s.getD i 0).bind fun o d t ho => ?_
  refine ⟨?_, ho.2.2⟩
  rw [List.append_nil, ho.2.1]
  refine List.ext_getElem (by simp) fun i h₁ h₂ => ?_
  rw [List.getElem_map, List.getElem_range, List.getD_eq_getElem _ _ h₂]

theorem map_range_of_holds {m : Mem} {bs : List UInt8} (h : Holds m 0 bs) :
    (List.range bs.length).map m = bs := by
  refine List.ext_getElem (by simp) fun i h₁ h₂ => ?_
  rw [List.getElem_map, List.getElem_range, ← h i h₂, Nat.zero_add]

theorem wins_write {ok : Around → Kernel → Call → Prop} (h : k.Running L) {buf : Nat}
    {m : Mem} {bs : List UInt8} (hne : buf ≠ 0) (hbuf : BufferInPage buf bs.length)
    (hbs : Holds (memAt m buf) 0 bs) :
    Wins (Call.answer img) ok (ece391Write 1 buf bs.length m) k fun r d t =>
      r = bs.length ∧ shown d = bs ∧ k.Aside t := by
  refine (wins_output h hne hbuf (memAt m buf)).bind fun o d t ho => ?_
  refine ⟨ho.1, ?_, ho.2.2⟩
  rw [List.append_nil, ho.2.1]
  exact map_range_of_holds hbs

/-- A read from a descriptor that is not in use. -/
theorem wins_read_refused {ok : Around → Kernel → Call → Prop} (h : k.Running L) {i : Nat}
    (hfree : ¬ (k.fd i).InUse) (buf : Nat) (nbytes : Int) (m : Mem) :
    Wins (Call.answer img) ok (ece391Read i buf nbytes m) k fun r d t =>
      r.1 = -1 ∧ shown d = [] ∧ k.Aside t := by
  refine (wins_call (Q := fun o t => o.value = -1 ∧ k.Aside t) fun w t _ hafter => ?_).bind ?_
  · have ht := hafter.aside
    have hcur := (h.keeps ht.keeps).inv.curPcb_ne (h.keeps ht.keeps).running
    have hno : ¬ ReadAccepted i buf nbytes t := by
      intro ha
      have huse := ha.inUse
      rw [Int.toNat_natCast, ht.fd] at huse
      exact hfree huse
    refine ⟨⟨.ret (-1), []⟩, t, ?_, rfl, ht⟩
    refine Call.taken_eq_some.mpr ⟨?_, List.forall_mem_nil _, trivial⟩
    show Option.map _ (sysReadC img i buf nbytes w.readEnv t) = _
    rw [sysReadC, sysReadEffect_refused hcur hno]
    rfl
  · rintro o d t ⟨rfl, hvalue, ht⟩
    exact ⟨hvalue, rfl, ht⟩

/-! ### Reading to the end -/

/-- A descriptor that is read to its end by reads of `nbytes` bytes: `I n got k` says that
`got` has come from it so far, and that it will deliver at most `n` times more; `All got`,
that this has been all; and `P`, what must happen during a read for it to return. -/
structure Source (L : Layout) (img : Image) (P : ReadEnv → Prop) (fd : Int) (buf : Nat) (nbytes : Int)
    (I : Nat → List (List UInt8) → Kernel → Prop) (All : List (List UInt8) → Prop) : Prop where
  running : ∀ {n got k}, I n got k → k.Running L
  aside : ∀ {n got k t}, I n got k → k.Aside t → I n got t
  read : ∀ {n got k} (env : ReadEnv), I n got k → P env → ∃ bs t,
    Gives img k fd buf nbytes env bs t ∧ (bs.length : Int) ≤ nbytes ∧
      if bs = [] then All got else ∃ j < n, I j (got ++ [bs]) t

variable {P : ReadEnv → Prop} {fd : Int} {buf : Nat} {I : Nat → List (List UInt8) → Kernel → Prop}
  {All : List (List UInt8) → Prop}

/-- A round of a program that reads from a source, and shows `f bs` for what it gets. -/
def Shows (img : Image) (P : ReadEnv → Prop) (I : Nat → List (List UInt8) → Kernel → Prop)
    (All : List (List UInt8) → Prop) (f : List UInt8 → List UInt8)
    (round : Mem → Program (Mem ⊕ Int)) : Prop :=
  ∀ n got k (m : Mem), I n got k → Wins (Call.answer img) (Reads P) (round m) k fun r d t =>
    k.BufferKept t ∧ match r with
    | .inl _ => ∃ bs, (∃ j < n, I j (got ++ [bs]) t) ∧ shown d = f bs
    | .inr v => v = 0 ∧ All got ∧ shown d = []

/-- **Until the end of the source**: everything that it delivers is shown. -/
theorem wins_source {f : List UInt8 → List UInt8} {round : Mem → Program (Mem ⊕ Int)}
    (hround : Shows img P I All f round) {n fuel : Nat} (hfuel : n < fuel) (h : I n [] k) (m : Mem) :
    Wins (Call.answer img) (Reads P) (Prog.loop round fuel m) k fun r d t =>
      r = some 0 ∧ k.BufferKept t ∧ ∃ got, All got ∧ shown d = (got.map f).flatten := by
  refine (wins_loop
    (I := fun n _ d t => k.BufferKept t ∧ ∃ got, I n got t ∧ shown d = (got.map f).flatten)
    (Q := fun v d t => v = 0 ∧ k.BufferKept t ∧ ∃ got, All got ∧ shown d = (got.map f).flatten)
    (d := []) ?_ hfuel ⟨.of_eq rfl, [], h, rfl⟩).mono ?_
  · rintro n m d t ⟨hkept, got, hgot, hd⟩
    refine (hround n got t m hgot).mono fun r d' u ⟨hkept', hr⟩ => ?_
    have hkept := hkept.trans hkept'
    cases r with
    | inl m' =>
        obtain ⟨bs, ⟨j, hj, hI⟩, hd'⟩ := hr
        refine ⟨j, hj, hkept, got ++ [bs], hI, ?_⟩
        simp only [shown_append, hd, hd', List.map_append, List.flatten_append, List.map_cons,
          List.map_nil, List.flatten_singleton]
    | inr v =>
        obtain ⟨rfl, hall, hd'⟩ := hr
        refine ⟨rfl, hkept, got, hall, ?_⟩
        rw [shown_append, hd, hd', List.append_nil]
  · rintro r d t ⟨v, rfl, rfl, hkept, hd⟩
    exact ⟨rfl, hkept, hd⟩

/-- A read from a source. -/
theorem wins_read_source {nbytes : Int} (hI : Source L img P fd buf nbytes I All) {n : Nat}
    {got : List (List UInt8)} (hgot : I n got k) (m : Mem) :
    Wins (Call.answer img) (Reads P) (ece391Read fd buf nbytes m) k fun r d t =>
      ∃ bs, r.1 = bs.length ∧ Holds (memAt r.2 buf) 0 bs ∧ shown d = [] ∧ k.BufferKept t ∧
        (bs.length : Int) ≤ nbytes ∧ if bs = [] then All got else ∃ j < n, I j (got ++ [bs]) t := by
  refine wins_read m fun w t hw ht => ?_
  obtain ⟨bs, u, hgives, hle, hnext⟩ := hI.read w.readEnv (hI.aside hgot ht.aside) hw
  exact ⟨bs, u, hgives, ht.aside.bufferKept.trans hgives.bufferKept, hle, hnext⟩

/-- `cat` shows what it gets. -/
theorem catRound_shows (hbuf : BufferInPage buf 1024)
    (hI : Source L img P fd buf (1024 : Nat) I All) : Shows img P I All id (catRound fd buf) := by
  intro n got k m hgot
  refine (wins_read_source hI hgot m).bind ?_
  rintro ⟨cnt, m'⟩ d t ⟨bs, hcnt, hholds, hd, hkept, hle, hnext⟩
  obtain rfl : cnt = bs.length := hcnt
  by_cases hbs : bs = []
  · subst hbs
    exact ⟨hkept, rfl, hnext, by rw [shown_append, hd]; rfl⟩
  · rw [if_neg hbs] at hnext
    obtain ⟨j, hj, hnext⟩ := hnext
    have hpos := List.length_pos_iff.mpr hbs
    have h0 : ¬ (bs.length : Int) = 0 := by omega
    have h1 : ¬ (bs.length : Int) = -1 := by omega
    simp only [if_neg h0, if_neg h1]
    refine (wins_write (hI.running hnext) (hbuf.ne_zero (by decide)) (hbuf.mono (by omega))
      hholds).bind ?_
    rintro r d' u ⟨rfl, hd', hu⟩
    rw [if_neg h1]
    refine ⟨hkept.trans hu.bufferKept, bs, ⟨j, hj, hI.aside hnext hu⟩, ?_⟩
    rw [List.append_nil, shown_append, hd, hd']
    rfl

/-- A byte behind the bytes that memory holds. -/
theorem holds_concat {m : Mem} {bs : List UInt8} (h : Holds (memAt m buf) 0 bs)
    (hlen : bs.length < 2 ^ 32) (b : UInt8) :
    Holds (memAt (Function.update m ((buf + bs.length) % 2 ^ 32) b) buf) 0 (bs ++ [b]) := by
  intro i hi
  rw [List.length_append, List.length_singleton] at hi
  rw [Nat.zero_add, memAt, Function.update_apply]
  by_cases hlast : i = bs.length
  · subst hlast
    rw [if_pos rfl, List.getElem_append_right le_rfl]
    simp
  · have hi' : i < bs.length := by omega
    rw [if_neg (by omega), List.getElem_append_left hi', ← h i hi', Nat.zero_add, memAt]

/-- `ls` shows it with a newline. -/
theorem lsRound_shows (hbuf : BufferInPage buf sbufSize)
    (hI : Source L img P fd buf (sbufSize - 1 : Nat) I All) :
    Shows img P I All (· ++ [10]) (lsRound fd buf) := by
  intro n got k m hgot
  refine (wins_read_source hI hgot m).bind ?_
  rintro ⟨cnt, m'⟩ d t ⟨bs, hcnt, hholds, hd, hkept, hle, hnext⟩
  obtain rfl : cnt = bs.length := hcnt
  by_cases hbs : bs = []
  · subst hbs
    exact ⟨hkept, rfl, hnext, by rw [shown_append, hd]; rfl⟩
  · rw [if_neg hbs] at hnext
    obtain ⟨j, hj, hnext⟩ := hnext
    have hpos := List.length_pos_iff.mpr hbs
    have h0 : ¬ (bs.length : Int) = 0 := by omega
    have h1 : ¬ (bs.length : Int) = -1 := by omega
    simp only [if_neg h0, if_neg h1, Int.toNat_natCast]
    have hlen : (bs.length : Int) + 1 = ((bs ++ [10]).length : Nat) := by simp
    -- a name has at most 32 bytes, and the newline goes to the last byte of the array
    have hroom : (bs ++ [10]).length ≤ sbufSize := by
      rw [List.length_append, List.length_singleton]
      simp only [sbufSize] at hle ⊢
      omega
    have hsmall : bs.length < 2 ^ 32 := by
      simp only [sbufSize] at hle
      omega
    rw [hlen]
    refine (wins_write (hI.running hnext) (hbuf.ne_zero (by decide)) (hbuf.mono hroom)
      (holds_concat hholds hsmall 10)).bind ?_
    rintro r d' u ⟨rfl, hd', hu⟩
    rw [if_neg (by omega)]
    refine ⟨hkept.trans hu.bufferKept, bs, ⟨j, hj, hI.aside hnext hu⟩, ?_⟩
    rw [List.append_nil, shown_append, hd, hd', List.nil_append]

/-! ### The sources -/

theorem source_file {inode i : Nat} (hf : img.FileOk inode) (hi : i < 8) {n : Nat} (hn : 0 < n)
    (hbuf : BufferInPage buf n) :
    Source L img P i buf n
      (fun left got k => k.Running L ∧ (k.fd i).Streaming img inode got.flatten ∧
        left = img.fileLength inode - got.flatten.length)
      (fun got => got.flatten = img.content inode) where
  running h := h.1
  aside h ht := ⟨h.1.keeps ht.keeps, by rw [ht.fd]; exact h.2.1, h.2.2⟩
  read := by
    rintro left got k env ⟨hrun, hstream, rfl⟩ -
    obtain ⟨t, hgives, ht, hnew, -⟩ := gives_file hrun hf hi hstream hbuf hn env
    have hlen := img.length_next inode got.flatten n
    refine ⟨_, t, hgives, by omega, ?_⟩
    split_ifs with hend
    · -- nothing is left
      rw [hend, List.length_nil] at hlen
      have hle := hstream.length_le
      refine hstream.initial.eq_of_length ?_
      rw [Image.length_content]
      omega
    · have hpos := List.length_pos_iff.mpr hend
      refine ⟨_, ?_, ht, ?_, rfl⟩
      · rw [List.flatten_append, List.flatten_singleton, List.length_append]
        omega
      · rw [List.flatten_append, List.flatten_singleton]
        exact hnew

/-- The first `j` names, if none of them is empty. -/
def FirstNames (img : Image) (j : Nat) (got : List (List UInt8)) : Prop :=
  got = (List.range j).map img.listed ∧ ∀ i < j, img.listed i ≠ []

theorem FirstNames.eq_names {j : Nat} {got : List (List UInt8)} (h : FirstNames img j got)
    (hend : img.listed j = []) : got = img.names := by
  have hj : j ≤ img.nDirEntries := by
    by_contra hlt
    refine h.2 img.nDirEntries (by omega) ?_
    rw [Image.listed, if_neg (lt_irrefl _)]
  obtain ⟨r, hr⟩ := Nat.exists_eq_add_of_le hj
  have hall : ∀ bs ∈ (List.range j).map img.listed, decide (bs ≠ []) = true := by
    intro bs hbs
    obtain ⟨i, hi, rfl⟩ := List.mem_map.mp hbs
    exact decide_eq_true (h.2 i (List.mem_range.mp hi))
  rw [Image.names, hr, List.range_add, List.map_append, List.takeWhile_append_of_pos hall, h.1]
  cases r with
  | zero => simp
  | succ r =>
      rw [List.range_succ_eq_map, List.map_cons, List.map_cons, Nat.add_zero, hend,
        List.takeWhile_cons_of_neg (by simp), List.append_nil]

theorem source_dir (hn63 : img.nDirEntries ≤ 63) {i : Nat} (hi : i < 8) {n : Nat} (hn : 32 ≤ n)
    (hbuf : BufferInPage buf 33) :
    Source L img P i buf n
      (fun left got k => k.Running L ∧ (k.fd i).Listing img got.length ∧
        FirstNames img got.length got ∧ left = img.nDirEntries - got.length)
      (fun got => got = img.names) where
  running h := h.1
  aside h ht := ⟨h.1.keeps ht.keeps, by rw [ht.fd]; exact h.2.1, h.2.2⟩
  read := by
    rintro left got k env ⟨hrun, hlisting, hnames, rfl⟩ -
    obtain ⟨t, hgives, ht, hnew, -⟩ := gives_dir hn63 hrun hi hlisting hn hbuf env
    refine ⟨_, t, hgives, ?_, ?_⟩
    · rw [Image.listed]
      split_ifs
      · have hname := img.length_name_le (got.length + 1)
        simp only [nameLen] at hname
        omega
      · simp
    -- the names have all been shown exactly if the next one is empty
    split_ifs with hend
    · exact hnames.eq_names hend
    · have hlt : got.length < img.nDirEntries := by
        by_contra hlt
        exact hend (if_neg hlt)
      have hlen : (got ++ [img.listed got.length]).length = got.length + 1 := by simp
      refine ⟨img.nDirEntries - (got.length + 1), by omega, ht, by rw [hlen]; exact hnew, ?_,
        by rw [hlen]⟩
      rw [hlen]
      refine ⟨?_, fun i hi => ?_⟩
      · rw [List.range_succ, List.map_append, ← hnames.1]
        rfl
      · rcases Nat.lt_succ_iff_lt_or_eq.mp hi with hi | rfl
        · exact hnames.2 i hi
        · exact hend

/-- A descriptor of the RTC. -/
def ClockFd (d : FileDesc) : Prop := d.InUse ∧ d.fileOpPtr = .rtcTable

/-- The RTC delivers nothing, after a while. -/
theorem gives_rtc (img : Image) (h : k.Running L) {i : Nat} (hi : i < 8) (hd : ClockFd (k.fd i))
    (hbuf : buf ≠ 0) (n : Nat) {env : ReadEnv} (htick : env.tick = true) :
    ∃ t, Gives img k i buf n env [] t ∧ k.Aside t := by
  have hacc : ReadAccepted i buf n k :=
    ⟨by omega, by omega, hbuf, by omega, h.inv.curPcb_ne h.running, hd.1⟩
  have heffect : sysReadEffect img i buf n env k = rtcRead env.tick k := by
    rw [sysReadEffect_accepted hacc, Int.toNat_natCast, Int.toNat_natCast, hd.2]
    rfl
  refine ⟨{ k with rtc := { k.rtc with rtcInterrupt := 0 } }, ⟨[], .inl rfl, ?_⟩,
    k.console, _, rfl, id⟩
  show Option.map _ (sysReadC img i buf n env k) = _
  rw [sysReadC, heffect, rtcRead, if_pos (.inr htick)]
  rfl

theorem source_rtc {i : Nat} (hi : i < 8) (hbuf : buf ≠ 0) (n : Nat) :
    Source L img Ticks i buf n (fun _ got k => k.Running L ∧ ClockFd (k.fd i) ∧ got = [])
      (fun got => got = []) where
  running h := h.1
  aside h ht := ⟨h.1.keeps ht.keeps, by rw [ht.fd]; exact h.2.1, h.2.2⟩
  read := by
    rintro left got k env ⟨hrun, hd, rfl⟩ htick
    obtain ⟨t, hgives, -⟩ := gives_rtc img hrun hi hd hbuf n htick
    exact ⟨[], t, hgives, by simp, rfl⟩

/-! ### cat -/

theorem stringAt_of_holds {m : Mem} {bs : List UInt8} (h : Holds (memAt m buf) 0 (bs ++ [0]))
    (hnz : ∀ b ∈ bs, b ≠ 0) (hlen : bs.length < 2 ^ 32) : (stringAt m buf).bytes = bs := by
  have hcongr : string (memAt m buf) (2 ^ 32) = string (fun i => bs.getD i 0) (2 ^ 32) := by
    refine string_congr fun j _ hbefore => ?_
    have hj : j ≤ bs.length := by
      by_contra hlt
      exact hbefore bs.length (by omega) (List.getD_eq_default _ _ le_rfl)
    have hbyte := h j (by rw [List.length_append, List.length_singleton]; omega)
    rw [Nat.zero_add] at hbyte
    rw [hbyte, ← List.getD_eq_getElem _ 0]
    by_cases hlast : j < bs.length
    · rw [List.getD_append _ _ _ _ hlast]
    · obtain rfl : j = bs.length := by omega
      simp
  show string (memAt m buf) (2 ^ 32) = bs
  rw [hcongr, string, stringFrom_getD hnz, List.drop_zero, List.take_of_length_le hlen.le]

/-- The first read fails. -/
theorem cat_unknown (h : k.Running L) {i : Nat} (hfree : ¬ (k.fd i).InUse) {fuel : Nat}
    (hfuel : 0 < fuel) (m : Mem) :
    Wins (Call.answer img) (Reads P) (Prog.loop (catRound i buf) fuel m) k fun r d t =>
      r = some 3 ∧ shown d = text "file read failed\n" ∧ k.BufferKept t := by
  refine (wins_loop (I := fun _ _ d t => d = [] ∧ t = k)
    (Q := fun v d t => v = 3 ∧ shown d = text "file read failed\n" ∧ k.BufferKept t) (d := []) ?_
    hfuel ⟨rfl, rfl⟩).mono ?_
  · rintro n m d _ ⟨rfl, rfl⟩
    refine (wins_read_refused h hfree buf (1024 : Nat) m).bind ?_
    rintro ⟨cnt, m'⟩ d t ⟨hcnt, hd, ht⟩
    obtain rfl : cnt = -1 := hcnt
    refine (wins_fdputs (h.keeps ht.keeps) (by decide +kernel)).bind ?_
    rintro - d' u ⟨hd', hu⟩
    refine ⟨rfl, ?_, (ht.trans hu).bufferKept⟩
    rw [List.nil_append, List.append_nil, shown_append, hd, hd', List.nil_append]
  · rintro r d t ⟨v, rfl, rfl, hd, hkept⟩
    exact ⟨rfl, hd, hkept⟩

/-- From the open on. -/
theorem cat_opened (hwf : img.WellFormed) (hn63 : img.nDirEntries ≤ 63) (h : k.Running L)
    (hfree : firstFree k.cur.fileArray = 2) (hbuf : BufferInPage buf 1024) {fuel : Nat}
    (hfuel : 1023 * fourKB < fuel) {m : Mem} {name : List UInt8}
    (hname : (stringAt m buf).bytes = name) (hlen : name.length + 1 ≤ 1024)
    (hwithin : img.NamesWithin name) :
    Wins (Call.answer img) (Reads Ticks)
      (do
        let fd ← ece391Open buf (stringAt m buf)
        if fd = -1 then
          ece391Fdputs 1 (text "file not found\n")
          pure (some 2)
        else Prog.loop (catRound fd buf) fuel m)
      k fun r d t => r = some (img.catOf (img.entryOf name)).2 ∧
        shown d = (img.catOf (img.entryOf name)).1 ∧ k.BufferKept t := by
  simp only [fourKB] at hfuel
  refine (wins_open hn63 h (hbuf.mono (by rw [hname]; exact hlen)) hfree (by decide)).bind ?_
  rintro fd d t ⟨hd, hopened⟩
  rw [hname] at hopened
  have hrunning := hopened.running
  have hkept := hopened.kept hwithin
  cases hentry : img.entryOf name with
  | none =>
      obtain rfl : fd = -1 := hopened.result hentry
      rw [if_pos rfl]
      refine (wins_fdputs hrunning (by decide +kernel)).bind ?_
      rintro - d' u ⟨hd', hu⟩
      refine ⟨rfl, ?_, hkept.trans hu.bufferKept⟩
      rw [List.append_nil, shown_append, hd, hd', List.nil_append]
      rfl
  | some e =>
      obtain ⟨rfl, hfd⟩ := hopened.result hentry
      rw [if_neg (by decide)]
      -- whatever is read, it is read to its end and shown
      have hcat (all : List UInt8) (hall : img.catOf (some e) = (all, 0)) {I All} (n : Nat)
          (hI : Source L img Ticks (2 : Nat) buf (1024 : Nat) I All) (hstart : I n [] t) (hn : n < fuel)
          (hAll : ∀ got, All got → got.flatten = all) :
          Wins (Call.answer img) (Reads Ticks) (Prog.loop (catRound (2 : Nat) buf) fuel m) t
            fun r d' u => r = some (img.catOf (some e)).2 ∧
              shown (d ++ d') = (img.catOf (some e)).1 ∧ k.BufferKept u := by
        refine (wins_source (catRound_shows hbuf hI) hn hstart m).mono ?_
        rintro r d' u ⟨rfl, hkept', got, hgot, hd'⟩
        rw [hall, shown_append, hd, hd', List.map_id, hAll got hgot]
        exact ⟨rfl, rfl, hkept.trans hkept'⟩
      obtain ⟨⟨h1, hle⟩, -⟩ := Image.entryOf_eq_some_iff.mp hentry
      have hf : img.FileOk (img.dentryInode e) := hwf.fileOk (hwf.dentry_inode e h1 hle)
      by_cases hreg : img.dentryType e = regFile
      · rw [if_pos (by rw [hreg]; decide), Image.opened_file hreg] at hfd
        refine hcat _ (if_pos hreg) _ (source_file hf (by decide) (by decide) hbuf)
          ⟨hrunning, ?_, rfl⟩ ?_ fun got hgot => hgot
        · rw [hfd]
          exact FileDesc.streaming_start img (img.dentryInode e)
        · have hlen := hf.length_le
          simp only [fourKB] at hlen
          omega
      by_cases hdir : img.dentryType e = dirFile
      · rw [if_pos (by rw [hdir]; decide)] at hfd
        refine hcat _ (by rw [Image.catOf, if_neg hreg, if_pos hdir]) _
          (source_dir hn63 (by decide) (by decide) (hbuf.mono (by decide)))
          ⟨hrunning, ?_, ⟨rfl, by simp⟩, rfl⟩ (by omega) fun got hgot => by rw [hgot]
        rw [hfd]
        exact Image.opened_listing hdir
      by_cases hrtc : img.dentryType e = rtcFile
      · rw [if_pos (by rw [hrtc]; decide)] at hfd
        refine hcat _ (by rw [Image.catOf, if_neg hreg, if_neg hdir, if_pos hrtc]) 0
          (source_rtc (by decide) (hbuf.ne_zero (by decide)) 1024) ⟨hrunning, ?_, rfl⟩ (by omega)
          fun got hgot => by rw [hgot]; rfl
        rw [hfd]
        refine ⟨img.opened_inUse e, ?_⟩
        rw [Image.opened, hrtc]
        rfl
      · -- opened by `terminal_open`, which takes no descriptor: the first read fails
        have hbeyond : 2 < img.dentryType e := by
          simp only [regFile, dirFile, rtcFile] at hreg hdir hrtc
          omega
        rw [if_neg (Nat.not_le.mpr hbeyond)] at hfd
        refine (cat_unknown hrunning hfd (by omega) m).mono ?_
        rintro r d' u ⟨rfl, hd', hkept'⟩
        rw [Image.catOf, if_neg hreg, if_neg hdir, if_neg hrtc, shown_append, hd, hd']
        exact ⟨rfl, rfl, hkept.trans hkept'⟩

/-- `cat` from its start. -/
theorem cat_wins (hwf : img.WellFormed) (hn63 : img.nDirEntries ≤ 63) {command : CString}
    (h : k.Started L command) {word args : List UInt8} (hs : command.Splits word args)
    (hroom : word.length + 2 * args.length + 2 ≤ 1024) (hbuf : BufferInPage buf 1024) {fuel : Nat}
    (hfuel : 1023 * fourKB < fuel) (m : Mem) (hwithin : args ≠ [] → img.NamesWithin args) :
    Wins (Call.answer img) (Reads Ticks) (cat fuel buf m) k fun r d t =>
      r = some (img.catArgs args).2 ∧ shown d = (img.catArgs args).1 ∧ k.BufferKept t := by
  refine (wins_getargs h hs hbuf hroom m).bind ?_
  rintro ⟨ret, m'⟩ d t ⟨hret, hholds, hd, ht⟩
  have hrunning := h.toRunning.keeps ht.keeps
  -- without arguments `getargs` fails
  by_cases hargs : args = []
  · rw [if_pos hargs] at hret
    obtain rfl : ret = -1 := hret
    refine (wins_fdputs hrunning (by decide +kernel)).bind ?_
    rintro - d' u ⟨hd', hu⟩
    rw [Image.catArgs, if_pos hargs]
    refine ⟨rfl, ?_, (ht.trans hu).bufferKept⟩
    rw [List.append_nil, shown_append, hd, hd', List.nil_append]
  · rw [if_neg hargs] at hret
    obtain rfl : ret = 0 := hret
    have hnonzero : ∀ b ∈ args, b ≠ 0 := by
      intro b hb
      refine command.nonzero b ?_
      rw [hs.bytes]
      exact List.mem_append_right _ (List.mem_cons_of_mem _ hb)
    have hname := stringAt_of_holds hholds hnonzero (by omega)
    have hfree : firstFree t.cur.fileArray = 2 := by
      rw [ht.cur]
      exact h.firstFree
    refine (cat_opened hwf hn63 hrunning hfree hbuf hfuel hname (by omega) (hwithin hargs)).mono ?_
    rintro r d' u ⟨hr, hd', hkept⟩
    rw [Image.catArgs, if_neg hargs]
    refine ⟨hr, ?_, ht.bufferKept.trans hkept⟩
    rw [shown_append, hd, hd', List.nil_append]

/-- **`cat`**, started in any state that is reached from boot, with a command that fits into
its buffer.  No lookup has stored behind `filename_buf`, from boot to the end of `cat`. -/
theorem cat_shows (hwf : img.WellFormed) (hn63 : img.nDirEntries ≤ 63)
    {pcbs : Nat → Pcb} {screen : Screen} {rtc : Rtc} {es : List Event} {os : List Seen}
    {k₀ : Kernel}
    (hes : Along (step img) (fun k e => e.Fits img k) (.boot L pcbs screen rtc) es)
    (hrun : run (step img) (.boot L pcbs screen rtc) es = some (os, k₀))
    {command : CString} {env : ExecEnv}
    (hx : step img k₀ (.execute command env) = some (⟨.entered, []⟩, k))
    (hnames : ∀ e ∈ es ++ [.execute command env], e.NamesFit img)
    {word args : List UInt8} (hs : command.Splits word args)
    (hroom : word.length + 2 * args.length + 2 ≤ 1024) (hbuf : BufferInPage buf 1024) {fuel : Nat}
    (hfuel : 1023 * fourKB < fuel) (m : Mem) (hwithin : args ≠ [] → img.NamesWithin args)
    {happens : Nat → Around} (htick : ∀ n, (happens n).readEnv.tick = true) :
    Completes img (cat fuel buf m) happens k (img.catArgs args)
      (Kernel.boot L pcbs screen rtc).BufferKept := by
  have hstarted := started_execute (run_boot_inv hes hrun) hx
  have hbefore : (Kernel.boot L pcbs screen rtc).BufferKept k :=
    (run_bufferKept (fun e he => hnames e (List.mem_append_left _ he)) hrun).trans
      (step_bufferKept (hnames _ List.mem_concat_self) hx)
  have hcat := cat_wins hwf hn63 hstarted hs hroom hbuf hfuel m hwithin
  refine completes_of_wins hstarted.toRunning (hcat.mono fun r d t hr => ?_) htick
  exact ⟨hr.1, hr.2.1, hbefore.trans hr.2.2⟩

/-- The command `a a`. -/
def ownName : CString where
  bytes := [0x61, 0x20, 0x61]
  nonzero := by simp

/-- A key press and a tick of the clock before each call. -/
def busy (_ : Nat) : Around := ⟨[.key 0x1E, .tick], ⟨[], true⟩, fun _ => 0⟩

/-- The one name of `tinyImage` does not run on. -/
theorem tinyImage_namesWithin (name : List UInt8) : tinyImage.NamesWithin name where
  directory := by decide +kernel
  names _ d h1 hd _ := by
    obtain rfl : d = 1 := le_antisymm (hd.trans (by decide +kernel)) h1
    exact fun h => h 1 (by decide) (by decide +kernel)

/-- The forty bytes of `a`, while the key `a` is pressed again and again. -/
theorem cat_shows_a :
    let k := final (step tinyImage) tinyBoot [.execute ownName ⟨fun _ => 0, fun _ => 0, 0⟩]
    Completes tinyImage (cat (1023 * fourKB + 1) 0x8050000 fun _ => 0) busy k
      ([0x7F, 0x45, 0x4C, 0x46] ++ List.replicate 36 0, 0) tinyBoot.BufferKept := by
  intro k
  have hx : step tinyImage tinyBoot (.execute ownName ⟨fun _ => 0, fun _ => 0, 0⟩) =
      some (⟨.entered, []⟩, k) := step_final (by decide +kernel)
  have hs : ownName.Splits [0x61] [0x61] := ⟨rfl, by decide⟩
  have hcat : tinyImage.catArgs [0x61] = ([0x7F, 0x45, 0x4C, 0x46] ++ List.replicate 36 0, 0) := by
    decide +kernel
  have hrun : run (step tinyImage) tinyBoot [] = some ([], tinyBoot) := rfl
  rw [← hcat]
  have hnames : ∀ e ∈ [] ++ [Event.execute ownName ⟨fun _ => 0, fun _ => 0, 0⟩],
      e.NamesFit tinyImage := by
    intro e he
    rw [List.mem_singleton.mp he]
    exact tinyImage_namesWithin _
  exact cat_shows tinyImage_wellFormed (by decide +kernel) (by trivial) hrun hx hnames hs
    (by decide) (by decide) (Nat.lt_succ_self _) (fun _ => 0) (fun _ => tinyImage_namesWithin _)
    (fun _ => rfl)

/-! ### ls -/

theorem ls_wins (hn63 : img.nDirEntries ≤ 63) {command : CString} (h : k.Started L command)
    (hdot : ∀ e, img.entryOf [0x2E] = some e → img.dentryType e = dirFile)
    (hbuf : BufferInPage buf sbufSize) {fuel : Nat} (hfuel : img.nDirEntries < fuel) (m : Mem) :
    Wins (Call.answer img) (Reads P) (ls fuel buf m) k fun r d t =>
      r = some img.ls.2 ∧ shown d = img.ls.1 ∧ (img.NamesWithin [0x2E] → k.BufferKept t) := by
  refine (wins_open hn63 h.toRunning (by decide : BufferInPage literalAddr (dotName.bytes.length + 1))
    h.firstFree (by decide)).bind ?_
  rintro fd d t ⟨hd, hopened⟩
  have hrunning := hopened.running
  cases hentry : img.entryOf [0x2E] with
  | none =>
      obtain rfl : fd = -1 := hopened.result hentry
      rw [if_pos rfl, Image.ls, if_pos hentry]
      refine (wins_fdputs hrunning (by decide +kernel)).bind ?_
      rintro - d' u ⟨hd', hu⟩
      refine ⟨rfl, ?_, fun hdot => (hopened.kept hdot).trans hu.bufferKept⟩
      rw [List.append_nil, shown_append, hd, hd', List.nil_append]
  | some e =>
      obtain ⟨rfl, hfd⟩ := hopened.result hentry
      have hdir := hdot e hentry
      rw [if_pos (by rw [hdir]; decide)] at hfd
      rw [if_neg (by decide), Image.ls, if_neg (by rw [hentry]; exact Option.some_ne_none e)]
      -- the buffer asks for one byte less than it has, which is enough for any name
      have hI := source_dir (L := L) (P := P) hn63 (show 2 < 8 by decide) (n := sbufSize - 1)
        (by decide) hbuf
      refine (wins_source (lsRound_shows hbuf hI) hfuel ⟨hrunning, ?_, ⟨rfl, by simp⟩, rfl⟩ m).mono ?_
      · rw [hfd]
        exact Image.opened_listing hdir
      · rintro r d' u ⟨rfl, hkept, got, rfl, hd'⟩
        refine ⟨rfl, ?_, fun hdot => (hopened.kept hdot).trans hkept⟩
        rw [shown_append, hd, hd', List.nil_append]

/-- **`ls`**, started in any state that is reached from boot, whatever happens during its
reads. -/
theorem ls_shows (hn63 : img.nDirEntries ≤ 63)
    (hdot : ∀ e, img.entryOf [0x2E] = some e → img.dentryType e = dirFile)
    {pcbs : Nat → Pcb} {screen : Screen} {rtc : Rtc} {es : List Event} {os : List Seen}
    {k₀ : Kernel}
    (hes : Along (step img) (fun k e => e.Fits img k) (.boot L pcbs screen rtc) es)
    (hrun : run (step img) (.boot L pcbs screen rtc) es = some (os, k₀))
    {command : CString} {env : ExecEnv}
    (hx : step img k₀ (.execute command env) = some (⟨.entered, []⟩, k))
    (hbuf : BufferInPage buf sbufSize) {fuel : Nat} (hfuel : img.nDirEntries < fuel) (m : Mem)
    (happens : Nat → Around) :
    Completes img (ls fuel buf m) happens k img.ls fun t =>
      img.NamesWithin [0x2E] → k.BufferKept t := by
  have hstarted := started_execute (run_boot_inv hes hrun) hx
  exact completes_of_wins (P := fun _ => True) hstarted.toRunning
    (ls_wins (P := fun _ => True) hn63 hstarted hdot hbuf hfuel m) fun _ => trivial

/-- As `tinyImage`, with the directory as its first entry. -/
def dotImage : Image where
  byte i := ([(0, 2), (4, 1), (8, 1), (64, 0x2E), (96, 1), (128, 0x61), (160, 2), (4096, 40),
    (8192, 0x7F), (8193, 0x45), (8194, 0x4C), (8195, 0x46)].lookup i).getD 0

theorem ls_shows_a :
    let k := final (step dotImage) tinyBoot [tinyExecute]
    dotImage.NamesWithin [0x2E] ∧
      Completes dotImage (ls 3 0x8050000 fun _ => 0) busy k ([0x2E, 10, 0x61, 10], 0) fun t =>
        dotImage.NamesWithin [0x2E] → k.BufferKept t := by
  intro k
  have hx : step dotImage tinyBoot tinyExecute = some (⟨.entered, []⟩, k) :=
    step_final (by decide +kernel)
  have hls : dotImage.ls = ([0x2E, 10, 0x61, 10], 0) := by decide +kernel
  have hentry : dotImage.entryOf [0x2E] = some 1 := by decide +kernel
  have hrun : run (step dotImage) tinyBoot [] = some ([], tinyBoot) := rfl
  have hwithin : dotImage.NamesWithin [0x2E] := by
    refine ⟨by decide +kernel, fun _ d h1 hd _ => ?_⟩
    obtain rfl | rfl : d = 1 ∨ d = 2 := by
      have htwo : dotImage.nDirEntries = 2 := by decide +kernel
      omega
    · exact fun h => h 1 (by decide) (by decide +kernel)
    · exact fun h => h 1 (by decide) (by decide +kernel)
  rw [← hls]
  refine ⟨hwithin, ?_⟩
  refine ls_shows (by decide +kernel) (fun e he => ?_) (by trivial) hrun hx (by decide)
    (by decide +kernel) (fun _ => 0) busy
  obtain rfl := Option.some.inj (hentry.symm.trans he)
  decide +kernel

end User

end LinuxBasedOs
