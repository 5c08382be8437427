/-
LinuxBasedOs/Listing.lean

What a process gets from a directory, read by read.

A directory descriptor holds nothing but the number of entries listed so far.  The
name goes through the global `read_dentry`, which every lookup by index overwrites
and every close of a regular file clears, but each `dir_read` fills it afresh, so
that a listing depends on the descriptor's own reads only:

    the i-th read, counted from 0, returns `img.listed i`,

the name of entry i + 1, and nothing when there are no more entries.

The NUL behind a name is stored even when the name fills the buffer.  A read of 32
bytes into the last 32 bytes of the page therefore faults on a name of 32
characters; `dirRoom` is the room that a read really takes, and `dirRead_within_iff`
says for one call when that is no more than the buffer has.
-/
import LinuxBasedOs.Directory
import LinuxBasedOs.Stream

namespace LinuxBasedOs

open Bytes Transition

variable {L : Layout} {img : Image}

/-! ### One call of `dir_read` -/

/-- What a listing shows at position `pos`. -/
def Image.listed (img : Image) (pos : Nat) : List UInt8 :=
  if pos < img.nDirEntries then img.name (pos + 1) else []

/-- The bytes that `dir_read` stores at position `pos`: one more than the name has if
the name fits. -/
def dirRoom (img : Image) (pos nbytes : Nat) : Nat :=
  if img.nDirEntries ≤ pos then 0
  else if nbytes < (img.name (pos + 1)).length then nbytes
  else (img.name (pos + 1)).length + 1

theorem Image.length_listBytes {pos : Nat} (hpos : pos < img.nDirEntries) (nbytes : Nat) :
    (img.listBytes pos nbytes).length = dirRoom img pos nbytes := by
  rw [Image.listBytes, dirRoom, if_neg (not_le.mpr hpos), List.length_append, List.length_take]
  by_cases hlt : nbytes < (img.name (pos + 1)).length
  · rw [if_neg (not_le.mpr hlt), if_pos hlt, min_eq_left hlt.le]
    rfl
  · rw [if_pos (not_lt.mp hlt), if_neg hlt, min_eq_right (not_lt.mp hlt)]
    rfl

theorem readDentryByIndex_isSome (hn : img.nDirEntries ≤ 63) {pos : Nat}
    (hpos : pos < img.nDirEntries) (fs : FsGlobals) : ∃ r, readDentryByIndex img pos fs = some r := by
  obtain ⟨len, hlen⟩ := strlen_dentryName hn (pos + 1)
  rw [readDentryByIndex, if_neg (not_le.mpr hpos), hlen]
  exact ⟨_, rfl⟩

/-- **One `dir_read`** returns what is listed at the position, as far as it fits, and
moves on unless the directory has ended. -/
theorem dirRead_lists (hn : img.nDirEntries ≤ 63) {fd : Int} (h2 : 2 ≤ fd) (h8 : fd < 8) {buf : Nat}
    (hbuf : buf ≠ 0) (nbytes : Nat) {k : Kernel} (huse : (k.fd fd.toNat).InUse)
    (htype : (k.fd fd.toNat).flags.fileType = dirFile) :
    ∃ e tail, dirRead img fd buf nbytes k = some e ∧
      e.ret = ((img.listed (k.fd fd.toNat).filePos).take nbytes).length ∧
      e.stores =
        storesTo buf (storesAt 0 ((img.listed (k.fd fd.toNat).filePos).take nbytes ++ tail)) ∧
      ((img.listed (k.fd fd.toNat).filePos).take nbytes ++ tail).length =
        dirRoom img (k.fd fd.toNat).filePos nbytes ∧
      ((k.fd fd.toNat).filePos ≤ img.nDirEntries →
        (e.after k).fd fd.toNat =
          { k.fd fd.toNat with filePos := min ((k.fd fd.toNat).filePos + 1) img.nDirEntries }) := by
  rw [dirRead_eq img h2 h8 hbuf nbytes huse htype, Image.listed]
  -- at the end nothing is stored and the position stays
  by_cases hend : img.nDirEntries ≤ (k.fd fd.toNat).filePos
  · rw [if_pos hend, if_neg (not_lt.mpr hend), List.take_nil, dirRoom, if_pos hend]
    refine ⟨_, [], rfl, rfl, rfl, rfl, fun hle => ?_⟩
    rw [min_eq_right (by omega), le_antisymm hend hle]
    rfl
  · have hpos : (k.fd fd.toNat).filePos < img.nDirEntries := not_le.mp hend
    obtain ⟨r, hr⟩ := readDentryByIndex_isSome hn hpos k.fs
    rw [if_neg hend, if_pos hpos, hr]
    refine ⟨_, _, rfl, rfl, rfl, img.length_listBytes hpos nbytes, fun _ => ?_⟩
    have hmod : ((k.fd fd.toNat).filePos + 1) % 2 ^ 32 =
        min ((k.fd fd.toNat).filePos + 1) img.nDirEntries := by
      rw [min_eq_left (by omega), Nat.mod_eq_of_lt (by omega)]
    rw [← hmod]
    exact Kernel.fd_setFd _ _ _

/-! ### Reads with room -/

/-- The buffer of a read that the kernel's checks let through is in the program page,
with room for what the driver stores; for a directory, for exactly that. -/
def Event.Roomy (img : Image) (k : Kernel) : Event → Prop
  | .read fd buf nbytes _ =>
      ReadAccepted fd buf nbytes k →
        BufferInPage buf
          (if (k.fd fd.toNat).fileOpPtr = .dirTable
            then dirRoom img (k.fd fd.toNat).filePos nbytes.toNat
            else readRoom img fd nbytes.toNat k)
  | _ => True

instance (img : Image) (k : Kernel) (e : Event) : Decidable (e.Roomy img k) :=
  match e with
  | .read fd buf nbytes _ => inferInstanceAs (Decidable (ReadAccepted fd buf nbytes k →
      BufferInPage buf (if (k.fd fd.toNat).fileOpPtr = .dirTable
        then dirRoom img (k.fd fd.toNat).filePos nbytes.toNat
        else readRoom img fd nbytes.toNat k)))
  | .execute _ _ | .halt _ | .open _ | .close _ | .write _ _ _ _ | .key _ | .tick => isTrue trivial

/-- The driver call of a read that is let through to a directory. -/
theorem sysReadEffect_dir (img : Image) {k : Kernel} (h : k.Inv L) {fd : Int} {buf : Nat} {nbytes : Int}
    (ha : ReadAccepted fd buf nbytes k) (htable : (k.fd fd.toNat).fileOpPtr = .dirTable)
    (env : ReadEnv) :
    sysReadEffect img fd buf nbytes env k = dirRead img fd buf nbytes.toNat k ∧ 2 ≤ fd ∧
      (k.fd fd.toNat).flags.fileType = dirFile := by
  refine ⟨?_, (h.files ha.curPcb_ne).of_table ha.fd_nonneg ha.fd_lt ha.inUse (by decide) htable⟩
  rw [sysReadEffect_accepted ha, htable]
  rfl

theorem Event.Roomy.lands (hn : img.nDirEntries ≤ 63) {k : Kernel} (h : k.Inv L) {e : Event}
    (hroom : e.Roomy img k) : e.Lands img k := by
  cases e with
  | execute | halt | «open» | close | write | key | tick => trivial
  | read fd buf nbytes env =>
      -- a directory stores whole names, so the room needed is another one
      by_cases htable : (k.fd fd.toNat).fileOpPtr = .dirTable
      · intro eff heff
        rcases sysReadEffect_cases heff with rfl | ⟨ha, -⟩
        · exact fun q hq => absurd hq List.not_mem_nil
        · obtain ⟨hdir, h2, htype⟩ := sysReadEffect_dir img h ha htable env
          obtain ⟨e', tail, hread, -, hstores, hlen, -⟩ :=
            dirRead_lists hn h2 ha.fd_lt ha.buf_ne nbytes.toNat ha.inUse htype
          rw [hdir, hread] at heff
          obtain rfl := Option.some.inj heff
          have hpage := hroom ha
          rw [if_pos htable, ← hlen] at hpage
          rw [hstores]
          refine storesTo_inProgramPage hpage fun p hp => ?_
          have hlt := le_of_mem_storesAt hp
          omega
      · refine Event.ReadFits.lands (e := .read fd buf nbytes env) (fun ha => ?_) h.keyboard
        have hpage := hroom ha
        rw [if_neg htable] at hpage
        exact hpage

/-! ### Calls on the descriptor -/

/-- The descriptor is for a directory, and `m` reads have been made on it. -/
structure FileDesc.Listing (img : Image) (m : Nat) (d : FileDesc) : Prop where
  inUse : d.InUse
  table : d.fileOpPtr = .dirTable
  filePos : d.filePos = min m img.nDirEntries

theorem FileDesc.Listing.next {d : FileDesc} {m pos : Nat} (h : d.Listing img m)
    (hpos : pos = min (m + 1) img.nDirEntries) :
    ({ d with filePos := pos } : FileDesc).Listing img (m + 1) :=
  ⟨h.inUse, h.table, hpos⟩

/-- **One `sys_read_c` on a directory descriptor** shows the next entry. -/
theorem step_read_listing (hn63 : img.nDirEntries ≤ 63) {k : Kernel} (h : k.Inv L)
    (hn : 1 ≤ k.processNumber) {i m : Nat} (hi : i < 8) (hd : (k.fd i).Listing img m) {buf : Nat}
    (hbuf : buf ≠ 0) {nbytes : Int} (hbytes : 32 ≤ nbytes) (env : ReadEnv)
    (hroom : (Event.read i buf nbytes env).Roomy img k) :
    ∃ o t, step img k (.read i buf nbytes env) = some (o, t) ∧
      o.outcome = .ret (img.listed m).length ∧ o.bytesAt buf = img.listed m ∧
      (t.fd i).Listing img (m + 1) := by
  have ha : ReadAccepted i buf nbytes k :=
    ⟨by omega, by omega, hbuf, by omega, h.curPcb_ne hn, hd.inUse⟩
  have htable : (k.fd (i : Int).toNat).fileOpPtr = .dirTable := by
    rw [Int.toNat_natCast]
    exact hd.table
  obtain ⟨hdir, h2, htype⟩ := sysReadEffect_dir img h ha htable env
  obtain ⟨e, tail, hread, hret, hstores, hlen, hafter⟩ :=
    dirRead_lists hn63 h2 ha.fd_lt hbuf nbytes.toNat ha.inUse htype
  rw [Int.toNat_natCast] at hret hstores hlen hafter
  -- all of the name fits, and nothing is listed behind the end
  have hlisted : (img.listed (k.fd i).filePos).take nbytes.toNat = img.listed m := by
    have hpos : img.listed (k.fd i).filePos = img.listed m := by
      rw [hd.filePos, Image.listed, Image.listed]
      by_cases hm : m < img.nDirEntries
      · rw [min_eq_left hm.le]
      · rw [if_neg (by omega), if_neg hm]
    have hshort : (img.listed m).length ≤ nameLen := by
      rw [Image.listed]
      split_ifs
      · exact img.length_name_le _
      · exact Nat.zero_le _
    simp only [nameLen] at hshort
    rw [hpos, List.take_of_length_le (by omega)]
  rw [hlisted] at hret hstores hlen
  have hstore := h.storeAll_read (hroom.lands hn63 h) (hdir.trans hread)
  refine ⟨⟨.ret e.ret, e.stores⟩, e.after k, ?_, by rw [hret], ?_, ?_⟩
  · show Option.map _ (sysReadC img i buf nbytes env k) = _
    rw [sysReadC, hdir, hread, Option.bind_some, hstore]
    rfl
  · rw [hret, hstores]
    refine bytesAt_storesTo buf ?_
    rw [hlen, dirRoom]
    have hname := img.length_name_le ((k.fd i).filePos + 1)
    simp only [nameLen] at hname
    split_ifs
    · exact Nat.zero_le _
    · omega
    · omega
  · rw [hafter (by rw [hd.filePos]; exact Nat.min_le_right _ _)]
    refine hd.next ?_
    have hcount : ∀ n : Nat, min (min m n + 1) n = min (m + 1) n := by
      intro n
      omega
    rw [hd.filePos]
    exact hcount img.nDirEntries

/-! ### Runs -/

/-- What the reads on descriptor `fd` return and leave in the buffer. -/
def listings (fd : Int) : Event → Seen → List (Outcome × List UInt8)
  | .read fd' buf _ _, o => if fd' = fd then [(o.outcome, o.bytesAt buf)] else []
  | _, _ => []

theorem listings_of_ne {i : Nat} {e : Event} (h : ∀ buf nbytes env, e ≠ .read i buf nbytes env)
    (o : Seen) : listings i e o = [] := by
  cases e with
  | read fd buf nbytes env =>
      refine if_neg ?_
      rintro rfl
      exact h buf nbytes env rfl
  | execute | halt | «open» | close | write | key | tick => rfl

/-- Reads on `fd` have a buffer, of at least 32 bytes. -/
def Event.ReadsNames (fd : Int) : Event → Prop
  | .read fd' buf nbytes _ => fd' = fd → buf ≠ 0 ∧ 32 ≤ nbytes
  | _ => True

instance (fd : Int) (e : Event) : Decidable (e.ReadsNames fd) :=
  match e with
  | .read fd' buf nbytes _ => inferInstanceAs (Decidable (fd' = fd → buf ≠ 0 ∧ 32 ≤ nbytes))
  | .execute _ _ | .halt _ | .open _ | .close _ | .write _ _ _ _ | .key _ | .tick => isTrue trivial

/-- What the first `m` reads on a directory descriptor show. -/
def Image.listing (img : Image) (m : Nat) : List (Outcome × List UInt8) :=
  (List.range m).map fun i => (.ret (img.listed i).length, img.listed i)

/-- The listing through descriptor `i` in a state of the kernel. -/
structure Kernel.Listing (L : Layout) (img : Image) (i : Nat) (got : List (Outcome × List UInt8))
    (k : Kernel) : Prop where
  inv : k.Inv L
  running : 1 ≤ k.processNumber
  desc : (k.fd i).Listing img got.length
  got_eq : got = img.listing got.length

/-- **One event**: a read on the descriptor shows the next entry, and no other event
touches the listing. -/
theorem step_listing (hn63 : img.nDirEntries ≤ 63) {i : Nat} (hi : i < 8)
    {got : List (Outcome × List UInt8)} {s t : Kernel} {e : Event} {o : Seen}
    (h : s.Listing L img i got) (hroom : e.Roomy img s) (hopen : e.LeavesOpen i)
    (hnames : e.ReadsNames i) (hst : step img s e = some (o, t)) :
    t.Listing L img i (got ++ listings i e o) := by
  have hlands := hroom.lands hn63 h.inv
  have hk := step_keeps h.inv hlands hopen.not_processCall hst
  have hrunning : 1 ≤ t.processNumber := by
    rw [hk.processNumber]
    exact h.running
  -- a read on this descriptor, or anything else
  by_cases hread : ∃ buf nbytes env, e = .read i buf nbytes env
  · obtain ⟨buf, nbytes, env, rfl⟩ := hread
    obtain ⟨hbuf, hbytes⟩ := hnames rfl
    obtain ⟨o', t', hst', hout, hshown, hnew⟩ :=
      step_read_listing hn63 h.inv h.running hi h.desc hbuf hbytes env hroom
    rw [hst] at hst'
    obtain ⟨rfl, rfl⟩ := Prod.mk.inj (Option.some.inj hst')
    rw [listings, if_pos rfl, hout, hshown]
    refine ⟨h.inv.of_keeps hk, hrunning, ?_, ?_⟩
    · rw [List.length_append, List.length_singleton]
      exact hnew
    · rw [List.length_append, List.length_singleton, Image.listing, List.range_succ, List.map_append]
      exact congrArg (· ++ _) h.got_eq
  · have hother : ∀ buf nbytes env, e ≠ .read i buf nbytes env :=
      fun buf nbytes env he => hread ⟨buf, nbytes, env, he⟩
    rw [listings_of_ne hother, List.append_nil]
    refine ⟨h.inv.of_keeps hk, hrunning, ?_, h.got_eq⟩
    rw [step_fd h.inv hlands hopen hother h.desc.inUse hst]
    exact h.desc

/-- A directory descriptor that has just been opened. -/
theorem Image.opened_listing {e : Nat} (htype : img.dentryType e = dirFile) :
    (img.opened e).Listing img 0 where
  inUse := img.opened_inUse e
  table := by
    rw [Image.opened, htype]
    rfl
  filePos := (Nat.zero_min _).symm

/-- **A directory is listed once and in order.**  On an image with at most 63 entries,
in a state reached from boot, the running process opens a directory and gets descriptor
`fd`.  After any further events of that process that leave `fd` open, in which it may
open, close and read other descriptors, directories included: the reads on `fd` have
shown the entries in order, each once, and nothing behind the end, and so does another
read.  All reads have room for what is stored. -/
theorem directory_listing {L : Layout} {pcbs : Nat → Pcb} {screen : Screen} {rtc : Rtc}
    {img : Image} (hn63 : img.nDirEntries ≤ 63) {es₀ : List Event} {os₀ : List Seen} {k₀ : Kernel}
    (hes₀ : Along (step img) (fun k e => e.Roomy img k) (.boot L pcbs screen rtc) es₀)
    (hrun₀ : run (step img) (.boot L pcbs screen rtc) es₀ = some (os₀, k₀))
    (hn : 1 ≤ k₀.processNumber) {name : CString} {e fd : Nat} {k₁ : Kernel}
    (he : img.lookup name = some (some e)) (htype : img.dentryType e = dirFile)
    (hopen : step img k₀ (.open (some name)) = some (⟨.ret fd, []⟩, k₁))
    {es : List Event} {os : List Seen} {k : Kernel}
    (hes : Along (step img)
      (fun k ev => ev.Roomy img k ∧ ev.LeavesOpen fd ∧ ev.ReadsNames fd) k₁ es)
    (hrun : run (step img) k₁ es = some (os, k)) :
    let got := history (listings fd) es os
    got = img.listing got.length ∧
    ∀ buf nbytes env, buf ≠ 0 → 32 ≤ nbytes → (Event.read fd buf nbytes env).Roomy img k →
      ∃ o t, step img k (.read fd buf nbytes env) = some (o, t) ∧
        o.outcome = .ret (img.listed got.length).length ∧
        o.bytesAt buf = img.listed got.length := by
  intro got
  have h₀ : k₀.Inv L :=
    run_inv (fun _ _ hI hg => hg.lands hn63 hI) (Kernel.boot_inv L pcbs screen rtc) hes₀ hrun₀
  obtain ⟨v, hsys, hv⟩ := map_output_eq_some.mp hopen
  obtain rfl : v = fd := Outcome.ret.inj (congrArg Seen.outcome hv)
  obtain ⟨-, hfd, hdesc, -⟩ := sysOpenC_entry he (by rw [htype]; decide) hsys
  have hkeep := sysOpenC_keeps hsys
  -- just opened: nothing is shown yet and the position is 0
  have hstart : k₁.Listing L img fd [] := by
    refine ⟨h₀.of_keeps hkeep, ?_, ?_, rfl⟩
    · rw [hkeep.processNumber]
      exact hn
    · rw [hdesc]
      exact Image.opened_listing htype
  have hend := run_history (J := fun got k => k.Listing L img fd got)
    (fun _ _ _ _ _ hJ hg hst => step_listing hn63 hfd hJ hg.1 hg.2.1 hg.2.2 hst) hstart hes hrun
  rw [List.nil_append] at hend
  refine ⟨hend.got_eq, fun buf nbytes env hbuf hbytes hroom => ?_⟩
  obtain ⟨o, t, hst, hout, hshown, -⟩ :=
    step_read_listing hn63 hend.inv hend.running hfd hend.desc hbuf hbytes env hroom
  exact ⟨o, t, hst, hout, hshown⟩

/-- The directory is opened and read once; the next read shows `a`. -/
theorem directory_listing_long :
    let k₀ := final (step longNameImage) tinyBoot [tinyExecute]
    let k₁ := final (step longNameImage) k₀ [.open (some longName)]
    let k := final (step longNameImage) k₁ [.read 2 0x8050000 33 ⟨[], false⟩]
    ∃ o t, step longNameImage k (.read 2 0x8050040 32 ⟨[], false⟩) = some (o, t) ∧
      o.outcome = .ret 1 ∧ o.bytesAt 0x8050040 = [0x61] := by
  intro k₀ k₁ k
  obtain ⟨os₀, hrun₀⟩ := run_final (step longNameImage) tinyBoot [tinyExecute] (by decide +kernel)
  obtain ⟨os, hrun⟩ := run_final (step longNameImage) k₁ [.read 2 0x8050000 33 ⟨[], false⟩]
    (by decide +kernel)
  have hlookup : longNameImage.lookup longName = some (some 1) := by decide +kernel
  have hopen : step longNameImage k₀ (.open (some longName)) = some (⟨.ret (2 : Nat), []⟩, k₁) :=
    step_final (by decide +kernel)
  obtain ⟨-, hread⟩ := directory_listing (by decide +kernel) (by decide +kernel) hrun₀
    (by decide +kernel) hlookup (by decide +kernel) hopen (by decide +kernel) hrun
  obtain ⟨o, t, hst, hout, hshown⟩ := hread 0x8050040 32 ⟨[], false⟩ (by decide) (by decide)
    (by decide +kernel)
  obtain ⟨o₁, u, os', -, -, rfl⟩ := run_cons_eq_some.mp hrun
  have hlisted : longNameImage.listed 1 = [0x61] := by decide +kernel
  refine ⟨o, t, hst, hout.trans ?_, hshown.trans hlisted⟩
  show Outcome.ret (longNameImage.listed 1).length = .ret 1
  rw [hlisted]
  rfl

/-- The last 32 bytes of the program page are a buffer of 32 bytes, but a read of 32
bytes into it does not return: behind the 32 characters a NUL is stored to the next
page, which is not mapped. -/
theorem long_name_faults :
    longNameImage.nDirEntries = 2 ∧ BufferInPage 0x083FFFE0 32 ∧
      (run (step longNameImage) tinyBoot [tinyExecute, .open (some longName)]).map
        (fun r => r.1.map Seen.outcome) = some [.entered, .ret 2] ∧
      (run (step longNameImage) tinyBoot [tinyExecute, .open (some longName),
        .read 2 0x083FFFE0 32 ⟨[], false⟩]).isNone := by
  decide +kernel

/-! ### One call and its buffer -/

theorem dirRoom_le_iff {pos : Nat} (hpos : pos < img.nDirEntries) (nbytes : Nat) :
    dirRoom img pos nbytes ≤ nbytes ↔ (img.name (pos + 1)).length ≠ nbytes := by
  have hroom : ∀ m : Nat, (if nbytes < m then nbytes else m + 1) ≤ nbytes ↔ m ≠ nbytes := by
    intro m
    split_ifs
    all_goals omega
  rw [dirRoom, if_neg (not_le.mpr hpos)]
  exact hroom _

/-- **`dir_read` stays in its buffer**, and returns no more than its size, exactly if the
name is not just as long as the buffer: then the NUL behind it is stored behind the
buffer too.  For every image, every directory descriptor at any position, and every
buffer. -/
theorem dirRead_within_iff (img : Image) {fd : Int} (h2 : 2 ≤ fd) (h8 : fd < 8) (buf nbytes : Nat)
    {k : Kernel} (huse : (k.fd fd.toNat).InUse) (htype : (k.fd fd.toNat).flags.fileType = dirFile) :
    let pos := (k.fd fd.toNat).filePos
    (∀ e, dirRead img fd buf nbytes k = some e → StoresWithin buf nbytes e.stores ∧ e.ret ≤ nbytes) ↔
      ¬ (buf ≠ 0 ∧ pos < img.nDirEntries ∧ (∃ i < 2 ^ 32, img.dentryName (pos + 1) i = 0) ∧
        (img.name (pos + 1)).length = nbytes) := by
  intro pos
  by_cases hbuf : buf = 0
  · -- refused
    refine iff_of_true (fun e he => ?_) fun h => h.1 hbuf
    rw [dirRead, if_pos hbuf] at he
    obtain rfl := Option.some.inj he
    exact ⟨fun q hq => absurd hq List.not_mem_nil, (by decide : (-1 : Int) ≤ 0).trans (Int.natCast_nonneg _)⟩
  rw [dirRead_eq img h2 h8 hbuf nbytes huse htype]
  by_cases hend : img.nDirEntries ≤ pos
  · rw [if_pos hend]
    refine iff_of_true (fun e he => ?_) fun h => absurd h.2.1 (not_lt.mpr hend)
    obtain rfl := Option.some.inj he
    exact ⟨fun q hq => absurd hq List.not_mem_nil, Int.natCast_nonneg _⟩
  have hpos : pos < img.nDirEntries := not_le.mp hend
  have hlength := img.length_listBytes hpos nbytes
  have hshort : (img.listBytes pos nbytes).length ≤ 2 ^ 32 := by
    have hname := img.length_name_le (pos + 1)
    rw [Image.listBytes, List.length_append, List.length_take]
    simp only [nameLen] at hname
    split_ifs
    · rw [List.length_singleton]
      omega
    · rw [List.length_nil]
      omega
  have hret : (((img.name (pos + 1)).take nbytes).length : Int) ≤ nbytes := by
    rw [List.length_take]
    exact Int.ofNat_le.mpr (Nat.min_le_left _ _)
  rw [if_neg hend, readDentryByIndex, if_neg hend, ← strlen_isSome_iff]
  rcases strlen (img.dentryName (pos + 1)) with - | len
  · -- the call does not return
    refine iff_of_true (fun e he => ?_) ?_
    · cases he
    · rintro ⟨-, -, ⟨len, hlen⟩, -⟩
      cases hlen
  · constructor
    · rintro h ⟨-, -, -, hfull⟩
      obtain ⟨hwithin, -⟩ := h _ rfl
      rw [storesWithin_iff buf nbytes hshort, hlength, dirRoom_le_iff hpos] at hwithin
      exact hwithin hfull
    · intro h e he
      obtain rfl := Option.some.inj he
      have hne : (img.name (pos + 1)).length ≠ nbytes := fun hfull => h ⟨hbuf, hpos, ⟨len, rfl⟩, hfull⟩
      refine ⟨?_, hret⟩
      rw [storesWithin_iff buf nbytes hshort, hlength, dirRoom_le_iff hpos]
      exact hne

/-- 33 bytes are enough for a name of 32. -/
theorem dirRead_within_long :
    let k := final (step longNameImage) tinyBoot [tinyExecute, .open (some longName)]
    (dirRead longNameImage 2 0x8050000 33 k).isSome ∧
      ∀ e, dirRead longNameImage 2 0x8050000 33 k = some e →
        StoresWithin 0x8050000 33 e.stores ∧ e.ret ≤ 33 := by
  intro k
  have hname : (longNameImage.name ((k.fd 2).filePos + 1)).length = 32 := by decide +kernel
  refine ⟨by decide +kernel, (dirRead_within_iff longNameImage (show 2 ≤ (2 : Int) by decide)
    (by decide) 0x8050000 33 (by decide +kernel) (by decide +kernel)).mpr ?_⟩
  rintro ⟨-, -, -, hfull⟩
  exact absurd (hname.symm.trans hfull) (by decide)

/-- With 32 bytes the NUL is stored to the next one. -/
theorem dirRead_stores_behind :
    let k := final (step longNameImage) tinyBoot [tinyExecute, .open (some longName)]
    (dirRead longNameImage 2 0x8050000 32 k).map (fun e => (e.ret, e.stores.getLast?)) =
      some (32, some (0x8050000 + 32, 0)) := by
  decide +kernel

end LinuxBasedOs
