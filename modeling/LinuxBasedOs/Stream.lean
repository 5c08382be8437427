/-
LinuxBasedOs/Stream.lean

What a process gets from a regular file, read by read.

The position in the file is kept twice: as `file_pos`, and as a block index in
the flags word, which is saved only by reads that are not cut short and which
lags behind at a block boundary.  `FileDesc.Streaming` ties the two together and
says how much of the file has been delivered.  A read on the descriptor moves it
on by the bytes delivered; no event on another descriptor touches it, so the
stream of a descriptor depends on its own reads only.
-/
import LinuxBasedOs.Descriptors
import LinuxBasedOs.ProcessRuns

namespace LinuxBasedOs

open Bytes Transition

variable {L : Layout} {img : Image}

/-! ### The position of a descriptor -/

/-- The descriptor is for the file of `inode`, and `got` is what has been
delivered through it. -/
structure FileDesc.Streaming (img : Image) (inode : Nat) (got : List UInt8) (d : FileDesc) :
    Prop where
  inUse : d.InUse
  table : d.fileOpPtr = .fileTable
  fileType : d.flags.fileType = regFile
  inode_eq : d.inode = inode
  initial : got <+: img.content inode
  filePos : d.filePos = got.length
  -- at the end of the file the index may be out of date, and is not looked at
  inodeIdx : got.length < img.fileLength inode → d.flags.inodeIdx = blockIndex got.length

variable {inode : Nat} {got : List UInt8} {d : FileDesc}

theorem FileDesc.Streaming.length_le (h : d.Streaming img inode got) :
    got.length ≤ img.fileLength inode := by
  have := h.initial.length_le
  rwa [Image.length_content] at this

/-- What comes next in the file, `n` bytes at most. -/
def Image.next (img : Image) (inode : Nat) (got : List UInt8) (n : Nat) : List UInt8 :=
  ((img.content inode).drop got.length).take n

theorem Image.length_next (img : Image) (inode : Nat) (got : List UInt8) (n : Nat) :
    (img.next inode got n).length = min n (img.fileLength inode - got.length) := by
  simp [Image.next]

/-- Taking what comes next keeps what has been delivered an initial part. -/
theorem Image.append_next (h : got <+: img.content inode) (n : Nat) :
    got ++ img.next inode got n <+: img.content inode := by
  obtain ⟨rest, hrest⟩ := h
  rw [Image.next, ← hrest, List.drop_left, List.prefix_append_right_inj]
  exact List.take_prefix n rest

theorem Image.slice_eq_next (h : got.length ≤ img.fileLength inode) (n : Nat) :
    img.slice inode got.length (min n (img.fileLength inode - got.length)) =
      img.next inode got n := by
  rw [img.slice_eq_content (by omega), Image.next, ← Image.length_content, ← List.length_drop,
    List.take_eq_take_min (i := n)]

/-- **One `read_data` on a descriptor** returns and stores what comes next, and a
NUL behind it if the file ends first. -/
theorem FileDesc.Streaming.readData (hf : img.FileOk inode) (h : d.Streaming img inode got)
    {buf : Nat} (hbuf : buf ≠ 0) (n : Nat) :
    ∃ tail saved loads, tail.length ≤ 1 ∧
      readData img d.inode d.filePos buf n (some d.flags) =
        ⟨(img.next inode got n).length, saved, storesAt 0 (img.next inode got n ++ tail), loads⟩ ∧
      (img.next inode got n ++ tail).length ≤ n ∧
      (d.advance saved (img.next inode got n).length).Streaming img inode
        (got ++ img.next inode got n) := by
  have hle := h.length_le
  have hlen := img.length_next inode got n
  have hsmall := hf.length_le
  have hpos : (((d.filePos : Int) + (img.next inode got n).length) % 2 ^ 32).toNat =
      (got ++ img.next inode got n).length := by
    simp only [fourKB] at hsmall
    rw [h.filePos, List.length_append]
    omega
  have hread : LinuxBasedOs.readData img d.inode d.filePos buf n (some d.flags) =
      readDataAt img inode got.length buf n d.flags.inodeIdx := by
    rw [LinuxBasedOs.readData, h.inode_eq, h.filePos]
  rcases Nat.lt_or_ge got.length (img.fileLength inode) with hlt | hend
  · -- the index agrees with the position
    obtain ⟨hret, hstores, hsaved, -⟩ := readDataAt_file hf n hbuf hle
    rw [← h.inodeIdx hlt] at hret hstores hsaved
    rw [← hread] at hret hstores hsaved
    rw [Image.slice_eq_next hle] at hstores
    rw [← hlen] at hret
    generalize LinuxBasedOs.readData img d.inode d.filePos buf n (some d.flags) = r at *
    obtain ⟨ret, saved, stores, loads⟩ := r
    simp only at hret hstores hsaved
    have hsaved := hsaved hlt
    subst hret hstores
    refine ⟨_, saved, loads, ?_, rfl, ?_, ?_⟩
    · split_ifs
      · exact le_rfl
      · exact Nat.zero_le 1
    · rw [List.length_append, hlen]
      split_ifs with hshort
      · simp only [List.length_singleton]
        omega
      · simp only [List.length_nil]
        omega
    · by_cases hfit : n ≤ img.fileLength inode - got.length
      · -- a full read saves the index for the new position
        rw [if_pos hfit] at hsaved
        subst hsaved
        have hbound : blockIndex (got.length + n) < 4096 := by
          simp only [blockIndex, fourKB] at *
          omega
        refine ⟨(Flags.inUse_saveIdx _ hbound).mpr h.inUse, h.table,
          (Flags.fileType_saveIdx _ hbound).trans h.fileType, h.inode_eq,
          Image.append_next h.initial n, hpos, fun _ => ?_⟩
        rw [List.length_append, hlen, min_eq_left hfit]
        exact Flags.inodeIdx_saveIdx _ hbound
      · -- a short read has reached the end
        rw [if_neg hfit] at hsaved
        subst hsaved
        refine ⟨h.inUse, h.table, h.fileType, h.inode_eq, Image.append_next h.initial n, hpos,
          fun hnot => ?_⟩
        rw [List.length_append, hlen] at hnot
        omega
  · have hnil : img.next inode got n = [] := by
      rw [← List.length_eq_zero_iff, hlen]
      omega
    rw [hread, readDataAt_end hf.inode_lt hbuf hend, hnil]
    rw [hnil] at hpos
    refine ⟨[], none, [inodeLoad inode 0], Nat.zero_le 1, rfl, Nat.zero_le n, ?_⟩
    refine ⟨h.inUse, h.table, h.fileType, h.inode_eq, ?_, hpos, fun hnot => ?_⟩
    · rw [List.append_nil]
      exact h.initial
    · rw [List.append_nil] at hnot
      omega

/-! ### What the caller finds in its buffer -/

/-- The bytes in the buffer at `buf` after a call, as many as it returned. -/
def Seen.bytesAt (o : Seen) (buf : Nat) : List UInt8 :=
  match o.outcome with
  | .ret v => (List.range v.toNat).map fun i => storeAll (fun _ => 0) o.stores ((buf + i) % 2 ^ 32)
  | _ => []

/-- The buffer holds what was stored to it. -/
theorem bytesAt_storesTo (buf : Nat) {bs tail : List UInt8} (h : (bs ++ tail).length ≤ 2 ^ 32) :
    (Seen.mk (.ret bs.length) (storesTo buf (storesAt 0 (bs ++ tail)))).bytesAt buf = bs := by
  refine List.ext_getElem ?_ fun i h₁ h₂ => ?_
  · simp [Seen.bytesAt]
  · have hi : i < (bs ++ tail).length := by
      rw [List.length_append]
      omega
    have hbyte := storeAll_storesTo (fun _ => 0) buf 0 h hi
    rw [Nat.zero_add] at hbyte
    simp only [Seen.bytesAt, List.getElem_map, List.getElem_range]
    rw [hbyte, List.getElem_append_left h₂]

/-! ### Calls on the descriptor -/

/-- **One `sys_read_c` on a descriptor** delivers what comes next. -/
theorem step_read_streaming {k : Kernel} (h : k.Inv L) (hn : 1 ≤ k.processNumber)
    (hf : img.FileOk inode) {i : Nat} (hi : i < 8) (hd : (k.fd i).Streaming img inode got)
    {buf : Nat} (hbuf : buf ≠ 0) {nbytes : Int} (hpos : 0 ≤ nbytes) (env : ReadEnv)
    (hfits : (Event.read i buf nbytes env).ReadFits img k) :
    ∃ o t, step img k (.read i buf nbytes env) = some (o, t) ∧
      o.outcome = .ret (img.next inode got nbytes.toNat).length ∧
      o.bytesAt buf = img.next inode got nbytes.toNat ∧
      (t.fd i).Streaming img inode (got ++ img.next inode got nbytes.toNat) := by
  obtain ⟨tail, saved, loads, htail, hread, hroom, hnew⟩ := hd.readData hf hbuf nbytes.toNat
  have hacc : ReadAccepted i buf nbytes k :=
    ⟨by omega, by omega, hbuf, hpos, h.curPcb_ne hn, hd.inUse⟩
  have heffect : sysReadEffect img i buf nbytes env k =
      some (fileRead img i buf nbytes.toNat k) := by
    rw [sysReadEffect_accepted hacc, Int.toNat_natCast, hd.table]
    rfl
  have hfile : fileRead img i buf nbytes.toNat k =
      { ret := (img.next inode got nbytes.toNat).length
        stores := storesTo buf (storesAt 0 (img.next inode got nbytes.toNat ++ tail))
        after := fun k => k.setFd i
          ((k.fd i).advance saved (img.next inode got nbytes.toNat).length) } := by
    rw [fileRead_eq img _ hbuf hd.inUse hd.fileType, hread]
  -- the stores stay in the program page, so that the descriptor is as it was
  have hstore := h.storeAll_read (hfits.lands h.keyboard) heffect
  rw [hfile] at heffect hstore
  refine ⟨⟨.ret (img.next inode got nbytes.toNat).length,
    storesTo buf (storesAt 0 (img.next inode got nbytes.toNat ++ tail))⟩,
    k.setFd i ((k.fd i).advance saved (img.next inode got nbytes.toNat).length), ?_, rfl, ?_, ?_⟩
  · show Option.map _ (sysReadC img i buf nbytes env k) = _
    rw [sysReadC, heffect, Option.bind_some, hstore]
    rfl
  · have hlen := img.length_next inode got nbytes.toNat
    have hsmall := hf.length_le
    simp only [fourKB] at hsmall
    refine bytesAt_storesTo buf ?_
    rw [List.length_append]
    omega
  · rw [Kernel.fd_setFd]
    exact hnew

/-- With a bad argument it is refused, and delivers nothing. -/
theorem step_read_refused {k : Kernel} (h : k.Inv L) (hn : 1 ≤ k.processNumber) {fd : Int}
    {buf : Nat} {nbytes : Int} (hbad : buf = 0 ∨ nbytes < 0) (env : ReadEnv) :
    step img k (.read fd buf nbytes env) = some (⟨.ret (-1), []⟩, k) := by
  have hacc : ¬ ReadAccepted fd buf nbytes k := by
    intro ha
    have hnonneg := ha.nbytes_nonneg
    exact hbad.elim ha.buf_ne (by omega)
  rw [step, sysReadC, sysReadEffect_refused (h.curPcb_ne hn) hacc]
  rfl

/-! ### Runs -/

/-- What an event delivers through descriptor `fd`. -/
def received (fd : Int) : Event → Seen → List UInt8
  | .read fd' buf _ _, o => if fd' = fd then o.bytesAt buf else []
  | _, _ => []

/-- The event leaves the current process running and does not close `fd`. -/
def Event.LeavesOpen (fd : Int) : Event → Prop
  | .execute _ _ | .halt _ => False
  | .close fd' => fd' ≠ fd
  | _ => True

instance (fd : Int) (e : Event) : Decidable (e.LeavesOpen fd) :=
  match e with
  | .execute _ _ | .halt _ => isFalse id
  | .close fd' => inferInstanceAs (Decidable (fd' ≠ fd))
  | .open _ | .read _ _ _ _ | .write _ _ _ _ | .key _ | .tick => isTrue trivial

theorem Event.LeavesOpen.not_processCall {fd : Int} {e : Event} (h : e.LeavesOpen fd) :
    ¬ e.IsProcessCall := by
  cases e with
  | execute | halt => exact fun _ => h
  | «open» | close | read | write | key | tick => exact id

/-- **Descriptors are separate.**  A descriptor in use is not touched by an event
that neither closes it nor reads from it. -/
theorem step_fd {i : Nat} {s t : Kernel} (h : s.Inv L) {e : Event} (hlands : e.Lands img s)
    (hopen : e.LeavesOpen i) (hother : ∀ buf nbytes env, e ≠ .read i buf nbytes env)
    (huse : (s.fd i).InUse) {o : Seen} (hst : step img s e = some (o, t)) : t.fd i = s.fd i := by
  cases e with
  | execute command env => exact hopen.elim
  | halt status => exact hopen.elim
  | «open» filename =>
      -- `open` takes a free descriptor, and this one is not
      obtain ⟨v, hx, -⟩ := map_output_eq_some.mp hst
      exact sysOpenC_fd hx huse
  | close fd =>
      obtain ⟨v, hx, -⟩ := map_output_eq_some.mp hst
      exact sysCloseC_fd hx (Ne.symm hopen)
  | write fd buf data nbytes =>
      obtain ⟨v, hx, -⟩ := map_output_eq_some.mp hst
      exact sysWriteC_fd hx i
  | key input =>
      obtain ⟨-, rfl⟩ := Prod.mk.inj (Option.some.inj hst)
      rfl
  | tick =>
      obtain ⟨-, rfl⟩ := Prod.mk.inj (Option.some.inj hst)
      rfl
  | read fd buf nbytes env =>
      have hfd : fd ≠ i := by
        rintro rfl
        exact hother buf nbytes env rfl
      obtain ⟨r, hx, -⟩ := step_read hst
      obtain ⟨eff, heff, -, ht⟩ := sysReadC_effect h hlands hx
      rw [ht]
      rcases sysReadEffect_cases heff with rfl | ⟨ha, hread⟩
      · rfl
      · have hfd0 := ha.fd_nonneg
        exact readPtr_fd hread (by omega)

/-- The stream of descriptor `i` in a state of the kernel. -/
structure Kernel.Streaming (L : Layout) (img : Image) (inode i : Nat) (got : List UInt8)
    (k : Kernel) : Prop where
  inv : k.Inv L
  running : 1 ≤ k.processNumber
  desc : (k.fd i).Streaming img inode got

theorem received_of_ne {i : Nat} {e : Event} (h : ∀ buf nbytes env, e ≠ .read i buf nbytes env)
    (o : Seen) : received i e o = [] := by
  cases e with
  | read fd buf nbytes env =>
      refine if_neg ?_
      rintro rfl
      exact h buf nbytes env rfl
  | execute | halt | «open» | close | write | key | tick => rfl

/-- **One event**: the stream moves on by what the event delivers. -/
theorem step_streaming (hf : img.FileOk inode) {i : Nat} (hi : i < 8) {s t : Kernel} {e : Event}
    {o : Seen} (h : s.Streaming L img inode i got) (hfits : e.Fits img s)
    (hopen : e.LeavesOpen i) (hst : step img s e = some (o, t)) :
    t.Streaming L img inode i (got ++ received i e o) := by
  have hlands := hfits.1.lands h.inv.keyboard
  have hk := step_keeps h.inv hlands hopen.not_processCall hst
  refine ⟨h.inv.of_keeps hk, by rw [hk.processNumber]; exact h.running, ?_⟩
  by_cases hread : ∃ buf nbytes env, e = .read i buf nbytes env
  · obtain ⟨buf, nbytes, env, rfl⟩ := hread
    rw [received, if_pos rfl]
    by_cases hbad : buf = 0 ∨ nbytes < 0
    · -- refused, and nothing is delivered
      rw [step_read_refused h.inv h.running hbad] at hst
      obtain ⟨rfl, rfl⟩ := Prod.mk.inj (Option.some.inj hst)
      rw [show (Seen.mk (.ret (-1)) []).bytesAt buf = [] from rfl, List.append_nil]
      exact h.desc
    · obtain ⟨o', t', hst', -, hbytes, hnew⟩ := step_read_streaming h.inv h.running hf hi h.desc
        (fun h0 => hbad (.inl h0)) (by omega) env hfits.1
      rw [hst] at hst'
      obtain ⟨rfl, rfl⟩ := Prod.mk.inj (Option.some.inj hst')
      rw [hbytes]
      exact hnew
  · have hother : ∀ buf nbytes env, e ≠ .read i buf nbytes env :=
      fun buf nbytes env he => hread ⟨buf, nbytes, env, he⟩
    rw [received_of_ne hother, List.append_nil, step_fd h.inv hlands hopen hother h.desc.inUse hst]
    exact h.desc

/-- A descriptor that has just been opened. -/
theorem FileDesc.streaming_start (img : Image) (inode : Nat) :
    (FileDesc.mk .fileTable inode 0 fileFlags).Streaming img inode [] where
  inUse := by
    show Flags.InUse fileFlags
    decide
  table := rfl
  fileType := by
    show Flags.fileType fileFlags = regFile
    decide
  inode_eq := rfl
  initial := List.nil_prefix
  filePos := rfl
  inodeIdx := fun _ => by
    show Flags.inodeIdx fileFlags = blockIndex 0
    decide

/-- **A descriptor is a stream.**  On a well-formed image, in a state reached
from boot, the running process opens a regular file and gets descriptor `fd`.
After any further events of that process that leave `fd` open, in which it may
read and write through other descriptors, open and close them, and read from
`fd` in any portions: what has been delivered through `fd` is an initial part of
the file's content, `file_pos` is its length, and another read returns as many
bytes as are asked for and are left, and these are the next bytes of the file. -/
theorem descriptor_stream {L : Layout} {pcbs : Nat → Pcb} {screen : Screen} {rtc : Rtc}
    {img : Image} (hwf : img.WellFormed) {es₀ : List Event} {os₀ : List Seen} {k₀ : Kernel}
    (hes₀ : Along (step img) (fun k e => e.Fits img k) (.boot L pcbs screen rtc) es₀)
    (hrun₀ : run (step img) (.boot L pcbs screen rtc) es₀ = some (os₀, k₀))
    (hn : 1 ≤ k₀.processNumber) {name : CString} {e fd : Nat} {k₁ : Kernel}
    (he : img.lookup name = some (some e)) (htype : img.dentryType e = regFile)
    (hopen : step img k₀ (.open (some name)) = some (⟨.ret fd, []⟩, k₁))
    {es : List Event} {os : List Seen} {k : Kernel}
    (hes : Along (step img) (fun k ev => ev.Fits img k ∧ ev.LeavesOpen fd) k₁ es)
    (hrun : run (step img) k₁ es = some (os, k)) :
    let content := img.content (img.dentryInode e)
    let got := history (received fd) es os
    got <+: content ∧ (k.fd fd).filePos = got.length ∧
    ∀ buf nbytes env, buf ≠ 0 → 0 ≤ nbytes → (Event.read fd buf nbytes env).Fits img k →
      ∃ o t, step img k (.read fd buf nbytes env) = some (o, t) ∧
        o.outcome = .ret ((min nbytes.toNat (content.length - got.length) : Nat) : Int) ∧
        o.bytesAt buf = (content.drop got.length).take nbytes.toNat := by
  intro content got
  have h₀ : k₀.Inv L := run_boot_inv hes₀ hrun₀
  have hinode := hwf.dentry_inode e (lookup_range he).1 (lookup_range he).2
  have hf := hwf.fileOk hinode
  obtain ⟨v, hsys, hv⟩ := map_output_eq_some.mp hopen
  obtain rfl : v = fd := Outcome.ret.inj (congrArg Seen.outcome hv)
  obtain ⟨-, hfd, hdesc, -⟩ := sysOpenC_entry he htype.le hsys
  have hkeep := sysOpenC_keeps hsys
  -- just opened: nothing has been delivered and the position is 0
  have hstart : k₁.Streaming L img (img.dentryInode e) fd [] := by
    refine ⟨h₀.of_keeps hkeep, ?_, ?_⟩
    · rw [hkeep.processNumber]
      exact hn
    · rw [hdesc, Image.opened_file htype]
      exact FileDesc.streaming_start img _
  have hend := run_history (J := fun got k => k.Streaming L img (img.dentryInode e) fd got)
    (fun _ _ _ _ _ hJ hg hst => step_streaming hf hfd hJ hg.1 hg.2 hst) hstart hes hrun
  rw [List.nil_append] at hend
  refine ⟨hend.desc.initial, hend.desc.filePos, fun buf nbytes env hbuf hpos hfits => ?_⟩
  obtain ⟨o, t, hst, hout, hbytes, -⟩ :=
    step_read_streaming hend.inv hend.running hf hfd hend.desc hbuf hpos env hfits.1
  refine ⟨o, t, hst, ?_, hbytes⟩
  rw [hout, Image.length_next, ← Image.length_content]

/-- Four bytes of `a` have been read; of the next 100 there are 36. -/
theorem descriptor_stream_tiny :
    let k₀ := final (step tinyImage) tinyBoot [tinyExecute]
    let k₁ := final (step tinyImage) k₀ [.open (some tinyName)]
    let k := final (step tinyImage) k₁ [.read 2 0x8050000 4 ⟨[], false⟩]
    (k.fd 2).filePos = 4 ∧ ∃ o t, step tinyImage k (.read 2 0x8050000 100 ⟨[], false⟩) = some (o, t) ∧
      o.outcome = .ret 36 := by
  intro k₀ k₁ k
  have hpos : (k.fd 2).filePos = 4 := by decide +kernel
  obtain ⟨os₀, hrun₀⟩ := run_final (step tinyImage) tinyBoot [tinyExecute] (by decide +kernel)
  obtain ⟨os, hrun⟩ := run_final (step tinyImage) k₁ [.read 2 0x8050000 4 ⟨[], false⟩]
    (by decide +kernel)
  have hlookup : tinyImage.lookup tinyName = some (some 1) := by decide +kernel
  have hopen : step tinyImage k₀ (.open (some tinyName)) = some (⟨.ret (2 : Nat), []⟩, k₁) :=
    step_final (by decide +kernel)
  obtain ⟨-, hgot, hread⟩ := descriptor_stream tinyImage_wellFormed (by decide +kernel) hrun₀
    (by decide +kernel) hlookup (by decide +kernel) hopen (by decide +kernel) hrun
  obtain ⟨o, t, hst, hout, -⟩ := hread 0x8050000 100 ⟨[], false⟩ (by decide) (by decide)
    (by decide +kernel)
  refine ⟨hpos, o, t, hst, ?_⟩
  rw [hout, ← hgot]
  decide +kernel

end LinuxBasedOs
