/-
LinuxBasedOs/Descriptors.lean

What the descriptor calls do to the file array, descriptor by descriptor.

A call touches at most one descriptor: the first free one if it opens, the one it
is given if it closes or reads, none if it writes.  Two consequences are worked
out in full.  A call that fails leaves the whole array as it was, with one
exception: `file_read` moves the position back by one when `read_data` fails, which
it does for an inode number out of range.  And `sys_open_c` returns the lowest free
descriptor and claims it, with one exception: a file type that it does not know
selects the terminal, whose open routine claims nothing.
-/
import LinuxBasedOs.SysCalls

namespace LinuxBasedOs

open Bytes Transition

variable {img : Image}

/-! ### Calls on other descriptors -/

theorem openEntry_fd {type : Nat} {flags : Flags} {filename : CString} {k k' : Kernel} {ret : Int}
    (h : openEntry img type flags filename k = some (ret, k')) {i : Nat}
    (hi : i ≠ firstFree k.cur.fileArray) : k'.fd i = k.fd i := by
  obtain ⟨fs, ⟨-, rfl⟩ | ⟨-, d, -, -, -, rfl⟩⟩ := openEntry_cases h
  · rfl
  · exact Kernel.fd_setFd_of_ne _ _ hi

/-- An open routine sets up the first free descriptor, if any. -/
theorem openPtr_fd {ops : FdOps} {filename : CString} {k k' : Kernel} {ret : Int}
    (h : ops.openPtr img filename k = some (ret, k')) {i : Nat}
    (hi : i ≠ firstFree k.cur.fileArray) : k'.fd i = k.fd i := by
  cases ops with
  | null => cases h
  | wild => cases h
  | dirTable => exact openEntry_fd h hi
  | fileTable => exact openEntry_fd h hi
  | terminalTable =>
      obtain ⟨-, rfl⟩ := Prod.mk.inj (Option.some.inj h)
      rfl
  | rtcTable =>
      have hk' : (rtcOpen k).2 = k' := congrArg Prod.snd (Option.some.inj h)
      rw [← hk']
      unfold rtcOpen
      simp only
      split_ifs
      · rfl
      · exact Kernel.fd_setFd_of_ne _ _ hi

theorem openAs_fd {name : CString} {type : Nat} {k k' : Kernel} {ret : Int}
    (h : openAs img name type k = some (ret, k')) {i : Nat} (huse : (k.fd i).InUse) :
    k'.fd i = k.fd i := by
  obtain ⟨-, rfl⟩ | ⟨hfull, -, r, ho⟩ := openAs_cases h
  · rfl
  · have hi : i ≠ firstFree k.cur.fileArray := by
      rintro rfl
      exact (firstFree_spec hfull).2 huse
    rw [openPtr_fd ho (by rw [firstFree_setTable]; exact hi)]
    exact Kernel.fd_setFd_of_ne _ _ hi

/-- `sys_open_c` does not touch a descriptor in use. -/
theorem sysOpenC_fd {filename : Option CString} {k k' : Kernel} {ret : Int}
    (h : sysOpenC img filename k = some (ret, k')) {i : Nat} (huse : (k.fd i).InUse) :
    k'.fd i = k.fd i := by
  obtain ⟨fs, ⟨-, rfl⟩ | ⟨name, d, -, -, hopen⟩⟩ := sysOpenC_cases h
  · rfl
  · exact openAs_fd (k := { k with fs := fs }) hopen huse

theorem closeFd_fd (type : Nat) (fd : Int) (k : Kernel) {i : Nat} (hi : i ≠ fd.toNat) :
    (closeFd type fd k).2.fd i = k.fd i := by
  rcases closeFd_cases type fd k with h | ⟨-, -, -, -, h⟩
  · rw [h]
  · rw [h]
    exact Kernel.fd_setFd_of_ne _ _ hi

theorem closePtr_fd {ops : FdOps} {fd : Int} {k k' : Kernel} {ret : Int}
    (h : ops.closePtr fd k = some (ret, k')) {i : Nat} (hi : i ≠ fd.toNat) :
    k'.fd i = k.fd i := by
  cases ops with
  | null => cases h
  | wild => cases h
  | rtcTable =>
      have hk' : (rtcClose fd k).2 = k' := congrArg Prod.snd (Option.some.inj h)
      rw [← hk']
      exact closeFd_fd rtcFile fd k hi
  | dirTable =>
      have hk' : (dirClose fd k).2 = k' := congrArg Prod.snd (Option.some.inj h)
      rw [← hk']
      exact closeFd_fd dirFile fd k hi
  | fileTable =>
      have hk' : (fileClose fd k).2 = k' := congrArg Prod.snd (Option.some.inj h)
      rw [← hk']
      have hclose := closeFd_fd regFile fd k hi
      -- `file_close` also clears the names of its two entries
      unfold fileClose
      simp only
      split_ifs
      · exact hclose
      · exact hclose
  | terminalTable =>
      have hk' : (terminalClose fd k).2 = k' := congrArg Prod.snd (Option.some.inj h)
      rw [← hk']
      unfold terminalClose
      split_ifs
      · rfl
      · exact Kernel.fd_setFd_of_ne _ _ hi
      · rfl

/-- `sys_close_c` touches the descriptor it is given only. -/
theorem sysCloseC_fd {fd : Int} {k k' : Kernel} {ret : Int}
    (h : sysCloseC fd k = some (ret, k')) {i : Nat} (hi : (i : Int) ≠ fd) : k'.fd i = k.fd i := by
  obtain rfl | ⟨h2, hclose⟩ := sysCloseC_cases h
  · rfl
  · exact closePtr_fd hclose (by omega)

/-- A read driver touches the descriptor it is given only. -/
theorem readPtr_fd {ops : FdOps} {fd : Int} {buf nbytes : Nat} {env : ReadEnv} {k : Kernel}
    {e : ReadEffect} (h : ops.readPtr img fd buf nbytes env k = some e) {i : Nat}
    (hi : i ≠ fd.toNat) : (e.after k).fd i = k.fd i := by
  cases ops with
  | null => cases h
  | wild => cases h
  | rtcTable =>
      obtain rfl := rtcRead_some h
      rfl
  | dirTable =>
      -- a directory read moves the position on, if it is not refused
      obtain ⟨-, hafter⟩ | ⟨-, -, -, fs, -, hafter⟩ := dirRead_cases h
      · rw [hafter]
        rfl
      · rw [hafter]
        exact Kernel.fd_setFd_of_ne _ _ hi
  | fileTable =>
      obtain rfl := Option.some.inj h
      obtain hread | ⟨-, hread⟩ := fileRead_cases img fd.toNat buf nbytes k
      · rw [hread]
        rfl
      · rw [hread]
        exact Kernel.fd_setFd_of_ne _ _ hi
  | terminalTable =>
      obtain rfl | ⟨-, ret, rfl⟩ := terminalRead_cases h
      · rfl
      · rfl

theorem writePtr_fd {ops : FdOps} {fd : Int} {data : Mem} {nbytes : Nat} {k k' : Kernel} {ret : Int}
    (h : ops.writePtr fd data nbytes k = some (ret, k')) (i : Nat) : k'.fd i = k.fd i := by
  cases ops with
  | null => cases h
  | wild => cases h
  | dirTable =>
      obtain ⟨-, rfl⟩ := Prod.mk.inj (Option.some.inj h)
      rfl
  | fileTable =>
      obtain ⟨-, rfl⟩ := Prod.mk.inj (Option.some.inj h)
      rfl
  | terminalTable =>
      have hk' : (terminalWrite fd data nbytes k).2 = k' := congrArg Prod.snd (Option.some.inj h)
      rw [← hk']
      unfold terminalWrite
      split_ifs
      · rfl
      · rfl
  | rtcTable =>
      have hk' : (rtcWrite data k).2 = k' := congrArg Prod.snd (Option.some.inj h)
      rw [← hk']
      -- only the rate is written
      unfold rtcWrite
      simp only
      split_ifs
      · rfl
      · rfl
      · rfl

/-- `sys_write_c` touches no descriptor. -/
theorem sysWriteC_fd {fd : Int} {buf : Nat} {data : Mem} {nbytes : Int} {k k' : Kernel} {ret : Int}
    (h : sysWriteC fd buf data nbytes k = some (ret, k')) (i : Nat) : k'.fd i = k.fd i := by
  obtain rfl | hwrite := sysWriteC_cases h
  · rfl
  · exact writePtr_fd hwrite i

/-! ### Calls that fail -/

/-- A read that fails inside its driver has stored nothing and changes nothing. -/
theorem dirRead_failed {fd : Int} {buf nbytes : Nat} {k : Kernel} {e : ReadEffect}
    (h : dirRead img fd buf nbytes k = some e) (hret : e.ret = -1) : e = .refused := by
  unfold dirRead at h
  simp only at h
  split_ifs at h with hbuf hfd huse hend
  · exact (Option.some.inj h).symm
  · exact (Option.some.inj h).symm
  · exact (Option.some.inj h).symm
  · rw [← Option.some.inj h] at hret
    cases hret
  · obtain ⟨⟨ret, fs⟩, -, hr⟩ := Option.map_eq_some_iff.mp h
    simp only at hr
    split_ifs at hr with hneg
    · exact hr.symm
    · -- a length is not negative
      rw [← hr] at hret
      exact absurd hret (by simp only; omega)

theorem terminalRead_failed {fd : Int} {buf : Nat} {events : List ReadEvent} {k : Kernel}
    {e : ReadEffect} (h : terminalRead fd buf events k = some e) (hret : e.ret = -1) :
    e = .refused := by
  unfold terminalRead at h
  split_ifs at h with hfd
  · exact (Option.some.inj h).symm
  · simp only at h
    split at h
    · rw [← Option.some.inj h] at hret
      exact absurd hret (by simp only; omega)
    · cases h

theorem closePtr_failed {ops : FdOps} {fd : Int} {k k' : Kernel}
    (h : ops.closePtr fd k = some (-1, k')) : k' = k := by
  have hclose : ∀ type, closeFd type fd k = (-1, k') → k' = k := by
    intro type heq
    rcases closeFd_cases type fd k with hc | ⟨-, -, -, -, hc⟩
    · exact (Prod.mk.inj (heq.symm.trans hc)).2
    · exact absurd (Prod.mk.inj (heq.symm.trans hc)).1 (by decide)
  cases ops with
  | null | wild => cases h
  | rtcTable => exact hclose rtcFile (Option.some.inj h)
  | dirTable => exact hclose dirFile (Option.some.inj h)
  -- `file_close` returns 0 unless its descriptor is refused
  | fileTable =>
      have hfile : fileClose fd k = (-1, k') := Option.some.inj h
      unfold fileClose at hfile
      simp only at hfile
      split_ifs at hfile
      · exact absurd (Prod.mk.inj hfile).1 (by decide)
      · exact hclose regFile hfile
  | terminalTable =>
      have hterm : terminalClose fd k = (-1, k') := Option.some.inj h
      unfold terminalClose at hterm
      split_ifs at hterm
      · exact (Prod.mk.inj hterm).2.symm
      · exact absurd (Prod.mk.inj hterm).1 (by decide)
      · exact (Prod.mk.inj hterm).2.symm

/-- `file_read` on a regular file whose inode number is out of range. -/
def MissingInode (img : Image) (d : FileDesc) : Prop :=
  d.fileOpPtr = .fileTable ∧ d.flags.fileType = regFile ∧ img.nInodes ≤ d.inode

instance (img : Image) (d : FileDesc) : Decidable (MissingInode img d) :=
  inferInstanceAs (Decidable (_ ∧ _))

/-- Any other read that fails is refused. -/
theorem readPtr_failed {fd : Int} {buf nbytes : Nat} {env : ReadEnv} {k : Kernel} {e : ReadEffect}
    (hbuf : buf ≠ 0) (hn : nbytes < 2 ^ 31) (hinode : ¬ MissingInode img (k.fd fd.toNat))
    (h : (k.fd fd.toNat).fileOpPtr.readPtr img fd buf nbytes env k = some e) (hret : e.ret = -1) :
    e = .refused := by
  cases hops : (k.fd fd.toNat).fileOpPtr with
  | null | wild =>
      rw [hops] at h
      cases h
  | rtcTable =>
      rw [hops] at h
      rw [rtcRead_some h] at hret
      cases hret
  | dirTable =>
      rw [hops] at h
      exact dirRead_failed h hret
  | terminalTable =>
      rw [hops] at h
      exact terminalRead_failed h hret
  | fileTable =>
      rw [hops] at h
      obtain rfl := Option.some.inj h
      obtain hread | ⟨huse, hread⟩ := fileRead_cases img fd.toNat buf nbytes k
      · exact hread
      · by_cases htype : (k.fd fd.toNat).flags.fileType = regFile
        · -- the inode is there, so that `read_data` does not fail
          have hlt : (k.fd fd.toNat).inode < img.nInodes := by
            by_contra hge
            exact hinode ⟨hops, htype, not_lt.mp hge⟩
          have hnonneg : 0 ≤ (readDataAt img (k.fd fd.toNat).inode (k.fd fd.toNat).filePos buf nbytes
              (k.fd fd.toNat).flags.inodeIdx).ret := readDataAt_ret_nonneg hbuf hlt hn
          rw [hread] at hret
          exact absurd hret (by
            show ¬ (readDataAt img (k.fd fd.toNat).inode (k.fd fd.toNat).filePos buf nbytes
              (k.fd fd.toNat).flags.inodeIdx).ret = -1
            omega)
        · rw [fileRead, if_neg hbuf, if_pos (.inr htype)]

/-- The position moves back by one, from 0 to the end of the 32-bit range. -/
theorem sysReadC_missingInode {fd : Int} {buf : Nat} {nbytes : Int} {k : Kernel}
    (ha : ReadAccepted fd buf nbytes k) (hinode : MissingInode img (k.fd fd.toNat)) (env : ReadEnv) :
    sysReadC img fd buf nbytes env k =
      some ((-1, []), k.setFd fd.toNat ((k.fd fd.toNat).advance none (-1))) := by
  obtain ⟨htable, htype, hge⟩ := hinode
  have hread : readData img (k.fd fd.toNat).inode (k.fd fd.toNat).filePos buf nbytes.toNat
      (some (k.fd fd.toNat).flags) = ⟨-1, none, [], []⟩ := by
    rw [readData, readDataAt, if_neg ha.buf_ne, if_pos hge]
  rw [sysReadC, sysReadEffect_accepted ha, htable]
  show (some (fileRead img fd.toNat buf nbytes.toNat k)).bind _ = _
  rw [fileRead_eq img _ ha.buf_ne ha.inUse htype, hread]
  rfl

theorem FileDesc.advance_ne (d : FileDesc) : d.advance none (-1) ≠ d := by
  intro h
  have hpos : (((d.filePos : Int) + -1) % 2 ^ 32).toNat = d.filePos :=
    congrArg FileDesc.filePos h
  omega

/-- **A failed call leaves the file array alone**, whatever the state and the
arguments, except that a read from a regular file whose inode number is out of range
does not. -/
theorem failed_calls_keep_files (img : Image) (k : Kernel) :
    (∀ filename k', sysOpenC img filename k = some (-1, k') →
      k'.cur.fileArray = k.cur.fileArray) ∧
    (∀ fd k', sysCloseC fd k = some (-1, k') → k'.cur.fileArray = k.cur.fileArray) ∧
    (∀ fd buf data nbytes k', sysWriteC fd buf data nbytes k = some (-1, k') →
      k'.cur.fileArray = k.cur.fileArray) ∧
    (∀ fd buf nbytes env, nbytes < 2 ^ 31 →
      ((∀ stores k', sysReadC img fd buf nbytes env k = some ((-1, stores), k') →
          k'.cur.fileArray = k.cur.fileArray) ↔
        ¬ (ReadAccepted fd buf nbytes k ∧ MissingInode img (k.fd fd.toNat)))) := by
  refine ⟨fun filename k' h => ?_, fun fd k' h => ?_, fun fd buf data nbytes k' h => ?_,
    fun fd buf nbytes env hn => ⟨fun h hbad => ?_, fun hgood stores k' h => ?_⟩⟩
  · -- an open that fails has looked the name up
    obtain ⟨fs, ⟨-, rfl⟩ | ⟨name, d, -, -, hopen⟩⟩ := sysOpenC_cases h
    · rfl
    · obtain ⟨-, rfl⟩ | ⟨-, hret, -⟩ := openAs_cases hopen
      · rfl
      · omega
  · obtain rfl | ⟨-, hclose⟩ := sysCloseC_cases h
    · rfl
    · rw [closePtr_failed hclose]
  · funext i
    exact sysWriteC_fd h i
  · -- the read returns -1, and the position has moved
    have hsame := h _ _ (sysReadC_missingInode hbad.1 hbad.2 env)
    rw [Kernel.cur_setFd] at hsame
    have hfd := congrFun hsame fd.toNat
    exact FileDesc.advance_ne _ ((Function.update_self ..).symm.trans hfd)
  · obtain ⟨e, heff, hr⟩ := Option.bind_eq_some_iff.mp h
    obtain ⟨k₁, hstore, hk₁⟩ := Option.map_eq_some_iff.mp hr
    obtain ⟨hret, rfl⟩ := Prod.mk.inj hk₁
    have hret' : e.ret = -1 := congrArg Prod.fst hret
    -- any other read that returns -1 has been refused
    have hrefused : e = .refused := by
      rcases sysReadEffect_cases heff with he | ⟨ha, hread⟩
      · exact he
      · exact readPtr_failed ha.buf_ne (by omega) (fun hm => hgood ⟨ha, hm⟩) hread hret'
    subst hrefused
    obtain rfl := Option.some.inj hstore
    rfl

/-- In the first process, reading from descriptor 2 and closing it fail, and change
nothing. -/
theorem failed_calls_keep_files_tiny :
    let k := final (step tinyImage) tinyBoot [tinyExecute]
    (∃ stores k', sysReadC tinyImage 2 0x8050000 4 ⟨[], false⟩ k = some ((-1, stores), k') ∧
      k'.cur.fileArray = k.cur.fileArray) ∧
    ∃ k', sysCloseC 2 k = some (-1, k') ∧ k'.cur.fileArray = k.cur.fileArray := by
  intro k
  obtain ⟨-, hclose, -, hread⟩ := failed_calls_keep_files tinyImage k
  have hret : (sysReadC tinyImage 2 0x8050000 4 ⟨[], false⟩ k).map Prod.fst = some (-1, []) := by
    decide +kernel
  have hret' : (sysCloseC 2 k).map Prod.fst = some (-1) := by decide +kernel
  obtain ⟨⟨-, k₁⟩, hr, rfl⟩ := Option.map_eq_some_iff.mp hret
  obtain ⟨⟨-, k₂⟩, hc, rfl⟩ := Option.map_eq_some_iff.mp hret'
  have hgood : ¬ (ReadAccepted 2 0x8050000 4 k ∧ MissingInode tinyImage (k.fd (2 : Int).toNat)) := by
    decide +kernel
  exact ⟨⟨_, k₁, hr, (hread 2 0x8050000 4 ⟨[], false⟩ (by decide)).mpr hgood _ k₁ hr⟩,
    k₂, hc, hclose 2 k₂ hc⟩

/-- A file system with the program `a` and two stray entries: `b` is a regular file
whose inode number, 5, is out of range, and `c` has the unknown type 3. -/
def strayImage : Image where
  byte i := ([(0, 3), (4, 1), (8, 1), (64, 0x61), (96, 2), (128, 0x62), (160, 2), (164, 5),
    (192, 0x63), (224, 3), (4096, 40), (8192, 0x7F), (8193, 0x45), (8194, 0x4C), (8195, 0x46)].lookup
    i).getD 0

/-- The name of an entry whose inode is out of range. -/
def strayInode : CString where
  bytes := [0x62]
  nonzero := List.forall_mem_singleton.mpr (by decide)

/-- The name of an entry of an unknown type. -/
def strayType : CString where
  bytes := [0x63]
  nonzero := List.forall_mem_singleton.mpr (by decide)

/-- The read from `b` returns -1, and the position has gone from 0 to 2³² - 1. -/
theorem failed_read_moves_position :
    ((run (step strayImage) tinyBoot [tinyExecute, .open (some strayInode)]).map fun r =>
        (r.2.fd 2).filePos) = some 0 ∧
      ((run (step strayImage) tinyBoot [tinyExecute, .open (some strayInode),
          .read 2 0x8050000 4 ⟨[], false⟩]).map fun r =>
        (r.1.map Seen.outcome, (r.2.fd 2).filePos)) =
        some ([.entered, .ret 2, .ret (-1)], 0xFFFFFFFF) := by
  decide +kernel

/-! ### Opening -/

/-- The descriptors of 2 to 7 that are not in use, in order. -/
def Kernel.free (k : Kernel) : List Nat := (List.range' 2 6).filter fun i => ¬ (k.fd i).InUse

theorem Kernel.mem_free {k : Kernel} {i : Nat} : i ∈ k.free ↔ 2 ≤ i ∧ i < 8 ∧ ¬ (k.fd i).InUse := by
  rw [Kernel.free, List.mem_filter, List.mem_range'_1, decide_eq_true_iff, and_assoc]

/-- The search of the open routines finds the first of them. -/
theorem firstFree_eq (k : Kernel) : firstFree k.cur.fileArray = k.free.head?.getD 8 := by
  rw [Kernel.free, List.head?_filter]
  rfl

/-- The flags that the open routine of a known type writes. -/
def flagsOfType : Nat → Flags
  | 0 => rtcFlags
  | 1 => dirFlags
  | _ => fileFlags

/-- The descriptor that opening entry `e` sets up. -/
def Image.opened (img : Image) (e : Nat) : FileDesc :=
  ⟨tableOfType (img.dentryType e), img.reportedInode e, 0, flagsOfType (img.dentryType e)⟩

theorem Image.opened_inUse (img : Image) (e : Nat) : (img.opened e).InUse := by
  show Flags.InUse (flagsOfType (img.dentryType e))
  unfold flagsOfType
  split <;> decide

theorem Image.opened_file {e : Nat} (htype : img.dentryType e = regFile) :
    img.opened e = ⟨.fileTable, img.dentryInode e, 0, fileFlags⟩ := by
  rw [Image.opened, Image.reportedInode, if_pos htype, htype]
  rfl

/-- The open routine of a known type sets up the first free descriptor. -/
theorem openPtr_known {name : CString} {e : Nat} {k : Kernel}
    (he : img.lookup name = some (some e)) (htype : img.dentryType e ≤ 2)
    (hfree : firstFree k.cur.fileArray < 8)
    (htable : (k.fd (firstFree k.cur.fileArray)).fileOpPtr = tableOfType (img.dentryType e)) :
    ∃ r k', (tableOfType (img.dentryType e)).openPtr img name k = some (r, k') ∧
      k'.fd (firstFree k.cur.fileArray) = img.opened e := by
  have hcases : img.dentryType e = 0 ∨ img.dentryType e = 1 ∨ img.dentryType e = 2 := by omega
  rcases hcases with h0 | h1 | h2
  · -- the RTC has no inode
    have hinode : img.reportedInode e = 0 := by
      rw [Image.reportedInode, h0]
      rfl
    refine ⟨0, (rtcOpen k).2, ?_, ?_⟩
    · rw [h0]
      show some (rtcOpen k) = _
      rw [rtcOpen]
      simp only
      rw [if_neg (not_le.mpr hfree)]
    · rw [rtcOpen]
      simp only
      rw [if_neg (not_le.mpr hfree), Kernel.fd_setFd, Image.opened, hinode, ← htable, h0]
      rfl
  · obtain ⟨fs, hopen⟩ := openEntry_found dirFlags he h1 hfree
    refine ⟨0, _, by rw [h1]; exact hopen, ?_⟩
    rw [Kernel.fd_setFd, Image.opened, ← htable, h1]
    rfl
  · obtain ⟨fs, hopen⟩ := openEntry_found fileFlags he h2 hfree
    refine ⟨0, _, by rw [h2]; exact hopen, ?_⟩
    rw [Kernel.fd_setFd, Image.opened, ← htable, h2]
    rfl

/-- `sys_open_c` once it has found the entry. -/
theorem sysOpenC_found {name : CString} {e : Nat} (he : img.lookup name = some (some e)) (k : Kernel) :
    ∃ fs, sysOpenC img (some name) k = openAs img name (img.dentryType e) { k with fs := fs } := by
  obtain ⟨found, fs, hread, hfound⟩ := readDentryByName_isSome he k.fs
  rcases found with - | ⟨e', len⟩
  · cases hfound
  obtain rfl : e' = e := Option.some.inj hfound
  refine ⟨fs, ?_⟩
  simp only [sysOpenC, hread, Option.bind_some]

theorem openAs_free {name : CString} {type : Nat} {k : Kernel} (hcur : k.curPcb ≠ 0)
    (hfree : firstFree k.cur.fileArray < 8) :
    openAs img name type k =
      ((tableOfType type).openPtr img name
        (k.setTable (firstFree k.cur.fileArray) (tableOfType type))).map
        fun r => ((firstFree k.cur.fileArray : Int), r.2) := by
  rw [openAs, if_neg hcur, if_neg (not_le.mpr hfree)]

theorem openAs_full {name : CString} {type : Nat} {k : Kernel} (hcur : k.curPcb ≠ 0)
    (hfull : 8 ≤ firstFree k.cur.fileArray) : openAs img name type k = some (-1, k) := by
  rw [openAs, if_neg hcur, if_pos hfull]

/-- With a free descriptor, a file of a known type is opened in the first one. -/
theorem sysOpenC_known {name : CString} {e : Nat} {k : Kernel}
    (he : img.lookup name = some (some e)) (htype : img.dentryType e ≤ 2) (hcur : k.curPcb ≠ 0)
    (hfree : firstFree k.cur.fileArray < 8) :
    ∃ k', sysOpenC img (some name) k = some ((firstFree k.cur.fileArray : Int), k') ∧
      k'.fd (firstFree k.cur.fileArray) = img.opened e ∧
      ∀ j, j ≠ firstFree k.cur.fileArray → k'.fd j = k.fd j := by
  obtain ⟨fs, hsys⟩ := sysOpenC_found he k
  -- the routine sees the table in the descriptor, and finds the same one free
  have hsame : firstFree (Kernel.setTable { k with fs := fs } (firstFree k.cur.fileArray)
      (tableOfType (img.dentryType e))).cur.fileArray = firstFree k.cur.fileArray :=
    firstFree_setTable _ _ _
  obtain ⟨r, k', hopen, hdesc⟩ := openPtr_known he htype
    (k := Kernel.setTable { k with fs := fs } (firstFree k.cur.fileArray)
      (tableOfType (img.dentryType e)))
    (by rw [hsame]; exact hfree)
    (by rw [hsame, Kernel.setTable, Kernel.fd_setFd])
  rw [hsame] at hdesc
  refine ⟨k', ?_, hdesc, fun j hj => ?_⟩
  · rw [hsys, openAs_free (k := { k with fs := fs }) hcur hfree]
    show Option.map _ ((tableOfType (img.dentryType e)).openPtr img name (Kernel.setTable
      { k with fs := fs } (firstFree k.cur.fileArray) (tableOfType (img.dentryType e)))) = _
    rw [hopen]
    rfl
  · rw [openPtr_fd hopen (by rw [hsame]; exact hj)]
    exact Kernel.fd_setFd_of_ne _ _ hj

/-- A file of an unknown type leaves the first free descriptor free. -/
theorem sysOpenC_unknown {name : CString} {e : Nat} {k : Kernel}
    (he : img.lookup name = some (some e)) (htype : 2 < img.dentryType e) (hcur : k.curPcb ≠ 0)
    (hfree : firstFree k.cur.fileArray < 8) :
    ∃ k', sysOpenC img (some name) k = some ((firstFree k.cur.fileArray : Int), k') ∧
      ¬ (k'.fd (firstFree k.cur.fileArray)).InUse := by
  obtain ⟨fs, hsys⟩ := sysOpenC_found he k
  have htable : tableOfType (img.dentryType e) = .terminalTable := by
    match img.dentryType e, htype with
    | _ + 3, _ => rfl
  refine ⟨(terminalOpen (Kernel.setTable { k with fs := fs } (firstFree k.cur.fileArray)
    .terminalTable)).2, ?_, ?_⟩
  · rw [hsys, openAs_free (k := { k with fs := fs }) hcur hfree, htable]
    rfl
  · have hfd : ((terminalOpen (Kernel.setTable { k with fs := fs } (firstFree k.cur.fileArray)
        .terminalTable)).2.fd (firstFree k.cur.fileArray)).flags =
        (k.fd (firstFree k.cur.fileArray)).flags := by
      show ((Kernel.setTable { k with fs := fs } (firstFree k.cur.fileArray)
        .terminalTable).fd (firstFree k.cur.fileArray)).flags = _
      rw [Kernel.setTable, Kernel.fd_setFd]
      rfl
    show ¬ Flags.InUse _
    rw [hfd]
    exact (firstFree_spec hfree).2

/-- What a successful open of a file of a known type has done. -/
theorem sysOpenC_entry {name : CString} {e i : Nat} {k k' : Kernel}
    (he : img.lookup name = some (some e)) (htype : img.dentryType e ≤ 2)
    (h : sysOpenC img (some name) k = some ((i : Int), k')) :
    i = firstFree k.cur.fileArray ∧ i < 8 ∧ k'.fd i = img.opened e ∧
      ∀ j, j ≠ i → k'.fd j = k.fd j := by
  obtain ⟨fs, hsys⟩ := sysOpenC_found he k
  rw [hsys] at h
  have hcur : k.curPcb ≠ 0 := by
    intro h0
    rw [openAs, if_pos (show ({ k with fs := fs } : Kernel).curPcb = 0 from h0)] at h
    cases h
  obtain ⟨hneg, -⟩ | ⟨hfree, hret, -⟩ := openAs_cases h
  · omega
  obtain rfl : i = firstFree k.cur.fileArray := Int.ofNat.inj hret
  obtain ⟨k'', hk'', hdesc, hothers⟩ := sysOpenC_known he htype hcur hfree
  rw [← hsys, hk''] at h
  obtain ⟨-, rfl⟩ := Prod.mk.inj (Option.some.inj h)
  exact ⟨rfl, hfree, hdesc, hothers⟩

theorem firstFree_least {k : Kernel} {j : Nat} (h2 : 2 ≤ j) (hlt : j < firstFree k.cur.fileArray) :
    (k.fd j).InUse := by
  unfold firstFree at hlt
  by_contra hfree
  rcases hf : (List.range' 2 6).find? (fun i => ¬ (k.cur.fileArray i).InUse) with - | i
  · rw [hf] at hlt
    exact List.find?_eq_none.mp hf j (List.mem_range'_1.mpr ⟨h2, hlt⟩) (decide_eq_true hfree)
  · rw [hf] at hlt
    have hno := (List.find?_range'_eq_some.mp hf).2.2 j h2 hlt
    rw [decide_eq_true (show ¬ (k.cur.fileArray j).InUse from hfree)] at hno
    cases hno

/-- The promise of `sys_open_c`: a descriptor that it returns is the lowest that was
free, is in use afterwards with position 0, and is the only one changed. -/
def OpensLowest (img : Image) (filename : Option CString) (k : Kernel) : Prop :=
  ∀ ret k', sysOpenC img filename k = some (ret, k') → 0 ≤ ret →
    ∃ i : Nat, ret = i ∧ (2 ≤ i ∧ i < 8) ∧ ¬ (k.fd i).InUse ∧
      (∀ j, 2 ≤ j → j < i → (k.fd j).InUse) ∧
      (k'.fd i).InUse ∧ (k'.fd i).filePos = 0 ∧ ∀ j, j ≠ i → k'.fd j = k.fd j

/-- The name leads to a file of a type that `sys_open_c` does not know, and a
descriptor is free. -/
def OpensUnknown (img : Image) (filename : Option CString) (k : Kernel) : Prop :=
  ∃ name e, filename = some name ∧ img.lookup name = some (some e) ∧ 2 < img.dentryType e ∧
    ∃ i, 2 ≤ i ∧ i < 8 ∧ ¬ (k.fd i).InUse

theorem firstFree_lt {k : Kernel} (h : ∃ i, 2 ≤ i ∧ i < 8 ∧ ¬ (k.fd i).InUse) :
    firstFree k.cur.fileArray < 8 := by
  obtain ⟨i, h2, h8, hfree⟩ := h
  by_contra hge
  exact hfree (firstFree_least h2 (by omega))

theorem opensLowest_iff {k : Kernel} (hcur : k.curPcb ≠ 0) (filename : Option CString) :
    OpensLowest img filename k ↔ ¬ OpensUnknown img filename k := by
  constructor
  · rintro h ⟨name, e, rfl, he, htype, hfree⟩
    obtain ⟨k', hopen, hnot⟩ := sysOpenC_unknown he htype hcur (firstFree_lt hfree)
    obtain ⟨i, hi, -, -, -, huse, -⟩ := h _ _ hopen (Int.natCast_nonneg _)
    rw [← Int.ofNat.inj hi] at huse
    exact hnot huse
  · intro h ret k' hopen hret
    obtain ⟨fs, ⟨hneg, -⟩ | ⟨name, e, rfl, he, hopenAs⟩⟩ := sysOpenC_cases hopen
    · omega
    obtain ⟨hneg, -⟩ | ⟨hfree, rfl, -⟩ := openAs_cases hopenAs
    · omega
    have hspec := firstFree_spec hfree
    have htype : img.dentryType e ≤ 2 := by
      by_contra hgt
      exact h ⟨name, e, rfl, he, by omega, _, hspec.1, hfree, hspec.2⟩
    obtain ⟨hi, -, hdesc, hothers⟩ := sysOpenC_entry he htype hopen
    refine ⟨_, rfl, ⟨hspec.1, hfree⟩, hspec.2, fun j h2 hlt => firstFree_least h2 hlt, ?_, ?_, hothers⟩
    · rw [hdesc]
      exact img.opened_inUse e
    · rw [hdesc]
      rfl

/-- Claiming the first free descriptor. -/
theorem free_claim {k k' : Kernel} {i : Nat} {rest : List Nat} (h : k.free = i :: rest)
    (huse : (k'.fd i).InUse) (hothers : ∀ j, j ≠ i → k'.fd j = k.fd j) : k'.free = rest := by
  have hnodup : (i :: rest).Nodup := by
    rw [← h]
    exact List.Nodup.filter _ List.nodup_range'
  have hremove : k'.free = k.free.filter fun j => j ≠ i := by
    rw [Kernel.free, Kernel.free, List.filter_filter]
    refine List.filter_congr fun j _ => ?_
    by_cases hj : j = i
    · subst hj
      simp [huse]
    · rw [hothers j hj]
      simp [hj]
  rw [hremove, h, List.filter_cons_of_neg (by simp)]
  refine List.filter_eq_self.mpr fun j hj => decide_eq_true ?_
  rintro rfl
  exact (List.nodup_cons.mp hnodup).1 hj

/-- Opening existing files one after the other. -/
theorem run_opens {names : List CString}
    (hnames : ∀ name ∈ names, ∃ e, img.lookup name = some (some e) ∧ img.dentryType e ≤ 2)
    {k : Kernel} (hcur : k.curPcb ≠ 0) :
    ∃ k', run (step img) k (names.map fun name => .open (some name)) =
      some (((k.free.map fun i : Nat => Seen.ofInt (i : Int)) ++
        List.replicate names.length (Seen.ofInt (-1))).take names.length, k') := by
  induction names generalizing k with
  | nil => exact ⟨k, rfl⟩
  | cons name names ih =>
      obtain ⟨e, he, htype⟩ := hnames name List.mem_cons_self
      have ih' := fun (k : Kernel) (hcur : k.curPcb ≠ 0) =>
        ih (fun name' hmem => hnames name' (List.mem_cons_of_mem name hmem)) hcur
      rcases hfree : k.free with - | ⟨i, rest⟩
      · -- all are in use
        have hfull : firstFree k.cur.fileArray = 8 := by
          rw [firstFree_eq, hfree]
          rfl
        obtain ⟨fs, hsys⟩ := sysOpenC_found he k
        rw [openAs_full (k := { k with fs := fs }) hcur hfull.ge] at hsys
        obtain ⟨k', hrun⟩ := ih' { k with fs := fs } hcur
        have hfree' : ({ k with fs := fs } : Kernel).free = [] := hfree
        refine ⟨k', ?_⟩
        rw [List.map_cons, run, step, hsys]
        show Option.map _ (run (step img) { k with fs := fs } _) = _
        rw [hrun, hfree']
        simp [List.replicate_succ]
      · have hfirst : firstFree k.cur.fileArray = i := by
          rw [firstFree_eq, hfree]
          rfl
        have hi : i < 8 := by
          have hmem : i ∈ k.free := by
            rw [hfree]
            exact List.mem_cons_self
          exact (Kernel.mem_free.mp hmem).2.1
        obtain ⟨k₁, hsys, hdesc, hothers⟩ := sysOpenC_known he htype hcur (by rw [hfirst]; exact hi)
        rw [hfirst] at hsys hdesc hothers
        have hfree₁ : k₁.free = rest :=
          free_claim hfree (by rw [hdesc]; exact img.opened_inUse e) hothers
        obtain ⟨k', hrun⟩ := ih' k₁ (by rw [(sysOpenC_keeps hsys).curPcb]; exact hcur)
        refine ⟨k', ?_⟩
        rw [List.map_cons, run, step, hsys]
        show Option.map _ (run (step img) k₁ _) = _
        rw [hrun, hfree₁]
        -- the row of failures is longer than what is taken of it
        have htake : ∀ l : List Seen, (l ++ List.replicate (names.length + 1) (Seen.ofInt (-1))).take
            names.length = (l ++ List.replicate names.length (Seen.ofInt (-1))).take names.length := by
          intro l
          rw [List.replicate_succ', ← List.append_assoc, List.take_append_of_le_length (by simp)]
        rw [List.length_cons, List.map_cons, List.cons_append, List.take_succ_cons, htake]
        rfl

/-- **An open claims the lowest free descriptor** and touches no other, unless the
file has a type that `sys_open_c` does not know.  So opens of existing files of the
known types return the free descriptors in order, each once, and then -1. -/
theorem open_claims_lowest (img : Image) {k : Kernel} (hcur : k.curPcb ≠ 0) :
    (∀ filename, OpensLowest img filename k ↔ ¬ OpensUnknown img filename k) ∧
    k.free.Nodup ∧
    ∀ names : List CString,
      (∀ name ∈ names, ∃ e, img.lookup name = some (some e) ∧ img.dentryType e ≤ 2) →
      ∃ k', run (step img) k (names.map fun name => .open (some name)) =
        some (((k.free.map fun i : Nat => Seen.ofInt (i : Int)) ++
          List.replicate names.length (Seen.ofInt (-1))).take names.length, k') :=
  ⟨opensLowest_iff hcur, List.Nodup.filter _ List.nodup_range', fun _ hnames => run_opens hnames hcur⟩

/-- The first process opens `a` eight times. -/
theorem open_claims_lowest_tiny :
    let k := final (step tinyImage) tinyBoot [tinyExecute]
    OpensLowest tinyImage (some tinyName) k ∧
    (run (step tinyImage) k (List.replicate 8 (.open (some tinyName)))).map Prod.fst =
      some ([2, 3, 4, 5, 6, 7, -1, -1].map Seen.ofInt) := by
  intro k
  obtain ⟨hlowest, -, hopens⟩ := open_claims_lowest tinyImage (k := k) (by decide +kernel)
  have hlookup : tinyImage.lookup tinyName = some (some 1) := by decide +kernel
  refine ⟨(hlowest _).mpr ?_, ?_⟩
  · rintro ⟨name, e, hname, he, htype, -⟩
    rw [← Option.some.inj hname, hlookup] at he
    rw [← Option.some.inj (Option.some.inj he)] at htype
    exact absurd htype (by decide +kernel)
  · obtain ⟨k', hrun⟩ := hopens (List.replicate 8 tinyName) (fun name hname => ⟨1, by
      rw [List.eq_of_mem_replicate hname]
      exact hlookup, by decide +kernel⟩)
    rw [List.map_replicate] at hrun
    have hfree : k.free = [2, 3, 4, 5, 6, 7] := by decide +kernel
    rw [hrun, hfree]
    rfl

/-- Opening `c` returns 2 and leaves descriptor 2 free, so that opening it again
returns 2 again. -/
theorem unknown_type_not_claimed :
    (run (step strayImage) tinyBoot [tinyExecute, .open (some strayType),
        .open (some strayType)]).map (fun r => (r.1.map Seen.outcome, decide (r.2.fd 2).InUse)) =
      some ([.entered, .ret 2, .ret 2], false) := by
  decide +kernel

end LinuxBasedOs
