/-
LinuxBasedOs/Frames.lean

What system calls leave alone: the console, and the memory behind `filename_buf`.

`read_dentry_by_name` copies every name that it looks at to `filename_buf`, and a name that
fills its field is copied together with the byte behind it (see `names_within_iff`).  That
byte is no part of the buffer, and in a kernel image it is some other variable.  Here the
buffer has memory of its own behind it.  What is shown of the kernel is true of an image
where it has not if nothing is stored there: `run_bufferKept` says when that is so.
-/
import LinuxBasedOs.Dentries
import LinuxBasedOs.SysCalls

namespace LinuxBasedOs

open Bytes Transition

variable {img : Image} {k t u : Kernel}

/-! ### Behind the buffer -/

/-- From `k` to `t` nothing has been stored behind `filename_buf`. -/
def Kernel.BufferKept (k t : Kernel) : Prop :=
  ∀ i, nameLen ≤ i → t.fs.filenameBuf i = k.fs.filenameBuf i

namespace Kernel.BufferKept

theorem of_eq (h : t.fs.filenameBuf = k.fs.filenameBuf) : k.BufferKept t :=
  fun i _ => by rw [h]

theorem trans (h : k.BufferKept t) (h' : t.BufferKept u) : k.BufferKept u :=
  fun i hi => (h' i hi).trans (h i hi)

end Kernel.BufferKept

/-- No name runs on that a lookup of `name` copies: those of the entries up to the first one
with this name. -/
structure Image.NamesWithin (img : Image) (name : List UInt8) : Prop where
  directory : img.nDirEntries ≤ 63
  names : name.length ≤ nameLen → ∀ d, 1 ≤ d → d ≤ img.nDirEntries →
    (∀ e, 1 ≤ e → e < d → img.name e ≠ name) → ¬ img.NameReaches d nameLen

/-- Such a lookup stays in `filename_buf`. -/
theorem readDentryByName_behind {name : CString} {fs : FsGlobals} {r : Option (Nat × Nat) × FsGlobals}
    (h : readDentryByName img name fs = some r) (hname : img.NamesWithin name.bytes) {i : Nat}
    (hi : nameLen ≤ i) : r.2.filenameBuf i = fs.filenameBuf i := by
  obtain ⟨found, fs'⟩ := r
  have hwithin := (readDentryByNameStores_within_iff hname.directory name fs).mpr hname.names
  rw [← (storeAll_readDentryByNameStores h).1]
  refine storeAll_of_not_mem fun p hp heq => ?_
  have hlt := hwithin.filenameBuf p hp
  omega

/-! ### Calls -/

/-- Stores by the kernel go to the PCBs at most. -/
theorem storeAll_pcbs {ps : List (Nat × UInt8)} (h : k.storeAll ps = some t) :
    ∃ pcbs, t = { k with pcbs := pcbs } := by
  induction ps generalizing k with
  | nil => exact ⟨k.pcbs, (Option.some.inj h).symm⟩
  | cons p ps ih =>
      obtain ⟨k', hstore, hrest⟩ := Option.bind_eq_some_iff.mp h
      obtain ⟨a, -, rfl⟩ := Option.map_eq_some_iff.mp hstore
      obtain ⟨pcbs, rfl⟩ := ih hrest
      rw [Kernel.pokePhys]
      split_ifs
      · exact ⟨pcbs, rfl⟩
      · exact ⟨pcbs, rfl⟩

theorem openEntry_frame {type : Nat} {flags : Flags} {name : CString} {v : Int}
    (h : openEntry img type flags name k = some (v, t)) :
    t.console = k.console ∧ (img.NamesWithin name.bytes → k.BufferKept t) := by
  unfold openEntry at h
  simp only at h
  split_ifs at h
  · obtain ⟨-, rfl⟩ := Prod.mk.inj (Option.some.inj h)
    exact ⟨rfl, fun _ => .of_eq rfl⟩
  · obtain ⟨r, hr, ho⟩ := Option.map_eq_some_iff.mp h
    have hbehind (hname : img.NamesWithin name.bytes) (i : Nat) (hi : nameLen ≤ i) :
        r.2.filenameBuf i = k.fs.filenameBuf i := readDentryByName_behind hr hname hi
    rcases r with ⟨- | ⟨d, len⟩, fs⟩
    · obtain ⟨-, rfl⟩ := Prod.mk.inj ho
      exact ⟨rfl, hbehind⟩
    · simp only at ho
      split_ifs at ho
      · obtain ⟨-, rfl⟩ := Prod.mk.inj ho
        exact ⟨rfl, hbehind⟩
      · obtain ⟨-, rfl⟩ := Prod.mk.inj ho
        exact ⟨rfl, hbehind⟩

/-- `terminal_open`, which an entry of an unknown type leads to. -/
def Console.reopened (c : Console) : Console := { c with kbd := c.kbd.keyboardEnvironment }

theorem openPtr_frame {type : Nat} {name : CString} {v : Int}
    (h : (tableOfType type).openPtr img name k = some (v, t)) :
    t.console = (if 2 < type then k.console.reopened else k.console) ∧
      (img.NamesWithin name.bytes → k.BufferKept t) := by
  rcases type with - | - | - | type
  · have ht : (rtcOpen k).2 = t := congrArg Prod.snd (Option.some.inj h)
    rw [← ht, if_neg (by decide), rtcOpen]
    simp only
    split_ifs
    · exact ⟨rfl, fun _ => .of_eq rfl⟩
    · exact ⟨rfl, fun _ => .of_eq rfl⟩
  · exact openEntry_frame h
  · exact openEntry_frame h
  · have ht : (terminalOpen k).2 = t := congrArg Prod.snd (Option.some.inj h)
    rw [← ht, if_pos (by omega)]
    exact ⟨rfl, fun _ => .of_eq rfl⟩

/-- The name is that of an entry of an unknown type. -/
def Image.unknownType (img : Image) (name : CString) : Prop :=
  match img.lookup name with
  | some (some d) => 2 < img.dentryType d
  | _ => False

instance (img : Image) (name : CString) : Decidable (img.unknownType name) := by
  unfold Image.unknownType
  split <;> infer_instance

/-- The name is looked up twice. -/
theorem sysOpenC_frame {filename : Option CString} {v : Int}
    (h : sysOpenC img filename k = some (v, t)) :
    t.console = (if v ≠ -1 ∧ ∃ name ∈ filename, img.unknownType name then k.console.reopened
        else k.console) ∧
      ((∀ name ∈ filename, img.NamesWithin name.bytes) → k.BufferKept t) := by
  cases filename with
  | none =>
      obtain ⟨-, rfl⟩ := Prod.mk.inj (Option.some.inj h)
      exact ⟨by simp, fun _ => .of_eq rfl⟩
  | some name =>
      obtain ⟨r, hr, hopen⟩ := Option.bind_eq_some_iff.mp h
      have hbehind (hname : img.NamesWithin name.bytes) : k.BufferKept { k with fs := r.2 } :=
        fun i hi => readDentryByName_behind hr hname hi
      have hlookup := readDentryByName_lookup hr
      -- the first lookup decides whether there is a driver to call, which looks the name up again
      rcases r with ⟨- | ⟨d, len⟩, fs⟩
      · obtain ⟨rfl, rfl⟩ := Prod.mk.inj (Option.some.inj hopen)
        exact ⟨by simp, fun hname => hbehind (hname name rfl)⟩
      · have htype : (∃ name' ∈ some name, img.unknownType name') ↔ 2 < img.dentryType d := by
          simp [Image.unknownType, hlookup]
        obtain ⟨rfl, rfl⟩ | ⟨-, rfl, r, hptr⟩ := openAs_cases hopen
        · exact ⟨by simp, fun hname => hbehind (hname name rfl)⟩
        · obtain ⟨hconsole, hkept⟩ := openPtr_frame hptr
          refine ⟨?_, fun hname => (hbehind (hname name rfl)).trans (hkept (hname name rfl))⟩
          rw [hconsole]
          refine if_congr ?_ rfl rfl
          rw [htype, and_iff_right (by omega)]

theorem closeFd_frame (type : Nat) (fd : Int) (k : Kernel) :
    (closeFd type fd k).2.console = k.console ∧
      (closeFd type fd k).2.fs.filenameBuf = k.fs.filenameBuf := by
  rcases closeFd_cases type fd k with hc | ⟨-, -, -, -, hc⟩
  · rw [hc]
    exact ⟨rfl, rfl⟩
  · rw [hc]
    exact ⟨rfl, rfl⟩

theorem closePtr_frame {ops : FdOps} {fd : Int} {v : Int} (h : ops.closePtr fd k = some (v, t)) :
    t.console = k.console ∧ t.fs.filenameBuf = k.fs.filenameBuf := by
  cases ops with
  | null | wild => cases h
  | rtcTable | dirTable =>
      have ht : (closeFd _ fd k).2 = t := congrArg Prod.snd (Option.some.inj h)
      rw [← ht]
      exact closeFd_frame _ fd k
  | fileTable =>
      have ht : (fileClose fd k).2 = t := congrArg Prod.snd (Option.some.inj h)
      -- the names of the two entries are cleared, which are no part of the buffer
      rw [← ht, fileClose]
      simp only
      split_ifs
      · exact closeFd_frame _ fd k
      · exact closeFd_frame _ fd k
  | terminalTable =>
      have ht : (terminalClose fd k).2 = t := congrArg Prod.snd (Option.some.inj h)
      rw [← ht, terminalClose]
      split_ifs
      · exact ⟨rfl, rfl⟩
      · exact ⟨rfl, rfl⟩
      · exact ⟨rfl, rfl⟩

theorem sysCloseC_frame {fd : Int} {v : Int} (h : sysCloseC fd k = some (v, t)) :
    t.console = k.console ∧ t.fs.filenameBuf = k.fs.filenameBuf := by
  obtain rfl | ⟨-, hptr⟩ := sysCloseC_cases h
  · exact ⟨rfl, rfl⟩
  · exact closePtr_frame hptr

/-- The console is for descriptor 0 only. -/
theorem readPtr_frame {ops : FdOps} {fd : Int} {buf nbytes : Nat} {env : ReadEnv} {e : ReadEffect}
    (h : ops.readPtr img fd buf nbytes env k = some e) {pcbs : Nat → Pcb} :
    (e.after { k with pcbs := pcbs }).fs.filenameBuf = k.fs.filenameBuf ∧
      (fd ≠ 0 → (e.after { k with pcbs := pcbs }).console = k.console) := by
  cases ops with
  | null | wild => cases h
  | rtcTable =>
      obtain rfl := rtcRead_some h
      exact ⟨rfl, fun _ => rfl⟩
  | dirTable =>
      replace h : dirRead img fd buf nbytes k = some e := h
      unfold dirRead at h
      simp only at h
      split_ifs at h
      -- four ways to return before the entry is read
      iterate 4
        · rw [← Option.some.inj h]
          exact ⟨rfl, fun _ => rfl⟩
      · obtain ⟨r, hr, rfl⟩ := Option.map_eq_some_iff.mp h
        -- a lookup by index does not go through `filename_buf`
        have hbuffer : r.2.filenameBuf = k.fs.filenameBuf := by
          unfold readDentryByIndex at hr
          split_ifs at hr
          obtain ⟨len, -, rfl⟩ := Option.map_eq_some_iff.mp hr
          rfl
        split_ifs
        · exact ⟨rfl, fun _ => rfl⟩
        · exact ⟨hbuffer, fun _ => rfl⟩
  | fileTable =>
      rw [← Option.some.inj h, fileRead]
      split_ifs
      · exact ⟨rfl, fun _ => rfl⟩
      · exact ⟨rfl, fun _ => rfl⟩
      · exact ⟨rfl, fun _ => rfl⟩
  | terminalTable =>
      obtain rfl | ⟨rfl, v, rfl⟩ := terminalRead_cases h
      · exact ⟨rfl, fun _ => rfl⟩
      · exact ⟨rfl, fun hne => absurd rfl hne⟩

theorem sysReadC_frame {fd : Int} {buf : Nat} {nbytes : Int} {env : ReadEnv}
    {r : Int × List (Nat × UInt8)} (h : sysReadC img fd buf nbytes env k = some (r, t)) :
    t.fs.filenameBuf = k.fs.filenameBuf ∧ (fd ≠ 0 → t.console = k.console) := by
  obtain ⟨e, he, hstore⟩ := Option.bind_eq_some_iff.mp h
  obtain ⟨k', hk', hr⟩ := Option.map_eq_some_iff.mp hstore
  obtain ⟨-, rfl⟩ := Prod.mk.inj hr
  obtain ⟨pcbs, rfl⟩ := storeAll_pcbs hk'
  obtain rfl | ⟨-, hread⟩ := sysReadEffect_cases he
  · exact ⟨rfl, fun _ => rfl⟩
  · exact readPtr_frame hread

theorem writePtr_frame {ops : FdOps} {fd : Int} {data : Mem} {nbytes : Nat} {v : Int}
    (h : ops.writePtr fd data nbytes k = some (v, t)) : t.fs = k.fs := by
  cases ops with
  | null | wild => cases h
  | dirTable | fileTable =>
      obtain ⟨-, rfl⟩ := Prod.mk.inj (Option.some.inj h)
      rfl
  | rtcTable =>
      have ht : (rtcWrite data k).2 = t := congrArg Prod.snd (Option.some.inj h)
      rw [← ht, rtcWrite_eq]
      split_ifs
      · rfl
      · rfl
  | terminalTable =>
      have ht : (terminalWrite fd data nbytes k).2 = t := congrArg Prod.snd (Option.some.inj h)
      rw [← ht, terminalWrite]
      split_ifs
      · rfl
      · rfl

theorem sysWriteC_frame {fd : Int} {buf : Nat} {data : Mem} {nbytes v : Int}
    (h : sysWriteC fd buf data nbytes k = some (v, t)) : t.fs = k.fs := by
  unfold sysWriteC at h
  split_ifs at h
  iterate 3
    · obtain ⟨-, rfl⟩ := Prod.mk.inj (Option.some.inj h)
      rfl
  · exact writePtr_frame h
  · obtain ⟨-, rfl⟩ := Prod.mk.inj (Option.some.inj h)
    rfl

theorem closeAll_frame {fds : List Nat} (h : closeAll fds k = some t) :
    t.fs.filenameBuf = k.fs.filenameBuf := by
  induction fds generalizing k with
  | nil => rw [← Option.some.inj h]
  | cons fd fds ih =>
      unfold closeAll at h
      split_ifs at h
      · obtain ⟨r, hclose, hrest⟩ := Option.bind_eq_some_iff.mp h
        exact (ih hrest).trans (closePtr_frame (v := r.1) hclose).2
      · exact ih h

theorem sysHaltC_frame {status : Nat} {v : Int} (h : sysHaltC status k = some (v, t)) :
    t.fs.filenameBuf = k.fs.filenameBuf := by
  unfold sysHaltC at h
  simp only at h
  split_ifs at h with hnone hnull
  · obtain ⟨-, rfl⟩ := Prod.mk.inj (Option.some.inj h)
    rfl
  · split at h
    · obtain ⟨-, rfl⟩ := Prod.mk.inj (Option.some.inj h)
      rfl
    · cases h
  · split at h
    · obtain ⟨-, rfl⟩ := Prod.mk.inj (Option.some.inj h)
      rfl
    · obtain ⟨k₂, hclose, hr⟩ := Option.map_eq_some_iff.mp h
      obtain ⟨-, rfl⟩ := Prod.mk.inj hr
      have hfs : k₂.restore.fs = k₂.fs := rfl
      rw [hfs, closeAll_frame hclose]

theorem load_frame {command : CString} {env : ExecEnv} {program : List (Nat × UInt8)} {o : Outcome}
    (h : load command env program k = some (o, t)) : t.fs = k.fs := by
  unfold load at h
  split_ifs at h
  split at h
  · obtain ⟨-, rfl⟩ := Prod.mk.inj (Option.some.inj h)
    rfl
  · split at h
    · obtain ⟨-, rfl⟩ := Prod.mk.inj (Option.some.inj h)
      rfl
    · next k' hstore =>
        obtain ⟨pcbs, rfl⟩ := storeAll_pcbs hstore
        obtain ⟨-, rfl⟩ := Prod.mk.inj (Option.some.inj h)
        rfl

theorem sysExecuteC_frame {command : CString} {env : ExecEnv} {o : Outcome}
    (h : sysExecuteC img command env k = some (o, t))
    (hname : img.NamesWithin (commandWord command).bytes) : k.BufferKept t := by
  unfold sysExecuteC at h
  split_ifs at h
  · obtain ⟨-, rfl⟩ := Prod.mk.inj (Option.some.inj h)
    exact .of_eq rfl
  · obtain ⟨r, hr, hrest⟩ := Option.bind_eq_some_iff.mp h
    have hbehind : k.BufferKept { k with fs := r.2 } :=
      fun i hi => readDentryByName_behind hr hname hi
    rcases r with ⟨- | ⟨d, len⟩, fs⟩
    · obtain ⟨-, rfl⟩ := Prod.mk.inj (Option.some.inj hrest)
      exact hbehind
    · simp only at hrest
      split_ifs at hrest
      · obtain ⟨-, rfl⟩ := Prod.mk.inj (Option.some.inj hrest)
        exact hbehind
      · exact hbehind.trans (.of_eq (by rw [load_frame hrest]))
      · obtain ⟨-, rfl⟩ := Prod.mk.inj (Option.some.inj hrest)
        exact hbehind

/-! ### Runs -/

/-- The names that an event looks up do not lead behind the buffer. -/
def Event.NamesFit (img : Image) : Event → Prop
  | .open filename => ∀ name ∈ filename, img.NamesWithin name.bytes
  | .execute command _ => img.NamesWithin (commandWord command).bytes
  | _ => True

theorem step_bufferKept {e : Event} (hname : e.NamesFit img) {o : Seen}
    (h : step img k e = some (o, t)) : k.BufferKept t := by
  cases e with
  | execute command env =>
      obtain ⟨⟨out, u⟩, hexec, hr⟩ := Option.bind_eq_some_iff.mp h
      have hkept : k.BufferKept u := sysExecuteC_frame hexec hname
      cases out with
      | ret v =>
          obtain ⟨-, rfl⟩ := Prod.mk.inj (Option.some.inj hr)
          exact hkept
      | entered =>
          obtain ⟨-, rfl⟩ := Prod.mk.inj (Option.some.inj hr)
          exact hkept
      | fault =>
          -- the process that has called ends
          obtain ⟨r, hhalt, heq⟩ := Option.map_eq_some_iff.mp hr
          obtain ⟨-, rfl⟩ := Prod.mk.inj heq
          exact hkept.trans (.of_eq (sysHaltC_frame (v := r.1) hhalt))
  | halt status =>
      obtain ⟨v, hhalt, -⟩ := map_output_eq_some.mp h
      exact .of_eq (sysHaltC_frame hhalt)
  | «open» filename =>
      obtain ⟨v, hopen, -⟩ := map_output_eq_some.mp h
      exact (sysOpenC_frame hopen).2 hname
  | close fd =>
      obtain ⟨v, hclose, -⟩ := map_output_eq_some.mp h
      exact .of_eq (sysCloseC_frame hclose).2
  | read fd buf nbytes env =>
      obtain ⟨r, hread, heq⟩ := Option.map_eq_some_iff.mp h
      obtain ⟨-, rfl⟩ := Prod.mk.inj heq
      exact .of_eq (sysReadC_frame (r := r.1) hread).1
  | write fd buf data nbytes =>
      obtain ⟨v, hwrite, -⟩ := map_output_eq_some.mp h
      exact .of_eq (by rw [sysWriteC_frame hwrite])
  | key | tick =>
      obtain ⟨-, rfl⟩ := Prod.mk.inj (Option.some.inj h)
      exact .of_eq rfl

/-- **Behind the buffer** nothing changes in a run, if no name that is looked up leads
there. -/
theorem run_bufferKept {es : List Event} (hnames : ∀ e ∈ es, e.NamesFit img) {os : List Seen}
    (h : run (step img) k es = some (os, t)) : k.BufferKept t :=
  run_invariant (I := fun u => k.BufferKept u) (G := fun _ e => e.NamesFit img)
    (fun _ _ _ _ hu he hs => hu.trans (step_bufferKept he hs)) (.of_eq rfl)
    (along_of_forall hnames k) h

end LinuxBasedOs
