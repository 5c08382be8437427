/-
LinuxBasedOs/Paging.lean

The page directory and the two page tables that `init_paging` builds
(paging_c.c), and the two-level walk of the processor over them.

Entries are words with bit fields, as the structures of `paging_c.h` declare
them.  One page directory entry serves as a 4 MB page or as a pointer to a page
table, by its page-size bit.  After `init_paging` the kernel only ever writes
the base address of the program page (entry 32), so a reachable paging state is
`paged L b` for some base `b`, and `walk_paged` says what every address is
translated to in it.
-/
import LinuxBasedOs.BitField

namespace LinuxBasedOs

/-! ### Entries -/

/-- A page directory or page table entry. -/
abbrev Entry := BitVec 32

/-- Bits 0 to 11, which the three entry structures have in common but for the
names of bits 6 and 7. -/
def attributes (present rwEnable userSuper writeThrough cacheDisabled accessed dirty pageSize
    globalPage available : Nat) : Entry :=
  let e₀ := BitField.set 0 0 1 present
  let e₁ := BitField.set (BitField.set e₀ 1 1 rwEnable) 2 1 userSuper
  let e₂ := BitField.set (BitField.set e₁ 3 1 writeThrough) 4 1 cacheDisabled
  let e₃ := BitField.set (BitField.set e₂ 5 1 accessed) 6 1 dirty
  BitField.set (BitField.set (BitField.set e₃ 7 1 pageSize) 8 1 globalPage) 9 3 available

/-- `pd_entry_smallPage_t` and `pt_entry_t`: a 20-bit base address. -/
def smallEntry (attr : Entry) (base : Nat) : Entry := BitField.set attr 12 20 base

/-- `pd_entry_bigPage_t`: a 10-bit base address above `pat_idx` and `reserved`. -/
def bigEntry (attr : Entry) (patIdx reserved base : Nat) : Entry :=
  BitField.set (BitField.set (BitField.set attr 12 1 patIdx) 13 9 reserved) 22 10 base

/-- The bit `present`. -/
def Entry.present (e : Entry) : Nat := BitField.get e 0 1

/-- The bit `user_super`. -/
def Entry.userSuper (e : Entry) : Nat := BitField.get e 2 1

/-- The bit `page_size`. -/
def Entry.pageSize (e : Entry) : Nat := BitField.get e 7 1

/-- The base of a page table, or of a page of 4 KB. -/
def Entry.tableBase (e : Entry) : Nat := BitField.get e 12 20

/-- The base of a page of 4 MB. -/
def Entry.pageBase (e : Entry) : Nat := BitField.get e 22 10

/-! ### Paging state -/

/-- The page directory, and the page tables by the page number they lie at. -/
structure Paging where
  pageDirectory : Nat → Entry
  table : Nat → Nat → Entry

/-- Where the linker has put `page_table_0` and `page_table_1`: each aligned to
a page, so given by a page number. -/
structure Layout where
  pageTable0 : Nat
  pageTable1 : Nat
  lt0 : pageTable0 < 2 ^ 20
  lt1 : pageTable1 < 2 ^ 20
  ne : pageTable0 ≠ pageTable1

/-- The page of video memory, for the kernel. -/
def vidMem : Entry := smallEntry (attributes 1 1 0 0 0 0 0 0 0 0) (0xB8000 >>> 12)

/-- The page of the kernel. -/
def kernelPage : Entry := bigEntry (attributes 1 1 0 0 1 0 0 1 1 0) 0 0 (0x400000 >>> 22)

/-- The page of the program, before `sys_execute_c` gives it a base. -/
def programPage : Entry := bigEntry (attributes 1 1 1 0 1 0 0 1 0 0) 0 0 0

/-- The page of video memory, for the user. -/
def programVmem : Entry := smallEntry (attributes 1 1 1 0 0 0 0 0 0 0) (0xB8000 >>> 12)

/-- The directory entry for the first 4 MB. -/
def pt0 (L : Layout) : Entry := smallEntry (attributes 1 1 0 0 0 0 0 0 0 0) L.pageTable0

/-- The directory entry for the user's view of video memory. -/
def ptVmem (L : Layout) : Entry := smallEntry (attributes 1 1 1 0 0 0 0 0 0 0) L.pageTable1

/-- `PRO_ADDR`, the directory entry of the program page. -/
def proAddr : Nat := 32

/-- `USER_VMEM`, the one of the user's view of video memory. -/
def userVmem : Nat := 33

/-- `init_paging`.  The directory and `page_table_0` are cleared first;
`page_table_1` is not, but like all of the kernel's BSS it starts out zero. -/
def initPaging (L : Layout) : Paging :=
  let table0 := Function.update (fun _ => (0 : Entry)) (0xB8000 >>> 12) vidMem
  let table1 := Function.update (fun _ => (0 : Entry)) (0xB8000 >>> 12) programVmem
  let dir₁ := Function.update (Function.update (fun _ => (0 : Entry)) 0 (pt0 L)) 1 kernelPage
  let dir₂ := Function.update (Function.update dir₁ proAddr programPage) userVmem (ptVmem L)
  { pageDirectory := Function.update dir₂ 0 (pt0 L)
    table := Function.update (Function.update (fun _ _ => 0) L.pageTable0 table0)
      L.pageTable1 table1 }

/-- `get_bigPage`: the entry, if it is present; the page-size bit is not
looked at. -/
def Paging.getBigPage (p : Paging) (dirIdx : Nat) : Option Entry :=
  if 1024 ≤ dirIdx then none
  else if (p.pageDirectory dirIdx).present = 0 then none
  else some (p.pageDirectory dirIdx)

/-- `get_pageTable_entry`. -/
def Paging.getPageTableEntry (p : Paging) (dirIdx tableIdx : Nat) : Option Entry :=
  if 1024 ≤ dirIdx then none
  else if 1024 ≤ tableIdx then none
  else if (p.pageDirectory dirIdx).present = 0 then none
  else
    let e := p.table (p.pageDirectory dirIdx).tableBase tableIdx
    if e.present = 0 then none else some e

/-- `program_page->page_base_addr = base`. -/
def Paging.setBase (p : Paging) (base : Nat) : Paging :=
  { p with pageDirectory :=
      Function.update p.pageDirectory proAddr (BitField.set (p.pageDirectory proAddr) 22 10 base) }

/-- `program_page->page_base_addr`. -/
def Paging.base (p : Paging) : Nat := (p.pageDirectory proAddr).pageBase

/-! ### The walk -/

/-- A translated address: where it leads, and whether user code may use it. -/
structure Translation where
  phys : Nat
  user : Bool
  deriving DecidableEq

/-- The walk of the processor, with 4 MB pages enabled; a 32-bit address. -/
def Paging.walk (p : Paging) (v : Nat) : Option Translation :=
  let pde := p.pageDirectory (v / 2 ^ 22)
  if pde.present = 0 then none
  else if pde.pageSize = 1 then
    some ⟨pde.pageBase * 2 ^ 22 + v % 2 ^ 22, pde.userSuper = 1⟩
  else
    let pte := p.table pde.tableBase (v / 2 ^ 12 % 1024)
    if pte.present = 0 then none
    else some ⟨pte.tableBase * 2 ^ 12 + v % 2 ^ 12, pde.userSuper = 1 ∧ pte.userSuper = 1⟩

/-! ### What the kernel's entries say -/

/-- An entry that points to a page table keeps its attributes. -/
theorem smallEntry_fields (attr : Entry) {base : Nat} (h : base < 2 ^ 20) :
    (smallEntry attr base).present = attr.present ∧
      (smallEntry attr base).userSuper = attr.userSuper ∧
      (smallEntry attr base).pageSize = attr.pageSize ∧
      (smallEntry attr base).tableBase = base := by
  refine ⟨?_, ?_, ?_, ?_⟩
  · exact BitField.get_set_of_disjoint attr base (.inl (by decide))
  · exact BitField.get_set_of_disjoint attr base (.inl (by decide))
  · exact BitField.get_set_of_disjoint attr base (.inl (by decide))
  · rw [Entry.tableBase, smallEntry, BitField.get_set_same attr 12 20 base (by decide)]
    exact Nat.mod_eq_of_lt h

/-- The program page after its base address has been set. -/
def programPageAt (base : Nat) : Entry := BitField.set programPage 22 10 base

theorem programPageAt_fields {base : Nat} (h : base < 2 ^ 10) :
    (programPageAt base).present = 1 ∧ (programPageAt base).userSuper = 1 ∧
      (programPageAt base).pageSize = 1 ∧ (programPageAt base).pageBase = base := by
  refine ⟨?_, ?_, ?_, ?_⟩
  · exact (BitField.get_set_of_disjoint programPage base (.inl (by decide))).trans (by decide)
  · exact (BitField.get_set_of_disjoint programPage base (.inl (by decide))).trans (by decide)
  · exact (BitField.get_set_of_disjoint programPage base (.inl (by decide))).trans (by decide)
  · rw [Entry.pageBase, programPageAt, BitField.get_set_same programPage 22 10 base (by decide)]
    exact Nat.mod_eq_of_lt h

/-! ### Reachable paging states -/

/-- The state that `init_paging` builds, with the program page at `base`. -/
def paged (L : Layout) (base : Nat) : Paging := (initPaging L).setBase base

theorem initPaging_proAddr (L : Layout) : (initPaging L).pageDirectory proAddr = programPage := by
  simp [initPaging, proAddr, userVmem]

theorem initPaging_eq (L : Layout) : initPaging L = paged L 0 := by
  have hdir := initPaging_proAddr L
  have hset : BitField.set programPage 22 10 0 = programPage := by decide
  rw [paged, Paging.setBase, hdir, hset, ← hdir, Function.update_eq_self]

theorem pageDirectory_paged (L : Layout) (base : Nat) :
    (paged L base).pageDirectory =
      Function.update (initPaging L).pageDirectory proAddr (programPageAt base) := by
  rw [paged, Paging.setBase, initPaging_proAddr]
  rfl

@[simp] theorem setBase_paged (L : Layout) (b base : Nat) :
    (paged L b).setBase base = paged L base := by
  simp only [paged, Paging.setBase, Function.update_self, Function.update_idem, BitField.set_set]

@[simp] theorem base_paged (L : Layout) {base : Nat} (h : base < 2 ^ 10) : (paged L base).base = base := by
  rw [Paging.base, pageDirectory_paged, Function.update_self]
  exact (programPageAt_fields h).2.2.2

/-- Every paging state of the kernel has the program page. -/
theorem getBigPage_paged (L : Layout) {base : Nat} (h : base < 2 ^ 10) :
    ∃ e, (paged L base).getBigPage proAddr = some e := by
  have hpres : ((paged L base).pageDirectory proAddr).present = 1 := by
    rw [pageDirectory_paged, Function.update_self]
    exact (programPageAt_fields h).1
  refine ⟨(paged L base).pageDirectory proAddr, ?_⟩
  rw [Paging.getBigPage, if_neg (by decide), if_neg (by rw [hpres]; decide)]

/-- … and the user's view of video memory. -/
theorem getPageTableEntry_paged (L : Layout) (base : Nat) :
    (paged L base).getPageTableEntry userVmem (0xB8000 >>> 12) = some programVmem := by
  have hdir : (paged L base).pageDirectory userVmem = ptVmem L := by
    rw [pageDirectory_paged, Function.update_of_ne (by decide)]
    simp [initPaging, userVmem]
  obtain ⟨hpres, -, -, htable⟩ := smallEntry_fields (attributes 1 1 1 0 0 0 0 0 0 0) L.lt1
  have hentry : (paged L base).table L.pageTable1 (0xB8000 >>> 12) = programVmem := by
    show (initPaging L).table L.pageTable1 (0xB8000 >>> 12) = programVmem
    simp [initPaging]
  have hpres' : (ptVmem L).present = 1 := hpres.trans (by decide)
  have htable' : (ptVmem L).tableBase = L.pageTable1 := htable
  rw [Paging.getPageTableEntry, if_neg (by decide), if_neg (by decide), hdir, hpres',
    if_neg (by decide), htable', hentry]
  rfl

/-! ### Translation in a reachable state -/

/-- The walk through a directory entry that points to a page table with one
entry, the video page. -/
theorem walk_video {p : Paging} {v table : Nat} {d : Entry} {e : Entry}
    (hdir : p.pageDirectory (v / 2 ^ 22) = smallEntry d table) (hlt : table < 2 ^ 20)
    (hpres : d.present = 1) (hsize : d.pageSize = 0)
    (htable : p.table table = Function.update (fun _ => (0 : Entry)) (0xB8000 >>> 12) e)
    (he : e.present = 1 ∧ e.tableBase = 0xB8) :
    p.walk v =
      if v / 2 ^ 12 % 1024 = 0xB8 then
        some ⟨0xB8000 + v % 2 ^ 12, d.userSuper = 1 ∧ e.userSuper = 1⟩
      else none := by
  obtain ⟨h1, h2, h3, h4⟩ := smallEntry_fields d hlt
  simp only [Paging.walk, hdir, h1, h2, h3, h4, hpres, hsize, htable]
  rw [if_neg (by decide), if_neg (by decide)]
  have hidx : 0xB8000 >>> 12 = 0xB8 := rfl
  rw [hidx]
  by_cases hv : v / 2 ^ 12 % 1024 = 0xB8
  · rw [hv, Function.update_self, he.1, he.2, if_neg (by decide), if_pos rfl]
    rfl
  · rw [if_neg hv, Function.update_of_ne hv, if_pos (by decide)]

/-- **What every address means.**  The first 4 MB hold the video page, for the
kernel only; the next 4 MB are the kernel; entry 32 is the program page, and
entry 33 the video page again, both for the user; nothing else is mapped. -/
theorem walk_paged (L : Layout) {base : Nat} (hbase : base < 2 ^ 10) (v : Nat) :
    (paged L base).walk v =
      if v / 2 ^ 22 = 0 then
        if v / 2 ^ 12 % 1024 = 0xB8 then some ⟨0xB8000 + v % 2 ^ 12, false⟩ else none
      else if v / 2 ^ 22 = 1 then some ⟨2 ^ 22 + v % 2 ^ 22, false⟩
      else if v / 2 ^ 22 = 32 then some ⟨base * 2 ^ 22 + v % 2 ^ 22, true⟩
      else if v / 2 ^ 22 = 33 then
        if v / 2 ^ 12 % 1024 = 0xB8 then some ⟨0xB8000 + v % 2 ^ 12, true⟩ else none
      else none := by
  have hdir := pageDirectory_paged L base
  by_cases h0 : v / 2 ^ 22 = 0
  · rw [if_pos h0, walk_video (d := attributes 1 1 0 0 0 0 0 0 0 0) (e := vidMem) ?_ L.lt0
      (by decide) (by decide) ?_ (by decide)]
    · rfl
    · rw [hdir, h0]
      rfl
    · show (initPaging L).table L.pageTable0 = _
      simp [initPaging, L.ne]
  rw [if_neg h0]
  by_cases h1 : v / 2 ^ 22 = 1
  · have hentry : (paged L base).pageDirectory (v / 2 ^ 22) = kernelPage := by
      rw [hdir, h1]
      rfl
    rw [if_pos h1]
    simp only [Paging.walk, hentry]
    rw [if_neg (by decide), if_pos (by decide)]
    rfl
  rw [if_neg h1]
  by_cases h32 : v / 2 ^ 22 = 32
  · obtain ⟨hp, hu, hs, hb⟩ := programPageAt_fields hbase
    have hentry : (paged L base).pageDirectory (v / 2 ^ 22) = programPageAt base := by
      rw [hdir, h32]
      exact Function.update_self ..
    rw [if_pos h32]
    simp only [Paging.walk, hentry, hp, hu, hs, hb]
    rfl
  rw [if_neg h32]
  by_cases h33 : v / 2 ^ 22 = 33
  · rw [if_pos h33, walk_video (d := attributes 1 1 1 0 0 0 0 0 0 0) (e := programVmem) ?_ L.lt1
      (by decide) (by decide) ?_ (by decide)]
    · rfl
    · rw [hdir, h33]
      rfl
    · show (initPaging L).table L.pageTable1 = _
      simp [initPaging]
  · -- the directory was cleared, and nothing was put here
    have hentry : (paged L base).pageDirectory (v / 2 ^ 22) = 0 := by
      have hpro : v / 2 ^ 22 ≠ proAddr := h32
      have hvmem : v / 2 ^ 22 ≠ userVmem := h33
      rw [hdir, Function.update_of_ne hpro]
      simp only [initPaging]
      rw [Function.update_of_ne h0, Function.update_of_ne hvmem, Function.update_of_ne hpro,
        Function.update_of_ne h1, Function.update_of_ne h0]
    rw [if_neg h33]
    simp only [Paging.walk, hentry]
    rw [if_pos (by decide)]

/-! ### The two lookups -/

theorem Entry.present_ne_zero (e : Entry) : e.present ≠ 0 ↔ e.present = 1 := by
  have h : e.present < 2 ^ 1 := Nat.mod_lt _ (by decide)
  omega

theorem Entry.pageSize_ne_zero (e : Entry) : e.pageSize ≠ 0 ↔ e.pageSize = 1 := by
  have h : e.pageSize < 2 ^ 1 := Nat.mod_lt _ (by decide)
  omega

/-- `get_bigPage` finds the present entries, whatever they are. -/
theorem Paging.getBigPage_isSome (p : Paging) (d : Nat) :
    (p.getBigPage d).isSome ↔ d < 1024 ∧ (p.pageDirectory d).present = 1 := by
  rw [← Entry.present_ne_zero, Paging.getBigPage]
  split_ifs with hd hpres
  · exact iff_of_false Bool.false_ne_true fun h => absurd h.1 (by omega)
  · exact iff_of_false Bool.false_ne_true fun h => h.2 hpres
  · exact iff_of_true rfl ⟨by omega, hpres⟩

/-- `get_pageTable_entry` follows every present entry. -/
theorem Paging.getPageTableEntry_isSome (p : Paging) (d t : Nat) :
    (p.getPageTableEntry d t).isSome ↔ d < 1024 ∧ t < 1024 ∧ (p.pageDirectory d).present = 1 ∧
      (p.table (p.pageDirectory d).tableBase t).present = 1 := by
  rw [← Entry.present_ne_zero, ← Entry.present_ne_zero]
  simp only [Paging.getPageTableEntry]
  split_ifs with hd ht hpres hentry
  · exact iff_of_false Bool.false_ne_true fun h => absurd h.1 (by omega)
  · exact iff_of_false Bool.false_ne_true fun h => absurd h.2.1 (by omega)
  · exact iff_of_false Bool.false_ne_true fun h => h.2.2.1 hpres
  · exact iff_of_false Bool.false_ne_true fun h => h.2.2.2 hentry
  · exact iff_of_true rfl ⟨by omega, by omega, hpres, hentry⟩

/-- What the two lookups are for: one finds the pages of page tables, the other the 4 MB
pages, and no directory entry is taken for both. -/
structure Paging.LooksUp (p : Paging) (d t : Nat) : Prop where
  small : (p.getPageTableEntry d t).isSome ↔
    d < 1024 ∧ t < 1024 ∧ (p.pageDirectory d).present = 1 ∧ (p.pageDirectory d).pageSize = 0 ∧
      (p.table (p.pageDirectory d).tableBase t).present = 1
  big : (p.getBigPage d).isSome ↔
    d < 1024 ∧ (p.pageDirectory d).present = 1 ∧ (p.pageDirectory d).pageSize = 1
  apart : ¬ ((p.getPageTableEntry d t).isSome ∧ (p.getBigPage d).isSome)

/-- **The lookups tell the two kinds of entries apart** exactly where there is nothing to
tell apart: neither looks at the page-size bit, so a present directory entry has to be a
4 MB page, and what lies where it would have a page table must not look like a page. -/
theorem Paging.looksUp_iff (p : Paging) (d t : Nat) :
    p.LooksUp d t ↔ (d < 1024 → (p.pageDirectory d).present = 1 →
      (p.pageDirectory d).pageSize = 1 ∧
        (t < 1024 → (p.table (p.pageDirectory d).tableBase t).present = 0)) := by
  have hsmall := p.getPageTableEntry_isSome d t
  have hbig := p.getBigPage_isSome d
  have hsize := (p.pageDirectory d).pageSize_ne_zero
  have hentry := (p.table (p.pageDirectory d).tableBase t).present_ne_zero
  constructor
  · intro h hd hpres
    obtain ⟨-, -, hps⟩ := h.big.mp (hbig.mpr ⟨hd, hpres⟩)
    refine ⟨hps, fun ht => ?_⟩
    by_contra hne
    exact h.apart ⟨hsmall.mpr ⟨hd, ht, hpres, hentry.mp hne⟩, hbig.mpr ⟨hd, hpres⟩⟩
  · intro h
    -- no page table is looked into
    have hno : ¬ (p.getPageTableEntry d t).isSome := by
      intro hs
      obtain ⟨hd, ht, hpres, hmapped⟩ := hsmall.mp hs
      have habsent := (h hd hpres).2 ht
      omega
    refine ⟨iff_of_false hno ?_, ?_, fun hboth => hno hboth.1⟩
    · rintro ⟨hd, -, hpres, hps, -⟩
      have hone := (h hd hpres).1
      omega
    · rw [hbig]
      exact ⟨fun ⟨hd, hpres⟩ => ⟨hd, hpres, (h hd hpres).1⟩, fun ⟨hd, hpres, _⟩ => ⟨hd, hpres⟩⟩

/-- In the state that `init_paging` leaves, directory entry 0 points to a page table, and
both lookups accept it. -/
theorem Paging.lookups_overlap :
    let p := initPaging ⟨0x500, 0x501, by decide, by decide, by decide⟩
    (p.pageDirectory 0).pageSize = 0 ∧ (p.getBigPage 0).isSome ∧
      (p.getPageTableEntry 0 (0xB8000 >>> 12)).isSome := by
  decide +kernel

end LinuxBasedOs
