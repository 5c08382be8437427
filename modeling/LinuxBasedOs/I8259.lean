/-
LinuxBasedOs/I8259.lean

Two cascaded 8259A interrupt controllers, as their programmer and the processor see
them.

A controller has two ports.  A word with bit 4 set, written to the command port, starts
its initialization: the data port then takes two or three more words, and only after
them it is the port of the mask register.  The other command that matters here is the
end of interrupt.

The processor acknowledges a request with `Pair.acknowledge` and is told a vector.  A
controller passes on the request of the first line that asks, unless it is masked or a
line that comes before it is in service.  A line that a second controller is connected
to passes on that one's requests, and the vector is the second one's.

A line may withdraw its request before it is acknowledged.  The controller then has
interrupted the processor for nothing and still owes it a vector: it gives that of line 7,
and puts nothing in service.

Rotating priorities and the special modes are left out.
-/
import Mathlib.Tactic

namespace I8259

/-- What a port takes. -/
abbrev Byte := BitVec 8

/-! ### Requests -/

/-- The lines that ask for an interrupt, while the processor answers one: when it is
interrupted, and in the two cycles of its acknowledgement. -/
structure Requests where
  asked : Nat → Bool
  first : Nat → Bool
  second : Nat → Bool

namespace Requests

/-- The lines do not change. -/
def steady (lines : Nat → Bool) : Requests := ⟨lines, lines, lines⟩

/-- No line withdraws its request. -/
structure Held (r : Requests) : Prop where
  first : ∀ n, r.asked n = true → r.first n = true
  second : ∀ n, r.first n = true → r.second n = true

end Requests

/-! ### One controller -/

/-- What the data port takes next. -/
inductive Phase where
  | icw2 | icw3 | icw4
  | ready             -- a mask
  deriving DecidableEq

/-- The registers of one controller, and where it is in its initialization. -/
structure Chip where
  phase : Phase
  single : Bool       -- there is no third word
  withIcw4 : Bool
  base : Nat          -- the vector of line 0
  icw3 : Byte
  icw4 : Byte
  imr : Byte          -- the lines that are masked
  isr : Byte          -- the lines in service
  deriving DecidableEq

namespace Chip

/-- A write to the command port. -/
def command (v : Byte) (c : Chip) : Chip :=
  if v.getLsbD 4 then
    -- the first word also clears the mask register
    { c with
      phase := .icw2
      single := v.getLsbD 1
      withIcw4 := v.getLsbD 0
      icw4 := 0
      imr := 0
      isr := 0 }
  else if v.getLsbD 3 then c
  -- end of interrupt: of the first line in service, or of the line that is named
  else if v >>> 5 = 1 then { c with isr := c.isr &&& (c.isr - 1) }
  else if v >>> 5 = 3 then { c with isr := c.isr &&& ~~~(1#8 <<< (v &&& 7).toNat) }
  else c

/-- A write to the data port. -/
def data (v : Byte) (c : Chip) : Chip :=
  match c.phase with
  | .icw2 =>
      { c with
        base := (v &&& 0xF8).toNat
        phase := if ¬ c.single then .icw3 else if c.withIcw4 then .icw4 else .ready }
  | .icw3 => { c with icw3 := v, phase := if c.withIcw4 then .icw4 else .ready }
  | .icw4 => { c with icw4 := v, phase := .ready }
  | .ready => { c with imr := v }

/-- The line whose request is passed on. -/
def pending (requests : Nat → Bool) (c : Chip) : Option Nat :=
  if c.phase ≠ .ready then none
  else
    match (List.range 8).find? fun i => c.isr.getLsbD i || (requests i && !c.imr.getLsbD i) with
    | none => none
    | some i => if c.isr.getLsbD i then none else some i

/-- The request of a line is acknowledged; with automatic end of interrupt it is not
kept. -/
def serve (i : Nat) (c : Chip) : Chip :=
  if c.icw4.getLsbD 1 then c else { c with isr := c.isr ||| (1#8 <<< i) }

/-- What is passed on is asked for and not masked, and no line before it is in service. -/
theorem pending_eq_some {requests : Nat → Bool} {c : Chip} {i : Nat}
    (h : c.pending requests = some i) :
    i < 8 ∧ requests i = true ∧ c.imr.getLsbD i = false ∧ c.phase = .ready ∧
      ∀ j ≤ i, c.isr.getLsbD j = false := by
  unfold pending at h
  split_ifs at h with hphase
  rcases hfind : (List.range 8).find? fun i => c.isr.getLsbD i || (requests i && !c.imr.getLsbD i)
    with - | j
  · rw [hfind] at h
    cases h
  · rw [hfind] at h
    simp only at h
    split_ifs at h with hisr
    obtain rfl := Option.some.inj h
    obtain ⟨hj, hmem, hbefore⟩ := List.find?_range_eq_some.mp hfind
    -- the line was not found for being in service
    simp only [hisr, Bool.false_or, Bool.and_eq_true, Bool.not_eq_true'] at hj
    refine ⟨List.mem_range.mp hmem, hj.1, hj.2, not_not.mp hphase, fun k hk => ?_⟩
    rcases Nat.lt_or_eq_of_le hk with hlt | rfl
    · have hk' := hbefore k hlt
      rw [Bool.not_eq_true', Bool.or_eq_false_iff] at hk'
      exact hk'.1
    · exact eq_false_of_ne_true hisr

/-- A controller passes something on if a line asks that is not masked, and neither it nor
a line before it is in service. -/
theorem pending_isSome_iff {requests : Nat → Bool} {c : Chip} :
    (c.pending requests).isSome = true ↔
      c.phase = .ready ∧ ∃ i < 8, requests i = true ∧ c.imr.getLsbD i = false ∧
        ∀ j ≤ i, c.isr.getLsbD j = false := by
  constructor
  · intro h
    obtain ⟨i, hi⟩ := Option.isSome_iff_exists.mp h
    obtain ⟨hi8, hreq, himr, hphase, hisr⟩ := pending_eq_some hi
    exact ⟨hphase, i, hi8, hreq, himr, hisr⟩
  · rintro ⟨hphase, i, hi, hreq, himr, hisr⟩
    rw [pending, if_neg (not_not.mpr hphase)]
    rcases hfind : (List.range 8).find? fun i => c.isr.getLsbD i || (requests i && !c.imr.getLsbD i)
      with - | j
    · -- line `i` itself would have been found
      have hnot := List.find?_eq_none.mp hfind i (List.mem_range.mpr hi)
      simp [hreq, himr] at hnot
    · obtain ⟨-, -, hbefore⟩ := List.find?_range_eq_some.mp hfind
      have hj : j ≤ i := by
        by_contra hij
        have hnot := hbefore i (by omega)
        simp [hreq, himr] at hnot
      simp [hisr j hj]

/-- More requests do not keep a controller from passing one on. -/
theorem pending_isSome_mono {requests requests' : Nat → Bool} {c : Chip}
    (h : ∀ i, requests i = true → requests' i = true)
    (hp : (c.pending requests).isSome = true) : (c.pending requests').isSome = true := by
  rw [pending_isSome_iff] at hp ⊢
  obtain ⟨hphase, i, hi, hreq, hrest⟩ := hp
  exact ⟨hphase, i, hi, h i hreq, hrest⟩

end Chip

/-! ### Two controllers -/

/-- A master, and a slave on one of its lines. -/
structure Pair where
  master : Chip
  slave : Chip
  deriving DecidableEq

namespace Pair

/-- Whether the second controller is connected to line `i` of the first one. -/
def cascaded (p : Pair) (i : Nat) : Bool :=
  p.master.icw3.getLsbD i && (p.slave.icw3 &&& 7).toNat == i

/-- What line `i` of the first controller asks for. -/
def masterRequests (requests : Nat → Bool) (p : Pair) (i : Nat) : Bool :=
  if p.cascaded i then (p.slave.pending fun j => requests (8 + j)).isSome else requests i

/-- The processor is interrupted, acknowledges it and gets a vector.  Lines 0 to 7 are those
of the first controller, lines 8 to 15 those of the second one. -/
def acknowledge (r : Requests) (p : Pair) : Option (Nat × Pair) :=
  (p.master.pending (p.masterRequests r.asked)).map fun _ =>
    match p.master.pending (p.masterRequests r.first) with
    | none => (p.master.base + 7, p)                -- spurious: nothing is left to serve
    | some i =>
        let q := { p with master := p.master.serve i }
        if p.cascaded i then
          match p.slave.pending fun j => r.second (8 + j) with
          -- spurious: the first controller has line `i` in service, the second one nothing
          | none => (p.slave.base + 7, q)
          | some j => (p.slave.base + j, { q with slave := p.slave.serve j })
        else (p.master.base + i, q)

/-- The requests of line `n` get through to the processor, if nothing else asks. -/
def unmasked (p : Pair) (n : Nat) : Bool :=
  if n < 8 then !p.master.imr.getLsbD n else !p.slave.imr.getLsbD (n - 8)

theorem masterRequests_mono {requests requests' : Nat → Bool} {p : Pair}
    (h : ∀ n, requests n = true → requests' n = true) (i : Nat)
    (hi : p.masterRequests requests i = true) : p.masterRequests requests' i = true := by
  unfold masterRequests at hi ⊢
  split_ifs at hi ⊢
  · exact Chip.pending_isSome_mono (fun j => h (8 + j)) hi
  · exact h i hi

/-- **Where a vector comes from**: a line of the first controller, one of the second by way
of the line that it is connected to, or a request that was withdrawn, of the first or of
the second controller. -/
theorem acknowledge_cases {r : Requests} {p q : Pair} {v : Nat}
    (h : p.acknowledge r = some (v, q)) :
    (∃ i < 8, p.cascaded i = false ∧ r.first i = true ∧ p.unmasked i = true ∧
        v = p.master.base + i ∧ q = { p with master := p.master.serve i }) ∨
      (∃ i < 8, ∃ j < 8, p.cascaded i = true ∧ r.second (8 + j) = true ∧ p.unmasked i = true ∧
        p.unmasked (8 + j) = true ∧ v = p.slave.base + j ∧
        q = { master := p.master.serve i, slave := p.slave.serve j }) ∨
      (¬ r.Held ∧ v = p.master.base + 7 ∧ q = p) ∨
      ∃ i < 8, p.cascaded i = true ∧ ¬ r.Held ∧ p.unmasked i = true ∧ v = p.slave.base + 7 ∧
        q = { p with master := p.master.serve i } := by
  obtain ⟨k, hk, hq⟩ := Option.map_eq_some_iff.mp h
  rcases hfirst : p.master.pending (p.masterRequests r.first) with - | i
  · -- a request that is held is there in the first cycle
    right; right; left
    rw [hfirst] at hq
    obtain ⟨rfl, rfl⟩ := Prod.mk.inj hq
    refine ⟨fun hheld => ?_, rfl, rfl⟩
    have hsome := Chip.pending_isSome_mono (masterRequests_mono hheld.first)
      (Option.isSome_iff_exists.mpr ⟨k, hk⟩)
    rw [hfirst] at hsome
    cases hsome
  obtain ⟨hi8, hreq, hmask, -⟩ := Chip.pending_eq_some hfirst
  have hunmasked : p.unmasked i = true := by
    rw [unmasked, if_pos hi8, hmask]
    rfl
  rw [hfirst] at hq
  rcases hcas : p.cascaded i with - | -
  · left
    simp only [hcas] at hq
    obtain ⟨rfl, rfl⟩ := Prod.mk.inj hq
    rw [masterRequests, hcas] at hreq
    exact ⟨i, hi8, hcas, hreq, hunmasked, rfl, rfl⟩
  · rw [masterRequests, hcas] at hreq
    simp only [hcas, if_true] at hq
    rcases hsecond : p.slave.pending fun j => r.second (8 + j) with - | j
    · -- and one of the second controller is still there in the second cycle
      right; right; right
      rw [hsecond] at hq
      obtain ⟨rfl, rfl⟩ := Prod.mk.inj hq
      refine ⟨i, hi8, hcas, fun hheld => ?_, hunmasked, rfl, rfl⟩
      have hsome := Chip.pending_isSome_mono (fun j => hheld.second (8 + j)) hreq
      rw [hsecond] at hsome
      cases hsome
    · right; left
      rw [hsecond] at hq
      obtain ⟨rfl, rfl⟩ := Prod.mk.inj hq
      obtain ⟨hj8, hreq', hmask', -⟩ := Chip.pending_eq_some hsecond
      refine ⟨i, hi8, j, hj8, hcas, hreq', hunmasked, ?_, rfl, rfl⟩
      rw [unmasked, if_neg (by omega), Nat.add_sub_cancel_left, hmask']
      rfl

end Pair

end I8259
