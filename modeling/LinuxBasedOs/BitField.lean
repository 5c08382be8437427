/-
LinuxBasedOs/BitField.lean

Bit fields of a machine word.  A field is named by its lowest bit `lo` and
its length `len`; `get` reads it as a number and `set` overwrites it, the way
compiled code does: clear the field with the complement of a mask, then `or`
in the shifted value.

The whole theory is the one bit-level equation `getLsbD_set`; the two laws
everything else uses are read off it:

* `get_set_same` — a field just written reads back what was written (cut to
  the field's length);
* `get_set_of_disjoint` — a write to one field is invisible in every field
  that shares no bit with it.
-/
import Mathlib.Tactic

namespace BitField

variable {w : Nat}

/-! ### Reading and writing a field -/

/-- The field of `x` that starts at bit `lo` and has `len` bits. -/
def get (x : BitVec w) (lo len : Nat) : Nat :=
  x.toNat >>> lo % 2 ^ len

/-- The mask that has exactly the bits of the field set. -/
def mask (w lo len : Nat) : BitVec w :=
  BitVec.ofNat w (2 ^ len - 1) <<< lo

/-- Overwrite the field with `v`, cut to the field's length. -/
def set (x : BitVec w) (lo len v : Nat) : BitVec w :=
  (x &&& ~~~ mask w lo len) ||| (BitVec.ofNat w (v % 2 ^ len) <<< lo)

/-! ### Bit by bit -/

theorem testBit_get (x : BitVec w) (lo len i : Nat) :
    (get x lo len).testBit i = (decide (i < len) && x.getLsbD (lo + i)) := by
  rw [get, Nat.testBit_mod_two_pow, Nat.testBit_shiftRight, BitVec.testBit_toNat]

theorem getLsbD_mask (lo len i : Nat) :
    (mask w lo len).getLsbD i = decide (i < w ∧ lo ≤ i ∧ i < lo + len) := by
  simp only [mask, BitVec.getLsbD_shiftLeft, BitVec.getLsbD_ofNat, Nat.testBit_two_pow_sub_one]
  by_cases hw : i < w
  · by_cases hlo : lo ≤ i
    · have h₁ : ¬ i < lo := by omega
      have h₂ : i - lo < w := by omega
      have h₃ : i - lo < len ↔ i < lo + len := by omega
      simp [hw, hlo, h₁, h₂, h₃]
    · have h₁ : i < lo := by omega
      simp [hlo, h₁]
  · simp [hw]

theorem getLsbD_set (x : BitVec w) (lo len v i : Nat) :
    (set x lo len v).getLsbD i
      = if lo ≤ i ∧ i < lo + len then decide (i < w) && v.testBit (i - lo)
        else x.getLsbD i := by
  simp only [set, BitVec.getLsbD_or, BitVec.getLsbD_and, BitVec.getLsbD_not, getLsbD_mask,
    BitVec.getLsbD_shiftLeft, BitVec.getLsbD_ofNat, Nat.testBit_mod_two_pow]
  by_cases hw : i < w
  · by_cases hf : lo ≤ i ∧ i < lo + len
    · -- inside the field the mask clears the old bit
      have h₁ : ¬ i < lo := by omega
      have h₂ : i - lo < len := by omega
      have h₃ : i - lo < w := by omega
      simp [hw, hf, h₁, h₂, h₃]
    · -- outside it the value contributes nothing
      have hv : ¬ (lo ≤ i ∧ i - lo < len) := by omega
      by_cases hlo : i < lo
      · have : ¬ lo ≤ i := by omega
        simp [hw, hlo, this]
      · have h₂ : ¬ i - lo < len := by omega
        have h₃ : ¬ i < lo + len := by omega
        simp [hw, h₂, h₃]
  · have hx : x.getLsbD i = false := BitVec.getLsbD_of_ge x i (by omega)
    simp [hw, hx]

/-! ### The two laws -/

theorem get_lt (x : BitVec w) (lo len : Nat) : get x lo len < 2 ^ len :=
  Nat.mod_lt _ (Nat.two_pow_pos len)

/-- A field reads back what was written to it. -/
theorem get_set_same (x : BitVec w) (lo len v : Nat) (h : lo + len ≤ w) :
    get (set x lo len v) lo len = v % 2 ^ len := by
  apply Nat.eq_of_testBit_eq
  intro i
  rw [testBit_get, getLsbD_set, Nat.testBit_mod_two_pow]
  by_cases hi : i < len
  · have h₁ : lo ≤ lo + i ∧ lo + i < lo + len := by omega
    have h₂ : lo + i < w := by omega
    simp [hi, h₂]
  · simp [hi]

/-- A write to one field does not show in a field that shares no bit with
it. -/
theorem get_set_of_disjoint (x : BitVec w) {lo len lo' len' : Nat} (v : Nat)
    (h : lo' + len' ≤ lo ∨ lo + len ≤ lo') :
    get (set x lo len v) lo' len' = get x lo' len' := by
  apply Nat.eq_of_testBit_eq
  intro i
  rw [testBit_get, testBit_get, getLsbD_set]
  by_cases hi : i < len'
  · have hout : ¬ (lo ≤ lo' + i ∧ lo' + i < lo + len) := by omega
    rw [if_neg hout]
  · simp [hi]

/-- Only the last write to a field counts. -/
theorem set_set (x : BitVec w) (lo len v v' : Nat) :
    set (set x lo len v) lo len v' = set x lo len v' := by
  apply BitVec.eq_of_getLsbD_eq
  intro i _
  rw [getLsbD_set, getLsbD_set, getLsbD_set]
  by_cases hf : lo ≤ i ∧ i < lo + len
  · rw [if_pos hf, if_pos hf]
  · rw [if_neg hf, if_neg hf, if_neg hf]

/-- The other way compiled code reads a field: mask first, then shift. -/
theorem get_eq_and_mask (x : BitVec w) (lo len : Nat) (h : lo + len ≤ w) :
    ((x &&& mask w lo len) >>> lo).toNat = get x lo len := by
  apply Nat.eq_of_testBit_eq
  intro i
  rw [testBit_get, BitVec.testBit_toNat, BitVec.getLsbD_ushiftRight, BitVec.getLsbD_and,
    getLsbD_mask]
  by_cases hi : i < len
  · have hbit : lo + i < w ∧ lo ≤ lo + i ∧ lo + i < lo + len := by omega
    rw [decide_eq_true hbit, decide_eq_true hi, Bool.and_true, Bool.true_and]
  · have hbit : ¬ (lo + i < w ∧ lo ≤ lo + i ∧ lo + i < lo + len) := by omega
    rw [decide_eq_false hbit, decide_eq_false hi, Bool.and_false, Bool.false_and]

/-! ### Masks -/

/-- What is put under the mask does not show outside it. -/
theorem merge_and_not (a b m : BitVec w) :
    ((a &&& ~~~m) ||| (b &&& m)) &&& ~~~m = a &&& ~~~m := by
  apply BitVec.eq_of_getLsbD_eq
  intro i _
  simp only [BitVec.getLsbD_and, BitVec.getLsbD_or, BitVec.getLsbD_not]
  cases a.getLsbD i <;> cases b.getLsbD i <;> cases m.getLsbD i <;> simp

/-- A word is what lies outside the mask and what lies under it. -/
theorem split_or (a m : BitVec w) : (a &&& ~~~m &&& ~~~m) ||| (a &&& m) = a := by
  apply BitVec.eq_of_getLsbD_eq
  intro i hi
  simp only [BitVec.getLsbD_and, BitVec.getLsbD_or, BitVec.getLsbD_not]
  cases a.getLsbD i <;> cases m.getLsbD i <;> simp [hi]

theorem and_not_of_and_eq_zero {a m : BitVec w} (h : a &&& m = 0) : a &&& ~~~m = a := by
  apply BitVec.eq_of_getLsbD_eq
  intro i hi
  have hbit : (a.getLsbD i && m.getLsbD i) = false := by
    rw [← BitVec.getLsbD_and, h]
    exact BitVec.getLsbD_zero
  simp only [BitVec.getLsbD_and, BitVec.getLsbD_not, hi, decide_true, Bool.true_and]
  cases ha : a.getLsbD i
  · rfl
  · rw [ha, Bool.true_and] at hbit
    rw [hbit]
    rfl

end BitField
