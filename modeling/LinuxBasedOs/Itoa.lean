/-
LinuxBasedOs/Itoa.lean

`itoa` of the kernel (lib.c) and `ece391_itoa` of the user programs (ece391support.c).

Both put the digits of a number into a buffer from the lowest to the highest place, end
them with a NUL and reverse the string in place; they differ in the reversal, which in
the user version returns at once when there is nothing to swap.  Main result: for every
32-bit value and every radix from 2 to 36 both leave the same string, the numeral of the
value in that radix (`itoa_numeral`).
-/
import LinuxBasedOs.Bytes
import Mathlib.Data.List.GetD
import Mathlib.Data.Nat.Digits.Lemmas

namespace LinuxBasedOs

open Bytes

/-! ### The routines -/

/-- `lookup[i]`, of `"0123456789ABCDEFGHIJKLMNOPQRSTUVWXYZ"`. -/
def lookup (i : Nat) : UInt8 := UInt8.ofNat (if i < 10 then 48 + i else if i < 36 then 55 + i else 0)

/-- `while (newval > 0) { *newbuf++ = lookup[newval % radix]; newval /= radix; }` with
`n = newbuf - buf`; `none` if it is not done after `left` rounds. -/
def digitsFrom (radix : Nat) : (left newval n : Nat) → Mem → Option (Nat × Mem)
  | 0, newval, n, buf => if newval = 0 then some (n, buf) else none
  | left + 1, newval, n, buf =>
      if newval = 0 then some (n, buf)
      else digitsFrom radix left (newval / radix) (n + 1)
        (Function.update buf n (lookup (newval % radix)))

/-- The body of both routines.  A number of 32 bits has at most 32 digits in any radix
from 2 on. -/
def itoaWith (rev : Mem → Option Mem) (value : Nat) (buf : Mem) (radix : Nat) : Option Mem :=
  if value = 0 then some (Function.update (Function.update buf 0 48) 1 0)
  else (digitsFrom radix 32 value 0 buf).bind fun r => rev (Function.update r.2 r.1 0)

/-- `itoa` of lib.c. -/
def itoa : Nat → Mem → Nat → Option Mem := itoaWith strrev

/-- `ece391_strrev` has a case of its own for strings with nothing to swap. -/
def ece391Strrev (s : Mem) : Option Mem :=
  (strlen s).map fun (len : Nat) =>
    if (len : Int) - 1 ≤ 0 then s else reverseFrom len 0 (len - 1) s

/-- `ece391_itoa` of the user library. -/
def ece391Itoa : Nat → Mem → Nat → Option Mem := itoaWith ece391Strrev

/-! ### Numerals -/

/-- The digits of a number, from the highest place on; 0 has one. -/
def placeValues (radix value : Nat) : List Nat :=
  if value = 0 then [0] else (Nat.digits radix value).reverse

/-- Written with the characters of `lookup`. -/
def numeral (radix value : Nat) : List UInt8 := (placeValues radix value).map lookup

theorem lookup_ne_zero {i : Nat} (h : i < 36) : lookup i ≠ 0 := by
  have hall : ∀ i < 36, lookup i ≠ 0 := by decide
  exact hall i h

theorem placeValues_lt {radix value : Nat} (hr : 2 ≤ radix) :
    ∀ d ∈ placeValues radix value, d < radix := by
  intro d hd
  rw [placeValues] at hd
  split_ifs at hd
  · rw [List.mem_singleton.mp hd]
    omega
  · exact Nat.digits_lt_base hr (List.mem_reverse.mp hd)

theorem length_placeValues_le {radix value k : Nat} (hr : 2 ≤ radix) (hk : 0 < k)
    (hv : value < radix ^ k) : (placeValues radix value).length ≤ k := by
  rw [placeValues]
  split_ifs
  · exact hk
  · rw [List.length_reverse, Nat.digits_length_le_iff hr]
    exact hv

theorem ofDigits_placeValues (radix value : Nat) :
    Nat.ofDigits radix (placeValues radix value).reverse = value := by
  rw [placeValues]
  split_ifs with h0
  · rw [h0]
    simp
  · rw [List.reverse_reverse, Nat.ofDigits_digits]

/-- There is no leading zero, except for 0 itself. -/
theorem head?_placeValues {radix value : Nat} (hv : value ≠ 0) :
    (placeValues radix value).head? ≠ some 0 := by
  rw [placeValues, if_neg hv, List.head?_reverse]
  intro h
  have hne : Nat.digits radix value ≠ [] := Nat.digits_ne_nil_iff_ne_zero.mpr hv
  rw [List.getLast?_eq_some_getLast hne] at h
  exact Nat.getLast_digit_ne_zero radix hv (Option.some.inj h)

theorem numeral_ne_zero {radix value : Nat} (hr : 2 ≤ radix) (hr' : radix ≤ 36) :
    ∀ b ∈ numeral radix value, b ≠ 0 := by
  intro b hb
  obtain ⟨d, hd, rfl⟩ := List.mem_map.mp hb
  have hlt := placeValues_lt hr d hd
  exact lookup_ne_zero (by omega)

theorem length_numeral_le {radix value k : Nat} (hr : 2 ≤ radix) (hk : 0 < k)
    (hv : value < radix ^ k) : (numeral radix value).length ≤ k := by
  rw [numeral, List.length_map]
  exact length_placeValues_le hr hk hv

/-- The `k` lowest digits of a number, from the highest place on. -/
def alignedValues (radix k value : Nat) : List Nat :=
  (List.range k).map fun i => value / radix ^ (k - 1 - i) % radix

/-- Filled up with zeros to `k` places, the digits are the `k` lowest ones. -/
theorem placeValues_aligned {radix value k : Nat} (hr : 2 ≤ radix) (hk : 0 < k)
    (hv : value < radix ^ k) :
    List.replicate (k - (placeValues radix value).length) 0 ++ placeValues radix value =
      alignedValues radix k value := by
  have hlen := length_placeValues_le hr hk hv
  refine List.ext_getElem (by simp [alignedValues]; omega) fun i h₁ h₂ => ?_
  have hik : i < k := by simpa [alignedValues] using h₂
  have hdigit : value / radix ^ (k - 1 - i) % radix = (Nat.digits radix value).getD (k - 1 - i) 0 :=
    (Nat.getD_digits value (k - 1 - i) hr).symm
  simp only [alignedValues, List.getElem_map, List.getElem_range]
  rw [hdigit, List.getElem_append]
  by_cases h0 : value = 0
  · subst h0
    split_ifs with hi
    · simp
    · simp [placeValues]
  have hplaces : placeValues radix value = (Nat.digits radix value).reverse := if_neg h0
  simp only [hplaces, List.length_reverse, List.length_replicate] at hlen ⊢
  split_ifs with hi
  · rw [List.getElem_replicate, List.getD_eq_default _ _ (by omega)]
  · rw [List.getElem_reverse, List.getD_eq_getElem _ _ (by omega)]
    congr 1
    omega

/-! ### What the routines leave in the buffer -/

/-- The digit loop, from any place of the buffer on: it puts out the digits of what is left
of the number. -/
theorem digitsFrom_eq {radix : Nat} (hr : 2 ≤ radix) {left newval : Nat}
    (hlt : newval < radix ^ left) (n : Nat) (buf : Mem) :
    ∃ buf', digitsFrom radix left newval n buf = some (n + (Nat.digits radix newval).length, buf') ∧
      (∀ i < n, buf' i = buf i) ∧
      ∀ i (h : i < (Nat.digits radix newval).length),
        buf' (n + i) = lookup (Nat.digits radix newval)[i] := by
  induction left generalizing newval n buf with
  | zero =>
      have h0 : newval = 0 := by simpa using hlt
      subst h0
      refine ⟨buf, by simp [digitsFrom], fun _ _ => rfl, fun i h => ?_⟩
      simp at h
  | succ left ih =>
      -- the loop stops at 0, before its bound
      by_cases h0 : newval = 0
      · subst h0
        refine ⟨buf, by simp [digitsFrom], fun _ _ => rfl, fun i h => ?_⟩
        simp at h
      · have hdiv : newval / radix < radix ^ left := by
          rw [Nat.div_lt_iff_lt_mul (by omega), ← Nat.pow_succ]
          exact hlt
        have hdigits := Nat.digits_def' hr (Nat.pos_of_ne_zero h0)
        obtain ⟨buf', hloop, hbelow, hplaces⟩ :=
          ih hdiv (n + 1) (Function.update buf n (lookup (newval % radix)))
        refine ⟨buf', ?_, fun i hi => ?_, fun i hi => ?_⟩
        · rw [digitsFrom, if_neg h0, hloop, hdigits, List.length_cons]
          congr 2
          omega
        · rw [hbelow i (by omega), Function.update_of_ne (by omega)]
        · simp only [hdigits] at hi ⊢
          -- the digit of this round, and those of the rounds behind it
          cases i with
          | zero => rw [Nat.add_zero, hbelow n (by omega), Function.update_self, List.getElem_cons_zero]
          | succ i =>
              rw [List.length_cons] at hi
              rw [List.getElem_cons_succ, ← hplaces i (by omega)]
              congr 1
              omega

/-- With a reversal that reverses, the buffer holds the numeral. -/
theorem itoaWith_numeral {rev : Mem → Option Mem}
    (hrev : ∀ {s bs}, IsString s bs → bs.length < 2 ^ 32 → ∃ t, rev s = some t ∧ IsString t bs.reverse)
    {value radix : Nat} (hv : value < 2 ^ 32) (hr : 2 ≤ radix) (hr' : radix ≤ 36) (buf : Mem) :
    ∃ m, itoaWith rev value buf radix = some m ∧ IsString m (numeral radix value) := by
  have hnz : ∀ b ∈ numeral radix value, b ≠ 0 := numeral_ne_zero hr hr'
  -- for 0 the digit loop is not entered
  by_cases h0 : value = 0
  · subst h0
    refine ⟨_, if_pos rfl, ?_, rfl, hnz⟩
    intro i hi
    have hi0 : i = 0 := by simpa [numeral, placeValues] using hi
    subst hi0
    rfl
  have hpow : value < radix ^ 32 := lt_of_lt_of_le hv (Nat.pow_le_pow_left hr 32)
  obtain ⟨buf', hloop, -, hplaces⟩ := digitsFrom_eq hr hpow 0 buf
  have hlen : (Nat.digits radix value).length ≤ 32 := (Nat.digits_length_le_iff hr value).mpr hpow
  have hnumeral : numeral radix value = ((Nat.digits radix value).map lookup).reverse := by
    rw [numeral, placeValues, if_neg h0, List.map_reverse]
  -- backwards, until it is reversed
  have hstring : IsString (Function.update buf' (Nat.digits radix value).length 0)
      ((Nat.digits radix value).map lookup) := by
    refine ⟨fun i hi => ?_, ?_, fun b hb => hnz b ?_⟩
    · rw [List.length_map] at hi
      rw [Function.update_of_ne hi.ne, List.getElem_map, ← hplaces i hi, Nat.zero_add]
    · rw [List.length_map, Function.update_self]
    · rw [hnumeral]
      exact List.mem_reverse.mpr hb
  obtain ⟨m, hm, hmstring⟩ := hrev hstring (by rw [List.length_map]; omega)
  refine ⟨m, ?_, hnumeral ▸ hmstring⟩
  rw [itoaWith, if_neg h0, hloop, Nat.zero_add]
  exact hm

theorem itoa_eq_numeral {value radix : Nat} (hv : value < 2 ^ 32) (hr : 2 ≤ radix)
    (hr' : radix ≤ 36) (buf : Mem) :
    ∃ m, itoa value buf radix = some m ∧ IsString m (numeral radix value) :=
  itoaWith_numeral (fun h hlen => h.strrev hlen) hv hr hr' buf

/-- Strings of at most one byte are their own reversal. -/
theorem IsString.ece391Strrev {s : Mem} {bs : List UInt8} (h : IsString s bs)
    (hlen : bs.length < 2 ^ 32) : ∃ t, ece391Strrev s = some t ∧ IsString t bs.reverse := by
  rw [LinuxBasedOs.ece391Strrev, h.strlen hlen, Option.map_some]
  split_ifs with hshort
  · refine ⟨s, rfl, ?_⟩
    have hrev : bs.reverse = bs := by
      match bs, hshort with
      | [], _ => rfl
      | [_], _ => rfl
      | _ :: _ :: _, hshort => simp at hshort; omega
    rw [hrev]
    exact h
  · exact ⟨_, rfl, h.reverseFrom⟩

/-- **Both routines write the numeral.**  For every 32-bit value, every radix from 2 to 36
and whatever the buffers hold, both return with the same string: digits below the radix,
at most 32 of them, without a leading zero unless the value is 0, that read back as the
value. -/
theorem itoa_numeral (value radix : Nat) (hv : value < 2 ^ 32) (hr : 2 ≤ radix) (hr' : radix ≤ 36)
    (buf buf' : Mem) :
    ∃ m m', ∃ ds : List Nat, itoa value buf radix = some m ∧ ece391Itoa value buf' radix = some m' ∧
      IsString m (ds.map lookup) ∧ IsString m' (ds.map lookup) ∧
      (∀ d ∈ ds, d < radix) ∧ (ds.head? = some 0 → value = 0) ∧ 0 < ds.length ∧ ds.length ≤ 32 ∧
      Nat.ofDigits radix ds.reverse = value := by
  obtain ⟨m, hm, hstring⟩ := itoa_eq_numeral hv hr hr' buf
  obtain ⟨m', hm', hstring'⟩ :=
    itoaWith_numeral (fun h hlen => IsString.ece391Strrev h hlen) hv hr hr' buf'
  have hpow : value < radix ^ 32 := lt_of_lt_of_le hv (Nat.pow_le_pow_left hr 32)
  refine ⟨m, m', placeValues radix value, hm, hm', hstring, hstring', placeValues_lt hr, ?_, ?_,
    length_placeValues_le hr (by decide) hpow, ofDigits_placeValues radix value⟩
  · intro hhead
    by_contra hne
    exact head?_placeValues hne hhead
  · rw [placeValues]
    split_ifs with h0
    · exact Nat.one_pos
    · rw [List.length_reverse, List.length_pos_iff]
      exact Nat.digits_ne_nil_iff_ne_zero.mpr h0

/-- The largest value in the smallest radix. -/
theorem itoa_numeral_binary :
    ∃ m m', ∃ ds : List Nat, itoa (2 ^ 32 - 1) (fun _ => 7) 2 = some m ∧
      ece391Itoa (2 ^ 32 - 1) (fun _ => 9) 2 = some m' ∧ IsString m (ds.map lookup) ∧
      IsString m' (ds.map lookup) ∧ (∀ d ∈ ds, d < 2) ∧ Nat.ofDigits 2 ds.reverse = 2 ^ 32 - 1 := by
  obtain ⟨m, m', ds, h₁, h₂, h₃, h₄, h₅, -, -, -, h₆⟩ := itoa_numeral (2 ^ 32 - 1) 2 (by decide)
    (by decide) (by decide) (fun _ => 7) (fun _ => 9)
  exact ⟨m, m', ds, h₁, h₂, h₃, h₄, h₅, h₆⟩

end LinuxBasedOs
