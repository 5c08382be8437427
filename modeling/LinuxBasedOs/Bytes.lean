/-
LinuxBasedOs/Bytes.lean

Byte-addressed objects and the C string routines over them.

An object is a function from byte offsets to bytes.  It is total on purpose:
C indexes past the end of an array without noticing, and what lies there is
just more memory.  Words are little-endian.  What a fill or a copy leaves is a `cover`: the
object with bytes laid over a part of it.

The string routines (`strlen`, `strncmp`, `strncpy`, `puts`, `strrev`) are the
plain byte loops.  `strlen`, and with it `puts` and `strrev`, need not return: it
looks for a NUL at every 32-bit index, and is `none` when there is none to be
found.
-/
import Mathlib.Tactic

namespace Bytes

/-- A byte-addressed object. -/
abbrev Mem := Nat → UInt8

/-! ### Little-endian words -/

/-- The 32-bit word at offset `a`. -/
def word (m : Mem) (a : Nat) : Nat :=
  (m a).toNat + (m (a + 1)).toNat * 2 ^ 8 + (m (a + 2)).toNat * 2 ^ 16
    + (m (a + 3)).toNat * 2 ^ 24

/-- Byte `i` of the word `v`. -/
def byteOf (v i : Nat) : UInt8 :=
  UInt8.ofNat (v / 2 ^ (8 * i))

/-- Store the 32-bit word `v` at offset `a`. -/
def setWord (m : Mem) (a v : Nat) : Mem := fun i =>
  if a ≤ i ∧ i < a + 4 then byteOf v (i - a) else m i

/-- Overwrite byte `i` of the word `v` with `b`. -/
def pokeByte (v i : Nat) (b : UInt8) : Nat :=
  word (Function.update (fun j => byteOf v j) i b) 0

theorem word_lt (m : Mem) (a : Nat) : word m a < 2 ^ 32 := by
  have h₀ := (m a).toNat_lt
  have h₁ := (m (a + 1)).toNat_lt
  have h₂ := (m (a + 2)).toNat_lt
  have h₃ := (m (a + 3)).toNat_lt
  unfold word
  omega

theorem word_setWord (m : Mem) (a v : Nat) : word (setWord m a v) a = v % 2 ^ 32 := by
  have h₀ : setWord m a v a = byteOf v 0 := by simp [setWord]
  have h₁ : setWord m a v (a + 1) = byteOf v 1 := by simp [setWord]
  have h₂ : setWord m a v (a + 2) = byteOf v 2 := by simp [setWord]
  have h₃ : setWord m a v (a + 3) = byteOf v 3 := by simp [setWord]
  rw [word, h₀, h₁, h₂, h₃]
  simp only [byteOf, UInt8.toNat_ofNat', Nat.reducePow, Nat.reduceMul]
  omega

theorem byteOf_word (m : Mem) (a : Nat) {i : Nat} (hi : i < 4) : byteOf (word m a) i = m (a + i) := by
  have h₀ := (m a).toNat_lt
  have h₁ := (m (a + 1)).toNat_lt
  have h₂ := (m (a + 2)).toNat_lt
  have h₃ := (m (a + 3)).toNat_lt
  rw [← UInt8.toNat_inj, byteOf, word, UInt8.toNat_ofNat']
  obtain rfl | rfl | rfl | rfl : i = 0 ∨ i = 1 ∨ i = 2 ∨ i = 3 := by omega
  all_goals
    simp only [Nat.reducePow, Nat.reduceMul, Nat.add_zero]
    omega

/-- A store elsewhere leaves the word alone. -/
theorem word_setWord_of_disjoint (m : Mem) {a b : Nat} (v : Nat) (h : b + 4 ≤ a ∨ a + 4 ≤ b) :
    word (setWord m a v) b = word m b := by
  have key : ∀ i, b ≤ i → i < b + 4 → setWord m a v i = m i := by
    intro i h₁ h₂
    have : ¬ (a ≤ i ∧ i < a + 4) := by omega
    simp only [setWord, if_neg this]
  rw [word, word, key b (by omega) (by omega), key (b + 1) (by omega) (by omega),
    key (b + 2) (by omega) (by omega), key (b + 3) (by omega) (by omega)]

/-! ### Parts of an object -/

/-- The object from byte `a` on: `&m[a]`. -/
def behind (m : Mem) (a : Nat) : Mem := fun i => m (a + i)

/-- The bytes of a list stand at `a`, `a + 1`, … -/
def Holds (m : Mem) (a : Nat) (bs : List UInt8) : Prop := ∀ i (h : i < bs.length), m (a + i) = bs[i]

theorem holds_nil (m : Mem) (a : Nat) : Holds m a [] := fun i h => absurd h (Nat.not_lt_zero i)

theorem holds_cons {m : Mem} {a : Nat} {b : UInt8} {bs : List UInt8} :
    Holds m a (b :: bs) ↔ m a = b ∧ Holds m (a + 1) bs := by
  constructor
  · intro h
    refine ⟨h 0 (Nat.succ_pos _), fun i hi => ?_⟩
    rw [Nat.add_right_comm]
    exact h (i + 1) (Nat.succ_lt_succ hi)
  · rintro ⟨hb, hbs⟩ i hi
    cases i with
    | zero => exact hb
    | succ i =>
        rw [← Nat.add_assoc, Nat.add_right_comm]
        exact hbs i (Nat.lt_of_succ_lt_succ hi)

theorem holds_append {m : Mem} {a : Nat} {bs cs : List UInt8} :
    Holds m a (bs ++ cs) ↔ Holds m a bs ∧ Holds m (a + bs.length) cs := by
  induction bs generalizing a with
  | nil => exact (and_iff_right (holds_nil m a)).symm
  | cons b bs ih =>
      rw [List.cons_append, holds_cons, holds_cons, ih, and_assoc, List.length_cons,
        Nat.add_right_comm, Nat.add_assoc]

/-- Bytes elsewhere do not matter. -/
theorem Holds.congr {m m' : Mem} {a : Nat} {bs : List UInt8} (h : Holds m a bs)
    (heq : ∀ i, a ≤ i → i < a + bs.length → m' i = m i) : Holds m' a bs := by
  intro i hi
  rw [heq (a + i) (Nat.le_add_right a i) (Nat.add_lt_add_left hi a)]
  exact h i hi

/-! ### Stores -/

/-- Make a list of byte stores, in order. -/
def storeAll (m : Mem) : List (Nat × UInt8) → Mem
  | [] => m
  | p :: ps => storeAll (Function.update m p.1 p.2) ps

/-- The stores that put the bytes of a list at `a`, `a + 1`, … -/
def storesAt (a : Nat) : List UInt8 → List (Nat × UInt8)
  | [] => []
  | b :: bs => (a, b) :: storesAt (a + 1) bs

/-- A place that no store names keeps its byte. -/
theorem storeAll_of_not_mem {m : Mem} {ps : List (Nat × UInt8)} {i : Nat}
    (h : ∀ p ∈ ps, p.1 ≠ i) : storeAll m ps i = m i := by
  induction ps generalizing m with
  | nil => rfl
  | cons p ps ih =>
      rw [storeAll, ih fun q hq => h q (List.mem_cons_of_mem p hq)]
      exact Function.update_of_ne (Ne.symm (h p List.mem_cons_self)) p.2 m

theorem storeAll_append (m : Mem) (ps qs : List (Nat × UInt8)) :
    storeAll m (ps ++ qs) = storeAll (storeAll m ps) qs := by
  induction ps generalizing m with
  | nil => rfl
  | cons p ps ih => exact ih _

theorem storesAt_concat (a : Nat) (bs : List UInt8) (b : UInt8) :
    storesAt a (bs ++ [b]) = storesAt a bs ++ [(a + bs.length, b)] := by
  induction bs generalizing a with
  | nil => rfl
  | cons b' bs ih =>
      rw [List.cons_append, storesAt, ih, storesAt, List.cons_append, List.length_cons,
        Nat.add_assoc, Nat.add_comm 1]

/-- Stores that go through a buffer place by place. -/
theorem eq_storesAt {ps : List (Nat × UInt8)} {n : Nat} (h : ps.map Prod.fst = List.range n) :
    ps = storesAt 0 (ps.map Prod.snd) := by
  induction ps using List.reverseRecOn generalizing n with
  | nil => rfl
  | append_singleton ps p ih =>
      have hlen : ps.length + 1 = n := by simpa using congrArg List.length h
      rw [← hlen, List.range_succ, List.map_append] at h
      obtain ⟨hfirst, hlast⟩ := List.append_inj h (by simp)
      have hp : p = (0 + (ps.map Prod.snd).length, p.2) := by
        rw [List.length_map, Nat.zero_add, ← List.singleton_inj.mp hlast]
      rw [List.map_append, List.map_singleton, storesAt_concat, ← ih hfirst, ← hp]

theorem le_of_mem_storesAt {a : Nat} {bs : List UInt8} {p : Nat × UInt8}
    (h : p ∈ storesAt a bs) : a ≤ p.1 ∧ p.1 < a + bs.length := by
  induction bs generalizing a with
  | nil => cases h
  | cons b bs ih =>
      rcases List.mem_cons.mp h with rfl | h
      · simp
      · have := ih h
        simp only [List.length_cons]
        omega

theorem mem_storesAt (a : Nat) {bs : List UInt8} {i : Nat} (h : i < bs.length) :
    (a + i, bs[i]) ∈ storesAt a bs := by
  induction bs generalizing a i with
  | nil => cases h
  | cons b bs ih =>
      rw [storesAt, List.mem_cons]
      cases i with
      | zero => exact .inl rfl
      | succ i =>
          rw [List.length_cons] at h
          have htail := ih (a + 1) (Nat.lt_of_succ_lt_succ h)
          rw [Nat.add_right_comm, Nat.add_assoc] at htail
          exact .inr htail

/-- The places below `n` that stores from `a` on stay in. -/
theorem storesAt_lt_iff {a n : Nat} {bs : List UInt8} (ha : a ≤ n) :
    (∀ p ∈ storesAt a bs, p.1 < n) ↔ a + bs.length ≤ n := by
  constructor
  · intro h
    by_contra hlong
    have hmem := mem_storesAt a (show n - a < bs.length by omega)
    have hlt := h _ hmem
    omega
  · intro h p hp
    have hrange := le_of_mem_storesAt hp
    omega

theorem storeAll_storesAt (m : Mem) (a : Nat) (bs : List UInt8) {i : Nat} (h : i < bs.length) :
    storeAll m (storesAt a bs) (a + i) = bs[i] := by
  induction bs generalizing m a i with
  | nil => cases h
  | cons b bs ih =>
      rw [storesAt, storeAll]
      cases i with
      | zero =>
          -- the later stores are all further on
          rw [storeAll_of_not_mem]
          · simp
          · intro p hp
            have := (le_of_mem_storesAt hp).1
            omega
      | succ i =>
          have h' : i < bs.length := by simpa using h
          have := ih (Function.update m a b) (a + 1) h'
          rw [show a + 1 + i = a + (i + 1) by omega] at this
          simpa using this

theorem holds_storeAll (m : Mem) (a : Nat) (bs : List UInt8) :
    Holds (storeAll m (storesAt a bs)) a bs :=
  fun _ hi => storeAll_storesAt m a bs hi

/-- Stores of a list leave the bytes before and behind it. -/
theorem storeAll_of_outside (m : Mem) {a : Nat} {bs : List UInt8} {i : Nat}
    (h : i < a ∨ a + bs.length ≤ i) : storeAll m (storesAt a bs) i = m i := by
  refine storeAll_of_not_mem fun p hp => ?_
  have hrange := le_of_mem_storesAt hp
  omega

/-! ### Covering a part -/

/-- The object with the first `n` bytes of `v` laid over it from `a` on. -/
def cover (m : Mem) (a n : Nat) (v : Mem) : Mem := fun i =>
  if a ≤ i ∧ i < a + n then v (i - a) else m i

theorem cover_zero (m : Mem) (a : Nat) (v : Mem) : cover m a 0 v = m := by
  funext i
  exact if_neg (by omega)

theorem cover_one (m : Mem) (a : Nat) (v : Mem) :
    cover m a 1 v = Function.update m a (v 0) := by
  funext i
  by_cases hi : i = a
  · subst hi
    simp [cover]
  · rw [Function.update_of_ne hi]
    exact if_neg (by omega)

theorem cover_inside (m : Mem) (a : Nat) {n i : Nat} (v : Mem) (hi : i < n) :
    cover m a n v (a + i) = v i := by
  rw [cover, if_pos ⟨Nat.le_add_right a i, Nat.add_lt_add_left hi a⟩, Nat.add_sub_cancel_left]

theorem cover_outside (m : Mem) {a n i : Nat} (v : Mem) (hi : i < a ∨ a + n ≤ i) :
    cover m a n v i = m i :=
  if_neg (by omega)

/-- Covering a part and then the part right behind it. -/
theorem cover_append (m : Mem) (a j : Nat) {k : Nat} (v v' : Mem)
    (h : ∀ i < k, v' i = v (j + i)) :
    cover (cover m a j v) (a + j) k v' = cover m a (j + k) v := by
  funext i
  by_cases hi : i < a ∨ a + (j + k) ≤ i
  · rw [cover_outside m v hi, cover_outside _ v' (by omega), cover_outside m v (by omega)]
  · obtain ⟨d, rfl⟩ := Nat.exists_eq_add_of_le (show a ≤ i by omega)
    rw [cover_inside m a v (by omega)]
    by_cases hd : d < j
    · rw [cover_outside _ v' (by omega), cover_inside m a v hd]
    · obtain ⟨e, rfl⟩ := Nat.exists_eq_add_of_le (Nat.not_lt.mp hd)
      rw [← Nat.add_assoc, cover_inside _ _ v' (by omega), h e (by omega)]

theorem cover_cons (m : Mem) (a n : Nat) (v : Mem) :
    cover (Function.update m a (v 0)) (a + 1) n (behind v 1) = cover m a (n + 1) v := by
  rw [← cover_one, cover_append m a 1 v (behind v 1) fun _ _ => rfl, Nat.add_comm]

theorem cover_succ (m : Mem) (a n : Nat) (v : Mem) :
    Function.update (cover m a n v) (a + n) (v n) = cover m a (n + 1) v := by
  have hone := cover_one (cover m a n v) (a + n) (behind v n)
  exact hone.symm.trans (cover_append m a n v (behind v n) fun _ _ => rfl)

/-- Covering a part and then the part right before it. -/
theorem cover_prepend (m : Mem) (a : Nat) {j : Nat} (k : Nat) (v v' : Mem)
    (h : ∀ i < j, v' i = v i) :
    cover (cover m (a + j) k (behind v j)) a j v' = cover m a (j + k) v := by
  funext i
  by_cases hi : i < a ∨ a + (j + k) ≤ i
  · rw [cover_outside m v hi, cover_outside _ v' (by omega), cover_outside m _ (by omega)]
  · obtain ⟨d, rfl⟩ := Nat.exists_eq_add_of_le (show a ≤ i by omega)
    rw [cover_inside m a v (by omega)]
    by_cases hd : d < j
    · rw [cover_inside _ a v' hd, h d hd]
    · obtain ⟨e, rfl⟩ := Nat.exists_eq_add_of_le (Nat.not_lt.mp hd)
      rw [cover_outside _ v' (by omega), ← Nat.add_assoc, cover_inside m _ _ (by omega),
        behind]

/-! ### strlen -/

/-- `while (s[len] != '\0') len++;`, over the indices a `uint32_t` can take. -/
def strlenFrom (s : Mem) : (left len : Nat) → Option Nat
  | 0, _ => none
  | left + 1, len => if s len = 0 then some len else strlenFrom s left (len + 1)

/-- The length of the string at `s`; `none` if no byte of the address space
ends it. -/
def strlen (s : Mem) : Option Nat :=
  strlenFrom s (2 ^ 32) 0

theorem strlenFrom_eq_some {s : Mem} {left len n : Nat} (h : strlenFrom s left len = some n) :
    len ≤ n ∧ s n = 0 ∧ ∀ i, len ≤ i → i < n → s i ≠ 0 := by
  induction left generalizing len with
  | zero => simp [strlenFrom] at h
  | succ left ih =>
      rw [strlenFrom] at h
      by_cases h0 : s len = 0
      · rw [if_pos h0] at h
        obtain rfl := Option.some.inj h
        exact ⟨le_refl _, h0, fun i h₁ h₂ => absurd h₂ (by omega)⟩
      · rw [if_neg h0] at h
        obtain ⟨hle, hz, hne⟩ := ih h
        refine ⟨by omega, hz, fun i h₁ h₂ => ?_⟩
        rcases Nat.eq_or_lt_of_le h₁ with rfl | hlt
        · exact h0
        · exact hne i hlt h₂

/-- `strlen` finds the first NUL. -/
theorem strlen_eq_some {s : Mem} {n : Nat} (h : strlen s = some n) :
    s n = 0 ∧ ∀ i, i < n → s i ≠ 0 := by
  obtain ⟨-, hz, hne⟩ := strlenFrom_eq_some h
  exact ⟨hz, fun i hi => hne i (Nat.zero_le i) hi⟩

theorem strlen_of_empty {s : Mem} (h : s 0 = 0) : strlen s = some 0 := by
  have hlen : 2 ^ 32 = 4294967295 + 1 := by norm_num
  rw [strlen, hlen, strlenFrom, if_pos h]

/-- A string with an end has a length. -/
theorem strlenFrom_isSome {s : Mem} {left len i : Nat} (hi : len ≤ i) (hlt : i < len + left)
    (h0 : s i = 0) : ∃ n, strlenFrom s left len = some n := by
  induction left generalizing len with
  | zero => omega
  | succ left ih =>
      rw [strlenFrom]
      split_ifs with hlen
      · exact ⟨len, rfl⟩
      · have hne : i ≠ len := fun h => hlen (h ▸ h0)
        exact ih (by omega) (by omega)

theorem strlen_isSome {s : Mem} {i : Nat} (hlt : i < 2 ^ 32) (h0 : s i = 0) :
    ∃ n, strlen s = some n :=
  strlenFrom_isSome (Nat.zero_le i) (by rw [Nat.zero_add]; exact hlt) h0

theorem strlenFrom_lt {s : Mem} {left len n : Nat} (h : strlenFrom s left len = some n) :
    n < len + left := by
  induction left generalizing len with
  | zero => cases h
  | succ left ih =>
      rw [strlenFrom] at h
      split_ifs at h with h0
      · obtain rfl := Option.some.inj h
        omega
      · have hlt := ih h
        omega

/-- `strlen` returns exactly if there is a NUL somewhere. -/
theorem strlen_isSome_iff (s : Mem) : (∃ n, strlen s = some n) ↔ ∃ i < 2 ^ 32, s i = 0 := by
  constructor
  · rintro ⟨n, hn⟩
    have hlt := strlenFrom_lt hn
    rw [Nat.zero_add] at hlt
    exact ⟨n, hlt, (strlen_eq_some hn).1⟩
  · rintro ⟨i, hlt, h0⟩
    exact strlen_isSome hlt h0

/-! ### Strings in a field -/

/-- The string in a field, from index `i` on: the bytes before the first NUL, and
`left` bytes if there is none among them. -/
def stringFrom (s : Mem) : (left i : Nat) → List UInt8
  | 0, _ => []
  | left + 1, i => if s i = 0 then [] else s i :: stringFrom s left (i + 1)

/-- The string in a field of `n` bytes. -/
def string (s : Mem) (n : Nat) : List UInt8 := stringFrom s n 0

theorem length_stringFrom_le (s : Mem) (left i : Nat) : (stringFrom s left i).length ≤ left := by
  induction left generalizing i with
  | zero => exact Nat.le_refl 0
  | succ left ih =>
      rw [stringFrom]
      split_ifs
      · exact Nat.zero_le _
      · rw [List.length_cons]
        exact Nat.succ_le_succ (ih (i + 1))

/-- It fills the field, or a NUL follows. -/
theorem stringFrom_end (s : Mem) (left i : Nat) :
    (stringFrom s left i).length = left ∨ s (i + (stringFrom s left i).length) = 0 := by
  induction left generalizing i with
  | zero => exact .inl rfl
  | succ left ih =>
      rw [stringFrom]
      split_ifs with h0
      · exact .inr h0
      · rw [List.length_cons]
        rcases ih (i + 1) with h | h
        · exact .inl (congrArg Nat.succ h)
        · rw [Nat.add_assoc, Nat.add_comm 1] at h
          exact .inr h

/-- Bytes behind the first NUL and behind the field do not matter. -/
theorem stringFrom_congr {s t : Mem} {left i : Nat}
    (h : ∀ j, i ≤ j → j < i + left → (∀ k, i ≤ k → k < j → t k ≠ 0) → s j = t j) :
    stringFrom s left i = stringFrom t left i := by
  induction left generalizing i with
  | zero => rfl
  | succ left ih =>
      have hi : s i = t i := h i (le_refl _) (by omega) fun k h₁ h₂ => absurd h₂ (by omega)
      rw [stringFrom, stringFrom, hi]
      split_ifs with h0
      · rfl
      · refine congrArg _ (ih fun j h₁ h₂ hne => h j (by omega) (by omega) fun k h₃ h₄ => ?_)
        rcases Nat.eq_or_lt_of_le h₃ with rfl | hlt
        · exact h0
        · exact hne k hlt h₄

/-- A string that fills the field is equal to another one only byte by byte. -/
theorem stringFrom_eq_iff {s t : Mem} {left i : Nat} (hs : ∀ j, i ≤ j → j < i + left → s j ≠ 0) :
    stringFrom s left i = stringFrom t left i ↔ ∀ j, i ≤ j → j < i + left → s j = t j := by
  induction left generalizing i with
  | zero => exact iff_of_true rfl fun j h₁ h₂ => absurd h₂ (by omega)
  | succ left ih =>
      have h0 : s i ≠ 0 := hs i (le_refl i) (by omega)
      rw [stringFrom, stringFrom, if_neg h0]
      by_cases ht : t i = 0
      · rw [if_pos ht]
        refine iff_of_false (List.cons_ne_nil _ _) fun h => h0 ?_
        rw [h i (le_refl i) (by omega), ht]
      · rw [if_neg ht, List.cons.injEq, ih fun j h₁ h₂ => hs j (by omega) (by omega)]
        constructor
        · rintro ⟨hi, htail⟩ j h₁ h₂
          rcases Nat.eq_or_lt_of_le h₁ with rfl | hlt
          · exact hi
          · exact htail j hlt (by omega)
        · intro h
          exact ⟨h i (le_refl i) (by omega), fun j h₁ h₂ => h j (by omega) (by omega)⟩

theorem string_congr {s t : Mem} {n : Nat}
    (h : ∀ j, j < n → (∀ k, k < j → t k ≠ 0) → s j = t j) : string s n = string t n :=
  stringFrom_congr fun j _ h₂ hne => h j (by omega) fun k hk => hne k (Nat.zero_le k) hk

/-- There is no NUL inside. -/
theorem stringFrom_ne_zero {s : Mem} {left i j : Nat} (h : j < (stringFrom s left i).length) :
    s (i + j) ≠ 0 := by
  induction left generalizing i j with
  | zero => exact absurd h (Nat.not_lt_zero j)
  | succ left ih =>
      rw [stringFrom] at h
      split_ifs at h with h0
      · exact absurd h (Nat.not_lt_zero j)
      · cases j with
        | zero => exact h0
        | succ j =>
            rw [List.length_cons] at h
            rw [show i + (j + 1) = i + 1 + j by omega]
            exact ih (Nat.lt_of_succ_lt_succ h)

theorem ne_zero_of_mem_stringFrom {s : Mem} {left i : Nat} {b : UInt8}
    (h : b ∈ stringFrom s left i) : b ≠ 0 := by
  induction left generalizing i with
  | zero => exact absurd h List.not_mem_nil
  | succ left ih =>
      rw [stringFrom] at h
      split_ifs at h with h0
      · exact absurd h List.not_mem_nil
      · rcases List.mem_cons.mp h with rfl | htail
        · exact h0
        · exact ih htail

/-- The string in the first bytes of a field. -/
theorem stringFrom_take (s : Mem) {m n : Nat} (h : m ≤ n) (i : Nat) :
    stringFrom s m i = (stringFrom s n i).take m := by
  induction m generalizing n i with
  | zero => rfl
  | succ m ih =>
      obtain ⟨n, rfl⟩ : ∃ n', n = n' + 1 := ⟨n - 1, by omega⟩
      rw [stringFrom, stringFrom]
      split_ifs with h0
      · rfl
      · rw [List.take_succ_cons, ← ih (Nat.le_of_succ_le_succ h)]

/-- The string in a field, padded with NULs. -/
theorem getD_stringFrom {s : Mem} {left i len j : Nat} (hz : s (i + len) = 0)
    (hne : ∀ m < len, s (i + m) ≠ 0) (hj : j < left) :
    (stringFrom s left i).getD j 0 = if len ≤ j then 0 else s (i + j) := by
  induction left generalizing i len j with
  | zero => cases hj
  | succ left ih =>
      rw [stringFrom]
      cases len with
      | zero =>
          have h0 : s i = 0 := hz
          rw [if_pos h0, if_pos (Nat.zero_le j), List.getD_nil]
      | succ len =>
          have h0 : s i ≠ 0 := hne 0 (Nat.succ_pos len)
          rw [if_neg h0]
          cases j with
          | zero => rw [List.getD_cons_zero, if_neg (Nat.not_succ_le_zero len), Nat.add_zero]
          | succ j =>
              have hshift : ∀ m, i + 1 + m = i + (m + 1) := fun m => by omega
              rw [List.getD_cons_succ, ih (by rw [hshift]; exact hz)
                (fun m hm => by rw [hshift]; exact hne (m + 1) (Nat.succ_lt_succ hm))
                (Nat.lt_of_succ_lt_succ hj), hshift]
              simp only [Nat.succ_le_succ_iff]

/-- The string of a NUL-terminated list of characters. -/
theorem stringFrom_getD {bs : List UInt8} (h : ∀ b ∈ bs, b ≠ 0) (left i : Nat) :
    stringFrom (fun j => bs.getD j 0) left i = (bs.drop i).take left := by
  induction left generalizing i with
  | zero => rfl
  | succ left ih =>
      rw [stringFrom, ih]
      rcases Nat.lt_or_ge i bs.length with hi | hi
      · have hget : bs.getD i 0 = bs[i] := by simp [hi]
        rw [hget, if_neg (h _ (List.getElem_mem hi)), List.drop_eq_getElem_cons hi,
          List.take_succ_cons]
      · have hget : bs.getD i 0 = 0 := by simp [hi]
        rw [if_pos hget, List.drop_eq_nil_of_le hi, List.take_nil]

/-! ### strncmp -/

/-- The value of an `int8_t`. -/
def int8 (b : UInt8) : Int :=
  if b.toNat < 128 then b.toNat else (b.toNat : Int) - 256

/-- The comparison loop, `left` bytes from the end of its bound. -/
def strncmpFrom (s₁ s₂ : Mem) : (left i : Nat) → Int
  | 0, _ => 0
  | left + 1, i =>
      if s₁ i ≠ s₂ i ∨ s₁ i = 0 then int8 (s₁ i) - int8 (s₂ i)
      else strncmpFrom s₁ s₂ left (i + 1)

/-- `strncmp`. -/
def strncmp (s₁ s₂ : Mem) (n : Nat) : Int :=
  strncmpFrom s₁ s₂ n 0

theorem int8_inj {a b : UInt8} (h : int8 a = int8 b) : a = b := by
  have ha := a.toNat_lt
  have hb := b.toNat_lt
  unfold int8 at h
  rw [← UInt8.toNat_inj]
  split_ifs at h
  all_goals omega

/-- The comparison finds no difference exactly if the two strings agree as far as
it looks. -/
theorem strncmpFrom_eq_zero_iff (s₁ s₂ : Mem) (left i : Nat) :
    strncmpFrom s₁ s₂ left i = 0 ↔ stringFrom s₁ left i = stringFrom s₂ left i := by
  induction left generalizing i with
  | zero => exact iff_of_true rfl rfl
  | succ left ih =>
      rw [strncmpFrom, stringFrom, stringFrom]
      by_cases hne : s₁ i = s₂ i
      · rw [hne]
        by_cases h0 : s₂ i = 0
        · rw [if_pos (.inr h0), if_pos h0, if_pos h0]
          exact iff_of_true (sub_self _) rfl
        · rw [if_neg (not_or.mpr ⟨not_not.mpr rfl, h0⟩), if_neg h0, if_neg h0, ih,
            List.cons.injEq]
          exact (and_iff_right rfl).symm
      · -- different bytes, one of which may be a NUL
        rw [if_pos (.inl hne)]
        refine iff_of_false (fun h => hne (int8_inj (sub_eq_zero.mp h))) fun h => ?_
        split_ifs at h with h₁ h₂ h₂
        · exact hne (h₁.trans h₂.symm)
        · exact hne (List.cons.inj h).1

theorem strncmp_eq_zero_iff (s₁ s₂ : Mem) (n : Nat) :
    strncmp s₁ s₂ n = 0 ↔ string s₁ n = string s₂ n :=
  strncmpFrom_eq_zero_iff s₁ s₂ n 0

/-! ### strncpy -/

/-- `while (i < n) { dest[i] = '\0'; i++; }`, with `left = n - i`. -/
def padFrom : (left i : Nat) → Mem → Mem
  | 0, _, dest => dest
  | left + 1, i, dest => padFrom left (i + 1) (Function.update dest i 0)

/-- The copy loop of `strncpy`, followed by the padding loop. -/
def strncpyFrom (src : Mem) : (left i : Nat) → Mem → Mem
  | 0, _, dest => dest
  | left + 1, i, dest =>
      if src i ≠ 0 then strncpyFrom src left (i + 1) (Function.update dest i (src i))
      else padFrom (left + 1) i dest

/-- `strncpy`. -/
def strncpy (dest src : Mem) (n : Nat) : Mem :=
  strncpyFrom src n 0 dest

theorem padFrom_eq (left i : Nat) (dest : Mem) :
    padFrom left i dest = cover dest i left fun _ => 0 := by
  induction left generalizing i dest with
  | zero => exact (cover_zero dest i _).symm
  | succ left ih =>
      rw [padFrom, ih]
      exact cover_cons dest i left fun _ => 0

theorem strncpyFrom_eq {src : Mem} {left i : Nat} (dest : Mem)
    (hsrc : ∀ j, i ≤ j → j < i + left → src j ≠ 0) :
    strncpyFrom src left i dest = cover dest i left (behind src i) := by
  induction left generalizing i dest with
  | zero => exact (cover_zero dest i _).symm
  | succ left ih =>
      have h0 : src i ≠ 0 := hsrc i (le_refl _) (by omega)
      have hrest : behind src (i + 1) = behind (behind src i) 1 := by
        funext j
        rw [behind, behind, behind, Nat.add_assoc]
      rw [strncpyFrom, if_pos h0, ih _ fun j h₁ h₂ => hsrc j (by omega) (by omega), hrest]
      exact cover_cons dest i left (behind src i)

/-- The stores of the two loops, in order. -/
def strncpyStoresFrom (src : Mem) : (left i : Nat) → List (Nat × UInt8)
  | 0, _ => []
  | left + 1, i =>
      if src i ≠ 0 then (i, src i) :: strncpyStoresFrom src left (i + 1)
      else storesAt i (List.replicate (left + 1) 0)

/-- The stores of `strncpy`. -/
def strncpyStores (src : Mem) (n : Nat) : List (Nat × UInt8) :=
  strncpyStoresFrom src n 0

theorem storeAll_replicate (dest : Mem) (left i : Nat) :
    storeAll dest (storesAt i (List.replicate left 0)) = padFrom left i dest := by
  induction left generalizing i dest with
  | zero => rfl
  | succ left ih =>
      rw [List.replicate_succ, storesAt, storeAll, padFrom]
      exact ih (Function.update dest i 0) (i + 1)

theorem storeAll_strncpyStores (dest src : Mem) (n : Nat) :
    storeAll dest (strncpyStores src n) = strncpy dest src n := by
  have hloop : ∀ (left i : Nat) (dest : Mem),
      storeAll dest (strncpyStoresFrom src left i) = strncpyFrom src left i dest := by
    intro left
    induction left with
    | zero => exact fun _ _ => rfl
    | succ left ih =>
        intro i dest
        rw [strncpyStoresFrom, strncpyFrom]
        split_ifs with hnz
        · exact ih (i + 1) (Function.update dest i (src i))
        · exact storeAll_replicate dest (left + 1) i
  exact hloop n 0 dest

/-- `strncpy` stores to `n` places, whatever the source holds. -/
theorem strncpyStores_lt_iff (src : Mem) (n m : Nat) :
    (∀ p ∈ strncpyStores src n, p.1 < m) ↔ n ≤ m := by
  have hbytes : ∀ left i, ∃ bs, bs.length = left ∧ strncpyStoresFrom src left i = storesAt i bs := by
    intro left
    induction left with
    | zero => exact fun i => ⟨[], rfl, rfl⟩
    | succ left ih =>
        intro i
        rw [strncpyStoresFrom]
        split_ifs with hnz
        · obtain ⟨bs, hlen, hbs⟩ := ih (i + 1)
          exact ⟨src i :: bs, by rw [List.length_cons, hlen], by rw [hbs]; rfl⟩
        · exact ⟨_, List.length_replicate, rfl⟩
  obtain ⟨bs, hlen, hbs⟩ := hbytes n 0
  rw [strncpyStores, hbs, storesAt_lt_iff (Nat.zero_le m), Nat.zero_add, hlen]

/-- Copying no further than the source's NUL copies the bytes as they are. -/
theorem strncpy_apply {src : Mem} {n : Nat} (dest : Mem) (hsrc : ∀ j, j < n → src j ≠ 0)
    (j : Nat) : strncpy dest src n j = if j < n then src j else dest j := by
  rw [strncpy, strncpyFrom_eq dest fun j _ h₂ => hsrc j (by omega)]
  by_cases hj : j < n
  · have hin := cover_inside dest 0 (behind src 0) hj
    rw [Nat.zero_add, behind, Nat.zero_add] at hin
    rw [hin, if_pos hj]
  · rw [cover_outside dest _ (.inr (by omega)), if_neg hj]

/-! ### NUL-terminated strings -/

/-- The object begins with the string `bs` and its NUL. -/
structure IsString (s : Mem) (bs : List UInt8) : Prop where
  bytes : ∀ i (h : i < bs.length), s i = bs[i]
  nul : s bs.length = 0
  ne_zero : ∀ b ∈ bs, b ≠ 0

theorem isString_getD {bs : List UInt8} (h : ∀ b ∈ bs, b ≠ 0) :
    IsString (fun i => bs.getD i 0) bs :=
  ⟨fun i hi => by simp [hi], by simp, h⟩

theorem strlenFrom_eq {s : Mem} {n : Nat} (hz : s n = 0) {left len : Nat} (hle : len ≤ n)
    (hne : ∀ i, len ≤ i → i < n → s i ≠ 0) (hleft : n < len + left) :
    strlenFrom s left len = some n := by
  induction left generalizing len with
  | zero => omega
  | succ left ih =>
      rw [strlenFrom]
      split_ifs with h0
      · have heq : len = n := by
          by_contra hlt
          exact hne len (le_refl len) (by omega) h0
        rw [heq]
      · have hlt : len ≠ n := fun h => h0 (h ▸ hz)
        exact ih (by omega) (fun i h₁ h₂ => hne i (by omega) h₂) (by omega)

theorem IsString.strlen {s : Mem} {bs : List UInt8} (h : IsString s bs)
    (hlen : bs.length < 2 ^ 32) : strlen s = some bs.length := by
  refine strlenFrom_eq h.nul (Nat.zero_le _) (fun i _ hi => ?_) (by rw [Nat.zero_add]; exact hlen)
  rw [h.bytes i hi]
  exact h.ne_zero _ (List.getElem_mem hi)

/-- A string that has a length is the string of its bytes. -/
theorem isString_of_strlen {s : Mem} {n : Nat} (h : Bytes.strlen s = some n) :
    IsString s ((List.range n).map s) := by
  obtain ⟨hz, hne⟩ := strlen_eq_some h
  refine ⟨fun i hi => by simp, by simpa using hz, fun b hb => ?_⟩
  obtain ⟨i, hi, rfl⟩ := List.mem_map.mp hb
  exact hne i (List.mem_range.mp hi)

theorem Holds.isString {m : Mem} {a : Nat} {bs : List UInt8} (h : Holds m a bs)
    (hnul : m (a + bs.length) = 0) (hnz : ∀ b ∈ bs, b ≠ 0) : IsString (behind m a) bs :=
  ⟨h, hnul, hnz⟩

/-- The first byte of a string in the middle of an object. -/
theorem IsString.behind_cons {m : Mem} {a : Nat} {b : UInt8} {bs : List UInt8}
    (h : IsString (behind m a) (b :: bs)) :
    m a = b ∧ b ≠ 0 ∧ IsString (behind m (a + 1)) bs := by
  obtain ⟨hb, hbs⟩ := holds_cons.mp h.bytes
  refine ⟨hb, h.ne_zero b List.mem_cons_self, Holds.isString hbs ?_ fun c hc =>
    h.ne_zero c (List.mem_cons_of_mem b hc)⟩
  rw [Nat.add_right_comm, Nat.add_assoc]
  exact h.nul

/-- `while (s[index] != '\0') putc(s[index++])`: the bytes put out. -/
def puts (s : Mem) : Option (List UInt8) := (strlen s).map fun n => (List.range n).map s

theorem IsString.puts {s : Mem} {bs : List UInt8} (h : IsString s bs)
    (hlen : bs.length < 2 ^ 32) : puts s = some bs := by
  rw [Bytes.puts, h.strlen hlen, Option.map_some]
  refine congrArg some (List.ext_getElem (by simp) fun i h₁ h₂ => ?_)
  rw [List.getElem_map, List.getElem_range, h.bytes i h₂]

/-! ### strrev -/

/-- `tmp = s[j]; s[j] = s[i]; s[i] = tmp`. -/
def swap (s : Mem) (i j : Nat) : Mem := Function.update (Function.update s j (s i)) i (s j)

/-- `while (beg < end) { swap; beg++; end--; }`, for at most `left` rounds. -/
def reverseFrom : (left : Nat) → (beg stop : Int) → Mem → Mem
  | 0, _, _, s => s
  | left + 1, beg, stop, s =>
      if beg < stop then reverseFrom left (beg + 1) (stop - 1) (swap s beg.toNat stop.toNat) else s

/-- `strrev`, which takes the length of the string first. -/
def strrev (s : Mem) : Option Mem :=
  (strlen s).map fun len => reverseFrom len 0 (len - 1) s

/-- With enough rounds the loop mirrors the bytes between its two ends. -/
theorem reverseFrom_apply {left : Nat} {beg stop : Int} (hbeg : 0 ≤ beg)
    (hleft : stop < beg + 2 * left) (s : Mem) (i : Nat) :
    reverseFrom left beg stop s i =
      if beg ≤ i ∧ i ≤ stop then s (beg + stop - i).toNat else s i := by
  induction left generalizing beg stop s with
  | zero =>
      rw [reverseFrom, if_neg]
      omega
  | succ left ih =>
      rw [reverseFrom]
      split_ifs with hlt hin hin
      · rw [ih (by omega) (by omega)]
        by_cases hi : i = beg.toNat
        · rw [if_neg (by omega), swap, hi, Function.update_self]
          congr 1
          omega
        · by_cases hj : i = stop.toNat
          · rw [if_neg (by omega), swap, hj, Function.update_of_ne (by omega), Function.update_self]
            congr 1
            omega
          · rw [if_pos (by omega), swap, Function.update_of_ne (by omega),
              Function.update_of_ne (by omega)]
            congr 1
            omega
      · rw [ih (by omega) (by omega), if_neg (by omega), swap, Function.update_of_ne (by omega),
          Function.update_of_ne (by omega)]
      · -- at most one byte
        congr 1
        omega
      · rfl

/-- The mirrored bytes are the string reversed. -/
theorem IsString.reverseFrom {s : Mem} {bs : List UInt8} (h : IsString s bs) :
    IsString (reverseFrom bs.length 0 (bs.length - 1) s) bs.reverse := by
  have hval := reverseFrom_apply (le_refl 0)
    (show (bs.length : Int) - 1 < 0 + 2 * bs.length by omega) s
  refine ⟨fun i hi => ?_, ?_, fun b hb => h.ne_zero b (List.mem_reverse.mp hb)⟩
  · rw [List.length_reverse] at hi
    rw [hval, if_pos (by omega), List.getElem_reverse]
    rw [show (0 + ((bs.length : Int) - 1) - i).toNat = bs.length - 1 - i by omega]
    exact h.bytes _ (by omega)
  · rw [List.length_reverse, hval, if_neg (by omega)]
    exact h.nul

theorem IsString.strrev {s : Mem} {bs : List UInt8} (h : IsString s bs)
    (hlen : bs.length < 2 ^ 32) : ∃ t, strrev s = some t ∧ IsString t bs.reverse := by
  refine ⟨_, ?_, h.reverseFrom⟩
  rw [Bytes.strrev, h.strlen hlen]
  rfl

end Bytes
