/-
LinuxBasedOs/Lines.lean

Text as lines.

The lines of a text are the pieces between its separators, `List.splitOn`; a text that ends
in a separator has an empty last line.  `selected` puts out a record for each line that is
hit.  Separators cut the work: what is selected from a text is what is selected from the
part before a separator, followed by what is selected from the part behind it.

A cut at any other place makes two lines of one.  `selected_cut_iff` says exactly when that
goes unnoticed, for a test that a part of a line passes only if the line does.
-/
import Mathlib.Tactic

namespace Lines

variable {α β : Type*} [DecidableEq α] {sep : α}

theorem splitOn_append_sep (xs ys : List α) :
    (xs ++ sep :: ys).splitOn sep = xs.splitOn sep ++ ys.splitOn sep :=
  List.splitOnP_append_cons xs ys (by simp)

theorem splitOn_of_not_mem {xs : List α} (h : sep ∉ xs) : xs.splitOn sep = [xs] :=
  List.splitOnP_eq_singleton fun x hx => by simpa using fun heq : x = sep => h (heq ▸ hx)

/-- The text is empty or ends with a line. -/
def Ends (sep : α) (xs : List α) : Prop := xs = [] ∨ ∃ ys, xs = ys ++ [sep]

omit [DecidableEq α] in
theorem ends_of_getLast? {xs : List α} (h : xs.getLast? = some sep) : Ends sep xs :=
  .inr (List.getLast?_eq_some_iff.mp h)

/-- Every text is complete lines, followed by one without a separator. -/
theorem exists_last_line (sep : α) (xs : List α) :
    ∃ ls as, xs = ls ++ as ∧ Ends sep ls ∧ sep ∉ as := by
  induction xs with
  | nil => exact ⟨[], [], rfl, .inl rfl, List.not_mem_nil⟩
  | cons x xs ih =>
      obtain ⟨ls, as, rfl, hls | ⟨ys, hls⟩, has⟩ := ih
      · subst hls
        by_cases hx : x = sep
        · exact ⟨[x], as, rfl, .inr ⟨[], by rw [hx]; rfl⟩, has⟩
        · exact ⟨[], x :: as, rfl, .inl rfl, by simp [Ne.symm hx, has]⟩
      · exact ⟨x :: ls, as, rfl, .inr ⟨x :: ys, by rw [hls]; rfl⟩, has⟩

/-- Every text is one line, or one line, a separator and more text. -/
theorem exists_first_line (sep : α) (xs : List α) :
    ∃ as, sep ∉ as ∧ (xs = as ∨ ∃ ys, xs = as ++ sep :: ys) := by
  by_cases h : sep ∈ xs
  · obtain ⟨as, ys, heq, has⟩ := List.eq_append_cons_of_mem h
    exact ⟨as, has, .inr ⟨ys, heq⟩⟩
  · exact ⟨xs, h, .inl rfl⟩

/-! ### The first and the last line -/

/-- What is before the first separator. -/
def firstLine (sep : α) (xs : List α) : List α := (xs.splitOn sep).headD []

/-- What is behind the last one. -/
def lastLine (sep : α) (xs : List α) : List α := (xs.splitOn sep).getLastD []

theorem firstLine_of_not_mem {as : List α} (h : sep ∉ as) : firstLine sep as = as := by
  rw [firstLine, splitOn_of_not_mem h, List.headD_cons]

theorem firstLine_append_sep {as : List α} (h : sep ∉ as) (ys : List α) :
    firstLine sep (as ++ sep :: ys) = as := by
  rw [firstLine, splitOn_append_sep, splitOn_of_not_mem h, List.singleton_append, List.headD_cons]

theorem lastLine_append {ls as : List α} (hls : Ends sep ls) (h : sep ∉ as) :
    lastLine sep (ls ++ as) = as := by
  rcases hls with rfl | ⟨ys, rfl⟩
  · rw [List.nil_append, lastLine, splitOn_of_not_mem h]
    rfl
  · rw [List.append_assoc, List.singleton_append, lastLine, splitOn_append_sep,
      splitOn_of_not_mem h, List.getLastD_concat]

theorem lastLine_ne_nil {xs : List α} (hne : xs ≠ []) (h : xs.getLast? ≠ some sep) :
    lastLine sep xs ≠ [] := by
  obtain ⟨ls, as, rfl, hls, has⟩ := exists_last_line sep xs
  rw [lastLine_append hls has]
  rintro rfl
  rw [List.append_nil] at hne h
  rcases hls with rfl | ⟨ys, rfl⟩
  · exact hne rfl
  · exact h List.getLast?_concat

/-- The line in which a text is cut. -/
theorem cut_line_mem (sep : α) (xs ys : List α) :
    lastLine sep xs ++ firstLine sep ys ∈ (xs ++ ys).splitOn sep := by
  obtain ⟨ls, as, rfl, hls, has⟩ := exists_last_line sep xs
  rw [lastLine_append hls has, List.append_assoc]
  have key : as ++ firstLine sep ys ∈ (as ++ ys).splitOn sep := by
    obtain ⟨bs, hbs, rfl | ⟨zs, rfl⟩⟩ := exists_first_line sep ys
    · have hboth : sep ∉ as ++ ys := by simp [has, hbs]
      rw [firstLine_of_not_mem hbs, splitOn_of_not_mem hboth]
      exact List.mem_singleton_self _
    · have hboth : sep ∉ as ++ bs := by simp [has, hbs]
      rw [firstLine_append_sep hbs, ← List.append_assoc, splitOn_append_sep,
        splitOn_of_not_mem hboth]
      exact List.mem_append_left _ (List.mem_singleton_self _)
  rcases hls with rfl | ⟨us, rfl⟩
  · exact key
  · rw [List.append_assoc, List.singleton_append, splitOn_append_sep]
    exact List.mem_append_right _ key

/-! ### Lines of bounded length -/

/-- No line is longer than `n`. -/
def Short (sep : α) (n : Nat) (xs : List α) : Prop := ∀ l ∈ xs.splitOn sep, l.length ≤ n

/-- What follows a cut has no longer lines, wherever the cut is. -/
theorem Short.of_append {n : Nat} {xs ys : List α} (h : Short sep n (xs ++ ys)) :
    Short sep n ys := by
  obtain ⟨ls, as, rfl, hls, has⟩ := exists_last_line sep xs
  -- the complete lines in front of the cut do not matter
  have hpart : Short sep n (as ++ ys) := by
    rw [List.append_assoc] at h
    rcases hls with rfl | ⟨us, rfl⟩
    · exact h
    · intro l hl
      refine h l ?_
      rw [List.append_assoc, List.singleton_append, splitOn_append_sep]
      exact List.mem_append_right _ hl
  intro l hl
  -- the cut line got no longer by what is taken away; the others are the same
  obtain ⟨bs, hbs, rfl | ⟨zs, rfl⟩⟩ := exists_first_line sep ys
  · rw [splitOn_of_not_mem hbs] at hl
    have hle := hpart _ (cut_line_mem sep as ys)
    rw [firstLine_of_not_mem hbs, List.length_append, ← List.mem_singleton.mp hl] at hle
    omega
  · rw [splitOn_append_sep, splitOn_of_not_mem hbs] at hl
    rcases List.mem_cons.mp hl with rfl | hl
    · have hle := hpart _ (cut_line_mem sep as (l ++ sep :: zs))
      rw [firstLine_append_sep hbs, List.length_append] at hle
      omega
    · refine hpart l ?_
      rw [← List.append_assoc, splitOn_append_sep]
      exact List.mem_append_right _ hl

/-- A piece of one line is no longer than a line. -/
theorem Short.length_le {n : Nat} {as xs : List α} (h : Short sep n (as ++ xs)) (has : sep ∉ as) :
    as.length ≤ n := by
  have hle := h _ (cut_line_mem sep as xs)
  have hlast : lastLine sep as = as := lastLine_append (.inl rfl) has
  rw [hlast, List.length_append] at hle
  omega

/-! ### Selected lines -/

section Selected

variable (hit : List α → Bool) (record : List α → List β)

/-- A record for each line that is hit. -/
def selected (sep : α) (xs : List α) : List β := ((xs.splitOn sep).filter hit).flatMap record

theorem selected_append_sep (xs ys : List α) :
    selected hit record sep (xs ++ sep :: ys) =
      selected hit record sep xs ++ selected hit record sep ys := by
  rw [selected, splitOn_append_sep, List.filter_append, List.flatMap_append]
  rfl

theorem selected_of_not_mem {as : List α} (h : sep ∉ as) :
    selected hit record sep as = if hit as then record as else [] := by
  rw [selected, splitOn_of_not_mem h]
  by_cases hh : hit as <;> simp [hh]

variable {hit}

theorem selected_nil (h : hit [] = false) : selected hit record sep [] = [] := by
  rw [selected_of_not_mem hit record List.not_mem_nil, h]
  rfl

theorem selected_append (h : hit [] = false) {ls : List α} (hls : Ends sep ls) (xs : List α) :
    selected hit record sep (ls ++ xs) =
      selected hit record sep ls ++ selected hit record sep xs := by
  rcases hls with rfl | ⟨ys, rfl⟩
  · rw [selected_nil record h]
    rfl
  · rw [List.append_assoc, List.singleton_append, selected_append_sep, selected_append_sep,
      selected_nil record h, List.append_nil]

/-- **A cut inside a line** goes unnoticed exactly if it is at the line's end, or if the
line is not selected. -/
theorem selected_cut_iff {k : Nat} (h : hit [] = false) (hk : 0 < k)
    (hrecord : ∀ as, (record as).length = as.length + k)
    (hpart : ∀ as bs, hit as ∨ hit bs → hit (as ++ bs)) {xs : List α}
    (hxs : lastLine sep xs ≠ []) (ys : List α) :
    selected hit record sep xs ++ selected hit record sep ys = selected hit record sep (xs ++ ys) ↔
      firstLine sep ys = [] ∨ hit (lastLine sep xs ++ firstLine sep ys) = false := by
  obtain ⟨ls, as, rfl, hls, has⟩ := exists_last_line sep xs
  rw [lastLine_append hls has] at hxs ⊢
  have hpos := List.length_pos_iff.mpr hxs
  -- the two halves of the line, with whatever follows it
  have key : ∀ bs rest, sep ∉ bs →
      ((selected hit record sep as ++ (selected hit record sep bs ++ rest) =
        selected hit record sep (as ++ bs) ++ rest) ↔ bs = [] ∨ hit (as ++ bs) = false) := by
    intro bs rest hbs
    rw [← List.append_assoc, List.append_left_inj]
    have hboth : sep ∉ as ++ bs := by simp [has, hbs]
    rw [selected_of_not_mem hit record has, selected_of_not_mem hit record hbs,
      selected_of_not_mem hit record hboth]
    constructor
    · intro heq
      by_contra hne
      obtain ⟨hbs0, hhit⟩ := not_or.mp hne
      have hbpos := List.length_pos_iff.mpr hbs0
      have hlen := congrArg List.length heq
      rw [if_pos (Bool.eq_true_of_not_eq_false hhit)] at hlen
      split_ifs at hlen
      all_goals simp only [List.length_append, List.length_nil, hrecord] at hlen
      all_goals omega
    · rintro (rfl | hmiss)
      · rw [List.append_nil, h]
        simp
      · have hparts := mt (hpart as bs) (by rw [hmiss]; decide)
        obtain ⟨ha, hb⟩ := not_or.mp hparts
        rw [if_neg ha, if_neg hb, if_neg (by rw [hmiss]; decide)]
        rfl
  rw [List.append_assoc, selected_append record h hls, selected_append record h hls,
    List.append_assoc, List.append_right_inj]
  obtain ⟨bs, hbs, rfl | ⟨zs, rfl⟩⟩ := exists_first_line sep ys
  · rw [firstLine_of_not_mem hbs, ← key ys [] hbs, List.append_nil, List.append_nil]
  · rw [firstLine_append_sep hbs, ← key bs (selected hit record sep zs) hbs, selected_append_sep,
      ← List.append_assoc as, selected_append_sep]

end Selected

end Lines
