/-
LinuxBasedOs/TextRows.lean

Text broken into rows.

A text is written on a page of unbounded length: a character for which `brk`
holds ends the row, and so does the character that fills it.  `layout` is the page
a text leaves, and `Page.view` what a window of `h` rows at the end of the page
shows: its last `h` rows, or the whole page while it has no more than that.

Typing a character changes one cell of the view, and starting a row changes
nothing while the page still fits and moves everything up by one when it does not
(`view_type`, `view_newline_of_lt`, `view_newline_of_le`).
-/
import Mathlib.Data.List.GetD
import Mathlib.Tactic

namespace TextRows

variable {α : Type*}

theorem getD_length_concat (xs : List α) (x d : α) : (xs ++ [x]).getD xs.length d = x := by
  rw [List.getD_eq_getElem?_getD, List.getElem?_concat_length, Option.getD_some]

/-- The rows that are finished, and the one being written. -/
structure Page (α : Type*) where
  done : List (List α)
  last : List α

namespace Page

/-- The rows of a page. -/
def rows (p : Page α) : List (List α) := p.done ++ [p.last]

/-- Another character in the last row. -/
def type (p : Page α) (c : α) : Page α := ⟨p.done, p.last ++ [c]⟩

/-- Another row. -/
def newline (p : Page α) : Page α := ⟨p.done ++ [p.last], []⟩

/-- One character of the text. -/
def put (brk : α → Prop) [DecidablePred brk] (w : Nat) (p : Page α) (c : α) : Page α :=
  if brk c then p.newline
  else if p.last.length + 1 = w then (p.type c).newline
  else p.type c

/-- The cell at row `r`, column `c` of a window of `h` rows at the end of the page. -/
def view (h : Nat) (blank : α) (p : Page α) (r c : Nat) : α :=
  (p.rows.getD (p.rows.length - h + r) []).getD c blank

/-- The row of the window in which the next character will stand. -/
def cursorRow (h : Nat) (p : Page α) : Nat := min p.rows.length h - 1

end Page

/-- The page that a text leaves. -/
def layout (brk : α → Prop) [DecidablePred brk] (w : Nat) (text : List α) : Page α :=
  text.foldl (Page.put brk w) ⟨[], []⟩

namespace Page

variable {h : Nat} {blank : α} {p : Page α}

@[simp] theorem length_rows (p : Page α) : p.rows.length = p.done.length + 1 := by
  rw [rows, List.length_append, List.length_singleton]

/-- The last row is seen in the cursor's row. -/
theorem view_eq_last {r : Nat} (hr : p.rows.length - h + r = p.done.length) (c : Nat) :
    p.view h blank r c = p.last.getD c blank := by
  rw [view, hr, rows, getD_length_concat]

/-- The rows above it are seen above it. -/
theorem view_eq_done {r : Nat} (hr : p.rows.length - h + r < p.done.length) (c : Nat) :
    p.view h blank r c = (p.done.getD (p.rows.length - h + r) []).getD c blank := by
  rw [view]
  generalize p.rows.length - h + r = i at hr ⊢
  rw [rows, List.getD_append _ _ _ _ hr]

/-- Below the last row the window is blank. -/
theorem view_eq_blank {r : Nat} (hr : p.done.length < p.rows.length - h + r) (c : Nat) :
    p.view h blank r c = blank := by
  have hlen : p.rows.length ≤ p.rows.length - h + r := by
    rw [length_rows] at hr ⊢
    omega
  rw [view, List.getD_eq_default _ _ hlen, List.getD_nil]

/-- A typed character appears behind the last row, and nothing else changes. -/
theorem view_type (h : Nat) (p : Page α) (blank x : α) (r c : Nat) :
    (p.type x).view h blank r c =
      if p.rows.length - h + r = p.done.length ∧ c = p.last.length then x
      else p.view h blank r c := by
  have hlen : (p.type x).rows.length = p.rows.length := by simp [type]
  rcases lt_trichotomy (p.rows.length - h + r) p.done.length with hr | hr | hr
  · rw [if_neg fun h' => by omega, view_eq_done hr, view_eq_done (by rw [hlen]; exact hr), hlen]
    rfl
  · rw [view_eq_last hr, view_eq_last (by rw [hlen]; exact hr)]
    show (p.last ++ [x]).getD c blank = _
    rcases lt_trichotomy c p.last.length with hc | hc | hc
    · rw [if_neg fun h' => by omega, List.getD_append _ _ _ _ hc]
    · rw [if_pos ⟨hr, hc⟩, hc, getD_length_concat]
    · rw [if_neg fun h' => by omega, List.getD_eq_default _ _ hc.le, List.getD_eq_default]
      rw [List.length_append, List.length_singleton]
      exact hc
  · rw [if_neg fun h' => by omega, view_eq_blank hr, view_eq_blank (by rw [hlen]; exact hr)]

/-- While the page fits the window, a new row is not seen. -/
theorem view_newline_of_lt (hlt : p.rows.length < h) (r c : Nat) :
    p.newline.view h blank r c = p.view h blank r c := by
  rw [length_rows] at hlt
  have hlen : p.newline.rows.length = p.rows.length + 1 := by simp [newline]
  have hoff : p.newline.rows.length - h + r = p.rows.length - h + r := by
    rw [hlen, length_rows]
    omega
  have hdone : p.newline.done = p.rows := rfl
  rcases lt_trichotomy r p.rows.length with hr | hr | hr
  · rw [view_eq_done (by rw [hoff, hdone, length_rows] at *; omega), hoff, hdone]
    rfl
  · rw [view_eq_last (by rw [hoff, hdone, length_rows] at *; omega),
      view_eq_blank (by rw [length_rows] at *; omega)]
    rfl
  · rw [view_eq_blank (by rw [hoff, hdone, length_rows] at *; omega),
      view_eq_blank (by rw [length_rows] at *; omega)]

/-- When it does not, everything moves up by one row … -/
theorem view_newline_of_le (hle : h ≤ p.rows.length) {r : Nat} (hr : r + 1 < h) (c : Nat) :
    p.newline.view h blank r c = p.view h blank (r + 1) c := by
  have hlen : p.newline.rows.length = p.rows.length + 1 := by simp [newline]
  have hoff : p.newline.rows.length - h + r = p.rows.length - h + (r + 1) := by
    rw [hlen]
    omega
  rw [view_eq_done (by rw [hoff]; show _ < p.rows.length; omega), hoff]
  rfl

/-- … and the row at the bottom is blank. -/
theorem view_newline_bottom (hle : h ≤ p.rows.length) {r : Nat} (hr : r + 1 = h) (c : Nat) :
    p.newline.view h blank r c = blank := by
  have hlen : p.newline.rows.length = p.rows.length + 1 := by simp [newline]
  rw [view_eq_last]
  · rfl
  · show _ = p.rows.length
    rw [hlen]
    omega

end Page

end TextRows
