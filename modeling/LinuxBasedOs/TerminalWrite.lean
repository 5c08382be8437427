/-
LinuxBasedOs/TerminalWrite.lean

`terminal_write` against a reference terminal.

The reference breaks the bytes written so far into rows of 80, at newlines and
carriage returns and where a row is full, and shows the last 25 rows with the
cursor at the end of the last one (`TextRows.layout`, `Page.view`).

The cursor of the driver is always where the reference has it.  The grid is not:
a newline in the last row but one, row 23, already scrolls, although the page then
has 25 rows and still fits.  `terminalWrite_shows_iff` says that this is the only
difference, for every text without tabs and every way of splitting it into calls.
-/
import LinuxBasedOs.Drivers
import LinuxBasedOs.TextRows

namespace LinuxBasedOs

open Transition Bytes TextRows

namespace Screen

/-! ### The characters on the grid -/

/-- The character at row `r`, column `c`. -/
def cellAt (s : Screen) (r c : Nat) : UInt8 := s.vmem (2 * (numCols * r + c))

/-- Nothing is to be seen. -/
def Blank (s : Screen) : Prop := ∀ r < 25, ∀ c < 80, s.cellAt r c = 32

instance (s : Screen) : Decidable s.Blank :=
  inferInstanceAs (Decidable (∀ r < 25, ∀ c < 80, s.cellAt r c = 32))

@[simp] theorem cellAt_setCursorPos (s : Screen) (r c : Nat) :
    (setCursorPos s).cellAt r c = s.cellAt r c := rfl

@[simp] theorem cellAt_setScreen (x y : Int) (s : Screen) (r c : Nat) :
    (setScreen x y s).cellAt r c = s.cellAt r c := rfl

@[simp] theorem cellAt_newline (s : Screen) (r c : Nat) : (newline s).cellAt r c = s.cellAt r c := rfl

@[simp] theorem cellAt_advance (s : Screen) (r c : Nat) : (advance s).cellAt r c = s.cellAt r c := rfl

theorem cellAt_store (s : Screen) {x : Nat} (hx : x < 80) (y : Nat) (v : UInt8) (r : Nat) {c : Nat}
    (hc : c < 80) :
    (store (2 * (numCols * y + x)) v s).cellAt r c =
      if r = y ∧ c = x then v else s.cellAt r c := by
  by_cases h : r = y ∧ c = x
  · obtain ⟨rfl, rfl⟩ := h
    rw [if_pos ⟨rfl, rfl⟩]
    exact Function.update_self ..
  · rw [if_neg h]
    refine Function.update_of_ne (fun h' => h ?_) ..
    simp only [numCols] at h'
    omega

/-- Attributes are stored at odd offsets. -/
theorem cellAt_store_attrib (s : Screen) (k : Int) (v : UInt8) (r c : Nat) :
    (store (2 * k + 1) v s).cellAt r c = s.cellAt r c := by
  refine Function.update_of_ne (fun h => ?_) ..
  omega

theorem cellAt_clear (s : Screen) {r c : Nat} (hr : r < 25) (hc : c < 80) :
    (clear s).cellAt r c = 32 := by
  have hloop := forLoop_invariant (n := 2000) (s := s)
    (f := fun i s => store (2 * i + 1) attrib (store (2 * i) 0x20 s))
    (P := fun i (t : Screen) => ∀ j : Nat, j < i → t.vmem (2 * (j : Int)) = 32)
    (fun j hj => absurd hj (Nat.not_lt_zero j)) ?_
  · have hcell := hloop (80 * r + c) (by omega)
    push_cast at hcell
    exact hcell
  · intro i t hi ht j hj
    show Function.update (Function.update t.vmem (2 * (i : Int)) 0x20) (2 * (i : Int) + 1) attrib
      (2 * (j : Int)) = 32
    rw [Function.update_of_ne (by omega)]
    by_cases hji : j = i
    · rw [hji]
      exact Function.update_self ..
    · rw [Function.update_of_ne (by omega)]
      exact ht j (by omega)

/-- One row is copied from the row below it. -/
theorem cellAt_moveRow (t : Screen) (y r : Nat) {c : Nat} (hc : c < 80) :
    (forLoop (moveCell y) 80 t).cellAt r c = if r = y then t.cellAt (y + 1) c else t.cellAt r c := by
  have hloop : ∀ r, ∀ c < 80, (forLoop (moveCell y) 80 t).cellAt r c =
      if r = y ∧ c < 80 then t.cellAt (y + 1) c else t.cellAt r c := by
    refine forLoop_invariant (P := fun x (u : Screen) => ∀ r, ∀ c < 80, u.cellAt r c =
      if r = y ∧ c < x then t.cellAt (y + 1) c else t.cellAt r c) ?_ fun x u hx hu r c hc => ?_
    · intro r c _
      rw [if_neg fun h => absurd h.2 (Nat.not_lt_zero c)]
    · -- the row below has not been touched
      have hbelow : u.cellAt (y + 1) x = t.cellAt (y + 1) x := by
        rw [hu _ _ hx, if_neg fun h => Nat.succ_ne_self y h.1]
      have hmove : moveCell y x u = store (2 * (numCols * y + x)) (u.cellAt (y + 1) x) u := by
        simp only [moveCell, cellAt, Nat.cast_add, Nat.cast_one]
      rw [hmove, cellAt_store u hx y _ r hc, hbelow, hu r c hc]
      by_cases hr : r = y ∧ c = x
      · rw [if_pos hr, if_pos ⟨hr.1, by omega⟩, hr.2]
      · rw [if_neg hr]
        refine if_congr ⟨fun h => ⟨h.1, by omega⟩, fun h => ⟨h.1, ?_⟩⟩ rfl rfl
        have hne : c ≠ x := fun hcx => hr ⟨h.1, hcx⟩
        omega
  rw [hloop r c hc]
  exact if_congr ⟨And.left, fun h => ⟨h, hc⟩⟩ rfl rfl

/-- Scrolling moves every row up and leaves the last one blank. -/
theorem cellAt_verticalScroll (s : Screen) {r c : Nat} (hr : r < 25) (hc : c < 80) :
    (verticalScroll s).cellAt r c = if r = 24 then 32 else s.cellAt (r + 1) c := by
  have hmoved : ∀ r, ∀ c < 80, (forLoop (fun y s => forLoop (moveCell y) 80 s) 24 s).cellAt r c =
      if r < 24 then s.cellAt (r + 1) c else s.cellAt r c := by
    -- the rows above `y` have been moved, the others are as before
    refine forLoop_invariant (P := fun y (u : Screen) => ∀ r, ∀ c < 80, u.cellAt r c =
      if r < y then s.cellAt (r + 1) c else s.cellAt r c) ?_ fun y u hy hu r c hc => ?_
    · intro r c _
      rw [if_neg (Nat.not_lt_zero r)]
    · rw [cellAt_moveRow u y r hc, hu (y + 1) c hc, hu r c hc, if_neg (show ¬ y + 1 < y by omega)]
      rcases lt_trichotomy r y with h | h | h
      · rw [if_neg h.ne, if_pos h, if_pos (by omega)]
      · rw [if_pos h, if_pos (by omega), h]
      · rw [if_neg h.ne', if_neg (by omega), if_neg (by omega)]
  -- then the last row is blanked from the left
  have hblank := forLoop_invariant (n := 80)
    (s := forLoop (fun y s => forLoop (moveCell y) 80 s) 24 s)
    (f := fun x s => store (2 * (numCols * (numRows - 1) + x)) 0x20 s)
    (P := fun x (u : Screen) => ∀ r, ∀ c < 80, u.cellAt r c =
      if r = 24 ∧ c < x then 32
      else (forLoop (fun y s => forLoop (moveCell y) 80 s) 24 s).cellAt r c) ?_ ?_
  · rw [verticalScroll, cellAt_setScreen, hblank r c hc]
    by_cases hlast : r = 24
    · rw [if_pos ⟨hlast, hc⟩, if_pos hlast]
    · rw [if_neg fun h => hlast h.1, if_neg hlast, hmoved r c hc, if_pos (by omega)]
  · intro r c _
    rw [if_neg fun h => absurd h.2 (Nat.not_lt_zero c)]
  · intro x u hx hu r c hc
    have hrow : numRows - 1 = ((24 : Nat) : Int) := rfl
    rw [hrow, cellAt_store u hx 24 _ r hc, hu r c hc]
    by_cases hr : r = 24 ∧ c = x
    · rw [if_pos hr, if_pos ⟨hr.1, by omega⟩]
    · rw [if_neg hr]
      refine if_congr ⟨fun h => ⟨h.1, by omega⟩, fun h => ⟨h.1, ?_⟩⟩ rfl rfl
      have hne : c ≠ x := fun hcx => hr ⟨h.1, hcx⟩
      omega

/-- Attributes, and bytes off the grid, are not scrolled. -/
theorem vmem_verticalScroll (s : Screen) {off : Int} (h : off % 2 = 1 ∨ ¬IsCell off) :
    (verticalScroll s).vmem off = s.vmem off := by
  obtain ⟨t, ht, heq⟩ := verticalScroll_stores (P := fun t => t.vmem off = s.vmem off) rfl
    fun k v t h0 h1 ht => by
      refine (Function.update_of_ne (fun hoff => ?_) ..).trans ht
      rcases h with h | h
      · omega
      · rw [hoff] at h
        exact h (isCell_of_cell h0 h1).1
  rw [heq]
  exact ht

/-- **Scrolling.**  Every row takes the characters of the one below it, the last row is
blank, nothing else in memory changes, and the cursor is at the start of the last row. -/
theorem verticalScroll_spec (s : Screen) :
    (∀ y < 24, ∀ x < 80, (verticalScroll s).cellAt y x = s.cellAt (y + 1) x) ∧
      (∀ x < 80, (verticalScroll s).cellAt 24 x = 0x20) ∧
      (∀ off : Int, off % 2 = 1 ∨ ¬IsCell off → (verticalScroll s).vmem off = s.vmem off) ∧
      (verticalScroll s).screenX = 0 ∧ (verticalScroll s).screenY = 24 ∧
      (verticalScroll s).cursor = 80 * 24 := by
  refine ⟨fun y hy x hx => ?_, fun x hx => ?_, fun off => vmem_verticalScroll s, rfl, rfl, rfl⟩
  · rw [cellAt_verticalScroll s (by omega) hx, if_neg (by omega)]
  · rw [cellAt_verticalScroll s (by omega) hx, if_pos rfl]

/-! ### The cursor -/

/-- Within a row the cursor moves right … -/
theorem advance_of_lt {s : Screen} (hx : 0 ≤ s.screenX) (hlt : s.screenX + 1 < numCols)
    (hy : 0 ≤ s.screenY ∧ s.screenY < numRows) : advance s = { s with screenX := s.screenX + 1 } := by
  simp only [numCols, numRows] at hlt hy
  simp only [advance, numCols, numRows]
  congr 1
  · rw [Int.tmod_eq_emod_of_nonneg (by omega)]
    omega
  · rw [Int.tdiv_eq_ediv_of_nonneg (by omega), Int.tmod_eq_emod_of_nonneg (by omega)]
    omega

/-- … and from its end to the start of the next. -/
theorem advance_of_full {s : Screen} (hx : s.screenX = 79)
    (hy : 0 ≤ s.screenY ∧ s.screenY + 1 < numRows) :
    advance s = { s with screenX := 0, screenY := s.screenY + 1 } := by
  simp only [numRows] at hy
  simp only [advance, numCols, numRows, hx]
  congr 1
  rw [Int.tdiv_eq_ediv_of_nonneg (by omega), Int.tmod_eq_emod_of_nonneg (by omega)]
  omega

/-- The cursor is at the end of the page, seen through a window of 25 rows; so is
the cursor of the VGA. -/
structure AtEnd (s : Screen) (p : Page UInt8) : Prop where
  x : s.screenX = p.last.length
  y : s.screenY = p.cursorRow 25
  cursor : (s.cursor : Int) = numCols * s.screenY + s.screenX
  fits : p.last.length < 80

theorem AtEnd.of_setCursorPos {t : Screen} {p : Page UInt8} (hx : t.screenX = p.last.length)
    (hy : t.screenY = p.cursorRow 25) (hfits : p.last.length < 80) : AtEnd (setCursorPos t) p := by
  refine ⟨hx, hy, ?_, hfits⟩
  show ((((numCols * t.screenY + t.screenX) % 65536).toNat : Nat) : Int) =
    numCols * t.screenY + t.screenX
  simp only [Page.cursorRow, numCols] at *
  omega

/-- **The cursor follows the reference**, whatever is written but a tab. -/
theorem AtEnd.put {s : Screen} {p : Page UInt8} (h : AtEnd s p) {c : UInt8} (htab : c ≠ 9) :
    AtEnd (putcTerminal c s) (p.put IsNewline 80 c) := by
  have hx := h.x
  have hy := h.y
  have hfits := h.fits
  simp only [Page.cursorRow, Page.length_rows] at hy
  rw [putcTerminal, if_neg htab, Page.put]
  split_ifs with hnl hscroll hend hfull hfull
  · -- a newline that scrolls
    have hscroll' : s.screenY + 1 ≥ 24 := hscroll
    refine .of_setCursorPos rfl ?_ (Nat.zero_lt_succ 79)
    show (24 : Int) = _
    simp only [Page.cursorRow, Page.newline, Page.length_rows, List.length_append,
      List.length_singleton]
    omega
  · have hscroll' : ¬ s.screenY + 1 ≥ 24 := hscroll
    refine .of_setCursorPos rfl ?_ (Nat.zero_lt_succ 79)
    show s.screenY + 1 = _
    simp only [Page.cursorRow, Page.newline, Page.length_rows, List.length_append,
      List.length_singleton]
    omega
  · -- the end of the last row
    have hend' : s.screenY ≥ 24 ∧ s.screenX ≥ 79 := hend
    refine .of_setCursorPos rfl ?_ (Nat.zero_lt_succ 79)
    show (24 : Int) = _
    simp only [Page.cursorRow, Page.newline, Page.type, Page.length_rows, List.length_append,
      List.length_singleton]
    omega
  · have hend' : s.screenY ≥ 24 ∧ s.screenX ≥ 79 := hend
    omega
  · -- the end of another row
    have hend' : ¬ (s.screenY ≥ 24 ∧ s.screenX ≥ 79) := hend
    have hadv : advance (putCell c s) = { putCell c s with screenX := 0, screenY := s.screenY + 1 } :=
      advance_of_full (show s.screenX = 79 by omega)
        (show 0 ≤ s.screenY ∧ s.screenY + 1 < 25 by omega)
    rw [hadv]
    refine .of_setCursorPos rfl ?_ (Nat.zero_lt_succ 79)
    show s.screenY + 1 = _
    simp only [Page.cursorRow, Page.newline, Page.type, Page.length_rows, List.length_append,
      List.length_singleton]
    omega
  · have hadv : advance (putCell c s) = { putCell c s with screenX := s.screenX + 1 } :=
      advance_of_lt (show 0 ≤ s.screenX by omega) (show s.screenX + 1 < 80 by omega)
        (show 0 ≤ s.screenY ∧ s.screenY < 25 by omega)
    rw [hadv]
    refine .of_setCursorPos ?_ ?_ ?_
    · show s.screenX + 1 = _
      simp only [Page.type, List.length_append, List.length_singleton]
      omega
    · show s.screenY = _
      simp only [Page.cursorRow, Page.type, Page.length_rows]
      exact hy
    · simp only [Page.type, List.length_append, List.length_singleton]
      omega

/-! ### The grid -/

/-- The grid shows the end of the page. -/
def Grid (s : Screen) (p : Page UInt8) : Prop :=
  ∀ r < 25, ∀ c < 80, s.cellAt r c = p.view 25 32 r c

@[simp] theorem grid_setCursorPos {s : Screen} {p : Page UInt8} : Grid (setCursorPos s) p ↔ Grid s p :=
  Iff.rfl

/-- A visible character appears at the end of the page. -/
theorem Grid.putCell {s : Screen} {p : Page UInt8} (h : Grid s p) (hend : AtEnd s p) (x : UInt8) :
    Grid (putCell x s) (p.type x) := by
  intro r hr c hc
  have hx := hend.x
  have hy := hend.y
  have hfits := hend.fits
  have hcell : (Screen.putCell x s).cellAt r c =
      (store (2 * (numCols * (p.cursorRow 25 : Nat) + (p.last.length : Nat))) x s).cellAt r c := by
    rw [Screen.putCell, cellAt_store_attrib, hx, hy]
  rw [hcell, cellAt_store s hfits _ _ r hc, Page.view_type, h r hr c hc]
  refine if_congr (and_congr_left fun _ => ?_) rfl rfl
  simp only [Page.cursorRow, Page.length_rows]
  omega

/-- A row more on a page that fits the grid. -/
theorem Grid.newline_of_lt {s : Screen} {p : Page UInt8} (h : Grid s p) (hlt : p.rows.length < 25) :
    Grid s p.newline := by
  intro r hr c hc
  rw [Page.view_newline_of_lt hlt]
  exact h r hr c hc

/-- A row more on a page that does not: the grid has to scroll. -/
theorem Grid.scroll {s : Screen} {p : Page UInt8} (h : Grid s p) (hle : 25 ≤ p.rows.length) :
    Grid (verticalScroll s) p.newline := by
  intro r hr c hc
  rw [cellAt_verticalScroll s hr hc]
  split_ifs with hlast
  · exact (Page.view_newline_bottom hle (by omega) c).symm
  · rw [Page.view_newline_of_le hle (by omega)]
    exact h (r + 1) (by omega) c hc

/-- Scrolling too early shows only on a grid that is not blank. -/
theorem Grid.scroll_early {s : Screen} {p : Page UInt8} (h : Grid s p) (hlt : p.rows.length < 25) :
    Grid (verticalScroll s) p.newline ↔ s.Blank := by
  have hview : ∀ r < 25, ∀ c < 80, p.newline.view 25 32 r c = s.cellAt r c := by
    intro r hr c hc
    rw [Page.view_newline_of_lt hlt]
    exact (h r hr c hc).symm
  constructor
  · intro h'
    -- from the last row upwards: each row equals the one below it
    have hup : ∀ n ≤ 24, ∀ c < 80, s.cellAt (24 - n) c = 32 := by
      intro n hn c hc
      induction n with
      | zero =>
          rw [← hview 24 (by omega) c hc, ← h' 24 (by omega) c hc,
            cellAt_verticalScroll s (by omega) hc]
          rfl
      | succ n ih =>
          have hrow : 24 - (n + 1) + 1 = 24 - n := by omega
          rw [← hview _ (by omega) c hc, ← h' _ (by omega) c hc,
            cellAt_verticalScroll s (by omega) hc, if_neg (by omega), hrow]
          exact ih (by omega)
    intro r hr c hc
    have hrow : 24 - (24 - r) = r := by omega
    have := hup (24 - r) (by omega) c hc
    rwa [hrow] at this
  · intro hb r hr c hc
    rw [hview r hr c hc, cellAt_verticalScroll s hr hc, hb r hr c hc]
    split_ifs with hlast
    · rfl
    · exact hb (r + 1) (by omega) c hc

/-- The character does not make the screen scroll too early, or nobody sees it. -/
def InTime (s : Screen) (c : UInt8) : Prop := IsNewline c → s.screenY = 23 → s.Blank

instance (s : Screen) (c : UInt8) : Decidable (s.InTime c) :=
  inferInstanceAs (Decidable (_ → _))

/-- **One character.**  The grid follows the reference exactly if the character is
in time. -/
theorem Grid.put_iff {s : Screen} {p : Page UInt8} (h : Grid s p) (hend : AtEnd s p) {c : UInt8}
    (htab : c ≠ 9) : Grid (putcTerminal c s) (p.put IsNewline 80 c) ↔ s.InTime c := by
  have hx := hend.x
  have hy := hend.y
  have hfits := hend.fits
  simp only [Page.cursorRow, Page.length_rows] at hy
  have hlen := p.length_rows
  rw [putcTerminal, if_neg htab, Page.put, grid_setCursorPos]
  by_cases hnl : IsNewline c
  · rw [if_pos hnl, if_pos hnl]
    have hgrid : Grid (newline s) p := h
    by_cases hscroll : s.screenY + 1 ≥ 24
    · rw [if_pos (show (newline s).screenY ≥ numRows - 1 from hscroll)]
      by_cases hrow : s.screenY = 23
      · -- row 23: the page has 24 rows and gets its 25th
        rw [hgrid.scroll_early (by omega)]
        exact ⟨fun hb _ _ => hb, fun hb => hb hnl hrow⟩
      · exact iff_of_true (hgrid.scroll (by omega)) fun _ h23 => absurd h23 hrow
    · rw [if_neg (show ¬ (newline s).screenY ≥ numRows - 1 from hscroll)]
      exact iff_of_true (hgrid.newline_of_lt (by omega)) fun _ h23 => by omega
  · rw [if_neg hnl, if_neg hnl]
    refine iff_of_true ?_ fun h' => absurd h' hnl
    have hgrid := h.putCell hend c
    by_cases hlast : s.screenY ≥ 24 ∧ s.screenX ≥ 79
    · rw [if_pos (show s.screenY ≥ numRows - 1 ∧ s.screenX ≥ numCols - 1 from hlast),
        if_pos (by omega)]
      exact hgrid.scroll (by rw [Page.length_rows]; show 25 ≤ p.done.length + 1; omega)
    · rw [if_neg (show ¬ (s.screenY ≥ numRows - 1 ∧ s.screenX ≥ numCols - 1) from hlast)]
      by_cases hfull : p.last.length + 1 = 80
      · rw [if_pos hfull]
        exact hgrid.newline_of_lt (by rw [Page.length_rows]; show p.done.length + 1 < 25; omega)
      · rw [if_neg hfull]
        exact hgrid

end Screen

/-! ### Whole texts -/

/-- Grid and cursor are those of the reference. -/
structure Screen.Shows (s : Screen) (p : Page UInt8) : Prop extends s.AtEnd p where
  grid : s.Grid p

/-- The page of the reference terminal. -/
def reference (text : List UInt8) : Page UInt8 := layout Screen.IsNewline 80 text

/-- A sequence of calls `terminal_write(1, data, nbytes)`. -/
def writeCalls (calls : List (Mem × Nat)) (k : Kernel) : Kernel :=
  calls.foldl (fun k call => (terminalWrite 1 call.1 call.2 k).2) k

/-- The bytes they write. -/
def written (calls : List (Mem × Nat)) : List UInt8 :=
  calls.flatMap fun call => (List.range call.2).map call.1

/-- A text in one call. -/
def oneCall (text : List UInt8) : Mem × Nat := (fun i => text.getD i 0, text.length)

theorem written_oneCall (text : List UInt8) : written [oneCall text] = text := by
  rw [written, List.flatMap_singleton]
  refine List.ext_getElem (by simp [oneCall]) fun i hi hi' => ?_
  rw [List.getElem_map, List.getElem_range]
  exact List.getD_eq_getElem _ _ hi'

/-- A cleared screen shows the empty page. -/
theorem Screen.cleared_shows (s : Screen) : (setScreen 0 0 (clear s)).Shows (reference []) := by
  refine ⟨.of_setCursorPos rfl rfl (by decide), fun r hr c hc => ?_⟩
  rw [cellAt_setScreen, cellAt_clear s hr hc]
  cases r with
  | zero => rfl
  | succ r => exact (Page.view_eq_blank (by simp [reference, layout]) c).symm

/-- The screen depends on the bytes only, not on how they are split into calls. -/
theorem screen_writeCalls (calls : List (Mem × Nat)) (k : Kernel) :
    (writeCalls calls k).console.screen =
      (written calls).foldl (fun s c => Screen.putcTerminal c s) k.console.screen := by
  induction calls generalizing k with
  | nil => rfl
  | cons call calls ih =>
      show (writeCalls calls (terminalWrite 1 call.1 call.2 k).2).console.screen = _
      have hwritten : written (call :: calls) = (List.range call.2).map call.1 ++ written calls :=
        List.flatMap_cons
      rw [ih, hwritten, List.foldl_append]
      congr 1
      exact forLoop_eq_foldl (fun s c => Screen.putcTerminal c s) call.1 call.2 k.console.screen

/-- **The reference terminal.**  From a cleared screen with the cursor at `(0, 0)`,
the screen after a sequence of calls is that after writing their bytes one by one;
and for a text without tabs, grid and cursor are those of the reference after
every sequence of calls that writes a part of it from the start, exactly if no
newline or carriage return of it is written in row 23 of a screen that is not
blank. -/
theorem terminalWrite_shows_iff (k : Kernel) (s : Screen)
    (hstart : k.console.screen = Screen.setScreen 0 0 (Screen.clear s)) (text : List UInt8)
    (htabs : 9 ∉ text) :
    (∀ calls, (writeCalls calls k).console.screen =
        (written calls).foldl (fun s c => Screen.putcTerminal c s) k.console.screen) ∧
      (Along (total fun s c => Screen.putcTerminal c s) Screen.InTime k.console.screen text ↔
        ∀ calls rest, text = written calls ++ rest →
          (writeCalls calls k).console.screen.Shows (reference (written calls))) := by
  refine ⟨fun calls => screen_writeCalls calls k, ?_⟩
  have hshows : k.console.screen.Shows (reference []) := by
    rw [hstart]
    exact s.cleared_shows
  have hcursor : ∀ pre post, text = pre ++ post →
      (pre.foldl (fun s c => Screen.putcTerminal c s) k.console.screen).AtEnd (reference pre) := by
    intro pre post hpre
    refine List.foldl_rel hshows.toAtEnd fun c hc s p h => h.put fun h9 => htabs ?_
    rw [hpre, ← h9]
    exact List.mem_append_left post hc
  have hexact := along_total_pair (G := Screen.InTime) (J := Screen.AtEnd)
    (P := Screen.Grid) (f := fun s c => Screen.putcTerminal c s)
    (g := Page.put Screen.IsNewline 80) text ?_ ?_ hshows.toAtEnd hshows.grid
  · rw [hexact]
    constructor
    · intro h calls rest htext
      rw [screen_writeCalls]
      exact ⟨hcursor _ rest htext, h _ rest htext⟩
    · -- a part of the text as one call
      intro h pre post hpre
      have hshown := h [oneCall pre] post (by rw [written_oneCall]; exact hpre)
      rw [screen_writeCalls, written_oneCall] at hshown
      exact hshown.grid
  · intro s p c hc h
    exact h.put fun h9 => htabs (h9 ▸ hc)
  · intro s p c hc h hgrid
    exact (hgrid.put_iff h fun h9 => htabs (h9 ▸ hc)).symm

/-- A kernel with a cleared screen. -/
def clearedBoot : Kernel :=
  { tinyBoot with
    console := { tinyBoot.console with
      screen := Screen.setScreen 0 0 (Screen.clear tinyBoot.console.screen) } }

/-- `hi` and a newline. -/
theorem terminalWrite_shows_hi :
    (writeCalls [oneCall [104, 105, 10]] clearedBoot).console.screen.Shows
      (reference [104, 105, 10]) :=
  ((terminalWrite_shows_iff clearedBoot tinyBoot.console.screen rfl [104, 105, 10] (by decide)).2.mp
    (by decide +kernel)) [oneCall [104, 105, 10]] [] (by rw [written_oneCall]; rfl)

/-- An `a` and 24 newlines make 25 rows, so the `a` should still be seen; but it has
been scrolled away. -/
theorem twentyFive_rows_scrolled :
    let text : List UInt8 := 97 :: List.replicate 24 10
    (writeCalls [oneCall text] clearedBoot).console.screen.cellAt 0 0 = 32 ∧
      (reference text).rows.length = 25 ∧ (reference text).view 25 32 0 0 = 97 := by
  decide +kernel

end LinuxBasedOs
