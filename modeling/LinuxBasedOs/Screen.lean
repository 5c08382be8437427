/-
LinuxBasedOs/Screen.lean

The text screen of `lib.c`: a cursor `(screen_x, screen_y)` and the video memory
behind it, two bytes per cell of an 80 by 25 grid.

The cursor is kept in two signed integers that no operation checks before it
computes a cell from them, so they are integers here too, and `vmem` is indexed
by the signed byte offset from `video_mem`.  `touched` records the offsets that
have been stored to; it has no counterpart in the source.

`Screen.InRange` says that the cursor is on the grid and that every cell stored
to so far is a cell of the grid.  For each operation of `lib.c` the file proves
exactly when it keeps this: `putc_terminal` and the pair `clear`,
`set_screen(0,0)` except for tabs, `putc` except for newlines on the last row,
and `deletec_terminal` when there are enough cells to the left of the cursor.
-/
import LinuxBasedOs.Run

namespace LinuxBasedOs

open Transition

/-! ### The screen and its operations -/

/-- `NUM_COLS`. -/
def numCols : Int := 80

/-- `NUM_ROWS`. -/
def numRows : Int := 25

/-- `tab_size`. -/
def tabSize : Nat := 3

/-- `ATTRIB`. -/
def attrib : UInt8 := 0x8

/-- `screen_x`, `screen_y`, the video memory and the position last sent to the
VGA cursor registers. -/
structure Screen where
  screenX : Int
  screenY : Int
  vmem : Int → UInt8
  cursor : Nat
  touched : List Int

namespace Screen

/-- `*(uint8_t *)(video_mem + off) = v`. -/
def store (off : Int) (v : UInt8) (s : Screen) : Screen :=
  { s with vmem := Function.update s.vmem off v, touched := off :: s.touched }

/-- `set_cursor_pos`: the position is truncated to 16 bits. -/
def setCursorPos (s : Screen) : Screen :=
  { s with cursor := ((numCols * s.screenY + s.screenX) % 65536).toNat }

/-- `set_screen`. -/
def setScreen (x y : Int) (s : Screen) : Screen :=
  setCursorPos { s with screenX := x, screenY := y }

/-- `clear`: blank every cell; the cursor stays where it is. -/
def clear (s : Screen) : Screen :=
  forLoop (fun i s => store (2 * i + 1) attrib (store (2 * i) 0x20 s)) 2000 s

/-- The body of the loops of `vertical_scroll` that move row `y + 1` to row `y`:
the characters move, the attributes stay. -/
def moveCell (y x : Nat) (s : Screen) : Screen :=
  store (2 * (numCols * y + x)) (s.vmem (2 * (numCols * (y + 1) + x))) s

/-- `vertical_scroll`: each row moves up, and the last one is blanked. -/
def verticalScroll (s : Screen) : Screen :=
  let moved := forLoop (fun y s => forLoop (moveCell y) 80 s) 24 s
  let blanked := forLoop (fun x s => store (2 * (numCols * (numRows - 1) + x)) 0x20 s) 80 moved
  setScreen 0 (numRows - 1) blanked

/-- The two stores `putc` and `putc_terminal` make for a visible character. -/
def putCell (c : UInt8) (s : Screen) : Screen :=
  store (2 * (numCols * s.screenY + s.screenX) + 1) attrib
    (store (2 * (numCols * s.screenY + s.screenX)) c s)

/-- `screen_x++; screen_y = (screen_y + screen_x / NUM_COLS) % NUM_ROWS;
screen_x %= NUM_COLS` (C's division truncates). -/
def advance (s : Screen) : Screen :=
  { s with
    screenX := (s.screenX + 1).tmod numCols
    screenY := (s.screenY + (s.screenX + 1).tdiv numCols).tmod numRows }

/-- `c == '\n' || c == '\r'`. -/
def IsNewline (c : UInt8) : Prop := c = 10 ∨ c = 13

instance (c : UInt8) : Decidable (IsNewline c) := inferInstanceAs (Decidable (_ ∨ _))

/-- `screen_y++; screen_x = 0`. -/
def newline (s : Screen) : Screen := { s with screenY := s.screenY + 1, screenX := 0 }

/-- `putc_terminal`.  A tab moves the cursor only, and may leave it beyond the row. -/
def putcTerminal (c : UInt8) (s : Screen) : Screen :=
  setCursorPos <|
    if c = 9 then
      { s with screenX := s.screenX + tabSize }
    else if IsNewline c then
      if (newline s).screenY ≥ numRows - 1 then verticalScroll (newline s) else newline s
    else if s.screenY ≥ numRows - 1 ∧ s.screenX ≥ numCols - 1 then
      verticalScroll (putCell c s)
    else advance (putCell c s)

/-- The body of the loop of `deletec_terminal`. -/
def eraseOne (s : Screen) : Screen :=
  if s.screenX > 0 then
    setScreen (s.screenX - 1) s.screenY
      (store (2 * (numCols * s.screenY + s.screenX - 1)) 0x20 s)
  else if s.screenX = 0 then
    setScreen (numCols - 1) (s.screenY - 1)
      (store (2 * (numCols * (s.screenY - 1) + numCols - 1)) 0x20 s)
  else s

/-- The number of cells `deletec_terminal` erases for a character. -/
def eraseCount (c : UInt8) : Nat := if c = 9 then tabSize else 1

/-- `deletec_terminal`: a tab takes three steps back. -/
def deletecTerminal (c : UInt8) (s : Screen) : Screen :=
  forLoop (fun _ => eraseOne) (eraseCount c) s

/-- `putc`, the console output of `printf`: it does not scroll. -/
def putc (c : UInt8) (s : Screen) : Screen :=
  setCursorPos <|
    if IsNewline c then newline s else advance (putCell c s)

/-! ### On the grid -/

/-- The byte offset `off` belongs to one of the `80 * 25` cells. -/
def IsCell (off : Int) : Prop := 0 ≤ off / 2 ∧ off / 2 < numCols * numRows

/-- Every cell stored to so far is on the grid. -/
def CellsOk (s : Screen) : Prop := ∀ off ∈ s.touched, IsCell off

/-- The cursor is on the grid. -/
def CursorOk (s : Screen) : Prop :=
  (0 ≤ s.screenX ∧ s.screenX < numCols) ∧ (0 ≤ s.screenY ∧ s.screenY < numRows)

/-- The cursor is on the grid and nothing outside it has been stored to. -/
structure InRange (s : Screen) : Prop where
  cursor : s.CursorOk
  cells : s.CellsOk

theorem cellsOk_store {off : Int} {v : UInt8} {s : Screen} :
    (store off v s).CellsOk ↔ IsCell off ∧ s.CellsOk := by
  simp only [CellsOk, store, List.mem_cons, forall_eq_or_imp]

@[simp] theorem cellsOk_setCursorPos {s : Screen} : (setCursorPos s).CellsOk ↔ s.CellsOk := Iff.rfl

@[simp] theorem cellsOk_setScreen {s : Screen} {x y : Int} :
    (setScreen x y s).CellsOk ↔ s.CellsOk := Iff.rfl

@[simp] theorem inRange_setCursorPos {s : Screen} : (setCursorPos s).InRange ↔ s.InRange :=
  ⟨fun h => ⟨h.cursor, h.cells⟩, fun h => ⟨h.cursor, h.cells⟩⟩

theorem setScreen_inRange {s : Screen} {x y : Int} (hx : 0 ≤ x ∧ x < numCols)
    (hy : 0 ≤ y ∧ y < numRows) (h : s.CellsOk) : (setScreen x y s).InRange :=
  ⟨⟨hx, hy⟩, h⟩

/-- Both bytes of a cell of the grid. -/
theorem isCell_of_cell {k : Int} (h0 : 0 ≤ k) (h1 : k < numCols * numRows) :
    IsCell (2 * k) ∧ IsCell (2 * k + 1) := by
  simp only [IsCell]
  omega

/-- The cell under a cursor on the grid. -/
theorem CursorOk.cell {s : Screen} (h : s.CursorOk) :
    0 ≤ numCols * s.screenY + s.screenX ∧
      numCols * s.screenY + s.screenX < numCols * numRows := by
  obtain ⟨⟨hx, hx'⟩, hy, hy'⟩ := h
  simp only [numCols, numRows] at *
  omega

/-! ### Clearing and scrolling -/

/-- `clear` stores to cells of the grid only, and leaves the cursor alone. -/
theorem clear_spec {s : Screen} (h : s.CellsOk) :
    (clear s).CellsOk ∧ (clear s).screenX = s.screenX ∧ (clear s).screenY = s.screenY := by
  refine forLoop_invariant
    (P := fun _ (t : Screen) => t.CellsOk ∧ t.screenX = s.screenX ∧ t.screenY = s.screenY) ⟨h, rfl, rfl⟩ ?_
  rintro i t hi ⟨hc, hx, hy⟩
  have hcell : IsCell (2 * i) ∧ IsCell (2 * i + 1) :=
    isCell_of_cell (by omega) (by simp only [numCols, numRows]; omega)
  exact ⟨cellsOk_store.mpr ⟨hcell.2, cellsOk_store.mpr ⟨hcell.1, hc⟩⟩, hx, hy⟩

/-- Scrolling is a run of stores to characters of the grid, after which the cursor is
set: what each such store keeps holds where the cursor is set. -/
theorem verticalScroll_stores {P : Screen → Prop} {s : Screen} (h : P s)
    (hstore : ∀ k v t, 0 ≤ k → k < numCols * numRows → P t → P (store (2 * k) v t)) :
    ∃ t, P t ∧ verticalScroll s = setScreen 0 (numRows - 1) t := by
  have hmoved : P (forLoop (fun y s => forLoop (moveCell y) 80 s) 24 s) := by
    refine forLoop_invariant (P := fun _ t => P t) h fun y t hy ht => ?_
    refine forLoop_invariant (P := fun _ t => P t) ht fun x u hx hu => ?_
    refine hstore (numCols * y + x) _ u ?_ ?_ hu <;> simp only [numCols, numRows] <;> omega
  have hblank := forLoop_invariant (n := 80)
    (f := fun x s => store (2 * (numCols * (numRows - 1) + x)) 0x20 s)
    (P := fun _ t => P t) hmoved fun x u hx hu => by
      refine hstore (numCols * (numRows - 1) + x) _ u ?_ ?_ hu <;>
        simp only [numCols, numRows] <;> omega
  exact ⟨_, hblank, rfl⟩

/-- Scrolling ends with the cursor at the start of the last row. -/
theorem verticalScroll_inRange {s : Screen} (h : s.CellsOk) : (verticalScroll s).InRange := by
  obtain ⟨t, ht, heq⟩ := verticalScroll_stores h fun k v t h0 h1 ht =>
    cellsOk_store.mpr ⟨(isCell_of_cell h0 h1).1, ht⟩
  rw [heq]
  exact setScreen_inRange (by decide) (by decide) ht

/-- The Ctrl-L action. -/
theorem clear_home_inRange {s : Screen} (h : s.CellsOk) : (setScreen 0 0 (clear s)).InRange :=
  setScreen_inRange (by decide) (by decide) (clear_spec h).1

/-! ### Writing a character -/

theorem putCell_inRange {c : UInt8} {s : Screen} (h : s.InRange) : (putCell c s).InRange := by
  have hcell := isCell_of_cell h.cursor.cell.1 h.cursor.cell.2
  exact ⟨h.cursor, cellsOk_store.mpr ⟨hcell.2, cellsOk_store.mpr ⟨hcell.1, h.cells⟩⟩⟩

/-- Advancing wraps to the next row, and from the last row to the first. -/
theorem advance_inRange {s : Screen} (h : s.InRange) : (advance s).InRange := by
  obtain ⟨⟨⟨hx, hx'⟩, hy, hy'⟩, hcells⟩ := h
  refine ⟨⟨⟨?_, ?_⟩, ?_, ?_⟩, hcells⟩
  · exact Int.tmod_nonneg _ (by omega)
  · exact Int.tmod_lt_of_pos _ (by decide)
  · refine Int.tmod_nonneg _ ?_
    have hrow : 0 ≤ (s.screenX + 1).tdiv numCols := Int.tdiv_nonneg (by omega) (by decide)
    omega
  · exact Int.tmod_lt_of_pos _ (by decide)

theorem newline_inRange {s : Screen} (h : s.InRange) :
    (newline s).InRange ↔ s.screenY + 1 < numRows := by
  refine ⟨fun h' => h'.cursor.2.2, fun h' => ⟨⟨⟨le_rfl, ?_⟩, ?_, h'⟩, h.cells⟩⟩
  · show (0 : Int) < 80
    decide
  · show 0 ≤ s.screenY + 1
    have := h.cursor.2.1
    omega

/-- `putc_terminal` stays on the grid exactly if a tab leaves room in its row. -/
theorem putcTerminal_inRange {c : UInt8} {s : Screen} (h : s.InRange) :
    (putcTerminal c s).InRange ↔ (c = 9 → s.screenX + tabSize < numCols) := by
  have hx : 0 ≤ s.screenX := h.cursor.1.1
  rw [putcTerminal, inRange_setCursorPos]
  split_ifs with htab hnl hlast hend
  · -- a tab moves the cursor and stores nothing
    refine ⟨fun h' _ => h'.cursor.1.2, fun h' => ⟨⟨⟨?_, h' htab⟩, h.cursor.2⟩, h.cells⟩⟩
    show 0 ≤ s.screenX + tabSize
    omega
  · have hnl' : (verticalScroll (newline s)).InRange := verticalScroll_inRange h.cells
    exact iff_of_true hnl' fun h' => absurd h' htab
  · have hroom : s.screenY + 1 < numRows := by
      have hlast' : ¬ s.screenY + 1 ≥ numRows - 1 := hlast
      omega
    exact iff_of_true ((newline_inRange h).mpr hroom) fun h' => absurd h' htab
  · exact iff_of_true (verticalScroll_inRange (putCell_inRange h).cells) fun h' => absurd h' htab
  · exact iff_of_true (advance_inRange (putCell_inRange h)) fun h' => absurd h' htab

/-- `putc` stays on the grid exactly if a newline is not on the last row. -/
theorem putc_inRange {c : UInt8} {s : Screen} (h : s.InRange) :
    (putc c s).InRange ↔ (IsNewline c → s.screenY + 1 < numRows) := by
  rw [putc, inRange_setCursorPos]
  split_ifs with hnl
  · rw [newline_inRange h]
    exact ⟨fun h' _ => h', fun h' => h' hnl⟩
  · exact iff_of_true (advance_inRange (putCell_inRange h)) fun h' => absurd h' hnl

/-! ### Erasing -/

/-- The number of cells before the cursor. -/
def before (s : Screen) : Int := numCols * s.screenY + s.screenX

/-- With a cell before the cursor, erasing one cell steps back onto it. -/
theorem eraseOne_inRange {s : Screen} (h : s.InRange) (hb : 0 < s.before) :
    (eraseOne s).InRange ∧ (eraseOne s).before = s.before - 1 := by
  obtain ⟨⟨⟨hx, hx'⟩, hy, hy'⟩, hcells⟩ := h
  simp only [before, numCols, numRows] at *
  unfold eraseOne
  split_ifs with hpos hzero
  · constructor
    · refine setScreen_inRange (by simp only [numCols]; omega) ⟨hy, hy'⟩ ?_
      rw [cellsOk_store]
      refine ⟨(isCell_of_cell ?_ ?_).1, hcells⟩ <;> simp only [numCols, numRows] <;> omega
    · show 80 * s.screenY + (s.screenX - 1) = _
      omega
  · -- back to the end of the row above
    constructor
    · refine setScreen_inRange (by decide) (by simp only [numRows]; omega) ?_
      rw [cellsOk_store]
      refine ⟨(isCell_of_cell ?_ ?_).1, hcells⟩ <;> simp only [numCols, numRows] <;> omega
    · show 80 * (s.screenY - 1) + (80 - 1) = _
      omega
  · omega

/-- From the top left corner erasing leaves the grid, upwards … -/
theorem eraseOne_of_corner {s : Screen} (h : s.InRange) (hb : s.before ≤ 0) :
    (eraseOne s).screenY = -1 ∧ (eraseOne s).screenX = 79 := by
  obtain ⟨⟨⟨hx, hx'⟩, hy, hy'⟩, -⟩ := h
  simp only [before, numCols, numRows] at *
  have hx0 : s.screenX = 0 := by omega
  have hy0 : s.screenY = 0 := by omega
  rw [eraseOne, if_neg (by omega), if_pos hx0]
  refine ⟨?_, rfl⟩
  show s.screenY - 1 = -1
  omega

/-- … and erasing further within that row does not come back. -/
theorem eraseOne_above {s : Screen} (hx : 0 < s.screenX) :
    (eraseOne s).screenY = s.screenY ∧ (eraseOne s).screenX = s.screenX - 1 := by
  rw [eraseOne, if_pos hx]
  exact ⟨rfl, rfl⟩

/-- Erasing `n` cells, `n` at most the width of a row, stays on the grid exactly
if there are `n` cells before the cursor. -/
theorem eraseLoop_inRange {n : Nat} (hn : n ≤ 79) {s : Screen} (h : s.InRange) :
    (forLoop (fun _ => eraseOne) n s).InRange ↔ (n : Int) ≤ s.before := by
  -- after `i` rounds: still on the grid with `i` cells fewer before the cursor,
  -- or in row -1, at least `79 - (i - 1)` cells from its left end
  have hloop := forLoop_invariant (n := n) (f := fun _ => eraseOne) (s := s)
    (P := fun i (t : Screen) => ((i : Int) ≤ s.before ∧ t.InRange ∧ t.before = s.before - i) ∨
      (s.before < i ∧ t.screenY = -1 ∧ (80 : Int) ≤ t.screenX + i))
    (.inl ⟨?_, h, by simp⟩) ?_
  · rcases hloop with ⟨hle, hin, -⟩ | ⟨hlt, hy, -⟩
    · exact iff_of_true hin hle
    · refine iff_of_false (fun hin => ?_) (by omega)
      have := hin.cursor.2.1
      omega
  · exact h.cursor.cell.1
  · rintro i t hi (⟨hle, hin, hbef⟩ | ⟨hlt, hy, hx⟩)
    · by_cases hb : 0 < t.before
      · obtain ⟨hin', hbef'⟩ := eraseOne_inRange hin hb
        exact .inl ⟨by omega, hin', by omega⟩
      · obtain ⟨hy', hx'⟩ := eraseOne_of_corner hin (by omega)
        exact .inr ⟨by omega, hy', by omega⟩
    · obtain ⟨hy', hx'⟩ := eraseOne_above (s := t) (by omega)
      exact .inr ⟨by omega, by omega, by omega⟩

theorem deletecTerminal_inRange {c : UInt8} {s : Screen} (h : s.InRange) :
    (deletecTerminal c s).InRange ↔ (eraseCount c : Int) ≤ s.before := by
  refine eraseLoop_inRange ?_ h
  unfold eraseCount tabSize
  split_ifs <;> decide

end Screen

end LinuxBasedOs
