/-
LinuxBasedOs/Echo.lean

Echo and erasure of a typed line.

A typed character is echoed by `putc_terminal`, which wraps at the right edge, scrolls
at the bottom right corner and lets a tab run past the edge; Backspace takes it back with
`deletec_terminal`, which steps back cell by cell with a wrap rule of its own.  Both
routines agree on the position `80 * screen_y + screen_x`: a character moves it forward by
as many cells as its erasure moves it back, and a scroll takes off one row.

There is one exception.  Tabs can carry the cursor to a column beyond the edge from which
the next visible character leaves the grid.  In the last row that character scrolls, as if
it stood in the last column; further up it wraps to the top row.  Main result: erasing a
typed line leads back to where it started exactly if no visible character is echoed from
such a place (`erase_typed_iff`).
-/
import LinuxBasedOs.Keyboard

namespace LinuxBasedOs

open Transition

/-! ### Typing -/

namespace Console

/-- The end of `process_to_buffer`: a symbol is echoed and buffered if there is room. -/
def type (c : Console) (symbol : UInt8) : Console :=
  if c.kbd.keyBufIndex < keyBufSize then
    { screen := Screen.putcTerminal symbol c.screen, kbd := c.kbd.addToBuffer symbol }
  else c

theorem processToBuffer_eq_type (input : UInt8) {c : Console} (hctrl : c.kbd.ctrlMode = 0) :
    processToBuffer input c = c.type (keyArray c.kbd.dict input) :=
  if_neg (not_not.mpr hctrl)

/-- The same screen and the same line buffer. -/
def Same (c d : Console) : Prop :=
  c.screen = d.screen ∧ c.kbd.keyBuf = d.kbd.keyBuf ∧ c.kbd.keyBufIndex = d.kbd.keyBufIndex

theorem Same.trans {c d e : Console} (h₁ : c.Same d) (h₂ : d.Same e) : c.Same e :=
  ⟨h₁.1.trans h₂.1, h₁.2.1.trans h₂.2.1, h₁.2.2.trans h₂.2.2⟩

theorem Same.type {c d : Console} (h : c.Same d) (symbol : UInt8) :
    (c.type symbol).Same (d.type symbol) := by
  obtain ⟨hs, hb, hi⟩ := h
  simp only [Console.type, Keyboard.addToBuffer, hs, hb, hi]
  split_ifs
  · exact ⟨rfl, rfl, rfl⟩
  · exact ⟨hs, hb, hi⟩

theorem Same.backspace {c d : Console} (h : c.Same d) : c.backspace.Same d.backspace := by
  obtain ⟨hs, hb, hi⟩ := h
  simp only [Console.backspace, hs, hb, hi]
  split_ifs
  · exact ⟨rfl, rfl, rfl⟩
  · exact ⟨hs, hb, hi⟩

/-- The code of a key that types a character while Ctrl is up. -/
def Types (input : UInt8) : Prop :=
  ¬ (input ≥ 0x80 ∨ Keyboard.IsModifier input) ∧ input ≠ 0x0E

/-- For such a key `key_handler` types the key's symbol … -/
theorem keyHandler_same_type {c : Console} (hok : c.kbd.Ok) (hctrl : c.kbd.ctrlMode = 0)
    {input : UInt8} (h : Types input) :
    (c.keyHandler input).Same (c.type (keyArray c.kbd.dict input)) := by
  have hupd := Keyboard.updateModes_of_not_modifier hok (not_or.mp h.1).2
  have hops : c.keyOps input = if c.kbd.keyBufIndex < keyBufSize then
      [.putcTerminal (keyArray c.kbd.dict input), .addToBuffer (keyArray c.kbd.dict input)]
      else [] := by
    simp only [Console.keyOps, Keyboard.updateModes_modeFlag, keyArray_eq_backspace]
    rw [if_neg h.1, if_neg h.2, hupd, if_neg (not_not.mpr hctrl)]
  have hact := keyHandler_ops input c
  rw [hops] at hact
  unfold Console.type
  split_ifs at hact ⊢
  · exact hact
  · exact hact

/-- … and for Backspace it erases. -/
theorem keyHandler_same_backspace (c : Console) : (c.keyHandler 0x0E).Same c.backspace := by
  have hops : c.keyOps 0x0E = [.backspace] := by
    simp only [Console.keyOps, Keyboard.updateModes_modeFlag, keyArray_eq_backspace]
    rw [if_neg (by decide), if_pos trivial]
  have hact := keyHandler_ops 0x0E c
  rw [hops] at hact
  exact hact

/-- A sequence of such keys types the sequence of their symbols. -/
theorem keyHandler_same_typed {inputs : List UInt8} (h : ∀ input ∈ inputs, Types input)
    {c d : Console} (hok : c.kbd.Ok) (hctrl : c.kbd.ctrlMode = 0) (hcd : c.Same d) :
    (inputs.foldl (fun c input => c.keyHandler input) c).Same
      ((inputs.map (keyArray c.kbd.dict)).foldl Console.type d) := by
  induction inputs generalizing c d with
  | nil => exact hcd
  | cons input inputs ih =>
      have hin := h input List.mem_cons_self
      have hupd := Keyboard.updateModes_of_not_modifier hok (not_or.mp hin.1).2
      obtain ⟨-, -, hctrl', hdict'⟩ := keyHandler_modes input c
      rw [hupd] at hctrl' hdict'
      have hstep := (keyHandler_same_type hok hctrl hin).trans (hcd.type _)
      have hrest := ih (fun i hi => h i (List.mem_cons_of_mem input hi)) (keyHandler_ok hok input)
        (hctrl'.trans hctrl) hstep
      rw [hdict'] at hrest
      exact hrest

/-- Presses of Backspace erase one character each. -/
theorem keyHandler_same_erased (n : Nat) {c d : Console} (hcd : c.Same d) :
    ((List.replicate n 0x0E).foldl (fun c input => c.keyHandler input) c).Same
      (backspace^[n] d) := by
  induction n generalizing c d with
  | zero => exact hcd
  | succ n ih => exact ih ((keyHandler_same_backspace c).trans hcd.backspace)

/-- **The keys of a typed and erased line.**  On the screen and the buffer, the handler
acts as `type` does for the symbols of the keys and as `backspace` does afterwards. -/
theorem keyHandler_typed_erased {inputs : List UInt8} (h : ∀ input ∈ inputs, Types input)
    {c : Console} (hok : c.kbd.Ok) (hctrl : c.kbd.ctrlMode = 0) (n : Nat) :
    ((inputs ++ List.replicate n 0x0E).foldl (fun (c : Console) input => c.keyHandler input) c).Same
      (backspace^[n] ((inputs.map (keyArray c.kbd.dict)).foldl Console.type c)) := by
  rw [List.foldl_append]
  exact keyHandler_same_erased n (keyHandler_same_typed h hok hctrl ⟨rfl, rfl, rfl⟩)

end Console

/-! ### Positions -/

namespace Screen

/-- `putc_terminal` calls `vertical_scroll`. -/
def Scrolls (s : Screen) (c : UInt8) : Prop :=
  c ≠ 9 ∧ if IsNewline c then (newline s).screenY ≥ numRows - 1
    else s.screenY ≥ numRows - 1 ∧ s.screenX ≥ numCols - 1

instance (s : Screen) (c : UInt8) : Decidable (s.Scrolls c) := by
  unfold Scrolls
  infer_instance

/-- The cursor is at or behind the last cell of the grid, but not in it. -/
def Beyond (s : Screen) : Prop :=
  numCols * numRows - 1 ≤ s.before ∧ ¬ (s.screenX = numCols - 1 ∧ s.screenY = numRows - 1)

instance (s : Screen) : Decidable s.Beyond := inferInstanceAs (Decidable (_ ∧ _))

/-- Where typing can have brought the cursor: into a row of the grid, at most `width`
cells past its right edge. -/
structure Reached (width : Int) (s : Screen) : Prop where
  x_nonneg : 0 ≤ s.screenX
  x_le : s.screenX ≤ numCols - 1 + width
  y_nonneg : 0 ≤ s.screenY
  y_lt : s.screenY < numRows

/-- The rows that the echo of a character takes off the position. -/
def scrollRows (s : Screen) (c : UInt8) : Int := if s.Scrolls c then 1 else 0

/-- What one echo should do: the cursor moves forward by as many cells as the erasure of
the character moves it back, less one row if the screen scrolls. -/
def Moves (s : Screen) (c : UInt8) : Prop :=
  (putcTerminal c s).before + numCols * s.scrollRows c = s.before + eraseCount c

theorem putcTerminal_tab {s : Screen} {width : Int} (h : s.Reached width) :
    (putcTerminal 9 s).Reached (width + eraseCount 9) ∧ s.Moves 9 := by
  obtain ⟨hx, hx', hy, hy'⟩ := h
  refine ⟨⟨?_, ?_, hy, hy'⟩, ?_⟩
  · show 0 ≤ s.screenX + 3
    omega
  · show s.screenX + 3 ≤ numCols - 1 + (width + 3)
    omega
  · show numCols * s.screenY + (s.screenX + 3) + numCols * 0 = numCols * s.screenY + s.screenX + 3
    omega

/-- A visible character in or behind the last column of the last row scrolls. -/
theorem putcTerminal_corner {s : Screen} {c : UInt8} (htab : c ≠ 9) (hnl : ¬ IsNewline c)
    (hend : s.screenY ≥ numRows - 1 ∧ s.screenX ≥ numCols - 1) :
    s.scrollRows c = 1 ∧ (putcTerminal c s).screenX = 0 ∧
      (putcTerminal c s).screenY = numRows - 1 := by
  constructor
  · refine if_pos ⟨htab, ?_⟩
    rw [if_neg hnl]
    exact hend
  · rw [putcTerminal, if_neg htab, if_neg hnl, if_pos hend]
    exact ⟨rfl, rfl⟩

/-- Elsewhere it advances the cursor. -/
theorem putcTerminal_advance {s : Screen} {c : UInt8} (htab : c ≠ 9) (hnl : ¬ IsNewline c)
    (hx : 0 ≤ s.screenX) (hy : 0 ≤ s.screenY)
    (hend : ¬ (s.screenY ≥ numRows - 1 ∧ s.screenX ≥ numCols - 1)) :
    s.scrollRows c = 0 ∧ (putcTerminal c s).screenX = (s.screenX + 1) % numCols ∧
      (putcTerminal c s).screenY = (s.screenY + (s.screenX + 1) / numCols) % numRows := by
  refine ⟨if_neg fun h => hend ?_, ?_⟩
  · have h' := h.2
    rw [if_neg hnl] at h'
    exact h'
  · have hx1 : 0 ≤ s.screenX + 1 := by omega
    have hrow : 0 ≤ (s.screenX + 1) / numCols := Int.ediv_nonneg hx1 (by decide)
    rw [putcTerminal, if_neg htab, if_neg hnl, if_neg hend, ← Int.tdiv_eq_ediv_of_nonneg hx1,
      ← Int.tmod_eq_emod_of_nonneg hx1, ← Int.tmod_eq_emod_of_nonneg
        (by rw [Int.tdiv_eq_ediv_of_nonneg hx1]; omega)]
    exact ⟨rfl, rfl⟩

/-- **One echo** moves the cursor as it should, except for a visible character from beyond
the last cell, which falls short of that. -/
theorem putcTerminal_position {s : Screen} {c : UInt8} {width : Int} (h : s.Reached width)
    (_ : 0 ≤ width) (hnl : ¬ IsNewline c) :
    (putcTerminal c s).Reached (width + eraseCount c) ∧
      (putcTerminal c s).before + numCols * s.scrollRows c ≤ s.before + eraseCount c ∧
      (s.Moves c ↔ ¬ (c ≠ 9 ∧ s.Beyond)) := by
  by_cases htab : c = 9
  · subst htab
    obtain ⟨hreach, hmoves⟩ := putcTerminal_tab h
    exact ⟨hreach, hmoves.le, iff_of_true hmoves fun h' => h'.1 rfl⟩
  obtain ⟨hx, hx', hy, hy'⟩ := h
  have hcount : eraseCount c = 1 := if_neg htab
  rw [Moves, hcount, and_iff_right htab]
  -- in the last cell the row is wrapped and the screen moves up
  by_cases hend : s.screenY ≥ numRows - 1 ∧ s.screenX ≥ numCols - 1
  · obtain ⟨hscroll, hpx, hpy⟩ := putcTerminal_corner htab hnl hend
    simp only [Beyond, before, hscroll, hpx, hpy]
    simp only [numCols, numRows] at *
    refine ⟨⟨by omega, ?_, by omega, ?_⟩, by omega, by omega⟩
    · show _ ≤ (80 : Int) - 1 + (width + 1)
      omega
    · show _ < (25 : Int)
      omega
  · obtain ⟨hscroll, hpx, hpy⟩ := putcTerminal_advance htab hnl hx hy hend
    simp only [Beyond, before, hscroll, hpx, hpy]
    simp only [numCols, numRows] at *
    refine ⟨⟨by omega, ?_, by omega, ?_⟩, by omega, by omega⟩
    · show _ ≤ (80 : Int) - 1 + (width + 1)
      omega
    · show _ < (25 : Int)
      omega

/-- **Erasing cells** steps back one by one; the column comes out as the difference unless
a row is left, and then it is a column of the grid. -/
theorem eraseLoop_position {s : Screen} (hx : 0 ≤ s.screenX) (n : Nat) :
    let t := forLoop (fun _ => eraseOne) n s
    0 ≤ t.screenX ∧ t.before = s.before - n ∧
      (t.screenX < numCols ∨ t.screenX = s.screenX - n) := by
  refine forLoop_invariant (f := fun _ => eraseOne) (P := fun i (t : Screen) =>
    0 ≤ t.screenX ∧ t.before = s.before - i ∧
      (t.screenX < numCols ∨ t.screenX = s.screenX - i)) ⟨hx, by simp, .inr (by simp)⟩ ?_
  rintro i t - ⟨htx, hbef, hcol⟩
  simp only [before, numCols] at *
  by_cases hpos : 0 < t.screenX
  · obtain ⟨hy', hx'⟩ := eraseOne_above hpos
    rw [hy', hx']
    omega
  · have hzero : t.screenX = 0 := by omega
    have herase : ((eraseOne t).screenX, (eraseOne t).screenY) = (79, t.screenY - 1) := by
      rw [eraseOne, if_neg hpos, if_pos hzero]
      rfl
    obtain ⟨hx', hy'⟩ := Prod.mk.inj herase
    rw [hy', hx']
    omega

end Screen

/-! ### A typed line -/

namespace Console

/-- The cells that erasing the line steps back. -/
def lineWidth (c : Console) : Nat := (c.kbd.line.map Screen.eraseCount).sum

/-- How often the screen scrolls while the characters are typed. -/
def scrolls : Console → List UInt8 → Int
  | _, [] => 0
  | c, ch :: cs =>
      (if c.kbd.keyBufIndex < keyBufSize then c.screen.scrollRows ch else 0) +
        scrolls (c.type ch) cs

/-- Typing the character echoes it from beyond the last cell of the grid. -/
def Overruns (c : Console) (ch : UInt8) : Prop :=
  c.kbd.keyBufIndex < keyBufSize ∧ ch ≠ 9 ∧ c.screen.Beyond

instance (c : Console) (ch : UInt8) : Decidable (c.Overruns ch) :=
  inferInstanceAs (Decidable (_ ∧ _))

theorem type_of_full {c : Console} (h : ¬ c.kbd.keyBufIndex < keyBufSize) (ch : UInt8) :
    c.type ch = c := if_neg h

theorem lineWidth_type {c : Console} (h : c.kbd.keyBufIndex < keyBufSize) (ch : UInt8) :
    (c.type ch).lineWidth = c.lineWidth + Screen.eraseCount ch := by
  rw [Console.type, if_pos h]
  simp only [lineWidth, Keyboard.line_addToBuffer h, List.map_append, List.map_cons, List.map_nil,
    List.sum_append, List.sum_singleton]

/-- **Typing.**  The position of the cursor against the width of the line. -/
theorem typed_position {cs : List UInt8} (hcs : ∀ ch ∈ cs, ¬ Screen.IsNewline ch) {c : Console}
    (h : c.screen.Reached c.lineWidth) :
    let t := cs.foldl Console.type c
    t.screen.Reached t.lineWidth ∧
      t.screen.before + numCols * c.scrolls cs ≤
        c.screen.before + t.lineWidth - c.lineWidth ∧
      (t.screen.before + numCols * c.scrolls cs = c.screen.before + t.lineWidth - c.lineWidth ↔
        Along (total Console.type) (fun c ch => ¬ c.Overruns ch) c cs) := by
  -- what one character does, added to what the others do from where it leaves the cursor
  induction cs generalizing c with
  | nil =>
      refine ⟨h, ?_, iff_of_true ?_ trivial⟩ <;> simp [scrolls]
  | cons ch cs ih =>
      have hrest := @ih (fun ch' h' => hcs ch' (List.mem_cons_of_mem ch h')) (c.type ch)
      rw [List.foldl_cons]
      simp only [scrolls, Along]
      have halong : (∀ o t, total Console.type c ch = some (o, t) →
          Along (total Console.type) (fun c ch => ¬ c.Overruns ch) t cs) ↔
          Along (total Console.type) (fun c ch => ¬ c.Overruns ch) (c.type ch) cs := by
        refine ⟨fun h' => h' () _ rfl, fun h' o t ht => ?_⟩
        rw [total_eq_some] at ht
        rw [← ht]
        exact h'
      rw [halong]
      -- a full buffer takes no more characters, and none is echoed
      by_cases hroom : c.kbd.keyBufIndex < keyBufSize
      · obtain ⟨hreach, hle, hiff⟩ := Screen.putcTerminal_position h (Int.natCast_nonneg _)
          (hcs ch List.mem_cons_self)
        have hscreen : (c.type ch).screen = Screen.putcTerminal ch c.screen := by
          rw [Console.type, if_pos hroom]
        have hwidth := lineWidth_type hroom ch
        have hguard : ¬ c.Overruns ch ↔ ¬ (ch ≠ 9 ∧ c.screen.Beyond) := by
          rw [Overruns, and_iff_right hroom]
        rw [Screen.Moves] at hiff
        rw [← hscreen] at hreach hle hiff
        rw [← Nat.cast_add, ← hwidth] at hreach
        obtain ⟨hreach', hle', hiff'⟩ := hrest hreach
        rw [if_pos hroom, hguard, ← hiff, ← hiff']
        rw [hwidth] at hle' ⊢
        push_cast at hle' ⊢
        simp only [numCols] at *
        exact ⟨hreach', by omega, by omega⟩
      · rw [type_of_full hroom] at hrest ⊢
        rw [if_neg hroom, zero_add, and_iff_right fun h' => hroom h'.1]
        exact hrest h

/-- At most one place of the buffer is taken for each character. -/
theorem keyBufIndex_typed_le (cs : List UInt8) (c : Console) :
    (cs.foldl Console.type c).kbd.keyBufIndex ≤ c.kbd.keyBufIndex + cs.length := by
  induction cs generalizing c with
  | nil => exact le_refl _
  | cons ch cs ih =>
      have hstep : (c.type ch).kbd.keyBufIndex ≤ c.kbd.keyBufIndex + 1 := by
        simp only [Console.type, Keyboard.addToBuffer]
        split_ifs
        · exact le_refl _
        · exact Nat.le_succ _
      have hrest := ih (c.type ch)
      rw [List.foldl_cons, List.length_cons]
      omega

/-! ### Erasing it -/

theorem lineWidth_of_empty {c : Console} (h : c.kbd.keyBufIndex = 0) : c.lineWidth = 0 := by
  rw [lineWidth, Keyboard.line, h]
  rfl

/-- Backspace takes the last character off the line and its cells off the position. -/
theorem backspace_of_pos {c : Console} (h : 0 < c.kbd.keyBufIndex) :
    ∃ n : Nat, c.backspace.screen = forLoop (fun _ => Screen.eraseOne) n c.screen ∧
      c.backspace.lineWidth + n = c.lineWidth ∧
      c.backspace.kbd.keyBufIndex + 1 = c.kbd.keyBufIndex := by
  obtain ⟨m, hm⟩ : ∃ m, c.kbd.keyBufIndex = m + 1 := ⟨_, (Nat.succ_pred_eq_of_pos h).symm⟩
  have hline : c.kbd.line = (List.range m).map c.kbd.keyBuf ++ [c.kbd.keyBuf m] := by
    rw [Keyboard.line, hm, List.range_succ, List.map_append]
    rfl
  refine ⟨Screen.eraseCount (c.kbd.keyBuf m), ?_, ?_, ?_⟩
  · rw [backspace, if_pos h, hm]
    rfl
  · rw [lineWidth, line_backspace, lineWidth, hline, List.dropLast_concat, List.map_append,
      List.sum_append]
    rfl
  · rw [backspace, if_pos h]
    exact Nat.sub_add_cancel h

theorem backspace_of_empty {c : Console} (h : c.kbd.keyBufIndex = 0) : c.backspace = c :=
  if_neg (by omega)

/-- **Erasing.**  Once every character of the line has been taken back, the position is
that of before less the width of the line. -/
theorem erased_position {n : Nat} {c : Console} (hn : c.kbd.keyBufIndex ≤ n)
    (hx : 0 ≤ c.screen.screenX) :
    let e := backspace^[n] c
    e.kbd.keyBufIndex = 0 ∧ 0 ≤ e.screen.screenX ∧
      e.screen.before = c.screen.before - c.lineWidth ∧
      (e.screen.screenX < numCols ∨ e.screen.screenX = c.screen.screenX - c.lineWidth) := by
  induction n generalizing c with
  | zero =>
      have hzero : c.kbd.keyBufIndex = 0 := Nat.le_zero.mp hn
      rw [lineWidth_of_empty hzero]
      exact ⟨hzero, hx, by simp, .inr (by simp)⟩
  | succ n ih =>
      rw [Function.iterate_succ_apply]
      rcases Nat.eq_zero_or_pos c.kbd.keyBufIndex with hzero | hpos
      · rw [backspace_of_empty hzero]
        exact ih (hzero ▸ Nat.zero_le n) hx
      · obtain ⟨k, hscreen, hwidth, hindex⟩ := backspace_of_pos hpos
        obtain ⟨hx', hbef', hcol'⟩ := Screen.eraseLoop_position hx k
        rw [← hscreen] at hx' hbef' hcol'
        obtain ⟨hidx, hx'', hbef'', hcol''⟩ := ih (c := c.backspace) (by omega) hx'
        refine ⟨hidx, hx'', by omega, ?_⟩
        simp only [numCols] at *
        omega

/-! ### Main result -/

/-- The cursor is back where it was when `c` began to be typed into, up by the rows that
have scrolled since, and the line is empty. -/
def Restored (c : Console) (rows : Int) (e : Console) : Prop :=
  e.screen.screenX = c.screen.screenX ∧ e.screen.screenY = c.screen.screenY - rows ∧
    e.kbd.keyBufIndex = 0

/-- **Erasing what was typed.**  From every cell of the grid and an empty buffer, for
every sequence of characters other than newlines: pressing Backspace once for each of them
brings the cursor back to its cell, moved up one row for each scroll, and empties the
buffer, exactly if no visible character was echoed from beyond the last cell. -/
theorem erase_typed_iff (c : Console) (hcursor : c.screen.CursorOk)
    (hempty : c.kbd.keyBufIndex = 0) (cs : List UInt8) (hcs : ∀ ch ∈ cs, ¬ Screen.IsNewline ch) :
    c.Restored (c.scrolls cs) (backspace^[cs.length] (cs.foldl Console.type c)) ↔
      Along (total Console.type) (fun c ch => ¬ c.Overruns ch) c cs := by
  obtain ⟨⟨hx, hx'⟩, hy, hy'⟩ := hcursor
  have hwidth := lineWidth_of_empty hempty
  have hstart : c.screen.Reached c.lineWidth := by
    rw [hwidth]
    exact ⟨hx, by rw [numCols] at *; omega, hy, hy'⟩
  obtain ⟨hreach, -, hiff⟩ := typed_position hcs hstart
  have hle := keyBufIndex_typed_le cs c
  rw [hempty, Nat.zero_add] at hle
  generalize cs.foldl Console.type c = t at *
  obtain ⟨hidx, hex, hbef, hcol⟩ := erased_position hle hreach.x_nonneg
  have hxle := hreach.x_le
  rw [← hiff, Restored, hwidth]
  simp only [Screen.before, numCols] at *
  constructor
  · rintro ⟨hX, hY, -⟩
    rw [hX, hY] at hbef
    omega
  · intro hpos
    refine ⟨?_, ?_, hidx⟩ <;> omega

/-- A line that wraps and scrolls: `a`, a tab and `b` from column 79 of the last row. -/
theorem erase_typed_wrapped :
    let c : Console := ⟨⟨79, 24, fun _ => 0, 0, []⟩, Keyboard.boot⟩
    c.screen.CursorOk ∧ c.Restored 1 (backspace^[3] ([97, 9, 98].foldl Console.type c)) :=
  have hcursor : (⟨79, 24, fun _ => 0, 0, []⟩ : Screen).CursorOk :=
    ⟨⟨by decide, by decide⟩, by decide, by decide⟩
  ⟨hcursor, (erase_typed_iff ⟨⟨79, 24, fun _ => 0, 0, []⟩, Keyboard.boot⟩ hcursor rfl [97, 9, 98]
    (by decide +kernel)).mpr (by decide +kernel)⟩

/-- A tab from column 78 of the last row, and `a`: the screen scrolls once, and erasing
both ends in column 76 of the row above. -/
theorem erase_tab_corner :
    let c : Console := ⟨⟨78, 24, fun _ => 0, 0, []⟩, Keyboard.boot⟩
    let e := backspace^[2] ([9, 97].foldl Console.type c)
    c.scrolls [9, 97] = 1 ∧ e.screen.screenX = 76 ∧ e.screen.screenY = 23 := by
  decide +kernel

end Console

end LinuxBasedOs
