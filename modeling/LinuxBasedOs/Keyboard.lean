/-
LinuxBasedOs/Keyboard.lean

The keyboard driver of `key_driver.c`: the three key tables, the line buffer
`key_buf`, and the interrupt handler `key_handler` with everything it calls.

`Console` is the screen together with the driver's variables.  The variables are
`volatile int`s in the source; `key_buf_index` is only decremented when it is
positive, so it is a natural number here.

The second half is about the screen.  What the kernel does to the screen is a
sequence of `ScreenOp`s; `keyHandler_ops` shows that this covers the handler,
and `screenOps_inRange_iff` says exactly which sequences keep the cursor and all
stores on the 80 by 25 grid.
-/
import LinuxBasedOs.Screen

namespace LinuxBasedOs

open Transition

/-! ### Key tables -/

/-- `LSHIFT_PRESSED`. -/
def lshiftPressed : UInt8 := 0x2A

/-- `LSHIFT_RELEASED`. -/
def lshiftReleased : UInt8 := 0xAA

/-- `RSHIFT_PRESSED`. -/
def rshiftPressed : UInt8 := 0x36

/-- `RSHIFT_RELEASED`. -/
def rshiftReleased : UInt8 := 0xB6

/-- `CTRL_PRESSED`. -/
def ctrlPressed : UInt8 := 0x1D

/-- `CTRL_RELEASED`. -/
def ctrlReleased : UInt8 := 0x9D

/-- `CAPS_PRESSED`; its release is not looked at. -/
def capsPressed : UInt8 := 0x3A

/-- `KEY_BUF_SIZE`. -/
def keyBufSize : Nat := 128

/-- The end of each row of `key_array`, from the right shift key on; the entries
that the source leaves out are zero. -/
def keypad : List UInt8 :=
  [0, 42, 0, 32, 0,                        -- right shift, '*', alt, space, caps lock
   0, 0, 0, 0, 0, 0, 0, 0, 0, 0, 0, 0,     -- F1 to F10, num lock, scroll lock
   0, 0, 0, 45, 0, 0, 0, 43]               -- home, up, page up, '-', left, 5, right, '+'

/-- `key_array[0]`. -/
def normalKeys : List UInt8 :=
  [0, 27, 49, 50, 51, 52, 53, 54, 55, 56, 57, 48, 45, 61, 8, 9,          -- esc 1234567890-= \b \t
   113, 119, 101, 114, 116, 121, 117, 105, 111, 112, 91, 93, 10, 0,      -- qwertyuiop[] enter ctrl
   97, 115, 100, 102, 103, 104, 106, 107, 108, 59, 39, 96, 0,            -- asdfghjkl;'` shift
   92, 122, 120, 99, 118, 98, 110, 109, 44, 46, 47] ++ keypad            -- \zxcvbnm,./

/-- `key_array[1]`. -/
def shiftKeys : List UInt8 :=
  [0, 27, 33, 64, 35, 36, 37, 94, 38, 42, 40, 41, 95, 43, 8, 9,          -- esc !@#$%^&*()_+ \b \t
   81, 87, 69, 82, 84, 89, 85, 73, 79, 80, 123, 125, 10, 0,              -- QWERTYUIOP{} enter ctrl
   65, 83, 68, 70, 71, 72, 74, 75, 76, 58, 39, 126, 0,                   -- ASDFGHJKL:'~ shift
   92, 90, 88, 67, 86, 66, 78, 77, 60, 62, 63] ++ keypad                 -- \ZXCVBNM<>?

/-- `key_array[2]`. -/
def capsKeys : List UInt8 :=
  [0, 27, 49, 50, 51, 52, 53, 54, 55, 56, 57, 48, 45, 61, 8, 9,          -- esc 1234567890-= \b \t
   81, 87, 69, 82, 84, 89, 85, 73, 79, 80, 91, 93, 10, 0,                -- QWERTYUIOP[] enter ctrl
   65, 83, 68, 70, 71, 72, 74, 75, 76, 59, 39, 96, 0,                    -- ASDFGHJKL;'` shift
   92, 90, 88, 67, 86, 66, 78, 77, 44, 46, 47] ++ keypad                 -- \ZXCVBNM,./

/-- The rows of `key_array`. -/
def keyRow : Nat → List UInt8
  | 0 => normalKeys
  | 1 => shiftKeys
  | _ => capsKeys

/-- `key_array[dict][input]`, for codes below 128; the handler does not use the
symbol of any other code. -/
def keyArray (dict : Nat) (input : UInt8) : UInt8 := (keyRow dict).getD input.toNat 0

/-! ### The driver's state -/

/-- The globals of key_driver.c. -/
structure Keyboard where
  keyBuf : Nat → UInt8
  keyBufIndex : Nat
  enterFlag : Int
  dict : Nat
  ctrlMode : Int
  capsMode : Int
  shiftMode : Int
  modeFlag : Int
  eois : Nat                    -- end-of-interrupt commands sent for IRQ 1

/-- What the keyboard writes to: its own state, and the screen for the echo. -/
structure Console where
  screen : Screen
  kbd : Keyboard

namespace Keyboard

/-- The variables in the kernel's BSS. -/
def boot : Keyboard := ⟨fun _ => 0, 0, 0, 0, 0, 0, 0, 0, 0⟩

/-- `keyboard_environment`, which is all that `terminal_open` does. -/
def keyboardEnvironment (k : Keyboard) : Keyboard :=
  { k with dict := 0, capsMode := 0, shiftMode := 0, ctrlMode := 0 }

/-- `send_eoi(1)`. -/
def sendEoi (k : Keyboard) : Keyboard := { k with eois := k.eois + 1 }

/-- `add_to_buffer`: a symbol for which there is no room is dropped. -/
def addToBuffer (symbol : UInt8) (k : Keyboard) : Keyboard :=
  if k.keyBufIndex < keyBufSize then
    { k with keyBuf := Function.update k.keyBuf k.keyBufIndex symbol
             keyBufIndex := k.keyBufIndex + 1 }
  else k

/-- `clear_key_buffer`. -/
def clearKeyBuffer (k : Keyboard) : Keyboard :=
  { forLoop (fun i k => { k with keyBuf := Function.update k.keyBuf i 0 }) keyBufSize k with
    keyBufIndex := 0 }

/-- The dictionary for a combination of shift and caps; `~` is the bitwise
complement, so `~shift_mode` is nonzero for both values of `shift_mode`. -/
def dictOf (shift caps : Int) : Nat :=
  if shift ≠ 0 ∧ caps ≠ 0 then 0
  else if shift ≠ 0 ∧ ~~~caps ≠ 0 then 1
  else if ~~~shift ≠ 0 ∧ caps ≠ 0 then 2
  else 0

/-- Both shift keys set one mode, and the release of either clears it. -/
def shiftKey (input : UInt8) (k : Keyboard) : Keyboard :=
  if input = rshiftPressed ∨ input = lshiftPressed then { k with shiftMode := 1, modeFlag := 1 }
  else if input = rshiftReleased ∨ input = lshiftReleased then
    { k with shiftMode := 0, modeFlag := 1 }
  else k

/-- Caps lock complements its mode, so that it is 0 or -1. -/
def capsKey (input : UInt8) (k : Keyboard) : Keyboard :=
  if input = capsPressed then { k with capsMode := ~~~k.capsMode, modeFlag := 1 } else k

/-- The left control key. -/
def ctrlKey (input : UInt8) (k : Keyboard) : Keyboard :=
  if input = ctrlPressed then { k with ctrlMode := 1, modeFlag := 1 }
  else if input = ctrlReleased then { k with ctrlMode := 0, modeFlag := 1 }
  else k

/-- The first half of `key_handler`, the same for every code: both flags are
reset, the modifiers are updated, and the dictionary with them. -/
def updateModes (input : UInt8) (k : Keyboard) : Keyboard :=
  let k' := ctrlKey input (capsKey input (shiftKey input { k with enterFlag := 0, modeFlag := 0 }))
  { k' with dict := dictOf k'.shiftMode k'.capsMode }

end Keyboard

namespace Console

/-- The action on Ctrl-L. -/
def ctrlL (c : Console) : Console :=
  { c with screen := Screen.setScreen 0 0 (Screen.clear c.screen) }

/-- `process_to_buffer`: with control, only `l` does anything; else the symbol is echoed and
buffered if there is room. -/
def processToBuffer (input : UInt8) (c : Console) : Console :=
  let symbol := keyArray c.kbd.dict input
  if c.kbd.ctrlMode ≠ 0 then
    if symbol = 108 ∨ symbol = 76 then ctrlL c else c
  else if c.kbd.keyBufIndex < keyBufSize then
    { screen := Screen.putcTerminal symbol c.screen, kbd := c.kbd.addToBuffer symbol }
  else c

/-- The backspace branch of `key_handler`.  The byte it clears is the one after
the character it removes. -/
def backspace (c : Console) : Console :=
  if c.kbd.keyBufIndex > 0 then
    { screen := Screen.deletecTerminal (c.kbd.keyBuf (c.kbd.keyBufIndex - 1)) c.screen
      kbd := { c.kbd with
        keyBuf := Function.update c.kbd.keyBuf c.kbd.keyBufIndex 0
        keyBufIndex := c.kbd.keyBufIndex - 1 } }
  else c

/-- The second half of `key_handler`; `symbol` was looked up in the dictionary
of before the interrupt. -/
def handleSymbol (input symbol : UInt8) (c : Console) : Console :=
  if input ≥ 0x80 ∨ c.kbd.modeFlag ≠ 0 then { c with kbd := c.kbd.sendEoi }
  else if symbol = 8 then backspace c
  else if symbol = 10 then
    processToBuffer input { c with kbd := { c.kbd with enterFlag := 1 } }
  else processToBuffer input c

/-- `key_handler`.  The symbol is looked up before the modes are updated, so that `dict` is the
one of the key before. -/
def keyHandler (input : UInt8) (c : Console) : Console :=
  let symbol := keyArray c.kbd.dict input
  let c' := handleSymbol input symbol { c with kbd := c.kbd.updateModes input }
  { c' with kbd := c'.kbd.sendEoi }

end Console

/-! ### Keyboard states

The values the modifiers can take; everything the kernel does keeps them. -/

namespace Keyboard

/-- The codes that only change a modifier. -/
def IsModifier (input : UInt8) : Prop :=
  input = rshiftPressed ∨ input = lshiftPressed ∨ input = rshiftReleased ∨
    input = lshiftReleased ∨ input = capsPressed ∨ input = ctrlPressed ∨ input = ctrlReleased

instance (input : UInt8) : Decidable (IsModifier input) := inferInstanceAs (Decidable (_ ∨ _))

/-- What every run keeps: the index is in the buffer, and the modes have the values that the
handler gives them. -/
structure Ok (k : Keyboard) : Prop where
  index_le : k.keyBufIndex ≤ keyBufSize
  shift : k.shiftMode = 0 ∨ k.shiftMode = 1
  caps : k.capsMode = 0 ∨ k.capsMode = -1
  ctrl : k.ctrlMode = 0 ∨ k.ctrlMode = 1
  dict : k.dict = dictOf k.shiftMode k.capsMode

theorem boot_ok : Ok boot := by
  refine ⟨by decide, .inl rfl, .inl rfl, .inl rfl, by decide⟩

theorem Ok.keyboardEnvironment {k : Keyboard} (h : k.Ok) : k.keyboardEnvironment.Ok :=
  ⟨h.index_le, .inl rfl, .inl rfl, .inl rfl, rfl⟩

/-- Clearing the buffer changes the buffer and its index only. -/
theorem clearKeyBuffer_eq (k : Keyboard) :
    ∃ buf, k.clearKeyBuffer = { k with keyBuf := buf, keyBufIndex := 0 } := by
  have hloop := forLoop_invariant (n := keyBufSize) (s := k)
    (f := fun i (k : Keyboard) => { k with keyBuf := Function.update k.keyBuf i 0 })
    (P := fun _ (t : Keyboard) => ∃ buf, t = { k with keyBuf := buf }) ⟨k.keyBuf, rfl⟩ ?_
  · obtain ⟨buf, hbuf⟩ := hloop
    exact ⟨buf, by rw [clearKeyBuffer, hbuf]⟩
  · rintro i t - ⟨buf, rfl⟩
    exact ⟨Function.update buf i 0, rfl⟩

theorem Ok.clearKeyBuffer {k : Keyboard} (h : k.Ok) : k.clearKeyBuffer.Ok := by
  obtain ⟨buf, hbuf⟩ := clearKeyBuffer_eq k
  rw [hbuf]
  exact ⟨Nat.zero_le _, h.shift, h.caps, h.ctrl, h.dict⟩

/-! The effect of the first half of the handler: what each kind of key does, and then
all variables at once. -/

theorem shiftKey_eq (input : UInt8) (k : Keyboard) :
    shiftKey input k = { k with
      shiftMode :=
        if input = rshiftPressed ∨ input = lshiftPressed then 1
        else if input = rshiftReleased ∨ input = lshiftReleased then 0 else k.shiftMode
      modeFlag :=
        if (input = rshiftPressed ∨ input = lshiftPressed) ∨
          input = rshiftReleased ∨ input = lshiftReleased then 1 else k.modeFlag } := by
  by_cases hp : input = rshiftPressed ∨ input = lshiftPressed
  · rw [shiftKey, if_pos hp, if_pos hp, if_pos (.inl hp)]
  · by_cases hr : input = rshiftReleased ∨ input = lshiftReleased
    · rw [shiftKey, if_neg hp, if_pos hr, if_neg hp, if_pos hr, if_pos (.inr hr)]
    · rw [shiftKey, if_neg hp, if_neg hr, if_neg hp, if_neg hr, if_neg (not_or.mpr ⟨hp, hr⟩)]

theorem capsKey_eq (input : UInt8) (k : Keyboard) :
    capsKey input k = { k with
      capsMode := if input = capsPressed then ~~~k.capsMode else k.capsMode
      modeFlag := if input = capsPressed then 1 else k.modeFlag } := by
  by_cases hc : input = capsPressed
  · rw [capsKey, if_pos hc, if_pos hc, if_pos hc]
  · rw [capsKey, if_neg hc, if_neg hc, if_neg hc]

theorem ctrlKey_eq (input : UInt8) (k : Keyboard) :
    ctrlKey input k = { k with
      ctrlMode :=
        if input = ctrlPressed then 1 else if input = ctrlReleased then 0 else k.ctrlMode
      modeFlag := if input = ctrlPressed ∨ input = ctrlReleased then 1 else k.modeFlag } := by
  by_cases hp : input = ctrlPressed
  · rw [ctrlKey, if_pos hp, if_pos hp, if_pos (.inl hp)]
  · by_cases hr : input = ctrlReleased
    · rw [ctrlKey, if_neg hp, if_pos hr, if_neg hp, if_pos hr, if_pos (.inr hr)]
    · rw [ctrlKey, if_neg hp, if_neg hr, if_neg hp, if_neg hr, if_neg (not_or.mpr ⟨hp, hr⟩)]

theorem updateModes_eq (input : UInt8) (k : Keyboard) :
    ∃ shift caps ctrl flag, k.updateModes input = { k with
        enterFlag := 0, modeFlag := flag, shiftMode := shift, capsMode := caps, ctrlMode := ctrl
        dict := dictOf shift caps } ∧
      shift = (if input = rshiftPressed ∨ input = lshiftPressed then 1
        else if input = rshiftReleased ∨ input = lshiftReleased then 0 else k.shiftMode) ∧
      caps = (if input = capsPressed then ~~~k.capsMode else k.capsMode) ∧
      ctrl = (if input = ctrlPressed then 1 else if input = ctrlReleased then 0
        else k.ctrlMode) ∧
      flag = (if input = ctrlPressed ∨ input = ctrlReleased then 1
        else if input = capsPressed then 1
        else if (input = rshiftPressed ∨ input = lshiftPressed) ∨
          input = rshiftReleased ∨ input = lshiftReleased then 1 else 0) := by
  rw [updateModes, shiftKey_eq, capsKey_eq, ctrlKey_eq]
  exact ⟨_, _, _, _, rfl, rfl, rfl, rfl, rfl⟩

@[simp] theorem updateModes_keyBuf (input : UInt8) (k : Keyboard) :
    (k.updateModes input).keyBuf = k.keyBuf := by
  obtain ⟨_, _, _, _, heq, -⟩ := updateModes_eq input k
  rw [heq]

@[simp] theorem updateModes_keyBufIndex (input : UInt8) (k : Keyboard) :
    (k.updateModes input).keyBufIndex = k.keyBufIndex := by
  obtain ⟨_, _, _, _, heq, -⟩ := updateModes_eq input k
  rw [heq]

@[simp] theorem updateModes_enterFlag (input : UInt8) (k : Keyboard) :
    (k.updateModes input).enterFlag = 0 := by
  obtain ⟨_, _, _, _, heq, -⟩ := updateModes_eq input k
  rw [heq]

theorem updateModes_shiftMode (input : UInt8) (k : Keyboard) :
    (k.updateModes input).shiftMode =
      if input = rshiftPressed ∨ input = lshiftPressed then 1
      else if input = rshiftReleased ∨ input = lshiftReleased then 0 else k.shiftMode := by
  obtain ⟨_, _, _, _, heq, hshift, -⟩ := updateModes_eq input k
  rw [heq]
  exact hshift

theorem updateModes_capsMode (input : UInt8) (k : Keyboard) :
    (k.updateModes input).capsMode =
      if input = capsPressed then ~~~k.capsMode else k.capsMode := by
  obtain ⟨_, _, _, _, heq, -, hcaps, -⟩ := updateModes_eq input k
  rw [heq]
  exact hcaps

theorem updateModes_ctrlMode (input : UInt8) (k : Keyboard) :
    (k.updateModes input).ctrlMode =
      if input = ctrlPressed then 1 else if input = ctrlReleased then 0 else k.ctrlMode := by
  obtain ⟨_, _, _, _, heq, -, -, hctrl, -⟩ := updateModes_eq input k
  rw [heq]
  exact hctrl

theorem updateModes_dict (input : UInt8) (k : Keyboard) :
    (k.updateModes input).dict =
      dictOf (k.updateModes input).shiftMode (k.updateModes input).capsMode := rfl

theorem updateModes_modeFlag (input : UInt8) (k : Keyboard) :
    (k.updateModes input).modeFlag ≠ 0 ↔ IsModifier input := by
  obtain ⟨_, _, _, _, heq, -, -, -, hflag⟩ := updateModes_eq input k
  rw [heq, hflag, IsModifier]
  split_ifs <;> simp only [ne_eq, one_ne_zero, not_false_eq_true, not_true_eq_false] <;> tauto

theorem Ok.updateModes {k : Keyboard} (h : k.Ok) (input : UInt8) : (k.updateModes input).Ok := by
  refine ⟨?_, ?_, ?_, ?_, updateModes_dict input k⟩
  · rw [updateModes_keyBufIndex]
    exact h.index_le
  · rw [updateModes_shiftMode]
    split_ifs
    · exact .inr rfl
    · exact .inl rfl
    · exact h.shift
  · rw [updateModes_capsMode]
    split_ifs
    · rcases h.caps with h0 | h1
      · rw [h0]
        exact .inr rfl
      · rw [h1]
        exact .inl rfl
    · exact h.caps
  · rw [updateModes_ctrlMode]
    split_ifs
    · exact .inr rfl
    · exact .inl rfl
    · exact h.ctrl

/-- A code that is no modifier leaves the modifiers and the dictionary alone. -/
theorem updateModes_of_not_modifier {input : UInt8} {k : Keyboard} (h : k.Ok)
    (hm : ¬ IsModifier input) :
    k.updateModes input = { k with enterFlag := 0, modeFlag := 0 } := by
  simp only [IsModifier, not_or] at hm
  obtain ⟨h1, h2, h3, h4, h5, h6, h7⟩ := hm
  simp [Keyboard.updateModes, ctrlKey, capsKey, shiftKey, h1, h2, h3, h4, h5, h6, h7, ← h.dict]

end Keyboard

/-! ### What one interrupt does

The variables after `key_handler`, for every code; the screen is not involved. -/

theorem length_keyRow (d : Nat) : (keyRow d).length = 79 := by
  match d with
  | 0 => rfl
  | 1 => rfl
  | _ + 2 => rfl

/-- A symbol that every row of the table has at one place only. -/
theorem keyArray_eq_iff {symbol code : UInt8} (h0 : symbol ≠ 0) (hcode : code.toNat < 79)
    (h : ∀ d < 3, ∀ n < 79, (keyRow d).getD n 0 = symbol ↔ n = code.toNat)
    (d : Nat) (input : UInt8) : keyArray d input = symbol ↔ input = code := by
  have hrow : ∃ d' < 3, keyRow d = keyRow d' := by
    match d with
    | 0 => exact ⟨0, by decide, rfl⟩
    | 1 => exact ⟨1, by decide, rfl⟩
    | _ + 2 => exact ⟨2, by decide, rfl⟩
  obtain ⟨d', hd', hrow⟩ := hrow
  rw [keyArray, hrow, ← UInt8.toNat_inj (a := input)]
  by_cases hn : input.toNat < 79
  · exact h d' hd' _ hn
  · -- beyond the entries the source lists, the table holds zeros
    have hlen : (keyRow d').length ≤ input.toNat := by
      rw [length_keyRow]
      omega
    rw [List.getD_eq_getElem?_getD, List.getElem?_eq_none hlen]
    exact iff_of_false (Ne.symm h0) (by omega)

theorem keyArray_eq_backspace (d : Nat) (input : UInt8) : keyArray d input = 8 ↔ input = 0x0E :=
  keyArray_eq_iff (by decide) (by decide) (by decide +kernel) d input

theorem keyArray_eq_newline (d : Nat) (input : UInt8) : keyArray d input = 10 ↔ input = 0x1C :=
  keyArray_eq_iff (by decide) (by decide) (by decide +kernel) d input

/-- The characters in the buffer. -/
def Keyboard.line (k : Keyboard) : List UInt8 := (List.range k.keyBufIndex).map k.keyBuf

@[simp] theorem Keyboard.length_line (k : Keyboard) : k.line.length = k.keyBufIndex := by
  simp [Keyboard.line]

theorem Keyboard.line_clearKeyBuffer (k : Keyboard) : k.clearKeyBuffer.line = [] := rfl

theorem Keyboard.line_addToBuffer {k : Keyboard} (h : k.keyBufIndex < keyBufSize) (symbol : UInt8) :
    (k.addToBuffer symbol).line = k.line ++ [symbol] := by
  rw [addToBuffer, if_pos h]
  simp only [line, List.range_succ, List.map_append, List.map_cons, List.map_nil,
    Function.update_self]
  congr 1
  refine List.map_congr_left fun i hi => ?_
  rw [Function.update_of_ne (List.mem_range.mp hi).ne]

namespace Console

theorem line_backspace (c : Console) : (backspace c).kbd.line = c.kbd.line.dropLast := by
  unfold backspace
  split_ifs with hpos
  · obtain ⟨n, hn⟩ : ∃ n, c.kbd.keyBufIndex = n + 1 := ⟨_, (Nat.succ_pred_eq_of_pos hpos).symm⟩
    simp only [Keyboard.line, hn, Nat.add_sub_cancel, List.range_succ, List.map_append,
      List.map_cons, List.map_nil, List.dropLast_concat]
    refine List.map_congr_left fun i hi => ?_
    have hlt : i < n := List.mem_range.mp hi
    rw [Function.update_of_ne (by omega)]
  · have hnil : c.kbd.line = [] := by
      rw [← List.length_eq_zero_iff, Keyboard.length_line]
      omega
    rw [hnil]
    rfl

/-- `process_to_buffer` appends the symbol if Ctrl is up and there is room. -/
theorem line_processToBuffer (input : UInt8) (c : Console) :
    (processToBuffer input c).kbd.line =
      if c.kbd.ctrlMode = 0 ∧ c.kbd.keyBufIndex < keyBufSize then
        c.kbd.line ++ [keyArray c.kbd.dict input]
      else c.kbd.line := by
  unfold processToBuffer
  by_cases hctrl : c.kbd.ctrlMode = 0
  · by_cases hroom : c.kbd.keyBufIndex < keyBufSize
    · simp only [hctrl, hroom, ne_eq, not_true_eq_false, if_false, if_true, and_self]
      exact Keyboard.line_addToBuffer hroom _
    · simp only [hctrl, hroom, ne_eq, not_true_eq_false, if_false, and_false]
  · simp only [hctrl, ne_eq, not_false_eq_true, if_true, false_and, if_false]
    split_ifs <;> rfl

/-- What the second half of the handler leaves alone. -/
theorem handleSymbol_modes (input symbol : UInt8) (c : Console) :
    (handleSymbol input symbol c).kbd.shiftMode = c.kbd.shiftMode ∧
      (handleSymbol input symbol c).kbd.capsMode = c.kbd.capsMode ∧
      (handleSymbol input symbol c).kbd.ctrlMode = c.kbd.ctrlMode ∧
      (handleSymbol input symbol c).kbd.dict = c.kbd.dict := by
  simp only [handleSymbol, backspace, processToBuffer, Keyboard.addToBuffer, ctrlL]
  split_ifs <;> exact ⟨rfl, rfl, rfl, rfl⟩

/-- The modifiers after an interrupt. -/
theorem keyHandler_modes (input : UInt8) (c : Console) :
    (keyHandler input c).kbd.shiftMode = (c.kbd.updateModes input).shiftMode ∧
      (keyHandler input c).kbd.capsMode = (c.kbd.updateModes input).capsMode ∧
      (keyHandler input c).kbd.ctrlMode = (c.kbd.updateModes input).ctrlMode ∧
      (keyHandler input c).kbd.dict = (c.kbd.updateModes input).dict :=
  handleSymbol_modes input _ _

/-- The line after an interrupt. -/
theorem keyHandler_line {c : Console} (h : c.kbd.Ok) (input : UInt8) :
    (keyHandler input c).kbd.line =
      if input ≥ 0x80 ∨ Keyboard.IsModifier input then c.kbd.line
      else if input = 0x0E then c.kbd.line.dropLast
      else if c.kbd.ctrlMode = 0 ∧ c.kbd.keyBufIndex < keyBufSize then
        c.kbd.line ++ [keyArray c.kbd.dict input]
      else c.kbd.line := by
  show (handleSymbol input (keyArray c.kbd.dict input)
    { c with kbd := c.kbd.updateModes input }).kbd.line = _
  simp only [handleSymbol, Keyboard.updateModes_modeFlag, keyArray_eq_backspace,
    keyArray_eq_newline]
  have hline : (c.kbd.updateModes input).line = c.kbd.line := by
    simp only [Keyboard.line, Keyboard.updateModes_keyBuf, Keyboard.updateModes_keyBufIndex]
  by_cases hm : input ≥ 0x80 ∨ Keyboard.IsModifier input
  · rw [if_pos hm, if_pos hm]
    exact hline
  · have hupd := Keyboard.updateModes_of_not_modifier h (not_or.mp hm).2
    rw [if_neg hm, if_neg hm]
    split_ifs with hback henter hroom hroom
    · rw [line_backspace, hline]
    all_goals
      rw [line_processToBuffer, hupd]
      first | exact if_pos hroom | exact if_neg hroom

/-- The flag after an interrupt: whatever it was before, it now says whether
this code was a press of Enter. -/
theorem keyHandler_enterFlag (input : UInt8) (c : Console) :
    (keyHandler input c).kbd.enterFlag = if input = 0x1C then 1 else 0 := by
  show (handleSymbol input (keyArray c.kbd.dict input)
    { c with kbd := c.kbd.updateModes input }).kbd.enterFlag = _
  simp only [handleSymbol, Keyboard.updateModes_modeFlag, keyArray_eq_backspace,
    keyArray_eq_newline]
  by_cases henter : input = 0x1C
  · subst henter
    rw [if_neg (by decide), if_neg (by decide), if_pos rfl, if_pos rfl]
    simp only [processToBuffer, Keyboard.addToBuffer, ctrlL]
    split_ifs <;> rfl
  · rw [if_neg henter, if_neg henter]
    simp only [backspace, processToBuffer, Keyboard.addToBuffer, ctrlL]
    split_ifs <;> exact Keyboard.updateModes_enterFlag input c.kbd

theorem keyHandler_ok {c : Console} (h : c.kbd.Ok) (input : UInt8) : (keyHandler input c).kbd.Ok := by
  obtain ⟨hs, hc, ht, hd⟩ := keyHandler_modes input c
  have hu := h.updateModes input
  refine ⟨?_, hs ▸ hu.shift, hc ▸ hu.caps, ht ▸ hu.ctrl, by rw [hd, hs, hc]; exact hu.dict⟩
  rw [← Keyboard.length_line, keyHandler_line h]
  have hle := h.index_le
  split_ifs with hm hback hroom
  · simpa using hle
  · rw [List.length_dropLast, Keyboard.length_line]
    omega
  · rw [List.length_append, Keyboard.length_line]
    exact hroom.2
  · simpa using hle

end Console

/-! ### What the kernel does to the screen -/

/-- The operations that touch the screen or decide what is erased from it. -/
inductive ScreenOp where
  | putc (c : UInt8)            -- `printf`
  | putcTerminal (c : UInt8)    -- `terminal_write`, and the echo of a key
  | addToBuffer (c : UInt8)     -- the key is also appended to the line
  | clearKeyBuffer              -- `terminal_read`
  | ctrlL
  | backspace

/-- One operation of the handler. -/
def ScreenOp.apply (c : Console) : ScreenOp → Console
  | .putc ch => { c with screen := Screen.putc ch c.screen }
  | .putcTerminal ch => { c with screen := Screen.putcTerminal ch c.screen }
  | .addToBuffer ch => { c with kbd := c.kbd.addToBuffer ch }
  | .clearKeyBuffer => { c with kbd := c.kbd.clearKeyBuffer }
  | .ctrlL => c.ctrlL
  | .backspace => c.backspace

/-- The operations of one keyboard interrupt: none for a release or a modifier,
else an erasure, a cleared screen, or an echoed and buffered character. -/
def Console.keyOps (input : UInt8) (c : Console) : List ScreenOp :=
  let k := c.kbd.updateModes input
  let symbol := keyArray k.dict input
  if input ≥ 0x80 ∨ k.modeFlag ≠ 0 then []
  else if keyArray c.kbd.dict input = 8 then [.backspace]
  else if k.ctrlMode ≠ 0 then (if symbol = 108 ∨ symbol = 76 then [.ctrlL] else [])
  else if k.keyBufIndex < keyBufSize then [.putcTerminal symbol, .addToBuffer symbol]
  else []

/-- On the screen and the line buffer `key_handler` acts as these operations. -/
theorem keyHandler_ops (input : UInt8) (c : Console) :
    (c.keyHandler input).screen = ((c.keyOps input).foldl ScreenOp.apply c).screen ∧
      (c.keyHandler input).kbd.keyBuf = ((c.keyOps input).foldl ScreenOp.apply c).kbd.keyBuf ∧
      (c.keyHandler input).kbd.keyBufIndex =
        ((c.keyOps input).foldl ScreenOp.apply c).kbd.keyBufIndex := by
  have hbuf := Keyboard.updateModes_keyBuf input c.kbd
  have hidx := Keyboard.updateModes_keyBufIndex input c.kbd
  simp only [Console.keyHandler, Console.handleSymbol, Console.keyOps]
  generalize c.kbd.updateModes input = k at hbuf hidx
  by_cases hm : input ≥ 0x80 ∨ k.modeFlag ≠ 0
  · simp only [if_pos hm]
    exact ⟨rfl, hbuf, hidx⟩
  simp only [if_neg hm]
  by_cases hback : keyArray c.kbd.dict input = 8
  · simp only [if_pos hback, List.foldl_cons, List.foldl_nil, ScreenOp.apply, Console.backspace,
      hbuf, hidx]
    split_ifs
    · exact ⟨rfl, rfl, rfl⟩
    · exact ⟨rfl, hbuf, hidx⟩
  -- setting the flag for Enter makes no difference to what is buffered
  simp only [if_neg hback, Console.processToBuffer, Console.ctrlL, Keyboard.addToBuffer]
  split_ifs <;>
    simp_all [ScreenOp.apply, Keyboard.addToBuffer, Keyboard.sendEoi, Console.ctrlL]

/-- What an operation needs to keep the screen in range. -/
def ScreenOp.Fits (c : Console) : ScreenOp → Prop
  | .putc ch => Screen.IsNewline ch → c.screen.screenY + 1 < numRows
  | .putcTerminal ch => ch = 9 → c.screen.screenX + tabSize < numCols
  | .backspace =>
      0 < c.kbd.keyBufIndex →
        (Screen.eraseCount (c.kbd.keyBuf (c.kbd.keyBufIndex - 1)) : Int) ≤ c.screen.before
  | _ => True

instance decidableFits (c : Console) : (op : ScreenOp) → Decidable (op.Fits c)
  | .putc _ => inferInstanceAs (Decidable (_ → _))
  | .putcTerminal _ => inferInstanceAs (Decidable (_ → _))
  | .backspace => inferInstanceAs (Decidable (_ → _))
  | .addToBuffer _ => instDecidableTrue
  | .clearKeyBuffer => instDecidableTrue
  | .ctrlL => instDecidableTrue

/-- One operation: from a screen in range it leads to one exactly if it fits. -/
theorem ScreenOp.fits_iff {c : Console} (h : c.screen.InRange) (op : ScreenOp) :
    op.Fits c ↔ (op.apply c).screen.InRange := by
  cases op with
  | putc ch => exact (Screen.putc_inRange h).symm
  | putcTerminal ch => exact (Screen.putcTerminal_inRange h).symm
  | addToBuffer ch => exact iff_of_true trivial h
  | clearKeyBuffer => exact iff_of_true trivial h
  | ctrlL => exact iff_of_true trivial (Screen.clear_home_inRange h.cells)
  | backspace =>
      show (0 < c.kbd.keyBufIndex → _) ↔ (Console.backspace c).screen.InRange
      unfold Console.backspace
      split_ifs with hpos
      · rw [Screen.deletecTerminal_inRange h]
        exact ⟨fun h' => h' hpos, fun h' _ => h'⟩
      · exact iff_of_true (fun h' => absurd h' hpos) h

/-- A console with the cursor at `(0, 0)` and nothing stored to the screen yet. -/
def Console.home (vmem : Int → UInt8) (cursor : Nat) (kbd : Keyboard) : Console :=
  { screen := ⟨0, 0, vmem, cursor, []⟩, kbd := kbd }

theorem Console.home_inRange (vmem : Int → UInt8) (cursor : Nat) (kbd : Keyboard) :
    (Console.home vmem cursor kbd).screen.InRange where
  cursor := ⟨⟨le_rfl, (by decide : (0 : Int) < numCols)⟩, le_rfl, (by decide : (0 : Int) < numRows)⟩
  cells := fun _ h => absurd h List.not_mem_nil

/-- **The screen invariant.**  From cursor `(0, 0)`, a sequence of screen
operations keeps the cursor on the grid and all its stores inside the 80 * 25
cells, in every state it passes through, exactly if each operation fits: no tab
within three columns of the right edge, no `putc` newline on the last row, and
no erasure of more cells than there are before the cursor. -/
theorem screenOps_inRange_iff (vmem : Int → UInt8) (cursor : Nat) (kbd : Keyboard)
    (ops : List ScreenOp) :
    Along (total ScreenOp.apply) (fun c op => op.Fits c) (Console.home vmem cursor kbd) ops ↔
      ∀ pre post, ops = pre ++ post →
        (pre.foldl ScreenOp.apply (Console.home vmem cursor kbd)).screen.InRange := by
  exact along_total_iff (I := fun c : Console => c.screen.InRange) (fun c op hc => ScreenOp.fits_iff hc op)
    (Console.home_inRange vmem cursor kbd) ops

/-- Sequences that leave the grid: 27 tabs, 25 newlines of `putc`, and a typed
character that Ctrl-L has already cleared from the screen and that is then
erased. -/
theorem screenOps_leave_grid :
    let c := Console.home (fun _ => 0) 0 Keyboard.boot
    ¬ ((List.replicate 27 (.putcTerminal 9)).foldl ScreenOp.apply c).screen.InRange ∧
    ¬ ((List.replicate 25 (.putc 10)).foldl ScreenOp.apply c).screen.InRange ∧
    ¬ ([.putcTerminal 97, .addToBuffer 97, .ctrlL, .backspace].foldl ScreenOp.apply c).screen.InRange := by
  refine ⟨fun h => ?_, fun h => ?_, fun h => ?_⟩
  · exact absurd h.cursor.1.2 (by decide)
  · exact absurd h.cursor.2.2 (by decide)
  · exact absurd h.cursor.2.1 (by decide)

end LinuxBasedOs
