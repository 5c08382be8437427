/-
LinuxBasedOs/LineEditor.lean

The line buffer as a whole: `key_buf[0 .. key_buf_index)` against a line editor
that holds at most 128 characters.

`Editor.edit` is the editor with that limit: a key types its character if it has
one, Ctrl is up and there is room, backspace removes the last character, and
nothing else changes the line.  `process_to_buffer` does not ask whether the key
has a character: with Ctrl up and room left it appends the table entry 0 of Alt,
the function keys and the arrows.  `keyHandler_edits_iff` says that this is the
only difference, for every sequence of codes.
-/
import LinuxBasedOs.TerminalRead

namespace LinuxBasedOs

open Transition

/-- One key code for an editor whose line holds at most `keyBufSize` characters. -/
def Editor.edit (e : Editor) (input : UInt8) : Editor :=
  { e.press input with
    line :=
      if input ≥ 0x80 ∨ Keyboard.IsModifier input then e.line
      else if input = 0x0E then e.line.dropLast
      else if e.ctrl ∨ keyArray (Editor.row e.shift e.caps) input = 0 ∨
          keyBufSize ≤ e.line.length then e.line
      else e.line ++ [keyArray (Editor.row e.shift e.caps) input] }

/-- The code makes the driver append a character that the key does not have. -/
def Keyboard.TypesNul (k : Keyboard) (input : UInt8) : Prop :=
  ¬ (input ≥ 0x80 ∨ Keyboard.IsModifier input) ∧ k.ctrlMode = 0 ∧ k.keyBufIndex < keyBufSize ∧
    keyArray k.dict input = 0

instance (k : Keyboard) (input : UInt8) : Decidable (k.TypesNul input) :=
  inferInstanceAs (Decidable (_ ∧ _))

/-- The line after one interrupt is the editor's, unless the key has no
character and the driver takes it for one. -/
theorem line_keyHandler_edit {c : Console} (h : c.kbd.Ok) (input : UInt8) :
    (c.keyHandler input).kbd.line = (c.kbd.editor.edit input).line ↔ ¬ c.kbd.TypesNul input := by
  rw [Console.keyHandler_line h]
  simp only [Editor.edit, ← h.row, Keyboard.TypesNul]
  by_cases hm : input ≥ 0x80 ∨ Keyboard.IsModifier input
  · rw [if_pos hm, if_pos hm]
    exact iff_of_true rfl fun h' => h'.1 hm
  rw [if_neg hm, if_neg hm]
  by_cases hback : input = 0x0E
  · rw [if_pos hback, if_pos hback]
    refine iff_of_true rfl fun h' => ?_
    -- backspace has the character 8
    have h8 := (keyArray_eq_backspace c.kbd.dict input).mpr hback
    rw [h'.2.2.2] at h8
    cases h8
  rw [if_neg hback, if_neg hback]
  have hctrl : c.kbd.editor.ctrl = true ↔ c.kbd.ctrlMode ≠ 0 := decide_eq_true_iff
  have hlen : c.kbd.editor.line.length = c.kbd.keyBufIndex := c.kbd.length_line
  by_cases hroom : c.kbd.ctrlMode = 0 ∧ c.kbd.keyBufIndex < keyBufSize
  · rw [if_pos hroom]
    by_cases hsym : keyArray c.kbd.dict input = 0
    · -- the line grows by a NUL where the editor's stays as it is
      rw [if_pos (.inr (.inl hsym))]
      refine iff_of_false (fun h' => ?_) (not_not.mpr ⟨hm, hroom.1, hroom.2, hsym⟩)
      have hgrow := congrArg List.length h'
      rw [List.length_append, hlen, Keyboard.length_line] at hgrow
      exact absurd hgrow (Nat.succ_ne_self _)
    · rw [if_neg]
      · exact iff_of_true rfl fun h' => hsym h'.2.2.2
      · rintro (h' | h' | h')
        · exact hctrl.mp h' hroom.1
        · exact hsym h'
        · omega
  · rw [if_neg hroom, if_pos]
    · exact iff_of_true rfl fun h' => hroom ⟨h'.2.1, h'.2.2.1⟩
    · rcases not_and_or.mp hroom with h' | h'
      · exact .inl (hctrl.mpr h')
      · exact .inr (.inr (by omega))

/-- The driver and the editor hold the same modifiers. -/
def Console.SameModes (c : Console) (e : Editor) : Prop :=
  c.kbd.Ok ∧ c.kbd.editor = { e with line := c.kbd.line }

/-- **The line buffer is a line editor.**  From every state of the keyboard, for
every sequence of codes: the buffer holds what the editor holds, after each of
them, exactly if no key without a character is pressed while Ctrl is up and there
is room. -/
theorem keyHandler_edits_iff (c : Console) (hok : c.kbd.Ok) (inputs : List UInt8) :
    Along (total fun c input => Console.keyHandler input c)
        (fun c input => ¬ c.kbd.TypesNul input) c inputs ↔
      ∀ pre post, inputs = pre ++ post →
        (pre.foldl (fun c input => Console.keyHandler input c) c).kbd.line =
          (pre.foldl Editor.edit c.kbd.editor).line := by
  refine along_total_pair (J := Console.SameModes) (P := fun c e => c.kbd.line = e.line)
    inputs ?_ ?_ ⟨hok, rfl⟩ rfl
  · rintro c e input - ⟨hok, hmodes⟩
    refine ⟨Console.keyHandler_ok hok input, ?_⟩
    rw [editor_keyHandler_modes hok, hmodes]
    rfl
  · rintro c e input - ⟨hok, hmodes⟩ hline
    have he : c.kbd.editor = e := by
      rw [hmodes, hline]
    rw [← he, line_keyHandler_edit hok]

/-- A driver just set up, and the keys `a`, Shift, `b`. -/
theorem keyHandler_edits_ab :
    Keyboard.boot.Ok ∧
      (∀ pre post, [0x1E, 0x2A, 0x30] = pre ++ post →
        (pre.foldl (fun c input => Console.keyHandler input c)
            (Console.home (fun _ => 0) 0 Keyboard.boot)).kbd.line =
          (pre.foldl Editor.edit Keyboard.boot.editor).line) :=
  ⟨Keyboard.boot_ok,
    (keyHandler_edits_iff (Console.home (fun _ => 0) 0 Keyboard.boot) Keyboard.boot_ok
      [0x1E, 0x2A, 0x30]).mp (by decide +kernel)⟩

/-- F1 puts a NUL into an empty buffer, where the editor's line stays empty. -/
theorem functionKey_buffered :
    ((Console.home (fun _ => 0) 0 Keyboard.boot).keyHandler 0x3B).kbd.line = [0] ∧
      (Keyboard.boot.editor.edit 0x3B).line = [] := by
  decide +kernel

end LinuxBasedOs
